import Mathlib
import Cykusz.Mm.BuddyLoops

/-!
# The buddy allocator hands out no memory twice

The runs of the allocator (`Reach`) start from `init`; ranges are added page-aligned and disjoint
from the ranges before them, and `alloc` and the `dealloc` of an outstanding block with its own
order interleave freely. Over every run the invariant `Inv` holds (`reach_inv`): every free block
lies inside the added memory `cover`, the free blocks and the outstanding blocks are pairwise
disjoint, and every `freecnt` counts the set bits of its bitmap.

The added memory is the union of the ranges, and a free block need not lie inside one of them:
`dealloc` merges a block with its buddy by address alone, across the boundary of two adjacent
ranges (`straddle_not_in_one_range`).

Two runs show where the code goes wrong: the buddy probe of a merged block can index past its
bitmap (`dealloc_probe_past_bitmap`), and `in_range` refuses the last block of a range, which then
never comes back (`dealloc_leaks_range_end`).
-/

namespace Cykusz.Buddy

open Align

namespace BuddyAlloc

variable {s s' : BuddyAlloc} {out : List Block}

/-! ## The added memory -/

/-- The memory of the ranges added so far. -/
def cover (s : BuddyAlloc) : Set ℕ := ⋃ r ∈ s.ranges, Set.Ico r.1 r.2

theorem SameShape.cover_eq (h : SameShape s s') : s'.cover = s.cover := by
  simp only [cover, h.ranges]

theorem cover_append_range (t : BuddyAlloc) (a b : ℕ) :
    ({ t with ranges := t.ranges ++ [(a, b)] } : BuddyAlloc).cover = t.cover ∪ Set.Ico a b := by
  simp [cover, Set.iUnion_or, Set.iUnion_union_distrib]

theorem disjoint_cover {X : Set ℕ} (h : ∀ r ∈ s.ranges, Disjoint (Set.Ico r.1 r.2) X) :
    Disjoint s.cover X := by
  simp only [cover, Set.disjoint_iUnion_left]
  exact h

/-! ## The invariant -/

/-- The allocator's invariant over the free blocks and the blocks `out` that `alloc` handed out and
that are not freed yet. -/
structure Inv (s : BuddyAlloc) (out : List Block) : Prop where
  count : s.CountOk
  free_cover : ∀ f ∈ s.freeSet, f.ival ⊆ s.cover
  out_placed : ∀ b ∈ out, s.Placed b
  out_cover : ∀ b ∈ out, b.ival ⊆ s.cover
  free_disj : s.freeSet.PairwiseDisjoint Block.ival
  out_disj : out.Pairwise fun b c => Disjoint b.ival c.ival
  free_out : ∀ f ∈ s.freeSet, ∀ b ∈ out, Disjoint f.ival b.ival
  ranges_disj : s.ranges.Pairwise fun r r' => Disjoint (Set.Ico r.1 r.2) (Set.Ico r'.1 r'.2)

instance : Std.Symm fun b c : Block => Disjoint b.ival c.ival := ⟨fun _ _ h => h.symm⟩

theorem Inv.out_nodup (hi : Inv s out) : out.Nodup :=
  hi.out_disj.imp Block.ne_of_disjoint

/-- Forgetting an outstanding block keeps the invariant. -/
theorem Inv.erase (hi : Inv s out) (c : Block) : Inv s (out.erase c) where
  count := hi.count
  free_cover := hi.free_cover
  out_placed b hb := hi.out_placed b (List.mem_of_mem_erase hb)
  out_cover b hb := hi.out_cover b (List.mem_of_mem_erase hb)
  free_disj := hi.free_disj
  out_disj := hi.out_disj.sublist List.erase_sublist
  free_out f hf b hb := hi.free_out f hf b (List.mem_of_mem_erase hb)
  ranges_disj := hi.ranges_disj

/-! ## `init` -/

theorem init_eq_some {start «end» : ℕ} (h : new.init start «end» = some s) :
    s.ranges = [] ∧ (∀ o, s.freecnt o = 0) ∧ ∀ o, ∃ n, s.buddies o = List.replicate n false := by
  unfold init at h
  split_ifs at h
  cases h
  exact ⟨rfl, fun _ => rfl, fun _ => ⟨_, rfl⟩⟩

/-- Zeroed bitmaps have no free block. -/
theorem freeSet_eq_empty (h : ∀ o, ∃ n, s.buddies o = List.replicate n false) :
    s.freeSet = ∅ := by
  ext ⟨a, o⟩
  simp only [Set.mem_empty_iff_false, iff_false]
  rintro ⟨i, hi, -⟩
  obtain ⟨n, hn⟩ := h o
  rw [hn, List.getElem?_replicate] at hi
  split_ifs at hi
  simp at hi

theorem inv_init {start «end» : ℕ} (h : new.init start «end» = some s) : Inv s [] := by
  obtain ⟨hr, hc, hb⟩ := init_eq_some h
  have hfree := freeSet_eq_empty hb
  refine ⟨fun o => ?_, ?_, by simp, by simp, ?_, List.Pairwise.nil, by simp, ?_⟩
  · obtain ⟨n, hn⟩ := hb o
    rw [hc o, hn, List.count_replicate]
    rfl
  · simp [hfree]
  · simp [hfree]
  · simp [hr]

/-! ## `add_range` -/

theorem addRange_eq_some {a b : ℕ} (h : s.addRange a b = some s') :
    s.start ≤ a ∧ a ≤ b ∧ ∃ t, s.addRangeLoop a (b - a) (b - a) = some t ∧
      s' = { t with ranges := t.ranges ++ [(a, b)] } := by
  unfold addRange at h
  split_ifs at h with hg
  obtain ⟨t, ht, rfl⟩ := Option.map_eq_some_iff.1 h
  exact ⟨hg.1, hg.2.2.2, t, ht, rfl⟩

/-- Adding a page-aligned range disjoint from the ranges before it keeps the invariant: the blocks
it marks free lie in the new range, away from every block that was free or handed out. -/
theorem inv_addRange {a b : ℕ} (hi : Inv s out) (ha : 0x1000 ∣ a)
    (hnew : ∀ r ∈ s.ranges, Disjoint (Set.Ico r.1 r.2) (Set.Ico a b))
    (h : s.addRange a b = some s') : Inv s' out := by
  obtain ⟨hle, hab, t, ht, rfl⟩ := addRange_eq_some h
  have hblock : block a (b - a) = Set.Ico a b := by
    simp only [block, Nat.add_sub_cancel' hab]
  have hsep : Disjoint s.cover (Set.Ico a b) := disjoint_cover hnew
  have hloose : ∀ f ∈ s.freeSet, Disjoint f.ival (block a (b - a)) := fun f hf =>
    hblock ▸ hsep.mono_left (hi.free_cover f hf)
  obtain ⟨hsh, hcnt, N, hfree, hNcov, hNdisj⟩ := addRangeLoop_spec ha hle hloose ht
  have hN : ∀ x ∈ N, x.ival ⊆ Set.Ico a b := fun x hx =>
    hblock ▸ hNcov ▸ Set.subset_biUnion_of_mem hx
  -- recording the range changes neither the bitmaps nor `start`
  have hfs : ({ t with ranges := t.ranges ++ [(a, b)] } : BuddyAlloc).freeSet = s.freeSet ∪ N :=
    hfree
  have hcov : ({ t with ranges := t.ranges ++ [(a, b)] } : BuddyAlloc).cover =
      s.cover ∪ Set.Ico a b := by
    rw [cover_append_range, hsh.cover_eq]
  refine ⟨hcnt hi.count, ?_, fun c hc => hsh.placed_iff.2 (hi.out_placed c hc), ?_, ?_,
    hi.out_disj, ?_, ?_⟩
  · intro f hf
    rw [hfs] at hf
    rw [hcov]
    rcases hf with hf | hf
    · exact (hi.free_cover f hf).trans Set.subset_union_left
    · exact (hN f hf).trans Set.subset_union_right
  · intro c hc
    rw [hcov]
    exact (hi.out_cover c hc).trans Set.subset_union_left
  · rw [hfs]
    exact Set.pairwiseDisjoint_union.2 ⟨hi.free_disj, hNdisj,
      fun f hf x hx _ => hsep.mono (hi.free_cover f hf) (hN x hx)⟩
  · intro f hf c hc
    rw [hfs] at hf
    rcases hf with hf | hf
    · exact hi.free_out f hf c hc
    · exact (hsep.mono (hi.out_cover c hc) (hN f hf)).symm
  · show (t.ranges ++ [(a, b)]).Pairwise _
    rw [List.pairwise_append, hsh.ranges]
    refine ⟨hi.ranges_disj, List.pairwise_singleton _ _, fun r hr r' hr' => ?_⟩
    rw [List.mem_singleton] at hr'
    subst hr'
    exact hnew r hr

/-! ## `alloc` -/

/-- An allocation keeps the invariant: the free block `F` it takes is split into the handed out
block and the pieces marked free again, all inside `F`, which was disjoint from every other free
or handed out block. -/
theorem inv_alloc {o : Order} {a : ℕ} (hi : Inv s out) (h : s.alloc o.val = some (some a, s')) :
    Inv s' (⟨a, o⟩ :: out) := by
  obtain ⟨ho, hsh, hcnt, -, hspec⟩ := alloc_spec h
  obtain ⟨i, hoi, hF, hfree, -⟩ := hspec a rfl
  simp only [Fin.eta] at hoi hfree
  have hpF := placed_of_mem_freeSet hF
  have hsub : Block.ival ⟨a, o⟩ ⊆ Block.ival ⟨a, i⟩ :=
    block_subset_block le_rfl (Nat.add_le_add_left (bsize_le_bsize hoi) a)
  have hpieces : ∀ x ∈ pieces a o i.val, x.ival ⊆ Block.ival ⟨a, i⟩ := fun x hx =>
    ival_subset_of_mem_pieces hx
  have hFcov := hi.free_cover _ hF
  have hFfree : ∀ f ∈ s.freeSet, f ≠ ⟨a, i⟩ → Disjoint f.ival (Block.ival ⟨a, i⟩) :=
    fun f hf hne => hi.free_disj hf hF hne
  have hFout : ∀ c ∈ out, Disjoint (Block.ival ⟨a, i⟩) c.ival := hi.free_out _ hF
  refine ⟨hcnt hi.count, ?_, ?_, ?_, ?_, ?_, ?_, hsh.ranges ▸ hi.ranges_disj⟩
  · intro f hf
    rw [hfree] at hf
    rw [hsh.cover_eq]
    rcases hf with ⟨hf, -⟩ | hf
    · exact hi.free_cover f hf
    · exact (hpieces f hf).trans hFcov
  · intro c hc
    rw [hsh.placed_iff]
    rcases List.mem_cons.1 hc with rfl | hc
    · exact ⟨(bsize_dvd_bsize hoi).trans hpF.1, hpF.2⟩
    · exact hi.out_placed c hc
  · intro c hc
    rw [hsh.cover_eq]
    rcases List.mem_cons.1 hc with rfl | hc
    · exact hsub.trans hFcov
    · exact hi.out_cover c hc
  · rw [hfree]
    exact Set.pairwiseDisjoint_union.2 ⟨hi.free_disj.subset Set.sdiff_subset,
      pieces_pairwiseDisjoint _ _ _, fun f hf x hx _ => (hFfree f hf.1 hf.2).mono_right (hpieces x hx)⟩
  · exact List.pairwise_cons.2 ⟨fun c hc => (hFout c hc).mono_left hsub, hi.out_disj⟩
  · intro f hf c hc
    rw [hfree] at hf
    rcases List.mem_cons.1 hc with rfl | hc
    · rcases hf with hf | hf
      · exact (hFfree f hf.1 hf.2).mono_right hsub
      · exact (disjoint_pieces hf).symm
    · rcases hf with hf | hf
      · exact hi.free_out f hf.1 c hc
      · exact (hFout c hc).mono_left (hpieces f hf)

/-! ## `dealloc` -/

theorem dealloc_eq_some {c : Block} (h : s.dealloc c.addr c.order.val = some s') :
    s' = s ∨ deallocLoop c.addr ((List.finRange buddyCount).drop c.order.val) s = some s' := by
  unfold dealloc at h
  rw [dif_pos c.order.isLt] at h
  split_ifs at h
  · exact Or.inl (Option.some.inj h).symm
  · exact Or.inr h

/-- Freeing an outstanding block keeps the invariant: the merged block is made of the freed block
and of free buddies, each disjoint from every other free or handed out block. -/
theorem inv_dealloc {c : Block} (hi : Inv s out) (hc : c ∈ out)
    (h : s.dealloc c.addr c.order.val = some s') : Inv s' (out.erase c) := by
  rcases dealloc_eq_some h with rfl | h
  · exact hi.erase c
  obtain ⟨hsh, hcnt, m, R, hR, hfree, hm⟩ := deallocLoop_spec rfl (hi.out_placed c hc)
    hi.free_disj (fun f hf => hi.free_out f hf c hc) h
  -- what is disjoint from `c` and from the merged buddies is disjoint from the merged block
  have hmerged : ∀ X, Disjoint c.ival X → (∀ r ∈ R, Disjoint r.ival X) → Disjoint m.ival X :=
    fun X hcX hRX => Disjoint.mono_left hm
      (Disjoint.union_left hcX (Set.disjoint_iUnion₂_left.2 hRX))
  have herase : ∀ b ∈ out.erase c, b ≠ c ∧ b ∈ out := fun b hb =>
    (hi.out_nodup.mem_erase_iff).1 hb
  refine ⟨hcnt hi.count, ?_, fun b hb => hsh.placed_iff.2 (hi.out_placed b (herase b hb).2),
    fun b hb => hsh.cover_eq ▸ hi.out_cover b (herase b hb).2, ?_,
    hi.out_disj.sublist List.erase_sublist, ?_, hsh.ranges ▸ hi.ranges_disj⟩
  · intro f hf
    rw [hfree] at hf
    rw [hsh.cover_eq]
    rcases hf with rfl | hf
    · exact hm.trans (Set.union_subset (hi.out_cover c hc)
        (Set.iUnion₂_subset fun r hr => hi.free_cover r (hR hr)))
    · exact hi.free_cover f hf.1
  · rw [hfree]
    refine hi.free_disj.subset Set.sdiff_subset |>.insert fun f hf _ => hmerged _
      (hi.free_out f hf.1 c hc).symm fun r hr => hi.free_disj (hR hr) hf.1 ?_
    rintro rfl
    exact hf.2 hr
  · intro f hf b hb
    obtain ⟨hne, hb⟩ := herase b hb
    rw [hfree] at hf
    rcases hf with rfl | hf
    · exact hmerged _ (hi.out_disj.forall hc hb hne.symm) fun r hr => hi.free_out r (hR hr) b hb
    · exact hi.free_out f hf.1 b hb

/-! ## Runs -/

/-- The runs of the allocator from `init start end`, with the blocks that `alloc` handed out and
that are not freed yet: ranges are added page-aligned and disjoint from the ranges before them,
and only an outstanding block is freed, with its own order. -/
inductive Reach (start «end» : ℕ) : BuddyAlloc → List Block → Prop
  | init {s : BuddyAlloc} : new.init start «end» = some s → Reach start «end» s []
  | addRange {s s' : BuddyAlloc} {out : List Block} {a b : ℕ} : Reach start «end» s out →
      0x1000 ∣ a → (∀ r ∈ s.ranges, Disjoint (Set.Ico r.1 r.2) (Set.Ico a b)) →
      s.addRange a b = some s' → Reach start «end» s' out
  | alloc {s s' : BuddyAlloc} {out : List Block} {o : Order} {a : ℕ} : Reach start «end» s out →
      s.alloc o.val = some (some a, s') → Reach start «end» s' (⟨a, o⟩ :: out)
  | allocNone {s s' : BuddyAlloc} {out : List Block} {o : ℕ} : Reach start «end» s out →
      s.alloc o = some (none, s') → Reach start «end» s' out
  | dealloc {s s' : BuddyAlloc} {out : List Block} {b : Block} : Reach start «end» s out →
      b ∈ out → s.dealloc b.addr b.order.val = some s' → Reach start «end» s' (out.erase b)

/-- The invariant holds over every run. -/
theorem reach_inv {start «end» : ℕ} (h : Reach start «end» s out) : Inv s out := by
  induction h with
  | init hs => exact inv_init hs
  | addRange _ ha hnew hs ih => exact inv_addRange ih ha hnew hs
  | alloc _ hs ih => exact inv_alloc ih hs
  | allocNone _ hs ih =>
    obtain ⟨_, -, -, hnone, -⟩ := alloc_spec hs
    rw [(hnone rfl).1]
    exact ih
  | dealloc _ hb hs ih => exact inv_dealloc ih hb hs

/-- Over every run, every set bit stands for an aligned block inside the added memory, the free
blocks of all orders and the outstanding blocks are pairwise disjoint, and every count is the
number of set bits of its bitmap. -/
theorem reach_blocks_disjoint {start «end» : ℕ} (h : Reach start «end» s out) :
    (∀ (o : Order) (i : ℕ), (s.buddies o)[i]? = some true →
      bsize o ∣ s.blockAddr o i ∧ block (s.blockAddr o i) (bsize o) ⊆ s.cover) ∧
    s.freeSet.PairwiseDisjoint Block.ival ∧
    out.Pairwise (fun b c => Disjoint b.ival c.ival) ∧
    (∀ f ∈ s.freeSet, ∀ b ∈ out, Disjoint f.ival b.ival) ∧
    ∀ o, s.freecnt o = (s.buddies o).count true := by
  have hi := reach_inv h
  refine ⟨fun o i hb => ⟨(placed_blockAddr s o i).1, ?_⟩, hi.free_disj, hi.out_disj, hi.free_out,
    hi.count⟩
  exact hi.free_cover ⟨s.blockAddr o i, o⟩ ⟨i, hb, rfl⟩

/-! ## A merge across two ranges -/

/-- Two adjacent ranges; a block of order 0 is allocated from the first and one of order 1 from
the second, and both are freed again. -/
def straddleRun : Option BuddyAlloc := do
  let s ← new.init 0 0x10000
  let s ← s.addRange 0x4000 0x6000
  let s ← s.addRange 0x6000 0xA000
  let (_, s) ← s.alloc 0
  let (_, s) ← s.alloc 1
  let s ← s.dealloc 0x4000 0
  s.dealloc 0x6000 1

/-- The state `straddleRun` ends in. -/
def straddleState : BuddyAlloc := straddleRun.getD new

theorem disjoint_Ico_of_le {l : List (ℕ × ℕ)} {a b : ℕ} (h : ∀ r ∈ l, r.2 ≤ a) :
    ∀ r ∈ l, Disjoint (Set.Ico r.1 r.2) (Set.Ico a b) := fun r hr =>
  Set.Ico_disjoint_Ico.2 ((min_le_left _ _).trans ((h r hr).trans (le_max_right _ _)))

theorem straddle_reach : Reach 0 0x10000 straddleState [] := by
  have h₀ : Reach 0 0x10000 _ [] := .init rfl
  have h₁ := h₀.addRange (a := 0x4000) (b := 0x6000) (by decide)
    (disjoint_Ico_of_le (by decide)) rfl
  have h₂ := h₁.addRange (a := 0x6000) (b := 0xA000) (by decide)
    (disjoint_Ico_of_le (by decide)) rfl
  have h₃ := h₂.alloc (o := 0) (a := 0x4000) rfl
  have h₄ := h₃.alloc (o := 1) (a := 0x6000) rfl
  have h₅ := h₄.dealloc (b := ⟨0x4000, 0⟩) (by decide) rfl
  exact h₅.dealloc (b := ⟨0x6000, 1⟩) (by decide) rfl

/-- The run ends with the free block `[0x4000, 0x8000)` of order 2, made of a block of each
range. -/
theorem straddle_not_in_one_range :
    Reach 0 0x10000 straddleState [] ∧ (straddleState.buddies 2)[1]? = some true ∧
      ∀ r ∈ straddleState.ranges,
        ¬ block (straddleState.blockAddr 2 1) (bsize 2) ⊆ Set.Ico r.1 r.2 := by
  refine ⟨straddle_reach, by decide, ?_⟩
  have hranges : straddleState.ranges = [(0x4000, 0x6000), (0x6000, 0xA000)] := by decide
  have hblock : straddleState.blockAddr 2 1 = 0x4000 := by decide
  rw [hranges, hblock]
  intro r hr hsub
  simp only [List.mem_cons, List.not_mem_nil, or_false] at hr
  rcases hr with rfl | rfl
  · exact absurd (hsub (mem_block.2 (by decide : 0x4000 ≤ 0x7000 ∧ 0x7000 < 0x4000 + bsize 2)))
      (by simp)
  · exact absurd (hsub (mem_block.2 (by decide : 0x4000 ≤ 0x4000 ∧ 0x4000 < 0x4000 + bsize 2)))
      (by simp)

theorem straddle_blocks_disjoint :
    Reach 0 0x10000 straddleState [] ∧
    ((∀ (o : Order) (i : ℕ), (straddleState.buddies o)[i]? = some true →
      bsize o ∣ straddleState.blockAddr o i ∧
        block (straddleState.blockAddr o i) (bsize o) ⊆ straddleState.cover) ∧
    straddleState.freeSet.PairwiseDisjoint Block.ival ∧
    ([] : List Block).Pairwise (fun b c => Disjoint b.ival c.ival) ∧
    (∀ f ∈ straddleState.freeSet, ∀ b ∈ ([] : List Block), Disjoint f.ival b.ival) ∧
    ∀ o, straddleState.freecnt o = (straddleState.buddies o).count true) :=
  ⟨straddle_reach, reach_blocks_disjoint straddle_reach⟩

/-! ## A buddy probe past the bitmap -/

/-- One range over the whole memory `[0x1000, 0x82000)`; four blocks of order 0 are allocated, the
last at `0x80000`, whose buddy `0x81000` stays free. -/
def probeRun : Option BuddyAlloc := do
  let s ← new.init 0x1000 0x82000
  let s ← s.addRange 0x1000 0x82000
  let (_, s) ← s.alloc 0
  let (_, s) ← s.alloc 0
  let (_, s) ← s.alloc 0
  let (_, s) ← s.alloc 0
  pure s

/-- The state `probeRun` ends in. -/
def probeState : BuddyAlloc := probeRun.getD new

/-- Freeing the block at `0x80000` merges it with its free buddy into the block of order 1 at
`0x80000`, whose buddy `0x82000` is `end`: its slot is bit 0 of word 1 of a bitmap of one word,
and `dealloc` panics. -/
theorem dealloc_probe_past_bitmap :
    Reach 0x1000 0x82000 probeState [⟨0x80000, 0⟩, ⟨0x3000, 0⟩, ⟨0x2000, 0⟩, ⟨0x1000, 0⟩] ∧
      probeState.getByteBit (getBuddy 0x80000 1) 1 = some (1, 0) ∧
      (probeState.buddies 1).length = bmtypeBits ∧ probeState.dealloc 0x80000 0 = none := by
  refine ⟨?_, by decide, by decide, by decide⟩
  have h₀ : Reach 0x1000 0x82000 _ [] := .init rfl
  have h₁ := h₀.addRange (a := 0x1000) (b := 0x82000) (by decide)
    (disjoint_Ico_of_le (by decide)) rfl
  have h₂ := h₁.alloc (o := 0) (a := 0x1000) rfl
  have h₃ := h₂.alloc (o := 0) (a := 0x2000) rfl
  have h₄ := h₃.alloc (o := 0) (a := 0x3000) rfl
  exact h₄.alloc (o := 0) (a := 0x80000) rfl

/-! ## The last block of a range -/

instance : Std.Symm fun r r' : ℕ × ℕ => Disjoint (Set.Ico r.1 r.2) (Set.Ico r'.1 r'.2) :=
  ⟨fun _ _ h => h.symm⟩

/-- `in_range` asks for a range ending strictly past the block, so over every run it refuses a
block that ends where the range containing it ends, and `dealloc` of it does nothing. -/
theorem dealloc_range_end_noop {start «end» : ℕ} {b : Block} {r : ℕ × ℕ}
    (h : Reach start «end» s out) (hr : r ∈ s.ranges) (hin : b.ival ⊆ Set.Ico r.1 r.2)
    (hend : b.addr + bsize b.order = r.2) : s.dealloc b.addr b.order.val = some s := by
  have hdisj := (reach_inv h).ranges_disj
  have hb : b.addr ∈ Set.Ico r.1 r.2 := hin (mem_block.2 ⟨le_rfl, by simp [bsize_pos]⟩)
  -- no range passes the test: `r` itself ends at the block's end, any other one is disjoint from it
  have hnone : ∀ r' ∈ s.ranges, ¬ (r'.1 ≤ b.addr ∧ b.addr + bsize b.order < r'.2) := by
    rintro r' hr' ⟨h₁, h₂⟩
    by_cases hrr : r' = r
    · subst hrr
      omega
    · have hb' : b.addr ∈ Set.Ico r'.1 r'.2 := ⟨h₁, by omega⟩
      exact Set.disjoint_left.1 (hdisj.forall hr' hr hrr) hb' hb
  have hrange : s.inRange b.addr b.order = false := by
    simp only [inRange, Option.isSome_eq_false_iff, Option.isNone_iff_eq_none, List.find?_eq_none]
    intro r' hr'
    simpa using hnone r' hr'
  unfold dealloc
  rw [dif_pos b.order.isLt]
  simp [hrange]

/-- One range `[0, 0x1000)` of one page inside `[0, 0x2000)`, and its page allocated. -/
def leakRun : Option BuddyAlloc := do
  let s ← new.init 0 0x2000
  let s ← s.addRange 0 0x1000
  let (_, s) ← s.alloc 0
  pure s

/-- The state `leakRun` ends in. -/
def leakState : BuddyAlloc := leakRun.getD new

theorem leak_range_end_noop :
    Reach 0 0x2000 leakState [⟨0, 0⟩] ∧ (0, 0x1000) ∈ leakState.ranges ∧
      Block.ival ⟨0, 0⟩ ⊆ Set.Ico 0 0x1000 ∧ 0 + bsize 0 = 0x1000 ∧
      leakState.dealloc 0 0 = some leakState := by
  have h : Reach 0 0x2000 leakState [⟨0, 0⟩] := by
    have h₀ : Reach 0 0x2000 _ [] := .init rfl
    have h₁ := h₀.addRange (a := 0) (b := 0x1000) (by decide) (disjoint_Ico_of_le (by decide)) rfl
    exact h₁.alloc (o := 0) (a := 0) rfl
  exact ⟨h, by decide, subset_rfl, by decide, dealloc_range_end_noop (b := ⟨0, 0⟩) (r := (0, 0x1000)) h (by decide)
    subset_rfl (by decide)⟩

/-- Freeing the one page allocated from the range `[0, 0x1000)` frees nothing: no block is
outstanding afterwards, and no memory is free. -/
theorem dealloc_leaks_range_end :
    Reach 0 0x2000 leakState [] ∧ leakState.ranges = [(0, 0x1000)] ∧ leakState.freeMem = 0 := by
  refine ⟨?_, by decide, by decide⟩
  have h₀ : Reach 0 0x2000 _ [] := .init rfl
  have h₁ := h₀.addRange (a := 0) (b := 0x1000) (by decide) (disjoint_Ico_of_le (by decide)) rfl
  have h₂ := h₁.alloc (o := 0) (a := 0) rfl
  exact h₂.dealloc (b := ⟨0, 0⟩) (by decide) rfl

end BuddyAlloc

end Cykusz.Buddy
