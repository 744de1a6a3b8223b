import Mathlib
import Cykusz.Mm.BuddyInvariant

/-!
# What `add_range` and `alloc` give, exactly

`BuddyInvariant` shows that no memory is handed out twice. This module shows what the two
operations that make free blocks give, block for block:

* `add_range(s, e)` on a freshly initialised allocator, with `s` and `e` page-aligned inside the
  managed memory, runs to its end without `rem` underflowing, and the blocks it marks free tile
  `[s, e)`: pairwise disjoint, each aligned to its own size, with union `[s, e)`
  (`addRange_tiles`). A remainder of whole pages always fits the block `find_ord` picks
  (`bsize_findOrd_le`), and the block is not free yet, since no free block overlaps what is left
  of the range (`addRangeLoop_isSome`).
* `alloc(o)`, over every run, finds nothing only when no order at or above `o` counts a free
  block. Otherwise the address is aligned to `BSIZE[o]` and starts a block of some order `i ≥ o`
  that was free; the blocks free afterwards that were not before are the pieces of that block
  past the returned one, of orders below `i`, and they make up its other `BSIZE[i] - BSIZE[o]`
  bytes; and `free_mem` drops by exactly `BSIZE[o]` (`alloc_splits_exactly`).
* `alloc(o)`, from every state a run reaches, does not panic (`alloc_isSome`): every slot it reads
  or writes is inside its bitmap. A run keeps the added ranges inside the managed memory and a
  bit in each bitmap for every block of it (`reach_fits`); the free block `find_free` takes lies
  there, and so does each piece the split marks free again, which was not free
  (`splitLoop_isSome`).
-/

namespace Cykusz.Buddy

open Align

namespace BuddyAlloc

variable {s s' : BuddyAlloc}

/-! ## `add_range` runs to its end -/

/-- The slot of a block that ends inside the managed memory is inside a bitmap that has a bit for
each block of the managed memory. -/
theorem slot_lt_length {a : ℕ} {o : Order} (hle : s.start ≤ a) (hend : a + bsize o ≤ s.«end»)
    (hfit : (s.«end» - s.start) / bsize o ≤ (s.buddies o).length) :
    s.slot a o < (s.buddies o).length := by
  have hb := bsize_pos o
  have hdiv : (a - s.start) / bsize o + 1 ≤ (s.«end» - s.start) / bsize o := by
    rw [← Nat.add_div_right _ hb]
    exact Nat.div_le_div_right (by omega)
  exact lt_of_lt_of_le (show (a - s.start) / bsize o < _ by omega) (hdiv.trans hfit)

/-- The range loop, from a page-aligned `cur` with a page-aligned `rem` inside the managed memory
and with no free block overlapping `[cur, cur + rem)`, runs to its end within `rem` passes: each
pass marks a block that fits in `rem` and was not free. -/
theorem addRangeLoop_isSome {cur rem fuel : ℕ} (hcur : 0x1000 ∣ cur) (hrem : 0x1000 ∣ rem)
    (hle : s.start ≤ cur) (hend : cur + rem ≤ s.«end»)
    (hfit : ∀ o, (s.«end» - s.start) / bsize o ≤ (s.buddies o).length)
    (hloose : ∀ f ∈ s.freeSet, Disjoint f.ival (block cur rem)) (hfuel : rem ≤ fuel) :
    ∃ s', s.addRangeLoop cur rem fuel = some s' := by
  induction fuel generalizing s cur rem with
  | zero =>
    unfold addRangeLoop
    rw [if_neg (by omega)]
    exact ⟨s, rfl⟩
  | succ fuel ih =>
    unfold addRangeLoop
    by_cases hpos : rem > 0
    · rw [if_pos hpos]
      dsimp only
      -- the pass: `find_ord`'s block fits, lies in the bitmap and is not free
      set ord := findOrd cur rem
      have hsize : bsize ord ≤ rem := bsize_findOrd_le (Nat.le_of_dvd hpos hrem)
      have hplaced : s.Placed ⟨cur, ord⟩ := ⟨bsize_findOrd_dvd hcur rem, hle⟩
      have hnot : (⟨cur, ord⟩ : Block) ∉ s.freeSet := fun hmem =>
        Block.not_disjoint_of_subset
          (block_subset_block le_rfl (show cur + bsize ord ≤ cur + rem by omega)) (hloose _ hmem)
      obtain ⟨s₁, hs⟩ := setBit_of_not_mem hplaced
        (slot_lt_length (a := cur) (o := ord) hle (by omega) (hfit ord)) hnot
      obtain ⟨hsh, -, -, hfree⟩ := setBit_spec hplaced hs
      rw [hs]
      dsimp only
      rw [if_pos hsize]
      refine ih (Nat.dvd_add hcur (page_dvd_bsize ord)) (Nat.dvd_sub hrem (page_dvd_bsize ord))
        (by rw [hsh.start]; omega) (by rw [hsh.end]; omega) (fun o => ?_)
        (loose_of_mark hsize hloose hfree) ?_
      · rw [hsh.start, hsh.end, hsh.len]
        exact hfit o
      · have := bsize_pos ord
        omega
    · rw [if_neg hpos]
      exact ⟨s, rfl⟩

/-- A fresh allocator has a bit in each bitmap for every block of the managed memory, and no free
block. -/
theorem init_fits {start «end» : ℕ} (h : new.init start «end» = some s) :
    s.start = start ∧ s.«end» = «end» ∧ s.ranges = [] ∧ s.freeSet = ∅ ∧
      ∀ o, (s.«end» - s.start) / bsize o ≤ (s.buddies o).length := by
  have hfree := freeSet_eq_empty (init_eq_some h).2.2
  unfold init at h
  split_ifs at h
  cases h
  refine ⟨rfl, rfl, rfl, hfree, fun o => ?_⟩
  simp only [List.length_replicate, bmtypeBits]
  omega

/-- `add_range` tiles its range exactly: on a fresh allocator, a page-aligned range inside the
managed memory is added without a panic, and the blocks marked free are pairwise disjoint, each
aligned to its own size, and make up the range. -/
theorem addRange_tiles {start «end» a b : ℕ} (hinit : new.init start «end» = some s)
    (hsa : start ≤ a) (hab : a ≤ b) (hbe : b ≤ «end») (ha : 0x1000 ∣ a) (hb : 0x1000 ∣ b) :
    ∃ s', s.addRange a b = some s' ∧ s'.freeSet.PairwiseDisjoint Block.ival ∧
      (∀ f ∈ s'.freeSet, bsize f.order ∣ f.addr) ∧ ⋃ f ∈ s'.freeSet, f.ival = Set.Ico a b := by
  obtain ⟨hstart, hend, hranges, hempty, hfit⟩ := init_fits hinit
  have hloose : ∀ f ∈ s.freeSet, Disjoint f.ival (block a (b - a)) := by simp [hempty]
  obtain ⟨t, ht⟩ := addRangeLoop_isSome ha (Nat.dvd_sub hb ha) (by omega) (by omega) hfit hloose
    le_rfl
  obtain ⟨-, -, N, hfree, hN, hNdisj⟩ := addRangeLoop_spec ha (by omega) hloose ht
  have hadd : s.addRange a b = some { t with ranges := t.ranges ++ [(a, b)] } := by
    unfold addRange
    rw [if_pos ⟨by omega, by omega, by simp [hranges], hab⟩, ht]
    rfl
  -- recording the range leaves the bitmaps alone: the free blocks are the ones the loop marked
  have hfs : ({ t with ranges := t.ranges ++ [(a, b)] } : BuddyAlloc).freeSet = N := by
    rw [show ({ t with ranges := t.ranges ++ [(a, b)] } : BuddyAlloc).freeSet = t.freeSet from rfl,
      hfree, hempty, Set.empty_union]
  refine ⟨_, hadd, hfs ▸ hNdisj, fun f hf => (placed_of_mem_freeSet hf).1, ?_⟩
  rw [hfs, hN, block, Nat.add_sub_cancel' hab]

/-- A fresh allocator of `[0, 0x10000)`. -/
def freshState : BuddyAlloc := (new.init 0 0x10000).getD new

/-- The pages `[0x1000, 0x7000)`, added to it, are tiled by blocks of orders 0, 1 and 2. -/
theorem addRange_tiles_pages :
    new.init 0 0x10000 = some freshState ∧ ∃ s', freshState.addRange 0x1000 0x7000 = some s' ∧
      s'.freeSet.PairwiseDisjoint Block.ival ∧ (∀ f ∈ s'.freeSet, bsize f.order ∣ f.addr) ∧
      ⋃ f ∈ s'.freeSet, f.ival = Set.Ico 0x1000 0x7000 :=
  ⟨rfl, addRange_tiles (show new.init 0 0x10000 = some freshState from rfl)
    (show 0 ≤ 0x1000 by decide) (by decide) (by decide) (by decide) (by decide)⟩

/-! ## `alloc` -/

/-- The pieces of a block split down to `order`, up to order `n`, make up the bytes from the end of
the returned block to `BSIZE[n]`: each order's piece doubles what the ones below it cover. -/
theorem biUnion_pieces (res : ℕ) (order : Order) {n : ℕ} (h : order.val ≤ n) (hn : n < buddyCount) :
    ⋃ b ∈ pieces res order n, b.ival = Set.Ico (res + bsize order) (res + bsize ⟨n, hn⟩) := by
  induction n, h using Nat.le_induction with
  | base =>
    rw [pieces_of_le le_rfl]
    simp
  | succ n hle ih =>
    rw [pieces_succ (by omega) hle, Set.biUnion_insert, ih (by omega), bsize_succ ⟨n, by omega⟩ hn]
    have hle' := bsize_le_bsize (show order ≤ ⟨n, by omega⟩ from Fin.le_def.2 hle)
    show block (res + bsize ⟨n, by omega⟩) (bsize ⟨n, by omega⟩) ∪ _ = _
    unfold block
    rw [Set.union_comm, Set.Ico_union_Ico_eq_Ico (by omega) (by omega)]
    congr 1
    omega

/-- The blocks free after a split that were not free before are its pieces: none of them was
free, since each lies inside the free block taken out and is not that block. -/
theorem newly_free_eq_pieces {out : List Block} (hi : Inv s out) {a : ℕ} {o i : Order}
    (hF : (⟨a, i⟩ : Block) ∈ s.freeSet)
    (hfree : s'.freeSet = (s.freeSet \ {⟨a, i⟩}) ∪ pieces a o i.val) :
    s'.freeSet \ s.freeSet = pieces a o i.val := by
  ext b
  rw [Set.mem_sdiff, hfree]
  constructor
  · rintro ⟨⟨hb, -⟩ | hb, hnot⟩
    · exact absurd hb hnot
    · exact hb
  · intro hb
    refine ⟨Or.inr hb, fun hbs => ?_⟩
    have hne : b ≠ ⟨a, i⟩ := by
      rintro rfl
      exact lt_irrefl _ hb.2.1
    exact Block.not_disjoint_of_subset (ival_subset_of_mem_pieces hb) (hi.free_disj hbs hF hne)

/-- `alloc` is complete and splits exactly, from every state a run reaches: it finds nothing only
when no order at or above `o` counts a free block; a block it returns is aligned to its size and
is the start of a block of some order `i ≥ o` that was free, whose other `BSIZE[i] - BSIZE[o]`
bytes are made up exactly by the blocks newly free, pairwise disjoint and of orders below `i`;
and `free_mem` drops by the returned block. -/
theorem alloc_splits_exactly {start «end» : ℕ} {out : List Block}
    (hreach : Reach start «end» s out) (o : Order) {r : Option ℕ}
    (h : s.alloc o.val = some (r, s')) :
    (r = none → ∀ i, o ≤ i → s.freecnt i = 0) ∧
      ∀ a, r = some a → bsize o ∣ a ∧ ∃ i, o ≤ i ∧ (⟨a, i⟩ : Block) ∈ s.freeSet ∧
        block a (bsize o) ⊆ Block.ival ⟨a, i⟩ ∧ (∀ b ∈ s'.freeSet \ s.freeSet, b.order < i) ∧
        (s'.freeSet \ s.freeSet).PairwiseDisjoint Block.ival ∧
        ⋃ b ∈ s'.freeSet \ s.freeSet, b.ival = Set.Ico (a + bsize o) (a + bsize i) ∧
        s'.freeMem + bsize o = s.freeMem := by
  obtain ⟨ho, -, -, hnone, hsome⟩ := alloc_spec h
  refine ⟨fun hr => (hnone hr).2, fun a ha => ?_⟩
  obtain ⟨i, hoi, hF, hfree, hmem⟩ := hsome a ha
  simp only [Fin.eta] at hoi hfree hmem
  -- the newly free blocks are the pieces, which the invariant keeps apart from the old free ones
  have hnew := newly_free_eq_pieces (reach_inv hreach) hF hfree
  have hle := bsize_le_bsize hoi
  refine ⟨(bsize_dvd_bsize hoi).trans (placed_of_mem_freeSet hF).1, i, hoi, hF,
    block_subset_block le_rfl (show a + bsize o ≤ a + bsize i by omega), ?_, ?_, ?_, hmem⟩
  · rw [hnew]
    exact fun b hb => Fin.lt_def.2 hb.2.1
  · rw [hnew]
    exact pieces_pairwiseDisjoint a o i.val
  · rw [hnew, biUnion_pieces a o hoi i.isLt]

/-- A fresh allocator of `[0, 0x10000)` with `[0, 0x8000)` added: one free block of order 3. -/
def splitState : BuddyAlloc := ((new.init 0 0x10000).bind fun s => s.addRange 0 0x8000).getD new

/-- A page allocated from `splitState`: the block of order 3 is split. -/
def splitAlloc : Option ℕ × BuddyAlloc := (splitState.alloc 0).getD (none, new)

theorem splitState_reach : Reach 0 0x10000 splitState [] :=
  (Reach.init rfl).addRange (a := 0) (b := 0x8000) (by decide) (by simp [new]) rfl

/-- The page at 0 comes out of the block `[0, 0x8000)`, whose other pages come back as the blocks
at `0x1000`, `0x2000` and `0x4000`. -/
theorem alloc_splits_exactly_page :
    Reach 0 0x10000 splitState [] ∧ splitState.alloc (0 : Order).val = some splitAlloc ∧
      splitAlloc.1 = some 0 ∧
      ((splitAlloc.1 = none → ∀ i, (0 : Order) ≤ i → splitState.freecnt i = 0) ∧
      ∀ a, splitAlloc.1 = some a → bsize 0 ∣ a ∧ ∃ i, 0 ≤ i ∧ (⟨a, i⟩ : Block) ∈ splitState.freeSet ∧
        block a (bsize 0) ⊆ Block.ival ⟨a, i⟩ ∧
        (∀ b ∈ splitAlloc.2.freeSet \ splitState.freeSet, b.order < i) ∧
        (splitAlloc.2.freeSet \ splitState.freeSet).PairwiseDisjoint Block.ival ∧
        ⋃ b ∈ splitAlloc.2.freeSet \ splitState.freeSet, b.ival = Set.Ico (a + bsize 0) (a + bsize i) ∧
        splitAlloc.2.freeMem + bsize 0 = splitState.freeMem) :=
  ⟨splitState_reach, rfl, rfl, alloc_splits_exactly splitState_reach 0 rfl⟩

/-! ## `alloc` does not panic -/

/-- The shape a run keeps: the added ranges lie in the managed memory, and each bitmap has a bit
for every block of it. -/
structure Fits (s : BuddyAlloc) : Prop where
  cover : s.cover ⊆ Set.Ico s.start s.«end»
  len : ∀ o, (s.«end» - s.start) / bsize o ≤ (s.buddies o).length

theorem Fits.of_sameShape (hf : Fits s) (hsh : SameShape s s') : Fits s' where
  cover := by
    rw [hsh.cover_eq, hsh.start, hsh.end]
    exact hf.cover
  len o := by
    rw [hsh.start, hsh.end, hsh.len]
    exact hf.len o

/-- A block inside the added memory ends inside the managed memory. -/
theorem Fits.end_le (hf : Fits s) {f : Block} (hsub : f.ival ⊆ s.cover) :
    f.addr + bsize f.order ≤ s.«end» :=
  ((Set.Ico_subset_Ico_iff (by have := bsize_pos f.order; omega)).1 (hsub.trans hf.cover)).2

theorem setBit_sameShape {a : ℕ} {o : Order} {c : Bool} (h : s.setBit a o = some (c, s')) :
    SameShape s s' := by
  obtain ⟨-, b, -, ⟨-, -, rfl⟩ | ⟨-, -, rfl⟩⟩ := setBit_eq_some h
  · exact sameShape_withBit ..
  · exact SameShape.refl s

theorem addRangeLoop_sameShape {cur rem fuel : ℕ} (h : s.addRangeLoop cur rem fuel = some s') :
    SameShape s s' := by
  induction fuel generalizing s cur rem with
  | zero =>
    unfold addRangeLoop at h
    split_ifs at h
    cases h
    exact SameShape.refl _
  | succ fuel ih =>
    unfold addRangeLoop at h
    split_ifs at h with hpos
    · -- a pass: a `set_bit`, then the rest of the loop
      dsimp only at h
      split at h
      · rename_i s₁ hs
        split_ifs at h
        exact (setBit_sameShape hs).trans (ih h)
      · cases h
    · cases h
      exact SameShape.refl _

/-- `add_range` keeps the shape: the range it records lies in the managed memory. -/
theorem Fits.addRange {a b : ℕ} (hf : Fits s) (h : s.addRange a b = some s') : Fits s' := by
  unfold BuddyAlloc.addRange at h
  split_ifs at h with hg
  obtain ⟨t, ht, rfl⟩ := Option.map_eq_some_iff.1 h
  have hsh := addRangeLoop_sameShape ht
  have hft := hf.of_sameShape hsh
  refine ⟨?_, hft.len⟩
  rw [cover_append_range]
  refine Set.union_subset hft.cover (Set.Ico_subset_Ico ?_ ?_)
  · rw [hsh.start]
    exact hg.1
  · rw [hsh.end]
    exact hg.2.1

/-- Every run keeps the shape. -/
theorem reach_fits {start «end» : ℕ} {out : List Block} (h : Reach start «end» s out) :
    Fits s := by
  induction h with
  | init hs =>
    obtain ⟨-, -, hranges, -, hlen⟩ := init_fits hs
    exact ⟨by simp [cover, hranges], hlen⟩
  | addRange _ _ _ hs ih => exact ih.addRange hs
  | alloc _ hs ih =>
    obtain ⟨_, hsh, -⟩ := alloc_spec hs
    exact ih.of_sameShape hsh
  | allocNone _ hs ih =>
    obtain ⟨_, hsh, -⟩ := alloc_spec hs
    exact ih.of_sameShape hsh
  | dealloc hr hb hs ih =>
    -- the merge loop changes only bits, given what the invariant says of the freed block
    have hi := reach_inv hr
    rcases dealloc_eq_some hs with rfl | hs
    · exact ih
    · exact ih.of_sameShape (deallocLoop_spec rfl (hi.out_placed _ hb) hi.free_disj
        (fun f hf => hi.free_out f hf _ hb) hs).1

/-- `find_free` finds a set bit wherever the count of its order is positive and matches the
bitmap. -/
theorem findFree_isSome {o : Order} (hcnt : s.CountOk) (hpos : 0 < s.freecnt o) :
    (s.findFree o).isSome := by
  unfold findFree
  cases hj : (s.buddies o).findIdx? (· == true) with
  | none =>
    have htrue : true ∈ s.buddies o := List.count_pos_iff.1 (hcnt o ▸ hpos)
    have := List.findIdx?_eq_none_iff.1 hj true htrue
    simp at this
  | some j =>
    dsimp only
    rw [if_neg (by omega)]
    rfl

/-- One pass of the split loop at order `k`, with `2 BSIZE[k] - BSIZE[order]` bytes left, where
the piece of order `k` lies in its bitmap and is not free: it marks that piece free when
`order ≤ k` and leaves the rest of the loop. -/
theorem splitLoop_cons_eq {res : ℕ} {order : Order} {k : ℕ} (hk : k < buddyCount)
    (rest : List Order) {t : BuddyAlloc} (hres : 2 * bsize ⟨k, hk⟩ ∣ res) (ht : t.start ≤ res)
    (hend : res + 2 * bsize ⟨k, hk⟩ ≤ t.«end»)
    (hlen : (t.«end» - t.start) / bsize ⟨k, hk⟩ ≤ (t.buddies ⟨k, hk⟩).length)
    (hnot : order.val ≤ k → (⟨res + bsize ⟨k, hk⟩, ⟨k, hk⟩⟩ : Block) ∉ t.freeSet) :
    ∃ t₁, SameShape t t₁ ∧
      t₁.freeSet = t.freeSet ∪ (if order.val ≤ k then {⟨res + bsize ⟨k, hk⟩, ⟨k, hk⟩⟩} else ∅) ∧
      splitLoop res (bsize order) (⟨k, hk⟩ :: rest) (2 * bsize ⟨k, hk⟩ - bsize order) t =
        splitLoop res (bsize order) rest (bsize ⟨k, hk⟩ - bsize order) t₁ := by
  by_cases hok : order.val ≤ k
  · have hle : bsize order ≤ bsize ⟨k, hk⟩ := bsize_le_bsize (Fin.le_def.2 hok)
    have hpl : t.Placed ⟨res + bsize ⟨k, hk⟩, ⟨k, hk⟩⟩ :=
      ⟨Nat.dvd_add ((Nat.dvd_mul_left _ 2).trans hres) dvd_rfl, ht.trans (Nat.le_add_right _ _)⟩
    obtain ⟨t₁, hs⟩ := setBit_of_not_mem hpl
      (slot_lt_length (ht.trans (Nat.le_add_right _ _)) (by omega) hlen) (hnot hok)
    obtain ⟨hsh, -, -, hfree⟩ := setBit_spec hpl hs
    refine ⟨t₁, hsh, by rw [hfree, if_pos hok, Set.union_singleton], ?_⟩
    have haddr : res + (2 * bsize ⟨k, hk⟩ - bsize order - bsize ⟨k, hk⟩) + bsize order =
        res + bsize ⟨k, hk⟩ := by omega
    have hrem : 2 * bsize ⟨k, hk⟩ - bsize order - bsize ⟨k, hk⟩ = bsize ⟨k, hk⟩ - bsize order :=
      by omega
    rw [splitLoop, if_pos (by omega), haddr, hs]
    dsimp only
    rw [hrem]
  · -- the order is below the requested one: nothing is left to split
    have hge : 2 * bsize ⟨k, hk⟩ ≤ bsize order :=
      two_mul_bsize_le (Fin.lt_def.2 (show k < order.val by omega))
    refine ⟨t, SameShape.refl t, by rw [if_neg hok]; simp, ?_⟩
    rw [splitLoop, if_neg (by have := bsize_pos ⟨k, hk⟩; omega)]
    congr 1
    omega

/-- The split loop, entered at order `k` with the bytes `2 BSIZE[k] - BSIZE[order]` left past
the returned block, runs to its end where that block of twice `BSIZE[k]` lies in the managed
memory and none of the pieces it frees is free yet. -/
theorem splitLoop_isSome {res : ℕ} {order : Order} (k : ℕ) (hk : k < buddyCount) {t : BuddyAlloc}
    (hres : 2 * bsize ⟨k, hk⟩ ∣ res) (ht : t.start ≤ res) (hend : res + 2 * bsize ⟨k, hk⟩ ≤ t.«end»)
    (hlen : ∀ o, (t.«end» - t.start) / bsize o ≤ (t.buddies o).length)
    (hnot : ∀ b ∈ pieces res order (k + 1), b ∉ t.freeSet) :
    (splitLoop res (bsize order) (ordersDownFrom ⟨k, hk⟩)
      (2 * bsize ⟨k, hk⟩ - bsize order) t).isSome := by
  -- the piece of order `k` is one of the pieces
  have hpiece : order.val ≤ k →
      (⟨res + bsize ⟨k, hk⟩, ⟨k, hk⟩⟩ : Block) ∈ pieces res order (k + 1) :=
    fun hok => ⟨Fin.le_def.2 hok, Nat.lt_succ_self k, rfl⟩
  induction k generalizing t with
  | zero =>
    rw [ordersDownFrom_zero]
    obtain ⟨t₁, -, -, heq⟩ := splitLoop_cons_eq hk [] hres ht hend (hlen _)
      fun hok => hnot _ (hpiece hok)
    rw [heq]
    rfl
  | succ k ih =>
    rw [ordersDownFrom_succ k hk]
    obtain ⟨t₁, hsh, hfree, heq⟩ := splitLoop_cons_eq hk (ordersDownFrom ⟨k, by omega⟩) hres ht
      hend (hlen _)
      fun hok => hnot _ (hpiece hok)
    have hsucc := bsize_succ ⟨k, by omega⟩ hk
    simp only at hsucc
    rw [heq, hsucc]
    refine ih (by omega) ?_ (by rw [hsh.start]; exact ht) ?_ (fun o => ?_) (fun b hb => ?_)
      (fun hok => ⟨Fin.le_def.2 hok, Nat.lt_succ_self k, rfl⟩)
    · rw [← hsucc]
      exact (Nat.dvd_mul_left _ 2).trans hres
    · rw [hsh.end]
      omega
    · rw [hsh.start, hsh.end, hsh.len]
      exact hlen o
    · -- a lower piece is not the piece just freed, and was not free before
      rw [hfree]
      rintro (hbt | hbk)
      · exact hnot b ⟨hb.1, by have := hb.2.1; omega, hb.2.2⟩ hbt
      · split_ifs at hbk
        · rw [Set.mem_singleton_iff] at hbk
          have := hb.2.1
          rw [hbk] at this
          exact lt_irrefl _ this
        · exact hbk

/-- The search loop of `alloc` runs to its end from a state whose counts match the bitmaps, whose
free blocks are pairwise disjoint and end inside the managed memory, and whose bitmaps have a bit
for every block of it. -/
theorem allocLoop_isSome {order : Order} (l : List Order) (hl : ∀ i ∈ l, order ≤ i)
    (hcnt : s.CountOk) (hdisj : s.freeSet.PairwiseDisjoint Block.ival)
    (hend : ∀ f ∈ s.freeSet, f.addr + bsize f.order ≤ s.«end»)
    (hlen : ∀ o, (s.«end» - s.start) / bsize o ≤ (s.buddies o).length) :
    (allocLoop (bsize order) l s).isSome := by
  induction l with
  | nil => rfl
  | cons i is ih =>
    unfold allocLoop
    by_cases hpos : s.freecnt i > 0
    · rw [if_pos hpos]
      obtain ⟨⟨res, s₁⟩, hf⟩ := Option.isSome_iff_exists.1 (findFree_isSome hcnt hpos)
      rw [hf]
      dsimp only
      obtain ⟨hF, hsh, -, hfree⟩ := findFree_spec hf
      have hpl := placed_of_mem_freeSet hF
      by_cases hrem : bsize i - bsize order > 0
      · -- a larger block was found: the pass at its own order skips, the orders below split it
        rw [if_pos hrem, Option.isSome_map]
        have hoi : order < i := by
          rcases lt_or_eq_of_le (hl i List.mem_cons_self) with hlt | rfl
          · exact hlt
          · simp at hrem
        obtain ⟨k, hk⟩ : ∃ k, i.val = k + 1 := ⟨i.val - 1, by have := Fin.lt_def.1 hoi; omega⟩
        obtain ⟨iv, hiv⟩ := i
        simp only at hk
        subst hk
        have hsucc := bsize_succ ⟨k, by omega⟩ hiv
        simp only at hsucc
        rw [ordersDownFrom_succ k hiv, splitLoop.eq_2,
          if_neg (by have := bsize_pos order; omega), hsucc]
        refine splitLoop_isSome k (by omega) ?_ (by rw [hsh.start]; exact hpl.2) ?_
          (fun o => ?_) (fun b hb hb₁ => ?_)
        · rw [← hsucc]
          exact hpl.1
        · have := hend _ hF
          rw [hsh.end]
          simp only at this
          omega
        · rw [hsh.start, hsh.end, hsh.len]
          exact hlen o
        · -- a piece lies inside the block taken out, which no other free block meets
          rw [hfree] at hb₁
          exact Block.not_disjoint_of_subset (ival_subset_of_mem_pieces (i := ⟨k + 1, hiv⟩) hb)
            (hdisj hb₁.1 hF hb₁.2)
      · rw [if_neg hrem]
        rfl
    · rw [if_neg hpos]
      exact ih fun j hj => hl j (List.mem_cons_of_mem _ hj)

/-- From every state a run reaches, `alloc` of an order of `BSIZE` does not panic: the slot of the
block it takes and of every piece it frees again is inside its bitmap, and no piece was free. -/
theorem alloc_isSome {start «end» : ℕ} {out : List Block} (hreach : Reach start «end» s out)
    (o : Order) : (s.alloc o.val).isSome := by
  have hi := reach_inv hreach
  have hf := reach_fits hreach
  unfold alloc
  rw [dif_pos o.isLt]
  exact allocLoop_isSome _ (fun i hi => Fin.le_def.2 (le_of_mem_drop_finRange hi)) hi.count
    hi.free_disj (fun f hfm => hf.end_le (hi.free_cover f hfm)) hf.len

end BuddyAlloc

end Cykusz.Buddy
