import Mathlib
import Cykusz.Fs.Ext2.Truncate

/-!
# Putting a block into an ext2 inode

`INodeData::set_block` (`kernel/fs/ext2/idata.rs`) goes down the offsets of a block number level
by level. Below the inode each level works on the pointer block the level above holds: read from
the disk when it was there, zero-filled when the level above has just allocated it
(`was_alloc`). A zero entry on the way gets a block from `alloc_block_ptr`, the last entry gets
the pointer, and each pointer block it changed is written back. It returns the count of the
entries it filled: one for each block it allocated, and one for the pointer.

The loop has two phases. It goes down the blocks that were there until it meets a zero entry
(`SetsTree`, `setBlockLoop_tree`), and from there on it only fills blocks it has just allocated
(`SetsFresh`, `setBlockLoop_fresh`); each is proved by induction on the levels left, and the
inode's level joins them (`setBlockLoop_inode`).

On a tree in which no block is found twice and whose blocks the bitmaps mark as used, with an
allocator that hands out a block the bitmaps do not mark, other than `0` and below `2 ^ 32`,
setting a block of the file that is not there to a pointer `0 < v < 2 ^ 32` puts it in and
changes no other block of the file; each block it allocated holds one pointer among zeros, and
the count is one more than their number (`set_block_installs_one`). A pointer of `2 ^ 32` or more
is cut to its low 32 bits as it is stored (`set_block_cuts_pointer`).
-/

namespace Cykusz.Fs.Ext2

namespace Blocks

@[simp] theorem store_zero (t : Blocks) (ptr : ℕ) (ptrs : ℕ → ℕ) :
    t.store 0 ptr ptrs = { t with ptrs } := rfl

theorem store_of_ne_zero (t : Blocks) {i : ℕ} (hi : i ≠ 0) (ptr : ℕ) (ptrs : ℕ → ℕ) :
    t.store i ptr ptrs = { t with disk := Function.update t.disk ptr ptrs } := by
  simp [store, hi]

end Blocks

/-! ## One level of the loop -/

section Level

variable (pick : Finset ℕ → Option ℕ) {offsets : List ℕ} {val : ℕ} {i o ptr nb : ℕ} {w : Bool}
  {os ptrVec : List ℕ} {t : Blocks} {C : ℕ → ℕ}

/-- The pointers of the inode's level. -/
theorem levelPtrs_inode :
    (if 0 = 0 then t.ptrs else if w then fun _ => 0 else t.disk ptr) = t.ptrs :=
  if_pos rfl

/-- The pointers of a level below the inode, whose block was there: read from the disk. -/
theorem levelPtrs_read (hi : i ≠ 0) :
    (if i = 0 then t.ptrs else if false then fun _ => 0 else t.disk ptr) = t.disk ptr := by
  simp [hi]

/-- The pointers of a level below the inode, whose block was just allocated: zero-filled. -/
theorem levelPtrs_fresh (hi : i ≠ 0) :
    (if i = 0 then t.ptrs else if true then fun _ => 0 else t.disk ptr) = fun _ => 0 := by
  simp [hi]

/-- The last level: the pointer goes into a free entry. -/
theorem setBlockLoop_last
    (hC : (if i = 0 then t.ptrs else if w then fun _ => 0 else t.disk ptr) = C)
    (ho : C o = 0) :
    setBlockLoop pick offsets val i [o] ptr w ptrVec nb t =
      some (some (nb + 1), t.store i ptr (Function.update C o (val % 2 ^ 32))) := by
  subst hC
  simp [setBlockLoop, ho]

/-- A zero entry above the last level gets the block `alloc_block_ptr` hands out. -/
theorem setBlockLoop_alloc
    (hC : (if i = 0 then t.ptrs else if w then fun _ => 0 else t.disk ptr) = C)
    (hos : os ≠ []) (ho : C o = 0) {p : ℕ} (hp : pick t.used = some p) :
    setBlockLoop pick offsets val i (o :: os) ptr w ptrVec nb t =
      setBlockLoop pick offsets val (i + 1) os (p % 2 ^ 32) true (ptrVec ++ [p % 2 ^ 32]) (nb + 1)
        ({ t with used := insert p t.used }.store i ptr (Function.update C o (p % 2 ^ 32))) := by
  subst hC
  rw [setBlockLoop]
  simp only [hos, ho, hp, if_false, if_true]

/-- A failed allocation ends the loop in `revert`. -/
theorem setBlockLoop_fail
    (hC : (if i = 0 then t.ptrs else if w then fun _ => 0 else t.disk ptr) = C)
    (hos : os ≠ []) (ho : C o = 0) (hp : pick t.used = none) :
    setBlockLoop pick offsets val i (o :: os) ptr w ptrVec nb t =
      some (none, revert (offsets.take (i + 1)) ptrVec t) := by
  subst hC
  rw [setBlockLoop]
  simp only [hos, ho, hp, if_false, if_true]

/-- A nonzero entry above the last level is followed down. -/
theorem setBlockLoop_down
    (hC : (if i = 0 then t.ptrs else if w then fun _ => 0 else t.disk ptr) = C)
    (hos : os ≠ []) (ho : C o ≠ 0) :
    setBlockLoop pick offsets val i (o :: os) ptr w ptrVec nb t =
      setBlockLoop pick offsets val (i + 1) os (C o) false (ptrVec ++ [C o]) nb t := by
  subst hC
  rw [setBlockLoop]
  simp only [hos, ho, if_false]

end Level

/-! ## The digits of a block number -/

section Digits

variable {E : ℕ}

@[simp] theorem length_digits (E : ℕ) : ∀ h r, (digits E h r).length = h
  | 0, _ => rfl
  | h + 1, r => by simp [digits, length_digits E h]

/-- Below `E ^ h` a block number is determined by its offsets. -/
theorem digits_inj : ∀ {h r r' : ℕ}, r < E ^ h → r' < E ^ h →
    digits E h r = digits E h r' → r = r'
  | 0, r, r', hr, hr', _ => by simp at hr hr'; omega
  | h + 1, r, r', hr, hr', he => by
    simp only [digits, List.cons.injEq] at he
    have hpos := pow_pos (pos_of_lt_pow hr) h
    have hmod := digits_inj (Nat.mod_lt r hpos) (Nat.mod_lt r' hpos) he.2
    rw [← Nat.div_add_mod r (E ^ h), ← Nat.div_add_mod r' (E ^ h), he.1, hmod]

/-- A block number is determined by its entry at the top and its number below it. -/
theorem eq_of_div_eq_of_mod_eq {h r r' : ℕ} (hd : r' / E ^ h = r / E ^ h)
    (hm : r' % E ^ h = r % E ^ h) : r' = r := by
  rw [← Nat.div_add_mod r' (E ^ h), hd, hm, Nat.div_add_mod]

end Digits

/-! ## Trees in which no block is found twice -/

section Forest

variable {E : ℕ} {d : Disk}

theorem nodup_blocksOf_of_forest {hgt B : ℕ → ℕ} {j k i : ℕ}
    (hnd : (forestBlocks E d hgt B j k).Nodup) (hi : j ≤ i) (hik : i < j + k) :
    (blocksOf E d (hgt i) (B i)).Nodup :=
  (List.nodup_flatMap.1 hnd).1 i (List.mem_range'_1.2 ⟨hi, hik⟩)

/-- In a forest where no block is found twice, two trees share no block. -/
theorem disjoint_blocksOf_of_forest {hgt B : ℕ → ℕ} {j k i i' : ℕ}
    (hnd : (forestBlocks E d hgt B j k).Nodup) (hi : j ≤ i) (hik : i < j + k) (hi' : j ≤ i')
    (hik' : i' < j + k) (hne : i ≠ i') :
    (blocksOf E d (hgt i) (B i)).Disjoint (blocksOf E d (hgt i') (B i')) := by
  have : Std.Symm (Function.onFun List.Disjoint fun i => blocksOf E d (hgt i) (B i)) :=
    ⟨fun _ _ h => h.symm⟩
  exact (List.nodup_flatMap.1 hnd).2.forall (List.mem_range'_1.2 ⟨hi, hik⟩)
    (List.mem_range'_1.2 ⟨hi', hik'⟩) hne

theorem mem_blocksOf_child {h q o b : ℕ} (hq : q ≠ 0) (ho : o < E)
    (hb : b ∈ blocksOf E d h (d q o)) : b ∈ blocksOf E d (h + 1) q := by
  rw [blocksOf_succ hq]
  exact List.mem_cons_of_mem q (mem_forestBlocks.2 ⟨o, Nat.zero_le o, by omega, hb⟩)

section Child

variable {h q : ℕ} (hq : q ≠ 0) (hnd : (blocksOf E d (h + 1) q).Nodup)
include hq hnd

/-- A pointer block is in none of the trees below it. -/
theorem not_mem_child {o : ℕ} (ho : o < E) : q ∉ blocksOf E d h (d q o) := by
  rw [blocksOf_succ hq, List.nodup_cons] at hnd
  exact fun hb => hnd.1 (mem_forestBlocks.2 ⟨o, Nat.zero_le o, by omega, hb⟩)

theorem nodup_child {o : ℕ} (ho : o < E) : (blocksOf E d h (d q o)).Nodup := by
  rw [blocksOf_succ hq, List.nodup_cons] at hnd
  exact nodup_blocksOf_of_forest hnd.2 (Nat.zero_le o) (by omega)

theorem disjoint_children {o o' : ℕ} (ho : o < E) (ho' : o' < E) (hne : o ≠ o') :
    (blocksOf E d h (d q o)).Disjoint (blocksOf E d h (d q o')) := by
  rw [blocksOf_succ hq, List.nodup_cons] at hnd
  exact disjoint_blocksOf_of_forest hnd.2 (Nat.zero_le o) (by omega) (Nat.zero_le o') (by omega) hne

end Child

end Forest

/-! ## What a run of the loop leaves behind -/

/-- What `set_block` needs of `alloc_block_ptr`: a block the bitmaps do not mark as used, other
than block `0`, with a number an entry can hold. -/
def AllocFresh (pick : Finset ℕ → Option ℕ) : Prop :=
  ∀ u p, pick u = some p → p ∉ u ∧ p ≠ 0 ∧ p < 2 ^ 32

/-- A pointer block that holds one nonzero pointer, and zeros. -/
def OnePointer (blk : ℕ → ℕ) : Prop := ∃ e x, x ≠ 0 ∧ blk = Function.update (fun _ => 0) e x

/-- The bookkeeping of a run of the loop from `t` with the count `nb` to `t'` with the count `k`:
it only marks blocks as used, counts one for each block it allocated and one for the pointer, and
leaves one pointer in each block it allocated. -/
structure Allocates (t : Blocks) (nb k : ℕ) (t' : Blocks) : Prop where
  used : t.used ⊆ t'.used
  count : k = nb + 1 + (t'.used \ t.used).card
  onePointer : ∀ b ∈ t'.used \ t.used, OnePointer (t'.disk b)

/-- The last level allocates nothing. -/
theorem Allocates.last {t t' : Blocks} (nb : ℕ) (hused : t'.used = t.used) :
    Allocates t nb (nb + 1) t' where
  used := hused.ge
  count := by simp [hused]
  onePointer b hb := by simp [hused] at hb

/-- A level that allocates `p` and leaves one pointer in it, before a run from `t1`. -/
theorem Allocates.alloc {t t1 t' : Blocks} {nb k p : ℕ} (hp : p ∉ t.used)
    (ht1 : t1.used = insert p t.used) (h : Allocates t1 (nb + 1) k t')
    (hown : OnePointer (t'.disk p)) : Allocates t nb k t' := by
  have hnew : p ∈ t'.used \ t.used :=
    Finset.mem_sdiff.2 ⟨h.used (ht1 ▸ Finset.mem_insert_self p t.used), hp⟩
  -- the blocks the run allocated are those from `t1` on, and `p`
  have hsplit : t'.used \ t1.used = (t'.used \ t.used).erase p := by
    rw [ht1, Finset.sdiff_insert]
  refine ⟨fun b hb => h.used (ht1 ▸ Finset.mem_insert_of_mem hb), ?_, fun b hb => ?_⟩
  · rw [h.count, hsplit, ← Finset.card_erase_add_one hnew]
    ring
  · by_cases hbp : b = p
    · exact hbp ▸ hown
    · exact h.onePointer b (hsplit ▸ Finset.mem_erase.2 ⟨hbp, hb⟩)

/-! ## The levels below a block just allocated -/

/-- What the loop does from a block `p` it has just allocated, with the offsets `os` left: the
walk along `os` from `p` finds `v` and every other walk of that length finds nothing, it leaves
one pointer in `p`, and it writes no other block than `p` and those it allocates. -/
structure SetsFresh (v p : ℕ) (os : List ℕ) (t : Blocks) (nb k : ℕ) (t' : Blocks) : Prop where
  walk_self : walk t'.disk p os = some v
  walk_other : ∀ os', os'.length = os.length → os' ≠ os → walk t'.disk p os' = none
  frame : ∀ b, b ≠ p → b ∉ t'.used \ t.used → t'.disk b = t.disk b
  own : OnePointer (t'.disk p)
  ptrs : t'.ptrs = t.ptrs
  allocs : Allocates t nb k t'

/-- The last level below a block just allocated: `p` holds the pointer `v` and zeros. -/
theorem SetsFresh.last {v p o nb : ℕ} (t : Blocks) (hv : v ≠ 0) :
    SetsFresh v p [o] t nb (nb + 1)
      { t with disk := Function.update t.disk p (Function.update (fun _ => 0) o v) } where
  walk_self := by simp [walk, hv]
  walk_other os' hlen hne := by
    obtain ⟨o', rfl⟩ : ∃ o', os' = [o'] := List.length_eq_one_iff.1 hlen
    have ho : o' ≠ o := fun h => hne (h ▸ rfl)
    simp [walk, ho]
  frame b hb _ := by simp [Function.update_of_ne hb]
  own := ⟨o, v, hv, by simp⟩
  ptrs := rfl
  allocs := Allocates.last nb rfl

/-- A run below a block `p` allocated at the level above it, from `t1`: `p` is among the blocks
allocated, and every block not allocated keeps what it held in `t1`. -/
theorem SetsFresh.of_alloc {v p nb k : ℕ} {os : List ℕ} {t t1 t' : Blocks}
    (h : SetsFresh v p os t1 nb k t') (ht1 : t1.used = insert p t.used) (hp : p ∉ t.used) :
    p ∈ t'.used \ t.used ∧ ∀ b ∉ t'.used \ t.used, t'.disk b = t1.disk b := by
  have hnew : p ∈ t'.used \ t.used :=
    Finset.mem_sdiff.2 ⟨h.allocs.used (ht1 ▸ Finset.mem_insert_self p t.used), hp⟩
  refine ⟨hnew, fun b hb => h.frame b (fun e => hb (e ▸ hnew)) fun hb1 => hb ?_⟩
  rw [ht1] at hb1
  exact Finset.sdiff_subset_sdiff le_rfl (Finset.subset_insert p t.used) hb1

section View

variable {E v p h r nb k : ℕ} {t t' : Blocks} (hf : SetsFresh v p (digits E h r) t nb k t')
  (hp0 : p ≠ 0)
include hf hp0

/-- Block `r` of the tree below the block just allocated is the pointer put in. -/
theorem SetsFresh.view_self : view E t'.disk h p r = some v := by
  simp [view, walkFrom, hp0, hf.walk_self]

/-- No other block of the tree below the block just allocated is there. -/
theorem SetsFresh.view_other (hr : r < E ^ h) {r' : ℕ} (hr' : r' < E ^ h) (hne : r' ≠ r) :
    view E t'.disk h p r' = none := by
  simp only [view, walkFrom, hp0, if_false]
  exact hf.walk_other _ (by simp) fun he => hne (digits_inj hr' hr he)

end View

/-- A level below a block `p` just allocated that allocates `p2` for entry `o`, before a run
from `p2`. -/
theorem SetsFresh.cons {v p p2 o nb k : ℕ} {os : List ℕ} {t t' : Blocks} (hp : p ∈ t.used)
    (hp2 : p2 ∉ t.used) (hp20 : p2 ≠ 0)
    (h : SetsFresh v p2 os
      { t with
        used := insert p2 t.used
        disk := Function.update t.disk p (Function.update (fun _ => 0) o p2) } (nb + 1) k t') :
    SetsFresh v p (o :: os) t nb k t' := by
  obtain ⟨-, hframe⟩ := h.of_alloc rfl hp2
  have hdp : t'.disk p = Function.update (fun _ => 0) o p2 := by
    rw [hframe p fun hn => (Finset.mem_sdiff.1 hn).2 hp]
    simp
  refine ⟨?_, fun os' hlen hne => ?_, fun b hb hbnew => ?_, ⟨o, p2, hp20, hdp⟩, h.ptrs,
    Allocates.alloc hp2 rfl h.allocs h.own⟩
  · simp [walk, hdp, hp20, h.walk_self]
  · -- another walk leaves `p` at another entry, which is zero, or differs below `p2`
    obtain ⟨o', os', rfl⟩ := List.exists_cons_of_length_eq_add_one hlen
    by_cases ho : o' = o
    · subst ho
      have hne' : os' ≠ os := fun e => hne (e ▸ rfl)
      simp [walk, hdp, hp20, h.walk_other os' (by simpa using hlen) hne']
    · simp [walk, hdp, ho]
  · rw [hframe b hbnew]
    simp [Function.update_of_ne hb]

section Fresh

variable {pick : Finset ℕ → Option ℕ} {offsets : List ℕ} {val : ℕ}

/-- The loop below a block `p` it has just allocated, by induction on the offsets left: each level
allocates the next block and leaves its pointer in the one above. -/
theorem setBlockLoop_fresh (hpick : AllocFresh pick) (hval : val % 2 ^ 32 ≠ 0) :
    ∀ (os : List ℕ) {o i p nb k : ℕ} {ptrVec : List ℕ} {t t' : Blocks}, i ≠ 0 → p ∈ t.used →
      setBlockLoop pick offsets val i (o :: os) p true ptrVec nb t = some (some k, t') →
      SetsFresh (val % 2 ^ 32) p (o :: os) t nb k t'
  | [], o, i, p, nb, k, ptrVec, t, t', hi, _, hrun => by
    rw [setBlockLoop_last pick (levelPtrs_fresh hi) rfl, Blocks.store_of_ne_zero t hi] at hrun
    simp only [Option.some.injEq, Prod.mk.injEq] at hrun
    obtain ⟨rfl, rfl⟩ := hrun
    exact SetsFresh.last t hval
  | o2 :: os, o, i, p, nb, k, ptrVec, t, t', hi, hp, hrun => by
    have hC : (if i = 0 then t.ptrs else if true then fun _ => 0 else t.disk p) = fun _ => 0 :=
      levelPtrs_fresh hi
    cases hpk : pick t.used with
    | none =>
      rw [setBlockLoop_fail pick hC (List.cons_ne_nil o2 os) rfl hpk] at hrun
      cases hrun
    | some p2 =>
      obtain ⟨hp2u, hp20, hp2lt⟩ := hpick _ _ hpk
      rw [setBlockLoop_alloc pick hC (List.cons_ne_nil o2 os) rfl hpk, Nat.mod_eq_of_lt hp2lt,
        Blocks.store_of_ne_zero _ hi] at hrun
      exact SetsFresh.cons hp hp2u hp20
        (setBlockLoop_fresh hpick hval os (Nat.succ_ne_zero i) (Finset.mem_insert_self p2 _) hrun)

end Fresh

/-! ## The levels of blocks that were there -/

/-- What the loop does from a pointer block `q` that was there, the root of a tree of height `h`
in which block `r` is missing: block `r` of the tree is `v` afterwards and every other block of
it is as it was, and it writes no other block than pointer blocks of the tree and those it
allocates. -/
structure SetsTree (E v h q r : ℕ) (t : Blocks) (nb k : ℕ) (t' : Blocks) : Prop where
  view_self : view E t'.disk h q r = some v
  view_other : ∀ r' < E ^ h, r' ≠ r → view E t'.disk h q r' = view E t.disk h q r'
  frame : ∀ b ∉ innerOf E t.disk h q, b ∉ t'.used \ t.used → t'.disk b = t.disk b
  ptrs : t'.ptrs = t.ptrs
  allocs : Allocates t nb k t'

/-- A tree below another entry of `q` than the one the run went down is as it was, when the run
wrote no block outside `q`, the tree it went down and the blocks it allocated. -/
theorem view_sibling {E h q o o' : ℕ} {t t' : Blocks} (hq : q ≠ 0)
    (hnd : (blocksOf E t.disk (h + 1) q).Nodup)
    (hused : ∀ b ∈ blocksOf E t.disk (h + 1) q, b ∈ t.used) (ho : o < E) (ho' : o' < E)
    (hne : o' ≠ o)
    (hframe : ∀ b, b ≠ q → b ∉ blocksOf E t.disk h (t.disk q o) → b ∉ t'.used \ t.used →
      t'.disk b = t.disk b) :
    ∀ r < E ^ h, view E t'.disk h (t.disk q o') r = view E t.disk h (t.disk q o') r := by
  refine (tree_congr fun b hb => ?_).2.2
  have hb' := innerOf_subset_blocksOf t.disk h _ hb
  refine hframe b (fun e => not_mem_child hq hnd ho' (e ▸ hb'))
    (disjoint_children hq hnd ho' ho hne hb') (fun hn => (Finset.mem_sdiff.1 hn).2 ?_)
  exact hused b (mem_blocksOf_child hq ho' hb')

/-- The last level below a block that was there: its free entry `r` gets the pointer. -/
theorem SetsTree.last {E v q r nb : ℕ} (t : Blocks) (hq : q ≠ 0) (hv : v ≠ 0) :
    SetsTree E v 1 q r t nb (nb + 1)
      { t with disk := Function.update t.disk q (Function.update (t.disk q) r v) } where
  view_self := by simp [view, digits, walkFrom, walk, hq, hv]
  view_other r' _ hne := by simp [view, digits, walkFrom, walk, hq, hne]
  frame b hb _ := by
    have hbq : b ≠ q := fun e => hb (by simp [innerOf, hq, e])
    simp [Function.update_of_ne hbq]
  ptrs := rfl
  allocs := Allocates.last nb rfl

/-- A level at a block `q` that was there, whose entry on the way is nonzero: the run goes on in
the tree below it. -/
theorem SetsTree.of_child {E v h q r nb k : ℕ} {t t' : Blocks} (hq : q ≠ 0)
    (hr : r < E ^ (h + 1)) (hnd : (blocksOf E t.disk (h + 1) q).Nodup)
    (hused : ∀ b ∈ blocksOf E t.disk (h + 1) q, b ∈ t.used)
    (hchild : SetsTree E v h (t.disk q (r / E ^ h)) (r % E ^ h) t nb k t') :
    SetsTree E v (h + 1) q r t nb k t' := by
  have ho := div_lt_of_lt_pow hr
  have hpos := pow_pos (pos_of_lt_pow hr) h
  have hqnew : q ∉ t'.used \ t.used := fun hn =>
    (Finset.mem_sdiff.1 hn).2 (hused q (by simp [blocksOf, hq]))
  have hdq : t'.disk q = t.disk q :=
    hchild.frame q (fun hi => not_mem_child hq hnd ho (innerOf_subset_blocksOf _ _ _ hi)) hqnew
  refine ⟨?_, fun r' hr' hne => ?_,
    fun b hb hbnew => hchild.frame b (fun hi => hb (mem_innerOf_child hq ho hi)) hbnew,
    hchild.ptrs, hchild.allocs⟩
  · rw [view_succ _ h hq, hdq]
    exact hchild.view_self
  · rw [view_succ _ h hq, view_succ _ h hq, hdq]
    by_cases ho' : r' / E ^ h = r / E ^ h
    · rw [ho']
      exact hchild.view_other _ (Nat.mod_lt _ hpos)
        (fun hm => hne (eq_of_div_eq_of_mod_eq ho' hm))
    · exact view_sibling hq hnd hused ho (div_lt_of_lt_pow hr') ho'
        (fun b _ hb hbnew => hchild.frame b (fun hi => hb (innerOf_subset_blocksOf _ _ _ hi)) hbnew)
        _ (Nat.mod_lt _ hpos)

/-- A level at a block `q` that was there, whose entry on the way is zero: it gets the block `p`
just allocated, and the run goes on below `p`. -/
theorem SetsTree.of_fresh {E v h q r p nb k : ℕ} {t t' : Blocks} (hq : q ≠ 0)
    (hr : r < E ^ (h + 1)) (hnd : (blocksOf E t.disk (h + 1) q).Nodup)
    (hused : ∀ b ∈ blocksOf E t.disk (h + 1) q, b ∈ t.used) (hzero : t.disk q (r / E ^ h) = 0)
    (hp : p ∉ t.used) (hp0 : p ≠ 0)
    (hfresh : SetsFresh v p (digits E h (r % E ^ h))
      { t with
        used := insert p t.used
        disk := Function.update t.disk q (Function.update (t.disk q) (r / E ^ h) p) }
      (nb + 1) k t') :
    SetsTree E v (h + 1) q r t nb k t' := by
  have ho := div_lt_of_lt_pow hr
  have hpos := pow_pos (pos_of_lt_pow hr) h
  have hqu : q ∈ t.used := hused q (by simp [blocksOf, hq])
  obtain ⟨-, hframe1⟩ := hfresh.of_alloc rfl hp
  have hdq : t'.disk q = Function.update (t.disk q) (r / E ^ h) p := by
    rw [hframe1 q fun hn => (Finset.mem_sdiff.1 hn).2 hqu]
    simp
  -- the run writes `q`, `p` and the blocks it allocates below `p`
  have hframe : ∀ b, b ≠ q → b ∉ t'.used \ t.used → t'.disk b = t.disk b := by
    intro b hbq hbnew
    rw [hframe1 b hbnew]
    simp [Function.update_of_ne hbq]
  refine ⟨?_, fun r' hr' hne => ?_,
    fun b hb hbnew => hframe b (fun e => hb (by simp [innerOf, hq, e])) hbnew, hfresh.ptrs,
    Allocates.alloc hp rfl hfresh.allocs hfresh.own⟩
  · rw [view_succ _ h hq, hdq, Function.update_self]
    exact hfresh.view_self hp0
  · rw [view_succ _ h hq, view_succ _ h hq, hdq]
    by_cases ho' : r' / E ^ h = r / E ^ h
    · -- below the zero entry: nothing before, and nothing but the pointer after
      rw [ho', Function.update_self, hzero, view_of_eq_zero]
      exact hfresh.view_other hp0 (Nat.mod_lt _ hpos) (Nat.mod_lt _ hpos)
        fun hm => hne (eq_of_div_eq_of_mod_eq ho' hm)
    · rw [Function.update_of_ne ho']
      exact view_sibling hq hnd hused ho (div_lt_of_lt_pow hr') ho'
        (fun b hbq _ hbnew => hframe b hbq hbnew) _ (Nat.mod_lt _ hpos)

section Tree

variable {pick : Finset ℕ → Option ℕ} {offsets : List ℕ} {val : ℕ}

/-- The loop from a pointer block `q` that was there, by induction on the height of the tree
below it: it goes down while the entries on the way are nonzero, and at the first zero one it
allocates and goes on as `setBlockLoop_fresh`. -/
theorem setBlockLoop_tree (hpick : AllocFresh pick) (hval : val % 2 ^ 32 ≠ 0) {E : ℕ} :
    ∀ (h : ℕ) {i q r nb k : ℕ} {ptrVec : List ℕ} {t t' : Blocks}, i ≠ 0 → q ≠ 0 →
      r < E ^ (h + 1) → (blocksOf E t.disk (h + 1) q).Nodup →
      (∀ b ∈ blocksOf E t.disk (h + 1) q, b ∈ t.used) → view E t.disk (h + 1) q r = none →
      setBlockLoop pick offsets val i (digits E (h + 1) r) q false ptrVec nb t = some (some k, t') →
      SetsTree E (val % 2 ^ 32) (h + 1) q r t nb k t'
  | 0, i, q, r, nb, k, ptrVec, t, t', hi, hq, _, _, _, hnone, hrun => by
    have hzero : t.disk q r = 0 := by
      simpa [view, digits, walkFrom, walk, hq] using hnone
    simp only [digits, pow_zero, Nat.div_one] at hrun
    rw [setBlockLoop_last pick (levelPtrs_read hi) hzero, Blocks.store_of_ne_zero t hi] at hrun
    simp only [Option.some.injEq, Prod.mk.injEq] at hrun
    obtain ⟨rfl, rfl⟩ := hrun
    exact SetsTree.last t hq hval
  | h + 1, i, q, r, nb, k, ptrVec, t, t', hi, hq, hr, hnd, hused, hnone, hrun => by
    have hos : digits E (h + 1) (r % E ^ (h + 1)) ≠ [] := by simp [digits]
    change setBlockLoop pick offsets val i
      (r / E ^ (h + 1) :: digits E (h + 1) (r % E ^ (h + 1))) q false ptrVec nb t = _ at hrun
    by_cases hzero : t.disk q (r / E ^ (h + 1)) = 0
    · cases hpk : pick t.used with
      | none =>
        rw [setBlockLoop_fail pick (levelPtrs_read hi) hos hzero hpk] at hrun
        cases hrun
      | some p =>
        obtain ⟨hpu, hp0, hplt⟩ := hpick _ _ hpk
        rw [setBlockLoop_alloc pick (levelPtrs_read hi) hos hzero hpk, Nat.mod_eq_of_lt hplt,
          Blocks.store_of_ne_zero _ hi] at hrun
        exact SetsTree.of_fresh hq hr hnd hused hzero hpu hp0
          (setBlockLoop_fresh hpick hval _ (Nat.succ_ne_zero i) (Finset.mem_insert_self p _) hrun)
    · rw [setBlockLoop_down pick (levelPtrs_read hi) hos hzero] at hrun
      have ho := div_lt_of_lt_pow hr
      have hr' := Nat.mod_lt r (pow_pos (pos_of_lt_pow hr) (h + 1))
      refine SetsTree.of_child hq hr hnd hused
        (setBlockLoop_tree hpick hval h (Nat.succ_ne_zero i) hzero hr' (nodup_child hq hnd ho)
          (fun b hb => hused b (mem_blocksOf_child hq ho hb)) ?_ hrun)
      rwa [view_succ _ _ hq] at hnone

end Tree

/-! ## The inode's level -/

/-- What `set_block` does to the inode's tree, for block `r` below the inode's pointer `i0`: that
block is `v` afterwards and every other block of the file is as it was. -/
structure SetsInode (E v i0 r : ℕ) (t : Blocks) (k : ℕ) (t' : Blocks) : Prop where
  view_self : view E t'.disk (height i0) (t'.ptrs i0) r = some v
  view_other : ∀ i < 15, ∀ r' < E ^ height i, (i ≠ i0 ∨ r' ≠ r) →
    view E t'.disk (height i) (t'.ptrs i) r' = view E t.disk (height i) (t.ptrs i) r'
  allocs : Allocates t 0 k t'

section Inode

variable {E i0 : ℕ} {t t' : Blocks} (htree : (treeBlocks E t).Nodup)
  (hused : ∀ b ∈ treeBlocks E t, b ∈ t.used) (hi0 : i0 < 15)

include htree hused hi0 in
/-- The tree below another pointer of the inode than `i0` is as it was, when the run wrote no
block outside the tree below `i0` and the blocks it allocated. -/
theorem view_other_ptr {i : ℕ} (hi : i < 15) (hne : i ≠ i0) (hptr : t'.ptrs i = t.ptrs i)
    (hframe : ∀ b ∉ blocksOf E t.disk (height i0) (t.ptrs i0), b ∉ t'.used \ t.used →
      t'.disk b = t.disk b) :
    ∀ r < E ^ height i, view E t'.disk (height i) (t'.ptrs i) r =
      view E t.disk (height i) (t.ptrs i) r := by
  rw [hptr]
  refine (tree_congr fun b hb => ?_).2.2
  have hb' := innerOf_subset_blocksOf t.disk _ _ hb
  refine hframe b (disjoint_blocksOf_of_forest htree (Nat.zero_le i) (by omega) (Nat.zero_le i0)
    (by omega) hne hb') fun hn => (Finset.mem_sdiff.1 hn).2 ?_
  exact hused b (mem_forestBlocks.2 ⟨i, Nat.zero_le i, by omega, hb'⟩)

/-- A direct pointer: the inode's free entry gets the pointer. -/
theorem SetsInode.of_direct {v r : ℕ} (t : Blocks) (h0 : height i0 = 0) (hr : r < E ^ height i0)
    (hv : v ≠ 0) : SetsInode E v i0 r t 1 { t with ptrs := Function.update t.ptrs i0 v } where
  view_self := by simp [h0, hv]
  view_other i _ r' hr' hne := by
    by_cases hii : i = i0
    · -- a direct pointer stands for one block only
      subst hii
      rw [h0, pow_zero] at hr hr'
      omega
    · simp [Function.update_of_ne hii]
  allocs := Allocates.last 0 rfl

include htree hused hi0 in
/-- An indirect pointer that is zero: it gets the block `p` just allocated, and the run goes on
below `p`. -/
theorem SetsInode.of_fresh {v r h p k : ℕ} (hh : height i0 = h + 1) (hr : r < E ^ (h + 1))
    (hzero : t.ptrs i0 = 0) (hp : p ∉ t.used) (hp0 : p ≠ 0)
    (hfresh : SetsFresh v p (digits E (h + 1) r)
      { t with
        used := insert p t.used
        ptrs := Function.update t.ptrs i0 p } 1 k t') :
    SetsInode E v i0 r t k t' := by
  obtain ⟨-, hframe⟩ := hfresh.of_alloc rfl hp
  have hptr : t'.ptrs = Function.update t.ptrs i0 p := hfresh.ptrs
  refine ⟨?_, fun i hi r' hr' hne => ?_, Allocates.alloc hp rfl hfresh.allocs hfresh.own⟩
  · rw [hptr, Function.update_self, hh]
    exact hfresh.view_self hp0
  · by_cases hii : i = i0
    · -- another block below `i0`: nothing before, and nothing but the pointer after
      subst hii
      rw [hptr, Function.update_self, hzero, view_of_eq_zero, hh]
      exact hfresh.view_other hp0 hr (hh ▸ hr') (hne.resolve_left fun h => h rfl)
    · exact view_other_ptr htree hused hi0 hi hii (by rw [hptr, Function.update_of_ne hii])
        (fun b _ hbnew => hframe b hbnew) r' hr'

include htree hused hi0 in
/-- An indirect pointer to a block that was there: the run goes on in the tree below it. -/
theorem SetsInode.of_tree {v r h k : ℕ} (hh : height i0 = h + 1)
    (htr : SetsTree E v (h + 1) (t.ptrs i0) r t 0 k t') : SetsInode E v i0 r t k t' := by
  refine ⟨by rw [htr.ptrs, hh]; exact htr.view_self, fun i hi r' hr' hne => ?_, htr.allocs⟩
  by_cases hii : i = i0
  · subst hii
    rw [htr.ptrs, hh]
    exact htr.view_other r' (hh ▸ hr') (hne.resolve_left fun h => h rfl)
  · exact view_other_ptr htree hused hi0 hi hii (by rw [htr.ptrs])
      (fun b hb hbnew => htr.frame b (fun hi => hb (hh ▸ innerOf_subset_blocksOf _ _ _ hi)) hbnew)
      r' hr'

end Inode

section Run

variable {pick : Finset ℕ → Option ℕ} {offsets : List ℕ} {val : ℕ}

/-- The loop from the inode's level, for block `r` below the inode's pointer `i0`. -/
theorem setBlockLoop_inode (hpick : AllocFresh pick) (hval : val % 2 ^ 32 ≠ 0) {E i0 r k : ℕ}
    {t t' : Blocks} (htree : (treeBlocks E t).Nodup) (hused : ∀ b ∈ treeBlocks E t, b ∈ t.used)
    (hi0 : i0 < 15) (hr : r < E ^ height i0)
    (hnone : view E t.disk (height i0) (t.ptrs i0) r = none)
    (hrun : setBlockLoop pick offsets val 0 (i0 :: digits E (height i0) r) 0 false [] 0 t =
      some (some k, t')) :
    SetsInode E (val % 2 ^ 32) i0 r t k t' := by
  cases hh : height i0 with
  | zero =>
    rw [hh] at hnone hrun
    have hzero : t.ptrs i0 = 0 := by simpa using hnone
    simp only [digits] at hrun
    rw [setBlockLoop_last pick levelPtrs_inode hzero, Blocks.store_zero] at hrun
    simp only [Option.some.injEq, Prod.mk.injEq] at hrun
    obtain ⟨rfl, rfl⟩ := hrun
    exact SetsInode.of_direct t hh hr hval
  | succ h =>
    rw [hh] at hnone hrun hr
    have hos : digits E (h + 1) r ≠ [] := by simp [digits]
    by_cases hzero : t.ptrs i0 = 0
    · cases hpk : pick t.used with
      | none =>
        rw [setBlockLoop_fail pick levelPtrs_inode hos hzero hpk] at hrun
        cases hrun
      | some p =>
        obtain ⟨hpu, hp0, hplt⟩ := hpick _ _ hpk
        rw [setBlockLoop_alloc pick levelPtrs_inode hos hzero hpk, Nat.mod_eq_of_lt hplt,
          Blocks.store_zero] at hrun
        exact SetsInode.of_fresh htree hused hi0 hh hr hzero hpu hp0
          (setBlockLoop_fresh hpick hval _ one_ne_zero (Finset.mem_insert_self p _) hrun)
    · rw [setBlockLoop_down pick levelPtrs_inode hos hzero] at hrun
      have hsub : ∀ b ∈ blocksOf E t.disk (h + 1) (t.ptrs i0), b ∈ treeBlocks E t := fun b hb =>
        mem_forestBlocks.2 ⟨i0, Nat.zero_le i0, by omega, hh ▸ hb⟩
      exact SetsInode.of_tree htree hused hi0 hh
        (setBlockLoop_tree hpick hval h one_ne_zero hzero hr
          (hh ▸ nodup_blocksOf_of_forest htree (Nat.zero_le i0) (by omega))
          (fun b hb => hused b (hsub b hb)) hnone hrun)

end Run

/-! ## `set_block` -/

/-- `set_block` of a block of the file that is not there, to a pointer `0 < val < 2 ^ 32`, on a
tree in which no block is found twice and whose blocks the bitmaps mark as used, with an
allocator that hands out unused blocks: when it returns `Some(k)`, `get_block` finds `val` at
`blockNum` and what it found before at every other block number, it only marked blocks as used,
each block it allocated holds one pointer among zeros, and `k` is one more than their number.
That `blockNum` lies in the range of the file follows from the call going on past
`get_offsets`, at every block size. -/
theorem set_block_installs_one (pick : Finset ℕ → Option ℕ) (hpick : AllocFresh pick)
    {bs blockNum val k : ℕ} {t t' : Blocks} (htree : (treeBlocks (bs / 4) t).Nodup)
    (hused : ∀ b ∈ treeBlocks (bs / 4) t, b ∈ t.used)
    (_hn : blockNum < 12 + bs / 4 + (bs / 4) ^ 2 + (bs / 4) ^ 3)
    (hnone : getBlock bs blockNum t = some none) (hval : val ≠ 0) (hval32 : val < 2 ^ 32)
    (hrun : setBlock pick bs blockNum val t = some (some k, t')) :
    getBlock bs blockNum t' = some (some val) ∧
    (∀ m, m ≠ blockNum → getBlock bs m t' = getBlock bs m t) ∧
    t.used ⊆ t'.used ∧ (∀ b ∈ t'.used \ t.used, OnePointer (t'.disk b)) ∧
    k = 1 + (t'.used \ t.used).card := by
  -- `get_offsets` gave the offsets of block `r` below the inode's pointer `i0`, whatever the
  -- block size, since the call went on
  obtain ⟨path, hget, hloop⟩ : ∃ path, getOffsets blockNum bs = some path ∧
      setBlockLoop pick path val 0 path 0 false [] 0 t = some (some k, t') := by
    simpa [setBlock, Option.bind_eq_some_iff] using hrun
  obtain ⟨i0, hi0, r, hr, rfl⟩ := getOffsets_path hget
  rw [getBlock_of_getOffsets t hget, Option.some.injEq] at hnone
  have hI := setBlockLoop_inode hpick (by rwa [Nat.mod_eq_of_lt hval32]) htree hused hi0 hr
    hnone hloop
  rw [Nat.mod_eq_of_lt hval32] at hI
  refine ⟨by rw [getBlock_of_getOffsets t' hget, hI.view_self], fun m hm => ?_, hI.allocs.used,
    hI.allocs.onePointer, by rw [hI.allocs.count, Nat.zero_add]⟩
  cases hm' : getOffsets m bs with
  | none => simp [getBlock, hm']
  | some p =>
    -- another block below the same pointer, or below another one: their offsets differ
    obtain ⟨i, hi, r', hr', rfl⟩ := getOffsets_path hm'
    have hne : i ≠ i0 ∨ r' ≠ r := by
      by_cases hii : i = i0
      · subst hii
        exact Or.inr fun hrr => hm (getOffsets_inj hm' (hrr ▸ hget))
      · exact Or.inl hii
    rw [getBlock_of_getOffsets t' hm', getBlock_of_getOffsets t hm',
      hI.view_other i hi r' hr' hne]

/-- An allocator that hands out the first block from `1` on, below `4096`, that the bitmaps do not
mark. -/
def firstFree (used : Finset ℕ) : Option ℕ := (List.range' 1 4095).find? fun b => b ∉ used

theorem firstFree_fresh : AllocFresh firstFree := by
  intro u p hp
  have hmem := List.mem_range'_1.1 (List.mem_of_find?_eq_some hp)
  have hfree := List.find?_some hp
  exact ⟨by simpa using hfree, by omega, by omega⟩

/-- A file with no blocks, on a disk of zeros. -/
def emptyFile : Blocks := ⟨fun _ => 0, fun _ _ => 0, ∅⟩

/-- A file with 1 KiB blocks whose triple-indirect block `100` leads through `101` and `102` to
block `200`, block `12 + 256 + 256 ^ 2 + 5` of the file. -/
def tripleFile : Blocks where
  ptrs i := if i = 14 then 100 else 0
  disk b e := if b = 100 ∧ e = 0 then 101 else if b = 101 ∧ e = 0 then 102
    else if b = 102 ∧ e = 5 then 200 else 0
  used := {100, 101, 102, 200}

set_option maxRecDepth 4000 in
/-- Block `12 + 256 + 256 ^ 2 + 5` of an empty file with 1 KiB blocks, in the triple-indirect
range: `set_block` allocates the three pointer blocks on the way. And block
`12 + 256 + 256 ^ 2 + 6` of `tripleFile`, the entry next to block `200` under the same three
pointer blocks: `set_block` goes down the blocks that are there and allocates none. -/
theorem set_block_installs_one_triple :
    (∃ k t', setBlock firstFree 1024 (12 + 256 + 65536 + 5) 77 emptyFile = some (some k, t') ∧
      getBlock 1024 (12 + 256 + 65536 + 5) t' = some (some 77) ∧
      (∀ m, m ≠ 12 + 256 + 65536 + 5 → getBlock 1024 m t' = getBlock 1024 m emptyFile) ∧
      emptyFile.used ⊆ t'.used ∧ (∀ b ∈ t'.used \ emptyFile.used, OnePointer (t'.disk b)) ∧
      k = 1 + (t'.used \ emptyFile.used).card) ∧
    (∃ k t', setBlock firstFree 1024 (12 + 256 + 65536 + 6) 78 tripleFile = some (some k, t') ∧
      getBlock 1024 (12 + 256 + 65536 + 6) t' = some (some 78) ∧
      (∀ m, m ≠ 12 + 256 + 65536 + 6 → getBlock 1024 m t' = getBlock 1024 m tripleFile) ∧
      tripleFile.used ⊆ t'.used ∧ (∀ b ∈ t'.used \ tripleFile.used, OnePointer (t'.disk b)) ∧
      k = 1 + (t'.used \ tripleFile.used).card) := by
  obtain ⟨k, t', hrun⟩ : ∃ k t',
      setBlock firstFree 1024 (12 + 256 + 65536 + 5) 77 emptyFile = some (some k, t') :=
    ⟨_, _, rfl⟩
  obtain ⟨k2, t2, hrun2⟩ : ∃ k t',
      setBlock firstFree 1024 (12 + 256 + 65536 + 6) 78 tripleFile = some (some k, t') :=
    ⟨_, _, rfl⟩
  exact ⟨⟨k, t', hrun, set_block_installs_one firstFree firstFree_fresh (by decide) (by decide)
    (by decide) (by decide) (by decide) (by decide) hrun⟩,
    ⟨k2, t2, hrun2, set_block_installs_one firstFree firstFree_fresh (by decide) (by decide)
    (by decide) (by decide) (by decide) (by decide) hrun2⟩⟩

/-- A pointer of `2 ^ 32` is stored as `0`: on an inode without blocks `set_block` counts it and
returns `Some(1)`, whatever the allocator, the block size and the disk, and `get_block` still
finds nothing. -/
theorem setBlock_two_pow_of_empty (pick : Finset ℕ → Option ℕ) (bs : ℕ) (disk : Disk)
    (used : Finset ℕ) :
    ∃ t', setBlock pick bs 0 (2 ^ 32) ⟨fun _ => 0, disk, used⟩ = some (some 1, t') ∧
      getBlock bs 0 ⟨fun _ => 0, disk, used⟩ = some none ∧ getBlock bs 0 t' = some none := by
  refine ⟨_, rfl, ?_, ?_⟩ <;> simp [getBlock, getOffsets, getBlockAt]

/-- Block `0` of an empty file set to `2 ^ 32`: the call returns `Some(1)`, and `get_block(0)` is
still `None`. -/
theorem set_block_cuts_pointer :
    ∃ t', setBlock firstFree 1024 0 (2 ^ 32) emptyFile = some (some 1, t') ∧
      getBlock 1024 0 emptyFile = some none ∧ getBlock 1024 0 t' = some none :=
  setBlock_two_pow_of_empty firstFree 1024 (fun _ _ => 0) ∅

end Cykusz.Fs.Ext2
