import Mathlib

/-!
# The block tree of an ext2 inode

An inode names the blocks of its file through fifteen pointers: twelve to data blocks, one to a
block of pointers (single indirect), one to a block of pointers to such blocks (double indirect)
and one a level deeper (triple indirect). With `E = block_size / 4` pointers in a block, block
`n` of the file is found along the offsets `get_offsets(n)` gives: one offset into the inode and
one into each pointer block below it. `get_block` follows them and stops at the first zero
pointer. `set_block` (`kernel/fs/ext2/idata.rs`) follows them too and puts a pointer in at the
end, allocating each missing pointer block on the way and zero-filling it; when an allocation
fails it calls `revert`, which is meant to undo what this call put in.

`revert` does not remember what the call allocated: it takes a level for a fresh one when its
offset is zero. When the call fails below a pointer block that was there before, at an offset
that is not zero, it clears the entry of that block at the offset of the level above it instead
of anything the call wrote, and a file block of the inode's tree that was found through that
entry is lost (`revert_clears_unrelated_pointer`).

Conventions of the model:
* a pointer block on the disk is a function from an entry's index to the `u32` there, read as a
  natural number, and the disk a function from a block's number to it; a block is read and
  written whole (`read_block`, `write_block`), so writing it is a function update; a pointer
  written to an entry is cut to its low 32 bits (`as u32`);
* the block bitmaps are the set of the blocks they mark as used: `free_block_ptr` takes a block
  out of it, and `alloc_block_ptr` puts in the block that `pick` chooses among the others, or
  fails when `pick` chooses none;
* where the source panics (`Block num too big?`, `INode corrupted`) the model returns `none`;
* `get_offsets` works on `usize`, built without overflow checks: the spans `E * E` and
  `E * E * E` of the double- and the triple-indirect range wrap past `2 ^ 64`. Every path it
  returns is still the offsets of a block below one of the inode's pointers, and no two block
  numbers share one (`getOffsets_path`, `getOffsets_inj`); up to blocks of `2 ^ 23` bytes it is
  the standard decomposition (`getOffsets_decode`), and with blocks of `2 ^ 24` bytes the
  triple-indirect span wraps to `0` (`getOffsets_triple_wraps`).
-/

namespace Cykusz.Fs.Ext2

/-- The pointer blocks of the disk: entry `j` of block `b`. -/
abbrev Disk := ℕ → ℕ → ℕ

/-- What the block functions of an inode read and write: the inode's fifteen block pointers, the
pointer blocks of the disk, and the blocks the bitmaps mark as used. -/
structure Blocks where
  ptrs : ℕ → ℕ
  disk : Disk
  used : Finset ℕ

/-- `INodeData::get_offsets`: the offset in the inode and in each pointer block below it of block
`blockNum` of a file. The spans are products of `usize`s, which wrap. -/
def getOffsets (blockNum blockSize : ℕ) : Option (List ℕ) :=
  let entriesPerBlock := blockSize / 4
  if blockNum < 12 then some [blockNum]
  else
    let blockNum := blockNum - 12
    if blockNum < entriesPerBlock then some [12, blockNum]
    else
      let blockNum := blockNum - entriesPerBlock
      let entriesPerDBlock := entriesPerBlock * entriesPerBlock % 2 ^ 64
      if blockNum < entriesPerDBlock then
        some [13, blockNum / entriesPerBlock, blockNum % entriesPerBlock]
      else
        let blockNum := blockNum - entriesPerDBlock
        let entriesPerTBlock := entriesPerDBlock * entriesPerBlock % 2 ^ 64
        if blockNum < entriesPerTBlock then
          let off1 := blockNum / entriesPerDBlock
          let blockNum := blockNum - off1 * entriesPerDBlock
          some [14, off1, blockNum / entriesPerBlock, blockNum % entriesPerBlock]
        else none

/-- The walk of `get_block` below the inode, from the pointer block `ptr`: the pointer at the end,
or `none` at the first zero pointer. -/
def walk (disk : Disk) (ptr : ℕ) : List ℕ → Option ℕ
  | [] => some ptr
  | o :: os => if disk ptr o = 0 then none else walk disk (disk ptr o) os

/-- `get_block` along the offsets: the first from the inode's pointers. -/
def getBlockAt (t : Blocks) : List ℕ → Option ℕ
  | [] => some 0
  | o :: os => if t.ptrs o = 0 then none else walk t.disk (t.ptrs o) os

/-- `INodeData::get_block`: `none` where `get_offsets` panics. The assertion `o < 15` on the
inode's offset holds of every offset list (`getOffsets_head_lt`). -/
def getBlock (blockSize blockNum : ℕ) (t : Blocks) : Option (Option ℕ) :=
  (getOffsets blockNum blockSize).map (getBlockAt t)

namespace Blocks

/-- Writes the pointers of level `i`: the inode's at level `0`, and the block `ptr` below it. -/
def store (t : Blocks) (i ptr : ℕ) (ptrs : ℕ → ℕ) : Blocks :=
  if i = 0 then { t with ptrs } else { t with disk := Function.update t.disk ptr ptrs }

end Blocks

/-- The loop of `revert` from level `cur` down: while the offset at `cur` is zero it takes the
level for a fresh one and frees `ptr_vec[cur - 1]`; the level it stops at, and the used
blocks. -/
def revertFree (offsets ptrVec : List ℕ) : ℕ → Finset ℕ → ℕ × Finset ℕ
  | 0, used => (0, used)
  | cur + 1, used =>
    if offsets.getD (cur + 1) 0 = 0 then
      revertFree offsets ptrVec cur (used.erase (ptrVec.getD cur 0))
    else (cur + 1, used)

/-- `INodeData::revert` after a failed allocation at the last of `offsets`, `ptrVec` the blocks
the earlier levels point to: it frees the levels `revertFree` takes for fresh ones and clears the
entry above the last of them. -/
def revert (offsets ptrVec : List ℕ) (t : Blocks) : Blocks :=
  let (cur, used) := revertFree offsets ptrVec (offsets.length - 1) t.used
  if cur = 0 then { t with ptrs := Function.update t.ptrs (offsets.getD 0 0) 0, used }
  else
    let b := ptrVec.getD (cur - 1) 0
    { t with
      disk := Function.update t.disk b (Function.update (t.disk b) (offsets.getD (cur - 1) 0) 0)
      used }

/-! ## The offsets of a block number -/

/-- The inode's offset is below fifteen: `get_block`'s assertion holds. -/
theorem getOffsets_head_lt {blockNum bs : ℕ} {offsets : List ℕ}
    (h : getOffsets blockNum bs = some offsets) : ∀ o ∈ offsets.head?, o < 15 := by
  simp only [getOffsets] at h
  split_ifs at h with h12 <;> cases h
  · simpa using h12.trans (by decide : 12 < 15)
  all_goals simp

/-- A block of the double-indirect range is found at entry `a` of the double-indirect block and
entry `b` of the block below it, where the span `E * E` of the range fits in a `usize`. -/
theorem getOffsets_double {bs a b : ℕ} (hfit : bs / 4 * (bs / 4) < 2 ^ 64) (ha : a < bs / 4)
    (hb : b < bs / 4) : getOffsets (12 + bs / 4 + (bs / 4 * a + b)) bs = some [13, a, b] := by
  have hE : 0 < bs / 4 := by omega
  have hlt : bs / 4 * a + b < bs / 4 * (bs / 4) :=
    calc bs / 4 * a + b < bs / 4 * (a + 1) := by rw [Nat.mul_succ]; omega
      _ ≤ bs / 4 * (bs / 4) := Nat.mul_le_mul_left _ ha
  have hsub : 12 + bs / 4 + (bs / 4 * a + b) - 12 - bs / 4 = bs / 4 * a + b := by omega
  have h1 : ¬12 + bs / 4 + (bs / 4 * a + b) < 12 := by omega
  have h2 : ¬12 + bs / 4 + (bs / 4 * a + b) - 12 < bs / 4 := by omega
  simp only [getOffsets, h1, h2, if_false, hsub, Nat.mod_eq_of_lt hfit, hlt, if_true,
    Nat.mul_add_div hE, Nat.div_eq_of_lt hb, Nat.add_zero, Nat.mul_add_mod, Nat.mod_eq_of_lt hb]

/-! ## The tree below a pointer -/

section Tree

variable (E : ℕ)

/-- The offsets of block `r` of a tree of height `h` with `E` pointers a block: the digits of `r`
in base `E`, the most significant first. -/
def digits : ℕ → ℕ → List ℕ
  | 0, _ => []
  | h + 1, r => r / E ^ h :: digits h (r % E ^ h)

/-- The walk from an entry holding `p`: nothing below a zero pointer. -/
def walkFrom (disk : Disk) (p : ℕ) (os : List ℕ) : Option ℕ :=
  if p = 0 then none else walk disk p os

/-- Block `r` of the tree of height `h` below the pointer `p`. -/
def view (disk : Disk) (h p r : ℕ) : Option ℕ := walkFrom disk p (digits E h r)

/-- The blocks of the tree of height `h` below `p`: its pointer blocks and its data blocks. -/
def blocksOf (disk : Disk) : ℕ → ℕ → List ℕ
  | 0, p => if p = 0 then [] else [p]
  | h + 1, p =>
    if p = 0 then [] else p :: (List.range E).flatMap fun j => blocksOf disk h (disk p j)

/-- The pointer blocks of the tree of height `h` below `p`. -/
def innerOf (disk : Disk) : ℕ → ℕ → List ℕ
  | 0, _ => []
  | h + 1, p =>
    if p = 0 then [] else p :: (List.range E).flatMap fun j => innerOf disk h (disk p j)

variable {E}

@[simp] theorem view_zero_height (disk : Disk) (p r : ℕ) :
    view E disk 0 p r = if p = 0 then none else some p := by
  simp [view, digits, walkFrom, walk]

@[simp] theorem view_of_eq_zero (disk : Disk) (h r : ℕ) : view E disk h 0 r = none := by
  simp [view, walkFrom]

@[simp] theorem innerOf_of_eq_zero (disk : Disk) (h : ℕ) : innerOf E disk h 0 = [] := by
  cases h <;> simp [innerOf]

@[simp] theorem blocksOf_of_eq_zero (disk : Disk) (h : ℕ) : blocksOf E disk h 0 = [] := by
  cases h <;> simp [blocksOf]

/-- Block `r` of a tree of height `h + 1` is block `r % E ^ h` of the tree below entry
`r / E ^ h`. -/
theorem view_succ (disk : Disk) (h : ℕ) {p : ℕ} (hp : p ≠ 0) (r : ℕ) :
    view E disk (h + 1) p r = view E disk h (disk p (r / E ^ h)) (r % E ^ h) := by
  simp only [view, digits, walkFrom, hp, if_false, walk]

theorem pos_of_lt_pow {h r : ℕ} (hr : r < E ^ (h + 1)) : 0 < E := by
  rcases Nat.eq_zero_or_pos E with h0 | h0
  · simp [h0] at hr
  · exact h0

theorem div_lt_of_lt_pow {h r : ℕ} (hr : r < E ^ (h + 1)) : r / E ^ h < E := by
  rw [Nat.div_lt_iff_lt_mul (pow_pos (pos_of_lt_pow hr) h)]
  rwa [← pow_succ']

theorem mem_innerOf_child {disk : Disk} {h p j b : ℕ} (hp : p ≠ 0) (hj : j < E)
    (hb : b ∈ innerOf E disk h (disk p j)) : b ∈ innerOf E disk (h + 1) p := by
  simp only [innerOf, hp, if_false, List.mem_cons, List.mem_flatMap, List.mem_range]
  exact Or.inr ⟨j, hj, hb⟩

theorem innerOf_subset_blocksOf (disk : Disk) : ∀ h p, innerOf E disk h p ⊆ blocksOf E disk h p
  | 0, _ => by simp [innerOf]
  | h + 1, p => by
    by_cases hp : p = 0
    · simp [innerOf, hp]
    · intro b hb
      simp only [innerOf, blocksOf, hp, if_false, List.mem_cons, List.mem_flatMap] at hb ⊢
      rcases hb with rfl | ⟨j, hj, hb⟩
      · exact Or.inl rfl
      · exact Or.inr ⟨j, hj, innerOf_subset_blocksOf disk h _ hb⟩

/-- The tree below `p` reads only its pointer blocks: a disk that agrees on them has the same
blocks, the same pointer blocks and the same view below `p`. -/
theorem tree_congr {d d' : Disk} :
    ∀ {h p : ℕ}, (∀ b ∈ innerOf E d h p, d' b = d b) →
      blocksOf E d' h p = blocksOf E d h p ∧ innerOf E d' h p = innerOf E d h p ∧
        ∀ r < E ^ h, view E d' h p r = view E d h p r
  | 0, p, _ => by simp [blocksOf, innerOf]
  | h + 1, p, hd => by
    by_cases hp : p = 0
    · simp [blocksOf, innerOf, hp]
    have hpd : d' p = d p := hd p (by simp [innerOf, hp])
    -- each child's pointer blocks are pointer blocks of `p`
    have hchild : ∀ j < E, blocksOf E d' h (d p j) = blocksOf E d h (d p j) ∧
        innerOf E d' h (d p j) = innerOf E d h (d p j) ∧
        ∀ r < E ^ h, view E d' h (d p j) r = view E d h (d p j) r := fun j hj =>
      tree_congr fun b hb => hd b (mem_innerOf_child hp hj hb)
    refine ⟨?_, ?_, fun r hr => ?_⟩
    · simp only [blocksOf, hp, if_false, hpd]
      congr 1
      exact List.flatMap_congr fun j hj => (hchild j (List.mem_range.1 hj)).1
    · simp only [innerOf, hp, if_false, hpd]
      congr 1
      exact List.flatMap_congr fun j hj => (hchild j (List.mem_range.1 hj)).2.1
    · rw [view_succ d' h hp, view_succ d h hp, hpd]
      exact (hchild _ (div_lt_of_lt_pow hr)).2.2 _
        (Nat.mod_lt _ (pow_pos (pos_of_lt_pow hr) h))

/-- `d'` is `d` with some entries cleared. -/
def Clears (d d' : Disk) : Prop := ∀ b e, d' b e = 0 ∨ d' b e = d b e

theorem Clears.refl (d : Disk) : Clears d d := fun _ _ => Or.inr rfl

theorem Clears.trans {d d' d'' : Disk} (h : Clears d d') (h' : Clears d' d'') : Clears d d'' := by
  intro b e
  rcases h' b e with h0 | h1
  · exact Or.inl h0
  · rw [h1]
    exact h b e

/-- Clearing entries takes blocks out of a tree and puts none in. -/
theorem Clears.subset {d d' : Disk} (hc : Clears d d') :
    ∀ h p, blocksOf E d' h p ⊆ blocksOf E d h p ∧ innerOf E d' h p ⊆ innerOf E d h p
  | 0, p => by simp [blocksOf, innerOf]
  | h + 1, p => by
    by_cases hp : p = 0
    · simp [blocksOf, innerOf, hp]
    -- a child is the old one or a cleared entry, below which there is nothing
    have hchild : ∀ j, blocksOf E d' h (d' p j) ⊆ blocksOf E d h (d p j) ∧
        innerOf E d' h (d' p j) ⊆ innerOf E d h (d p j) := by
      intro j
      rcases hc p j with h0 | h1
      · rw [h0]
        cases h <;> simp [blocksOf, innerOf]
      · rw [h1]
        exact hc.subset h (d p j)
    constructor
    · intro b hb
      simp only [blocksOf, hp, if_false, List.mem_cons, List.mem_flatMap] at hb ⊢
      rcases hb with rfl | ⟨j, hj, hb⟩
      · exact Or.inl rfl
      · exact Or.inr ⟨j, hj, (hchild j).1 hb⟩
    · intro b hb
      simp only [innerOf, hp, if_false, List.mem_cons, List.mem_flatMap] at hb ⊢
      rcases hb with rfl | ⟨j, hj, hb⟩
      · exact Or.inl rfl
      · exact Or.inr ⟨j, hj, (hchild j).2 hb⟩

/-- A block of the view of a tree is a block of the tree. -/
theorem mem_blocksOf_of_view {d : Disk} : ∀ {h p r b : ℕ}, r < E ^ h →
    view E d h p r = some b → b ∈ blocksOf E d h p
  | 0, p, r, b, _, hv => by
    by_cases hp : p = 0
    · simp [hp] at hv
    · simp only [view_zero_height, hp, if_false, Option.some.injEq] at hv
      subst hv
      simp [blocksOf, hp]
  | h + 1, p, r, b, hr, hv => by
    by_cases hp : p = 0
    · simp [hp] at hv
    rw [view_succ d h hp] at hv
    have hchild := mem_blocksOf_of_view (Nat.mod_lt _ (pow_pos (pos_of_lt_pow hr) h)) hv
    simp only [blocksOf, hp, if_false, List.mem_cons, List.mem_flatMap, List.mem_range]
    exact Or.inr ⟨_, div_lt_of_lt_pow hr, hchild⟩

end Tree

/-! ## Block numbers and the inode's pointers -/

/-- The height of the tree below the inode's pointer `i`: twelve direct pointers, then the single,
the double and the triple indirect one. -/
def height (i : ℕ) : ℕ := if i < 12 then 0 else i - 11

/-- The first block of the file below the inode's pointer `i`. -/
def base (E i : ℕ) : ℕ := ∑ j ∈ Finset.range i, E ^ height j

theorem base_succ (E i : ℕ) : base E (i + 1) = base E i + E ^ height i := by
  simp [base, Finset.sum_range_succ]

theorem base_of_le_twelve {E i : ℕ} (hi : i ≤ 12) : base E i = i := by
  induction i with
  | zero => rfl
  | succ i ih =>
    rw [base_succ, ih (by omega), height, if_pos (by omega), pow_zero]

theorem base_thirteen (E : ℕ) : base E 13 = 12 + E := by
  rw [base_succ, base_of_le_twelve le_rfl]
  simp [height]

theorem base_fourteen (E : ℕ) : base E 14 = 12 + E + E ^ 2 := by
  rw [base_succ, base_thirteen]
  simp [height]

theorem base_fifteen (E : ℕ) : base E 15 = 12 + E + E ^ 2 + E ^ 3 := by
  rw [base_succ, base_fourteen]
  simp [height]

/-- Where `E ^ 3` fits in a `usize`, so do the spans `get_offsets` computes. -/
theorem spans_of_fits {E : ℕ} (h : E ^ 3 < 2 ^ 64) :
    E * E % 2 ^ 64 = E * E ∧ E * E * E % 2 ^ 64 = E * E * E := by
  have h3 : E * E * E < 2 ^ 64 := by rwa [← pow_three']
  have h2 : E * E ≤ E * E * E := by
    rcases Nat.eq_zero_or_pos E with rfl | hE
    · simp
    · exact Nat.le_mul_of_pos_right _ hE
  exact ⟨Nat.mod_eq_of_lt (by omega), Nat.mod_eq_of_lt h3⟩

/-- Up to blocks of `2 ^ 23` bytes, `E ^ 3` fits in a `usize`. -/
theorem fits_of_le {bs : ℕ} (hbs : bs ≤ 2 ^ 23) : (bs / 4) ^ 3 < 2 ^ 64 :=
  calc (bs / 4) ^ 3 ≤ (2 ^ 23 / 4) ^ 3 := Nat.pow_le_pow_left (Nat.div_le_div_right hbs) 3
    _ < 2 ^ 64 := by norm_num

/-- `get_offsets` of block `r` below the inode's pointer `i`, where the spans fit in a `usize`: the
pointer, and the digits of `r`. -/
theorem getOffsets_base {bs i r : ℕ} (hfit : (bs / 4) ^ 3 < 2 ^ 64) (hi : i < 15)
    (hr : r < (bs / 4) ^ height i) :
    getOffsets (base (bs / 4) i + r) bs = some (i :: digits (bs / 4) (height i) r) := by
  set E := bs / 4 with hE
  obtain ⟨hD, hT⟩ := spans_of_fits hfit
  rcases (by omega : i < 12 ∨ i = 12 ∨ i = 13 ∨ i = 14) with h12 | rfl | rfl | rfl
  · have hr0 : r = 0 := by simpa [height, h12] using hr
    subst hr0
    simp [getOffsets, base_of_le_twelve h12.le, h12, height, digits]
  · have hr' : r < E := by simpa [height] using hr
    simp [getOffsets, base_of_le_twelve le_rfl, ← hE, hr', height, digits]
  · have hr' : r < E * E := by simpa [height, pow_two] using hr
    have hsub : 12 + E + r - 12 - E = r := by omega
    simp only [getOffsets, base_thirteen, ← hE, hD]
    rw [if_neg (by omega), if_neg (by omega), hsub, if_pos hr']
    simp [height, digits]
  · have hr' : r < E * E * E := by simpa [height, pow_succ, pow_two] using hr
    have hsub : 12 + E + E * E + r - 12 - E - E * E = r := by omega
    have hmod : r - r / (E * E) * (E * E) = r % (E * E) := by
      rw [Nat.mod_eq_sub_div_mul]
    simp only [getOffsets, base_fourteen, pow_two, ← hE, hD, hT]
    rw [if_neg (by omega), if_neg (by omega), if_neg (by omega), hsub, if_pos hr', hmod]
    simp [height, digits, pow_two]

/-- Past the triple-indirect range `get_offsets` panics, where the spans fit in a `usize`. -/
theorem getOffsets_of_le {bs n : ℕ} (hfit : (bs / 4) ^ 3 < 2 ^ 64) (hn : base (bs / 4) 15 ≤ n) :
    getOffsets n bs = none := by
  set E := bs / 4 with hE
  obtain ⟨hD, hT⟩ := spans_of_fits hfit
  have h3 : E ^ 3 = E * E * E := by ring
  rw [base_fifteen, pow_two, h3] at hn
  simp only [getOffsets, ← hE, hD, hT]
  rw [if_neg (by omega), if_neg (by omega), if_neg (by omega), if_neg (by omega)]

/-- Every block number below the end of the triple-indirect range is a block below one of the
inode's pointers. -/
theorem exists_base {E n : ℕ} (hn : n < base E 15) :
    ∃ i < 15, ∃ r < E ^ height i, n = base E i + r := by
  by_cases h12 : n < 12
  · exact ⟨n, by omega, 0, by simp [height, h12], by rw [base_of_le_twelve h12.le]; rfl⟩
  by_cases h13 : n < base E 13
  · refine ⟨12, by omega, n - 12, ?_, ?_⟩
    · rw [base_thirteen] at h13
      simp [height]
      omega
    · rw [base_of_le_twelve le_rfl]
      omega
  by_cases h14 : n < base E 14
  · refine ⟨13, by omega, n - base E 13, ?_, by omega⟩
    rw [base_fourteen] at h14
    rw [base_thirteen] at h13 ⊢
    simp [height]
    omega
  · refine ⟨14, by omega, n - base E 14, ?_, by omega⟩
    rw [base_fifteen] at hn
    rw [base_fourteen] at h14 ⊢
    simp [height]
    omega

/-- `get_block` along the offsets of block `r` below the inode's pointer `i` is the view of the
tree below it. -/
theorem getBlock_of_getOffsets {bs n i r : ℕ} (t : Blocks)
    (h : getOffsets n bs = some (i :: digits (bs / 4) (height i) r)) :
    getBlock bs n t = some (view (bs / 4) t.disk (height i) (t.ptrs i) r) := by
  simp [getBlock, h, getBlockAt, view, walkFrom]

/-- `get_block` of block `r` below the inode's pointer `i`, where the spans fit in a `usize`. -/
theorem getBlock_base {bs i r : ℕ} (t : Blocks) (hfit : (bs / 4) ^ 3 < 2 ^ 64) (hi : i < 15)
    (hr : r < (bs / 4) ^ height i) :
    getBlock bs (base (bs / 4) i + r) t = some (view (bs / 4) t.disk (height i) (t.ptrs i) r) :=
  getBlock_of_getOffsets t (getOffsets_base hfit hi hr)

/-- Whatever `get_offsets` returns, even where its spans wrap, is the offsets of a block below one
of the inode's pointers. -/
theorem getOffsets_path {bs n : ℕ} {path : List ℕ} (h : getOffsets n bs = some path) :
    ∃ i < 15, ∃ r < (bs / 4) ^ height i, path = i :: digits (bs / 4) (height i) r := by
  set E := bs / 4 with hE
  set D := E * E % 2 ^ 64 with hD
  have hDle : D ≤ E * E := Nat.mod_le _ _
  simp only [getOffsets, ← hE, ← hD] at h
  split_ifs at h with h12 h13 h14 h15 <;> cases h
  · exact ⟨n, by omega, 0, by simp [height, h12], by simp [height, h12, digits]⟩
  · exact ⟨12, by norm_num, n - 12, by simpa [height] using h13, by simp [height, digits]⟩
  · have hr : n - 12 - E < E ^ height 13 :=
      calc n - 12 - E < D := h14
        _ ≤ E * E := hDle
        _ = E ^ height 13 := by simp [height, pow_two]
    exact ⟨13, by norm_num, n - 12 - E, hr, by simp [height, digits]⟩
  · -- the triple-indirect range: `m` splits at the wrapped span `D` into `m / D` and `m % D`
    set m := n - 12 - E - D
    have hT : m < E * D := lt_of_lt_of_le h15 (by rw [Nat.mul_comm]; exact Nat.mod_le _ _)
    have hDpos : 0 < D := Nat.pos_of_ne_zero fun h0 => by simp [h0] at hT
    have hoff : m / D < E := (Nat.div_lt_iff_lt_mul hDpos).2 hT
    have hrest : m - m / D * D = m % D := (Nat.mod_eq_sub_div_mul).symm
    have hlt : m % D < E ^ 2 := lt_of_lt_of_le (Nat.mod_lt _ hDpos) (by rw [pow_two]; exact hDle)
    have hE2 : 0 < E ^ 2 := lt_of_le_of_lt (Nat.zero_le _) hlt
    refine ⟨14, by norm_num, m / D * E ^ 2 + m % D, ?_, ?_⟩
    · calc m / D * E ^ 2 + m % D < m / D * E ^ 2 + E ^ 2 := by omega
        _ = (m / D + 1) * E ^ 2 := by ring
        _ ≤ E * E ^ 2 := Nat.mul_le_mul_right _ hoff
        _ = E ^ height 14 := by simp [height]; ring
    · have hdiv : (m / D * E ^ 2 + m % D) / E ^ 2 = m / D := by
        rw [Nat.add_comm, Nat.add_mul_div_right _ _ hE2, Nat.div_eq_of_lt hlt, Nat.zero_add]
      have hmod : (m / D * E ^ 2 + m % D) % E ^ 2 = m % D := by
        rw [Nat.add_comm, Nat.add_mul_mod_self_right, Nat.mod_eq_of_lt hlt]
      simp [height, digits, hdiv, hmod, hrest]

/-- The block number `get_offsets` read a path from, through its own spans. -/
def undoOffsets (bs : ℕ) : List ℕ → ℕ
  | [n] => n
  | [_, i] => 12 + i
  | [_, i, j] => 12 + bs / 4 + (i * (bs / 4) + j)
  | [_, i, j, k] =>
    12 + bs / 4 + bs / 4 * (bs / 4) % 2 ^ 64 + (i * (bs / 4 * (bs / 4) % 2 ^ 64) + (j * (bs / 4) + k))
  | _ => 0

/-- `undoOffsets` reads back the block number of every path `get_offsets` returns. -/
theorem undoOffsets_getOffsets {bs n : ℕ} {path : List ℕ} (h : getOffsets n bs = some path) :
    undoOffsets bs path = n := by
  set E := bs / 4 with hE
  set D := E * E % 2 ^ 64 with hD
  simp only [getOffsets, ← hE, ← hD] at h
  split_ifs at h with h12 h13 h14 h15 <;> cases h
  · rfl
  · simp only [undoOffsets]
    omega
  · have := Nat.div_add_mod' (n - 12 - E) E
    simp only [undoOffsets, ← hE]
    omega
  · set m := n - 12 - E - D
    have hsplit := Nat.div_add_mod' (m - m / D * D) E
    have hle : m / D * D ≤ m := Nat.div_mul_le_self m D
    simp only [undoOffsets, ← hE, ← hD]
    omega

/-- No two block numbers share the offsets `get_offsets` returns. -/
theorem getOffsets_inj {bs m n : ℕ} {path : List ℕ} (hm : getOffsets m bs = some path)
    (hn : getOffsets n bs = some path) : m = n := by
  rw [← undoOffsets_getOffsets hm, undoOffsets_getOffsets hn]

/-! ## Decoding the offsets

The layout of ext2 read the other way: the block number a path of offsets names. A path starts at
one of the inode's fifteen pointers and has one entry, below `E`, for each level of pointer
blocks under it. `get_offsets` is the inverse of this decoding on the file's whole range. -/

/-- The block number of a file that a path of offsets names, with `E` pointers a block. -/
def decodeOffsets (E : ℕ) : List ℕ → ℕ
  | [n] => n
  | [12, i] => 12 + i
  | [13, i, j] => 12 + E + i * E + j
  | [14, i, j, k] => 12 + E + E ^ 2 + i * E ^ 2 + j * E + k
  | _ => 0

/-- The paths of offsets of the layout: a direct pointer, or an indirect one followed by an entry
below `E` in each pointer block under it. -/
def IsPath (E : ℕ) : List ℕ → Prop
  | [n] => n < 12
  | [12, i] => i < E
  | [13, i, j] => i < E ∧ j < E
  | [14, i, j, k] => i < E ∧ j < E ∧ k < E
  | _ => False

instance (E : ℕ) : DecidablePred (IsPath E) := by
  intro p
  unfold IsPath
  split <;> infer_instance

/-- The offsets of block `r` below the inode's pointer `i` form a path, and it decodes to the
block's number in the file. -/
theorem decodeOffsets_digits {E i r : ℕ} (hi : i < 15) (hr : r < E ^ height i) :
    IsPath E (i :: digits E (height i) r) ∧ decodeOffsets E (i :: digits E (height i) r) = base E i + r := by
  rcases (by omega : i < 12 ∨ i = 12 ∨ i = 13 ∨ i = 14) with h12 | rfl | rfl | rfl
  · have hr0 : r = 0 := by simpa [height, h12] using hr
    subst hr0
    simp [height, h12, digits, IsPath, decodeOffsets, base_of_le_twelve h12.le]
  · have hr' : r < E := by simpa [height] using hr
    simp [height, digits, IsPath, decodeOffsets, base_of_le_twelve le_rfl, hr']
  · have hr' : r < E ^ 2 := by simpa [height] using hr
    have hE : 0 < E := pos_of_lt_pow hr'
    -- two levels: the entry of the double-indirect block, then the one below it
    have hdec : r / E * E + r % E = r := Nat.div_add_mod' r E
    simp only [height, if_neg (by omega : ¬13 < 12), digits, pow_one, pow_zero, Nat.div_one,
      IsPath, decodeOffsets, base_thirteen]
    have htop : r / E < E := by simpa using div_lt_of_lt_pow (h := 1) hr'
    exact ⟨⟨htop, Nat.mod_lt r hE⟩, by omega⟩
  · have hr' : r < E ^ 3 := by simpa [height] using hr
    have hE : 0 < E := pos_of_lt_pow hr'
    -- three levels: split `r` at `E ^ 2`, then the rest at `E`
    have hhi : r / E ^ 2 * E ^ 2 + r % E ^ 2 = r := Nat.div_add_mod' r (E ^ 2)
    have hlo : r % E ^ 2 / E * E + r % E ^ 2 % E = r % E ^ 2 := Nat.div_add_mod' _ E
    have hmid : r % E ^ 2 / E < E := by
      simpa using div_lt_of_lt_pow (Nat.mod_lt r (pow_pos hE 2))
    simp only [height, if_neg (by omega : ¬14 < 12), digits, pow_one, pow_zero, Nat.div_one,
      IsPath, decodeOffsets, base_fourteen]
    exact ⟨⟨div_lt_of_lt_pow hr', hmid, Nat.mod_lt _ hE⟩, by omega⟩

/-- Up to blocks of `2 ^ 23` bytes `get_offsets` is the standard decomposition of ext2: below the
end of the triple-indirect range every block number has a path, which decodes back to it and
which no other block number has. -/
theorem getOffsets_decode (bs n : ℕ) (hbs : bs ≤ 2 ^ 23)
    (hn : n < 12 + bs / 4 + (bs / 4) ^ 2 + (bs / 4) ^ 3) :
    ∃ path, getOffsets n bs = some path ∧ IsPath (bs / 4) path ∧ decodeOffsets (bs / 4) path = n ∧
      ∀ m, getOffsets m bs = some path → m = n := by
  rw [← base_fifteen] at hn
  obtain ⟨i, hi, r, hr, rfl⟩ := exists_base hn
  have hget := getOffsets_base (fits_of_le hbs) hi hr
  obtain ⟨hpath, hdec⟩ := decodeOffsets_digits hi hr
  exact ⟨_, hget, hpath, hdec, fun m hm => getOffsets_inj hm hget⟩

/-- The last block of the triple-indirect range with blocks of 1024 bytes. -/
theorem getOffsets_decode_last :
    1024 ≤ 2 ^ 23 ∧ 16843019 < 12 + 1024 / 4 + (1024 / 4) ^ 2 + (1024 / 4) ^ 3 ∧
      ∃ path, getOffsets 16843019 1024 = some path ∧ IsPath (1024 / 4) path ∧
        decodeOffsets (1024 / 4) path = 16843019 ∧ ∀ m, getOffsets m 1024 = some path → m = 16843019 :=
  ⟨by decide, by decide, getOffsets_decode 1024 16843019 (by decide) (by decide)⟩

/-- With blocks of `2 ^ 24` bytes, `E = 2 ^ 22`, the span `E * E * E = 2 ^ 66` of the
triple-indirect range wraps to `0`: `get_offsets` panics on the first block of that range, though
it lies below `12 + E + E ^ 2 + E ^ 3`. -/
theorem getOffsets_triple_wraps :
    12 + 2 ^ 22 + 2 ^ 44 < 12 + 2 ^ 24 / 4 + (2 ^ 24 / 4) ^ 2 + (2 ^ 24 / 4) ^ 3 ∧
      getOffsets (12 + 2 ^ 22 + 2 ^ 44) (2 ^ 24) = none := by
  decide

section SetBlock

-- the choice of `alloc_block_ptr` among the blocks that are not used
variable (pick : Finset ℕ → Option ℕ)

/-- The loop of `set_block` from level `i` on, `os` the offsets from there, `ptr` the pointer the
level above holds and `wasAlloc` whether it allocated it: `none` for the panic on a corrupted
inode, `some (none, _)` after a failed allocation and its `revert`, and otherwise the count of
blocks put in. A level's pointers are the inode's at level `0`, and below it the block `ptr`,
read or, when it was just allocated, zero-filled. -/
def setBlockLoop (offsets : List ℕ) (val : ℕ) :
    ℕ → List ℕ → ℕ → Bool → List ℕ → ℕ → Blocks → Option (Option ℕ × Blocks)
  | _, [], _, _, _, newBlocks, t => some (some newBlocks, t)
  | i, o :: os, ptr, wasAlloc, ptrVec, newBlocks, t =>
    let ptrs := if i = 0 then t.ptrs else if wasAlloc then fun _ => 0 else t.disk ptr
    if os = [] then
      -- the last level: the pointer is put in (`val as u32`), or the slot was taken
      if ptrs o ≠ 0 then none
      else some (some (newBlocks + 1), t.store i ptr (Function.update ptrs o (val % 2 ^ 32)))
    else if ptrs o = 0 then
      match pick t.used with
      | some p =>
        -- the entry holds `p as u32`, and the next level's block is read back from it
        setBlockLoop offsets val (i + 1) os (p % 2 ^ 32) true (ptrVec ++ [p % 2 ^ 32])
          (newBlocks + 1)
          ({ t with used := insert p t.used }.store i ptr (Function.update ptrs o (p % 2 ^ 32)))
      | none => some (none, revert (offsets.take (i + 1)) ptrVec t)
    else setBlockLoop offsets val (i + 1) os (ptrs o) false (ptrVec ++ [ptrs o]) newBlocks t

/-- `INodeData::set_block`: puts `val` in as block `blockNum` of the file. -/
def setBlock (blockSize blockNum val : ℕ) (t : Blocks) : Option (Option ℕ × Blocks) :=
  (getOffsets blockNum blockSize).bind fun offsets =>
    setBlockLoop pick offsets val 0 offsets 0 false [] 0 t

end SetBlock

/-! ## A failed allocation below an existing double-indirect block -/

section Revert

variable (pick : Finset ℕ → Option ℕ)

/-- `set_block` in the double-indirect range, when the double-indirect block is there, its entry
`a` is zero and the allocation of the block below it fails: the call returns `None` after
`revert` of the offsets `[13, a]`, with the double-indirect block as the only block the levels
above point to. -/
theorem setBlock_double_fail {bs a b val : ℕ} (t : Blocks) (hfit : bs / 4 * (bs / 4) < 2 ^ 64)
    (ha : a < bs / 4) (hb : b < bs / 4) (hD : t.ptrs 13 ≠ 0) (hDa : t.disk (t.ptrs 13) a = 0)
    (hfull : pick t.used = none) :
    setBlock pick bs (12 + bs / 4 + (bs / 4 * a + b)) val t =
      some (none, revert [13, a] [t.ptrs 13] t) := by
  simp [setBlock, getOffsets_double hfit ha hb, setBlockLoop, hD, hDa, hfull]

/-- At a nonzero offset `revert` stops at once and clears the entry of the block above at the
offset of the level above it: entry `13` of the double-indirect block. -/
theorem revert_of_ne_zero {a : ℕ} (ha : a ≠ 0) (D : ℕ) (t : Blocks) :
    revert [13, a] [D] t =
      { t with disk := Function.update t.disk D (Function.update (t.disk D) 13 0) } := by
  simp [revert, revertFree, ha]

/-- At offset zero `revert` frees the double-indirect block, which was there before the call, and
clears the inode's pointer to it. -/
theorem revert_of_eq_zero (D : ℕ) (t : Blocks) :
    revert [13, 0] [D] t = { t with ptrs := Function.update t.ptrs 13 0, used := t.used.erase D } := by
  simp [revert, revertFree]

/-- A block of the double-indirect range is found through entries `13` and `j`. -/
theorem getBlock_double {bs j D S : ℕ} (t : Blocks) (hfit : bs / 4 * (bs / 4) < 2 ^ 64)
    (h13 : 13 < bs / 4) (hj : j < bs / 4) (hD : t.ptrs 13 = D) (hD0 : D ≠ 0)
    (hS : t.disk D 13 = S) (hS0 : S ≠ 0) :
    getBlock bs (12 + bs / 4 + (bs / 4 * 13 + j)) t =
      some (if t.disk S j = 0 then none else some (t.disk S j)) := by
  simp [getBlock, getOffsets_double hfit h13 hj, getBlockAt, walk, hD, hD0, hS, hS0]

/-- A failed allocation under an existing double-indirect block, at a nonzero offset `a` of it:
`set_block` returns `None`, and its `revert` clears entry `13` of the double-indirect block, a
pointer this call never wrote, so block `12 + E + 13 E + j` of the file, there before the call,
is lost. The span `E * E` of the double-indirect range fits in a `usize` (blocks below
`2 ^ 34` bytes); past it `get_offsets` does not find these blocks there. -/
theorem revert_clears_unrelated_pointer {bs a b j val D S x : ℕ} (t : Blocks)
    (hfit : bs / 4 * (bs / 4) < 2 ^ 64) (h13 : 13 < bs / 4) (ha : a < bs / 4) (ha0 : a ≠ 0) (hb : b < bs / 4) (hj : j < bs / 4)
    (hD : t.ptrs 13 = D) (hD0 : D ≠ 0) (hDa : t.disk D a = 0) (hS : t.disk D 13 = S)
    (hS0 : S ≠ 0) (hx : t.disk S j = x) (hx0 : x ≠ 0) (hfull : pick t.used = none) :
    ∃ t', setBlock pick bs (12 + bs / 4 + (bs / 4 * a + b)) val t = some (none, t') ∧
      getBlock bs (12 + bs / 4 + (bs / 4 * 13 + j)) t = some (some x) ∧
      getBlock bs (12 + bs / 4 + (bs / 4 * 13 + j)) t' = some none := by
  subst hD
  refine ⟨_, setBlock_double_fail pick t hfit ha hb hD0 hDa hfull, ?_, ?_⟩
  · rw [getBlock_double t hfit h13 hj rfl hD0 hS hS0, hx, if_neg hx0]
  · -- after `revert` entry `13` of the double-indirect block is zero
    rw [revert_of_ne_zero ha0]
    simp [getBlock, getOffsets_double hfit h13 hj, getBlockAt, walk, hD0]

/-- An inode with 1 KiB blocks whose double-indirect block `100` holds at entry `13` the block
`200`, which holds block `300` of the file at entry `0`. -/
def lostTree : Blocks where
  ptrs i := if i = 13 then 100 else 0
  disk blk e := if blk = 100 ∧ e = 13 then 200 else if blk = 200 ∧ e = 0 then 300 else 0
  used := {100, 200, 300}

/-- On a full disk, putting in block `12 + 256 + 256` (entry `1` of the double-indirect block)
loses block `12 + 256 + 13 · 256` of the file. -/
theorem revert_clears_unrelated_pointer_full :
    ∃ t', setBlock (fun _ => none) 1024 (12 + 1024 / 4 + (1024 / 4 * 1 + 0)) 500 lostTree =
        some (none, t') ∧
      getBlock 1024 (12 + 1024 / 4 + (1024 / 4 * 13 + 0)) lostTree = some (some 300) ∧
      getBlock 1024 (12 + 1024 / 4 + (1024 / 4 * 13 + 0)) t' = some none :=
  revert_clears_unrelated_pointer (fun _ => none) lostTree (by decide) (by decide) (by decide)
    (by decide) (by decide) (by decide) rfl (by decide) rfl rfl (by decide) rfl (by decide) rfl

end Revert

end Cykusz.Fs.Ext2
