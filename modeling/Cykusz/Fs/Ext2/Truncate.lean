import Mathlib
import Cykusz.Fs.Ext2.DirEnt
import Cykusz.Fs.Ext2.BlockTree

/-!
# Truncating an ext2 inode

`Ext2INode::free_blocks_from` (`kernel/fs/ext2/inode.rs`) frees the blocks of a file from byte
`from_size` on. It runs over the inode's fifteen pointers with `current_offset`, the offset in the
file of the pointer at hand: a direct pointer at or past `from_size` is freed, and an indirect one
goes to `free_s_ptr`, `free_d_ptr` or `free_t_ptr`, which run in the same way over the entries of
its block, clear the entries whose blocks they freed, write the block back, and free it too when
nothing is left in it. A zero pointer moves `current_offset` over the bytes it stands for.

The three functions differ only in the height of the tree below their block, and so do the loop
bodies: `freePtr` is all of them, and `freeEntries` is their loop and that of `free_blocks_from`.

On a well-formed tree, one where no block is found twice, truncation does what it is meant to:
the blocks before `from_size` stay, those from it on are gone, the bitmaps get back exactly the
data blocks cut off and the pointer blocks left empty, `sector_count` goes down by their number
of blocks, and `size_lower` is set (`free_blocks_from_spec`). It does nothing to an inode of
another type, nor to a symbolic link of at most 60 bytes, whose target is held in its block
pointers (`fast_symlink_not_truncated`).

Conventions of the model: `sector_count` and `size_lower` are `u32`, and `current_offset` and
the spans it moves by are `usize`; all of them wrap as in a build without overflow checks. The
whole range of a file, `(12 + E + E ^ 2 + E ^ 3) * block_size`, fits in a `usize` up to blocks
of `2 ^ 17` bytes, where `current_offset` never wraps; from `2 ^ 18` bytes on it does, and the
truncation spec is stated up to `2 ^ 17`.
-/

namespace Cykusz.Fs.Ext2

/-- What the truncation functions change as they go: the pointer blocks, the used blocks, the
inode's `sector_count`, and `current_offset`. -/
structure Freeing where
  disk : Disk
  used : Finset ℕ
  sectorCount : BitVec 32
  cur : ℕ

section Free

variable (blockSize sectorsPerBlock fromSize : ℕ)

/-- `free_block_ptr` of a block and `dec_sector_count` of its sectors. -/
def Freeing.release (s : Freeing) (b : ℕ) : Freeing :=
  { s with
    used := s.used.erase b
    sectorCount := s.sectorCount - BitVec.ofNat 32 sectorsPerBlock }

/-- The loop over the entries `j, …, j + k - 1` of a level, `block` its pointers and `res`
whether every pointer so far was freed: a nonzero pointer goes to `child` and is cleared when
`child` frees it, and a zero one moves `current_offset` over the `span` bytes it stands for (a
`usize` addition). -/
def freeEntries (child : ℕ → ℕ → Freeing → Bool × Freeing) (span : ℕ → ℕ) :
    ℕ → ℕ → (ℕ → ℕ) × Bool × Freeing → (ℕ → ℕ) × Bool × Freeing
  | _, 0, acc => acc
  | j, k + 1, (block, res, s) =>
    let acc : (ℕ → ℕ) × Bool × Freeing :=
      if block j ≠ 0 then
        let (r, s) := child j (block j) s
        (if r then Function.update block j 0 else block, res && r, s)
      else (block, res, { s with cur := (s.cur + span j) % 2 ^ 64 })
    freeEntries child span (j + 1) k acc

/-- The pointer `ptr` with the tree of height `h` below it, and whether it was freed. At height
`0` it is a data block, freed when it lies at or past `fromSize` (the loop bodies of `free_s_ptr`
and `free_blocks_from`); at height `h + 1` a pointer block, whose entries are freed at height `h`
and which is written back, and freed when none of its entries is left. The span of a zero entry
is a product of `usize`s, `ptrs_per_block * … * block_size`. -/
def freePtr : ℕ → ℕ → Freeing → Bool × Freeing
  | 0, ptr, s =>
    let r := decide (fromSize ≤ s.cur)
    (r, { (if r then s.release sectorsPerBlock ptr else s) with
      cur := (s.cur + blockSize) % 2 ^ 64 })
  | h + 1, ptr, s =>
    let (block, res, s) :=
      freeEntries (fun _ => freePtr h) (fun _ => (blockSize / 4) ^ h * blockSize % 2 ^ 64) 0
        (blockSize / 4) (s.disk ptr, true, s)
    let s := { s with disk := Function.update s.disk ptr block }
    (res, if res then s.release sectorsPerBlock ptr else s)

/-- `Ext2INode::free_s_ptr`. -/
def freeSPtr : ℕ → Freeing → Bool × Freeing := freePtr blockSize sectorsPerBlock fromSize 1

/-- `Ext2INode::free_d_ptr`. -/
def freeDPtr : ℕ → Freeing → Bool × Freeing := freePtr blockSize sectorsPerBlock fromSize 2

/-- `Ext2INode::free_t_ptr`. -/
def freeTPtr : ℕ → Freeing → Bool × Freeing := freePtr blockSize sectorsPerBlock fromSize 3

/-- `Ext2INode::free_blocks_from`: the inode's block pointers and `size_lower` afterwards. -/
def freeBlocksFrom (ftype : FileType) (sizeLower : BitVec 32) (ptrs : ℕ → ℕ) (s : Freeing) :
    (ℕ → ℕ) × BitVec 32 × Freeing :=
  if ftype = .symlink ∧ sizeLower.toNat ≤ 60 then (ptrs, sizeLower, s)
  else if ftype ∉ [FileType.file, .symlink, .dir] then (ptrs, sizeLower, s)
  else
    let out :=
      freeEntries (fun i => freePtr blockSize sectorsPerBlock fromSize (height i))
        (fun i => (blockSize / 4) ^ height i * blockSize % 2 ^ 64) 0 15
        (ptrs, true, { s with cur := 0 })
    (out.1, BitVec.ofNat 32 fromSize, out.2.2)

end Free

/-! ## What freeing a tree does -/

section Spec

variable (bs spb fromSize : ℕ)

/-- The blocks of the trees below the entries `j, …, j + k - 1` of `B`, entry `i` with a tree of
height `hgt i`. -/
def forestBlocks (E : ℕ) (d : Disk) (hgt B : ℕ → ℕ) (j k : ℕ) : List ℕ :=
  (List.range' j k).flatMap fun i => blocksOf E d (hgt i) (B i)

/-- The pointer blocks of the trees below the entries `j, …, j + k - 1` of `B`. -/
def forestInner (E : ℕ) (d : Disk) (hgt B : ℕ → ℕ) (j k : ℕ) : List ℕ :=
  (List.range' j k).flatMap fun i => innerOf E d (hgt i) (B i)

/-- What freeing the tree of height `h` below the pointer `q` from `s` is meant to do, `res`
whether `q` was freed and `s'` the state after it: move `current_offset` over the tree, only
clear entries and only in the tree's pointer blocks, keep the blocks before `fromSize` and cut off
those from it on, and release exactly the data blocks cut off and the pointer blocks left
empty. -/
structure FreesTree (h q : ℕ) (s : Freeing) (res : Bool) (s' : Freeing) : Prop where
  cur : s'.cur = s.cur + (bs / 4) ^ h * bs
  clears : Clears s.disk s'.disk
  frame : ∀ b ∉ innerOf (bs / 4) s.disk h q, s'.disk b = s.disk b
  views : ∀ r < (bs / 4) ^ h, view (bs / 4) s'.disk h (if res then 0 else q) r =
    if fromSize ≤ s.cur + r * bs then none else view (bs / 4) s.disk h q r
  released : ∃ F : Finset ℕ, (∀ b ∈ F, b ∈ blocksOf (bs / 4) s.disk h q) ∧
    s'.used = s.used \ F ∧
    s'.sectorCount = s.sectorCount - BitVec.ofNat 32 (spb * F.card) ∧
    ∀ b, b ∈ F ↔ (∃ r < (bs / 4) ^ h, fromSize ≤ s.cur + r * bs ∧
        view (bs / 4) s.disk h q r = some b) ∨
      (b ∈ innerOf (bs / 4) s.disk h q ∧ ∀ e < bs / 4, s'.disk b e = 0)

/-- What the loop over the entries `j, …, j + k - 1` of `B` is meant to do, from `s` with the
entry `i` at file offset `off i`: the same as `FreesTree` for each entry, and `res'` says whether
every entry is clear afterwards. -/
structure FreesEntries (hgt off : ℕ → ℕ) (j k : ℕ) (B : ℕ → ℕ) (res : Bool) (s : Freeing)
    (B' : ℕ → ℕ) (res' : Bool) (s' : Freeing) : Prop where
  cur : s'.cur = off (j + k)
  clears : Clears s.disk s'.disk
  frame : ∀ b ∉ forestInner (bs / 4) s.disk hgt B j k, s'.disk b = s.disk b
  outside : ∀ i, i < j ∨ j + k ≤ i → B' i = B i
  inside : ∀ i, B' i = 0 ∨ B' i = B i
  views : ∀ i, j ≤ i → i < j + k → ∀ r < (bs / 4) ^ hgt i,
    view (bs / 4) s'.disk (hgt i) (B' i) r =
      if fromSize ≤ off i + r * bs then none else view (bs / 4) s.disk (hgt i) (B i) r
  res_iff : res' = true ↔ res = true ∧ ∀ i, j ≤ i → i < j + k → B' i = 0
  released : ∃ F : Finset ℕ, (∀ b ∈ F, b ∈ forestBlocks (bs / 4) s.disk hgt B j k) ∧
    s'.used = s.used \ F ∧
    s'.sectorCount = s.sectorCount - BitVec.ofNat 32 (spb * F.card) ∧
    ∀ b, b ∈ F ↔ (∃ i, j ≤ i ∧ i < j + k ∧ ∃ r < (bs / 4) ^ hgt i,
        fromSize ≤ off i + r * bs ∧ view (bs / 4) s.disk (hgt i) (B i) r = some b) ∨
      (b ∈ forestInner (bs / 4) s.disk hgt B j k ∧ ∀ e < bs / 4, s'.disk b e = 0)

theorem forestBlocks_one (E : ℕ) (d : Disk) (hgt B : ℕ → ℕ) (j : ℕ) :
    forestBlocks E d hgt B j 1 = blocksOf E d (hgt j) (B j) := by
  simp [forestBlocks]

theorem forestInner_one (E : ℕ) (d : Disk) (hgt B : ℕ → ℕ) (j : ℕ) :
    forestInner E d hgt B j 1 = innerOf E d (hgt j) (B j) := by
  simp [forestInner]

theorem forestBlocks_append (E : ℕ) (d : Disk) (hgt B : ℕ → ℕ) (j a b : ℕ) :
    forestBlocks E d hgt B j (a + b) =
      forestBlocks E d hgt B j a ++ forestBlocks E d hgt B (j + a) b := by
  have hsplit : List.range' j (a + b) = List.range' j a ++ List.range' (j + a) b := by
    simp
  simp only [forestBlocks, hsplit, List.flatMap_append]

theorem forestInner_append (E : ℕ) (d : Disk) (hgt B : ℕ → ℕ) (j a b : ℕ) :
    forestInner E d hgt B j (a + b) =
      forestInner E d hgt B j a ++ forestInner E d hgt B (j + a) b := by
  have hsplit : List.range' j (a + b) = List.range' j a ++ List.range' (j + a) b := by
    simp
  simp only [forestInner, hsplit, List.flatMap_append]

theorem mem_forestBlocks {E : ℕ} {d : Disk} {hgt B : ℕ → ℕ} {j k b : ℕ} :
    b ∈ forestBlocks E d hgt B j k ↔ ∃ i, j ≤ i ∧ i < j + k ∧ b ∈ blocksOf E d (hgt i) (B i) := by
  simp [forestBlocks, List.mem_range'_1, and_assoc]

theorem mem_forestInner {E : ℕ} {d : Disk} {hgt B : ℕ → ℕ} {j k b : ℕ} :
    b ∈ forestInner E d hgt B j k ↔ ∃ i, j ≤ i ∧ i < j + k ∧ b ∈ innerOf E d (hgt i) (B i) := by
  simp [forestInner, List.mem_range'_1, and_assoc]

theorem forestInner_subset {E : ℕ} {d : Disk} {hgt B : ℕ → ℕ} {j k b : ℕ}
    (hb : b ∈ forestInner E d hgt B j k) : b ∈ forestBlocks E d hgt B j k := by
  obtain ⟨i, hi, hik, hb⟩ := mem_forestInner.1 hb
  exact mem_forestBlocks.2 ⟨i, hi, hik, innerOf_subset_blocksOf d _ _ hb⟩

theorem blocksOf_succ {E : ℕ} {d : Disk} {h q : ℕ} (hq : q ≠ 0) :
    blocksOf E d (h + 1) q = q :: forestBlocks E d (fun _ => h) (d q) 0 E := by
  simp [blocksOf, forestBlocks, hq, List.range_eq_range']

theorem innerOf_succ {E : ℕ} {d : Disk} {h q : ℕ} (hq : q ≠ 0) :
    innerOf E d (h + 1) q = q :: forestInner E d (fun _ => h) (d q) 0 E := by
  simp [innerOf, forestInner, hq, List.range_eq_range']

/-- Block `r` of a tree of height `h + 1` is block `r'` below entry `i`, with `r = i E ^ h + r'`. -/
theorem exists_lt_pow_succ_iff {E h : ℕ} {P : ℕ → Prop} :
    (∃ r < E ^ (h + 1), P r) ↔ ∃ i < E, ∃ r' < E ^ h, P (i * E ^ h + r') := by
  constructor
  · rintro ⟨r, hr, hP⟩
    refine ⟨r / E ^ h, div_lt_of_lt_pow hr, r % E ^ h,
      Nat.mod_lt _ (pow_pos (pos_of_lt_pow hr) h), ?_⟩
    rwa [Nat.mul_comm, Nat.div_add_mod]
  · rintro ⟨i, hi, r', hr', hP⟩
    refine ⟨_, ?_, hP⟩
    calc i * E ^ h + r' < i * E ^ h + E ^ h := by omega
      _ = (i + 1) * E ^ h := by ring
      _ ≤ E * E ^ h := Nat.mul_le_mul_right _ hi
      _ = E ^ (h + 1) := by ring

theorem digit_split {E h i r' : ℕ} (hr' : r' < E ^ h) :
    (i * E ^ h + r') / E ^ h = i ∧ (i * E ^ h + r') % E ^ h = r' := by
  have hpos : 0 < E ^ h := Nat.lt_of_le_of_lt (Nat.zero_le _) hr'
  constructor
  · rw [Nat.add_comm, Nat.add_mul_div_right _ _ hpos, Nat.div_eq_of_lt hr', Nat.zero_add]
  · rw [Nat.add_comm, Nat.add_mul_mod_self_right, Nat.mod_eq_of_lt hr']

/-- Block `i E ^ h + r'` of the tree of height `h + 1` below `q` is block `r'` below entry `i`. -/
theorem view_digit {E : ℕ} (d : Disk) {h q i r' : ℕ} (hq : q ≠ 0) (hr' : r' < E ^ h) :
    view E d (h + 1) q (i * E ^ h + r') = view E d h (d q i) r' := by
  rw [view_succ d h hq, (digit_split hr').1, (digit_split hr').2]

/-- The blocks of the tree of height `h + 1` below `q` at the numbers with a property are those of
the trees below its entries at the matching numbers. -/
theorem exists_view_succ_iff {E : ℕ} {d : Disk} {h q b : ℕ} (hq : q ≠ 0) {P : ℕ → Prop} :
    (∃ r < E ^ (h + 1), P r ∧ view E d (h + 1) q r = some b) ↔
      ∃ i < E, ∃ r' < E ^ h, P (i * E ^ h + r') ∧ view E d h (d q i) r' = some b := by
  rw [exists_lt_pow_succ_iff]
  refine exists_congr fun i => and_congr_right fun _ => exists_congr fun r' => ?_
  exact and_congr_right fun hr' => by rw [view_digit d hq hr']

section Loop

variable {bs spb fromSize : ℕ} {hgt off : ℕ → ℕ}

/-- No entry: nothing changes. -/
theorem FreesEntries.nil {j : ℕ} {B : ℕ → ℕ} {res : Bool} {s : Freeing} (hcur : s.cur = off j) :
    FreesEntries bs spb fromSize hgt off j 0 B res s B res s where
  cur := hcur
  clears := Clears.refl _
  frame _ _ := rfl
  outside _ _ := rfl
  inside _ := Or.inr rfl
  views i hi hik := by omega
  res_iff := by
    constructor
    · intro h
      exact ⟨h, fun i hi hik => by omega⟩
    · exact fun h => h.1
  released := ⟨∅, by simp, by simp, by simp, fun b => by simp [forestInner]; omega⟩

/-- A zero entry moves `current_offset` over the bytes it stands for, without wrapping, and
changes nothing else. -/
theorem FreesEntries.zero_entry {j : ℕ} {B : ℕ → ℕ} {res : Bool} {s : Freeing} (hB : B j = 0)
    (hcur : s.cur = off j) (hoff : off (j + 1) = off j + (bs / 4) ^ hgt j * bs)
    (hfit : off (j + 1) < 2 ^ 64) :
    FreesEntries bs spb fromSize hgt off j 1 B res s B res
      { s with cur := (s.cur + (bs / 4) ^ hgt j * bs % 2 ^ 64) % 2 ^ 64 } where
  cur := by rw [Nat.add_mod_mod, hcur, ← hoff, Nat.mod_eq_of_lt hfit]
  clears := Clears.refl _
  frame _ _ := rfl
  outside _ _ := rfl
  inside _ := Or.inr rfl
  views i hi hik r hr := by
    obtain rfl : i = j := by omega
    simp [hB]
  res_iff := by
    constructor
    · intro h
      refine ⟨h, fun i hi hik => ?_⟩
      obtain rfl : i = j := by omega
      exact hB
    · exact fun h => h.1
  released := by
    refine ⟨∅, by simp, by simp, by simp, fun b => ?_⟩
    simp only [Finset.notMem_empty, false_iff, forestInner_one, hB, innerOf_of_eq_zero,
      List.not_mem_nil, false_and, or_false, not_exists, not_and]
    intro i hi hik r _ _
    obtain rfl : i = j := by omega
    simp [hB]

/-- A nonzero entry: what freeing the tree below it does, and the entry is cleared when its
pointer was freed. -/
theorem FreesEntries.of_tree {j : ℕ} {B : ℕ → ℕ} {res r : Bool} {s s1 : Freeing} (hB : B j ≠ 0)
    (hcur : s.cur = off j) (hoff : off (j + 1) = off j + (bs / 4) ^ hgt j * bs)
    (ht : FreesTree bs spb fromSize (hgt j) (B j) s r s1) :
    FreesEntries bs spb fromSize hgt off j 1 B res s
      (if r then Function.update B j 0 else B) (res && r) s1 where
  cur := by rw [ht.cur, hcur, hoff]
  clears := ht.clears
  frame b hb := ht.frame b (by rwa [forestInner_one] at hb)
  outside i hi := by
    have hij : i ≠ j := by omega
    split_ifs <;> simp [Function.update_of_ne hij]
  inside i := by
    by_cases hij : i = j
    · subst hij
      split_ifs <;> simp
    · split_ifs <;> simp [Function.update_of_ne hij]
  views i hi hik r' hr' := by
    obtain rfl : i = j := by omega
    rw [← hcur, ← ht.views r' hr']
    split_ifs <;> simp
  res_iff := by
    have hcleared : (if r then Function.update B j 0 else B) j = 0 ↔ r = true := by
      cases r <;> simp [hB]
    constructor
    · intro h
      simp only [Bool.and_eq_true] at h
      refine ⟨h.1, fun i hi hik => ?_⟩
      obtain rfl : i = j := by omega
      exact hcleared.2 h.2
    · rintro ⟨h, hall⟩
      simp only [Bool.and_eq_true]
      exact ⟨h, hcleared.1 (hall j le_rfl (by omega))⟩
  released := by
    obtain ⟨F, hsub, hused, hsc, hF⟩ := ht.released
    refine ⟨F, fun b hb => by rw [forestBlocks_one]; exact hsub b hb, hused, hsc, fun b => ?_⟩
    rw [hF b, forestInner_one, hcur]
    constructor
    · rintro (⟨r', hr', hfrom, hv⟩ | hin)
      · exact Or.inl ⟨j, le_rfl, by omega, r', hr', hfrom, hv⟩
      · exact Or.inr hin
    · rintro (⟨i, hi, hik, r', hr', hfrom, hv⟩ | hin)
      · obtain rfl : i = j := by omega
        exact Or.inl ⟨r', hr', hfrom, hv⟩
      · exact Or.inr hin

/-- In a forest where no block is found twice, the trees of two runs of entries share no
block. -/
theorem not_mem_forestBlocks_of_nodup {E : ℕ} {d : Disk} {B : ℕ → ℕ} {j a b x : ℕ}
    (hnd : (forestBlocks E d hgt B j (a + b)).Nodup) (hx : x ∈ forestBlocks E d hgt B j a) :
    x ∉ forestBlocks E d hgt B (j + a) b := by
  rw [forestBlocks_append, List.nodup_append] at hnd
  exact fun hx' => hnd.2.2 x hx x hx' rfl

/-- The first run of entries leaves the trees of the entries after it as they were. -/
theorem FreesEntries.later_trees {j a b : ℕ} {B B1 : ℕ → ℕ} {res res1 : Bool} {s s1 : Freeing}
    (h1 : FreesEntries bs spb fromSize hgt off j a B res s B1 res1 s1)
    (hnd : (forestBlocks (bs / 4) s.disk hgt B j (a + b)).Nodup) {i : ℕ} (hi : j + a ≤ i)
    (hib : i < j + a + b) :
    B1 i = B i ∧ blocksOf (bs / 4) s1.disk (hgt i) (B1 i) = blocksOf (bs / 4) s.disk (hgt i) (B i) ∧
      innerOf (bs / 4) s1.disk (hgt i) (B1 i) = innerOf (bs / 4) s.disk (hgt i) (B i) ∧
      ∀ r < (bs / 4) ^ hgt i,
        view (bs / 4) s1.disk (hgt i) (B1 i) r = view (bs / 4) s.disk (hgt i) (B i) r := by
  have hB : B1 i = B i := h1.outside i (Or.inr hi)
  rw [hB]
  refine ⟨rfl, tree_congr fun x hx => h1.frame x fun hx1 => ?_⟩
  have hsecond : x ∈ forestBlocks (bs / 4) s.disk hgt B (j + a) b :=
    mem_forestBlocks.2 ⟨i, hi, hib, innerOf_subset_blocksOf _ _ _ hx⟩
  exact not_mem_forestBlocks_of_nodup hnd (forestInner_subset hx1) hsecond

theorem FreesEntries.later_forest {j a b : ℕ} {B B1 : ℕ → ℕ} {res res1 : Bool} {s s1 : Freeing}
    (h1 : FreesEntries bs spb fromSize hgt off j a B res s B1 res1 s1)
    (hnd : (forestBlocks (bs / 4) s.disk hgt B j (a + b)).Nodup) :
    forestBlocks (bs / 4) s1.disk hgt B1 (j + a) b = forestBlocks (bs / 4) s.disk hgt B (j + a) b ∧
      forestInner (bs / 4) s1.disk hgt B1 (j + a) b =
        forestInner (bs / 4) s.disk hgt B (j + a) b := by
  constructor
  · refine List.flatMap_congr fun i hi => ?_
    have hi' := List.mem_range'_1.1 hi
    exact (h1.later_trees hnd hi'.1 hi'.2).2.1
  · refine List.flatMap_congr fun i hi => ?_
    have hi' := List.mem_range'_1.1 hi
    exact (h1.later_trees hnd hi'.1 hi'.2).2.2.1

/-- The pointer blocks left below an entry of the run are pointer blocks it had. -/
theorem FreesEntries.inner_subset {j a : ℕ} {B B1 : ℕ → ℕ} {res res1 : Bool} {s s1 : Freeing}
    (h1 : FreesEntries bs spb fromSize hgt off j a B res s B1 res1 s1) (i : ℕ) :
    innerOf (bs / 4) s1.disk (hgt i) (B1 i) ⊆ innerOf (bs / 4) s.disk (hgt i) (B i) := by
  rcases h1.inside i with h0 | h1'
  · simp [h0]
  · rw [h1']
    exact (h1.clears.subset _ _).2

section Append

variable {j a b : ℕ} {B B1 B2 : ℕ → ℕ} {res res1 res2 : Bool} {s s1 s2 : Freeing}
  (h1 : FreesEntries bs spb fromSize hgt off j a B res s B1 res1 s1)
  (h2 : FreesEntries bs spb fromSize hgt off (j + a) b B1 res1 s1 B2 res2 s2)
  (hnd : (forestBlocks (bs / 4) s.disk hgt B j (a + b)).Nodup)
include h1 h2 hnd

/-- The second of two runs of entries leaves the pointer blocks of the first alone. -/
theorem FreesEntries.keeps_first :
    ∀ x ∈ forestInner (bs / 4) s.disk hgt B j a, s2.disk x = s1.disk x := by
  intro x hx
  apply h2.frame x
  rw [(h1.later_forest hnd).2]
  exact fun hx2 => not_mem_forestBlocks_of_nodup hnd (forestInner_subset hx)
    (forestInner_subset hx2)

/-- Two runs of entries, one after the other, release what each of them releases. -/
theorem FreesEntries.released_append :
    ∃ F : Finset ℕ, (∀ x ∈ F, x ∈ forestBlocks (bs / 4) s.disk hgt B j (a + b)) ∧
      s2.used = s.used \ F ∧
      s2.sectorCount = s.sectorCount - BitVec.ofNat 32 (spb * F.card) ∧
      ∀ x, x ∈ F ↔ (∃ i, j ≤ i ∧ i < j + (a + b) ∧ ∃ r < (bs / 4) ^ hgt i,
          fromSize ≤ off i + r * bs ∧ view (bs / 4) s.disk (hgt i) (B i) r = some x) ∨
        (x ∈ forestInner (bs / 4) s.disk hgt B j (a + b) ∧ ∀ e < bs / 4, s2.disk x e = 0) := by
  obtain ⟨hfb, hfi⟩ := h1.later_forest hnd
  have hkeep := h1.keeps_first h2 hnd
  obtain ⟨F1, hsub1, hused1, hsc1, hF1⟩ := h1.released
  obtain ⟨F2, hsub2, hused2, hsc2, hF2⟩ := h2.released
  have hdisj : Disjoint F1 F2 := Finset.disjoint_left.2 fun x hx1 hx2 =>
    not_mem_forestBlocks_of_nodup hnd (hsub1 x hx1) (hfb ▸ hsub2 x hx2)
  refine ⟨F1 ∪ F2, fun x hx => ?_, ?_, ?_, fun x => ?_⟩
  · rw [forestBlocks_append, List.mem_append]
    rcases Finset.mem_union.1 hx with hx | hx
    · exact Or.inl (hsub1 x hx)
    · exact Or.inr (hfb ▸ hsub2 x hx)
  · rw [hused2, hused1, sdiff_sdiff_left, Finset.sup_eq_union]
  · rw [hsc2, hsc1, Finset.card_union_of_disjoint hdisj, Nat.mul_add, BitVec.ofNat_add, sub_sub]
  · -- a block the second run finds below an entry is the block the tree there had at the start
    rw [Finset.mem_union, hF1, hF2, hfi, forestInner_append, List.mem_append]
    constructor
    · rintro ((⟨i, hi, hia, r, hr, hfrom, hv⟩ | ⟨hin, hz⟩) |
        (⟨i, hi, hib, r, hr, hfrom, hv⟩ | ⟨hin, hz⟩))
      · exact Or.inl ⟨i, hi, by omega, r, hr, hfrom, hv⟩
      · exact Or.inr ⟨Or.inl hin, fun e he => by rw [hkeep x hin]; exact hz e he⟩
      · rw [(h1.later_trees hnd hi hib).2.2.2 r hr] at hv
        exact Or.inl ⟨i, by omega, by omega, r, hr, hfrom, hv⟩
      · exact Or.inr ⟨Or.inr hin, hz⟩
    · rintro (⟨i, hi, hib, r, hr, hfrom, hv⟩ | ⟨hin | hin, hz⟩)
      · by_cases hia : i < j + a
        · exact Or.inl (Or.inl ⟨i, hi, hia, r, hr, hfrom, hv⟩)
        · rw [← (h1.later_trees hnd (by omega) (by omega)).2.2.2 r hr] at hv
          exact Or.inr (Or.inl ⟨i, by omega, by omega, r, hr, hfrom, hv⟩)
      · exact Or.inl (Or.inr ⟨hin, fun e he => by rw [← hkeep x hin]; exact hz e he⟩)
      · exact Or.inr (Or.inr ⟨hin, hz⟩)

/-- Two runs of entries, one after the other, make one run. -/
theorem FreesEntries.append :
    FreesEntries bs spb fromSize hgt off j (a + b) B res s B2 res2 s2 := by
  have hfi := (h1.later_forest hnd).2
  have hview1 : ∀ i, j ≤ i → i < j + a → ∀ r < (bs / 4) ^ hgt i,
      view (bs / 4) s2.disk (hgt i) (B1 i) r = view (bs / 4) s1.disk (hgt i) (B1 i) r :=
    fun i hi hia => (tree_congr fun x hx => h1.keeps_first h2 hnd x
      (mem_forestInner.2 ⟨i, hi, hia, h1.inner_subset i hx⟩)).2.2
  refine ⟨?_, h1.clears.trans h2.clears, ?_, ?_, ?_, ?_, ?_, h1.released_append h2 hnd⟩
  · rw [h2.cur, Nat.add_assoc]
  · intro x hx
    rw [forestInner_append, List.mem_append, not_or] at hx
    rw [h2.frame x (by rw [hfi]; exact hx.2), h1.frame x hx.1]
  · intro i hi
    rw [h2.outside i (by omega), h1.outside i (by omega)]
  · intro i
    rcases h2.inside i with h0 | h12
    · exact Or.inl h0
    · rw [h12]
      exact h1.inside i
  · intro i hi hib r hr
    by_cases hia : i < j + a
    · rw [h2.outside i (Or.inl hia), hview1 i hi hia r hr]
      exact h1.views i hi hia r hr
    · rw [h2.views i (by omega) (by omega) r hr,
        (h1.later_trees hnd (by omega) (by omega)).2.2.2 r hr]
  · rw [h2.res_iff, h1.res_iff]
    constructor
    · rintro ⟨⟨hres, hall1⟩, hall2⟩
      refine ⟨hres, fun i hi hib => ?_⟩
      by_cases hia : i < j + a
      · rw [h2.outside i (Or.inl hia)]
        exact hall1 i hi hia
      · exact hall2 i (by omega) (by omega)
    · rintro ⟨hres, hall⟩
      refine ⟨⟨hres, fun i hi hia => ?_⟩, fun i hi hib => hall i (by omega) (by omega)⟩
      rw [← h2.outside i (Or.inl hia)]
      exact hall i hi (by omega)

end Append

/-- The loop over the entries `j, …, j + k - 1` does what `FreesEntries` says, when each call of
`child` does what `FreesTree` says, the entries are at the offsets `off`, and the offset past the
last of them fits in a `usize`. -/
theorem freeEntries_spec {child : ℕ → ℕ → Freeing → Bool × Freeing}
    (hchild : ∀ i q s, q ≠ 0 → (blocksOf (bs / 4) s.disk (hgt i) q).Nodup →
      s.cur + (bs / 4) ^ hgt i * bs < 2 ^ 64 →
      FreesTree bs spb fromSize (hgt i) q s (child i q s).1 (child i q s).2)
    (hoff : ∀ i, off (i + 1) = off i + (bs / 4) ^ hgt i * bs) (k : ℕ) :
    ∀ (j : ℕ) (B : ℕ → ℕ) (res : Bool) (s : Freeing), s.cur = off j → off (j + k) < 2 ^ 64 →
      (forestBlocks (bs / 4) s.disk hgt B j k).Nodup →
      FreesEntries bs spb fromSize hgt off j k B res s
        (freeEntries child (fun i => (bs / 4) ^ hgt i * bs % 2 ^ 64) j k (B, res, s)).1
        (freeEntries child (fun i => (bs / 4) ^ hgt i * bs % 2 ^ 64) j k (B, res, s)).2.1
        (freeEntries child (fun i => (bs / 4) ^ hgt i * bs % 2 ^ 64) j k (B, res, s)).2.2 := by
  have hmono : Monotone off := monotone_nat_of_le_succ fun i => by rw [hoff i]; omega
  induction k with
  | zero => exact fun j B res s hcur _ _ => FreesEntries.nil hcur
  | succ k ih =>
    intro j B res s hcur hfit hnd
    have hnd' : (forestBlocks (bs / 4) s.disk hgt B j (1 + k)).Nodup := by
      rwa [Nat.add_comm]
    -- the offset past the first entry is below the last one, so it does not wrap either
    have hfit1 : off (j + 1) < 2 ^ 64 := lt_of_le_of_lt (hmono (by omega)) hfit
    -- the rest of the loop runs from what the first entry leaves
    have hrest : ∀ {B1 : ℕ → ℕ} {res1 : Bool} {s1 : Freeing},
        FreesEntries bs spb fromSize hgt off j 1 B res s B1 res1 s1 →
        FreesEntries bs spb fromSize hgt off j (k + 1) B res s
          (freeEntries child (fun i => (bs / 4) ^ hgt i * bs % 2 ^ 64) (j + 1) k
            (B1, res1, s1)).1
          (freeEntries child (fun i => (bs / 4) ^ hgt i * bs % 2 ^ 64) (j + 1) k
            (B1, res1, s1)).2.1
          (freeEntries child (fun i => (bs / 4) ^ hgt i * bs % 2 ^ 64) (j + 1) k
            (B1, res1, s1)).2.2 := by
      intro B1 res1 s1 h1
      have hnd1 : (forestBlocks (bs / 4) s1.disk hgt B1 (j + 1) k).Nodup := by
        rw [(h1.later_forest hnd').1]
        rw [forestBlocks_append, List.nodup_append] at hnd'
        exact hnd'.2.1
      rw [Nat.add_comm k 1]
      exact h1.append (ih (j + 1) B1 res1 s1 h1.cur (by rwa [Nat.add_right_comm]) hnd1) hnd'
    rw [freeEntries]
    by_cases hB : B j = 0
    · simp only [hB, ne_eq, not_true_eq_false, if_false]
      exact hrest (FreesEntries.zero_entry hB hcur (hoff j) hfit1)
    · obtain ⟨r, s1, hc⟩ : ∃ r s1, child j (B j) s = (r, s1) := ⟨_, _, rfl⟩
      have hnd0 : (blocksOf (bs / 4) s.disk (hgt j) (B j)).Nodup := by
        rw [forestBlocks_append, List.nodup_append, forestBlocks_one] at hnd'
        exact hnd'.1
      have ht := hchild j (B j) s hB hnd0 (by rw [hcur, ← hoff]; exact hfit1)
      rw [hc] at ht
      simp only [ne_eq, hB, not_false_eq_true, if_true, hc]
      exact hrest (FreesEntries.of_tree hB hcur (hoff j) ht)

/-- A data block is released exactly when it lies at or past `fromSize`. -/
theorem freePtr_zero_spec {q : ℕ} (s : Freeing) (hq : q ≠ 0) (hfit : s.cur + bs < 2 ^ 64) :
    FreesTree bs spb fromSize 0 q s (freePtr bs spb fromSize 0 q s).1
      (freePtr bs spb fromSize 0 q s).2 := by
  have hr0 : ∀ {r : ℕ}, r < (bs / 4) ^ 0 → r = 0 := fun hr => by simpa using hr
  by_cases hfrom : fromSize ≤ s.cur
  · have hfp : freePtr bs spb fromSize 0 q s =
        (true, { s.release spb q with cur := s.cur + bs }) := by
      simp [freePtr, hfrom]
      omega
    rw [hfp]
    refine ⟨by simp, Clears.refl _, fun _ _ => rfl, fun r hr => ?_,
      ⟨{q}, by simp [blocksOf, hq], by simp [Freeing.release, Finset.sdiff_singleton_eq_erase],
        by simp [Freeing.release], fun b => ?_⟩⟩
    · obtain rfl := hr0 hr
      simp [hfrom]
    · simp only [Finset.mem_singleton, innerOf, List.not_mem_nil, false_and, or_false]
      constructor
      · rintro rfl
        exact ⟨0, by simp, by simpa using hfrom, by simp [hq]⟩
      · rintro ⟨r, hr, _, hv⟩
        obtain rfl := hr0 hr
        simpa [hq] using hv.symm
  · have hfp : freePtr bs spb fromSize 0 q s = (false, { s with cur := s.cur + bs }) := by
      simp [freePtr, hfrom]
      omega
    rw [hfp]
    refine ⟨by simp, Clears.refl _, fun _ _ => rfl, fun r hr => ?_,
      ⟨∅, by simp, by simp, by simp, fun b => ?_⟩⟩
    · obtain rfl := hr0 hr
      simp [hfrom]
    · simp only [Finset.notMem_empty, innerOf, List.not_mem_nil, false_and, or_false, false_iff,
        not_exists, not_and]
      intro r hr hle
      obtain rfl := hr0 hr
      exact absurd (by simpa using hle) hfrom

section Succ

variable {h q : ℕ} {s s1 : Freeing} {B' : ℕ → ℕ} {res : Bool} (hq : q ≠ 0)
  (hqf : q ∉ forestBlocks (bs / 4) s.disk (fun _ => h) (s.disk q) 0 (bs / 4))
  (hloop : FreesEntries bs spb fromSize (fun _ => h) (fun i => s.cur + i * ((bs / 4) ^ h * bs))
    0 (bs / 4) (s.disk q) true s B' res s1)
include hq hqf hloop

/-- After the loop over the entries of `q` and the write of `q`, the tree below `q` (or nothing,
when `q` is freed) keeps the blocks before `fromSize` and none from it on. -/
theorem FreesEntries.views_succ : ∀ r < (bs / 4) ^ (h + 1),
    view (bs / 4) (Function.update s1.disk q B') (h + 1) (if res then 0 else q) r =
      if fromSize ≤ s.cur + r * bs then none else view (bs / 4) s.disk (h + 1) q r := by
  -- no pointer block below an entry is `q`, so the write of `q` leaves the trees below it
  have hnotq : ∀ i < bs / 4, ∀ x ∈ innerOf (bs / 4) s1.disk h (B' i), x ≠ q := by
    rintro i hi x hx rfl
    exact hqf (forestInner_subset (mem_forestInner.2 ⟨i, Nat.zero_le _, by omega,
      hloop.inner_subset i hx⟩))
  have hbelow : ∀ i < bs / 4, ∀ r' < (bs / 4) ^ h, view (bs / 4) (Function.update s1.disk q B') h
      (B' i) r' = view (bs / 4) s1.disk h (B' i) r' := fun i hi =>
    (tree_congr fun x hx => Function.update_of_ne (hnotq i hi x hx) _ _).2.2
  intro r hr
  obtain ⟨i, hi, r', hr', rfl⟩ := exists_lt_pow_succ_iff.1 ⟨r, hr, rfl⟩
  have hv := hloop.views i (Nat.zero_le _) (by omega) r' hr'
  rw [show s.cur + i * ((bs / 4) ^ h * bs) + r' * bs = s.cur + (i * (bs / 4) ^ h + r') * bs by
    ring] at hv
  rw [view_digit s.disk hq hr']
  cases res
  · simp only [Bool.false_eq_true, if_false]
    rw [view_digit _ hq hr', Function.update_self, hbelow i hi r' hr', hv]
  · have hzero : B' i = 0 := (hloop.res_iff.1 rfl).2 i (Nat.zero_le _) (by omega)
    rw [hzero, view_of_eq_zero] at hv
    simp only [if_true, view_of_eq_zero]
    split_ifs at hv ⊢ with hfrom
    · rfl
    · exact hv

/-- After the loop over the entries of `q` and the write of `q`, the blocks released are those the
loop released, and `q` when none of its entries is left. -/
theorem FreesEntries.released_succ :
    let s2 : Freeing := { s1 with disk := Function.update s1.disk q B' }
    ∃ F : Finset ℕ, (∀ b ∈ F, b ∈ blocksOf (bs / 4) s.disk (h + 1) q) ∧
      (if res then s2.release spb q else s2).used = s.used \ F ∧
      (if res then s2.release spb q else s2).sectorCount =
        s.sectorCount - BitVec.ofNat 32 (spb * F.card) ∧
      ∀ b, b ∈ F ↔ (∃ r < (bs / 4) ^ (h + 1), fromSize ≤ s.cur + r * bs ∧
          view (bs / 4) s.disk (h + 1) q r = some b) ∨
        (b ∈ innerOf (bs / 4) s.disk (h + 1) q ∧
          ∀ e < bs / 4, (if res then s2.release spb q else s2).disk b e = 0) := by
  intro s2
  have hdisk : (if res then s2.release spb q else s2).disk = Function.update s1.disk q B' := by
    split_ifs <;> rfl
  obtain ⟨F, hsub, hused, hsc, hF⟩ := hloop.released
  have hqF : q ∉ F := fun hq' => hqf (hsub q hq')
  -- the data blocks of the tree are those below its entries
  have hleaf : ∀ b, (∃ r < (bs / 4) ^ (h + 1), fromSize ≤ s.cur + r * bs ∧
      view (bs / 4) s.disk (h + 1) q r = some b) ↔
      ∃ i, 0 ≤ i ∧ i < 0 + bs / 4 ∧ ∃ r' < (bs / 4) ^ h,
        fromSize ≤ s.cur + i * ((bs / 4) ^ h * bs) + r' * bs ∧
        view (bs / 4) s.disk h (s.disk q i) r' = some b := by
    intro b
    have hoffset : ∀ i r', s.cur + (i * (bs / 4) ^ h + r') * bs =
        s.cur + i * ((bs / 4) ^ h * bs) + r' * bs := fun i r' => by ring
    rw [exists_view_succ_iff hq]
    constructor
    · rintro ⟨i, hi, r', hr', hfrom, hv⟩
      exact ⟨i, Nat.zero_le _, by omega, r', hr', by rwa [← hoffset], hv⟩
    · rintro ⟨i, -, hi, r', hr', hfrom, hv⟩
      exact ⟨i, by omega, r', hr', by rwa [hoffset], hv⟩
  refine ⟨if res then insert q F else F, ?_, ?_, ?_, fun b => ?_⟩
  · intro b hb
    rw [blocksOf_succ hq, List.mem_cons]
    split_ifs at hb
    · rcases Finset.mem_insert.1 hb with rfl | hb
      · exact Or.inl rfl
      · exact Or.inr (hsub b hb)
    · exact Or.inr (hsub b hb)
  · cases res
    · exact hused
    · show s1.used.erase q = s.used \ insert q F
      rw [hused, Finset.sdiff_insert]
  · cases res
    · exact hsc
    · show s1.sectorCount - BitVec.ofNat 32 spb = _
      rw [hsc, if_pos rfl, Finset.card_insert_of_notMem hqF, Nat.mul_succ, BitVec.ofNat_add,
        sub_sub]
  · rw [hleaf, innerOf_succ hq, List.mem_cons, hdisk]
    by_cases hb : b = q
    · subst hb
      -- `q` is released exactly when no entry is left in it
      have hnotleaf : ¬∃ i, 0 ≤ i ∧ i < 0 + bs / 4 ∧ ∃ r' < (bs / 4) ^ h,
          fromSize ≤ s.cur + i * ((bs / 4) ^ h * bs) + r' * bs ∧
          view (bs / 4) s.disk h (s.disk b i) r' = some b := by
        rintro ⟨i, -, hi, r', hr', -, hv⟩
        exact hqf (mem_forestBlocks.2 ⟨i, Nat.zero_le _, hi, mem_blocksOf_of_view hr' hv⟩)
      simp only [hnotleaf, false_or, true_or, true_and, Function.update_self]
      have hres := hloop.res_iff
      cases res
      · simp only [Bool.false_eq_true, if_false, hqF, false_iff]
        intro hall
        exact absurd (hres.2 ⟨rfl, fun i _ hi => hall i (by omega)⟩) Bool.false_ne_true
      · simp only [if_true, Finset.mem_insert_self, true_iff]
        exact fun e he => (hres.1 rfl).2 e (Nat.zero_le _) (by omega)
    · have hmem : b ∈ (if res then insert q F else F) ↔ b ∈ F := by
        split_ifs <;> simp [hb]
      simp only [hmem, hF b, hb, false_or, Function.update_of_ne hb]

end Succ

/-- A pointer block: the loop over its entries, then its write-back, and its release when no
entry is left. -/
theorem freePtr_succ_spec {h q : ℕ} (s : Freeing) (hq : q ≠ 0)
    (hnd : (blocksOf (bs / 4) s.disk (h + 1) q).Nodup)
    (hfit : s.cur + (bs / 4) ^ (h + 1) * bs < 2 ^ 64)
    (ih : ∀ q s, q ≠ 0 → (blocksOf (bs / 4) s.disk h q).Nodup →
      s.cur + (bs / 4) ^ h * bs < 2 ^ 64 →
      FreesTree bs spb fromSize h q s (freePtr bs spb fromSize h q s).1
        (freePtr bs spb fromSize h q s).2) :
    FreesTree bs spb fromSize (h + 1) q s (freePtr bs spb fromSize (h + 1) q s).1
      (freePtr bs spb fromSize (h + 1) q s).2 := by
  rw [blocksOf_succ hq, List.nodup_cons] at hnd
  obtain ⟨hqf, hndf⟩ := hnd
  obtain ⟨B', res, s1, heq⟩ : ∃ B' res s1, freeEntries (fun _ => freePtr bs spb fromSize h)
      (fun _ => (bs / 4) ^ h * bs % 2 ^ 64) 0 (bs / 4) (s.disk q, true, s) = (B', res, s1) :=
    ⟨_, _, _, rfl⟩
  -- entry `i` of `q` is at `s.cur + i E ^ h bs`, and the offset past the last is `hfit`'s
  have hend : s.cur + (0 + bs / 4) * ((bs / 4) ^ h * bs) < 2 ^ 64 := by
    rw [Nat.zero_add, ← Nat.mul_assoc, ← pow_succ']
    exact hfit
  have hloop : FreesEntries bs spb fromSize (fun _ => h) (fun i => s.cur + i * ((bs / 4) ^ h * bs))
      0 (bs / 4) (s.disk q) true s B' res s1 := by
    have := @freeEntries_spec bs spb fromSize (fun _ => h)
      (fun i => s.cur + i * ((bs / 4) ^ h * bs)) (fun _ => freePtr bs spb fromSize h)
      (fun _ q s hq hnd hfit => ih q s hq hnd hfit) (fun i => by ring) (bs / 4) 0 (s.disk q)
      true s (by simp) hend hndf
    rwa [heq] at this
  set s2 : Freeing := { s1 with disk := Function.update s1.disk q B' } with hs2
  have hfp : freePtr bs spb fromSize (h + 1) q s =
      (res, if res then s2.release spb q else s2) := by
    simp only [freePtr, heq]
    rfl
  rw [hfp]
  dsimp only
  have hdisk : (if res then s2.release spb q else s2).disk = Function.update s1.disk q B' := by
    split_ifs <;> rfl
  refine ⟨?_, ?_, ?_, by rw [hdisk]; exact hloop.views_succ hq hqf,
    hloop.released_succ hq hqf⟩
  · have hc : (if res then s2.release spb q else s2).cur = s1.cur := by split_ifs <;> rfl
    rw [hc, hloop.cur]
    ring
  · rw [hdisk]
    intro b e
    by_cases hb : b = q
    · subst hb
      rw [Function.update_self]
      exact hloop.inside e
    · rw [Function.update_of_ne hb]
      exact hloop.clears b e
  · intro b hb
    rw [innerOf_succ hq, List.mem_cons, not_or] at hb
    rw [hdisk, Function.update_of_ne hb.1, hloop.frame b hb.2]

/-- `freePtr` does what `FreesTree` says on every tree where no block is found twice, where
`current_offset` does not wrap over it. -/
theorem freePtr_spec (h : ℕ) : ∀ (q : ℕ) (s : Freeing), q ≠ 0 →
    (blocksOf (bs / 4) s.disk h q).Nodup → s.cur + (bs / 4) ^ h * bs < 2 ^ 64 →
    FreesTree bs spb fromSize h q s (freePtr bs spb fromSize h q s).1
      (freePtr bs spb fromSize h q s).2 := by
  induction h with
  | zero => exact fun q s hq _ hfit => freePtr_zero_spec s hq (by simpa using hfit)
  | succ h ih => exact fun q s hq hnd hfit => freePtr_succ_spec s hq hnd hfit ih

end Loop

/-! ## Truncating an inode -/

/-- The blocks of the inode's tree: those below its fifteen pointers. -/
def treeBlocks (E : ℕ) (t : Blocks) : List ℕ := forestBlocks E t.disk height t.ptrs 0 15

/-- The pointer blocks of the inode's tree. -/
def indirectBlocks (E : ℕ) (t : Blocks) : List ℕ := forestInner E t.disk height t.ptrs 0 15

/-- Up to blocks of `2 ^ 17` bytes the whole range of a file fits in a `usize`, and so do the spans
of `get_offsets`. -/
theorem file_fits_of_le {bs : ℕ} (hbs : bs ≤ 2 ^ 17) :
    base (bs / 4) 15 * bs < 2 ^ 64 ∧ (bs / 4) ^ 3 < 2 ^ 64 := by
  have hE : bs / 4 ≤ 2 ^ 15 := Nat.div_le_div_right (c := 4) hbs
  refine ⟨?_, fits_of_le (hbs.trans (by norm_num))⟩
  calc base (bs / 4) 15 * bs = (12 + bs / 4 + (bs / 4) ^ 2 + (bs / 4) ^ 3) * bs := by
        rw [base_fifteen]
    _ ≤ (12 + 2 ^ 15 + (2 ^ 15) ^ 2 + (2 ^ 15) ^ 3) * 2 ^ 17 := by gcongr
    _ < 2 ^ 64 := by norm_num

/-- Past the triple-indirect range `get_block` panics, whatever the tree. -/
theorem getBlock_of_le {bs n : ℕ} (t : Blocks) (hfit : (bs / 4) ^ 3 < 2 ^ 64)
    (hn : base (bs / 4) 15 ≤ n) : getBlock bs n t = none := by
  simp [getBlock, getOffsets_of_le hfit hn]

/-- The data blocks found by `get_block` at or past a file offset are the data blocks of the
trees below the inode's pointers at or past it. -/
theorem exists_getBlock_iff {bs fromSize b : ℕ} (t : Blocks) (hfit : (bs / 4) ^ 3 < 2 ^ 64) :
    (∃ n, fromSize ≤ n * bs ∧ getBlock bs n t = some (some b)) ↔
      ∃ i, 0 ≤ i ∧ i < 0 + 15 ∧ ∃ r < (bs / 4) ^ height i,
        fromSize ≤ base (bs / 4) i * bs + r * bs ∧
        view (bs / 4) t.disk (height i) (t.ptrs i) r = some b := by
  constructor
  · rintro ⟨n, hfrom, hget⟩
    by_cases hn : n < base (bs / 4) 15
    · obtain ⟨i, hi, r, hr, rfl⟩ := exists_base hn
      rw [getBlock_base t hfit hi hr, Option.some.injEq] at hget
      exact ⟨i, Nat.zero_le _, by omega, r, hr, by rwa [← Nat.add_mul], hget⟩
    · rw [getBlock_of_le t hfit (not_lt.1 hn)] at hget
      cases hget
  · rintro ⟨i, -, hi, r, hr, hfrom, hv⟩
    refine ⟨base (bs / 4) i + r, by rwa [Nat.add_mul], ?_⟩
    rw [getBlock_base t hfit (by omega) hr, hv]

section Inode

variable (bs spb fromSize : ℕ)

/-- The loop of `free_blocks_from` over the inode's pointers, on a tree that finds no block
twice, where the file's range fits in a `usize`. -/
theorem freeBlocksFrom_loop (t : Blocks) (s : Freeing) (hdisk : s.disk = t.disk)
    (hcur : s.cur = 0) (htree : (treeBlocks (bs / 4) t).Nodup)
    (hfit : base (bs / 4) 15 * bs < 2 ^ 64) :
    FreesEntries bs spb fromSize height (fun i => base (bs / 4) i * bs) 0 15 t.ptrs true s
      (freeEntries (fun i => freePtr bs spb fromSize (height i))
        (fun i => (bs / 4) ^ height i * bs % 2 ^ 64) 0 15 (t.ptrs, true, s)).1
      (freeEntries (fun i => freePtr bs spb fromSize (height i))
        (fun i => (bs / 4) ^ height i * bs % 2 ^ 64) 0 15 (t.ptrs, true, s)).2.1
      (freeEntries (fun i => freePtr bs spb fromSize (height i))
        (fun i => (bs / 4) ^ height i * bs % 2 ^ 64) 0 15 (t.ptrs, true, s)).2.2 :=
  freeEntries_spec (fun i q s hq hnd hfit => freePtr_spec (height i) q s hq hnd hfit)
    (fun i => by rw [base_succ, Nat.add_mul]) 15 0 t.ptrs true s (by simp [hcur, base]) hfit
    (by rw [hdisk]; exact htree)

/-- Truncating an inode of a type with a block tree, a tree in which no block is found twice,
with blocks of at most `2 ^ 17` bytes: the blocks before `fromSize` stay and those from it on are
gone, the bitmaps get back exactly the data blocks cut off and the pointer blocks left without a
nonzero pointer, `sector_count` goes down by `sectors_per_block` for each of them, and
`size_lower` is `fromSize` as a `u32`. -/
theorem free_blocks_from_spec (bs spb fromSize : ℕ) (ftype : FileType) (sizeLower : BitVec 32)
    (t : Blocks) (sectorCount : BitVec 32) (cur : ℕ) (hbs : bs ≤ 2 ^ 17)
    (hkind : ftype = .file ∨ ftype = .dir ∨ (ftype = .symlink ∧ 60 < sizeLower.toNat))
    (htree : (treeBlocks (bs / 4) t).Nodup) {ptrs' : ℕ → ℕ} {size' : BitVec 32} {s' : Freeing}
    (hrun : freeBlocksFrom bs spb fromSize ftype sizeLower t.ptrs ⟨t.disk, t.used, sectorCount, cur⟩ =
      (ptrs', size', s')) :
    let t' : Blocks := ⟨ptrs', s'.disk, s'.used⟩
    let X : Set ℕ := {b | (∃ n, fromSize ≤ n * bs ∧ getBlock bs n t = some (some b)) ∨
      (b ∈ indirectBlocks (bs / 4) t ∧ ∀ e < bs / 4, s'.disk b e = 0)}
    (∀ n, n * bs < fromSize → getBlock bs n t' = getBlock bs n t) ∧
    (∀ n, fromSize ≤ n * bs → ∀ b, getBlock bs n t' ≠ some (some b)) ∧
    (↑s'.used : Set ℕ) = ↑t.used \ X ∧
    s'.sectorCount = sectorCount - BitVec.ofNat 32 (spb * X.ncard) ∧
    size' = BitVec.ofNat 32 fromSize := by
  intro t' X
  -- the type checks pass, and the loop runs over the inode's pointers from offset zero
  have hpass : ¬(ftype = .symlink ∧ sizeLower.toNat ≤ 60) ∧
      ftype ∈ [FileType.file, .symlink, .dir] := by
    rcases hkind with rfl | rfl | ⟨rfl, hsize⟩ <;> simp_all
  obtain ⟨hfile, hfit⟩ := file_fits_of_le hbs
  set s0 : Freeing := { (⟨t.disk, t.used, sectorCount, cur⟩ : Freeing) with cur := 0 }
  have hloop := freeBlocksFrom_loop bs spb fromSize t s0 rfl rfl htree hfile
  simp only [freeBlocksFrom, hpass.1, not_true_eq_false, hpass.2, if_false] at hrun
  generalize freeEntries (fun i => freePtr bs spb fromSize (height i))
      (fun i => (bs / 4) ^ height i * bs % 2 ^ 64) 0 15 (t.ptrs, true, s0) = out at hloop hrun
  obtain ⟨P, res, s1⟩ := out
  simp only [Prod.mk.injEq] at hrun
  obtain ⟨rfl, rfl, rfl⟩ := hrun
  -- block `n` after the call, below pointer `i` of the inode
  have hafter : ∀ i < 15, ∀ r < (bs / 4) ^ height i, getBlock bs (base (bs / 4) i + r) t' =
      some (if fromSize ≤ (base (bs / 4) i + r) * bs then none
        else view (bs / 4) t.disk (height i) (t.ptrs i) r) := by
    intro i hi r hr
    rw [getBlock_base t' hfit hi hr, Nat.add_mul]
    exact congrArg some (hloop.views i (Nat.zero_le _) (by omega) r hr)
  obtain ⟨F, -, hused, hsc, hF⟩ := hloop.released
  have hX : X = ↑F := by
    ext b
    rw [Finset.mem_coe, hF b, ← exists_getBlock_iff t hfit]
    rfl
  refine ⟨fun n hn => ?_, fun n hn b => ?_, ?_, ?_, rfl⟩
  · by_cases hlt : n < base (bs / 4) 15
    · obtain ⟨i, hi, r, hr, rfl⟩ := exists_base hlt
      rw [hafter i hi r hr, if_neg (by omega), getBlock_base t hfit hi hr]
    · rw [getBlock_of_le t' hfit (not_lt.1 hlt), getBlock_of_le t hfit (not_lt.1 hlt)]
  · by_cases hlt : n < base (bs / 4) 15
    · obtain ⟨i, hi, r, hr, rfl⟩ := exists_base hlt
      rw [hafter i hi r hr, if_pos hn]
      simp
    · rw [getBlock_of_le t' hfit (not_lt.1 hlt)]
      simp
  · rw [hX, hused, Finset.coe_sdiff]
  · rw [hX, Set.ncard_coe_finset, hsc]

/-- A file with 1 KiB blocks: block `0` is `10`, and the single-indirect block `20` holds blocks
`12` and `13` of the file, `30` and `31`. -/
def smallFile : Blocks where
  ptrs i := if i = 0 then 10 else if i = 12 then 20 else 0
  disk b e := if b = 20 ∧ e = 0 then 30 else if b = 20 ∧ e = 1 then 31 else 0
  used := {10, 20, 30, 31}

set_option maxRecDepth 4000 in
/-- Truncating it to thirteen blocks cuts off block `13` only. -/
theorem free_blocks_from_spec_small :
    let t' : Blocks := ⟨(freeBlocksFrom 1024 2 (1024 * 13) .file 0 smallFile.ptrs
        ⟨smallFile.disk, smallFile.used, 8, 0⟩).1,
      (freeBlocksFrom 1024 2 (1024 * 13) .file 0 smallFile.ptrs
        ⟨smallFile.disk, smallFile.used, 8, 0⟩).2.2.disk,
      (freeBlocksFrom 1024 2 (1024 * 13) .file 0 smallFile.ptrs
        ⟨smallFile.disk, smallFile.used, 8, 0⟩).2.2.used⟩
    let X : Set ℕ := {b | (∃ n, 1024 * 13 ≤ n * 1024 ∧ getBlock 1024 n smallFile = some (some b)) ∨
      (b ∈ indirectBlocks (1024 / 4) smallFile ∧ ∀ e < 1024 / 4,
        (freeBlocksFrom 1024 2 (1024 * 13) .file 0 smallFile.ptrs
          ⟨smallFile.disk, smallFile.used, 8, 0⟩).2.2.disk b e = 0)}
    (∀ n, n * 1024 < 1024 * 13 → getBlock 1024 n t' = getBlock 1024 n smallFile) ∧
    (∀ n, 1024 * 13 ≤ n * 1024 → ∀ b, getBlock 1024 n t' ≠ some (some b)) ∧
    (↑(freeBlocksFrom 1024 2 (1024 * 13) .file 0 smallFile.ptrs
        ⟨smallFile.disk, smallFile.used, 8, 0⟩).2.2.used : Set ℕ) = ↑smallFile.used \ X ∧
    (freeBlocksFrom 1024 2 (1024 * 13) .file 0 smallFile.ptrs
        ⟨smallFile.disk, smallFile.used, 8, 0⟩).2.2.sectorCount = 8 - BitVec.ofNat 32 (2 * X.ncard) ∧
    (freeBlocksFrom 1024 2 (1024 * 13) .file 0 smallFile.ptrs
        ⟨smallFile.disk, smallFile.used, 8, 0⟩).2.1 = BitVec.ofNat 32 (1024 * 13) :=
  free_blocks_from_spec 1024 2 (1024 * 13) .file 0 smallFile 8 0 (by norm_num) (Or.inl rfl)
    (by decide) rfl

/-- A symbolic link of four bytes holds its target `abcd` in its first block pointer:
truncating it to nothing leaves that pointer, so `get_block(0)` still finds a block, and leaves
`size_lower` at four. -/
def fastLink : Blocks where
  ptrs i := if i = 0 then 0x64636261 else 0
  disk _ _ := 0
  used := ∅

theorem fast_symlink_not_truncated :
    getBlock 1024 0 ⟨(freeBlocksFrom 1024 2 0 .symlink 4 fastLink.ptrs ⟨fastLink.disk, ∅, 0, 0⟩).1,
      (freeBlocksFrom 1024 2 0 .symlink 4 fastLink.ptrs ⟨fastLink.disk, ∅, 0, 0⟩).2.2.disk,
      ∅⟩ = some (some 0x64636261) ∧
    (freeBlocksFrom 1024 2 0 .symlink 4 fastLink.ptrs ⟨fastLink.disk, ∅, 0, 0⟩).2.1 = 4 := by
  decide

end Inode

end Spec

end Cykusz.Fs.Ext2
