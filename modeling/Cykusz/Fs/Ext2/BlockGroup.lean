import Mathlib
import Cykusz.Lib.ByteBits
import Cykusz.Lib.Bitmap
import Cykusz.Lib.Simulation

/-!
# Allocating ext2 blocks and inodes

Each block group of an ext2 file system has a bitmap of its blocks and one of its inodes, each
held in a block of its own, and its descriptor counts the unallocated entries of each; the
superblock counts them over all groups. `alloc_block_ptr` picks a group with a free block (the
hint's group, or else the one with the most), sets the first clear bit of its bitmap
(`BlocksBitmap::alloc_bit`, a scan over the whole bitmap block) and counts one block fewer in the
group and in the superblock; the block's id is `group * blocks_in_group + bit + first_block`.
`free_block_ptr` decodes an id the other way round and clears its bit. The inode functions do the
same with `group * inodes_per_group + bit + 1`.

The two kinds of bitmap share the definitions `allocIn` and `freeIn`, over a `Kind`. The counts
stay `Consistent` with the bitmaps through every allocation (`allocBlockPtr_consistent`), and an
allocated id had a clear bit in its group's range, and its free restores the state
(`allocBlockPtr_free`). A free restores the counts too, but a group's counts are 16 bits wide
and the superblock's 32: with more than `2 ^ 16 - 1` blocks in a group the count of a group with
all but one block free wraps when that block is freed (`free_wraps_unallocated`). With the
counts inside their fields (`Geometry`), every run of allocations and frees of allocated ids
keeps the counts consistent (`bitmaps_stay_consistent`).

Machine words: a descriptor's counts are `u16` and the superblock's `u32`, and their `-= 1` and
`+= 1` wrap here as in a build without overflow checks (with them, the step panics instead).
The other arithmetic is on `usize` values computed from 32-bit superblock fields and at most
`2 ^ 32` groups, far from overflow, and is exact here. Where the source panics (an index past the
groups or the bitmap, a division by zero, `hint_id - 1` on a zero hint, an unsupported block size)
the model returns `none`. Each bitmap is held by its group: the block device keeps them in
distinct blocks.
-/

namespace Cykusz.Fs.Ext2

open ByteBits

/-! ## The model -/

/-- The two bitmaps of a block group. -/
inductive Kind
  | blocks
  | inodes
deriving DecidableEq

/-- A block group descriptor's counts of unallocated entries, and the bitmap blocks it points at
(`block_usage_bitmap`, `inode_usage_bitmap`). -/
structure Group where
  unallocatedBlocks : BitVec 16
  unallocatedInodes : BitVec 16
  blockBitmap : List UInt8
  inodeBitmap : List UInt8

namespace Group

/-- The count of unallocated entries of a kind. -/
def unallocated (g : Group) : Kind → BitVec 16
  | .blocks => g.unallocatedBlocks
  | .inodes => g.unallocatedInodes

/-- The bitmap of a kind. -/
def bitmap (g : Group) : Kind → List UInt8
  | .blocks => g.blockBitmap
  | .inodes => g.inodeBitmap

/-- The group with a new bitmap and count of a kind. -/
def update (g : Group) : Kind → List UInt8 → BitVec 16 → Group
  | .blocks, map, c => { g with blockBitmap := map, unallocatedBlocks := c }
  | .inodes, map, c => { g with inodeBitmap := map, unallocatedInodes := c }

@[simp] theorem unallocated_update_self (g : Group) (k : Kind) (map : List UInt8) (c : BitVec 16) :
    (g.update k map c).unallocated k = c := by
  cases k <;> rfl

@[simp] theorem bitmap_update_self (g : Group) (k : Kind) (map : List UInt8) (c : BitVec 16) :
    (g.update k map c).bitmap k = map := by
  cases k <;> rfl

theorem unallocated_update_of_ne {k k' : Kind} (h : k' ≠ k) (g : Group) (map : List UInt8)
    (c : BitVec 16) : (g.update k map c).unallocated k' = g.unallocated k' := by
  cases k <;> cases k' <;> first | rfl | exact absurd rfl h

theorem bitmap_update_of_ne {k k' : Kind} (h : k' ≠ k) (g : Group) (map : List UInt8)
    (c : BitVec 16) : (g.update k map c).bitmap k' = g.bitmap k' := by
  cases k <;> cases k' <;> first | rfl | exact absurd rfl h

end Group

/-- `BlockGroupDescriptors`, with the superblock fields its allocation methods read and write:
the block size, `blocks_in_group`, `inodes_in_group`, and the free counts. -/
structure BlockGroupDescriptors where
  blockSize : ℕ
  blocksInGroup : ℕ
  inodesInGroup : ℕ
  freeBlocks : BitVec 32
  freeInodes : BitVec 32
  groups : List Group

/-- `Superblock::first_block`: the first block a group's bitmap counts from; `none` where the
source panics. -/
def firstBlock (blockSize : ℕ) : Option ℕ :=
  if blockSize = 1024 then some 1 else if 1024 < blockSize then some 0 else none

/-- `BlocksBitmap::alloc_bit`: the first clear bit of the first byte that is not `0xff` is set, and
its index returned; `none` when every bit is set. -/
def allocBit : List UInt8 → Option (List UInt8 × ℕ)
  | [] => none
  | el :: rest =>
    match (if el != 0xff then (List.range 8).find? (fun bit => !getBit el bit) else none) with
    | some bit => some (setBit el bit true :: rest, bit)
    | none => (allocBit rest).map fun r => (el :: r.1, r.2 + 8)

/-- `BlocksBitmap::free_bit`; `none` where `map[idx]` panics. -/
def freeBit (map : List UInt8) (bit : ℕ) : Option (List UInt8) :=
  match map[bit / 8]? with
  | some el => some (map.set (bit / 8) (setBit el (bit % 8) false))
  | none => none

/-- `Iterator::max_by_key` over the positions of a list: the position and value of its last
largest element. -/
def maxByKey : List ℕ → Option (ℕ × ℕ)
  | [] => none
  | k :: ks =>
    match maxByKey ks with
    | none => some (0, k)
    | some (i, m) => if m < k then some (0, k) else some (i + 1, m)

/-- `find_free_blocks_group` and `find_free_inodes_group`, over the count `key` of a group: the
hint's group when it has a free entry, or else the group with the most, if it has any. The outer
`none` is where the source panics: a hint past the groups, or no groups to take the largest of. -/
def findFreeGroup (key : Group → BitVec 16) (groups : List Group) (hint : Option ℕ) :
    Option (Option ℕ) :=
  let byMax : Option (Option ℕ) :=
    (maxByKey (groups.map fun g => (key g).toNat)).map fun r => if 0 < r.2 then some r.1 else none
  match hint with
  | some h =>
    match groups[h]? with
    | some g => if 0 < (key g).toNat then some (some h) else byMax
    | none => none
  | none => byMax

/-- `GroupDescriptors::find_free_blocks_group`. -/
def findFreeBlocksGroup (groups : List Group) (hint : ℕ) : Option (Option ℕ) :=
  findFreeGroup Group.unallocatedBlocks groups (some hint)

/-- `GroupDescriptors::find_free_inodes_group`. -/
def findFreeInodesGroup (groups : List Group) (hint : Option ℕ) : Option (Option ℕ) :=
  findFreeGroup Group.unallocatedInodes groups hint

/-! ## The bitmaps, bit by bit -/

section Bitmaps

variable {m m' : List UInt8} {k : ℕ}

/-- A byte list is its bits. -/
theorem bits_injective {b b' : UInt8} (h : bits b = bits b') : b = b' := by
  rw [← UInt8.toNat_inj]
  apply Nat.eq_of_testBit_eq
  intro j
  by_cases hj : j < 8
  · have := congrArg (·[j]?) h
    simp only [bits, List.getElem?_map, List.getElem?_range hj, Option.map_some,
      Option.some.injEq] at this
    rwa [getBit_eq_testBit hj, getBit_eq_testBit hj] at this
  · rw [Nat.testBit_lt_two_pow (lt_of_lt_of_le b.toNat_lt (Nat.pow_le_pow_right (by norm_num)
      (by omega))), Nat.testBit_lt_two_pow (lt_of_lt_of_le b'.toNat_lt
      (Nat.pow_le_pow_right (by norm_num) (by omega)))]

theorem bitsOf_injective : ∀ {m m' : List UInt8}, bitsOf m = bitsOf m' → m = m'
  | [], [], _ => rfl
  | [], _ :: _, h => by
    have := congrArg List.length h
    simp only [length_bitsOf, List.length_nil, List.length_cons] at this
    omega
  | _ :: _, [], h => by
    have := congrArg List.length h
    simp only [length_bitsOf, List.length_nil, List.length_cons] at this
    omega
  | b :: m, b' :: m', h => by
    rw [bitsOf_cons, bitsOf_cons] at h
    obtain ⟨hb, hm⟩ := List.append_inj h (by simp)
    rw [bits_injective hb, bitsOf_injective hm]

/-- `alloc_bit` sets the first clear bit of the bitmap, read bit by bit, and returns its index. -/
theorem allocBit_spec (m : List UInt8) :
    (allocBit m).map (fun r => (bitsOf r.1, r.2)) =
      ((bitsOf m).findIdx? (· == false)).map fun k => ((bitsOf m).set k true, k) := by
  induction m with
  | nil => rfl
  | cons el rest ih =>
    -- the search within one byte finds its first clear bit
    have hfind : (if el != 0xff then (List.range 8).find? (fun bit => !getBit el bit) else none) =
        (bits el).findIdx? (· == false) := by
      split_ifs with h
      · exact find?_clear_eq el
      · simp only [bne_iff_ne, ne_eq, not_not] at h
        rw [h, bits_ff]
        rfl
    rw [allocBit, hfind, bitsOf_cons, List.findIdx?_append, length_bits]
    cases hb : (bits el).findIdx? (· == false) with
    | some bit =>
      have hbit : bit < 8 := by
        simpa using (List.findIdx?_eq_some_iff_getElem.1 hb).1
      simp only [Option.map_some, Option.some_or, bitsOf_cons, bits_setBit hbit]
      rw [List.set_append_left (s := bits el) bit true (by simpa using hbit)]
    | none =>
      -- the byte is full: the search goes on past it, eight bits further on
      simp only [Option.none_or]
      cases hr : allocBit rest with
      | none =>
        rw [hr, Option.map_none] at ih
        cases hk : (bitsOf rest).findIdx? (· == false) with
        | none => rfl
        | some k =>
          rw [hk, Option.map_some] at ih
          cases ih
      | some r =>
        rw [hr, Option.map_some] at ih
        cases hk : (bitsOf rest).findIdx? (· == false) with
        | none =>
          rw [hk, Option.map_none] at ih
          cases ih
        | some k =>
          rw [hk, Option.map_some, Option.some.injEq, Prod.mk.injEq] at ih
          obtain ⟨hbits, rfl⟩ := ih
          simp only [Option.map_some, bitsOf_cons, hbits,
            List.set_append_right _ _ (by simp : (bits el).length ≤ r.2 + 8), length_bits,
            Nat.add_sub_cancel]

theorem allocBit_eq_some (h : allocBit m = some (m', k)) :
    (bitsOf m).findIdx? (· == false) = some k ∧ bitsOf m' = (bitsOf m).set k true := by
  have hspec := allocBit_spec m
  rw [h, Option.map_some] at hspec
  cases hk : (bitsOf m).findIdx? (· == false) with
  | none =>
    rw [hk, Option.map_none] at hspec
    cases hspec
  | some j =>
    rw [hk, Option.map_some, Option.some.injEq, Prod.mk.injEq] at hspec
    obtain ⟨hbits, rfl⟩ := hspec
    exact ⟨rfl, hbits⟩

theorem allocBit_eq_none (h : allocBit m = none) : (bitsOf m).findIdx? (· == false) = none := by
  have hspec := allocBit_spec m
  rw [h, Option.map_none] at hspec
  cases hk : (bitsOf m).findIdx? (· == false) with
  | none => rfl
  | some j =>
    rw [hk, Option.map_some] at hspec
    cases hspec

theorem freeBit_eq_some (h : freeBit m k = some m') : bitsOf m' = (bitsOf m).set k false := by
  unfold freeBit at h
  split at h
  · next el hel =>
    obtain ⟨hlt, rfl⟩ := List.getElem?_eq_some_iff.1 hel
    obtain rfl := Option.some_injective _ h
    rw [bitsOf_set_setBit hlt (Nat.mod_lt _ (by norm_num)), Nat.div_add_mod]
  · cases h

/-- Freeing a bit inside the bitmap does not panic. -/
theorem freeBit_isSome (hk : k < (bitsOf m).length) : ∃ m', freeBit m k = some m' := by
  rw [length_bitsOf] at hk
  have hlt : k / 8 < m.length := by omega
  rw [freeBit, List.getElem?_eq_getElem hlt]
  exact ⟨_, rfl⟩

/-- Freeing the bit an allocation set gives the bitmap back. -/
theorem freeBit_allocBit (h : allocBit m = some (m', k)) : freeBit m' k = some m := by
  obtain ⟨hfirst, hbits⟩ := allocBit_eq_some h
  obtain ⟨hk, hclear, -⟩ := List.findIdx?_eq_some_iff_getElem.1 hfirst
  obtain ⟨m'', hfree⟩ := freeBit_isSome (m := m') (k := k) (by rw [hbits, List.length_set]; exact hk)
  rw [hfree]
  congr 1
  -- set and cleared again, the bit is as it was: clear
  apply bitsOf_injective
  rw [freeBit_eq_some hfree, hbits, List.set_set]
  simp only [beq_iff_eq] at hclear
  rw [← hclear, List.set_getElem_self]

end Bitmaps

namespace BlockGroupDescriptors

/-- The entries a group's bitmap of a kind counts. -/
def width (s : BlockGroupDescriptors) : Kind → ℕ
  | .blocks => s.blocksInGroup
  | .inodes => s.inodesInGroup

/-- The superblock's count of free entries of a kind. -/
def free (s : BlockGroupDescriptors) : Kind → BitVec 32
  | .blocks => s.freeBlocks
  | .inodes => s.freeInodes

/-- The state with group `g` replaced and the free count of a kind set. -/
def write (s : BlockGroupDescriptors) (k : Kind) (g : ℕ) (grp : Group) (free : BitVec 32) :
    BlockGroupDescriptors :=
  match k with
  | .blocks => { s with groups := s.groups.set g grp, freeBlocks := free }
  | .inodes => { s with groups := s.groups.set g grp, freeInodes := free }

/-- An allocation in group `g` (holding `grp`) of its bitmap of kind `k`: `alloc_bit` on the
bitmap block, and on success the bitmap is written back and the group's and the superblock's
counts go down by one. `none` when the bitmap has no clear bit. -/
def allocIn (s : BlockGroupDescriptors) (k : Kind) (g : ℕ) (grp : Group) :
    Option (BlockGroupDescriptors × ℕ) :=
  (allocBit (grp.bitmap k)).map fun r =>
    (s.write k g (grp.update k r.1 (grp.unallocated k - 1)) (s.free k - 1), r.2)

/-- Freeing bit `bit` of group `g` of kind `k`: `free_bit` on the bitmap block, and the group's and
the superblock's counts go up by one. `none` where the source panics. -/
def freeIn (s : BlockGroupDescriptors) (k : Kind) (g bit : ℕ) : Option BlockGroupDescriptors := do
  let grp ← s.groups[g]?
  let map ← freeBit (grp.bitmap k) bit
  some (s.write k g (grp.update k map (grp.unallocated k + 1)) (s.free k + 1))

/-- `BlockGroupDescriptors::alloc_block_ptr`: the new state and the block allocated, if any. -/
def allocBlockPtr (s : BlockGroupDescriptors) (hintId : ℕ) :
    Option (BlockGroupDescriptors × Option ℕ) :=
  -- `(hint_id - 1) / inodes_in_group` panics on a zero hint or a zero divisor
  if hintId = 0 ∨ s.inodesInGroup = 0 then none
  else
    match findFreeBlocksGroup s.groups ((hintId - 1) / s.inodesInGroup) with
    | none => none
    | some none => some (s, none)
    | some (some found) =>
      match s.groups[found]? with
      | none => none
      | some grp =>
        match s.allocIn .blocks found grp with
        | none => some (s, none)
        | some (s', blockNr) =>
          (firstBlock s.blockSize).map fun fb => (s', some (found * s.blocksInGroup + blockNr + fb))

/-- `BlockGroupDescriptors::alloc_inode_id`: the hint only names a group when it is not the root
directory's inode `2`. -/
def allocInodeId (s : BlockGroupDescriptors) (hintId : ℕ) :
    Option (BlockGroupDescriptors × Option ℕ) :=
  let bgIdx : Option (Option ℕ) :=
    if hintId ≠ 2 then
      if hintId = 0 ∨ s.inodesInGroup = 0 then none
      else some (some ((hintId - 1) / s.inodesInGroup))
    else some none
  match bgIdx with
  | none => none
  | some hint =>
    match findFreeInodesGroup s.groups hint with
    | none => none
    | some none => some (s, none)
    | some (some found) =>
      match s.groups[found]? with
      | none => none
      | some grp =>
        match s.allocIn .inodes found grp with
        | none => some (s, none)
        | some (s', inode) => some (s', some (found * s.inodesInGroup + inode + 1))

/-- `BlockGroupDescriptors::free_block_ptr`. -/
def freeBlockPtr (s : BlockGroupDescriptors) (block : ℕ) : Option BlockGroupDescriptors := do
  let fb ← firstBlock s.blockSize
  -- `block -= first_block` panics below it, and `/ blocks_in_group` on zero
  if block < fb ∨ s.blocksInGroup = 0 then none
  else s.freeIn .blocks ((block - fb) / s.blocksInGroup) ((block - fb) % s.blocksInGroup)

/-- `BlockGroupDescriptors::free_inode_id`. -/
def freeInodeId (s : BlockGroupDescriptors) (inode : ℕ) : Option BlockGroupDescriptors :=
  if inode = 0 ∨ s.inodesInGroup = 0 then none
  else s.freeIn .inodes ((inode - 1) / s.inodesInGroup) ((inode - 1) % s.inodesInGroup)

end BlockGroupDescriptors

/-! ## Counts that agree with the bitmaps -/

/-- `counter` is the number of clear bits among the first `width` bits of `map`, and every bit
after them is set. -/
structure Counted (width : ℕ) (counter : BitVec 16) (map : List UInt8) : Prop where
  count : counter.toNat = ((bitsOf map).take width).count false
  past : ∀ i, width ≤ i → (bitsOf map)[i]? ≠ some false

/-- The counts of kind `k` agree with the bitmaps: each group's counts its bitmap's clear bits,
and the superblock's is their sum. -/
structure Tally (s : BlockGroupDescriptors) (k : Kind) : Prop where
  groups : ∀ grp ∈ s.groups, Counted (s.width k) (grp.unallocated k) (grp.bitmap k)
  total : (s.free k).toNat = (s.groups.map fun grp => (grp.unallocated k).toNat).sum

/-- The counts of both kinds agree with the bitmaps. -/
def Consistent (s : BlockGroupDescriptors) : Prop := ∀ k, Tally s k

/-- The counts fit their fields: a group counts fewer than `2 ^ 16` entries of each kind, and the
groups together fewer than `2 ^ 32`. -/
structure Geometry (s : BlockGroupDescriptors) : Prop where
  width : ∀ k, s.width k < 2 ^ 16
  total : ∀ k, s.groups.length * s.width k < 2 ^ 32

section Counted

variable {w : ℕ} {c : BitVec 16} {map map' : List UInt8} {k : ℕ}

/-- A bitmap no longer than its width is counted by its number of clear bits. -/
theorem Counted.of_length (hlen : (bitsOf map).length ≤ w)
    (hcount : c.toNat = (bitsOf map).count false) : Counted w c map where
  count := by rw [List.take_of_length_le hlen, hcount]
  past i hi := by rw [List.getElem?_eq_none (by omega)]; simp

/-- The first clear bit of a counted bitmap is among the counted bits. -/
theorem Counted.lt_of_findIdx? (hc : Counted w c map)
    (h : (bitsOf map).findIdx? (· == false) = some k) : k < w ∧ (bitsOf map)[k]? = some false := by
  obtain ⟨hk, hclear, -⟩ := List.findIdx?_eq_some_iff_getElem.1 h
  simp only [beq_iff_eq] at hclear
  have hk' : (bitsOf map)[k]? = some false := by rw [List.getElem?_eq_getElem hk, hclear]
  refine ⟨?_, hk'⟩
  by_contra hw
  exact hc.past k (by omega) hk'

theorem Counted.toNat_le (hc : Counted w c map) : c.toNat ≤ w := by
  rw [hc.count]
  exact le_trans List.count_le_length (List.length_take_le _ _)

theorem Counted.toNat_lt (hc : Counted w c map) (hk : k < w) (hset : (bitsOf map)[k]? = some true) :
    c.toNat < w := by
  rw [hc.count]
  exact Bitmap.count_take_lt hk hset

/-- Setting a counted clear bit counts one fewer; the count was at least one. -/
theorem Counted.set_true (hc : Counted w c map) (hk : k < w)
    (hclear : (bitsOf map)[k]? = some false) (hmap : bitsOf map' = (bitsOf map).set k true) :
    Counted w (c - 1) map' ∧ 1 ≤ c.toNat := by
  have hcount := Bitmap.count_take_set_true hk hclear
  have hpos : 1 ≤ c.toNat := by rw [hc.count]; omega
  refine ⟨⟨?_, fun i hi => ?_⟩, hpos⟩
  · have h1 : (1 : BitVec 16).toNat = 1 := rfl
    rw [BitVec.toNat_sub_of_le (by rw [BitVec.le_def, h1]; exact hpos), hmap, hc.count, h1]
    omega
  · rw [hmap, List.getElem?_set_ne (by omega)]
    exact hc.past i hi

/-- Clearing a counted set bit counts one more, when the count fits its 16 bits. -/
theorem Counted.set_false (hc : Counted w c map) (hk : k < w)
    (hset : (bitsOf map)[k]? = some true) (hfit : c.toNat + 1 < 2 ^ 16)
    (hmap : bitsOf map' = (bitsOf map).set k false) : Counted w (c + 1) map' := by
  refine ⟨?_, fun i hi => ?_⟩
  · rw [BitVec.toNat_add_of_lt (by simpa using hfit), hmap, Bitmap.count_take_set_false hk hset,
      hc.count]
    rfl
  · rw [hmap, List.getElem?_set_ne (by omega)]
    exact hc.past i hi

end Counted

theorem sum_set_add {l : List ℕ} {i : ℕ} (hi : i < l.length) (a : ℕ) :
    (l.set i a).sum + l[i] = l.sum + a := by
  induction l generalizing i with
  | nil => simp at hi
  | cons x l ih =>
    cases i with
    | zero =>
      simp only [List.set_cons_zero, List.sum_cons, List.getElem_cons_zero]
      omega
    | succ i =>
      simp only [List.set_cons_succ, List.sum_cons, List.getElem_cons_succ]
      have := ih (by simpa using hi)
      omega

namespace BlockGroupDescriptors

variable {s s' : BlockGroupDescriptors} {k k' : Kind} {g bit : ℕ} {grp grp₀ : Group}
  {f : BitVec 32}

@[simp] theorem groups_write : (s.write k g grp f).groups = s.groups.set g grp := by
  cases k <;> rfl

@[simp] theorem width_write : (s.write k g grp f).width k' = s.width k' := by
  cases k <;> cases k' <;> rfl

@[simp] theorem blockSize_write : (s.write k g grp f).blockSize = s.blockSize := by cases k <;> rfl

@[simp] theorem blocksInGroup_write : (s.write k g grp f).blocksInGroup = s.blocksInGroup := by
  cases k <;> rfl

@[simp] theorem inodesInGroup_write : (s.write k g grp f).inodesInGroup = s.inodesInGroup := by
  cases k <;> rfl

@[simp] theorem free_write_self : (s.write k g grp f).free k = f := by cases k <;> rfl

theorem free_write_of_ne (h : k' ≠ k) : (s.write k g grp f).free k' = s.free k' := by
  cases k <;> cases k' <;> first | rfl | exact absurd rfl h

end BlockGroupDescriptors

open BlockGroupDescriptors

variable {s s' : BlockGroupDescriptors} {k k' : Kind} {g bit : ℕ} {grp grp₀ : Group}
  {f : BitVec 32}

/-- Writing a group whose bitmap of kind `k'` is counted keeps the tally of `k'`, when the
superblock's count moves as the group's does. -/
theorem Tally.write (ht : Tally s k') (hg : s.groups[g]? = some grp₀)
    (hc : Counted (s.width k') (grp.unallocated k') (grp.bitmap k'))
    (hf : ((s.write k g grp f).free k').toNat + (grp₀.unallocated k').toNat =
      (s.free k').toNat + (grp.unallocated k').toNat) :
    Tally (s.write k g grp f) k' where
  groups x hx := by
    rw [groups_write] at hx
    rw [width_write]
    rcases List.mem_or_eq_of_mem_set hx with hx | rfl
    · exact ht.groups x hx
    · exact hc
  total := by
    obtain ⟨hlt, rfl⟩ := List.getElem?_eq_some_iff.1 hg
    have hsum := sum_set_add (l := s.groups.map fun x => (x.unallocated k').toNat)
      (by simpa using hlt) (grp.unallocated k').toNat
    rw [groups_write, List.map_set]
    simp only [List.getElem_map] at hsum
    have htotal := ht.total
    omega

/-- A group's count is part of the superblock's. -/
theorem Tally.le_free (ht : Tally s k) (hg : s.groups[g]? = some grp) :
    (grp.unallocated k).toNat ≤ (s.free k).toNat := by
  rw [ht.total]
  exact List.le_sum_of_mem (List.mem_map_of_mem (List.mem_of_getElem? hg))

theorem Group.update_update (x : Group) (k : Kind) (m m' : List UInt8) (c c' : BitVec 16) :
    (x.update k m c).update k m' c' = x.update k m' c' := by
  cases k <;> rfl

theorem Group.update_self (x : Group) (k : Kind) : x.update k (x.bitmap k) (x.unallocated k) = x := by
  cases k <;> rfl

theorem BlockGroupDescriptors.write_write {grp' : Group} {f' : BitVec 32} :
    (s.write k g grp f).write k g grp' f' = s.write k g grp' f' := by
  cases k <;> simp [write, List.set_set]

theorem BlockGroupDescriptors.write_self (hg : s.groups[g]? = some grp) :
    s.write k g grp (s.free k) = s := by
  obtain ⟨hlt, rfl⟩ := List.getElem?_eq_some_iff.1 hg
  cases k <;> simp [write, free, List.set_getElem_self]

/-! ## One allocation, one free -/

theorem allocIn_eq_some (h : s.allocIn k g grp = some (s', bit)) :
    ∃ m', allocBit (grp.bitmap k) = some (m', bit) ∧
      s' = s.write k g (grp.update k m' (grp.unallocated k - 1)) (s.free k - 1) := by
  unfold allocIn at h
  cases hb : allocBit (grp.bitmap k) with
  | none =>
    rw [hb] at h
    cases h
  | some r =>
    rw [hb, Option.map_some, Option.some.injEq, Prod.mk.injEq] at h
    obtain ⟨rfl, rfl⟩ := h
    exact ⟨r.1, rfl, rfl⟩

/-- An allocation in a group takes the first clear bit of its bitmap, which lies among the counted
bits, and keeps the counts consistent. -/
theorem allocIn_spec (hc : Consistent s) (hg : s.groups[g]? = some grp)
    (h : s.allocIn k g grp = some (s', bit)) :
    Consistent s' ∧ bit < s.width k ∧ (bitsOf (grp.bitmap k))[bit]? = some false := by
  obtain ⟨m', hb, rfl⟩ := allocIn_eq_some h
  obtain ⟨hfirst, hbits⟩ := allocBit_eq_some hb
  have hcnt := (hc k).groups grp (List.mem_of_getElem? hg)
  obtain ⟨hlt, hclear⟩ := hcnt.lt_of_findIdx? hfirst
  obtain ⟨hcnt', hpos⟩ := hcnt.set_true hlt hclear hbits
  refine ⟨fun k' => ?_, hlt, hclear⟩
  by_cases hk : k' = k
  · -- the group counts one fewer, and so does the superblock
    subst hk
    have hle := (hc k').le_free hg
    have h1 : (1 : BitVec 16).toNat = 1 := rfl
    have h1' : (1 : BitVec 32).toNat = 1 := rfl
    apply (hc k').write hg (by simpa using hcnt')
    rw [free_write_self, Group.unallocated_update_self,
      BitVec.toNat_sub_of_le (by rw [BitVec.le_def, h1']; omega),
      BitVec.toNat_sub_of_le (by rw [BitVec.le_def, h1]; omega), h1, h1']
    omega
  · -- the other bitmap and its counts are untouched
    apply (hc k').write hg
    · rw [Group.unallocated_update_of_ne hk, Group.bitmap_update_of_ne hk]
      exact (hc k').groups grp (List.mem_of_getElem? hg)
    · rw [free_write_of_ne hk, Group.unallocated_update_of_ne hk]

theorem freeIn_eq {m : List UInt8} (hg : s.groups[g]? = some grp)
    (hm : freeBit (grp.bitmap k) bit = some m) :
    s.freeIn k g bit = some (s.write k g (grp.update k m (grp.unallocated k + 1)) (s.free k + 1)) := by
  simp [freeIn, hg, hm]

/-- Freeing the bit an allocation took gives the state back. -/
theorem freeIn_allocIn (hg : s.groups[g]? = some grp) (h : s.allocIn k g grp = some (s', bit)) :
    s'.freeIn k g bit = some s := by
  obtain ⟨m', hb, rfl⟩ := allocIn_eq_some h
  have hlt := (List.getElem?_eq_some_iff.1 hg).1
  have hg' : (s.write k g (grp.update k m' (grp.unallocated k - 1)) (s.free k - 1)).groups[g]? =
      some (grp.update k m' (grp.unallocated k - 1)) := by
    rw [groups_write, List.getElem?_set_self hlt]
  rw [freeIn_eq hg' (by rw [Group.bitmap_update_self, freeBit_allocBit hb]), write_write,
    free_write_self, Group.update_update, Group.unallocated_update_self, BitVec.sub_add_cancel,
    BitVec.sub_add_cancel, Group.update_self, write_self hg]

/-- Freeing a set bit among the counted ones does not panic, and keeps the counts consistent when
they fit their fields. -/
theorem freeIn_spec (hc : Consistent s) (hg : s.groups[g]? = some grp) (hk : bit < s.width k)
    (hset : (bitsOf (grp.bitmap k))[bit]? = some true) (hfit : (grp.unallocated k).toNat + 1 < 2 ^ 16)
    (hfree : (s.free k).toNat + 1 < 2 ^ 32) : ∃ s', s.freeIn k g bit = some s' ∧ Consistent s' := by
  obtain ⟨m', hm'⟩ := freeBit_isSome (Bitmap.lt_length_of_getElem? hset)
  have hbits := freeBit_eq_some hm'
  refine ⟨_, freeIn_eq hg hm', fun k' => ?_⟩
  by_cases hkk : k' = k
  · -- the group counts one more, and so does the superblock
    subst hkk
    have hcnt := ((hc k').groups grp (List.mem_of_getElem? hg)).set_false hk hset hfit hbits
    apply (hc k').write hg (by simpa using hcnt)
    have h1 : (1 : BitVec 16).toNat = 1 := rfl
    have h1' : (1 : BitVec 32).toNat = 1 := rfl
    rw [free_write_self, Group.unallocated_update_self,
      BitVec.toNat_add_of_lt (by rw [h1']; exact hfree), BitVec.toNat_add_of_lt (by rw [h1]; exact hfit),
      h1, h1']
    omega
  · apply (hc k').write hg
    · rw [Group.unallocated_update_of_ne hkk, Group.bitmap_update_of_ne hkk]
      exact (hc k').groups grp (List.mem_of_getElem? hg)
    · rw [free_write_of_ne hkk, Group.unallocated_update_of_ne hkk]

/-! ## The allocation functions -/

/-- An id is found again from its group and bit. -/
theorem div_mod_encode {w g bit : ℕ} (hb : bit < w) : (g * w + bit) / w = g ∧ (g * w + bit) % w = bit := by
  have hw : 0 < w := by omega
  constructor
  · rw [Nat.add_comm, Nat.add_mul_div_right _ _ hw, Nat.div_eq_of_lt hb, Nat.zero_add]
  · rw [Nat.add_comm, Nat.add_mul_mod_self_right, Nat.mod_eq_of_lt hb]

theorem freeBlockPtr_eq {block fb : ℕ} (hfb : firstBlock s.blockSize = some fb) (hle : fb ≤ block)
    (hw : 0 < s.blocksInGroup) :
    s.freeBlockPtr block =
      s.freeIn .blocks ((block - fb) / s.blocksInGroup) ((block - fb) % s.blocksInGroup) := by
  simp only [freeBlockPtr, hfb, Option.bind_eq_bind, Option.bind_some]
  rw [if_neg (by omega)]

theorem freeInodeId_eq {inode : ℕ} (h1 : 1 ≤ inode) (hw : 0 < s.inodesInGroup) :
    s.freeInodeId inode =
      s.freeIn .inodes ((inode - 1) / s.inodesInGroup) ((inode - 1) % s.inodesInGroup) := by
  rw [freeInodeId, if_neg (by omega)]

variable {hint : ℕ} {r : Option ℕ}

/-- `alloc_block_ptr` either changes nothing and allocates nothing, or allocates in one group and
returns the block of the bit it took. -/
theorem allocBlockPtr_cases (h : s.allocBlockPtr hint = some (s', r)) :
    (s' = s ∧ r = none) ∨ ∃ g grp bit fb, s.groups[g]? = some grp ∧
      s.allocIn .blocks g grp = some (s', bit) ∧ firstBlock s.blockSize = some fb ∧
      r = some (g * s.blocksInGroup + bit + fb) := by
  unfold allocBlockPtr at h
  split_ifs at h
  split at h
  · cases h
  · cases h
    exact Or.inl ⟨rfl, rfl⟩
  · next found _ =>
    split at h
    · cases h
    · next grp hg =>
      split at h
      · cases h
        exact Or.inl ⟨rfl, rfl⟩
      · next s'' blockNr ha =>
        obtain ⟨fb, hfb, he⟩ := Option.map_eq_some_iff.1 h
        cases he
        exact Or.inr ⟨found, grp, blockNr, fb, hg, ha, hfb, rfl⟩

/-- `alloc_inode_id` either changes nothing and allocates nothing, or allocates in one group and
returns the inode of the bit it took. -/
theorem allocInodeId_cases (h : s.allocInodeId hint = some (s', r)) :
    (s' = s ∧ r = none) ∨ ∃ g grp bit, s.groups[g]? = some grp ∧
      s.allocIn .inodes g grp = some (s', bit) ∧ r = some (g * s.inodesInGroup + bit + 1) := by
  unfold allocInodeId at h
  dsimp only at h
  -- the hint only decides where the search starts
  generalize (if hint ≠ 2 then
      if hint = 0 ∨ s.inodesInGroup = 0 then none else some (some ((hint - 1) / s.inodesInGroup))
    else some none) = bgIdx at h
  cases bgIdx with
  | none => cases h
  | some hintOpt =>
    dsimp only at h
    split at h
    · cases h
    · cases h
      exact Or.inl ⟨rfl, rfl⟩
    · next found _ =>
      split at h
      · cases h
      · next grp hg =>
        split at h
        · cases h
          exact Or.inl ⟨rfl, rfl⟩
        · next s'' inode ha =>
          cases h
          exact Or.inr ⟨found, grp, inode, hg, ha, rfl⟩

theorem allocBlockPtr_consistent (hc : Consistent s) (h : s.allocBlockPtr hint = some (s', r)) :
    Consistent s' := by
  rcases allocBlockPtr_cases h with ⟨rfl, -⟩ | ⟨g, grp, bit, fb, hg, ha, -, -⟩
  · exact hc
  · exact (allocIn_spec hc hg ha).1

theorem allocInodeId_consistent (hc : Consistent s) (h : s.allocInodeId hint = some (s', r)) :
    Consistent s' := by
  rcases allocInodeId_cases h with ⟨rfl, -⟩ | ⟨g, grp, bit, hg, ha, -⟩
  · exact hc
  · exact (allocIn_spec hc hg ha).1

theorem blockSize_allocIn (h : s.allocIn k g grp = some (s', bit)) : s'.blockSize = s.blockSize := by
  obtain ⟨m', -, rfl⟩ := allocIn_eq_some h
  exact blockSize_write

/-- A block `alloc_block_ptr` returns is the block of a bit that was clear among its group's
counted bits, and freeing it gives the state back. -/
theorem allocBlockPtr_block {id : ℕ} (hc : Consistent s)
    (h : s.allocBlockPtr hint = some (s', some id)) :
    ∃ g grp bit fb, s.groups[g]? = some grp ∧ firstBlock s.blockSize = some fb ∧
      bit < s.blocksInGroup ∧ (bitsOf grp.blockBitmap)[bit]? = some false ∧
      id = g * s.blocksInGroup + bit + fb ∧ s'.freeBlockPtr id = some s := by
  rcases allocBlockPtr_cases h with ⟨-, hr⟩ | ⟨g, grp, bit, fb, hg, ha, hfb, hr⟩
  · cases hr
  · obtain ⟨-, hlt, hclear⟩ := allocIn_spec hc hg ha
    obtain ⟨m', -, rfl⟩ := allocIn_eq_some ha
    cases hr
    refine ⟨g, grp, bit, fb, hg, hfb, hlt, hclear, rfl, ?_⟩
    -- the id decodes to the group and bit it was made of
    have hlt' : bit < s.blocksInGroup := hlt
    rw [freeBlockPtr_eq (by rw [blockSize_write]; exact hfb) (by omega)
        (by rw [blocksInGroup_write]; omega),
      blocksInGroup_write, Nat.add_sub_cancel, (div_mod_encode hlt').1, (div_mod_encode hlt').2]
    exact freeIn_allocIn hg ha

/-- An inode `alloc_inode_id` returns is the inode of a bit that was clear among its group's
counted bits, and freeing it gives the state back. -/
theorem allocInodeId_inode {id : ℕ} (hc : Consistent s)
    (h : s.allocInodeId hint = some (s', some id)) :
    ∃ g grp bit, s.groups[g]? = some grp ∧ bit < s.inodesInGroup ∧
      (bitsOf grp.inodeBitmap)[bit]? = some false ∧ id = g * s.inodesInGroup + bit + 1 ∧
      s'.freeInodeId id = some s := by
  rcases allocInodeId_cases h with ⟨-, hr⟩ | ⟨g, grp, bit, hg, ha, hr⟩
  · cases hr
  · obtain ⟨-, hlt, hclear⟩ := allocIn_spec hc hg ha
    obtain ⟨m', -, rfl⟩ := allocIn_eq_some ha
    cases hr
    refine ⟨g, grp, bit, hg, hlt, hclear, rfl, ?_⟩
    have hlt' : bit < s.inodesInGroup := hlt
    rw [freeInodeId_eq (by omega) (by rw [inodesInGroup_write]; omega), inodesInGroup_write,
      Nat.add_sub_cancel, (div_mod_encode hlt').1, (div_mod_encode hlt').2]
    exact freeIn_allocIn hg ha

/-! ## Frees of allocated ids -/

/-- A block whose bit, decoded as `free_block_ptr` decodes it, is set. -/
def BlockAllocated (s : BlockGroupDescriptors) (block : ℕ) : Prop :=
  ∃ fb grp, firstBlock s.blockSize = some fb ∧ fb ≤ block ∧ 0 < s.blocksInGroup ∧
    s.groups[(block - fb) / s.blocksInGroup]? = some grp ∧
    (bitsOf grp.blockBitmap)[(block - fb) % s.blocksInGroup]? = some true

/-- An inode whose bit, decoded as `free_inode_id` decodes it, is set. -/
def InodeAllocated (s : BlockGroupDescriptors) (inode : ℕ) : Prop :=
  ∃ grp, 1 ≤ inode ∧ 0 < s.inodesInGroup ∧ s.groups[(inode - 1) / s.inodesInGroup]? = some grp ∧
    (bitsOf grp.inodeBitmap)[(inode - 1) % s.inodesInGroup]? = some true

/-- Under the field widths, the superblock's count is below the number of entries of all groups
when one group has a set bit among its counted ones. -/
theorem free_lt (ht : Tally s k) (hg : s.groups[g]? = some grp)
    (hlt : (grp.unallocated k).toNat < s.width k) :
    (s.free k).toNat < s.groups.length * s.width k := by
  obtain ⟨hlen, rfl⟩ := List.getElem?_eq_some_iff.1 hg
  have hlen' : g < (s.groups.map fun x => (x.unallocated k).toNat).length := by simpa using hlen
  have hsum := sum_set_add hlen' (s.width k)
  -- with this group counted as full, no group counts more than its width
  have hle : ((s.groups.map fun x => (x.unallocated k).toNat).set g (s.width k)).sum ≤
      s.groups.length * s.width k := by
    have := List.sum_le_card_nsmul
      ((s.groups.map fun x => (x.unallocated k).toNat).set g (s.width k)) (s.width k) (fun x hx => by
      rcases List.mem_or_eq_of_mem_set hx with hx | rfl
      · obtain ⟨y, hy, rfl⟩ := List.mem_map.1 hx
        exact (ht.groups y hy).toNat_le
      · exact le_refl _)
    simpa using this
  rw [List.getElem_map] at hsum
  rw [ht.total]
  omega

/-- Freeing an allocated bit does not panic, and keeps the counts consistent when they fit their
fields. -/
theorem freeIn_consistent (hc : Consistent s) (hgeo : Geometry s) (hg : s.groups[g]? = some grp)
    (hk : bit < s.width k) (hset : (bitsOf (grp.bitmap k))[bit]? = some true) :
    ∃ s', s.freeIn k g bit = some s' ∧ Consistent s' := by
  have hcnt := (hc k).groups grp (List.mem_of_getElem? hg)
  have hlt := hcnt.toNat_lt hk hset
  have hfree := free_lt (hc k) hg hlt
  have hw := hgeo.width k
  have htot := hgeo.total k
  exact freeIn_spec hc hg hk hset (by omega) (by omega)

theorem freeBlockPtr_consistent {block : ℕ} (hc : Consistent s) (hgeo : Geometry s)
    (ha : BlockAllocated s block) : ∃ s', s.freeBlockPtr block = some s' ∧ Consistent s' := by
  obtain ⟨fb, grp, hfb, hle, hw, hg, hset⟩ := ha
  rw [freeBlockPtr_eq hfb hle hw]
  exact freeIn_consistent hc hgeo hg (Nat.mod_lt _ hw) hset

theorem freeInodeId_consistent {inode : ℕ} (hc : Consistent s) (hgeo : Geometry s)
    (ha : InodeAllocated s inode) : ∃ s', s.freeInodeId inode = some s' ∧ Consistent s' := by
  obtain ⟨grp, h1, hw, hg, hset⟩ := ha
  rw [freeInodeId_eq h1 hw]
  exact freeIn_consistent hc hgeo hg (Nat.mod_lt _ hw) hset

/-! ## Runs -/

theorem Geometry.write (hgeo : Geometry s) : Geometry (s.write k g grp f) where
  width k' := by rw [width_write]; exact hgeo.width k'
  total k' := by rw [width_write, groups_write, List.length_set]; exact hgeo.total k'

theorem Geometry.of_allocIn (hgeo : Geometry s) (h : s.allocIn k g grp = some (s', bit)) :
    Geometry s' := by
  obtain ⟨m', -, rfl⟩ := allocIn_eq_some h
  exact hgeo.write

theorem Geometry.of_freeIn (hgeo : Geometry s) (h : s.freeIn k g bit = some s') : Geometry s' := by
  cases hg : s.groups[g]? with
  | none => simp [BlockGroupDescriptors.freeIn, hg] at h
  | some grp =>
    cases hm : freeBit (grp.bitmap k) bit with
    | none => simp [BlockGroupDescriptors.freeIn, hg, hm] at h
    | some m =>
      rw [freeIn_eq hg hm] at h
      obtain rfl := Option.some_injective _ h
      exact hgeo.write

/-- The calls that change the bitmaps. -/
inductive AllocOp
  | allocBlockPtr (hintId : ℕ)
  | freeBlockPtr (block : ℕ)
  | allocInodeId (hintId : ℕ)
  | freeInodeId (inode : ℕ)

/-- One call; `none` where it panics. -/
def step (s : BlockGroupDescriptors) : AllocOp → Option BlockGroupDescriptors
  | .allocBlockPtr hint => (s.allocBlockPtr hint).map (·.1)
  | .freeBlockPtr block => s.freeBlockPtr block
  | .allocInodeId hint => (s.allocInodeId hint).map (·.1)
  | .freeInodeId inode => s.freeInodeId inode

/-- The calls of a run: every allocation, and frees of allocated ids. -/
def OpOk (s : BlockGroupDescriptors) : AllocOp → Prop
  | .freeBlockPtr block => BlockAllocated s block
  | .freeInodeId inode => InodeAllocated s inode
  | _ => True

theorem step_consistent {op : AllocOp} (hs : Consistent s ∧ Geometry s) (hok : OpOk s op)
    (h : step s op = some s') : Consistent s' ∧ Geometry s' := by
  obtain ⟨hc, hgeo⟩ := hs
  cases op with
  | allocBlockPtr hint =>
    obtain ⟨⟨s'', r⟩, ha, rfl⟩ := Option.map_eq_some_iff.1 h
    refine ⟨allocBlockPtr_consistent hc ha, ?_⟩
    rcases allocBlockPtr_cases ha with ⟨rfl, -⟩ | ⟨g, grp, bit, fb, -, hin, -, -⟩
    · exact hgeo
    · exact hgeo.of_allocIn hin
  | allocInodeId hint =>
    obtain ⟨⟨s'', r⟩, ha, rfl⟩ := Option.map_eq_some_iff.1 h
    refine ⟨allocInodeId_consistent hc ha, ?_⟩
    rcases allocInodeId_cases ha with ⟨rfl, -⟩ | ⟨g, grp, bit, -, hin, -⟩
    · exact hgeo
    · exact hgeo.of_allocIn hin
  | freeBlockPtr block =>
    obtain ⟨s'', hf, hc''⟩ := freeBlockPtr_consistent hc hgeo hok
    obtain rfl : s'' = s' := Option.some_injective _ (hf.symm.trans h)
    obtain ⟨fb, grp, hfb, hle, hw, -, -⟩ := hok
    rw [freeBlockPtr_eq hfb hle hw] at hf
    exact ⟨hc'', hgeo.of_freeIn hf⟩
  | freeInodeId inode =>
    obtain ⟨s'', hf, hc''⟩ := freeInodeId_consistent hc hgeo hok
    obtain rfl : s'' = s' := Option.some_injective _ (hf.symm.trans h)
    obtain ⟨grp, h1, hw, -, -⟩ := hok
    rw [freeInodeId_eq h1 hw] at hf
    exact ⟨hc'', hgeo.of_freeIn hf⟩

/-! ## Consistency over runs, and where it breaks -/

/-- With the counts inside their fields, every run of allocations and of frees of allocated ids
from a consistent state keeps the counts consistent with the bitmaps. Every block and inode an
allocation returns had a clear bit among its group's counted bits, is that bit's id in its
group, and freeing it at once gives the state back. -/
theorem bitmaps_stay_consistent (hc : Consistent s) (hgeo : Geometry s) :
    (∀ ops s', Simulation.Guarded step OpOk s ops → Simulation.run step s ops = some s' →
      Consistent s') ∧
    (∀ hint s' id, s.allocBlockPtr hint = some (s', some id) →
      ∃ g grp bit fb, s.groups[g]? = some grp ∧ firstBlock s.blockSize = some fb ∧
        bit < s.blocksInGroup ∧ (bitsOf grp.blockBitmap)[bit]? = some false ∧
        id = g * s.blocksInGroup + bit + fb ∧ s'.freeBlockPtr id = some s) ∧
    (∀ hint s' id, s.allocInodeId hint = some (s', some id) →
      ∃ g grp bit, s.groups[g]? = some grp ∧ bit < s.inodesInGroup ∧
        (bitsOf grp.inodeBitmap)[bit]? = some false ∧ id = g * s.inodesInGroup + bit + 1 ∧
        s'.freeInodeId id = some s) := by
  have hstep : ∀ c o c', Consistent c ∧ Geometry c → OpOk c o → step c o = some c' →
      Consistent c' ∧ Geometry c' := fun _ _ _ => step_consistent
  refine ⟨fun ops s' hok h => ?_, fun _ _ _ h => allocBlockPtr_block hc h,
    fun _ _ _ h => allocInodeId_inode hc h⟩
  exact (Simulation.run_inv hstep ops s s' ⟨hc, hgeo⟩ hok h).1

/-- A file system of 1 KiB blocks with one group of eight blocks and eight inodes; block `0` and
inodes `1` and `2` are in use. -/
def smallFs : BlockGroupDescriptors := ⟨1024, 8, 8, 7, 6, [⟨7, 6, [0x01], [0x03]⟩]⟩

theorem bitmaps_stay_consistent_smallFs :
    (∀ ops s', Simulation.Guarded step OpOk smallFs ops → Simulation.run step smallFs ops = some s' →
      Consistent s') ∧
    (∀ hint s' id, smallFs.allocBlockPtr hint = some (s', some id) →
      ∃ g grp bit fb, smallFs.groups[g]? = some grp ∧ firstBlock smallFs.blockSize = some fb ∧
        bit < smallFs.blocksInGroup ∧ (bitsOf grp.blockBitmap)[bit]? = some false ∧
        id = g * smallFs.blocksInGroup + bit + fb ∧ s'.freeBlockPtr id = some smallFs) ∧
    (∀ hint s' id, smallFs.allocInodeId hint = some (s', some id) →
      ∃ g grp bit, smallFs.groups[g]? = some grp ∧ bit < smallFs.inodesInGroup ∧
        (bitsOf grp.inodeBitmap)[bit]? = some false ∧ id = g * smallFs.inodesInGroup + bit + 1 ∧
        s'.freeInodeId id = some smallFs) :=
  bitmaps_stay_consistent
    (fun k => by
      cases k
      · exact ⟨fun grp hgrp => by
          simp only [smallFs, List.mem_singleton] at hgrp
          subst hgrp
          exact Counted.of_length (by decide) (by decide), by decide⟩
      · exact ⟨fun grp hgrp => by
          simp only [smallFs, List.mem_singleton] at hgrp
          subst hgrp
          exact Counted.of_length (by decide) (by decide), by decide⟩)
    ⟨fun k => by cases k <;> decide, fun k => by cases k <;> decide⟩

/-- A group of `2 ^ 16` blocks of 8 KiB, all free but block `0`: its count of unallocated blocks
is at the top of its 16 bits. -/
def wideGroupFs : BlockGroupDescriptors :=
  ⟨8192, 65536, 8, 65535, 0, [⟨65535, 0, 0x01 :: List.replicate 8191 0, [0xff]⟩]⟩

/-- The counts of `wideGroupFs` agree with its bitmaps and block `0` is allocated, but freeing it
wraps the group's count of unallocated blocks to `0` while the superblock counts `2 ^ 16`: the
counts no longer agree. -/
theorem free_wraps_unallocated :
    Consistent wideGroupFs ∧ BlockAllocated wideGroupFs 0 ∧
      ∃ s', wideGroupFs.freeBlockPtr 0 = some s' ∧ s'.groups.map (·.unallocatedBlocks) = [0] ∧
        s'.freeBlocks = 65536 ∧ ¬ Consistent s' := by
  have hbits : bitsOf (0x01 :: List.replicate 8191 0) = bits 0x01 ++ bitsOf (List.replicate 8191 0) :=
    bitsOf_cons _ _
  refine ⟨fun k => ?_, ⟨0, _, rfl, le_refl _, by decide, rfl, ?_⟩, ?_⟩
  · -- all the bits of the group are counted: 65535 clear ones, and the inodes all in use
    cases k
    · refine ⟨fun grp hgrp => ?_, by decide⟩
      simp only [wideGroupFs, List.mem_singleton] at hgrp
      subst hgrp
      refine Counted.of_length ?_ ?_
      · show (bitsOf (0x01 :: List.replicate 8191 0)).length ≤ 65536
        rw [length_bitsOf, List.length_cons, List.length_replicate]
      · show (65535 : BitVec 16).toNat = (bitsOf (0x01 :: List.replicate 8191 0)).count false
        rw [hbits, List.count_append, count_bitsOf_replicate]
        decide
    · refine ⟨fun grp hgrp => ?_, by decide⟩
      simp only [wideGroupFs, List.mem_singleton] at hgrp
      subst hgrp
      exact Counted.of_length (by decide) (by decide)
  · show (bitsOf (0x01 :: List.replicate 8191 0))[0 % 65536]? = some true
    rw [hbits, List.getElem?_append_left (by simp)]
    decide
  · refine ⟨⟨8192, 65536, 8, 65536, 0, [⟨0, 0, 0x00 :: List.replicate 8191 0, [0xff]⟩]⟩, rfl, rfl,
      rfl, fun hc => ?_⟩
    exact absurd (hc .blocks).total (by decide)

end Cykusz.Fs.Ext2
