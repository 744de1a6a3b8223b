import Mathlib
import Cykusz.Lib.Bitmap
import Cykusz.Mm.Buddy

/-!
# What the bitmaps of the buddy allocator stand for

Bit `i` of the bitmap of order `o` stands for the block of size `BSIZE[o]` at
`blockAddr o i = align_up(start, BSIZE[o]) + BSIZE[o] · i` (the address `find_free` returns for
it), and an aligned address `a ≥ start` has the slot `(a - start) / BSIZE[o]` (`get_byte_bit`).
The two are inverse (`slot_blockAddr`, `blockAddr_slot`), so the set bits of a state are a set
of blocks, `freeSet`. Each primitive is then specified by what it does to that set:
`setBit_spec`, `clearBit_spec` and `findFree_spec`, from which the loops are specified.
-/

namespace Cykusz.Buddy

open Align

/-! ## Block sizes -/

theorem bsize_eq (o : Order) : bsize o = 0x1000 * 2 ^ o.val := by
  fin_cases o <;> rfl

theorem bsize_pos (o : Order) : 0 < bsize o := by
  rw [bsize_eq]
  exact Nat.mul_pos (by decide) (Nat.two_pow_pos o.val)

/-- The next order's blocks are twice as large. -/
theorem bsize_succ (o : Order) (h : o.val + 1 < buddyCount) :
    bsize ⟨o.val + 1, h⟩ = 2 * bsize o := by
  rw [bsize_eq, bsize_eq, Fin.val_mk, Nat.pow_succ]
  omega

theorem bsize_dvd_bsize {o o' : Order} (h : o ≤ o') : bsize o ∣ bsize o' := by
  rw [bsize_eq, bsize_eq]
  exact Nat.mul_dvd_mul_left _ (Nat.pow_dvd_pow 2 h)

theorem bsize_le_bsize {o o' : Order} (h : o ≤ o') : bsize o ≤ bsize o' :=
  Nat.le_of_dvd (bsize_pos o') (bsize_dvd_bsize h)

theorem alignUp_eq_roundUp (a m : ℕ) : alignUp a m = roundUp a m := rfl

theorem alignDown_eq_roundDown (a m : ℕ) : alignDown a m = roundDown a m := rfl

/-! ## Blocks -/

/-- A block of the allocator: its address and order. -/
structure Block where
  addr : ℕ
  order : Order
deriving DecidableEq

namespace Block

/-- The bytes of a block. -/
def ival (b : Block) : Set ℕ := block b.addr (bsize b.order)

theorem ival_nonempty (b : Block) : b.ival.Nonempty := block_nonempty (bsize_pos b.order)

theorem ne_of_disjoint {b c : Block} (h : Disjoint b.ival c.ival) : b ≠ c := by
  rintro rfl
  exact (b.ival_nonempty.ne_empty) (disjoint_self.1 h)

/-- A block is not disjoint from a set it lies in. -/
theorem not_disjoint_of_subset {b : Block} {X : Set ℕ} (h : b.ival ⊆ X) : ¬Disjoint b.ival X := by
  obtain ⟨x, hx⟩ := b.ival_nonempty
  exact fun hd => Set.disjoint_left.1 hd hx (h hx)

end Block

namespace BuddyAlloc

variable {s s₁ : BuddyAlloc} {o : Order} {a : ℕ}

/-- The address of the block that bit `i` of the bitmap of `o` stands for. -/
def blockAddr (s : BuddyAlloc) (o : Order) (i : ℕ) : ℕ := alignUp s.start (bsize o) + bsize o * i

/-- The slot of `a` in the bitmap of `o`: `get_byte_bit` with its word and bit joined. -/
def slot (s : BuddyAlloc) (a : ℕ) (o : Order) : ℕ := (a - s.start) / bsize o

/-- A block is placed when it is aligned to its size and does not start below `start`: exactly
the blocks a bit can stand for. -/
def Placed (s : BuddyAlloc) (b : Block) : Prop := bsize b.order ∣ b.addr ∧ s.start ≤ b.addr

/-- The free blocks: those whose bit is set. -/
def freeSet (s : BuddyAlloc) : Set Block :=
  {b | ∃ i, (s.buddies b.order)[i]? = some true ∧ b.addr = s.blockAddr b.order i}

theorem slot_blockAddr (s : BuddyAlloc) (o : Order) (i : ℕ) : s.slot (s.blockAddr o i) o = i :=
  roundUp_add_sub_div _ _ i (bsize_pos o)

theorem blockAddr_slot (h : s.Placed ⟨a, o⟩) : s.blockAddr o (s.slot a o) = a :=
  roundUp_add_sub_div_mul (bsize_pos o) h.1 h.2

theorem placed_blockAddr (s : BuddyAlloc) (o : Order) (i : ℕ) : s.Placed ⟨s.blockAddr o i, o⟩ :=
  ⟨Nat.dvd_add (dvd_roundUp _ _) (Nat.dvd_mul_right _ _),
    (le_roundUp _ _ (bsize_pos o)).trans (Nat.le_add_right _ _)⟩

theorem blockAddr_inj {i j : ℕ} (h : s.blockAddr o i = s.blockAddr o j) : i = j := by
  have := congrArg (s.slot · o) h
  simpa only [slot_blockAddr] using this

theorem placed_of_mem_freeSet {b : Block} (h : b ∈ s.freeSet) : s.Placed b := by
  obtain ⟨i, -, hi⟩ := h
  obtain ⟨addr, order⟩ := b
  simp only at hi
  subst hi
  exact placed_blockAddr s order i

/-- For a placed block, being free is having the bit of its slot set. -/
theorem mem_freeSet_iff (h : s.Placed ⟨a, o⟩) :
    (⟨a, o⟩ : Block) ∈ s.freeSet ↔ (s.buddies o)[s.slot a o]? = some true := by
  constructor
  · rintro ⟨i, hi, ha⟩
    simp only at hi ha
    rwa [ha, slot_blockAddr]
  · intro hb
    exact ⟨s.slot a o, hb, (blockAddr_slot h).symm⟩

/-- The word and bit `get_byte_bit` computes address the slot. -/
theorem getByteBit_eq (h : s.start ≤ a) :
    s.getByteBit a o = some (s.slot a o / bmtypeBits, s.slot a o % bmtypeBits) := by
  simp [getByteBit, h, slot]

theorem byte_bit_eq (n : ℕ) : n / bmtypeBits * bmtypeBits + n % bmtypeBits = n := by
  rw [Nat.mul_comm]
  exact Nat.div_add_mod n bmtypeBits

/-! ## One bit changed -/

/-- The state with bit `p` of the bitmap of `o` set to `v` and the count of `o` set to `c`. -/
def withBit (s : BuddyAlloc) (o : Order) (p : ℕ) (v : Bool) (c : ℕ) : BuddyAlloc :=
  { s with
    buddies := Function.update s.buddies o ((s.buddies o).set p v)
    freecnt := Function.update s.freecnt o c }

/-- Two states that differ at most in the contents of their bitmaps and counts. -/
structure SameShape (s s' : BuddyAlloc) : Prop where
  start : s'.start = s.start
  «end» : s'.«end» = s.«end»
  ranges : s'.ranges = s.ranges
  len : ∀ o, (s'.buddies o).length = (s.buddies o).length

theorem SameShape.refl (s : BuddyAlloc) : SameShape s s := ⟨rfl, rfl, rfl, fun _ => rfl⟩

theorem SameShape.trans {s₂ : BuddyAlloc} (h₁ : SameShape s s₁) (h₂ : SameShape s₁ s₂) :
    SameShape s s₂ :=
  ⟨h₂.start.trans h₁.start, h₂.end.trans h₁.end, h₂.ranges.trans h₁.ranges,
    fun o => (h₂.len o).trans (h₁.len o)⟩

theorem sameShape_withBit (s : BuddyAlloc) (o : Order) (p : ℕ) (v : Bool) (c : ℕ) :
    SameShape s (s.withBit o p v c) := by
  refine ⟨rfl, rfl, rfl, fun o' => ?_⟩
  by_cases h : o' = o
  · subst h
    simp [withBit]
  · simp [withBit, h]

theorem SameShape.freeSet_blockAddr {s' : BuddyAlloc} (h : SameShape s s') (o : Order) (i : ℕ) :
    s'.blockAddr o i = s.blockAddr o i := by
  simp only [blockAddr, h.start]

theorem SameShape.placed_iff {s' : BuddyAlloc} (h : SameShape s s') {b : Block} :
    s'.Placed b ↔ s.Placed b := by
  simp only [Placed, h.start]

/-- The counts match the bitmaps. -/
def CountOk (s : BuddyAlloc) : Prop := ∀ o, s.freecnt o = (s.buddies o).count true

theorem countOk_withBit_true (hc : s.CountOk) {p : ℕ} (hb : (s.buddies o)[p]? = some false) :
    (s.withBit o p true (s.freecnt o + 1)).CountOk := by
  intro o'
  by_cases h : o' = o
  · subst h
    simp [withBit, Bitmap.count_set_true hb, hc o']
  · simp [withBit, h, hc o']

theorem countOk_withBit_false (hc : s.CountOk) {p : ℕ} (hb : (s.buddies o)[p]? = some true) :
    (s.withBit o p false (s.freecnt o - 1)).CountOk := by
  intro o'
  by_cases h : o' = o
  · subst h
    have := Bitmap.count_set_false hb
    simp only [withBit, Function.update_self, hc o']
    omega
  · simp [withBit, h, hc o']

/-- Setting bit `p` adds the block it stands for. -/
theorem freeSet_withBit_true (s : BuddyAlloc) (o : Order) {p : ℕ}
    (hp : p < (s.buddies o).length) (c : ℕ) :
    (s.withBit o p true c).freeSet = insert ⟨s.blockAddr o p, o⟩ s.freeSet := by
  ext ⟨a, o'⟩
  by_cases h : o' = o
  · subst h
    simp only [freeSet, withBit, blockAddr, Set.mem_insert_iff, Set.mem_ofPred_eq,
      Block.mk.injEq, Function.update_self, Bitmap.getElem?_set_true, and_true]
    constructor
    · rintro ⟨i, ⟨rfl, -⟩ | ⟨-, hi⟩, rfl⟩
      · exact Or.inl rfl
      · exact Or.inr ⟨i, hi, rfl⟩
    · rintro (rfl | ⟨i, hi, rfl⟩)
      · exact ⟨p, Or.inl ⟨rfl, hp⟩, rfl⟩
      · by_cases hpi : i = p
        · subst hpi
          exact ⟨i, Or.inl ⟨rfl, hp⟩, rfl⟩
        · exact ⟨i, Or.inr ⟨hpi, hi⟩, rfl⟩
  · simp [freeSet, withBit, h, blockAddr]

/-- Clearing bit `p` removes the block it stands for. -/
theorem freeSet_withBit_false (s : BuddyAlloc) (o : Order) (p : ℕ) (c : ℕ) :
    (s.withBit o p false c).freeSet = s.freeSet \ {⟨s.blockAddr o p, o⟩} := by
  ext ⟨a, o'⟩
  by_cases h : o' = o
  · subst h
    simp only [freeSet, withBit, Set.mem_sdiff, Set.mem_singleton_iff, Set.mem_ofPred_eq,
      Block.mk.injEq, Function.update_self, Bitmap.getElem?_set_false, and_true]
    constructor
    · rintro ⟨i, ⟨hpi, hi⟩, rfl⟩
      exact ⟨⟨i, hi, rfl⟩, fun he => hpi (blockAddr_inj he)⟩
    · rintro ⟨⟨i, hi, rfl⟩, hne⟩
      refine ⟨i, ⟨fun hpi => hne ?_, hi⟩, rfl⟩
      rw [hpi]
  · simp [freeSet, withBit, h, blockAddr]

/-! ## The primitives -/

theorem setBit_eq_some {c : Bool} (h : s.setBit a o = some (c, s₁)) :
    s.start ≤ a ∧ ∃ b, (s.buddies o)[s.slot a o]? = some b ∧
      (b = false ∧ c = true ∧ s₁ = s.withBit o (s.slot a o) true (s.freecnt o + 1) ∨
        b = true ∧ c = false ∧ s = s₁) := by
  by_cases hs : s.start ≤ a
  · refine ⟨hs, ?_⟩
    simp only [setBit, getByteBit_eq hs, byte_bit_eq, Option.bind_eq_bind, Option.bind_some]
      at h
    cases hb : (s.buddies o)[s.slot a o]? with
    | none => simp [hb] at h
    | some b =>
      cases b
      · simp only [hb, Option.bind_some, ite_true, Option.some.injEq, Prod.mk.injEq] at h
        obtain ⟨rfl, rfl⟩ := h
        simp [withBit]
      · simp only [hb, Option.bind_some, Bool.true_eq_false, ite_false, Option.some.injEq,
          Prod.mk.injEq] at h
        obtain ⟨rfl, rfl⟩ := h
        simp
  · simp [setBit, getByteBit, hs] at h

/-- `set_bit` on a placed block makes it free, and reports whether it was not. -/
theorem setBit_spec {c : Bool} (ha : s.Placed ⟨a, o⟩) (h : s.setBit a o = some (c, s₁)) :
    SameShape s s₁ ∧ (s.CountOk → s₁.CountOk) ∧
      (c = true ↔ (⟨a, o⟩ : Block) ∉ s.freeSet) ∧ s₁.freeSet = insert ⟨a, o⟩ s.freeSet := by
  obtain ⟨-, b, hb, ⟨rfl, rfl, rfl⟩ | ⟨rfl, rfl, rfl⟩⟩ := setBit_eq_some h
  · have hp := Bitmap.lt_length_of_getElem? hb
    have hfree : (⟨a, o⟩ : Block) ∉ s.freeSet := by simp [mem_freeSet_iff ha, hb]
    refine ⟨sameShape_withBit .., fun hc => countOk_withBit_true hc hb, by simp [hfree], ?_⟩
    rw [freeSet_withBit_true s o hp, blockAddr_slot ha]
  · have hfree : (⟨a, o⟩ : Block) ∈ s.freeSet := (mem_freeSet_iff ha).2 hb
    exact ⟨SameShape.refl s, id, by simp [hfree], (Set.insert_eq_of_mem hfree).symm⟩

/-- `set_bit` of a placed block whose slot is in its bitmap and which is not free sets its bit
and reports it. -/
theorem setBit_of_not_mem (ha : s.Placed ⟨a, o⟩) (hlen : s.slot a o < (s.buddies o).length)
    (hfree : (⟨a, o⟩ : Block) ∉ s.freeSet) : ∃ s₁, s.setBit a o = some (true, s₁) := by
  have hb : (s.buddies o)[s.slot a o]? = some false := by
    rw [List.getElem?_eq_getElem hlen, Option.some.injEq, Bool.eq_false_iff]
    intro htrue
    exact hfree ((mem_freeSet_iff ha).2 (by rw [List.getElem?_eq_getElem hlen, htrue]))
  simp [setBit, getByteBit_eq ha.2, byte_bit_eq, hb]

theorem clearBit_eq_some {c : Bool} (h : s.clearBit a o = some (c, s₁)) :
    (a < s.start ∧ c = false ∧ s = s₁) ∨ s.start ≤ a ∧ ∃ b, (s.buddies o)[s.slot a o]? = some b ∧
      (b = true ∧ c = true ∧ s₁ = s.withBit o (s.slot a o) false (s.freecnt o - 1) ∨
        b = false ∧ c = false ∧ s = s₁) := by
  by_cases hs : a < s.start
  · simp only [clearBit, hs, ite_true, Option.some.injEq, Prod.mk.injEq] at h
    exact Or.inl ⟨hs, h.1.symm, h.2⟩
  · have hs' : s.start ≤ a := by omega
    refine Or.inr ⟨hs', ?_⟩
    simp only [clearBit, hs, ite_false, getByteBit_eq hs', byte_bit_eq, Option.bind_eq_bind,
      Option.bind_some] at h
    cases hb : (s.buddies o)[s.slot a o]? with
    | none => simp [hb] at h
    | some b =>
      cases b
      · simp only [hb, Option.bind_some, Bool.false_eq_true, ite_false, Option.some.injEq,
          Prod.mk.injEq] at h
        obtain ⟨rfl, rfl⟩ := h
        simp
      · by_cases hz : s.freecnt o = 0
        · simp [hb, hz] at h
        · simp only [hb, Option.bind_some, ite_true, hz, ite_false, Option.some.injEq,
            Prod.mk.injEq] at h
          obtain ⟨rfl, rfl⟩ := h
          simp [withBit]

/-- `clear_bit` on an aligned block makes it not free, and reports whether it was. -/
theorem clearBit_spec {c : Bool} (ha : bsize o ∣ a) (h : s.clearBit a o = some (c, s₁)) :
    SameShape s s₁ ∧ (s.CountOk → s₁.CountOk) ∧
      (c = true ↔ (⟨a, o⟩ : Block) ∈ s.freeSet) ∧ s₁.freeSet = s.freeSet \ {⟨a, o⟩} := by
  rcases clearBit_eq_some h with ⟨hs, rfl, rfl⟩ | ⟨hs, b, hb, ⟨rfl, rfl, rfl⟩ | ⟨rfl, rfl, rfl⟩⟩
  · have hfree : (⟨a, o⟩ : Block) ∉ s.freeSet := fun hm => by
      have := (placed_of_mem_freeSet hm).2
      simp only at this
      omega
    exact ⟨SameShape.refl s, id, by simp [hfree], (Set.sdiff_singleton_eq_self hfree).symm⟩
  · have hfree : (⟨a, o⟩ : Block) ∈ s.freeSet := (mem_freeSet_iff ⟨ha, hs⟩).2 hb
    refine ⟨sameShape_withBit .., fun hc => countOk_withBit_false hc hb, by simp [hfree], ?_⟩
    rw [freeSet_withBit_false s o, blockAddr_slot ⟨ha, hs⟩]
  · have hfree : (⟨a, o⟩ : Block) ∉ s.freeSet := by simp [mem_freeSet_iff ⟨ha, hs⟩, hb]
    exact ⟨SameShape.refl s, id, by simp [hfree], (Set.sdiff_singleton_eq_self hfree).symm⟩

theorem findFree_eq_some (h : s.findFree o = some (a, s₁)) :
    ∃ j, (s.buddies o)[j]? = some true ∧ s.freecnt o ≠ 0 ∧ a = s.blockAddr o j ∧
      s₁ = s.withBit o j false (s.freecnt o - 1) := by
  unfold findFree at h
  cases hj : (s.buddies o).findIdx? (· == true) with
  | none => rw [hj] at h; cases h
  | some j =>
    rw [hj] at h
    by_cases hz : s.freecnt o = 0
    · simp [hz] at h
    · simp only [hz, ite_false, Option.some.injEq, Prod.mk.injEq] at h
      obtain ⟨rfl, rfl⟩ := h
      -- the word and the bit of the first set bit name the block of its slot
      have haddr : alignUp s.start (bsize o) + bsize o * bmtypeBits * (j / bmtypeBits) +
          bsize o * (j % bmtypeBits) = s.blockAddr o j := by
        rw [blockAddr, Nat.mul_assoc, Nat.add_assoc, ← Nat.mul_add, Nat.div_add_mod]
      exact ⟨j, Bitmap.getElem?_findIdx? hj, hz, haddr, rfl⟩

/-- `find_free` takes a free block of its order out of the free set and returns it. -/
theorem findFree_spec (h : s.findFree o = some (a, s₁)) :
    (⟨a, o⟩ : Block) ∈ s.freeSet ∧ SameShape s s₁ ∧ (s.CountOk → s₁.CountOk) ∧
      s₁.freeSet = s.freeSet \ {⟨a, o⟩} := by
  obtain ⟨j, hb, -, rfl, rfl⟩ := findFree_eq_some h
  exact ⟨⟨j, hb, rfl⟩, sameShape_withBit s o j false _,
    fun hc => countOk_withBit_false hc hb, freeSet_withBit_false s o j _⟩

/-! ## Free memory -/

theorem freeMem_eq_sum (s : BuddyAlloc) : s.freeMem = ∑ i, s.freecnt i * bsize i := by
  rw [freeMem, Fin.sum_univ_def, ← List.foldl_map (g := fun acc x => acc + x), List.sum_eq_foldl]

/-- Changing the count of one order moves `free_mem` by that order's blocks. -/
theorem freeMem_withBit (s : BuddyAlloc) (o : Order) (p : ℕ) (v : Bool) (c : ℕ) :
    (s.withBit o p v c).freeMem + s.freecnt o * bsize o = s.freeMem + c * bsize o := by
  simp only [freeMem_eq_sum, withBit]
  rw [← Finset.add_sum_erase _ _ (Finset.mem_univ o), ← Finset.add_sum_erase _ _ (Finset.mem_univ o),
    Finset.sum_congr rfl fun i hi => by rw [Function.update_of_ne (Finset.ne_of_mem_erase hi)],
    Function.update_self]
  ring

/-- A block `set_bit` marks free adds its size to `free_mem`. -/
theorem setBit_freeMem (h : s.setBit a o = some (true, s₁)) : s₁.freeMem = s.freeMem + bsize o := by
  obtain ⟨-, b, -, ⟨-, -, rfl⟩ | ⟨-, h, -⟩⟩ := setBit_eq_some h
  · have := freeMem_withBit s o (s.slot a o) true (s.freecnt o + 1)
    rw [Nat.succ_mul] at this
    omega
  · cases h

/-- The block `find_free` takes out removes its size from `free_mem`. -/
theorem findFree_freeMem (h : s.findFree o = some (a, s₁)) : s₁.freeMem + bsize o = s.freeMem := by
  obtain ⟨j, -, hz, -, rfl⟩ := findFree_eq_some h
  -- the count was positive, so it drops by exactly one
  obtain ⟨n, hn⟩ := Nat.exists_eq_succ_of_ne_zero hz
  have := freeMem_withBit s o j false (s.freecnt o - 1)
  rw [hn, Nat.succ_sub_one, Nat.succ_mul] at this
  rw [hn, Nat.succ_sub_one]
  omega

end BuddyAlloc

end Cykusz.Buddy
