import Mathlib

/-!
# Bytes as bits

`getBit` and `setBit` are the byte operations of the `bit_field` crate: bit `i` of a byte is
`b & (1 << i) != 0`, and setting it ors in that mask, or ands out its complement. A list of bytes
is read as its bits, the least significant first in each byte (`bitsOf`): bit `8 * i + j` of the
list is bit `j` of byte `i` (`getElem?_bitsOf`), and setting a bit of one byte sets that bit of
the list (`bitsOf_set_setBit`). The first clear bit of a byte, searched bit by bit, is its first
clear bit as a list (`find?_range_eq_findIdx?`).
-/

namespace ByteBits

/-- `BitField::get_bit` on a byte. -/
def getBit (b : UInt8) (i : ℕ) : Bool := b &&& (1 <<< i.toUInt8) != 0

/-- `BitField::set_bit` on a byte. -/
def setBit (b : UInt8) (i : ℕ) (v : Bool) : UInt8 :=
  if v then b ||| (1 <<< i.toUInt8) else b &&& ~~~(1 <<< i.toUInt8)

/-- The bits of a byte, the least significant first. -/
def bits (b : UInt8) : List Bool := (List.range 8).map (getBit b)

/-- The bits of a list of bytes, byte after byte. -/
def bitsOf (m : List UInt8) : List Bool := m.flatMap bits

variable {b : UInt8} {i j : ℕ} {v : Bool}

theorem toNat_mask (hi : i < 8) : ((1 : UInt8) <<< i.toUInt8).toNat = 2 ^ i := by
  have hi' : i.toUInt8.toNat = i := by
    simp only [Nat.toUInt8, UInt8.toNat_ofNat']
    omega
  rw [UInt8.toNat_shiftLeft, hi', Nat.mod_eq_of_lt (by omega : i < 8)]
  simp only [UInt8.toNat_one, Nat.one_shiftLeft]
  exact Nat.mod_eq_of_lt (Nat.pow_lt_pow_right (by norm_num) hi)

theorem getBit_eq_testBit (hi : i < 8) : getBit b i = b.toNat.testBit i := by
  have hand : (b &&& (1 <<< i.toUInt8)).toNat = (b.toNat.testBit i).toNat * 2 ^ i := by
    rw [UInt8.toNat_and, toNat_mask hi, Nat.and_two_pow]
  rw [getBit]
  cases ht : b.toNat.testBit i <;> simp [UInt8.ext_iff, hand, ht]

/-- The bit of a byte's complement mask: every bit but `i`. -/
theorem testBit_not_mask : ∀ i < 8, ∀ j < 8, (255 - 2 ^ i).testBit j = (j != i) := by
  decide

theorem testBit_setBit (hi : i < 8) (hj : j < 8) :
    (setBit b i v).toNat.testBit j = if j = i then v else b.toNat.testBit j := by
  have hmask := toNat_mask hi
  cases v
  · rw [setBit, if_neg (by simp), UInt8.toNat_and, UInt8.toNat_not, hmask, Nat.testBit_and]
    simp only [UInt8.size, Nat.add_one_sub_one]
    rw [testBit_not_mask i hi j hj]
    by_cases hji : j = i <;> simp [hji]
  · rw [setBit, if_pos rfl, UInt8.toNat_or, hmask, Nat.testBit_or, Nat.testBit_two_pow]
    by_cases hji : j = i
    · simp [hji]
    · simp [hji, Ne.symm hji]

theorem getBit_setBit (hi : i < 8) (hj : j < 8) :
    getBit (setBit b i v) j = if j = i then v else getBit b j := by
  rw [getBit_eq_testBit hj, getBit_eq_testBit hj, testBit_setBit hi hj]

@[simp] theorem length_bits : (bits b).length = 8 := by simp [bits]

theorem getElem_bits (hj : j < (bits b).length) : (bits b)[j] = getBit b j := by
  simp [bits]

theorem bits_setBit (hi : i < 8) : bits (setBit b i v) = (bits b).set i v := by
  apply List.ext_getElem (by simp)
  intro j h₁ h₂
  simp only [length_bits] at h₁
  rw [getElem_bits, getBit_setBit hi h₁, List.getElem_set, getElem_bits]
  by_cases hji : j = i
  · simp [hji]
  · simp [hji, Ne.symm hji]

@[simp] theorem bitsOf_nil : bitsOf [] = [] := rfl

@[simp] theorem bitsOf_cons (b : UInt8) (m : List UInt8) : bitsOf (b :: m) = bits b ++ bitsOf m :=
  List.flatMap_cons

@[simp] theorem length_bitsOf (m : List UInt8) : (bitsOf m).length = 8 * m.length := by
  induction m with
  | nil => rfl
  | cons b m ih =>
    rw [bitsOf_cons, List.length_append, length_bits, ih, List.length_cons]
    ring

/-- Bit `8 * i + j` of a list of bytes is bit `j` of byte `i`. -/
theorem getElem?_bitsOf (m : List UInt8) (hj : j < 8) :
    (bitsOf m)[8 * i + j]? = m[i]?.map (getBit · j) := by
  induction m generalizing i with
  | nil => simp
  | cons b m ih =>
    rw [bitsOf_cons]
    cases i with
    | zero =>
      rw [List.getElem?_append_left (by simpa using hj)]
      simp [bits, hj]
    | succ i =>
      rw [List.getElem?_append_right (by simp; omega), length_bits,
        show 8 * (i + 1) + j - 8 = 8 * i + j by omega, ih]
      simp

/-- Setting bit `j` of byte `i` sets bit `8 * i + j` of the list. -/
theorem bitsOf_set_setBit {m : List UInt8} (hi : i < m.length) (hj : j < 8) :
    bitsOf (m.set i (setBit m[i] j v)) = (bitsOf m).set (8 * i + j) v := by
  induction m generalizing i with
  | nil => simp at hi
  | cons b m ih =>
    cases i with
    | zero =>
      simp only [List.set_cons_zero, List.getElem_cons_zero, bitsOf_cons, Nat.mul_zero,
        Nat.zero_add]
      rw [bits_setBit hj, List.set_append_left _ _ (by simpa using hj)]
    | succ i =>
      simp only [List.set_cons_succ, List.getElem_cons_succ, bitsOf_cons]
      rw [ih (by simpa using hi), List.set_append_right _ _ (by simp; omega), length_bits,
        show 8 * (i + 1) + j - 8 = 8 * i + j by omega]

/-- On a range, the first index found is the first element found. -/
theorem find?_range_eq_findIdx? (p : ℕ → Bool) (n : ℕ) :
    (List.range n).find? p = (List.range n).findIdx? p := by
  induction n with
  | zero => rfl
  | succ n ih =>
    rw [List.range_succ, List.find?_append, List.findIdx?_append, ih, List.length_range]
    cases p n <;> simp [*]

/-- Searching a byte bit by bit for a clear bit finds its first clear bit. -/
theorem find?_clear_eq (b : UInt8) :
    (List.range 8).find? (fun k => !getBit b k) = (bits b).findIdx? (· == false) := by
  rw [find?_range_eq_findIdx?, bits, List.findIdx?_map]
  congr 1
  funext k
  simp

theorem count_bitsOf_replicate (a : Bool) (n : ℕ) (b : UInt8) :
    (bitsOf (List.replicate n b)).count a = n * (bits b).count a := by
  induction n with
  | zero => simp
  | succ n ih =>
    rw [List.replicate_succ, bitsOf_cons, List.count_append, ih]
    ring

/-- Every bit of `0xff` is set. -/
theorem bits_ff : bits 0xff = List.replicate 8 true := by decide

end ByteBits
