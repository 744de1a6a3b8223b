import Mathlib

/-!
# Bit fields of machine words

A field of a word is the set of its bits under a mask. A field is written by clearing the mask
and or-ing the new bits in: `x &&& ~~~m ||| v`. The lemmas say what such a write leaves under the
mask itself (`clearOr_and_self`) and under any disjoint mask (`clearOr_and_of_disjoint`), and that a
test of bits inside a field reads only that field (`and_eq_of_and_not`).
-/

namespace BitField

variable {w : ℕ} {x v f m m' : BitVec w}

theorem getElem_and_eq_false (h : m &&& m' = 0) {i : ℕ} (hi : i < w) :
    (m[i] && m'[i]) = false := by
  simpa using congrArg (fun y : BitVec w => y[i]) h

/-- A write under `m` leaves the bits under a disjoint mask `m'` to the old word and to the
written bits. -/
theorem clearOr_and_of_disjoint (h : m &&& m' = 0) :
    (x &&& ~~~m ||| v) &&& m' = x &&& m' ||| v &&& m' := by
  ext i hi
  have hb := getElem_and_eq_false h hi
  simp only [BitVec.getElem_and, BitVec.getElem_or, BitVec.getElem_not]
  cases hm : m[i] <;> cases hm' : m'[i] <;> simp_all

/-- Read back under the mask, a write gives the written bits under the mask. -/
theorem clearOr_and_self : (x &&& ~~~m ||| v) &&& m = v &&& m := by
  ext i hi
  simp only [BitVec.getElem_and, BitVec.getElem_or, BitVec.getElem_not]
  cases hm : m[i] <;> simp

/-- Bits inside the mask are read back whole. -/
theorem and_eq_self (h : v &&& ~~~m = 0) : v &&& m = v := by
  ext i hi
  have hb := getElem_and_eq_false h hi
  simp only [BitVec.getElem_and]
  cases hm : m[i] <;> cases hv : v[i] <;> simp_all

/-- A test of bits `f` inside the field `m` reads only that field. -/
theorem and_eq_of_and_not (h : f &&& ~~~m = 0) : x &&& f = x &&& m &&& f := by
  ext i hi
  have hb := getElem_and_eq_false h hi
  simp only [BitVec.getElem_and]
  cases hm : m[i] <;> cases hf : f[i] <;> simp_all

/-- Bits inside a field `m` are outside any mask disjoint from it. -/
theorem and_eq_zero_of_and_not (hv : v &&& ~~~m = 0) (h : m &&& m' = 0) : v &&& m' = 0 := by
  rw [← and_eq_self hv, BitVec.and_assoc, h]
  simp

/-- Bits set outside a field leave the field. -/
theorem or_and_of_disjoint (h : v &&& m = 0) : (x ||| v) &&& m = x &&& m := by
  ext i hi
  have hb := getElem_and_eq_false h hi
  simp only [BitVec.getElem_and, BitVec.getElem_or]
  cases hm : m[i] <;> cases hv : v[i] <;> simp_all

/-- Bits cleared outside a field leave the field. -/
theorem and_not_and_of_disjoint (h : v &&& m = 0) : x &&& ~~~v &&& m = x &&& m := by
  ext i hi
  have hb := getElem_and_eq_false h hi
  simp only [BitVec.getElem_and, BitVec.getElem_not]
  cases hm : m[i] <;> cases hv : v[i] <;> simp_all

/-- Two sets of bits inside a field make bits inside it. -/
theorem or_and_not_eq_zero (hx : x &&& ~~~m = 0) (hv : v &&& ~~~m = 0) :
    (x ||| v) &&& ~~~m = 0 := by
  ext i hi
  have hbx := getElem_and_eq_false hx hi
  have hbv := getElem_and_eq_false hv hi
  simp only [BitVec.getElem_and, BitVec.getElem_or, BitVec.getElem_not]
  cases hm : m[i] <;> cases hx' : x[i] <;> cases hv' : v[i] <;> simp_all

end BitField
