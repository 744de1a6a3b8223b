import Mathlib

/-!
# Machine-word helpers of the kernel

`usize` is a `BitVec 64`, and the kernel is built without overflow checks, so its arithmetic
wraps. `core::cmp::min` and `max` on machine words, and `Align::align_down` and `align_up` of
`kernel::utils::types`, which mask for a power of two and subtract the remainder otherwise.
-/

namespace Cykusz.Kernel

instance bitVecMin {w : ℕ} : Min (BitVec w) := minOfLe

instance bitVecMax {w : ℕ} : Max (BitVec w) := maxOfLe

@[simp] theorem toNat_min {w : ℕ} (a b : BitVec w) : (min a b).toNat = min a.toNat b.toNat := by
  change (if a ≤ b then a else b).toNat = _
  split_ifs with h
  · rw [BitVec.le_def] at h
    omega
  · rw [BitVec.le_def] at h
    omega

@[simp] theorem toNat_max {w : ℕ} (a b : BitVec w) : (max a b).toNat = max a.toNat b.toNat := by
  change (if a ≤ b then b else a).toNat = _
  split_ifs with h
  · rw [BitVec.le_def] at h
    omega
  · rw [BitVec.le_def] at h
    omega

/-- `usize::is_power_of_two`: exactly one bit set. -/
def isPowerOfTwo (a : BitVec 64) : Bool := a != 0 && (a &&& (a - 1)) == 0

/-- `Align::align_down` on `usize`. -/
def alignDown (x a : BitVec 64) : BitVec 64 :=
  if isPowerOfTwo a then x &&& ~~~(a - 1)
  else if a = 0 then x
  else x - x % a

/-- `Align::align_up` on `usize`: `x + a - 1` wraps. -/
def alignUp (x a : BitVec 64) : BitVec 64 := alignDown (x + a - 1) a

end Cykusz.Kernel
