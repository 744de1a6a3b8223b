import Mathlib

/-!
# Sequence numbers and the tail of a stream

A sender numbers the bytes of a stream with `w`-bit sequence numbers that wrap around. The
distance `dist a b` from `a` forward to `b` is `(b - a).toNat`. While the distances involved stay
below `2 ^ w` they add as on the line: moving the far end forward adds to the distance
(`dist_add_ofNat`), and moving the near end forward to a point in between takes its distance off
(`dist_of_le`).

The bytes a sender has sent and not yet seen acknowledged are the last ones of the stream,
`l.rtake k`. Sending more appends to them (`rtake_append`), and an acknowledgment drops their
first bytes (`drop_rtake`).
-/

namespace SeqSpace

/-! ## Distances in the sequence space -/

section Dist

variable {w : ℕ}

/-- The distance from `a` forward to `b` among the `w`-bit sequence numbers. -/
def dist (a b : BitVec w) : ℕ := (b - a).toNat

theorem dist_lt (a b : BitVec w) : dist a b < 2 ^ w := (b - a).isLt

@[simp]
theorem dist_self (a : BitVec w) : dist a a = 0 := by simp [dist]

/-- Moving the far end forward by `k` adds `k`, while the sum stays in the space. -/
theorem dist_add_ofNat (a b : BitVec w) {k : ℕ} (h : dist a b + k < 2 ^ w) :
    dist a (b + BitVec.ofNat w k) = dist a b + k := by
  unfold dist at *
  have hshift : b + BitVec.ofNat w k - a = b - a + BitVec.ofNat w k := by abel
  rw [hshift, BitVec.toNat_add, BitVec.toNat_ofNat, Nat.mod_eq_of_lt (by omega : k < 2 ^ w),
    Nat.mod_eq_of_lt h]

/-- Moving the near end forward to a point `c` no farther than `b` takes its distance off. -/
theorem dist_of_le (a b c : BitVec w) (h : dist a c ≤ dist a b) :
    dist c b = dist a b - dist a c := by
  unfold dist at *
  have hshift : b - c = (b - a) - (c - a) := by abel
  rw [hshift, BitVec.toNat_sub_of_le (BitVec.le_def.2 h)]

end Dist

/-! ## The tail of a stream -/

section Tail

variable {α : Type*}

theorem length_rtake (l : List α) (k : ℕ) : (l.rtake k).length = min k l.length := by
  simp only [List.rtake, List.length_drop]
  omega

/-- Appending to the stream appends to a tail that grows by as much. -/
theorem rtake_append {l d : List α} {k : ℕ} (hk : k ≤ l.length) :
    (l ++ d).rtake (k + d.length) = l.rtake k ++ d := by
  simp only [List.rtake, List.length_append]
  rw [show l.length + d.length - (k + d.length) = l.length - k by omega,
    List.drop_append_of_le_length (by omega)]

/-- Dropping the first `j` bytes of a tail leaves the shorter tail. -/
theorem drop_rtake {l : List α} {k : ℕ} (j : ℕ) (hk : k ≤ l.length) :
    (l.rtake k).drop j = l.rtake (k - j) := by
  simp only [List.rtake, List.drop_drop]
  by_cases hj : j ≤ k
  · congr 1
    omega
  · -- past the tail's end both sides are empty
    rw [List.drop_eq_nil_of_le (by omega), List.drop_eq_nil_of_le (by omega)]

end Tail

end SeqSpace
