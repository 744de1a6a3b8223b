import Mathlib

/-!
# Rounding to multiples and aligned blocks

Address arithmetic of allocators: rounding a natural number down or up to a multiple of `m`
(`roundDown`, `roundUp`), and blocks `[a, a + n)` of naturals (`block a n`), with when two blocks
are disjoint and how the two halves of an aligned block of size `2 m` make it up.

Nothing here is specific to one allocator: a block size is any positive `m`, and a buddy system
instantiates `m` with its block sizes.
-/

namespace Align

/-! ## Rounding -/

/-- `x` rounded down to a multiple of `m`. -/
def roundDown (x m : ℕ) : ℕ := x / m * m

/-- `x` rounded up to a multiple of `m`. -/
def roundUp (x m : ℕ) : ℕ := roundDown (x + m - 1) m

theorem roundDown_le (x m : ℕ) : roundDown x m ≤ x := Nat.div_mul_le_self x m

theorem dvd_roundDown (x m : ℕ) : m ∣ roundDown x m := Nat.dvd_mul_left m (x / m)

theorem roundDown_add_mod (x m : ℕ) : roundDown x m + x % m = x := by
  unfold roundDown
  rw [Nat.mul_comm]
  exact Nat.div_add_mod x m

theorem roundDown_of_dvd {x m : ℕ} (h : m ∣ x) : roundDown x m = x := by
  have := roundDown_add_mod x m
  rw [Nat.mod_eq_zero_of_dvd h] at this
  omega

theorem lt_roundDown_add {x m : ℕ} (hm : 0 < m) : x < roundDown x m + m := by
  have h1 := roundDown_add_mod x m
  have h2 := Nat.mod_lt x hm
  omega

theorem le_roundUp (x m : ℕ) (hm : 0 < m) : x ≤ roundUp x m := by
  unfold roundUp
  have := lt_roundDown_add (x := x + m - 1) hm
  omega

theorem roundUp_lt_add (x m : ℕ) (hm : 0 < m) : roundUp x m < x + m := by
  unfold roundUp
  have := roundDown_le (x + m - 1) m
  omega

theorem dvd_roundUp (x m : ℕ) : m ∣ roundUp x m := dvd_roundDown _ _

/-- A multiple of `m` at or above `x` is at or above `x` rounded up. -/
theorem roundUp_le_of_dvd {x a m : ℕ} (hm : 0 < m) (ha : m ∣ a) (hxa : x ≤ a) :
    roundUp x m ≤ a := by
  obtain ⟨k, rfl⟩ := ha
  have hk : (x + m - 1) / m ≤ k := by
    apply Nat.le_of_lt_succ
    rw [Nat.div_lt_iff_lt_mul hm]
    rw [Nat.succ_mul, Nat.mul_comm]
    omega
  calc roundUp x m = (x + m - 1) / m * m := rfl
    _ ≤ k * m := Nat.mul_le_mul_right m hk
    _ = m * k := Nat.mul_comm k m

/-- The slot index, counted from `x`, of the `i`-th multiple of `m` at or above `x`. -/
theorem roundUp_add_sub_div (x m i : ℕ) (hm : 0 < m) : (roundUp x m + m * i - x) / m = i := by
  have hle := le_roundUp x m hm
  have hlt := roundUp_lt_add x m hm
  have : roundUp x m + m * i - x = roundUp x m - x + m * i := by omega
  rw [this, Nat.add_mul_div_left _ _ hm, Nat.div_eq_of_lt (by omega), Nat.zero_add]

/-- A multiple of `m` at or above `x` is the `((a - x) / m)`-th multiple at or above `x`. -/
theorem roundUp_add_sub_div_mul {x a m : ℕ} (hm : 0 < m) (ha : m ∣ a) (hxa : x ≤ a) :
    roundUp x m + m * ((a - x) / m) = a := by
  have hua := roundUp_le_of_dvd hm ha hxa
  obtain ⟨i, hi⟩ := (Nat.dvd_sub_iff_left hua (dvd_roundUp x m)).2 ha
  have hi' : a = roundUp x m + m * i := by omega
  rw [hi', roundUp_add_sub_div x m i hm]

/-- Two multiples of `m` at or above `x` are equal when they lie in the same slot of size `m`
counted from `x`. -/
theorem sub_div_inj {x a b m : ℕ} (hm : 0 < m) (ha : m ∣ a) (hb : m ∣ b) (hxa : x ≤ a)
    (hxb : x ≤ b) (h : (a - x) / m = (b - x) / m) : a = b :=
  calc a = roundUp x m + m * ((a - x) / m) := (roundUp_add_sub_div_mul hm ha hxa).symm
    _ = roundUp x m + m * ((b - x) / m) := by rw [h]
    _ = b := roundUp_add_sub_div_mul hm hb hxb

/-! ## Buddies

A multiple `a` of `m` is one half of the block of size `2 m` that starts at `a` rounded down to a
multiple of `2 m`: the lower half when the rounding leaves it in place, the upper one otherwise. -/

theorem eq_roundDown_or_eq_add {a m : ℕ} (hm : 0 < m) (ha : m ∣ a) :
    a = roundDown a (2 * m) ∨ a = roundDown a (2 * m) + m := by
  have h1 := roundDown_add_mod a (2 * m)
  have h2 := Nat.mod_lt a (show 0 < 2 * m by omega)
  have h3 : m ∣ a % (2 * m) := (Nat.dvd_mod_iff (Nat.dvd_mul_left m 2)).2 ha
  obtain ⟨k, hk⟩ := h3
  rcases k with _ | _ | k
  · left; omega
  · right; rw [Nat.mul_one] at hk; omega
  · simp only [Nat.mul_add, Nat.mul_one] at hk
    omega

/-! ## Blocks -/

/-- The block `[a, a + n)`. -/
def block (a n : ℕ) : Set ℕ := Set.Ico a (a + n)

theorem mem_block {a n x : ℕ} : x ∈ block a n ↔ a ≤ x ∧ x < a + n := Set.mem_Ico

theorem block_nonempty {a n : ℕ} (hn : 0 < n) : (block a n).Nonempty :=
  ⟨a, mem_block.2 ⟨le_rfl, by omega⟩⟩

theorem disjoint_block_iff {a b m n : ℕ} :
    Disjoint (block a m) (block b n) ↔ a + m ≤ b ∨ b + n ≤ a ∨ m = 0 ∨ n = 0 := by
  unfold block
  rw [Set.Ico_disjoint_Ico]
  omega

theorem block_subset_block {a b m n : ℕ} (hab : b ≤ a) (hend : a + m ≤ b + n) :
    block a m ⊆ block b n :=
  Set.Ico_subset_Ico hab hend

@[simp] theorem block_zero (a : ℕ) : block a 0 = ∅ := by
  simp [block]

/-- A block followed by the block where it ends makes up one block. -/
theorem block_append (a m n : ℕ) : block a m ∪ block (a + m) n = block a (m + n) := by
  unfold block
  rw [Set.Ico_union_Ico_eq_Ico (by omega) (by omega), Nat.add_assoc]

/-- The two halves of a block of size `2 m` make it up. -/
theorem block_union_block (a m : ℕ) : block a m ∪ block (a + m) m = block a (2 * m) := by
  rw [block_append, two_mul]

end Align
