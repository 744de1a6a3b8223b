import Mathlib.Data.List.Basic

/-!
# Bitmaps as lists of bits

A bitmap is a `List Bool`; bit `i` is set when `l[i]? = some true`. The lemmas say how setting
or clearing one bit changes the set bits and their number, and what the first set bit is.
-/

namespace Bitmap

variable {l : List Bool} {p i j : ℕ}

theorem getElem?_set_true :
    (l.set p true)[i]? = some true ↔ (i = p ∧ p < l.length) ∨ (i ≠ p ∧ l[i]? = some true) := by
  rw [List.getElem?_set]
  by_cases h : p = i
  · subst h
    by_cases hp : p < l.length <;> simp [hp]
  · simp [h, Ne.symm h]

theorem getElem?_set_false : (l.set p false)[i]? = some true ↔ i ≠ p ∧ l[i]? = some true := by
  rw [List.getElem?_set]
  by_cases h : p = i
  · subst h
    by_cases hp : p < l.length <;> simp [hp]
  · simp [h, Ne.symm h]

theorem lt_length_of_getElem? {b : Bool} (h : l[p]? = some b) : p < l.length := by
  by_contra hp
  rw [List.getElem?_eq_none (by omega)] at h
  cases h

theorem count_set_true (h : l[p]? = some false) : (l.set p true).count true = l.count true + 1 := by
  have hp := lt_length_of_getElem? h
  have hf : l[p] = false := by simpa [hp] using h
  rw [List.count_set hp, hf]
  simp

theorem count_set_false (h : l[p]? = some true) :
    (l.set p false).count true + 1 = l.count true := by
  have hp := lt_length_of_getElem? h
  have ht : l[p] = true := by simpa [hp] using h
  have hpos : 0 < l.count true := List.count_pos_iff.2 (ht ▸ List.getElem_mem hp)
  rw [List.count_set hp, ht]
  simp only [beq_self_eq_true, ite_true]
  simp
  omega

/-- The first set bit is set. -/
theorem getElem?_findIdx? (h : l.findIdx? (· == true) = some j) : l[j]? = some true := by
  obtain ⟨hj, hb, -⟩ := List.findIdx?_eq_some_iff_getElem.1 h
  simpa [hj] using hb

/-- A bitmap with a set bit has a first one. -/
theorem findIdx?_isSome (h : 0 < l.count true) : (l.findIdx? (· == true)).isSome := by
  rw [Option.isSome_iff_ne_none, Ne, List.findIdx?_eq_none_iff]
  intro hall
  simpa using hall true (List.count_pos_iff.1 h)

/-! ### Clear bits of a prefix -/

variable {w : ℕ}

theorem getElem?_take_of_lt (hp : p < w) : (l.take w)[p]? = l[p]? :=
  List.getElem?_take_of_lt hp

/-- Setting a clear bit of a prefix takes one clear bit out of its count. -/
theorem count_take_set_true (hp : p < w) (h : l[p]? = some false) :
    ((l.set p true).take w).count false + 1 = (l.take w).count false := by
  have h' : (l.take w)[p]? = some false := by rw [getElem?_take_of_lt hp, h]
  obtain ⟨hlen, hf⟩ := List.getElem?_eq_some_iff.1 h'
  have hpos : 0 < (l.take w).count false := List.count_pos_iff.2 (hf ▸ List.getElem_mem hlen)
  rw [List.take_set, List.count_set hlen, hf]
  simp
  omega

/-- Clearing a set bit of a prefix adds one clear bit to its count. -/
theorem count_take_set_false (hp : p < w) (h : l[p]? = some true) :
    ((l.set p false).take w).count false = (l.take w).count false + 1 := by
  have h' : (l.take w)[p]? = some true := by rw [getElem?_take_of_lt hp, h]
  obtain ⟨hlen, ht⟩ := List.getElem?_eq_some_iff.1 h'
  rw [List.take_set, List.count_set hlen, ht]
  simp

/-- A prefix with a set bit has fewer clear bits than its width. -/
theorem count_take_lt (hp : p < w) (h : l[p]? = some true) : (l.take w).count false < w := by
  have := count_take_set_false hp h
  have hle : ((l.set p false).take w).count false ≤ w :=
    Nat.le_trans List.count_le_length (List.length_take_le _ _)
  omega

end Bitmap
