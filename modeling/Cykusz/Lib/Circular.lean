import Mathlib

/-!
# Circular views of a fixed-size array

A ring buffer of capacity `n` keeps its contents in a `Vector α n`, read circularly from an
index `r`: `view v r k` is the `k` cells from `r`, wrapping past the end. The buffer's writes and
reads copy segments that do not wrap (`copyIn`, `slice`); a wrapping transfer is two of them.

A view splits at any point (`view_add`, with `take_view` and `drop_view`), a segment copied in
where a view ends extends it (`view_copyIn`), as does a cell set there (`view_set_advance`), and a
segment read from `r` is the view's prefix (`slice_eq_view`). The wrap is handled once, by
`advance` and `mod_ne_of_lt`. Between two indices there are `gap a b` cells, the inverse of
`advance` (`advance_gap`, `gap_advance`).
-/

namespace Circular

variable {α : Type*} {n : ℕ}

/-- The index `t` cells after `r`, wrapping at `n`. -/
def advance (r : Fin n) (t : ℕ) : Fin n := ⟨(r + t) % n, Nat.mod_lt _ r.pos⟩

/-- The `k` cells of `v` read circularly from `r`. -/
def view (v : Vector α n) (r : Fin n) (k : ℕ) : List α :=
  (List.range k).map fun i => v.get (advance r i)

/-- `v` with `s` copied in from index `w`: `v[w..w + s.len()].copy_from_slice(s)`. -/
def copyIn (v : Vector α n) (w : ℕ) (s : List α) : Vector α n :=
  Vector.ofFn fun j => if w ≤ j ∧ j < w + s.length then s.getD (j - w) (v.get j) else v.get j

/-- The segment `v[r..r + k]`. -/
def slice (v : Vector α n) (r k : ℕ) : List α := (v.toList.drop r).take k

variable {v : Vector α n} {r : Fin n} {k m t w : ℕ} {s : List α}

@[simp] theorem val_advance (r : Fin n) (t : ℕ) : (advance r t : ℕ) = (r + t) % n := rfl

theorem advance_advance (r : Fin n) (t u : ℕ) : advance (advance r t) u = advance r (t + u) := by
  ext
  simp only [val_advance, Nat.mod_add_mod, Nat.add_assoc]

@[simp] theorem advance_zero (r : Fin n) : advance r 0 = r := by
  ext
  simp [Nat.mod_eq_of_lt r.isLt]

/-- Advancing by at most `n` wraps at most once. -/
theorem val_advance_of_le (h : t ≤ n) :
    (advance r t : ℕ) = if (r : ℕ) + t < n then r + t else r + t - n := by
  have hr := r.isLt
  rw [val_advance]
  split_ifs with hlt
  · exact Nat.mod_eq_of_lt hlt
  · rw [Nat.mod_eq_sub_mod (by omega), Nat.mod_eq_of_lt (by omega)]

/-- Advancing by at most `n` comes back to the start only by zero or `n` cells. -/
theorem advance_eq_self_iff (h : t ≤ n) : advance r t = r ↔ t = 0 ∨ t = n := by
  have hr := r.isLt
  rw [Fin.ext_iff, val_advance_of_le h]
  split_ifs <;> omega

@[simp] theorem length_view : (view v r k).length = k := by simp [view]

theorem getElem_view {i : ℕ} (hi : i < (view v r k).length) :
    (view v r k)[i] = v.get (advance r i) := by
  simp [view]

/-- Two numbers less than `n` apart, the second larger, differ modulo `n`. -/
theorem mod_ne_of_lt {a b : ℕ} (hab : a < b) (hb : b < a + n) : a % n ≠ b % n := by
  intro h
  have hdvd : n ∣ b - a := Nat.dvd_of_mod_eq_zero (Nat.sub_mod_eq_zero_of_mod_eq h.symm)
  have := Nat.eq_zero_of_dvd_of_lt hdvd (by omega)
  omega

/-- A view splits where its first part ends. -/
theorem view_add (k m : ℕ) : view v r (k + m) = view v r k ++ view v (advance r k) m := by
  apply List.ext_getElem (by simp)
  intro i h₁ h₂
  rw [getElem_view]
  by_cases hi : i < k
  · rw [List.getElem_append_left (by simpa using hi), getElem_view]
  · rw [List.getElem_append_right (by simp; omega), getElem_view, advance_advance]
    simp only [length_view]
    congr 2
    omega

theorem take_view (h : t ≤ k) : (view v r k).take t = view v r t := by
  obtain ⟨u, rfl⟩ := Nat.exists_eq_add_of_le h
  rw [view_add, List.take_left' (by simp)]

theorem drop_view (h : t ≤ k) : (view v r k).drop t = view v (advance r t) (k - t) := by
  obtain ⟨u, rfl⟩ := Nat.exists_eq_add_of_le h
  rw [view_add, List.drop_left' (by simp), Nat.add_sub_cancel_left]

theorem get_copyIn (j : Fin n) :
    (copyIn v w s).get j =
      if w ≤ j ∧ (j : ℕ) < w + s.length then s.getD (j - w) (v.get j) else v.get j := by
  simp [copyIn]

/-- A segment copied in where a view ends extends the view, when the segment does not wrap and
does not reach the view's start again. -/
theorem view_copyIn (hw : (advance r m : ℕ) = w) (hs : w + s.length ≤ n)
    (hm : m + s.length ≤ n) : view (copyIn v w s) r (m + s.length) = view v r m ++ s := by
  rw [view_add]
  congr 1
  · -- the cells of the view lie outside the segment
    apply List.ext_getElem (by simp)
    intro i h₁ h₂
    simp only [length_view] at h₁
    rw [getElem_view, getElem_view, get_copyIn, if_neg]
    rintro ⟨hlo, hhi⟩
    simp only [val_advance] at hw hlo hhi
    have hwrap : (r + m + (((r + i) % n) - w)) % n = (r + i) % n := by
      rw [← Nat.mod_add_mod, hw, Nat.mod_eq_of_lt (by omega)]
      omega
    exact mod_ne_of_lt (n := n) (a := r + i) (b := r + m + ((r + i) % n - w)) (by omega)
      (by omega) hwrap.symm
  · -- the segment's cells follow the view
    apply List.ext_getElem (by simp)
    intro i h₁ h₂
    simp only [length_view] at h₁
    have hj : (advance (advance r m) i : ℕ) = w + i := by
      simp only [val_advance] at hw ⊢
      rw [hw, Nat.mod_eq_of_lt (by omega)]
    rw [getElem_view, get_copyIn, hj, if_pos ⟨by omega, by omega⟩, Nat.add_sub_cancel_left,
      List.getD_eq_getElem]

/-- A segment read from `r` without wrapping is the view's prefix. -/
theorem slice_eq_view (h : (r : ℕ) + k ≤ n) : slice v r k = view v r k := by
  apply List.ext_getElem (by simp [slice]; omega)
  intro i h₁ h₂
  simp only [length_view] at h₂
  have hi : ((r : ℕ) + i) % n = r + i := Nat.mod_eq_of_lt (by omega)
  simp [slice, getElem_view, Vector.get_eq_getElem, hi]

/-- A longer segment from the same index starts with a shorter one. -/
theorem getElem?_slice_of_lt {r k' i : ℕ} (hi : i < k) (hk : k ≤ k') :
    (slice v r k)[i]? = (slice v r k')[i]? := by
  simp [slice, hi, show i < k' by omega]

/-! ## The cells between two indices -/

/-- The cells from `a` up to `b`, wrapping at `n`. -/
def gap (a b : Fin n) : ℕ := if a ≤ b then (b : ℕ) - a else n - ((a : ℕ) - b)

theorem gap_lt (a b : Fin n) : gap a b < n := by
  have := b.isLt
  have := a.isLt
  unfold gap
  split_ifs with h <;> rw [Fin.le_def] at * <;> omega

@[simp] theorem gap_self (a : Fin n) : gap a a = 0 := by simp [gap]

theorem gap_eq_zero_iff {a b : Fin n} : gap a b = 0 ↔ a = b := by
  have := b.isLt
  have := a.isLt
  unfold gap
  rw [Fin.ext_iff]
  split_ifs with h <;> rw [Fin.le_def] at * <;> omega

/-- `gap a b` cells after `a` is `b`. -/
theorem advance_gap (a b : Fin n) : advance a (gap a b) = b := by
  have := b.isLt
  have := a.isLt
  ext
  rw [val_advance_of_le (gap_lt a b).le]
  unfold gap
  split_ifs <;> rw [Fin.le_def] at * <;> omega

/-- Fewer than `n` cells after `a` are that many cells away from it. -/
theorem gap_advance (a : Fin n) (ht : t < n) : gap a (advance a t) = t := by
  have := a.isLt
  have hv := val_advance_of_le (r := a) ht.le
  unfold gap
  split_ifs at hv ⊢ with h₁ h₂ h₂ <;> rw [Fin.le_def] at * <;> omega

/-- The cells from `a` to `c` through `b`, when that goes around less than once. -/
theorem gap_add {a b c : Fin n} (h : gap a b + gap b c < n) : gap a c = gap a b + gap b c :=
  calc gap a c = gap a (advance a (gap a b + gap b c)) := by
        rw [← advance_advance, advance_gap, advance_gap]
    _ = gap a b + gap b c := gap_advance a h

/-- `t` cells on from `a`, `t` cells fewer to `b`. -/
theorem gap_advance_of_le {a b : Fin n} (h : t ≤ gap a b) : gap (advance a t) b = gap a b - t := by
  conv_lhs => rw [← advance_gap a b, ← Nat.add_sub_cancel' h, ← advance_advance]
  exact gap_advance _ (by have := gap_lt a b; omega)

/-- The first cell of a view, and the view from the next index. -/
theorem view_succ (v : Vector α n) (r : Fin n) (k : ℕ) :
    view v r (k + 1) = v.get r :: view v (advance r 1) k := by
  rw [Nat.add_comm, view_add]
  simp [view]

/-- A view that does not reach the cell set is unchanged. -/
theorem view_set_of_ne {j : Fin n} {c : α} (h : ∀ i < k, advance r i ≠ j) :
    view (v.set j c j.isLt) r k = view v r k := by
  apply List.ext_getElem (by simp)
  intro i h₁ _
  simp only [length_view] at h₁
  rw [getElem_view, getElem_view, Vector.get_eq_getElem, Vector.get_eq_getElem,
    Vector.getElem_set_ne _ _ (fun hj => h i h₁ (Fin.ext hj.symm))]

/-- Advancing by two different amounts less than `n` gives two different indices. -/
theorem advance_ne {i k : ℕ} (hik : i < k) (hk : k < n) : advance r i ≠ advance r k := by
  intro h
  rw [Fin.ext_iff, val_advance, val_advance] at h
  exact mod_ne_of_lt (n := n) (by omega) (by omega) h

/-- A cell set where a view shorter than `n` ends extends the view. -/
theorem view_set_advance {c : α} (hk : k < n) :
    view (v.set (advance r k) c (advance r k).isLt) r (k + 1) = view v r k ++ [c] := by
  rw [view_add, view_set_of_ne fun i hi => advance_ne hi hk]
  congr 1
  simp [view, Vector.get_eq_getElem]

end Circular
