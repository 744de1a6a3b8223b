import Mathlib

/-!
# Counting after one update

How many points of a finite type a predicate holds at, before and after a function is changed at
one point: the count moves by what the point contributes before and after. The same holds of the
elements of a list when one of them is replaced (`countP_set_add`): the elements other than the one
replaced count the same before and after (`countP_set_split`).
-/

namespace Count

open Finset

variable {α β : Type*} [Fintype α] [DecidableEq α]

theorem card_filter_update (g : α → β) (a : α) (b : β) (P : β → Prop) [DecidablePred P] :
    (univ.filter fun x => P (Function.update g a b x)).card + (if P (g a) then 1 else 0) =
      (univ.filter fun x => P (g x)).card + (if P b then 1 else 0) := by
  simp only [card_filter]
  have h : ∀ x, (if P (Function.update g a b x) then 1 else 0) =
      Function.update (fun x => if P (g x) then 1 else 0) a (if P b then 1 else 0) x := by
    intro x
    by_cases hx : x = a
    · subst hx
      simp
    · simp [hx]
  simp only [h]
  rw [sum_update_of_mem (mem_univ a), ← Finset.add_sum_erase _ _ (mem_univ a),
    sdiff_singleton_eq_erase]
  omega

/-- Functions that agree off one point have counts that differ by that point's contributions. -/
theorem card_filter_of_eq_off {u v : α → β} {a : α} (h : ∀ x, x ≠ a → v x = u x)
    (P : β → Prop) [DecidablePred P] :
    (univ.filter fun x => P (v x)).card + (if P (u a) then 1 else 0) =
      (univ.filter fun x => P (u x)).card + (if P (v a) then 1 else 0) := by
  have hv : v = Function.update u a (v a) := by
    funext x
    by_cases hx : x = a
    · subst hx
      simp
    · simp [hx, h x hx]
  rw [hv, Function.update_self]
  exact card_filter_update u a (v a) P

/-- Replacing the element at `i` moves the count by what the old and the new element contribute. -/
theorem countP_set_add {γ : Type*} {l : List γ} {i : ℕ} {b : γ} (hi : l[i]? = some b)
    (p : γ → Bool) (a : γ) :
    (l.set i a).countP p + (if p b then 1 else 0) = l.countP p + (if p a then 1 else 0) := by
  obtain ⟨hlt, rfl⟩ := List.getElem?_eq_some_iff.1 hi
  rw [List.countP_set hlt]
  -- the element replaced is counted in `l` when it satisfies `p`
  have hle : (if p l[i] then 1 else 0) ≤ l.countP p := by
    split_ifs with hp
    · exact List.countP_pos_iff.2 ⟨l[i], List.getElem_mem hlt, hp⟩
    · exact Nat.zero_le _
  omega

/-- The count before and after the element at `i` is replaced, as the count of the other elements
and what the element at `i` adds. -/
theorem countP_set_split {γ : Type*} {l : List γ} {i : ℕ} {b : γ} (hi : l[i]? = some b)
    (p : γ → Bool) (a : γ) :
    ∃ n, l.countP p = n + (if p b then 1 else 0) ∧
      (l.set i a).countP p = n + (if p a then 1 else 0) := by
  have hset := countP_set_add hi p a
  -- `b` is counted in `l` when it satisfies `p`
  have hle : (if p b then 1 else 0) ≤ l.countP p := by
    split_ifs with hp
    · exact List.countP_pos_iff.2 ⟨b, List.mem_of_getElem? hi, hp⟩
    · exact Nat.zero_le _
  exact ⟨l.countP p - (if p b then 1 else 0), by omega, by omega⟩

/-- What is read from a list after the element at `i` is replaced. -/
theorem getElem?_set_of_getElem? {γ : Type*} {l : List γ} {i : ℕ} {b : γ} (hi : l[i]? = some b)
    (a : γ) (j : ℕ) : (l.set i a)[j]? = if j = i then some a else l[j]? := by
  have hlen := (List.getElem?_eq_some_iff.1 hi).1
  split_ifs with hj
  · subst hj
    simp [hlen]
  · exact List.getElem?_set_ne (Ne.symm hj)

/-- With at most one element of a list satisfying `p`, two indices whose elements satisfy it are
one. -/
theorem eq_of_countP_le_one {γ : Type*} {p : γ → Bool} :
    ∀ {l : List γ}, l.countP p ≤ 1 → ∀ {j k : ℕ} {a b : γ}, l[j]? = some a → p a = true →
      l[k]? = some b → p b = true → j = k
  | [], _, _, _, _, _, hj, _, _, _ => by simp at hj
  | _ :: _, _, 0, 0, _, _, _, _, _, _ => rfl
  | c :: l, hl, 0, k + 1, a, b, hj, ha, hk, hb => by
    -- the head and an element of the tail both count
    have hc : c = a := by simpa using hj
    have hpos : 0 < l.countP p := List.countP_pos_iff.2 ⟨b, List.mem_of_getElem? hk, hb⟩
    rw [List.countP_cons, hc, if_pos ha] at hl
    omega
  | c :: l, hl, j + 1, 0, a, b, hj, ha, hk, hb => by
    have hc : c = b := by simpa using hk
    have hpos : 0 < l.countP p := List.countP_pos_iff.2 ⟨a, List.mem_of_getElem? hj, ha⟩
    rw [List.countP_cons, hc, if_pos hb] at hl
    omega
  | c :: l, hl, j + 1, k + 1, a, b, hj, ha, hk, hb => by
    have hl' : l.countP p ≤ 1 := by
      rw [List.countP_cons] at hl
      split_ifs at hl <;> omega
    rw [eq_of_countP_le_one hl' hj ha hk hb]

end Count
