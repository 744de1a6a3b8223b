import Mathlib

/-!
# Loops over a list and what they have done so far

A loop over a list, `List.foldl` or `List.foldlM` in `Option`, is proved by an invariant of the
prefix it has processed: each turn is given where in the list it stands (the processed prefix and
the rest), keeps the invariant, and at the end the invariant holds of the whole list. Over a list
without duplicates, the element of a turn is in neither part (`not_mem_of_eq_append`).

A loop whose state is a pair, and whose first component evolves on its own, computes that
component as the loop over it alone does (`foldlM_map_fst`).
-/

namespace Loop

variable {α β γ : Type*}

/-- An invariant of the processed prefix of a loop that may fail holds of the whole list. -/
theorem foldlM_inv {f : β → α → Option β} {l : List α} (I : List α → β → Prop)
    (hstep : ∀ pre a post s s', l = pre ++ a :: post → I pre s → f s a = some s' →
      I (pre ++ [a]) s')
    {s s' : β} (h0 : I [] s) (h : l.foldlM f s = some s') : I l s' := by
  -- the rest of the list after each prefix, from the state reached there
  have key : ∀ post pre s, l = pre ++ post → I pre s → post.foldlM f s = some s' → I l s' := by
    intro post
    induction post with
    | nil =>
      intro pre s hl hI h
      simp only [List.foldlM_nil, Option.pure_def, Option.some.injEq] at h
      subst h
      simpa [hl] using hI
    | cons a post ih =>
      intro pre s hl hI h
      simp only [List.foldlM_cons, Option.bind_eq_bind, Option.bind_eq_some_iff] at h
      obtain ⟨s₁, h₁, h⟩ := h
      exact ih (pre ++ [a]) s₁ (by simp [hl]) (hstep pre a post s s₁ hl hI h₁) h
  exact key l [] s rfl h0 h

/-- An invariant of the processed prefix of a loop holds of the whole list. -/
theorem foldl_inv {f : β → α → β} {l : List α} (I : List α → β → Prop)
    (hstep : ∀ pre a post s, l = pre ++ a :: post → I pre s → I (pre ++ [a]) (f s a))
    {s : β} (h0 : I [] s) : I l (l.foldl f s) := by
  have key : ∀ post pre s, l = pre ++ post → I pre s → I l (post.foldl f s) := by
    intro post
    induction post with
    | nil =>
      intro pre s hl hI
      simpa [hl] using hI
    | cons a post ih =>
      intro pre s hl hI
      exact ih (pre ++ [a]) (f s a) (by simp [hl]) (hstep pre a post s hl hI)
  exact key l [] s rfl h0

/-- The element of a turn of a loop over a list without duplicates is in neither the processed
prefix nor the rest. -/
theorem not_mem_of_eq_append {l pre post : List α} {a : α} (hl : l.Nodup)
    (h : l = pre ++ a :: post) : a ∉ pre ∧ a ∉ post := by
  rw [h, List.nodup_append] at hl
  obtain ⟨-, hcons, hdisj⟩ := hl
  exact ⟨fun ha => hdisj a ha a List.mem_cons_self rfl, (List.nodup_cons.1 hcons).1⟩

/-- A loop over pairs whose first component does not read the second computes, in its first
component, the loop over the first component alone. -/
theorem foldlM_map_fst {f : β × γ → α → Option (β × γ)} {g : β → α → Option β}
    (hfg : ∀ s a, (f s a).map Prod.fst = g s.1 a) :
    ∀ (l : List α) (s : β × γ), (l.foldlM f s).map Prod.fst = l.foldlM g s.1
  | [], _ => rfl
  | a :: l, s => by
    simp only [List.foldlM_cons, Option.bind_eq_bind]
    rw [← hfg s a]
    cases f s a with
    | none => rfl
    | some s' => exact foldlM_map_fst hfg l s'

end Loop
