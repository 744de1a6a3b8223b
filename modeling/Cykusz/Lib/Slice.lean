import Mathlib

/-!
# In-place operations on a slice

`xs[a..b].fill(v)` and `xs.copy_within(s..e, d)` of `core`, on a list. Each panics unless its
ranges lie in the slice: `InRange xs a b` and `CopyInRange xs s e d` say when they do, and the
operations themselves are total, for use under those guards. Both keep the length, so a buffer
that is allocated once keeps its size through any number of them.
-/

namespace Slice

variable {α : Type*}

/-- Indexing `xs[a..b]` does not panic. -/
def InRange (xs : List α) (a b : ℕ) : Prop := a ≤ b ∧ b ≤ xs.length

instance (xs : List α) (a b : ℕ) : Decidable (InRange xs a b) :=
  inferInstanceAs (Decidable (_ ∧ _))

/-- `xs.copy_within(s..e, d)` does not panic: the source is a range of the slice, and the
destination has room for it. -/
def CopyInRange (xs : List α) (s e d : ℕ) : Prop := s ≤ e ∧ e ≤ xs.length ∧ d ≤ xs.length - (e - s)

instance (xs : List α) (s e d : ℕ) : Decidable (CopyInRange xs s e d) :=
  inferInstanceAs (Decidable (_ ∧ _ ∧ _))

/-- `xs[a..b].fill(v)`. -/
def fill (xs : List α) (a b : ℕ) (v : α) : List α :=
  xs.mapIdx fun j x => if a ≤ j ∧ j < b then v else x

/-- `xs.copy_within(s..e, d)`: the items of `s..e`, read before the copy, go to `d..`. -/
def copyWithin (xs : List α) (s e d : ℕ) : List α :=
  xs.mapIdx fun j x => if d ≤ j ∧ j < d + (e - s) then xs.getD (j - d + s) x else x

@[simp] theorem length_fill (xs : List α) (a b : ℕ) (v : α) : (fill xs a b v).length = xs.length :=
  List.length_mapIdx

@[simp] theorem length_copyWithin (xs : List α) (s e d : ℕ) :
    (copyWithin xs s e d).length = xs.length :=
  List.length_mapIdx

end Slice
