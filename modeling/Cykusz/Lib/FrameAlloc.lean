import Mathlib

/-!
# Frame allocators

An allocator of physical frames as the page tables use one: `allocate` hands out a frame and
`deallocate` takes one back. The allocator is not part of the page tables, so it is a parameter: a
type with the two operations and the frames it holds free (`f ∈ a`), and, as laws, what the page
tables take from it. `allocate` hands out a frame it held free, holds it free no longer, and frees
nothing; `deallocate` frees at most the frame it is given. Nothing more is asked: a frame given
back may stay out of the allocator (a leak), and `allocate` may fail with free frames left.

`FreeList`, distinct frames handed out from the front and given back to the front, is one such
allocator.
-/

/-- A type `A` of frame allocators: `allocate` returns a frame and the allocator after, `none` when
it has none to give, and `deallocate` gives a frame back. -/
class FrameAlloc (A : Type*) extends Membership ℕ A where
  allocate : A → Option (ℕ × A)
  deallocate : A → ℕ → A
  mem_of_allocate {a a' : A} {f : ℕ} : allocate a = some (f, a') → mem a f
  not_mem_allocate {a a' : A} {f : ℕ} : allocate a = some (f, a') → ¬mem a' f
  mem_of_mem_allocate {a a' : A} {f g : ℕ} : allocate a = some (f, a') → mem a' g → mem a g
  mem_deallocate {a : A} {f g : ℕ} : mem (deallocate a f) g → g = f ∨ mem a g

/-- Distinct frames, handed out from the front; a frame given back goes to the front. -/
structure FreeList where
  frames : List ℕ
  nodup : frames.Nodup

namespace FreeList

/-- The first frame. -/
def allocate : FreeList → Option (ℕ × FreeList)
  | ⟨[], _⟩ => none
  | ⟨f :: fs, h⟩ => some (f, ⟨fs, (List.nodup_cons.1 h).2⟩)

/-- The frame in front, unless it is free already. -/
def deallocate (l : FreeList) (f : ℕ) : FreeList := ⟨l.frames.insert f, l.nodup.insert⟩

theorem allocate_eq_some {l l' : FreeList} {f : ℕ} (h : l.allocate = some (f, l')) :
    l.frames = f :: l'.frames := by
  obtain ⟨_ | ⟨g, gs⟩, hl⟩ := l
  · cases h
  · cases h
    rfl

instance : FrameAlloc FreeList where
  mem l f := f ∈ l.frames
  allocate := allocate
  deallocate := deallocate
  mem_of_allocate h := by
    rw [allocate_eq_some h]
    exact List.mem_cons_self
  not_mem_allocate {l l' _} h := by
    have hnd := l.nodup
    rw [allocate_eq_some h] at hnd
    exact (List.nodup_cons.1 hnd).1
  mem_of_mem_allocate h hg := by
    rw [allocate_eq_some h]
    exact List.mem_cons_of_mem _ hg
  mem_deallocate {l f g} hg := by
    change g ∈ l.frames.insert f at hg
    rw [List.mem_insert_iff] at hg
    exact hg

theorem mem_def {l : FreeList} {f : ℕ} : f ∈ l ↔ f ∈ l.frames := Iff.rfl

instance (f : ℕ) (l : FreeList) : Decidable (f ∈ l) := inferInstanceAs (Decidable (f ∈ l.frames))

end FreeList
