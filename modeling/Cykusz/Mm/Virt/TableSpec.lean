import Mathlib
import Cykusz.Mm.Virt.Table

/-!
# What each memory operation changes

One lemma per field of `Mem` for every primitive operation: which entries of which tables a
write changes, and which operations only touch the free frames and the use counts. The proofs
about whole walks cite these and never unfold the operations again.
-/

namespace Cykusz.Virt

namespace Mem

variable {A : Type}

open Entry

variable {m m' : Mem A} {t t' f : ℕ} {i j : Fin 512} {e : Entry}

/-! ## Entries, counts and pages -/

theorem entry_setEntry :
    (m.setEntry t i e).entry t' j = if t' = t ∧ j = i then e else m.entry t' j := by
  by_cases ht : t' = t
  · subst ht
    by_cases hj : j = i
    · subst hj
      simp [setEntry, entry]
    · simp [setEntry, entry, hj]
  · simp [setEntry, entry, ht]

theorem entry_setEntry_self : (m.setEntry t i e).entry t i = e := by
  simp [entry_setEntry]

theorem entry_modifyEntry {g : Entry → Entry} :
    (m.modifyEntry t i g).entry t' j = if t' = t ∧ j = i then g (m.entry t i) else m.entry t' j :=
  entry_setEntry

theorem entry_clearFrame : (m.clearFrame f).entry t j = if t = f then 0 else m.entry t j := by
  by_cases ht : t = f
  · subst ht
    simp [clearFrame, entry]
  · simp [clearFrame, entry, ht]

@[simp] theorem tables_refPhysPage (a : ℕ) : (m.refPhysPage a).tables = m.tables := by
  unfold refPhysPage
  split_ifs <;> rfl

@[simp] theorem tables_refTable (a : ℕ) : (m.refTable a).tables = m.tables := by
  unfold refTable
  split_ifs <;> rfl

@[simp] theorem free_refTable (a : ℕ) : (m.refTable a).free = m.free := by
  unfold refTable
  split_ifs <;> rfl

@[simp] theorem pages_refTable (a : ℕ) : (m.refTable a).pages = m.pages := by
  unfold refTable
  split_ifs <;> rfl

theorem uses_refTable {a : ℕ} (ha : m.hasPhysPage a = true) :
    (m.refTable a).uses (a / pageSize) = m.uses (a / pageSize) + 1 := by
  simp [refTable, ha]

@[simp] theorem free_setEntry : (m.setEntry t i e).free = m.free := rfl

@[simp] theorem uses_setEntry : (m.setEntry t i e).uses = m.uses := rfl

@[simp] theorem pages_setEntry : (m.setEntry t i e).pages = m.pages := rfl

@[simp] theorem free_modifyEntry {g : Entry → Entry} : (m.modifyEntry t i g).free = m.free := rfl

@[simp] theorem uses_modifyEntry {g : Entry → Entry} : (m.modifyEntry t i g).uses = m.uses := rfl

@[simp] theorem pages_modifyEntry {g : Entry → Entry} : (m.modifyEntry t i g).pages = m.pages :=
  rfl

@[simp] theorem free_clearFrame : (m.clearFrame f).free = m.free := rfl

@[simp] theorem uses_clearFrame : (m.clearFrame f).uses = m.uses := rfl

@[simp] theorem pages_clearFrame : (m.clearFrame f).pages = m.pages := rfl

@[simp] theorem pages_refPhysPage (a : ℕ) : (m.refPhysPage a).pages = m.pages := by
  unfold refPhysPage
  split_ifs <;> rfl

@[simp] theorem free_refPhysPage (a : ℕ) : (m.refPhysPage a).free = m.free := by
  unfold refPhysPage
  split_ifs <;> rfl

theorem refPhysPage_uses (a : ℕ) :
    (m.refPhysPage a).uses =
      if a ≠ 0 ∧ m.hasPhysPage a = true then
        Function.update m.uses (a / pageSize) (m.uses (a / pageSize) + 1) else m.uses := by
  unfold refPhysPage
  split_ifs <;> rfl

theorem refPhysPage_setEntry (a : ℕ) :
    (m.setEntry t i e).refPhysPage a = (m.refPhysPage a).setEntry t i e := by
  have hp : (m.setEntry t i e).hasPhysPage a = m.hasPhysPage a := rfl
  unfold refPhysPage
  rw [hp]
  split_ifs <;> rfl

/-! ## The calls that reach the allocator -/

variable [FrameAlloc A]

@[simp] theorem tables_unrefPhysPage (a : ℕ) : (m.unrefPhysPage a).2.tables = m.tables := by
  simp only [unrefPhysPage]
  split_ifs <;> rfl

theorem tables_setFrame :
    (m.setFrame t i f).tables = (m.setEntry t i ((m.entry t i).withFrame f)).tables := by
  simp only [setFrame, modifyEntry]
  split_ifs <;> simp [setEntry, entry]

theorem entry_setFrame :
    (m.setFrame t i f).entry t' j =
      if t' = t ∧ j = i then (m.entry t i).withFrame f else m.entry t' j := by
  show (m.setFrame t i f).tables t' j = _
  rw [tables_setFrame]
  exact entry_setEntry

theorem entry_setFrameFlags {fl : Entry} :
    (m.setFrameFlags t i f fl).entry t' j =
      if t' = t ∧ j = i then ((m.entry t i).withFrame f).setFlags fl else m.entry t' j := by
  rw [setFrameFlags, entry_modifyEntry, entry_setFrame, entry_setFrame]
  by_cases hc : t' = t ∧ j = i <;> simp [hc]

theorem allocate_eq_some (h : m.allocate = some (f, m')) :
    FrameAlloc.allocate m.free = some (f, m'.free) ∧ m'.tables = m.tables ∧ m'.uses = m.uses ∧
      m'.pages = m.pages := by
  unfold allocate at h
  split at h
  · cases h
  · cases h
    exact ⟨by assumption, rfl, rfl, rfl⟩

/-- The frame handed out was free. -/
theorem mem_free_of_allocate (h : m.allocate = some (f, m')) : f ∈ m.free :=
  FrameAlloc.mem_of_allocate (allocate_eq_some h).1

/-- The frame handed out is free no longer. -/
theorem not_mem_free_allocate (h : m.allocate = some (f, m')) : f ∉ m'.free :=
  FrameAlloc.not_mem_allocate (allocate_eq_some h).1

/-- A frame free after the allocation was free before. -/
theorem mem_free_of_mem_allocate (h : m.allocate = some (f, m')) {g : ℕ} (hg : g ∈ m'.free) :
    g ∈ m.free :=
  FrameAlloc.mem_of_mem_allocate (allocate_eq_some h).1 hg

@[simp] theorem pages_unrefPhysPage (a : ℕ) : (m.unrefPhysPage a).2.pages = m.pages := by
  simp only [unrefPhysPage]
  split_ifs <;> rfl

theorem unrefPhysPage_of_not {a : ℕ} (ha : ¬(a ≠ 0 ∧ m.hasPhysPage a = true)) :
    (m.unrefPhysPage a).2 = m := by
  simp [unrefPhysPage, ha]

/-- For a counted address, `unref_phys_page` drops the page's count by one. -/
theorem uses_unrefPhysPage {a : ℕ} (ha : a ≠ 0 ∧ m.hasPhysPage a = true) :
    (m.unrefPhysPage a).2.uses =
      Function.update m.uses (a / pageSize) (m.uses (a / pageSize) - 1) := by
  rw [unrefPhysPage, if_pos ha]
  dsimp only
  split_ifs <;> rfl

/-- For a counted address, `unref_phys_page` gives the frame back when the count reaches zero. -/
theorem free_unrefPhysPage {a : ℕ} (ha : a ≠ 0 ∧ m.hasPhysPage a = true) :
    (m.unrefPhysPage a).2.free =
      if m.uses (a / pageSize) - 1 = 0 then FrameAlloc.deallocate m.free (frameOf a)
      else m.free := by
  rw [unrefPhysPage, if_pos ha]
  dsimp only
  split_ifs <;> rfl

theorem entry_unrefPhysPage (a : ℕ) : (m.unrefPhysPage a).2.entry t i = m.entry t i := by
  simp [entry]

/-- `set_frame` is one write of the entry after the accounting of its old and its new page. -/
theorem setFrame_eq {frame : ℕ} (h : Fits frame) :
    m.setFrame t i frame =
      (if (m.entry t i).address ≠ frame then
        (m.unrefPhysPage (m.entry t i).address).2.refPhysPage frame else m).setEntry t i
        ((m.entry t i).withFrame frame) := by
  by_cases hne : (m.entry t i).address = frame
  · simp only [setFrame, hne, ne_eq, not_true_eq_false, if_false, modifyEntry]
  · simp only [setFrame, hne, ne_eq, not_false_eq_true, if_true, modifyEntry, entry_setEntry_self,
      address_withFrame h, refPhysPage_setEntry, entry_unrefPhysPage]

end Mem

end Cykusz.Virt
