import Mathlib
import Cykusz.Mm.BuddySpec

/-!
# The boot memory ranges

`alloc::init` gives the buddy allocator the free memory of the multiboot memory map, as the
ranges `RangeMemIterator` yields: each entry of the map from 1 MiB up, cut around the kernel, the
multiboot information and the modules. `adjust_up` moves a range's start past the region its first
page falls in, and `adjust_down` ends the range at a region that starts after the start and ends
before the entry does.

Both test the regions in a fixed order, kernel, multiboot information, modules, not by where they
lie. When the multiboot information starts after the range's start and the modules lie between
the two, the range ends at the multiboot information and covers the modules
(`next_covers_modules`), and the buddy allocator is handed the modules' memory. What does hold of
every range is its start: a page at or above 1 MiB (`next_start_spec`).

Addresses are natural numbers, as in the buddy model: no sum here wraps for a memory map and
regions below `2 ^ 63`. The iterator's `current`, which only `PhysMemIterator` reads, is left out.
-/

namespace Cykusz.Phys

open Align Cykusz.Buddy

def PAGE_SIZE : ℕ := 0x1000

/-- An entry of the multiboot memory map. -/
structure MemEntry where
  baseAddr : ℕ
  length : ℕ
deriving DecidableEq, Repr

/-- `not_contains`: the page at `saddr` lies wholly before `start`, or wholly at or after
`stop`. -/
def notContains (saddr start stop : ℕ) : Bool :=
  let eaddr := saddr + PAGE_SIZE - 1
  (saddr < start && eaddr < start) || (saddr ≥ stop && eaddr ≥ stop)

def contains (saddr start stop : ℕ) : Bool := !notContains saddr start stop

theorem lt_of_contains {saddr start stop : ℕ} (h : contains saddr start stop = true) :
    saddr < stop := by
  unfold contains notContains at h
  simp [PAGE_SIZE] at h
  omega

/-- `RangeMemIterator`: the entries of the memory map still to come, what is left of the current
one, `[mm_start, mm_end)`, and the three reserved regions. -/
structure RangeMemIterator where
  mmIter : List MemEntry
  mmStart : ℕ
  mmEnd : ℕ
  kernStart : ℕ
  kernEnd : ℕ
  mbootStart : ℕ
  mbootEnd : ℕ
  modulesStart : ℕ
  modulesEnd : ℕ
deriving DecidableEq, Repr

namespace RangeMemIterator

/-- `RangeMemIterator::new`: the first entry is the current one; `none` is the `expect` on an
empty memory map. -/
def new (mmIter : List MemEntry)
    (kernStart kernEnd mbootStart mbootEnd modulesStart modulesEnd : ℕ) :
    Option RangeMemIterator :=
  match mmIter with
  | [] => none
  | ent :: rest =>
    some ⟨rest, ent.baseAddr, ent.baseAddr + ent.length, kernStart, kernEnd, mbootStart, mbootEnd,
      modulesStart, modulesEnd⟩

/-- `adjust_up`: at least 1 MiB, and past the first region, by the fixed order, whose memory the
page at `addr` meets. -/
def adjustUp (it : RangeMemIterator) (addr : ℕ) : ℕ :=
  let addr := if addr < 0x100000 then 0x100000 else addr
  if contains addr it.kernStart it.kernEnd then it.kernEnd
  else if contains addr it.mbootStart it.mbootEnd then it.mbootEnd
  else if contains addr it.modulesStart it.modulesEnd then it.modulesEnd
  else addr

/-- `adjust_down`: where a range from `start` ends: at the first region, by the fixed order, that
starts at or after `start` and ends before `addr`, else at `addr`; `none` for an empty range. -/
def adjustDown (it : RangeMemIterator) (addr start : ℕ) : Option ℕ :=
  if start ≥ addr then none
  else if it.kernEnd < addr ∧ it.kernStart ≥ start then some it.kernStart
  else if it.mbootEnd < addr ∧ it.mbootStart ≥ start then some it.mbootStart
  else if it.modulesEnd < addr ∧ it.modulesStart ≥ start then some it.modulesStart
  else some addr

/-- The first step of `next`: a used-up entry gives way to the next one of the memory map, whose
start is aligned up; `none` when the map is used up. -/
def refill (it : RangeMemIterator) : Option RangeMemIterator :=
  if it.mmStart ≥ it.mmEnd then
    match it.mmIter with
    | e :: rest =>
      some { it with mmIter := rest, mmStart := alignUp e.baseAddr 0x1000,
                     mmEnd := e.baseAddr + e.length }
    | [] => none
  else some it

variable {it it₁ : RangeMemIterator}

theorem le_adjustUp (it : RangeMemIterator) (addr : ℕ) : 0x100000 ≤ it.adjustUp addr := by
  have hmin : 0x100000 ≤ (if addr < 0x100000 then 0x100000 else addr) := by split_ifs <;> omega
  unfold adjustUp
  dsimp only
  generalize (if addr < 0x100000 then 0x100000 else addr) = a at hmin ⊢
  split_ifs with hk hm hmod
  · exact hmin.trans (lt_of_contains hk).le
  · exact hmin.trans (lt_of_contains hm).le
  · exact hmin.trans (lt_of_contains hmod).le
  · exact hmin

/-- A range's start, `align_up(adjust_up(mm_start))`, is a page at or above 1 MiB. -/
theorem start_spec (it : RangeMemIterator) (addr : ℕ) :
    0x100000 ≤ alignUp (it.adjustUp addr) 0x1000 ∧ 0x1000 ∣ alignUp (it.adjustUp addr) 0x1000 := by
  rw [alignUp_eq_roundUp]
  exact ⟨(le_adjustUp it addr).trans (le_roundUp _ _ (by norm_num)), dvd_roundUp _ _⟩

theorem adjustDown_eq_none_iff {addr start : ℕ} :
    it.adjustDown addr start = none ↔ addr ≤ start := by
  unfold adjustDown
  split_ifs <;> simp_all

/-- A refill either keeps an entry that is not used up, or takes the next one off the map. -/
theorem refill_measure (h : it.refill = some it₁) :
    2 * it₁.mmIter.length < 2 * it.mmIter.length + if it.mmStart < it.mmEnd then 1 else 0 := by
  unfold refill at h
  split_ifs at h with hge
  · split at h
    · next e rest heq =>
      simp only [Option.some.injEq] at h
      subst h
      simp [heq, not_lt.2 hge]
    · simp at h
  · simp only [Option.some.injEq] at h
    subst h
    simp [not_le.1 hge]

/-- `Iterator::next`: the range from the adjusted start to the end `adjust_down` finds; when the
start has passed the entry's end, the next entry's first range. -/
def next (it : RangeMemIterator) : Option ((ℕ × ℕ) × RangeMemIterator) :=
  match _h : it.refill with
  | none => none
  | some it₁ =>
    let start := alignUp (it₁.adjustUp it₁.mmStart) 0x1000
    match _h' : it₁.adjustDown it₁.mmEnd start with
    | some stop => some ((start, stop - start), { it₁ with mmStart := alignUp stop 0x1000 })
    | none => { it₁ with mmStart := start }.next
termination_by 2 * it.mmIter.length + if it.mmStart < it.mmEnd then 1 else 0
decreasing_by
  have hle := adjustDown_eq_none_iff.1 _h'
  have hm := refill_measure _h
  rw [if_neg (not_lt.2 hle)]
  omega

theorem refill_of_lt (h : it.mmStart < it.mmEnd) : it.refill = some it := by
  simp [refill, not_le.2 h]

theorem next_of_refill_none (h : it.refill = none) : it.next = none := by
  rw [next]
  split <;> simp_all

theorem next_of_adjustDown {stop : ℕ} (h : it.refill = some it₁)
    (hd : it₁.adjustDown it₁.mmEnd (alignUp (it₁.adjustUp it₁.mmStart) 0x1000) = some stop) :
    it.next = some ((alignUp (it₁.adjustUp it₁.mmStart) 0x1000,
      stop - alignUp (it₁.adjustUp it₁.mmStart) 0x1000),
      { it₁ with mmStart := alignUp stop 0x1000 }) := by
  rw [next]
  split
  · simp_all
  · next it₂ h₂ =>
    rw [h, Option.some.injEq] at h₂
    subst h₂
    dsimp only
    split <;> simp_all

theorem next_of_adjustDown_none (h : it.refill = some it₁)
    (hd : it₁.adjustDown it₁.mmEnd (alignUp (it₁.adjustUp it₁.mmStart) 0x1000) = none) :
    it.next = { it₁ with mmStart := alignUp (it₁.adjustUp it₁.mmStart) 0x1000 }.next := by
  rw [next]
  split
  · simp_all
  · next it₂ h₂ =>
    rw [h, Option.some.injEq] at h₂
    subst h₂
    dsimp only
    split <;> simp_all

/-- Every range `next` yields starts on a page at or above 1 MiB. -/
theorem next_start_spec (it : RangeMemIterator) :
    ∀ r it', it.next = some (r, it') → 0x100000 ≤ r.1 ∧ 0x1000 ∣ r.1 := by
  -- on `next`'s own recursion: an entry whose start has passed its end is skipped
  induction it using next.induct with
  | case1 it h =>
    intro r it' hn
    rw [next_of_refill_none h] at hn
    cases hn
  | case2 it it₁ h start stop hd =>
    intro r it' hn
    rw [next_of_adjustDown h hd, Option.some.injEq, Prod.mk.injEq] at hn
    rw [← hn.1]
    exact start_spec it₁ _
  | case3 it it₁ h start hd ih =>
    intro r it' hn
    rw [next_of_adjustDown_none h hd] at hn
    exact ih r it' hn

/-- `adjust_down` ends a range at the multiboot information when the kernel does not end it
first, however the modules lie. -/
theorem adjustDown_of_mboot {addr start : ℕ} (hlt : start < addr)
    (hk : ¬ (it.kernEnd < addr ∧ it.kernStart ≥ start)) (he : it.mbootEnd < addr)
    (hs : it.mbootStart ≥ start) : it.adjustDown addr start = some it.mbootStart := by
  rw [adjustDown, if_neg (not_le.2 hlt), if_neg hk, if_pos ⟨he, hs⟩]

/-- A range that starts before the modules and would end at the multiboot information after them
ends there: it holds every module address. -/
theorem next_covers_modules (it : RangeMemIterator) (s : ℕ)
    (hs : alignUp (it.adjustUp it.mmStart) 0x1000 = s) (hlive : it.mmStart < it.mmEnd)
    (hkern : ¬ (it.kernEnd < it.mmEnd ∧ it.kernStart ≥ s))
    (hmboot : s ≤ it.mbootStart ∧ it.mbootStart ≤ it.mbootEnd ∧ it.mbootEnd < it.mmEnd)
    (hmods : s ≤ it.modulesStart ∧ it.modulesStart < it.modulesEnd ∧
      it.modulesEnd ≤ it.mbootStart) :
    it.next = some ((s, it.mbootStart - s), { it with mmStart := alignUp it.mbootStart 0x1000 }) ∧
      s ≤ it.modulesStart ∧ it.modulesEnd ≤ s + (it.mbootStart - s) := by
  have hd : it.adjustDown it.mmEnd s = some it.mbootStart :=
    adjustDown_of_mboot (by omega) hkern hmboot.2.2 hmboot.1
  subst hs
  exact ⟨next_of_adjustDown (refill_of_lt hlive) hd, hmods.1, by omega⟩

/-- The iterator `new` makes of one entry `[1 MiB, 128 MiB)`, with the kernel at `[1 MiB, 2 MiB)`,
the modules at `[3 MiB, 3.5 MiB)` and the multiboot information at `[4 MiB, 4 MiB + 4 KiB)`. -/
def bootIter : RangeMemIterator :=
  ⟨[], 0x100000, 0x8000000, 0x100000, 0x200000, 0x400000, 0x401000, 0x300000, 0x380000⟩

example : new [⟨0x100000, 0x7F00000⟩] 0x100000 0x200000 0x400000 0x401000 0x300000 0x380000 =
    some bootIter := rfl

theorem next_covers_modules_boot :
    bootIter.next = some ((0x200000, bootIter.mbootStart - 0x200000),
      { bootIter with mmStart := alignUp bootIter.mbootStart 0x1000 }) ∧
      0x200000 ≤ bootIter.modulesStart ∧
      bootIter.modulesEnd ≤ 0x200000 + (bootIter.mbootStart - 0x200000) :=
  next_covers_modules bootIter 0x200000 (by decide) (by decide) (by decide) (by decide)
    (by decide)

/-- The `for` loop of `alloc::init`: the ranges fill an array of 16; `none` is the index out of
bounds when a 17th comes. -/
def collect (it : RangeMemIterator) : ℕ → Option (List (ℕ × ℕ))
  | 0 =>
    match it.next with
    | none => some []
    | some _ => none
  | k + 1 =>
    match it.next with
    | none => some []
    | some (r, it) => (it.collect k).map (r :: ·)

end RangeMemIterator

/-- `alloc::init`: the buddy allocator manages memory from the first range's start to the last
one's end, and each range is added to it free. `none` is a panic on the way: an empty memory map,
a 17th range, no range at all (`assert!(len > 0)`), or the allocator's own. -/
def allocInit (mmIter : List MemEntry)
    (kernStart kernEnd mbootStart mbootEnd modulesStart modulesEnd : ℕ) : Option BuddyAlloc := do
  let it ← RangeMemIterator.new mmIter kernStart kernEnd mbootStart mbootEnd modulesStart
    modulesEnd
  let ranges ← it.collect 16
  match ranges.head?, ranges.getLast? with
  | some (memStart, _), some (s, l) =>
    let bdy ← BuddyAlloc.new.init memStart (s + l)
    ranges.foldlM (fun bdy (r : ℕ × ℕ) => bdy.addRange r.1 (r.1 + r.2)) bdy
  | _, _ => none

end Cykusz.Phys
