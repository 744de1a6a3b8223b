import Mathlib
import Cykusz.Mm.Virt.Entry
import Cykusz.Lib.FrameAlloc

/-!
# Page tables in physical memory

A model of `Table` and `P4Table` (`arch/x86_64/mm/virt/table.rs`) over a model of physical memory:
every frame, read as a table of `ENTRIES_COUNT = 512` entries; the physical allocator; and the
`vm_use_count` of every physical page, which `set_frame` and `unref_phys_page` (`entry.rs`) keep
and which frees a frame when it drops to zero.

Conventions of the model:
* a frame is its physical address, a multiple of `PAGE_SIZE`; `tables f` is the content of the
  frame at `f`, and a table write changes one entry of it;
* the physical allocator (`mm/phys`) is a parameter, any allocator with the laws of `FrameAlloc`:
  `allocate` hands out a frame it held free and frees nothing, and `deallocate` frees at most the
  frame it is given; `expect("Out of memory!")` on an allocator with no frame to give is a panic,
  `none`;
* `to_phys_page` finds a page for the addresses below `pages` frames, and `vm_use_count` is
  `uses` at the page's index;
* the locks `P4Table` takes and the `dbgln!` output do not change the tables and are left out.
-/

namespace Cykusz.Virt

/-- `ENTRIES_COUNT`. -/
def entriesCount : ℕ := 512

/-- A table: its `ENTRIES_COUNT` entries. -/
abbrev Table := Fin 512 → Entry

/-- Physical memory, the physical allocator and the pages' use counts. -/
structure Mem (A : Type) where
  tables : ℕ → Table
  free : A
  uses : ℕ → ℕ
  pages : ℕ

namespace Mem

variable {A : Type} [FrameAlloc A]

open Entry

/-! ## Frames and entries -/

/-- `entry_at`. -/
def entry (m : Mem A) (t : ℕ) (i : Fin 512) : Entry := m.tables t i

/-- `set_entry` and every write through `entry_at_mut`: the entry `i` of the table at `t`. -/
def setEntry (m : Mem A) (t : ℕ) (i : Fin 512) (e : Entry) : Mem A :=
  { m with tables := Function.update m.tables t (Function.update (m.tables t) i e) }

/-- A write of the entry `i` of the table at `t` computed from its old value. -/
def modifyEntry (m : Mem A) (t : ℕ) (i : Fin 512) (f : Entry → Entry) : Mem A :=
  m.setEntry t i (f (m.entry t i))

/-- `Frame::clear`, `Table::clear`: a frame of zeros. -/
def clearFrame (m : Mem A) (f : ℕ) : Mem A :=
  { m with tables := Function.update m.tables f fun _ => 0 }

/-- `phys::allocate` with its `expect`: a frame of the allocator. -/
def allocate (m : Mem A) : Option (ℕ × Mem A) :=
  match FrameAlloc.allocate m.free with
  | none => none
  | some (f, a) => some (f, { m with free := a })

/-- `deallocate_order(frame, 0)`: the frame goes back to the allocator. -/
def deallocate (m : Mem A) (f : ℕ) : Mem A := { m with free := FrameAlloc.deallocate m.free f }

/-- `PhysAddr::to_phys_page` finds a page for the address. -/
def hasPhysPage (m : Mem A) (addr : ℕ) : Bool := addr / pageSize < m.pages

/-- `Entry::unref_phys_page` of the address of an entry: the page's count drops, saturating at
zero, and the frame is freed when it reaches zero. -/
def unrefPhysPage (m : Mem A) (addr : ℕ) : Bool × Mem A :=
  if addr ≠ 0 ∧ m.hasPhysPage addr = true then
    let cnt := m.uses (addr / pageSize) - 1
    let m := { m with uses := Function.update m.uses (addr / pageSize) cnt }
    if cnt = 0 then (true, m.deallocate (frameOf addr)) else (false, m)
  else (false, m)

/-- `Entry::ref_phys_page`. -/
def refPhysPage (m : Mem A) (addr : ℕ) : Mem A :=
  if addr ≠ 0 ∧ m.hasPhysPage addr = true then
    { m with uses := Function.update m.uses (addr / pageSize) (m.uses (addr / pageSize) + 1) }
  else m

/-- `Entry::set_frame` of the entry `i` of the table at `t`: a new address releases the old
page and takes the new one. -/
def setFrame (m : Mem A) (t : ℕ) (i : Fin 512) (frame : ℕ) : Mem A :=
  let refPage := (m.entry t i).address ≠ frame
  let m := if refPage then (m.unrefPhysPage (m.entry t i).address).2 else m
  let m := m.modifyEntry t i (·.withFrame frame)
  if refPage then m.refPhysPage (m.entry t i).address else m

/-- `Entry::set_frame_flags`. -/
def setFrameFlags (m : Mem A) (t : ℕ) (i : Fin 512) (frame : ℕ) (flags : Entry) : Mem A :=
  (m.setFrame t i frame).modifyEntry t i (·.setFlags flags)

/-! ## Tables above the last level -/

/-- `next_level`: the table a present entry links to. -/
def nextLevel (m : Mem A) (t : ℕ) (i : Fin 512) : Option ℕ :=
  if (m.entry t i).contains present then some (m.entry t i).address else none

/-- `alloc_next_level`: link a cleared table from a new frame when the entry is not present,
then set the entry's flags; returns whether a table was allocated and the next table. -/
def allocNextLevel (m : Mem A) (t : ℕ) (i : Fin 512) (user : Bool) :
    Option (Bool × ℕ × Mem A) := do
  let (wasAlloc, m) ←
    if !(m.entry t i).contains present then do
      let (frame, m) ← m.allocate
      pure (true, (m.clearFrame frame).setFrame t i frame)
    else pure (false, m)
  let flags := present ||| writable ||| (if user then Entry.user else 0)
  let m := m.modifyEntry t i (·.setFlags flags)
  pure (wasAlloc, (m.entry t i).address, m)

/-- `do_unmap` above the last level, after an entry of the next table was removed: the count
drops, and the next table is released with its last entry. -/
def doUnmap (m : Mem A) (t : ℕ) (i : Fin 512) : Option (Bool × Mem A) := do
  let e ← (m.entry t i).decEntryCount
  let m := m.setEntry t i e
  if e.getEntryCount = 0 then
    let m := (m.unrefPhysPage e.address).2
    pure (true, m.setEntry t i 0)
  else pure (false, m)

/-- `set_hugepage`: a present huge entry for the frame, when the entry is not present. -/
def setHugepage (m : Mem A) (t : ℕ) (i : Fin 512) (frame : ℕ) : Bool × Mem A :=
  if !(m.entry t i).contains present then
    (true, m.setFrameFlags t i frame (present ||| writable ||| hugePage))
  else (false, m)

/-! ## The last level -/

/-- `Table<Level1>::set`: map the frame when the entry is not present. -/
def setL1 (m : Mem A) (t : ℕ) (i : Fin 512) (frame : ℕ) : Bool × Mem A :=
  if !(m.entry t i).contains present then
    (true, m.setFrameFlags t i frame (present ||| writable))
  else (false, m)

/-- `Table<Level1>::set_flags`: map the frame with the flags, over what was there; returns whether
the entry was not present. -/
def setFlagsL1 (m : Mem A) (t : ℕ) (i : Fin 512) (frame : ℕ) (flags : Entry) : Bool × Mem A :=
  (!(m.entry t i).contains present, m.setFrameFlags t i frame (present ||| flags))

/-- `Table<Level1>::alloc_set_flags`: map a cleared new frame when the entry is not present, or
keep its frame; either way with the flags. -/
def allocSetFlags (m : Mem A) (t : ℕ) (i : Fin 512) (flags : Entry) : Option (Bool × Mem A) :=
  if !(m.entry t i).contains present then do
    let (frame, m) ← m.allocate
    pure (true, (m.clearFrame frame).setFrameFlags t i frame (flags ||| present))
  else
    some (false, m.setFrameFlags t i (frameOf (m.entry t i).address) (flags ||| present))

/-- `Table<Level1>::do_unmap`: release the page of a present entry and clear it. -/
def doUnmapL1 (m : Mem A) (t : ℕ) (i : Fin 512) : Bool × Mem A :=
  if (m.entry t i).contains present then
    (true, (m.unrefPhysPage (m.entry t i).address).2.setEntry t i 0)
  else (false, m)

/-- `inc_entry_count` of the entry `i` of the table at `t`. -/
def incEntryCount (m : Mem A) (t : ℕ) (i : Fin 512) : Mem A := m.modifyEntry t i Entry.incEntryCount

/-! ## `P4Table` -/

/-- `P4Table::ref_table`: count the table's own page. -/
def refTable (m : Mem A) (root : ℕ) : Mem A :=
  if m.hasPhysPage root then
    { m with uses := Function.update m.uses (root / pageSize) (m.uses (root / pageSize) + 1) }
  else m

/-- `P4Table::new`: a cleared table in a new frame, counted once. -/
def newTable (m : Mem A) : Option (ℕ × Mem A) := do
  let (frame, m) ← m.allocate
  pure (frame, (m.clearFrame frame).refTable frame)

/-- The walk that `map_flags`, `map_to_flags` and `map_to` share: link the tables of the page's
path (the user half, `p4_index < 256`, with `USER`), apply `leaf` to the page's entry in the last
table, and count what was newly linked: a new last-level entry in the table above it, a new last
table in the table above that, and a new table of the third level in the root. -/
def mapWith (leaf : Mem A → ℕ → Fin 512 → Option (Bool × Mem A)) (m : Mem A) (root virt : ℕ) :
    Option (Mem A) := do
  let page := pageNumber virt
  let user := (p4Index page).val < 256
  let (_, l3, m) ← m.allocNextLevel root (p4Index page) user
  let (wasAlloc3, l2, m) ← m.allocNextLevel l3 (p3Index page) user
  let (wasAlloc2, l1, m) ← m.allocNextLevel l2 (p2Index page) user
  let (inc, m) ← leaf m l1 (p1Index page)
  let m := if inc then m.incEntryCount l2 (p2Index page) else m
  let m := if wasAlloc2 then m.incEntryCount l3 (p3Index page) else m
  let m := if wasAlloc3 then m.incEntryCount root (p4Index page) else m
  pure m

/-- `P4Table::map_flags`: a new frame with the flags, or the page's frame with new flags. -/
def mapFlags (m : Mem A) (root virt : ℕ) (flags : PageFlags) : Option (Mem A) :=
  m.mapWith (fun m t i => m.allocSetFlags t i (fromKernelFlags flags)) root virt

/-- `P4Table::map_to_flags`: the frame of `phys` with the flags, over what was mapped. -/
def mapToFlags (m : Mem A) (root virt phys : ℕ) (flags : PageFlags) : Option (Mem A) :=
  m.mapWith (fun m t i => some (m.setFlagsL1 t i (frameOf phys) (fromKernelFlags flags))) root virt

/-- `P4Table::map_to`: the frame of `phys`, writable, unless the page is mapped. -/
def mapTo (m : Mem A) (root virt phys : ℕ) : Option (Mem A) :=
  m.mapWith (fun m t i => some (m.setL1 t i (frameOf phys))) root virt

/-- `P4Table::map_hugepage_to`: a huge entry in the table of the second level. -/
def mapHugepageTo (m : Mem A) (root virt phys : ℕ) : Option (Mem A) := do
  let page := pageNumber virt
  let user := (p4Index page).val < 256
  let (_, l3, m) ← m.allocNextLevel root (p4Index page) user
  let (wasAlloc3, l2, m) ← m.allocNextLevel l3 (p3Index page) user
  let (inc, m) := m.setHugepage l2 (p2Index page) (frameOf phys)
  let m := if inc then m.incEntryCount l3 (p3Index page) else m
  let m := if wasAlloc3 then m.incEntryCount root (p4Index page) else m
  pure m

/-- `P4Table::unmap`: clear the page's entry, and release the last table and then the table of
the second level when their last entry goes. The root's entry is never released. -/
def unmap (m : Mem A) (root virt : ℕ) : Option (Mem A) :=
  let page := pageNumber virt
  match m.nextLevel root (p4Index page) with
  | none => some m
  | some l3 =>
    match m.nextLevel l3 (p3Index page) with
    | none => some m
    | some l2 =>
      match m.nextLevel l2 (p2Index page) with
      | none => some m
      | some l1 =>
        let (r1, m) := m.doUnmapL1 l1 (p1Index page)
        if r1 then do
          let (r2, m) ← m.doUnmap l2 (p2Index page)
          if r2 then do
            let (_, m) ← m.doUnmap l3 (p3Index page)
            pure m
          else pure m
        else pure m

/-- `P4Table::to_phys`: the physical address of `addr`, through a huge entry of the third or the
second level or through the page's entry. -/
def toPhys (m : Mem A) (root addr : ℕ) : Option ℕ := do
  let page := pageNumber addr
  let l3 ← m.nextLevel root (p4Index page)
  let entry3 := m.entry l3 (p3Index page)
  if entry3.contains (hugePage ||| present) then
    some (entry3.address + (addr &&& 0x3FFFFFFF))
  else
    let l2 ← m.nextLevel l3 (p3Index page)
    let entry2 := m.entry l2 (p2Index page)
    if entry2.contains (hugePage ||| present) then
      some (entry2.address + (addr &&& 0x1FFFFF))
    else
      let l1 ← m.nextLevel l2 (p2Index page)
      let entry := m.entry l1 (p1Index page)
      if entry.contains present then some (entry.address + (addr &&& 0xFFF)) else none

/-- `P4Table::change_entry`: apply `fn` to the entry that maps `addr` (a huge entry or the page's
present entry) and return the physical address. -/
def changeEntry (m : Mem A) (root addr : ℕ) (fn : Entry → Entry) : Option ℕ × Mem A :=
  let page := pageNumber addr
  match m.nextLevel root (p4Index page) with
  | none => (none, m)
  | some l3 =>
    if (m.entry l3 (p3Index page)).contains (hugePage ||| present) then
      let m := m.modifyEntry l3 (p3Index page) fn
      (some ((m.entry l3 (p3Index page)).address + (addr &&& 0x3FFFFFFF)), m)
    else
      match m.nextLevel l3 (p3Index page) with
      | none => (none, m)
      | some l2 =>
        if (m.entry l2 (p2Index page)).contains (hugePage ||| present) then
          let m := m.modifyEntry l2 (p2Index page) fn
          (some ((m.entry l2 (p2Index page)).address + (addr &&& 0x1FFFFF)), m)
        else
          match m.nextLevel l2 (p2Index page) with
          | none => (none, m)
          | some l1 =>
            if (m.entry l1 (p1Index page)).contains present then
              let m := m.modifyEntry l1 (p1Index page) fn
              (some ((m.entry l1 (p1Index page)).address + (addr &&& 0xFFF)), m)
            else (none, m)

/-- `P4Table::update_flags`. -/
def updateFlags (m : Mem A) (root addr : ℕ) (flags : PageFlags) : Option ℕ × Mem A :=
  m.changeEntry root addr (·.setFlags (present ||| fromKernelFlags flags))

/-- `P4Table::remove_flags`. -/
def removeFlags (m : Mem A) (root addr : ℕ) (flags : PageFlags) : Option ℕ × Mem A :=
  m.changeEntry root addr (·.remove (fromKernelFlags flags))

/-- `P4Table::insert_flags`. -/
def insertFlags (m : Mem A) (root addr : ℕ) (flags : PageFlags) : Option ℕ × Mem A :=
  m.changeEntry root addr (·.insert (fromKernelFlags flags))

/-- `P4Table::get_flags`: the page's entry in its last table, present or not. -/
def getFlags (m : Mem A) (root addr : ℕ) : Option Entry := do
  let page := pageNumber addr
  let l3 ← m.nextLevel root (p4Index page)
  let l2 ← m.nextLevel l3 (p3Index page)
  let l1 ← m.nextLevel l2 (p2Index page)
  pure (m.entry l1 (p1Index page))

/-! ## `duplicate` -/

/-- The flags of the entries `duplicate` walks through and copies: `PRESENT | USER`. -/
def dupFlags : Entry := present ||| user

/-- The loop of `duplicate` over a last table `l1` of the old tree (`for_entries_mut`, each entry
tested when it is reached): a user page loses `WRITABLE` and is mapped in the new last table `n1`
to its frame with its flags (`Table<Level1>::set_flags`). Returns the number of pages copied,
`count_1`. -/
def dupL1 (l1 n1 : ℕ) (m : Mem A) : Mem A × ℕ :=
  (List.finRange 512).foldl (fun (s : Mem A × ℕ) idx1 =>
    if (s.1.entry l1 idx1).contains dupFlags then
      let m := s.1.modifyEntry l1 idx1 (·.remove writable)
      let e1 := m.entry l1 idx1
      ((m.setFlagsL1 n1 idx1 (frameOf e1.address) e1).2, s.2 + 1)
    else s) (m, 0)

/-- The loops of `duplicate` over a table `l` of the second or third level of the old tree: each
user entry gets a next table in the new table `n` (`alloc_next_level`), the loop `inner` runs over
the two next tables, and the new entry's count is set to what `inner` counted. Returns the number
of next tables allocated. -/
def dupLevel (inner : ℕ → ℕ → Mem A → Option (Mem A × ℕ)) (l n : ℕ) (m : Mem A) :
    Option (Mem A × ℕ) :=
  (List.finRange 512).foldlM (fun (s : Mem A × ℕ) idx =>
    if (s.1.entry l idx).contains dupFlags then do
      let next := frameOf (s.1.entry l idx).address
      let (w, n', m) ← s.1.allocNextLevel n idx true
      let (m, count) ← inner next n' m
      pure (m.modifyEntry n idx (·.setEntryCount count), if w then s.2 + 1 else s.2)
    else pure s) (m, 0)

/-- The loop over a table of the second level, counting `count_2`. -/
def dupL2 (l2 n2 : ℕ) (m : Mem A) : Option (Mem A × ℕ) :=
  dupLevel (fun l1 n1 m => some (dupL1 l1 n1 m)) l2 n2 m

/-- The loop over a table of the third level, counting `count_3`. -/
def dupL3 (l3 n3 : ℕ) (m : Mem A) : Option (Mem A × ℕ) := dupLevel dupL2 l3 n3 m

/-- The loop over the old root: as `dupLevel`, with no count of its own. -/
def dupL4 (root new : ℕ) (m : Mem A) : Option (Mem A) :=
  (List.finRange 512).foldlM (fun m idx4 =>
    if (m.entry root idx4).contains dupFlags then do
      let l3 := frameOf (m.entry root idx4).address
      let (_, n3, m) ← m.allocNextLevel new idx4 true
      let (m, count3) ← dupL3 l3 n3 m
      pure (m.modifyEntry new idx4 (·.setEntryCount count3))
    else pure m) m

/-- `P4Table::duplicate`: a new `P4Table` whose kernel half is the old one's entries copied as
they are, and whose user half copies the user pages, without `WRITABLE` in either table. -/
def duplicate (m : Mem A) (root : ℕ) : Option (ℕ × Mem A) := do
  let (new, m) ← m.newTable
  let m := ((List.finRange 512).drop 256).foldl (fun m e => m.setEntry new e (m.entry root e)) m
  let m ← dupL4 root new m
  pure (new, m)

end Mem

end Cykusz.Virt
