import Mathlib
import Cykusz.Lib.Align

/-!
# A task's memory mappings

A model of the mappings of `VMData` (`kernel/task/vm.rs`): the sorted list `maps`, each mapping
the pages `[start, end)` with its protection, its flags and, for a file mapping, the
`MMapedFile` that says which part of the file it shows (`starting_offset`, and `len`, the bytes
of the file behind it). The operations are those of `VMData`:

* `mmap` checks its arguments, finds a place (`find_fixed` after an `unmap` of the range for
  `MAP_FIXED`, `find_any_above` from the hint or from `MMAP_USER_ADDR` otherwise) and inserts
  `Mapping::new` there, merged with a neighbour that `try_merge` accepts;
* `unmap` cuts `[addr, align_up(addr + len))` out of the mappings it meets: `Mapping::unmap`
  drops a mapping, trims its beginning (`update_start`) or its end (`update_end`), or splits it
  (`split_from`) and puts the part after the hole back with `insert_merge_after`;
* a fault on a page that is not present, in a private file mapping, installs the file's page at
  the fault's offset, its first `min(PAGE_SIZE, len - addr_offset)` bytes and zeros after them
  (`handle_pf_private_file`).

A fresh file mapping shows exactly the file's bytes below `addr + len` and zeros after them
(`new_privateFilePage`). `update_start` moves `starting_offset` with the start but keeps `len`, so
once the beginning of a mapping is unmapped its last page shows the file past the end of the
mapped part (`begin_unmap_exposes_file`). `find_any_above` compares the raw `len` with the hole
in front of a mapping while `Mapping::new` rounds the end up to a page, and it returns the hint as
it is, so a hint just below a mapping gets a mapping that overlaps it
(`mmap_hint_overlaps`). `try_merge` accepts two parts of a file that follow each other in the
file in either order, joins the mappings on the side where they meet in memory, and keeps the
smaller `starting_offset`: the part of the file after a mapping, mapped just below it, is merged
into pages that show the mapping's own offsets (`tryMerge_front_moves_offset`).

Conventions of the model:
* addresses and lengths are natural numbers, and `VirtAddr::align_down` and `align_up` to
  `PAGE_SIZE`, a power of two, are `roundDown` and `roundUp`; the `usize` subtractions of
  `find_any_above` are taken on sorted, disjoint mappings below `MAX_USER_ADDR`, where none of
  them wraps;
* a cursor of the mapping list is an index into it, the list's length for the ghost past its end;
* page tables, the page-cache pages a mapping holds (`active_mappings`) and reference counts are
  left out: a file is its handle's identity, and the page cache is a function from a file and an
  offset to the byte there;
* a failed `assert!` is `none`.
-/

namespace Cykusz.Kernel.Vm

open Align

/-- `PAGE_SIZE`. -/
def PAGE_SIZE : ℕ := 0x1000

/-- `MAX_USER_ADDR`: user addresses are below it. -/
def MAX_USER_ADDR : ℕ := 0x8000_0000_0000

/-- `MMAP_USER_ADDR`: where a mapping without a hint is placed from. -/
def MMAP_USER_ADDR : ℕ := 0x7000_0000_0000

/-- `VirtAddr::is_user`. -/
def isUser (a : ℕ) : Bool := a < MAX_USER_ADDR

/-- `MMapProt`. -/
structure MMapProt where
  bits : BitVec 64
deriving DecidableEq, Repr

namespace MMapProt

def PROT_READ : MMapProt := ⟨0x1⟩
def PROT_WRITE : MMapProt := ⟨0x2⟩
def PROT_EXEC : MMapProt := ⟨0x4⟩

/-- `MMapProt::contains`. -/
def contains (p q : MMapProt) : Bool := p.bits &&& q.bits == q.bits

/-- `MMapProt::is_empty`. -/
def isEmpty (p : MMapProt) : Bool := p.bits == 0

end MMapProt

/-- `MMapFlags`. -/
structure MMapFlags where
  bits : BitVec 64
deriving DecidableEq, Repr

namespace MMapFlags

def MAP_PRIVATE : MMapFlags := ⟨0x1⟩
def MAP_SHARED : MMapFlags := ⟨0x2⟩
def MAP_FIXED : MMapFlags := ⟨0x4⟩
def MAP_ANONYOMUS : MMapFlags := ⟨0x8⟩

instance : OrOp MMapFlags := ⟨fun f g => ⟨f.bits ||| g.bits⟩⟩

/-- `MMapFlags::contains`. -/
def contains (f g : MMapFlags) : Bool := f.bits &&& g.bits == g.bits

/-- `MMapFlags::intersects`. -/
def intersects (f g : MMapFlags) : Bool := f.bits &&& g.bits != 0

end MMapFlags

/-- `PageFaultReason`. -/
structure PageFaultReason where
  bits : BitVec 64
deriving DecidableEq, Repr

namespace PageFaultReason

def PRESENT : PageFaultReason := ⟨0b1⟩
def WRITE : PageFaultReason := ⟨0b10⟩
def USER : PageFaultReason := ⟨0b100⟩
def I_FETCH : PageFaultReason := ⟨0b10000⟩

/-- `PageFaultReason::contains`. -/
def contains (r s : PageFaultReason) : Bool := r.bits &&& s.bits == s.bits

end PageFaultReason

open MMapProt MMapFlags PageFaultReason

/-- A file handle as the mappings see it: its identity (`Arc::ptr_eq`), and whether its inode
can be mapped (`as_mappable`). -/
structure FileRef where
  id : ℕ
  mappable : Bool
deriving DecidableEq, Repr

/-- `MMapedFile`: the file, the offset in it of the mapping's first page, and `len`, the bytes of
the file the mapping shows. -/
structure MMapedFile where
  file : FileRef
  startingOffset : ℕ
  len : ℕ
deriving DecidableEq, Repr

namespace MMapedFile

/-- `MMapedFile::split_from`: the file from `newOffset` on goes to a new `MMapedFile`, and `f`
keeps what is before it. -/
def splitFrom (f : MMapedFile) (newOffset : ℕ) : Option (MMapedFile × MMapedFile) :=
  if f.len > newOffset - f.startingOffset then
    let newLen := f.len - (newOffset - f.startingOffset)
    some ({ f with len := f.len - newLen }, ⟨f.file, newOffset, newLen⟩)
  else none

/-- `MMapedFile::merge`: `other` is joined to `f`. -/
def merge (f other : MMapedFile) : MMapedFile :=
  { f with startingOffset := min f.startingOffset other.startingOffset, len := f.len + other.len }

end MMapedFile

/-- `Mapping`: the pages `[start, end)`. -/
structure Mapping where
  mmapedFile : Option MMapedFile
  prot : MMapProt
  flags : MMapFlags
  start : ℕ
  «end» : ℕ
deriving DecidableEq, Repr

/-- `UnmapResult`: how `Mapping::unmap` cut a mapping. -/
inductive UnmapResult
  | none
  | full
  | begin
  | mid (split : Mapping)
  | «end»
deriving DecidableEq, Repr

/-- The handler `VMData::handle_pagefault` gives a fault to, by the mapping's flags. -/
inductive Handler
  | sharedFile
  | privateFile
  | privateAnon
deriving DecidableEq, Repr

namespace Mapping

/-- `Mapping::new`: the end is `len` rounded up to a page, and a file mapping shows `len` bytes of
the file from `offset`. -/
def new (addr len : ℕ) (prot : MMapProt) (flags : MMapFlags) (file : Option FileRef)
    (offset : ℕ) : Mapping :=
  ⟨file.map fun f => ⟨f, offset, len⟩, prot, flags, addr, addr + roundUp len PAGE_SIZE⟩

/-- `Mapping::new_split`. -/
def newSplit (addr len : ℕ) (prot : MMapProt) (flags : MMapFlags) (file : Option MMapedFile) :
    Mapping :=
  ⟨file, prot, flags, addr, addr + len⟩

/-- `Mapping::try_merge`: `m` with `other` joined to it, when both show adjacent parts of one
file or no file, have the same flags and protection, and are adjacent; `none` when the call
returns `false`. -/
def tryMerge (m other : Mapping) : Option Mapping :=
  let fileOk : Bool := match m.mmapedFile, other.mmapedFile with
    | some mf, some omf => mf.file == omf.file &&
        (mf.startingOffset + mf.len == omf.startingOffset ||
          omf.startingOffset + omf.len == mf.startingOffset)
    | _, _ => true
  if !fileOk || m.mmapedFile.isNone != other.mmapedFile.isNone || m.flags != other.flags ||
      m.prot != other.prot then none
  else
    let merged :=
      if m.start = other.«end» then some { m with start := other.start }
      else if m.«end» = other.start then some { m with «end» := other.«end» }
      else none
    merged.map fun m' => { m' with
      mmapedFile := match m'.mmapedFile, other.mmapedFile with
        | some f, some g => some (f.merge g)
        | f, _ => f }

/-- `Mapping::update_end`. -/
def updateEnd (m : Mapping) (newEnd : ℕ) : Option Mapping :=
  if newEnd > m.start ∧ newEnd < m.«end» then some { m with «end» := newEnd } else none

/-- `Mapping::update_start`: the file offset moves with the start, and `len` stays as it is. -/
def updateStart (m : Mapping) (newStart : ℕ) : Option Mapping :=
  if newStart > m.start ∧ newStart < m.«end» then
    some { m with
      mmapedFile := m.mmapedFile.map fun f =>
        { f with startingOffset := f.startingOffset + (newStart - m.start) }
      start := newStart }
  else none

/-- `Mapping::split_from`: `m` keeps `[start, addr)`, and the mapping of `[addr, end)` is
returned. -/
def splitFrom (m : Mapping) (addr : ℕ) : Option (Mapping × Mapping) :=
  if addr > m.start ∧ addr < m.«end» then
    let files : Option (Option MMapedFile × Option MMapedFile) := match m.mmapedFile with
      | some f => (f.splitFrom (f.startingOffset + (addr - m.start))).map
          fun (f, g) => (some f, some g)
      | none => some (none, none)
    files.bind fun (f, g) =>
      ({ m with mmapedFile := f }.updateEnd addr).map
        fun m' => (m', newSplit addr (m.«end» - addr) m.prot m.flags g)
  else none

/-- `Mapping::unmap` of `[start, stop)`: how the mapping is cut, and what is left of it. -/
def unmap (m : Mapping) (start stop : ℕ) : Option (UnmapResult × Mapping) :=
  if start % PAGE_SIZE ≠ 0 ∨ stop % PAGE_SIZE ≠ 0 then none
  else if stop ≤ m.start ∨ start ≥ m.«end» then some (.none, m)
  else if start > m.start ∧ stop < m.«end» then
    -- the middle part between the two splits is dropped
    (m.splitFrom start).bind fun (m', mid) =>
      (mid.splitFrom stop).map fun (_, split2) => (.mid split2, m')
  else if start ≤ m.start ∧ stop ≥ m.«end» then some (.full, m)
  else if start ≤ m.start ∧ stop < m.«end» then (m.updateStart stop).map fun m' => (.begin, m')
  else (m.updateEnd start).map fun m' => (.«end», m')

/-- The handler of `VMData::handle_pagefault` for faults in `m`. -/
def handler (m : Mapping) : Handler :=
  if !m.flags.contains MAP_PRIVATE then .sharedFile
  else if !m.flags.contains MAP_ANONYOMUS then .privateFile
  else .privateAnon

/-- The page `handle_pf_private_file` installs at `align_down(addr)` on a fault that found no
page there (`PRESENT` clear), read or write: the page cache's page at the fault's offset, mapped
itself when `bytes` is a whole page and otherwise copied up to `bytes` into a cleared page;
`none` for a mapping without a file. -/
def privateFilePage (m : Mapping) (fileData : FileRef → ℕ → UInt8) (addr : ℕ) :
    Option (ℕ → UInt8) :=
  m.mmapedFile.map fun f =>
    let offset := addr - m.start + f.startingOffset
    let addrOffset := roundDown addr PAGE_SIZE - m.start
    -- `f.len - addr_offset` is a `usize` subtraction: past `len` it wraps to a huge number
    let bytes := if addrOffset ≤ f.len then min PAGE_SIZE (f.len - addrOffset) else PAGE_SIZE
    fun i => if i < bytes then fileData f.file (roundDown offset PAGE_SIZE + i) else 0

end Mapping

/-- `insert_merge_after` with the cursor on `cur` (`none` for the ghost before the front) and
`rest` the mappings after it: `mapping` first takes `cur` in if `try_merge` lets it, and is then
taken in by the next mapping or put in front of it. The result replaces `cur` and `rest`. -/
def insertMergeAfter (cur : Option Mapping) (mapping : Mapping) (rest : List Mapping) :
    List Mapping :=
  let (mapping, kept) : Mapping × List Mapping := match cur with
    | some c => match mapping.tryMerge c with
      | some merged => (merged, [])
      | none => (mapping, [c])
    | none => (mapping, [])
  kept ++ match rest with
    | next :: rest' => match next.tryMerge mapping with
      | some merged => merged :: rest'
      | none => mapping :: next :: rest'
    | [] => [mapping]

/-- `insert_merge_before` with the cursor at index `i`: `insert_merge_after` from the mapping
before it, or from the ghost at the front. -/
def insertMergeBefore (maps : List Mapping) (i : ℕ) (mapping : Mapping) : List Mapping :=
  match i with
  | 0 => insertMergeAfter none mapping maps
  | i + 1 => maps.take i ++ insertMergeAfter maps[i]? mapping (maps.drop (i + 1))

/-- The loop of `VMData::unmap` over `[start, stop)` from the cursor on, `success` what it has
returned so far: the call's result, and the mappings it leaves from the cursor on. -/
def unmapFrom (start stop : ℕ) : List Mapping → Bool → Option (Bool × List Mapping)
  | [], success => some (success, [])
  | c :: rest, success =>
    if c.«end» ≤ start then (unmapFrom start stop rest success).map fun (r, l) => (r, c :: l)
    else (c.unmap start stop).bind fun (res, c') => match res with
      | .none => some (success, c' :: rest)
      | .full => unmapFrom start stop rest true
      | .begin => some (true, c' :: rest)
      | .«end» => (unmapFrom start stop rest true).map fun (r, l) => (r, c' :: l)
      | .mid split => some (true, insertMergeAfter (some c') split rest)

/-- `VMData::unmap` of `len` bytes from `addr`, to the end of the page. -/
def unmap (maps : List Mapping) (addr len : ℕ) : Option (Bool × List Mapping) :=
  if addr % PAGE_SIZE ≠ 0 then some (false, maps)
  else unmapFrom addr (roundUp (addr + len) PAGE_SIZE) maps false

/-- `VMData::find_fixed` from the cursor at index `i`: the cursor to insert `[addr, addr + len)`
at, or `none` when a mapping is in the way. -/
def findFixed (addr len : ℕ) : List Mapping → ℕ → Option ℕ
  | [], i => some i
  | c :: rest, i =>
    if c.start ≤ addr ∧ c.«end» > addr then none
    else if c.start < addr then findFixed addr len rest (i + 1)
    else if addr + len > c.start then none
    else some i

/-- Where `find_any_above` starts the hole in front of the cursor: the hint, or the end of the
mapping before the cursor if that is above the hint. -/
def holeStart (addr : ℕ) : Option Mapping → ℕ
  | some p => max addr p.«end»
  | none => addr

/-- The loop of `VMData::find_any_above` from the cursor at index `i`, `prev` the mapping before
it: the start of the first hole of `len` bytes at or above `addr`, and the cursor after it. -/
def findAnyAboveLoop (addr len : ℕ) : Option Mapping → ℕ → List Mapping → Option (ℕ × ℕ)
  | prev, i, c :: rest =>
    if c.start < addr then findAnyAboveLoop addr len (some c) (i + 1) rest
    else
      let start := holeStart addr prev
      if len ≤ c.start - start then some (start, i)
      else findAnyAboveLoop addr len (some c) (i + 1) rest
  | prev, i, [] =>
    -- the hole after the last mapping reaches up to `MAX_USER_ADDR`
    match prev with
    | some p =>
      let start := max p.«end» addr
      if MAX_USER_ADDR - start ≥ len then some (start, i) else none
    | none => none

/-- `VMData::find_any_above`: an empty list takes the mapping at `addr` itself. -/
def findAnyAbove (maps : List Mapping) (addr len : ℕ) : Option (ℕ × ℕ) :=
  if maps = [] then some (addr, 0) else findAnyAboveLoop addr len none 0 maps

/-- The checks `VMData::mmap` makes of its arguments before it looks for a place. -/
def mmapArgsOk (addr : Option ℕ) (len : ℕ) (flags : MMapFlags) (file : Option FileRef)
    (offset : ℕ) : Bool :=
  offset % PAGE_SIZE == 0 && len != 0 &&
    (match addr with
      | some a =>
        !(flags.contains MAP_FIXED && (a % PAGE_SIZE != 0 || a + len > MAX_USER_ADDR)) &&
          isUser a
      | none => true) &&
    (match file with
      | some f =>
        !flags.contains MAP_ANONYOMUS && flags.intersects (MAP_SHARED ||| MAP_PRIVATE) &&
          f.mappable
      | none => flags.contains MAP_ANONYOMUS)

/-- `VMData::mmap`: the mappings after the call and the address it returns. `anonFile` is the
handle `AnonymousSharedMem::get_file_handle` makes for a shared anonymous mapping. -/
def mmap (maps : List Mapping) (addr : Option ℕ) (len : ℕ) (prot : MMapProt) (flags : MMapFlags)
    (file : Option FileRef) (offset : ℕ) (anonFile : FileRef) : Option (List Mapping × ℕ) :=
  if !mmapArgsOk addr len flags file offset then none
  else
    let file := if flags.contains (MAP_ANONYOMUS ||| MAP_SHARED) then some anonFile else file
    let found : Option (List Mapping × ℕ × ℕ) := match addr with
      | some a =>
        if flags.contains MAP_FIXED then
          -- any mapping in the range is removed first
          (unmap maps a (roundUp len PAGE_SIZE)).bind fun (_, maps') =>
            (findFixed a (roundUp len PAGE_SIZE) maps' 0).map fun i => (maps', a, i)
        else (findAnyAbove maps a len).map fun (a', i) => (maps, a', i)
      | none =>
        (findAnyAbove maps MMAP_USER_ADDR (roundUp len PAGE_SIZE)).map fun (a', i) => (maps, a', i)
    found.map fun (maps', a', i) =>
      (insertMergeBefore maps' i (Mapping.new a' len prot flags file offset), a')

/-- The mapping `VMData::handle_pagefault` gives a fault at `addr` to, once the mapping's
protection allows the access; `none` where the call returns `false` itself. -/
def faultMapping (maps : List Mapping) (reason : PageFaultReason) (addr : ℕ) : Option Mapping :=
  (maps.find? fun e => addr ≥ e.start && addr < e.«end»).bind fun m =>
    if m.prot.isEmpty then none
    else if reason.contains WRITE && !m.prot.contains PROT_WRITE then none
    else if reason.contains I_FETCH && !m.prot.contains PROT_EXEC then none
    else some m

/-! ## Unmapping the beginning of a mapping -/

namespace Mapping

theorem updateStart_of_lt {m : Mapping} {s : ℕ} (hlo : m.start < s) (hhi : s < m.«end») :
    m.updateStart s = some { m with
      mmapedFile := m.mmapedFile.map fun f =>
        { f with startingOffset := f.startingOffset + (s - m.start) }
      start := s } := by
  simp [updateStart, hlo, hhi]

/-- An unmap from at or below the start to a page inside the mapping trims its beginning. -/
theorem unmap_of_begin {m : Mapping} {start stop : ℕ} (hs : start % PAGE_SIZE = 0)
    (he : stop % PAGE_SIZE = 0) (hstart : start ≤ m.start) (hlo : m.start < stop)
    (hhi : stop < m.«end») :
    m.unmap start stop = (m.updateStart stop).map fun m' => (.begin, m') := by
  have hnf : ¬(start ≤ m.start ∧ stop ≥ m.«end») := by omega
  simp only [unmap, hs, he, ne_eq, not_true_eq_false, or_self, if_false]
  rw [if_neg (by omega), if_neg (by omega), if_neg hnf, if_pos ⟨hstart, hhi⟩]

end Mapping

/-- `VMData::unmap` of the beginning of the first mapping: the call succeeds and the mapping
keeps the pages from `stop` on. -/
theorem unmap_begin_of_first {m : Mapping} {rest : List Mapping} {stop : ℕ}
    (hs : m.start % PAGE_SIZE = 0) (he : stop % PAGE_SIZE = 0) (hlo : m.start < stop)
    (hhi : stop < m.«end») :
    ∃ m', m.updateStart stop = some m' ∧ unmap (m :: rest) m.start (stop - m.start) =
      some (true, m' :: rest) := by
  obtain ⟨m', hm'⟩ : ∃ m', m.updateStart stop = some m' :=
    ⟨_, Mapping.updateStart_of_lt hlo hhi⟩
  have hround : roundUp (m.start + (stop - m.start)) PAGE_SIZE = stop := by
    rw [Nat.add_sub_cancel' hlo.le]
    simp only [roundUp, roundDown, PAGE_SIZE] at he ⊢
    omega
  refine ⟨m', hm', ?_⟩
  have hcut : ¬m.«end» ≤ m.start := by omega
  simp only [unmap, hs, ne_eq, not_true_eq_false, if_false, hround, unmapFrom, hcut,
    Mapping.unmap_of_begin hs he le_rfl hlo hhi, hm', Option.map_some, Option.bind_some]

/-! ## What a first fault shows -/

section Fault

variable (fileData : FileRef → ℕ → UInt8)

/-- The page a private file mapping shows at `align_down(addr)`, when the page's offset in the
mapping is within `len` and the mapping and its file offset are page-aligned: the file's bytes
up to `len` and zeros after them. -/
theorem privateFilePage_of_le {m : Mapping} {f : MMapedFile} (hf : m.mmapedFile = some f)
    (hs : m.start % PAGE_SIZE = 0) (hoff : f.startingOffset % PAGE_SIZE = 0) {addr : ℕ}
    (hlo : m.start ≤ addr) (hlen : roundDown addr PAGE_SIZE - m.start ≤ f.len) {i : ℕ}
    (hi : i < PAGE_SIZE) :
    (m.privateFilePage fileData addr).map (· i) =
      some (if i < f.len - (roundDown addr PAGE_SIZE - m.start) then
        fileData f.file (f.startingOffset + (roundDown addr PAGE_SIZE - m.start) + i) else 0) := by
  have hpage : roundDown (addr - m.start + f.startingOffset) PAGE_SIZE =
      f.startingOffset + (roundDown addr PAGE_SIZE - m.start) := by
    simp only [roundDown, PAGE_SIZE] at hs hoff ⊢
    omega
  simp only [Mapping.privateFilePage, hf, Option.map_some, hlen, if_true, hpage]
  have hmin : i < min PAGE_SIZE (f.len - (roundDown addr PAGE_SIZE - m.start)) ↔
      i < f.len - (roundDown addr PAGE_SIZE - m.start) := by
    omega
  simp only [hmin]

/-- A file mapping as `mmap` makes it shows at each of its pages the file's bytes below
`addr + len` and zeros after them. -/
theorem new_privateFilePage {a len off : ℕ} (prot : MMapProt) (flags : MMapFlags) (file : FileRef)
    (ha : a % PAGE_SIZE = 0) (hoff : off % PAGE_SIZE = 0) {addr : ℕ} (hlo : a ≤ addr)
    (hhi : addr < (Mapping.new a len prot flags (some file) off).«end») {i : ℕ}
    (hi : i < PAGE_SIZE) :
    ((Mapping.new a len prot flags (some file) off).privateFilePage fileData addr).map (· i) =
      some (if roundDown addr PAGE_SIZE + i < a + len then
        fileData file (off + (roundDown addr PAGE_SIZE - a) + i) else 0) := by
  have hlen : roundDown addr PAGE_SIZE - a ≤ len := by
    simp only [Mapping.new, roundUp, roundDown, PAGE_SIZE] at hhi ha ⊢
    omega
  have hpage : a ≤ roundDown addr PAGE_SIZE := by
    simp only [roundDown, PAGE_SIZE] at ha ⊢
    omega
  have hbelow : roundDown addr PAGE_SIZE + i < a + len ↔
      i < len - (roundDown addr PAGE_SIZE - a) := by
    omega
  rw [privateFilePage_of_le fileData rfl ha hoff hlo hlen hi]
  simp only [Mapping.new, hbelow]
  congr 1

end Fault

/-! ## Merging two mappings -/

namespace Mapping

/-- What backs the page at `addr` of a mapping, as the fault handlers compute it: the protection,
the flags, and for a file mapping the file and the offset `addr - start + starting_offset` in it;
`none` outside the mapping. -/
def backing (m : Mapping) (addr : ℕ) : Option (MMapProt × MMapFlags × Option (FileRef × ℕ)) :=
  if m.start ≤ addr ∧ addr < m.«end» then
    some (m.prot, m.flags, m.mmapedFile.map fun f => (f.file, addr - m.start + f.startingOffset))
  else none

/-- What `try_merge` checked when it returns `true`, and what it made: the protection and flags
of `m`, the two files merged, and `m` grown to the front when `other` ends where `m` starts and
to the back otherwise. -/
theorem tryMerge_eq_some {m other m' : Mapping} (h : m.tryMerge other = some m') :
    m.prot = other.prot ∧ m.flags = other.flags ∧ m'.prot = m.prot ∧ m'.flags = m.flags ∧
      m'.mmapedFile = Option.map₂ MMapedFile.merge m.mmapedFile other.mmapedFile ∧
      (m.start = other.«end» ∧ m'.start = other.start ∧ m'.«end» = m.«end» ∨
        m.start ≠ other.«end» ∧ m.«end» = other.start ∧ m'.start = m.start ∧
          m'.«end» = other.«end») := by
  unfold tryMerge at h
  dsimp only at h
  -- the rejections are `none`, and so is a pair that is not adjacent
  split_ifs at h with hrej hs he
  on_goal 3 => cases h
  all_goals
    simp only [Bool.or_eq_true, Bool.not_eq_eq_eq_not, Bool.not_true, bne_iff_ne, ne_eq, not_or,
      Bool.not_eq_false, Decidable.not_not] at hrej
    obtain ⟨⟨⟨-, hnone⟩, hflags⟩, hprot⟩ := hrej
    simp only [Option.map_some, Option.some.injEq] at h
    subst h
    refine ⟨hprot, hflags, rfl, rfl, ?_, ?_⟩
    · -- both mappings have a file or neither has
      cases hf : m.mmapedFile <;> cases hg : other.mmapedFile <;> simp_all
  · exact Or.inl ⟨hs, rfl, rfl⟩
  · exact Or.inr ⟨hs, he, rfl, rfl⟩

/-- `try_merge` of a file mapping with the part of the same file just after it, mapped just
below it: the merge is accepted, the mapping grows to the front, and its `starting_offset` is the
smaller of the two, `m`'s own, so the page that was `other`'s first is no longer backed by the
file at `other`'s offset. -/
theorem tryMerge_front_moves_offset {m other : Mapping} {f g : MMapedFile}
    (hf : m.mmapedFile = some f) (hg : other.mmapedFile = some g) (hfile : f.file = g.file)
    (hoff : f.startingOffset + f.len = g.startingOffset) (hprot : m.prot = other.prot)
    (hflags : m.flags = other.flags) (hadj : m.start = other.«end»)
    (hpage : other.start < other.«end») (hlen : 0 < f.len) :
    ∃ m', m.tryMerge other = some m' ∧ m'.backing other.start ≠ other.backing other.start := by
  have hmerge : m.tryMerge other =
      some { m with start := other.start, mmapedFile := some (f.merge g) } := by
    unfold tryMerge
    simp [hf, hg, hfile, hoff, hprot, hflags, hadj]
  refine ⟨_, hmerge, ?_⟩
  have hother : other.backing other.start =
      some (other.prot, other.flags, some (g.file, g.startingOffset)) := by
    simp [backing, hpage, hg]
  rw [hother, backing]
  split_ifs
  · -- the merged offset of the page is `f`'s, `f.len` below `g`'s
    simp [MMapedFile.merge]
    omega
  · simp

end Mapping

/-- The first page of the file, mapped at `0x2000`, and the next page of it, mapped just below. -/
def fileHead : Mapping := ⟨some ⟨⟨3, true⟩, 0, 0x1000⟩, ⟨0x1⟩, ⟨0x1⟩, 0x2000, 0x3000⟩

/-- The second page of the file, mapped at `0x1000`. -/
def fileNext : Mapping := ⟨some ⟨⟨3, true⟩, 0x1000, 0x1000⟩, ⟨0x1⟩, ⟨0x1⟩, 0x1000, 0x2000⟩

/-- Merged, the page at `0x1000` shows the file from offset 0 instead of `0x1000`. -/
theorem tryMerge_front_moves_offset_page :
    fileHead.mmapedFile = some ⟨⟨3, true⟩, 0, 0x1000⟩ ∧
      fileNext.mmapedFile = some ⟨⟨3, true⟩, 0x1000, 0x1000⟩ ∧
      ∃ m', fileHead.tryMerge fileNext = some m' ∧ m'.backing fileNext.start ≠ fileNext.backing fileNext.start :=
  ⟨rfl, rfl, Mapping.tryMerge_front_moves_offset rfl rfl rfl rfl rfl rfl rfl (by decide) (by decide)⟩

/-! ## A file segment whose beginning is unmapped -/

/-- `mmap` of a file at a fixed address into an empty address space makes exactly
`Mapping::new`, as `load_bin` does for each segment. -/
theorem mmap_fixed_of_nil {a len off : ℕ} (prot : MMapProt) (file anonFile : FileRef)
    (ha : a % PAGE_SIZE = 0) (hoff : off % PAGE_SIZE = 0) (hlen : len ≠ 0)
    (hmax : a + len ≤ MAX_USER_ADDR) (hfile : file.mappable = true) :
    mmap [] (some a) len prot (MAP_PRIVATE ||| MAP_FIXED) (some file) off anonFile =
      some ([Mapping.new a len prot (MAP_PRIVATE ||| MAP_FIXED) (some file) off], a) := by
  have hok : mmapArgsOk (some a) len (MAP_PRIVATE ||| MAP_FIXED) (some file) off = true := by
    have hbelow : ¬a + len > MAX_USER_ADDR := by omega
    have huser : isUser a = true := by
      simp only [isUser, decide_eq_true_eq]
      omega
    have hanon : (MAP_PRIVATE ||| MAP_FIXED).contains MAP_ANONYOMUS = false := by decide
    have hpriv : (MAP_PRIVATE ||| MAP_FIXED).intersects (MAP_SHARED ||| MAP_PRIVATE) = true := by
      decide
    simp [mmapArgsOk, hoff, ha, hlen, hbelow, huser, hfile, hanon, hpriv]
  have hfixed : (MAP_PRIVATE ||| MAP_FIXED).contains MAP_FIXED = true := by decide
  have hshared : (MAP_PRIVATE ||| MAP_FIXED).contains (MAP_ANONYOMUS ||| MAP_SHARED) = false := by
    decide
  -- `unmap` of the range finds nothing, and `find_fixed` stops at the ghost of the empty list
  have hun : unmap [] a (roundUp len PAGE_SIZE) = some (false, []) := by
    simp [unmap, ha, unmapFrom]
  simp only [mmap, hok, Bool.not_true, hshared, hfixed, hun, Option.bind_some, Bool.false_eq_true,
    if_false, if_true]
  rfl

/-- A private file segment whose length ends inside a page, mapped as `load_bin` maps it, with a
first part of whole pages unmapped: the trimmed mapping keeps the file's `len`, so a first read
fault on its last page installs the file's bytes over the whole page, also at the offsets at
and past `addr + len`, where the segment's file part has ended. -/
theorem begin_unmap_exposes_file (fileData : FileRef → ℕ → UInt8) {a len e off : ℕ}
    (prot : MMapProt) (file anonFile : FileRef) (ha : a % PAGE_SIZE = 0)
    (hoff : off % PAGE_SIZE = 0) (hmax : a + len ≤ MAX_USER_ADDR) (hfile : file.mappable = true)
    (hprot : prot.isEmpty = false) (he : e % PAGE_SIZE = 0) (hae : a < e)
    (hlast : e ≤ roundDown (a + len) PAGE_SIZE) (htail : (a + len) % PAGE_SIZE ≠ 0) :
    ∃ m m', mmap [] (some a) len prot (MAP_PRIVATE ||| MAP_FIXED) (some file) off anonFile =
        some ([m], a) ∧
      unmap [m] a (e - a) = some (true, [m']) ∧
      faultMapping [m'] USER (roundDown (a + len) PAGE_SIZE) = some m' ∧
      m'.handler = .privateFile ∧
      ∀ i < PAGE_SIZE, (m'.privateFilePage fileData (roundDown (a + len) PAGE_SIZE)).map (· i) =
        some (fileData file (off + (roundDown (a + len) PAGE_SIZE - a) + i)) := by
  set m := Mapping.new a len prot (MAP_PRIVATE ||| MAP_FIXED) (some file) off with hm
  set P := roundDown (a + len) PAGE_SIZE with hP
  -- the last page `P` is a whole page past `e` and still inside the mapping
  have hPe : e ≤ P := hlast
  have hPend : P < m.«end» := by
    simp only [hm, hP, Mapping.new, roundUp, roundDown, PAGE_SIZE] at ha htail ⊢
    omega
  have hlen : len ≠ 0 := by
    rintro rfl
    exact htail (by simpa using ha)
  obtain ⟨m', hm', hunmap⟩ := @unmap_begin_of_first m [] e ha he hae
    (lt_of_le_of_lt hPe hPend)
  have hm'eq : m' = { m with mmapedFile := some ⟨file, off + (e - a), len⟩, start := e } := by
    rw [Mapping.updateStart_of_lt hae (lt_of_le_of_lt hPe hPend)] at hm'
    exact (Option.some.inj hm').symm
  subst hm'eq
  refine ⟨m, _, mmap_fixed_of_nil prot file anonFile ha hoff hlen hmax hfile, hunmap, ?_, ?_, ?_⟩
  · have hfind : (P ≥ e && P < m.«end») = true := by simp [hPe, hPend]
    have hwrite : USER.contains WRITE = false := by decide
    have hfetch : USER.contains I_FETCH = false := by decide
    have hmprot : m.prot = prot := rfl
    simp only [faultMapping, List.find?, hfind, Option.bind_some, hmprot, hprot, hwrite, hfetch,
      Bool.false_and, Bool.false_eq_true, if_false]
  · simp only [Mapping.handler, hm, Mapping.new]
    decide
  · intro i hi
    -- the page's offset in the trimmed mapping is below `len`, and a whole page of it is left
    have hPle : P ≤ a + len := roundDown_le _ _
    have hPaligned : roundDown P PAGE_SIZE = P := roundDown_of_dvd (dvd_roundDown _ _)
    have hfit : roundDown P PAGE_SIZE - e ≤ len := by
      rw [hPaligned]
      omega
    have hoff' : (off + (e - a)) % PAGE_SIZE = 0 := by
      simp only [PAGE_SIZE] at ha he hoff ⊢
      omega
    have hwhole : i < len - (P - e) := by
      have hgap : P - a + PAGE_SIZE ≤ len + (e - a) := by
        simp only [hP, roundDown, PAGE_SIZE] at ha he hae ⊢
        omega
      omega
    have hshift : off + (e - a) + (P - e) = off + (P - a) := by omega
    rw [privateFilePage_of_le fileData rfl he hoff' hPe hfit hi, hPaligned, if_pos hwhole, hshift]

theorem begin_unmap_exposes_file_segment :
    ∃ m m', mmap [] (some 0x400000) 0x1800 PROT_READ (MAP_PRIVATE ||| MAP_FIXED) (some ⟨3, true⟩)
        0 ⟨0, true⟩ = some ([m], 0x400000) ∧
      unmap [m] 0x400000 (0x401000 - 0x400000) = some (true, [m']) ∧
      faultMapping [m'] USER (roundDown (0x400000 + 0x1800) PAGE_SIZE) = some m' ∧
      m'.handler = .privateFile ∧
      ∀ i < PAGE_SIZE, (m'.privateFilePage (fun _ o => o.toUInt8)
        (roundDown (0x400000 + 0x1800) PAGE_SIZE)).map (· i) =
        some (0 + (roundDown (0x400000 + 0x1800) PAGE_SIZE - 0x400000) + i).toUInt8 :=
  begin_unmap_exposes_file (fun _ o => o.toUInt8) PROT_READ ⟨3, true⟩ ⟨0, true⟩ (by decide)
    (by decide) (by decide) rfl (by decide) (by decide) (by decide) (by decide) (by decide)

/-! ## Placing a mapping above a hint -/

/-- `find_any_above` walks past the mappings that start below the hint; when each of them also
ends at or below it, the mapping before the cursor still ends at or below the hint. -/
theorem findAnyAboveLoop_append {addr : ℕ} (len : ℕ) {pre : List Mapping}
    (hpre : ∀ m ∈ pre, m.start < addr ∧ m.«end» ≤ addr) (l : List Mapping)
    (prev : Option Mapping) (hprev : ∀ p ∈ prev, p.«end» ≤ addr) (i : ℕ) :
    ∃ prev', (∀ p ∈ prev', p.«end» ≤ addr) ∧
      findAnyAboveLoop addr len prev i (pre ++ l) =
        findAnyAboveLoop addr len prev' (i + pre.length) l := by
  induction pre generalizing prev i with
  | nil => exact ⟨prev, hprev, rfl⟩
  | cons m pre ih =>
    obtain ⟨hs, he⟩ := hpre m List.mem_cons_self
    obtain ⟨prev', hprev', heq⟩ :=
      ih (fun m' hm' => hpre m' (List.mem_cons_of_mem m hm')) (some m)
        (fun p hp => by obtain rfl := Option.mem_some_iff.1 hp; exact he) (i + 1)
    refine ⟨prev', hprev', ?_⟩
    rw [List.cons_append, findAnyAboveLoop.eq_1, if_pos hs, heq, List.length_cons, Nat.add_assoc,
      Nat.add_comm 1]

/-- At a mapping at or above the hint, with the mapping before it ending at or below the hint, a
hole of `len` bytes from the hint is taken: `len` as it is, not rounded up to a page. -/
theorem findAnyAboveLoop_of_hole {addr len : ℕ} {prev : Option Mapping}
    (hprev : ∀ p ∈ prev, p.«end» ≤ addr) {c : Mapping} (hc : addr ≤ c.start)
    (hhole : len ≤ c.start - addr) (i : ℕ) (rest : List Mapping) :
    findAnyAboveLoop addr len prev i (c :: rest) = some (addr, i) := by
  have hstart : holeStart addr prev = addr := by
    cases prev with
    | none => rfl
    | some p => exact max_eq_left (hprev p rfl)
  rw [findAnyAboveLoop.eq_1, if_neg (not_lt.2 hc)]
  simp only [hstart, if_pos hhole]

/-- `mmap` with a hint and without `MAP_FIXED`: the place `find_any_above` finds from the hint,
with `len` as it is. -/
theorem mmap_of_hint (maps : List Mapping) {addr len : ℕ} (prot : MMapProt) {flags : MMapFlags}
    {file : Option FileRef} {offset : ℕ} (anonFile : FileRef)
    (hok : mmapArgsOk (some addr) len flags file offset = true)
    (hfixed : flags.contains MAP_FIXED = false) :
    mmap maps (some addr) len prot flags file offset anonFile =
      (findAnyAbove maps addr len).map fun (a', i) =>
        (insertMergeBefore maps i (Mapping.new a' len prot flags
          (if flags.contains (MAP_ANONYOMUS ||| MAP_SHARED) then some anonFile else file) offset),
          a') := by
  simp only [mmap, hok, Bool.not_true, hfixed, Bool.false_eq_true, if_false, Option.map_map]
  rfl

/-- A hint below a mapping `c`, in front of a hole of at least `len` bytes but of less than `len`
rounded up to a page: `mmap` returns the hint itself, and the pages it maps from there,
`align_up(len)` bytes, take in the first page of `c`. -/
theorem mmap_hint_overlaps {pre post : List Mapping} {c : Mapping} {addr len : ℕ}
    (prot : MMapProt) (flags : MMapFlags) (file : Option FileRef) (offset : ℕ)
    (anonFile : FileRef) (hok : mmapArgsOk (some addr) len flags file offset = true)
    (hfixed : flags.contains MAP_FIXED = false) (hpre : ∀ m ∈ pre, m.start < addr ∧ m.«end» ≤ addr)
    (hc : addr ≤ c.start) (hhole : len ≤ c.start - addr)
    (hshort : c.start - addr < roundUp len PAGE_SIZE) :
    ∃ maps', mmap (pre ++ c :: post) (some addr) len prot flags file offset anonFile =
        some (maps', addr) ∧
      addr ≤ c.start ∧ c.start < addr + roundUp len PAGE_SIZE := by
  have hne : pre ++ c :: post ≠ [] := by simp
  obtain ⟨prev', hprev', hloop⟩ :=
    findAnyAboveLoop_append len hpre (c :: post) none (by simp) 0
  have hfound : findAnyAbove (pre ++ c :: post) addr len = some (addr, pre.length) := by
    rw [findAnyAbove, if_neg hne, hloop, findAnyAboveLoop_of_hole hprev' hc hhole, Nat.zero_add]
  rw [mmap_of_hint _ prot anonFile hok hfixed, hfound, Option.map_some]
  exact ⟨_, rfl, hc, by omega⟩

/-- The mapping `[0x10000000, 0x10001000)` and a hint `0x800` bytes below it: an anonymous
`mmap` of `0x800` bytes gets the unaligned hint, and the page it maps there runs into the
mapping. -/
theorem mmap_hint_overlaps_below :
    ∃ maps', mmap [⟨none, PROT_READ, MAP_PRIVATE ||| MAP_ANONYOMUS, 0x10000000, 0x10001000⟩]
        (some 0x0FFFF800) 0x800 PROT_READ (MAP_PRIVATE ||| MAP_ANONYOMUS) none 0 ⟨0, true⟩ =
        some (maps', 0x0FFFF800) ∧
      0x0FFFF800 ≤ 0x10000000 ∧ 0x10000000 < 0x0FFFF800 + roundUp 0x800 PAGE_SIZE :=
  @mmap_hint_overlaps [] [] _ _ _ PROT_READ _ none 0 ⟨0, true⟩ (by decide) (by decide)
    (by simp) (by decide) (by decide) (by decide)

end Cykusz.Kernel.Vm
