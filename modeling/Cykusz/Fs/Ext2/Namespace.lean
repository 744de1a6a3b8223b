import Mathlib
import Cykusz.Fs.Ext2.DirEnt

/-!
# The ext2 namespace and its link counts

The namespace operations of `LockedExt2INode` (`create`, `mkdir`, `symlink`, `link`, `unlink`,
`rmdir`, `rename`; `mknode` is `create` with the type of its mode) change directories only through
`DirEntIter::add_dir_entry`, which adds a record and increments the target's `hl_count`, and
`remove_dir_entry`, which clears a record and decrements the count of the inode it named
(`unref_hardlink`). A new inode comes from `mk_inode`, which gives a directory its `.` and `..`;
the error paths of `mk_inode`, `create`, `mkdir` and `symlink` return the inode to the allocator
with `free_inode`.

The file system is an inode table over the block model of `DirEnt`, an inode bitmap, and the
number of blocks the block allocator can still hand out (`Ext2Filesystem`). The in-memory inode
cache, and with it the `free_inode` of `LockedExt2INode::drop`, is not modelled.

Every step keeps each inode's `hl_count` equal to the number of records naming it in the inodes
in use (`Links`, `links_preserved`), as long as each `mkdir` has three blocks left and no count
reaches `u16::MAX`. Without the blocks, a `mkdir` whose parent has no room frees the new
directory while its `..` still holds the parent's increment (`mkdir_full_leaks_link`). And
`rename` moves a directory's record without rewriting the directory's `..`, which goes on naming
the old parent (`rename_keeps_dotdot`).
-/

namespace Cykusz.Fs.Ext2

open Simulation

/-- What the namespace operations read and write of an inode: its type, its link count
`hl_count`, the record blocks of a directory, and the number of data blocks of another file. -/
structure INode where
  ftype : FileType
  hlCount : BitVec 16
  blocks : List (List DirEntry)
  data : ℕ

/-- `disk::inode::INode::default()` with its type set, as `mk_inode` writes a new inode. -/
def INode.new (typ : FileType) : INode := ⟨typ, 0, [], 0⟩

/-- A dentry of the VFS cache, as `rename` reads it: the parent directory, the name, the inode. -/
structure DirEntryItem where
  parent : Option ℕ
  name : List UInt8
  inode : ℕ

/-- The names `.` and `..`. -/
def dot : List UInt8 := [46]

def dotDot : List UInt8 := [46, 46]

/-- An ext2 file system as the namespace operations see it: the block size, the inode table, the
inode bitmap over the ids `1..=inodeCount`, and the blocks the block allocator can still hand
out. -/
structure Ext2Filesystem where
  bs : ℕ
  inodes : ℕ → INode
  used : ℕ → Bool
  inodeCount : ℕ
  freeBlocks : ℕ

namespace Ext2Filesystem

variable {α β : Type}

/-- The file system with inode `x` rewritten by `f`. -/
def setINode (s : Ext2Filesystem) (x : ℕ) (f : INode → INode) : Ext2Filesystem :=
  { s with inodes := Function.update s.inodes x (f (s.inodes x)) }

/-- The file system with the record blocks of inode `x` replaced. -/
def setBlocks (s : Ext2Filesystem) (x : ℕ) (d : List (List DirEntry)) : Ext2Filesystem :=
  s.setINode x fun n => { n with blocks := d }

/-- `Ext2Filesystem::alloc_inode`: an id whose bit is clear, the first; `none` when all are set. -/
def allocInode (s : Ext2Filesystem) : Option (ℕ × Ext2Filesystem) :=
  ((List.range' 1 s.inodeCount).find? fun x => !s.used x).map fun x =>
    (x, { s with used := Function.update s.used x true })

/-- `Ext2Filesystem::free_inode`: the inode's blocks go back to the block allocator and its id to
the bitmap. -/
def freeInode (s : Ext2Filesystem) (x : ℕ) : Ext2Filesystem :=
  { s with used := Function.update s.used x false,
           freeBlocks := s.freeBlocks + (s.inodes x).blocks.length + (s.inodes x).data }

/-- `DINodeWriter::inc_hl_count`. -/
def incHlCount (s : Ext2Filesystem) (x : ℕ) : Ext2Filesystem :=
  s.setINode x fun n => { n with hlCount := n.hlCount + 1 }

/-- `LockedExt2INode::unref_hardlink`: the count drops by one unless it is 0. -/
def unrefHardlink (s : Ext2Filesystem) (x : ℕ) : Ext2Filesystem :=
  s.setINode x fun n => if 0 < n.hlCount then { n with hlCount := n.hlCount - 1 } else n

/-- `DirEntIter::new(dir).find(p)`: the first record the iteration yields with `p`; `none` where
the iteration loops. -/
def lookup (s : Ext2Filesystem) (dir : ℕ) (p : DirEntry → Bool) : Option (Option DirEntry) :=
  (DirEntIter.find true p (DirEntIter.records (s.inodes dir).blocks 0)).map fun
    | .found _ _ e => some e
    | _ => none

/-- The rest of an operation after a step that returns a `Result`: an error returns at once with
the state as it is, as `?` does. -/
def andThen (r : Option (Ext2Filesystem × Except FsError α))
    (k : Ext2Filesystem → α → Option (Ext2Filesystem × Except FsError β)) :
    Option (Ext2Filesystem × Except FsError β) :=
  r.bind fun
    | (s, .error e) => some (s, .error e)
    | (s, .ok a) => k s a

/-- `DirEntIter::new_no_skip(dir).add_dir_entry(target, name)`: the record goes into the first
record with room, or into a block appended for it, and the target's count goes up; with no room
and no block left it fails and nothing changes. -/
def addDirEntry (s : Ext2Filesystem) (dir target : ℕ) (name : List UInt8) :
    Option (Ext2Filesystem × Except FsError Unit) :=
  let d := (s.inodes dir).blocks
  (DirEntIter.addDirEntry s.bs false (BitVec.ofNat 32 target) (s.inodes target).ftype name
      s.freeBlocks d 0).map fun (d', r) =>
    let s' := { s.setBlocks dir d' with freeBlocks := s.freeBlocks - (d'.length - d.length) }
    match r with
    | .ok () => (s'.incHlCount target, .ok ())
    | .error e => (s', .error e)

/-- `remove_dir_entry(name)` on an iterator over the whole directory: the inode of the record found
loses a link, and the record is cleared. -/
def removeDirEntry (s : Ext2Filesystem) (dir : ℕ) (skipEmpty : Bool) (name : List UInt8) :
    Option (Ext2Filesystem × Except FsError Unit) :=
  let d := (s.inodes dir).blocks
  match DirEntIter.find skipEmpty (fun e => e.name == name) (DirEntIter.records d 0) with
  | some (.found _ _ e) =>
    (DirEntIter.removeDirEntry skipEmpty d name).map fun (d', r) =>
      ((s.unrefHardlink e.inode.toNat).setBlocks dir d', r)
  | some _ => some (s, .error .entryNotFound)
  | none => none

/-- `LockedExt2INode::mk_inode` on directory `dir`: a new inode of the type; a directory gets `.`
and `..` (the second added by the iterator of the first, which finds the same record as a new
one), and is freed again where they fail. -/
def mkInode (s : Ext2Filesystem) (dir : ℕ) (typ : FileType) :
    Option (Ext2Filesystem × Except FsError ℕ) :=
  match s.allocInode with
  | none => some (s, .error .notSupported)
  | some (new, s) =>
    let s := s.setINode new fun _ => INode.new typ
    if typ = .dir then
      (s.addDirEntry new new dot).bind fun
        | (s, .error _) => some (s.freeInode new, .error .notSupported)
        | (s, .ok ()) => (s.addDirEntry new dir dotDot).map fun
          | (s, .error _) => (s.freeInode new, .error .notSupported)
          | (s, .ok ()) => (s, .ok new)
    else some (s, .ok new)

/-- Whether a record of the name is in the directory, as the operations search it. -/
def hasName (s : Ext2Filesystem) (dir : ℕ) (name : List UInt8) : Option Bool :=
  (s.lookup dir fun e => e.name == name).map Option.isSome

/-- `LockedExt2INode::mkdir`. -/
def mkdir (s : Ext2Filesystem) (dir : ℕ) (name : List UInt8) :
    Option (Ext2Filesystem × Except FsError ℕ) :=
  if (s.inodes dir).ftype ≠ .dir then some (s, .error .notDir) else
  (s.hasName dir name).bind fun found =>
  if found then some (s, .error .entryExists) else
  if (s.inodes dir).hlCount = 0 then some (s, .error .notSupported) else
  andThen (s.mkInode dir .dir) fun s new =>
  (s.addDirEntry dir new name).map fun
    | (s, .error e) => (s.freeInode new, .error e)
    | (s, .ok ()) => (s, .ok new)

/-- `LockedExt2INode::create`. -/
def create (s : Ext2Filesystem) (dir : ℕ) (name : List UInt8) (ftype : FileType) :
    Option (Ext2Filesystem × Except FsError ℕ) :=
  if (s.inodes dir).ftype ≠ .dir then some (s, .error .notDir) else
  if (s.inodes dir).hlCount = 0 then some (s, .error .notSupported) else
  (s.hasName dir name).bind fun found =>
  if found then some (s, .error .entryExists) else
  andThen (s.mkInode dir ftype) fun s new =>
  (s.addDirEntry dir new name).map fun
    | (s, .error e) => (s.freeInode new, .error e)
    | (s, .ok ()) => (s, .ok new)

/-- The data blocks `INodeData::write` of `n` bytes at offset 0 takes for a new symlink: none up to
60 bytes, which go into the block pointers, else one a block of bytes while the allocator has
one; the write returns `Ok` in every case. -/
def symlinkBlocks (s : Ext2Filesystem) (n : ℕ) : ℕ :=
  if n ≤ 60 then 0 else min ((n + s.bs - 1) / s.bs) s.freeBlocks

/-- `LockedExt2INode::symlink`. -/
def symlink (s : Ext2Filesystem) (dir : ℕ) (name target : List UInt8) :
    Option (Ext2Filesystem × Except FsError Unit) :=
  if (s.inodes dir).ftype ≠ .dir then some (s, .error .notDir) else
  if (s.inodes dir).hlCount = 0 then some (s, .error .notSupported) else
  (s.hasName dir name).bind fun found =>
  if found then some (s, .error .entryExists) else
  andThen (s.mkInode dir .symlink) fun s new =>
  let k := s.symlinkBlocks target.length
  let s := { s.setINode new (fun n => { n with data := k }) with freeBlocks := s.freeBlocks - k }
  (s.addDirEntry dir new name).map fun
    | (s, .error e) => (s.freeInode new, .error e)
    | (s, .ok ()) => (s, .ok ())

/-- `LockedExt2INode::link`. -/
def link (s : Ext2Filesystem) (dir : ℕ) (name : List UInt8) (target : ℕ) :
    Option (Ext2Filesystem × Except FsError Unit) :=
  if (s.inodes dir).ftype ≠ .dir then some (s, .error .notDir) else
  if (s.inodes dir).hlCount = 0 then some (s, .error .notSupported) else
  if (s.inodes target).ftype = .dir then some (s, .error .isDir) else
  (s.hasName dir name).bind fun found =>
  if found then some (s, .error .entryExists) else
  s.addDirEntry dir target name

/-- `LockedExt2INode::unlink`: a record that names a directory is refused. -/
def unlink (s : Ext2Filesystem) (dir : ℕ) (name : List UInt8) :
    Option (Ext2Filesystem × Except FsError Unit) :=
  if (s.inodes dir).ftype ≠ .dir then some (s, .error .notDir) else
  if (s.inodes dir).hlCount = 0 then some (s, .error .notSupported) else
  if name = dot ∨ name = dotDot then some (s, .error .notSupported) else
  (s.lookup dir fun e => e.name == name).bind fun
    | some e =>
      if (s.inodes e.inode.toNat).ftype = .dir then some (s, .error .notFile)
      else s.removeDirEntry dir true name
    | none => s.removeDirEntry dir true name

/-- `LockedExt2INode::rmdir` on the directory `dir` itself, known as `name` in the parent its
`..` names. The search for `..` starts where the removal of `.` left the iterator; as `.` comes
first in every directory `mk_inode` makes, a search from the start finds the same record. -/
def rmdir (s : Ext2Filesystem) (dir : ℕ) (name : List UInt8) :
    Option (Ext2Filesystem × Except FsError Unit) :=
  if (s.inodes dir).ftype ≠ .dir then some (s, .error .notDir) else
  if (s.inodes dir).hlCount = 0 then some (s, .error .notSupported) else
  if name = dot ∨ name = dotDot then some (s, .error .notSupported) else
  if dir = 2 then some (s, .error .notSupported) else
  (s.lookup dir fun e => !(e.name == dot || e.name == dotDot)).bind fun
    | some _ => some (s, .error .notSupported)
    | none =>
      (s.lookup dir fun e => e.name == dotDot).bind fun
        | none => some (s, .ok ())
        | some p =>
          andThen (s.removeDirEntry dir true dot) fun s _ =>
          andThen (s.removeDirEntry dir true dotDot) fun s _ =>
          s.removeDirEntry p.inode.toNat true name

/-- `LockedExt2INode::rename` into the directory `dir`: the new record is added, then the old one
removed from the old parent, by an iterator that does not skip empty records. -/
def rename (s : Ext2Filesystem) (dir : ℕ) (old : DirEntryItem) (newName : List UInt8) :
    Option (Ext2Filesystem × Except FsError Unit) :=
  if (s.inodes dir).ftype ≠ .dir then some (s, .error .notDir) else
  if (s.inodes dir).hlCount = 0 then some (s, .error .notSupported) else
  if (s.inodes old.inode).hlCount = 0 then some (s, .error .notSupported) else
  (s.hasName dir newName).bind fun found =>
  if found then some (s, .error .entryExists) else
  match old.parent with
  | none => some (s, .error .notSupported)
  | some p =>
    if (s.inodes p).ftype ≠ .dir then some (s, .error .notDir) else
    andThen (s.addDirEntry dir old.inode newName) fun s _ =>
    s.removeDirEntry p false old.name

/-- A namespace operation on a directory. -/
inductive Op
  | create (dir : ℕ) (name : List UInt8) (ftype : FileType)
  | mkdir (dir : ℕ) (name : List UInt8)
  | symlink (dir : ℕ) (name target : List UInt8)
  | link (dir : ℕ) (name : List UInt8) (target : ℕ)
  | unlink (dir : ℕ) (name : List UInt8)
  | rmdir (dir : ℕ) (name : List UInt8)
  | rename (dir : ℕ) (old : DirEntryItem) (newName : List UInt8)

/-- One operation, successful or failing; `none` where it panics or loops. -/
def step (s : Ext2Filesystem) : Op → Option Ext2Filesystem
  | .create dir name ftype => (s.create dir name ftype).map Prod.fst
  | .mkdir dir name => (s.mkdir dir name).map Prod.fst
  | .symlink dir name target => (s.symlink dir name target).map Prod.fst
  | .link dir name target => (s.link dir name target).map Prod.fst
  | .unlink dir name => (s.unlink dir name).map Prod.fst
  | .rmdir dir name => (s.rmdir dir name).map Prod.fst
  | .rename dir old newName => (s.rename dir old newName).map Prod.fst

/-! ## Counting the records that name an inode -/

/-- The live records of inode `y` naming inode `v`, where `y` is in use. -/
def entriesTo (s : Ext2Filesystem) (v : BitVec 32) (y : ℕ) : ℕ :=
  if s.used y then (Dir.pairs (s.inodes y).blocks).countP (fun p => p.2 == v) else 0

/-- The live records naming inode `v` over the inodes in use. -/
def refs (s : Ext2Filesystem) (v : BitVec 32) : ℕ :=
  ∑ y ∈ Finset.range (s.inodeCount + 1), s.entriesTo v y

/-- The link counts are exact: each inode in use counts the records naming it, and no record
names an inode out of use. The block size is one `DirEnt` handles, every inode in use holds a
list of chains whose records have a name exactly when they are live, and the ids fit the 32-bit
inode field of a record. -/
structure Links (s : Ext2Filesystem) : Prop where
  blockSize : BlockSizeOk s.bs
  inodeCount_lt : s.inodeCount < 2 ^ 32
  used_mem : ∀ y, s.used y = true → 1 ≤ y ∧ y ≤ s.inodeCount
  dirOk : ∀ y, s.used y = true → Dir.Ok s.bs (s.inodes y).blocks
  named : ∀ y, s.used y = true → Dir.Named (s.inodes y).blocks
  count : ∀ y, s.used y = true → (s.inodes y).hlCount.toNat = s.refs (BitVec.ofNat 32 y)
  unused : ∀ v : BitVec 32, s.used v.toNat = false → s.refs v = 0

variable {s s' s₁ : Ext2Filesystem} {x y dir target new : ℕ} {name : List UInt8}
  {v w : BitVec 32} {f : INode → INode} {d : List (List DirEntry)}

@[simp] theorem used_setINode : (s.setINode x f).used = s.used := rfl

@[simp] theorem inodeCount_setINode : (s.setINode x f).inodeCount = s.inodeCount := rfl

@[simp] theorem bs_setINode : (s.setINode x f).bs = s.bs := rfl

@[simp] theorem freeBlocks_setINode : (s.setINode x f).freeBlocks = s.freeBlocks := rfl

theorem inodes_setINode :
    (s.setINode x f).inodes y = if y = x then f (s.inodes x) else s.inodes y := by
  simp [setINode, Function.update_apply]

@[simp] theorem blocks_setBlocks :
    ((s.setBlocks x d).inodes y).blocks = if y = x then d else (s.inodes y).blocks := by
  rw [setBlocks, inodes_setINode]
  split <;> rfl

@[simp] theorem hlCount_setBlocks : ((s.setBlocks x d).inodes y).hlCount = (s.inodes y).hlCount := by
  rw [setBlocks, inodes_setINode]
  split <;> simp_all

@[simp] theorem blocks_incHlCount : ((s.incHlCount x).inodes y).blocks = (s.inodes y).blocks := by
  rw [incHlCount, inodes_setINode]
  split <;> simp_all

@[simp] theorem hlCount_incHlCount : ((s.incHlCount x).inodes y).hlCount =
    if y = x then (s.inodes y).hlCount + 1 else (s.inodes y).hlCount := by
  rw [incHlCount, inodes_setINode]
  split <;> simp_all

@[simp] theorem blocks_unrefHardlink :
    ((s.unrefHardlink x).inodes y).blocks = (s.inodes y).blocks := by
  rw [unrefHardlink, inodes_setINode]
  split
  · subst y
    split <;> rfl
  · rfl

@[simp] theorem hlCount_unrefHardlink : ((s.unrefHardlink x).inodes y).hlCount =
    if y = x ∧ 0 < (s.inodes y).hlCount then (s.inodes y).hlCount - 1
    else (s.inodes y).hlCount := by
  rw [unrefHardlink, inodes_setINode]
  by_cases hy : y = x
  · subst y
    simp only [if_true, true_and]
    split <;> simp_all
  · simp [hy]

theorem setBlocks_self : s.setBlocks x (s.inodes x).blocks = s := by
  simp [setBlocks, setINode]

theorem entriesTo_congr (hu : s'.used y = s.used y)
    (hb : (s'.inodes y).blocks = (s.inodes y).blocks) : s'.entriesTo v y = s.entriesTo v y := by
  simp [entriesTo, hu, hb]

/-- Where one inode's records change, the count of records naming `v` changes by as much. -/
theorem refs_add_entriesTo {z : ℕ} (hn : s'.inodeCount = s.inodeCount) (hz : z ≤ s.inodeCount)
    (hsame : ∀ y, y ≠ z → s'.entriesTo v y = s.entriesTo v y) :
    s'.refs v + s.entriesTo v z = s.refs v + s'.entriesTo v z := by
  have hmem : z ∈ Finset.range (s.inodeCount + 1) := Finset.mem_range.2 (by omega)
  have hrest : ∑ y ∈ (Finset.range (s.inodeCount + 1)).erase z, s'.entriesTo v y =
      ∑ y ∈ (Finset.range (s.inodeCount + 1)).erase z, s.entriesTo v y :=
    Finset.sum_congr rfl fun y hy => hsame y (Finset.ne_of_mem_erase hy)
  unfold refs
  rw [hn, ← Finset.add_sum_erase _ (s'.entriesTo v) hmem,
    ← Finset.add_sum_erase _ (s.entriesTo v) hmem, hrest]
  omega

/-- Where no inode's records change, no count of records does. -/
theorem refs_of_entriesTo (hn : s'.inodeCount = s.inodeCount)
    (he : ∀ y, s'.entriesTo v y = s.entriesTo v y) : s'.refs v = s.refs v := by
  unfold refs
  rw [hn]
  exact Finset.sum_congr rfl fun y _ => he y

theorem refs_congr (hn : s'.inodeCount = s.inodeCount) (hu : s'.used = s.used)
    (hb : ∀ y, (s'.inodes y).blocks = (s.inodes y).blocks) : s'.refs v = s.refs v :=
  refs_of_entriesTo hn fun y => entriesTo_congr (by rw [hu]) (hb y)

/-- Where only the records of `dir` change, a property of the records of every inode in use
holds once it holds of the new records of `dir`. -/
theorem blocks_of_frame {P : List (List DirEntry) → Prop} (hu : s'.used = s.used)
    (hb : ∀ y, y ≠ dir → (s'.inodes y).blocks = (s.inodes y).blocks)
    (hall : ∀ y, s.used y = true → P (s.inodes y).blocks) (hd : P (s'.inodes dir).blocks) :
    ∀ y, s'.used y = true → P (s'.inodes y).blocks := by
  intro y hy
  by_cases hyd : y = dir
  · subst hyd
    exact hd
  · rw [hb y hyd]
    exact hall y (hu ▸ hy)

namespace Links

variable (h : Links s)
include h

theorem toNat_ofNat (hx : s.used x = true) : (BitVec.ofNat 32 x).toNat = x := by
  have := (h.used_mem x hx).2
  have := h.inodeCount_lt
  rw [BitVec.toNat_ofNat]
  exact Nat.mod_eq_of_lt (by omega)

theorem ofNat_eq_iff (hx : s.used x = true) : BitVec.ofNat 32 x = v ↔ x = v.toNat := by
  constructor
  · rintro rfl
    exact (h.toNat_ofNat hx).symm
  · rintro rfl
    exact BitVec.eq_of_toNat_eq (h.toNat_ofNat hx)

theorem ofNat_inj (hx : s.used x = true) (hy : s.used y = true) :
    BitVec.ofNat 32 x = BitVec.ofNat 32 y ↔ x = y := by
  rw [h.ofNat_eq_iff hx, h.toNat_ofNat hy]

theorem ofNat_ne_zero (hx : s.used x = true) : BitVec.ofNat 32 x ≠ 0 := by
  intro h0
  have h1 := (h.used_mem x hx).1
  have := h.toNat_ofNat hx
  rw [h0, show (0 : BitVec 32).toNat = 0 from rfl] at this
  omega

/-- An inode that a record names is in use. -/
theorem used_of_refs (hv : 0 < s.refs v) : s.used v.toNat = true := by
  by_contra hu
  have := h.unused v (by simpa using hu)
  omega

/-- The links hold of a state with the same inodes in use, records and counts. -/
theorem congr (hu : s'.used = s.used) (hn : s'.inodeCount = s.inodeCount) (hbs : s'.bs = s.bs)
    (hb : ∀ y, (s'.inodes y).blocks = (s.inodes y).blocks)
    (hl : ∀ y, (s'.inodes y).hlCount = (s.inodes y).hlCount) : Links s' where
  blockSize := hbs ▸ h.blockSize
  inodeCount_lt := hn ▸ h.inodeCount_lt
  used_mem y hy := hn ▸ h.used_mem y (hu ▸ hy)
  dirOk y hy := by
    rw [hbs, hb]
    exact h.dirOk y (hu ▸ hy)
  named y hy := by
    rw [hb]
    exact h.named y (hu ▸ hy)
  count y hy := by
    rw [hl, refs_congr hn hu hb]
    exact h.count y (hu ▸ hy)
  unused v hv := by
    rw [refs_congr hn hu hb]
    exact h.unused v (hu ▸ hv)

/-- Where only the records of `dir` change, into named chains, the links hold once each inode in
use counts its records and no record names an inode out of use. -/
theorem of_frame (hu : s'.used = s.used) (hn : s'.inodeCount = s.inodeCount) (hbs : s'.bs = s.bs)
    (hb : ∀ y, y ≠ dir → (s'.inodes y).blocks = (s.inodes y).blocks)
    (hd : Dir.Ok s.bs (s'.inodes dir).blocks) (hnm : Dir.Named (s'.inodes dir).blocks)
    (hcount : ∀ y, s.used y = true →
      (s'.inodes y).hlCount.toNat = s'.refs (BitVec.ofNat 32 y))
    (hunused : ∀ v : BitVec 32, s.used v.toNat = false → s'.refs v = 0) : Links s' where
  blockSize := hbs ▸ h.blockSize
  inodeCount_lt := hn ▸ h.inodeCount_lt
  used_mem y hy := hn ▸ h.used_mem y (hu ▸ hy)
  dirOk := hbs ▸ blocks_of_frame hu hb h.dirOk hd
  named := blocks_of_frame hu hb h.named hnm
  count y hy := hcount y (hu ▸ hy)
  unused v hv := hunused v (hu ▸ hv)

end Links

/-! ## Adding and removing a record -/

/-- What a successful `add_dir_entry` of `(name, target)` in `dir` does: the directory gains the
record, the target one link, and the allocator gives at most one block. -/
structure Added (s s' : Ext2Filesystem) (dir target : ℕ) (name : List UInt8) : Prop where
  used : s'.used = s.used
  inodeCount : s'.inodeCount = s.inodeCount
  bs : s'.bs = s.bs
  free : s.freeBlocks ≤ s'.freeBlocks + 1
  blocks : ∀ y, y ≠ dir → (s'.inodes y).blocks = (s.inodes y).blocks
  dirOk : Dir.Ok s.bs (s'.inodes dir).blocks
  named : Dir.Named (s'.inodes dir).blocks
  pairs : (Dir.pairs (s'.inodes dir).blocks).Perm
    ((name, BitVec.ofNat 32 target) :: Dir.pairs (s.inodes dir).blocks)
  hlCount : ∀ y, (s'.inodes y).hlCount =
    if y = target then (s.inodes y).hlCount + 1 else (s.inodes y).hlCount

/-- `add_dir_entry` into a directory of named chains adds the record, or finds no block and
changes nothing. -/
theorem addDirEntry_cases {r : Except FsError Unit} (hbs : BlockSizeOk s.bs)
    (hd : Dir.Ok s.bs (s.inodes dir).blocks) (hnm : Dir.Named (s.inodes dir).blocks)
    (ht : BitVec.ofNat 32 target ≠ 0)
    (h1 : 1 ≤ name.length) (hn : name.length ≤ 255)
    (hadd : s.addDirEntry dir target name = some (s', r)) :
    r = .ok () ∧ Added s s' dir target name ∨
      r = .error .notSupported ∧ s' = s ∧ s.freeBlocks = 0 := by
  obtain ⟨d', r', h, hok, hnm', hlen, ⟨rfl, hperm⟩ | ⟨hfree, rfl, rfl⟩⟩ :=
    DirEntIter.addDirEntry_spec (s.inodes target).ftype s.freeBlocks hbs hd hnm ht h1 hn
  · simp only [addDirEntry, h, Option.map_some, Option.some.injEq, Prod.mk.injEq] at hadd
    obtain ⟨rfl, rfl⟩ := hadd
    refine .inl ⟨rfl, rfl, rfl, rfl, by simp [incHlCount]; omega, fun y hy => by simp [hy],
      by simpa using hok, by simpa using hnm', by simpa using hperm, fun y => by simp⟩
  · simp only [addDirEntry, h, Option.map_some, Option.some.injEq, Prod.mk.injEq] at hadd
    obtain ⟨rfl, rfl⟩ := hadd
    exact .inr ⟨rfl, by simp [setBlocks_self], hfree⟩

/-- An added record keeps the links exact, while the target's count stays below `u16::MAX`. -/
theorem Links.added (h : Links s) (ha : Added s s' dir target name) (hdir : s.used dir = true)
    (ht : s.used target = true) (hcap : (s.inodes target).hlCount.toNat + 1 < 2 ^ 16) :
    Links s' := by
  have hrefs : ∀ v, s'.refs v = s.refs v + if BitVec.ofNat 32 target = v then 1 else 0 := by
    intro v
    have hsum := refs_add_entriesTo (v := v) ha.inodeCount (h.used_mem dir hdir).2 fun y hy =>
      entriesTo_congr (by rw [ha.used]) (ha.blocks y hy)
    have hz : s'.entriesTo v dir =
        s.entriesTo v dir + if BitVec.ofNat 32 target = v then 1 else 0 := by
      simp only [entriesTo, ha.used, hdir, if_true, ha.pairs.countP_eq, List.countP_cons]
      simp
    omega
  refine h.of_frame ha.used ha.inodeCount ha.bs ha.blocks ha.dirOk ha.named (fun y hy => ?_)
    fun v hv => ?_
  · rw [ha.hlCount, hrefs, ← h.count y hy]
    by_cases hyt : y = target
    · subst hyt
      rw [if_pos rfl, if_pos rfl, BitVec.toNat_add, show (1 : BitVec 16).toNat = 1 from rfl]
      omega
    · have hne : BitVec.ofNat 32 target ≠ BitVec.ofNat 32 y := fun he =>
        hyt ((h.ofNat_inj ht hy).1 he).symm
      simp [hyt, hne]
  · have hne : BitVec.ofNat 32 target ≠ v := by
      intro he
      rw [(h.ofNat_eq_iff ht).1 he] at ht
      simp [ht] at hv
    rw [hrefs, h.unused v hv]
    simp [hne]

/-- What a successful `remove_dir_entry` in `dir` does: the directory loses the record found,
a live one naming `w`, or an empty one, whose inode field `w` is 0; inode `w` loses a link where
it has one. -/
structure Removed (s s' : Ext2Filesystem) (dir : ℕ) (w : BitVec 32) : Prop where
  used : s'.used = s.used
  inodeCount : s'.inodeCount = s.inodeCount
  bs : s'.bs = s.bs
  blocks : ∀ y, y ≠ dir → (s'.inodes y).blocks = (s.inodes y).blocks
  dirOk : Dir.Ok s.bs (s'.inodes dir).blocks
  named : Dir.Named (s'.inodes dir).blocks
  pairs : (∃ l₁ n l₂, Dir.pairs (s.inodes dir).blocks = l₁ ++ (n, w) :: l₂ ∧
      Dir.pairs (s'.inodes dir).blocks = l₁ ++ l₂) ∨
    w = 0 ∧ Dir.pairs (s'.inodes dir).blocks = Dir.pairs (s.inodes dir).blocks
  hlCount : ∀ y, (s'.inodes y).hlCount =
    if y = w.toNat ∧ 0 < (s.inodes y).hlCount then (s.inodes y).hlCount - 1
    else (s.inodes y).hlCount

/-- `remove_dir_entry` in a directory of named chains removes the record its search finds, or
finds none and changes nothing. -/
theorem removeDirEntry_cases {skip : Bool} {r : Except FsError Unit} (hlt : s.bs < 2 ^ 16)
    (hd : Dir.Ok s.bs (s.inodes dir).blocks) (hnm : Dir.Named (s.inodes dir).blocks)
    (hrm : s.removeDirEntry dir skip name = some (s', r)) :
    r = .ok () ∧ (∃ w, Removed s s' dir w) ∨ r = .error .entryNotFound ∧ s' = s := by
  dsimp only [removeDirEntry] at hrm
  split at hrm
  · rename_i e hf
    obtain ⟨d', h, hok, hnm', hpairs⟩ := DirEntIter.removeDirEntry_of_found hlt hd hnm hf
    simp only [h, Option.map_some, Option.some.injEq, Prod.mk.injEq] at hrm
    obtain ⟨rfl, rfl⟩ := hrm
    refine .inl ⟨rfl, e.inode, rfl, rfl, rfl, fun y hy => by simp [hy], by simpa using hok,
      by simpa using hnm', ?_, fun y => by simp⟩
    rcases hpairs with ⟨h0, hp⟩ | ⟨l₁, l₂, h₁, h₂⟩
    · exact .inr ⟨h0, by simp [hp]⟩
    · exact .inl ⟨l₁, name, l₂, h₁, by simp [h₂]⟩
  · simp only [Option.some.injEq, Prod.mk.injEq] at hrm
    obtain ⟨rfl, rfl⟩ := hrm
    exact .inr ⟨rfl, rfl⟩
  · cases hrm

/-- A removed record keeps the links exact. -/
theorem Links.removed (h : Links s) (hr : Removed s s' dir w) (hdir : s.used dir = true) :
    Links s' := by
  have hsum : ∀ v, s'.refs v + s.entriesTo v dir = s.refs v + s'.entriesTo v dir := fun v =>
    refs_add_entriesTo hr.inodeCount (h.used_mem dir hdir).2 fun y hy =>
      entriesTo_congr (by rw [hr.used]) (hr.blocks y hy)
  have hframe := h.of_frame hr.used hr.inodeCount hr.bs hr.blocks hr.dirOk hr.named
  rcases hr.pairs with ⟨l₁, n, l₂, h₁, h₂⟩ | ⟨hw, hp⟩
  · -- a live record naming `w` goes: `w` is in use, and its count drops with its records
    have hrefs : ∀ v, s'.refs v + (if w = v then 1 else 0) = s.refs v := by
      intro v
      have := hsum v
      simp only [entriesTo, hr.used, hdir, if_true, h₁, h₂, List.countP_append,
        List.countP_cons, beq_iff_eq] at this
      omega
    have hw' : BitVec.ofNat 32 w.toNat = w := BitVec.eq_of_toNat_eq (by simp)
    refine hframe (fun y hy => ?_) fun v hv => ?_
    · rw [hr.hlCount]
      by_cases hyw : y = w.toNat
      · subst hyw
        have hcount := h.count _ hy
        have hrw := hrefs w
        rw [hw'] at hcount ⊢
        rw [if_pos rfl] at hrw
        have hpos : 0 < (s.inodes w.toNat).hlCount := by
          rw [BitVec.lt_def, show (0 : BitVec 16).toNat = 0 from rfl]
          omega
        rw [if_pos ⟨rfl, hpos⟩, BitVec.toNat_sub_of_le (by rw [BitVec.le_def]; simp; omega)]
        simp only [show (1 : BitVec 16).toNat = 1 from rfl]
        omega
      · have hne : w ≠ BitVec.ofNat 32 y := fun he => hyw (by rw [he, h.toNat_ofNat hy])
        have hry := hrefs (BitVec.ofNat 32 y)
        rw [if_neg hne] at hry
        rw [if_neg fun hc => hyw hc.1, h.count y hy]
        omega
    · have := hrefs v
      have := h.unused v hv
      omega
  · -- an empty record goes: no record naming an inode goes, and inode 0 is out of use
    have hrefs : ∀ v, s'.refs v = s.refs v := by
      intro v
      have := hsum v
      simp only [entriesTo, hr.used, hdir, if_true, hp] at this
      omega
    refine hframe (fun y hy => ?_) fun v hv => by rw [hrefs]; exact h.unused v hv
    have hy0 : y ≠ w.toNat := by
      rw [hw]
      have := (h.used_mem y hy).1
      simp
      omega
    rw [hr.hlCount, if_neg fun hc => hy0 hc.1, hrefs, h.count y hy]

/-! ## New and freed inodes -/

/-- `alloc_inode` hands out an id of the bitmap whose bit was clear, and sets the bit. -/
theorem allocInode_eq_some (ha : s.allocInode = some (new, s₁)) :
    1 ≤ new ∧ new ≤ s.inodeCount ∧ s.used new = false ∧
      s₁ = { s with used := Function.update s.used new true } := by
  simp only [allocInode, Option.map_eq_some_iff, Prod.mk.injEq] at ha
  obtain ⟨x, hx, rfl, rfl⟩ := ha
  have hmem := List.mem_range'_1.1 (List.mem_of_find?_eq_some hx)
  have hclear := List.find?_some hx
  simp only [Bool.not_eq_eq_eq_not, Bool.not_true] at hclear
  exact ⟨hmem.1, by omega, hclear, rfl⟩

/-- `mk_inode` writes a new inode, with no records and no link, into an id no record names. -/
theorem Links.newINode (h : Links s) (ha : s.allocInode = some (new, s₁)) (typ : FileType) :
    Links (s₁.setINode new fun _ => INode.new typ) := by
  obtain ⟨h1, hle, hclear, rfl⟩ := allocInode_eq_some ha
  have he : ∀ v y, (({ s with used := Function.update s.used new true }).setINode new
      fun _ => INode.new typ).entriesTo v y = s.entriesTo v y := by
    intro v y
    by_cases hy : y = new
    · subst hy
      simp [entriesTo, inodes_setINode, hclear, INode.new, Dir.pairs, pairsOf]
    · simp [entriesTo, inodes_setINode, hy]
  have hrefs : ∀ v, (({ s with used := Function.update s.used new true }).setINode new
      fun _ => INode.new typ).refs v = s.refs v := fun v => refs_of_entriesTo rfl (he v)
  refine ⟨h.blockSize, h.inodeCount_lt, fun y hy => ?_, fun y hy => ?_, fun y hy => ?_,
    fun y hy => ?_, fun v hv => ?_⟩
  · by_cases hyn : y = new
    · rw [hyn]
      exact ⟨h1, hle⟩
    · exact h.used_mem y (by simpa [hyn] using hy)
  · by_cases hyn : y = new
    · subst hyn
      simp [inodes_setINode, INode.new, Dir.Ok]
    · simpa [inodes_setINode, hyn] using h.dirOk y (by simpa [hyn] using hy)
  · by_cases hyn : y = new
    · subst hyn
      simp [inodes_setINode, INode.new, Dir.Named]
    · simpa [inodes_setINode, hyn] using h.named y (by simpa [hyn] using hy)
  · rw [hrefs]
    by_cases hyn : y = new
    · subst hyn
      have hv : (BitVec.ofNat 32 y).toNat = y := by
        rw [BitVec.toNat_ofNat]
        exact Nat.mod_eq_of_lt (by have := h.inodeCount_lt; omega)
      rw [h.unused _ (by rw [hv]; exact hclear)]
      simp [inodes_setINode, INode.new]
    · simpa [inodes_setINode, hyn] using h.count y (by simpa [hyn] using hy)
  · rw [hrefs]
    by_cases hvn : v.toNat = new
    · simp [hvn] at hv
    · exact h.unused v (by simpa [hvn] using hv)

@[simp] theorem used_freeInode : (s.freeInode x).used y = if y = x then false else s.used y := by
  simp [freeInode, Function.update_apply]

theorem entriesTo_freeInode_self : (s.freeInode x).entriesTo v x = 0 := by
  simp [entriesTo]

/-- Freeing an inode keeps the links exact where its records name only itself and are all the
records naming it. -/
theorem Links.freeInode (h : Links s) (hx : s.used x = true)
    (hown : ∀ v, s.entriesTo v x = if v = BitVec.ofNat 32 x then s.refs v else 0) :
    Links (s.freeInode x) := by
  have hle := (h.used_mem x hx).2
  have hrefs : ∀ v, (s.freeInode x).refs v + s.entriesTo v x = s.refs v := by
    intro v
    have hsum : (s.freeInode x).refs v + s.entriesTo v x =
        s.refs v + (s.freeInode x).entriesTo v x :=
      refs_add_entriesTo rfl hle fun y hy => entriesTo_congr (by simp [hy]) rfl
    rw [entriesTo_freeInode_self, Nat.add_zero] at hsum
    exact hsum
  have hfree : ∀ v, v ≠ BitVec.ofNat 32 x → (s.freeInode x).refs v = s.refs v := by
    intro v hv
    have := hrefs v
    rw [hown, if_neg hv] at this
    omega
  refine ⟨h.blockSize, h.inodeCount_lt, fun y hy => ?_, fun y hy => ?_, fun y hy => ?_,
    fun y hy => ?_, fun v hv => ?_⟩
  · have hyx : y ≠ x := by rintro rfl; simp at hy
    exact h.used_mem y (by simpa [hyx] using hy)
  · have hyx : y ≠ x := by rintro rfl; simp at hy
    exact h.dirOk y (by simpa [hyx] using hy)
  · have hyx : y ≠ x := by rintro rfl; simp at hy
    exact h.named y (by simpa [hyx] using hy)
  · have hyx : y ≠ x := by rintro rfl; simp at hy
    have hy' : s.used y = true := by simpa [hyx] using hy
    rw [hfree _ fun he => hyx ((h.ofNat_inj hy' hx).1 he), ← h.count y hy']
    rfl
  · by_cases hvx : v = BitVec.ofNat 32 x
    · have := hrefs v
      rw [hown, if_pos hvx] at this
      omega
    · have hvx' : v.toNat ≠ x := fun he => hvx ((h.ofNat_eq_iff hx).2 he.symm).symm
      rw [hfree v hvx]
      exact h.unused v (by simpa [hvx'] using hv)

/-- An inode with no records and no links is named by no record, its own included. -/
theorem Links.own_of_empty (h : Links s) (hx : s.used x = true) (hb : (s.inodes x).blocks = [])
    (hl : (s.inodes x).hlCount = 0) :
    ∀ v, s.entriesTo v x = if v = BitVec.ofNat 32 x then s.refs v else 0 := by
  intro v
  have hzero : s.entriesTo v x = 0 := by simp [entriesTo, hb, Dir.pairs, pairsOf]
  split_ifs with hv
  · rw [hzero, hv, ← h.count x hx, hl]
    rfl
  · exact hzero

/-- The records a new directory holds after its `.`: one, naming itself. -/
theorem entriesTo_of_added_dot (ha : Added s s' new new dot) (hnew : s'.used new = true)
    (hb : (s.inodes new).blocks = []) :
    s'.entriesTo v new = if BitVec.ofNat 32 new = v then 1 else 0 := by
  simp only [entriesTo, hnew, if_true]
  rw [ha.pairs.countP_eq, hb]
  simp [Dir.pairs, pairsOf]

/-- `mk_inode` keeps the links exact. A new inode it returns is in use, has at most the link of
its `.`, no records nor links unless it is a directory, and took at most two blocks. -/
theorem Links.mkInode (h : Links s) (hdir : s.used dir = true)
    (hcap : (s.inodes dir).hlCount.toNat + 1 < 2 ^ 16) {typ : FileType}
    {r : Except FsError ℕ} (hm : s.mkInode dir typ = some (s', r)) :
    Links s' ∧ (∀ y, s.used y = true → s'.used y = true) ∧ s'.inodeCount = s.inodeCount ∧
      s'.bs = s.bs ∧ ∀ new, r = .ok new → s'.used new = true ∧
        s.freeBlocks ≤ s'.freeBlocks + 2 ∧ (s'.inodes new).hlCount.toNat ≤ 1 ∧
        (typ ≠ .dir → (s'.inodes new).blocks = [] ∧ (s'.inodes new).hlCount = 0) := by
  unfold Ext2Filesystem.mkInode at hm
  cases ha : s.allocInode with
  | none =>
    rw [ha] at hm
    obtain ⟨rfl, rfl⟩ := Prod.mk.inj (Option.some.inj hm)
    exact ⟨h, fun _ hy => hy, rfl, rfl, fun _ hr => by cases hr⟩
  | some p =>
    obtain ⟨new, s₁⟩ := p
    rw [ha] at hm
    have h₂ := h.newINode ha typ
    obtain ⟨-, -, hclear, rfl⟩ := allocInode_eq_some ha
    set s₂ := ({ s with used := Function.update s.used new true }).setINode new
      fun _ => INode.new typ with hs₂
    -- the new inode was free: every inode in use is another one
    have hne : ∀ y, s.used y = true → y ≠ new := fun y hy hyn => by
      subst hyn
      simp [hclear] at hy
    have hnd := hne dir hdir
    have hnew₂ : s₂.used new = true := by simp [hs₂]
    have hused₂ : ∀ y, s.used y = true → s₂.used y = true := fun y hy => by
      by_cases hyn : y = new <;> simp [hs₂, hyn, hy]
    have hnode₂ : s₂.inodes new = INode.new typ := by simp [hs₂, inodes_setINode]
    have hdir₂ : s₂.inodes dir = s.inodes dir := by simp [hs₂, inodes_setINode, hnd]
    have hown₂ := h₂.own_of_empty hnew₂ (by rw [hnode₂]; rfl) (by rw [hnode₂]; rfl)
    dsimp only at hm
    split_ifs at hm with htyp
    · subst htyp
      obtain ⟨⟨s₃, r₃⟩, hadd, hk⟩ := Option.bind_eq_some_iff.1 hm
      rcases addDirEntry_cases h₂.blockSize (h₂.dirOk new hnew₂) (h₂.named new hnew₂)
          (h₂.ofNat_ne_zero hnew₂) (by decide) (by decide) hadd with ⟨rfl, ha₃⟩ | ⟨rfl, rfl, -⟩
      · have h₃ := h₂.added ha₃ hnew₂ hnew₂ (by rw [hnode₂]; decide)
        have hnew₃ : s₃.used new = true := by rw [ha₃.used]; exact hnew₂
        have hdir₃ : s₃.used dir = true := by rw [ha₃.used]; exact hused₂ dir hdir
        obtain ⟨⟨s₄, r₄⟩, hadd', hk'⟩ := Option.map_eq_some_iff.1 hk
        rcases addDirEntry_cases h₃.blockSize (h₃.dirOk new hnew₃) (h₃.named new hnew₃)
            (h₃.ofNat_ne_zero hdir₃) (by decide) (by decide) hadd' with ⟨rfl, ha₄⟩ | ⟨rfl, rfl, -⟩
        · -- `.` and `..` are in: the new directory has the one link of its `.`
          obtain ⟨rfl, rfl⟩ := Prod.mk.inj hk'
          have hcap₃ : (s₃.inodes dir).hlCount.toNat + 1 < 2 ^ 16 := by
            rw [ha₃.hlCount, if_neg hnd, hdir₂]
            exact hcap
          refine ⟨h₃.added ha₄ hnew₃ hdir₃ hcap₃, fun y hy => ?_, ?_, ?_, fun n hn => ?_⟩
          · rw [ha₄.used, ha₃.used]
            exact hused₂ y hy
          · rw [ha₄.inodeCount, ha₃.inodeCount]
            rfl
          · rw [ha₄.bs, ha₃.bs]
            rfl
          · cases hn
            refine ⟨?_, ?_, ?_, fun hne => absurd rfl hne⟩
            · rw [ha₄.used]
              exact hnew₃
            · have := ha₃.free
              have := ha₄.free
              simp only [hs₂, freeBlocks_setINode] at *
              omega
            · rw [ha₄.hlCount, if_neg (Ne.symm hnd), ha₃.hlCount, if_pos rfl, hnode₂]
              decide
        · -- `..` failed: the directory, named only by its own `.`, is freed
          obtain ⟨rfl, rfl⟩ := Prod.mk.inj hk'
          refine ⟨h₃.freeInode hnew₃ fun v => ?_, fun y hy => ?_, ha₃.inodeCount, ha₃.bs,
            fun _ hr => by cases hr⟩
          · rw [entriesTo_of_added_dot ha₃ hnew₃ (by rw [hnode₂]; rfl)]
            split_ifs with hv hv' hv'
            · rw [hv', ← h₃.count new hnew₃, ha₃.hlCount, if_pos rfl, hnode₂]
              rfl
            · exact absurd hv.symm hv'
            · exact absurd hv'.symm hv
            · rfl
          · simpa [hne y hy, ha₃.used] using hused₂ y hy
      · -- `.` failed: the new inode, with no records, is freed
        simp only [Option.some.injEq, Prod.mk.injEq] at hk
        obtain ⟨rfl, rfl⟩ := hk
        refine ⟨h₂.freeInode hnew₂ hown₂, fun y hy => ?_, rfl, rfl, fun _ hr => by cases hr⟩
        simpa [hne y hy] using hused₂ y hy
    · obtain ⟨rfl, rfl⟩ := Prod.mk.inj (Option.some.inj hm)
      refine ⟨h₂, hused₂, rfl, rfl, fun n hn => ?_⟩
      cases hn
      refine ⟨hnew₂, by simp, ?_, fun _ => ?_⟩ <;> rw [hnode₂] <;> simp [INode.new]

/-! ## The operations keep the links -/

theorem eq_of_some_pair {x r : Except FsError α} (hm : some (s, x) = some (s', r)) : s' = s :=
  (Prod.mk.inj (Option.some.inj hm)).1.symm

/-- A check that fails returns the state as it is. -/
theorem Links.of_guard (h : Links s) {x r : Except FsError α} (hm : some (s, x) = some (s', r)) :
    Links s' := by
  rw [eq_of_some_pair hm]
  exact h

theorem andThen_eq_some {r : Option (Ext2Filesystem × Except FsError α)}
    {k : Ext2Filesystem → α → Option (Ext2Filesystem × Except FsError β)}
    {res : Except FsError β} (h : andThen r k = some (s', res)) :
    (∃ e, r = some (s', .error e)) ∨ ∃ s₁ a, r = some (s₁, .ok a) ∧ k s₁ a = some (s', res) := by
  obtain ⟨⟨s₁, r₁⟩, hr, hk⟩ := Option.bind_eq_some_iff.1 h
  cases r₁ with
  | error e =>
    rw [eq_of_some_pair hk.symm] at hr
    exact .inl ⟨e, hr⟩
  | ok a => exact .inr ⟨s₁, a, hr, hk⟩

/-- A record that `DirEntIter::new` finds names an inode in use. -/
theorem Links.used_of_lookup (h : Links s) (hdir : s.used dir = true) {p : DirEntry → Bool}
    {e : DirEntry} (hl : s.lookup dir p = some (some e)) : s.used e.inode.toNat = true := by
  obtain ⟨hit, hf, he⟩ := Option.map_eq_some_iff.1 hl
  cases hit with
  | found b i e' =>
    obtain rfl : e' = e := Option.some.inj he
    obtain ⟨hmem, -, hv⟩ := DirEntIter.find_found hf
    have hlive : e'.live = true := by
      simpa [DirEntry.live] using (DirEntIter.visit_eq_yield_iff.1 hv).1 rfl
    have hflat : e' ∈ (s.inodes dir).blocks.flatten := by
      rw [← DirEntIter.map_snd_records _ 0]
      exact List.mem_map_of_mem hmem
    have hpair : (e'.name, e'.inode) ∈ Dir.pairs (s.inodes dir).blocks :=
      List.mem_map_of_mem (List.mem_filter.2 ⟨hflat, hlive⟩)
    have hpos : 0 < s.entriesTo e'.inode dir := by
      simp only [entriesTo, hdir, if_true]
      exact List.countP_pos_iff.2 ⟨_, hpair, by simp⟩
    have hle : s.entriesTo e'.inode dir ≤ s.refs e'.inode :=
      Finset.single_le_sum (fun _ _ => Nat.zero_le _)
        (Finset.mem_range.2 (by have := (h.used_mem dir hdir).2; omega))
    exact h.used_of_refs (by omega)
  | stopped => cases he
  | exhausted => cases he

/-- `remove_dir_entry` in a directory in use keeps the links. -/
theorem Links.remove (h : Links s) (hdir : s.used dir = true) {skip : Bool}
    {r : Except FsError Unit} (hrm : s.removeDirEntry dir skip name = some (s', r)) :
    Links s' ∧ s'.used = s.used := by
  rcases removeDirEntry_cases h.blockSize.lt (h.dirOk dir hdir) (h.named dir hdir) hrm with ⟨-, w, hr⟩ | ⟨-, rfl⟩
  · exact ⟨h.removed hr hdir, hr.used⟩
  · exact ⟨h, rfl⟩

/-- The tail of `create`, `mkdir` and `symlink`: the new inode's record goes into `dir`, or the
new inode is freed, which keeps the links where it has no records and no links. -/
theorem Links.addNew {γ : Type} {a : γ} {r : Except FsError γ} (h : Links s)
    (hdir : s.used dir = true) (hnew : s.used new = true)
    (hcap : (s.inodes new).hlCount.toNat ≤ 1) (h1 : 1 ≤ name.length) (hn : name.length ≤ 255)
    (hempty : (s.inodes new).blocks = [] ∧ (s.inodes new).hlCount = 0 ∨ 1 ≤ s.freeBlocks)
    (hg : (s.addDirEntry dir new name).map (fun
      | (s, .error e) => (s.freeInode new, .error e)
      | (s, .ok ()) => (s, .ok a)) = some (s', r)) : Links s' := by
  obtain ⟨⟨s₂, r₂⟩, hadd, hres⟩ := Option.map_eq_some_iff.1 hg
  rcases addDirEntry_cases h.blockSize (h.dirOk dir hdir) (h.named dir hdir) (h.ofNat_ne_zero hnew)
    h1 hn hadd with ⟨rfl, ha⟩ | ⟨rfl, rfl, h0⟩
  · simp only [Prod.mk.injEq] at hres
    rw [← hres.1]
    exact h.added ha hdir hnew (by omega)
  · simp only [Prod.mk.injEq] at hres
    rw [← hres.1]
    rcases hempty with ⟨hb, hl⟩ | hfree
    · exact h.freeInode hnew (h.own_of_empty hnew hb hl)
    · omega

theorem Links.mkdir (h : Links s) (hdir : s.used dir = true) (h1 : 1 ≤ name.length)
    (hn : name.length ≤ 255) (hcap : (s.inodes dir).hlCount.toNat + 1 < 2 ^ 16)
    (hfree : 3 ≤ s.freeBlocks) {r : Except FsError ℕ} (hm : s.mkdir dir name = some (s', r)) :
    Links s' := by
  unfold Ext2Filesystem.mkdir at hm
  split at hm
  · exact h.of_guard hm
  obtain ⟨found, -, hm'⟩ := Option.bind_eq_some_iff.1 hm
  split at hm'
  · exact h.of_guard hm'
  split at hm'
  · exact h.of_guard hm'
  rcases andThen_eq_some hm' with ⟨e, hmk⟩ | ⟨s₁, new, hmk, hg⟩
  · exact (h.mkInode hdir hcap hmk).1
  · obtain ⟨h₁, hused, -, -, hnew⟩ := h.mkInode hdir hcap hmk
    obtain ⟨hnew₁, hfree₁, hcap₁, -⟩ := hnew new rfl
    exact h₁.addNew (hused dir hdir) hnew₁ hcap₁ h1 hn (.inr (by omega)) hg

theorem Links.create (h : Links s) (hdir : s.used dir = true) (h1 : 1 ≤ name.length)
    (hn : name.length ≤ 255) (hcap : (s.inodes dir).hlCount.toNat + 1 < 2 ^ 16)
    {ftype : FileType} (hfree : ftype = .dir → 3 ≤ s.freeBlocks) {r : Except FsError ℕ}
    (hc : s.create dir name ftype = some (s', r)) : Links s' := by
  unfold Ext2Filesystem.create at hc
  split at hc
  · exact h.of_guard hc
  split at hc
  · exact h.of_guard hc
  obtain ⟨found, -, hc'⟩ := Option.bind_eq_some_iff.1 hc
  split at hc'
  · exact h.of_guard hc'
  rcases andThen_eq_some hc' with ⟨e, hmk⟩ | ⟨s₁, new, hmk, hg⟩
  · exact (h.mkInode hdir hcap hmk).1
  · obtain ⟨h₁, hused, -, -, hnew⟩ := h.mkInode hdir hcap hmk
    obtain ⟨hnew₁, hfree₁, hcap₁, hempty⟩ := hnew new rfl
    refine h₁.addNew (hused dir hdir) hnew₁ hcap₁ h1 hn ?_ hg
    by_cases hd : ftype = .dir
    · exact .inr (by have := hfree hd; omega)
    · exact .inl (hempty hd)

theorem Links.symlink (h : Links s) (hdir : s.used dir = true) (h1 : 1 ≤ name.length)
    (hn : name.length ≤ 255) (hcap : (s.inodes dir).hlCount.toNat + 1 < 2 ^ 16)
    {target : List UInt8} {r : Except FsError Unit}
    (hsl : s.symlink dir name target = some (s', r)) : Links s' := by
  unfold Ext2Filesystem.symlink at hsl
  split at hsl
  · exact h.of_guard hsl
  split at hsl
  · exact h.of_guard hsl
  obtain ⟨found, -, hsl'⟩ := Option.bind_eq_some_iff.1 hsl
  split at hsl'
  · exact h.of_guard hsl'
  rcases andThen_eq_some hsl' with ⟨e, hmk⟩ | ⟨s₁, new, hmk, hg⟩
  · exact (h.mkInode hdir hcap hmk).1
  · obtain ⟨h₁, hused, -, -, hnew⟩ := h.mkInode hdir hcap hmk
    obtain ⟨hnew₁, -, hcap₁, hempty⟩ := hnew new rfl
    obtain ⟨hb, hl⟩ := hempty (by decide)
    -- the target's data blocks change no record and no link
    dsimp only at hg
    set k := s₁.symlinkBlocks target.length
    set s₃ : Ext2Filesystem := { s₁.setINode new (fun n => { n with data := k }) with
      freeBlocks := s₁.freeBlocks - k } with hs₃
    have hnode : ∀ y, (s₃.inodes y).blocks = (s₁.inodes y).blocks ∧
        (s₃.inodes y).hlCount = (s₁.inodes y).hlCount := by
      intro y
      by_cases hy : y = new <;> simp [hs₃, inodes_setINode, hy]
    have h₃ : Links s₃ := h₁.congr rfl rfl rfl (fun y => (hnode y).1) fun y => (hnode y).2
    exact h₃.addNew (hused dir hdir) hnew₁ (by rw [(hnode new).2]; exact hcap₁) h1 hn
      (.inl ⟨by rw [(hnode new).1, hb], by rw [(hnode new).2, hl]⟩) hg

theorem Links.link (h : Links s) (hdir : s.used dir = true) (h1 : 1 ≤ name.length)
    (hn : name.length ≤ 255) (ht : s.used target = true)
    (hcap : (s.inodes target).hlCount.toNat + 1 < 2 ^ 16) {r : Except FsError Unit}
    (hk : s.link dir name target = some (s', r)) : Links s' := by
  unfold Ext2Filesystem.link at hk
  split at hk
  · exact h.of_guard hk
  split at hk
  · exact h.of_guard hk
  split at hk
  · exact h.of_guard hk
  obtain ⟨found, -, hk'⟩ := Option.bind_eq_some_iff.1 hk
  split at hk'
  · exact h.of_guard hk'
  rcases addDirEntry_cases h.blockSize (h.dirOk dir hdir) (h.named dir hdir) (h.ofNat_ne_zero ht)
    h1 hn hk' with ⟨-, ha⟩ | ⟨-, rfl, -⟩
  · exact h.added ha hdir ht hcap
  · exact h

theorem Links.unlink (h : Links s) (hdir : s.used dir = true) {r : Except FsError Unit}
    (hu : s.unlink dir name = some (s', r)) : Links s' := by
  unfold Ext2Filesystem.unlink at hu
  split at hu
  · exact h.of_guard hu
  split at hu
  · exact h.of_guard hu
  split at hu
  · exact h.of_guard hu
  obtain ⟨found, -, hfound⟩ := Option.bind_eq_some_iff.1 hu
  cases found with
  | none => exact (h.remove hdir hfound).1
  | some e =>
    dsimp only at hfound
    split at hfound
    · exact h.of_guard hfound
    exact (h.remove hdir hfound).1

theorem Links.rmdir (h : Links s) (hdir : s.used dir = true) {r : Except FsError Unit}
    (hr : s.rmdir dir name = some (s', r)) : Links s' := by
  unfold Ext2Filesystem.rmdir at hr
  split at hr
  · exact h.of_guard hr
  split at hr
  · exact h.of_guard hr
  split at hr
  · exact h.of_guard hr
  split at hr
  · exact h.of_guard hr
  obtain ⟨other, -, hother⟩ := Option.bind_eq_some_iff.1 hr
  cases other with
  | some _ => exact h.of_guard hother
  | none =>
    obtain ⟨parent, hlook, hparent⟩ := Option.bind_eq_some_iff.1 hother
    cases parent with
    | none => exact h.of_guard hparent
    | some p =>
      -- `..` names the parent, in use; `.`, `..` and the parent's record go one after another
      have hp := h.used_of_lookup hdir hlook
      rcases andThen_eq_some hparent with ⟨e, h₁⟩ | ⟨s₁, _, h₁, hrest⟩
      · exact (h.remove hdir h₁).1
      obtain ⟨hl₁, hu₁⟩ := h.remove hdir h₁
      rcases andThen_eq_some hrest with ⟨e, h₂⟩ | ⟨s₂, _, h₂, h₃⟩
      · exact (hl₁.remove (by rw [hu₁]; exact hdir) h₂).1
      obtain ⟨hl₂, hu₂⟩ := hl₁.remove (by rw [hu₁]; exact hdir) h₂
      exact (hl₂.remove (by rw [hu₂, hu₁]; exact hp) h₃).1

theorem Links.rename (h : Links s) (hdir : s.used dir = true) {old : DirEntryItem}
    {newName : List UInt8} (h1 : 1 ≤ newName.length) (hn : newName.length ≤ 255)
    (ho : s.used old.inode = true) (hcap : (s.inodes old.inode).hlCount.toNat + 1 < 2 ^ 16)
    (hp : ∀ p, old.parent = some p → s.used p = true) {r : Except FsError Unit}
    (hr : s.rename dir old newName = some (s', r)) : Links s' := by
  unfold Ext2Filesystem.rename at hr
  split at hr
  · exact h.of_guard hr
  split at hr
  · exact h.of_guard hr
  split at hr
  · exact h.of_guard hr
  obtain ⟨found, -, hfound⟩ := Option.bind_eq_some_iff.1 hr
  split at hfound
  · exact h.of_guard hfound
  cases hpar : old.parent with
  | none =>
    rw [hpar] at hfound
    exact h.of_guard hfound
  | some p =>
    rw [hpar] at hfound
    dsimp only at hfound
    split at hfound
    · exact h.of_guard hfound
    have hadd_cases := fun {s₁ r₁} (hadd : s.addDirEntry dir old.inode newName = some (s₁, r₁)) =>
      addDirEntry_cases h.blockSize (h.dirOk dir hdir) (h.named dir hdir) (h.ofNat_ne_zero ho)
        h1 hn hadd
    rcases andThen_eq_some hfound with ⟨e, hadd⟩ | ⟨s₁, _, hadd, hrm⟩
    · rcases hadd_cases hadd with ⟨h0, -⟩ | ⟨-, rfl, -⟩
      · cases h0
      · exact h
    · rcases hadd_cases hadd with ⟨-, ha⟩ | ⟨h0, -, -⟩
      · exact ((h.added ha hdir ho hcap).remove (by rw [ha.used]; exact hp p hpar) hrm).1
      · cases h0

/-- The operations the VFS makes: on a directory in use, with a name of 1 to 255 bytes to add;
a link to or a rename of an inode in use; each count the operation raises below `u16::MAX`; and
three blocks free for a new directory. -/
def OpOk (s : Ext2Filesystem) : Op → Prop
  | .create dir name ftype => s.used dir = true ∧ 1 ≤ name.length ∧ name.length ≤ 255 ∧
      (s.inodes dir).hlCount.toNat + 1 < 2 ^ 16 ∧ (ftype = .dir → 3 ≤ s.freeBlocks)
  | .mkdir dir name => s.used dir = true ∧ 1 ≤ name.length ∧ name.length ≤ 255 ∧
      (s.inodes dir).hlCount.toNat + 1 < 2 ^ 16 ∧ 3 ≤ s.freeBlocks
  | .symlink dir name _ => s.used dir = true ∧ 1 ≤ name.length ∧ name.length ≤ 255 ∧
      (s.inodes dir).hlCount.toNat + 1 < 2 ^ 16
  | .link dir name target => s.used dir = true ∧ 1 ≤ name.length ∧ name.length ≤ 255 ∧
      s.used target = true ∧ (s.inodes target).hlCount.toNat + 1 < 2 ^ 16
  | .unlink dir _ => s.used dir = true
  | .rmdir dir _ => s.used dir = true
  | .rename dir old newName => s.used dir = true ∧ 1 ≤ newName.length ∧
      newName.length ≤ 255 ∧ s.used old.inode = true ∧
      (s.inodes old.inode).hlCount.toNat + 1 < 2 ^ 16 ∧ ∀ p, old.parent = some p → s.used p = true

/-- Every operation, successful or failing, keeps the link counts exact. -/
theorem links_preserved {op : Op} (h : Links s) (hok : OpOk s op) (hs : step s op = some s') :
    Links s' := by
  cases op with
  | create dir name ftype =>
    obtain ⟨⟨_, r⟩, hc, rfl⟩ := Option.map_eq_some_iff.1 hs
    obtain ⟨hdir, h1, hn, hcap, hfree⟩ := hok
    exact h.create hdir h1 hn hcap hfree hc
  | mkdir dir name =>
    obtain ⟨⟨_, r⟩, hm, rfl⟩ := Option.map_eq_some_iff.1 hs
    obtain ⟨hdir, h1, hn, hcap, hfree⟩ := hok
    exact h.mkdir hdir h1 hn hcap hfree hm
  | symlink dir name target =>
    obtain ⟨⟨_, r⟩, hsl, rfl⟩ := Option.map_eq_some_iff.1 hs
    obtain ⟨hdir, h1, hn, hcap⟩ := hok
    exact h.symlink hdir h1 hn hcap hsl
  | link dir name target =>
    obtain ⟨⟨_, r⟩, hk, rfl⟩ := Option.map_eq_some_iff.1 hs
    obtain ⟨hdir, h1, hn, ht, hcap⟩ := hok
    exact h.link hdir h1 hn ht hcap hk
  | unlink dir name =>
    obtain ⟨⟨_, r⟩, hu, rfl⟩ := Option.map_eq_some_iff.1 hs
    exact h.unlink hok hu
  | rmdir dir name =>
    obtain ⟨⟨_, r⟩, hr, rfl⟩ := Option.map_eq_some_iff.1 hs
    exact h.rmdir hok hr
  | rename dir old newName =>
    obtain ⟨⟨_, r⟩, hr, rfl⟩ := Option.map_eq_some_iff.1 hs
    obtain ⟨hdir, h1, hn, ho, hcap, hp⟩ := hok
    exact h.rename hdir h1 hn ho hcap hp hr

/-- From a file system whose link counts are exact, every run of operations the VFS makes keeps
them exact, whatever fails on the way. -/
theorem links_stay_exact (h : Links s) (ops : List Op) (hops : Guarded step OpOk s ops)
    (hrun : run step s ops = some s') : Links s' :=
  run_inv (fun _ _ _ hc hok hs => links_preserved hc hok hs) ops s s' h hops hrun

/-! ## A `mkdir` that finds no block -/

/-- A root directory whose one block of 1 KiB is full: `.`, `..` and four files with names of
240 and 244 bytes, whose records have no room left. -/
def fullRootBlocks : List (List DirEntry) :=
  [[⟨2, 12, dot, .directory, by decide⟩, ⟨2, 12, dotDot, .directory, by decide⟩,
    ⟨3, 248, List.replicate 240 97, .regularFile, by rw [List.length_replicate]; omega⟩,
    ⟨4, 252, List.replicate 244 98, .regularFile, by rw [List.length_replicate]; omega⟩,
    ⟨5, 248, List.replicate 240 99, .regularFile, by rw [List.length_replicate]; omega⟩,
    ⟨6, 252, List.replicate 244 100, .regularFile, by rw [List.length_replicate]; omega⟩]]

/-- The root and its four files, with one block left to the allocator. -/
def fullRootFs : Ext2Filesystem where
  bs := 1024
  inodes := fun x =>
    if x = 2 then ⟨.dir, 2, fullRootBlocks, 0⟩
    else if 3 ≤ x ∧ x ≤ 6 then ⟨.file, 1, [], 0⟩ else INode.new .unknown
  used := fun x => decide (1 ≤ x ∧ x ≤ 6)
  inodeCount := 16
  freeBlocks := 1

/-- `mkdir a` in the full root: the new directory takes the last block for its `.` and `..`, the
root has no room for `a`, and the new directory is freed. The root's count was exact and is now
one above the records naming it: the `..` of a freed directory still holds its increment. -/
theorem mkdir_full_leaks_link :
    (fullRootFs.inodes 2).hlCount.toNat = fullRootFs.refs 2 ∧
      ∃ s', fullRootFs.mkdir 2 [97] = some (s', .error .notSupported) ∧
        (s'.inodes 2).hlCount.toNat = 3 ∧ s'.refs 2 = 2 := by
  refine ⟨by decide +kernel, ?_⟩
  set_option maxRecDepth 10000 in
  exact ⟨_, rfl, by decide +kernel, by decide +kernel⟩

/-! ## `rename` and `..` -/

/-- A root directory, inode 2, holding `.` and `..` in one block of 1 KiB. -/
def rootBlocks : List (List DirEntry) :=
  [[⟨2, 12, dot, .directory, by decide⟩, ⟨2, 1012, dotDot, .directory, by decide⟩]]

/-- A file system of 16 inodes as `mkfs` leaves it: inode 1 reserved, the root, eight blocks
free. -/
def freshFs : Ext2Filesystem where
  bs := 1024
  inodes := Function.update (fun _ => INode.new .unknown) 2 ⟨.dir, 2, rootBlocks, 0⟩
  used := fun x => x == 1 || x == 2
  inodeCount := 16
  freeBlocks := 8

/-- `mkdir a`, `mkdir b`, `mkdir a/d` (inodes 3, 4, 5), then `rename a/d b/d`: `b` lists `d` and
`a` no longer does, but the `..` of `d` still names `a`. -/
theorem rename_keeps_dotdot :
    ∃ s, run step freshFs [.mkdir 2 [97], .mkdir 2 [98], .mkdir 3 [100],
        .rename 4 ⟨some 3, [100], 5⟩ [100]] = some s ∧
      DirEntIter.listing (s.inodes 4).blocks = some [(dot, 4), (dotDot, 2), ([100], 5)] ∧
      DirEntIter.listing (s.inodes 3).blocks = some [(dot, 3), (dotDot, 2)] ∧
      DirEntIter.listing (s.inodes 5).blocks = some [(dot, 5), (dotDot, 3)] := by
  refine ⟨_, rfl, ?_, ?_, ?_⟩ <;> decide +kernel

end Ext2Filesystem

end Cykusz.Fs.Ext2
