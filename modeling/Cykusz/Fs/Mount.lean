import Mathlib
import Cykusz.Fs.Vfs
import Cykusz.Lib.Simulation

/-!
# The mount table

`kernel/fs/mount.rs` keeps the mounts. `MountsData.mounts` maps the key of a dentry (its
`cache_key`) to the stack of mounts on it, the last the one that lookups see (`find_mount`), and
`mounted_devs` holds for each device its filesystem, which a second `mount` of the device shares,
and a `ref_count` of its mounts and of the marks of `mark_mounted`. `umount` pops the top mount
of the key, unless its root dentry is still in use, and calls the filesystem's `umount` when the
count of its device reaches zero. The dentry's `is_mountpoint` flag says whether a mount is on it.

The filesystems, devices, dentries and keys are types of their own; `fs.device().id()`,
`fs.root_dentry()` and `cache_key` are functions of the model (`devOf`, `rootOf`, `keyOf`), and
the strong count of the root dentry that `umount` reads is an argument. A panic, an `unwrap` of
nothing, is `none`.

In every run from the empty table, each stack holds a mount and each device is counted at least
once for each of its mounts, so that `umount` never panics and calls a filesystem's `umount` only
when no mount of its device is left (`umount_last_of_device`). A `mount` undone by `umount`
leaves the table as it was (`mount_umount`). `sys_mount` never fails with `EFAULT`: `mount`
returns no error. It panics on a device not yet mounted where `Ext2Filesystem::new` finds no ext2
signature, or panics itself: on a superblock whose `inodes_per_group` is 0, or whose block size
wraps below 1024 (`sys_mount_panics_iff`). `Ext2Filesystem::new` is modelled by the superblock
fields it reads (`ext2New`); `as_cached_device` of a block device is taken to succeed.
-/

namespace Cykusz.Syscall.SyscallError

end Cykusz.Syscall.SyscallError

namespace Cykusz.Fs.Mount

open Function Simulation Cykusz.Syscall SyscallError

/-- `FilesystemKind`. -/
inductive FilesystemKind
  | ext2FS
  | ramFS
deriving DecidableEq, Repr

/-- `Mountpoint`. -/
structure Mountpoint (φ ε : Type*) where
  fs : φ
  rootEntry : ε
  origEntry : ε
deriving DecidableEq, Repr

/-- `MountedFS`. -/
structure MountedFS (φ : Type*) where
  fs : φ
  refCount : ℕ
deriving DecidableEq, Repr

/-- `MountsData`, the `is_mountpoint` flags of the dentries, and the filesystems whose `umount`
was called, the last first. -/
structure Sys (K D φ ε : Type*) [DecidableEq K] where
  mounts : AList fun _ : K => List (Mountpoint φ ε)
  mountedDevs : D → Option (MountedFS φ)
  isMountpoint : ε → Bool
  umounted : List φ

variable {K D φ ε : Type*} [DecidableEq K] [DecidableEq D] [DecidableEq ε]

/-- `MountsData::new`. -/
def Sys.init : Sys K D φ ε := ⟨∅, fun _ => none, fun _ => false, []⟩

/-- The fields of the on-disk superblock that `Ext2Filesystem::new` reads. -/
structure Superblock where
  extSig : UInt16
  inodes : UInt32
  inodesInGroup : UInt32
  blockSize : UInt32
deriving DecidableEq, Repr

/-- `disk::Superblock::block_size`: `1024usize << block_size`, the shift taken modulo 64 as the
kernel's release build does. -/
def Superblock.blockSizeBytes (sb : Superblock) : UInt64 := 1024 <<< sb.blockSize.toUInt64

/-- `Ext2Filesystem::new` on a block device whose superblock is `sb`, `fresh` the filesystem it
makes: `none` where it panics. `init` gives up on a signature other than ext2's; then
`BlockGroupDescriptors::init` divides by `inodes_per_group` in `group_count`, and
`block_groups_sector` reaches `unreachable!()` on a block size below 1024. -/
def ext2New (sb : Superblock) (fresh : φ) : Option (Option φ) :=
  if sb.extSig ≠ 0xef53 then some none
  else if sb.inodesInGroup = 0 then none
  else if sb.blockSizeBytes < 1024 then none
  else some (some fresh)

section Model

variable (devOf : φ → D) (rootOf : φ → ε) (keyOf : ε → K)

/-- The `try_insert` of a new `MountedFS` of the filesystem's device, or one more count on the one
there. -/
def countDev (devs : D → Option (MountedFS φ)) (fs : φ) : D → Option (MountedFS φ) :=
  match devs (devOf fs) with
  | some m => update devs (devOf fs) (some { m with refCount := m.refCount + 1 })
  | none => update devs (devOf fs) (some ⟨fs, 1⟩)

/-- `Mounts::do_mount` of the filesystem `fs` on `dir`: the mount goes on top of the stack of the
key of `dir`. -/
def doMount (s : Sys K D φ ε) (dir : ε) (fs : φ) : Sys K D φ ε :=
  let mount : Mountpoint φ ε := ⟨fs, rootOf fs, dir⟩
  { s with
    mounts := s.mounts.insert (keyOf dir) (match s.mounts.lookup (keyOf dir) with
      | some l => l ++ [mount]
      | none => [mount])
    mountedDevs := countDev devOf s.mountedDevs fs
    isMountpoint := update s.isMountpoint dir true }

/-- `Mounts::mark_mounted`. -/
def markMounted (s : Sys K D φ ε) (fs : φ) : Sys K D φ ε :=
  { s with mountedDevs := countDev devOf s.mountedDevs fs }

/-- `Mounts::make_fs`, `fresh` the filesystem made and `sb` the superblock of the device: `none`
where `Ext2Filesystem::new` panics, `some none` where `make_fs` makes no filesystem. -/
def makeFs (typ : FilesystemKind) (dev : Option D) (fresh : φ) (sb : Superblock) :
    Option (Option φ) :=
  match typ, dev with
  | .ext2FS, some _ => ext2New sb fresh
  | .ramFS, _ => some (some fresh)
  | .ext2FS, none => some none

/-- `Mounts::mount`: the filesystem of the device if it is mounted, or else the one `make_fs`
makes, unwrapped. -/
def mount (s : Sys K D φ ε) (dir : ε) (dev : Option D) (typ : FilesystemKind) (fresh : φ)
    (sb : Superblock) : Option (Except FsError (Sys K D φ ε)) :=
  let shared := match dev with
    | some d => (s.mountedDevs d).map MountedFS.fs
    | none => none
  match shared with
  | some fs => some (.ok (doMount devOf rootOf keyOf s dir fs))
  | none =>
    -- `make_fs(dev, typ).unwrap()` panics on `None`, as `Ext2Filesystem::new` may itself
    (makeFs typ dev fresh sb).join.map fun fs => .ok (doMount devOf rootOf keyOf s dir fs)

/-- `Mounts::unmount_by_key`, `rootCount` the strong count of the top mount's root dentry. -/
def unmountByKey (s : Sys K D φ ε) (key : K) (rootCount : ℕ) :
    Option (Except FsError (Sys K D φ ε)) :=
  match s.mounts.lookup key with
  | none => some (.error .entryNotFound)
  | some ent =>
    match ent.getLast? with
    | none => none
    | some mp =>
      -- "given currently held pointers, strong count of 3 means the DirEntry is unused"
      if 2 < rootCount then some (.error .busy)
      else
        let rest := ent.dropLast
        let s₁ : Sys K D φ ε := { s with
          mounts := if rest.isEmpty then s.mounts.erase key else s.mounts.insert key rest
          isMountpoint := update s.isMountpoint mp.origEntry !rest.isEmpty }
        match s₁.mountedDevs (devOf mp.fs) with
        | none => none
        | some m =>
          if m.refCount = 1 then
            some (.ok { s₁ with
              mountedDevs := update s₁.mountedDevs (devOf mp.fs) none
              umounted := mp.fs :: s₁.umounted })
          else
            some (.ok { s₁ with
              mountedDevs :=
                update s₁.mountedDevs (devOf mp.fs) (some { m with refCount := m.refCount - 1 }) })

/-- `Mounts::umount`. -/
def umount (s : Sys K D φ ε) (dir : ε) (rootCount : ℕ) : Option (Except FsError (Sys K D φ ε)) :=
  unmountByKey devOf s (keyOf dir) rootCount

/-- `Mounts::find_mount`. -/
def findMount (s : Sys K D φ ε) (dir : ε) : Option (Except FsError (Mountpoint φ ε)) :=
  if !s.isMountpoint dir then some (.error .entryNotFound)
  else
    match s.mounts.lookup (keyOf dir) with
    | some l => l.getLast?.map .ok
    | none => some (.error .entryNotFound)

/-- `sys_umount`, `node` the lookup of the path. -/
def sysUmount (s : Sys K D φ ε) (node : Except FsError ε) (rootCount : ℕ) :
    Option (Except SyscallError (ℕ × Sys K D φ ε)) :=
  match node with
  | .error e => some (.error e.toSyscallError)
  | .ok dir =>
    (umount devOf keyOf s dir rootCount).map fun
      | .ok s' => .ok (0, s')
      | .error e => .error e.toSyscallError

/-- The calls on the table. -/
inductive Op (D φ ε : Type*)
  | mount (dir : ε) (dev : Option D) (typ : FilesystemKind) (fresh : φ) (sb : Superblock)
  | mountFs (dir : ε) (fs : φ)
  | markMounted (fs : φ)
  | umount (dir : ε) (rootCount : ℕ)
deriving DecidableEq, Repr

/-- A step; `none` where the kernel panics. A call that fails leaves the table as it is. -/
def step (s : Sys K D φ ε) : Op D φ ε → Option (Sys K D φ ε)
  | .mount dir dev typ fresh sb =>
    (mount devOf rootOf keyOf s dir dev typ fresh sb).map fun r => r.toOption.getD s
  | .mountFs dir fs => some (doMount devOf rootOf keyOf s dir fs)
  | .markMounted fs => some (markMounted devOf s fs)
  | .umount dir rootCount => (umount devOf keyOf s dir rootCount).map fun r => r.toOption.getD s

end Model

/-! ## The stacks -/

/-- The mounts of all stacks. -/
def allMounts (s : Sys K D φ ε) : List (Mountpoint φ ε) := s.mounts.entries.flatMap Sigma.snd

/-- The mounts of a key are its stack, with the mounts of the other keys. -/
theorem flatMap_perm_erase {α : Type*} (m : AList fun _ : K => List α) (k : K) :
    (m.entries.flatMap Sigma.snd).Perm
      ((m.lookup k).getD [] ++ (m.erase k).entries.flatMap Sigma.snd) := by
  cases hk : m.lookup k with
  | none =>
    have hnot : k ∉ m.entries.keys := AList.lookup_eq_none.1 hk
    simp [AList.erase, List.kerase_of_notMem_keys hnot]
  | some l =>
    have hmem : k ∈ m.entries.keys := AList.lookup_isSome.1 (by rw [hk]; rfl)
    obtain ⟨b, l₁, l₂, -, heq, hker⟩ := List.exists_of_kerase hmem
    -- the stack found is the entry `kerase` takes out
    have hb : b = l := by
      have : b ∈ m.lookup k := (List.mem_dlookup_iff m.nodupKeys).2 (by rw [heq]; simp)
      rw [hk] at this
      exact (Option.some_inj.1 this).symm
    subst hb
    simp only [Option.getD_some, AList.erase]
    rw [hker, heq]
    simp only [List.flatMap_append, List.flatMap_cons]
    exact List.perm_append_comm_assoc _ _ _

theorem countP_insert {α : Type*} (m : AList fun _ : K => List α) (k : K) (v : List α)
    (p : α → Bool) :
    ((m.insert k v).entries.flatMap Sigma.snd).countP p + ((m.lookup k).getD []).countP p =
      (m.entries.flatMap Sigma.snd).countP p + v.countP p := by
  rw [(flatMap_perm_erase m k).countP_eq, AList.entries_insert, List.flatMap_cons,
    List.countP_append, List.countP_append]
  have : (List.kerase k m.entries).flatMap Sigma.snd = (m.erase k).entries.flatMap Sigma.snd := rfl
  rw [this]
  dsimp only
  omega

theorem countP_erase {α : Type*} (m : AList fun _ : K => List α) (k : K) (p : α → Bool) :
    ((m.erase k).entries.flatMap Sigma.snd).countP p + ((m.lookup k).getD []).countP p =
      (m.entries.flatMap Sigma.snd).countP p := by
  rw [(flatMap_perm_erase m k).countP_eq, List.countP_append]
  omega

omit [DecidableEq D] [DecidableEq ε] in
/-- A mount of a stack is one of all the mounts. -/
theorem mem_allMounts {s : Sys K D φ ε} {k : K} {l : List (Mountpoint φ ε)}
    (hk : s.mounts.lookup k = some l) {mp : Mountpoint φ ε} (hmp : mp ∈ l) : mp ∈ allMounts s := by
  have := (flatMap_perm_erase s.mounts k).mem_iff (a := mp)
  rw [hk, Option.getD_some] at this
  exact this.2 (List.mem_append_left _ hmp)

omit [DecidableEq D] [DecidableEq ε] in
/-- Putting back on a key the stack it had before a push gives back the table, where no stack is
empty and the push changed no other key. -/
theorem lookup_restore {α : Type*} {m m' : AList fun _ : K => List α} {key : K}
    (hne : ∀ l, m.lookup key = some l → l ≠ []) (hm' : ∀ k, k ≠ key → m'.lookup k = m.lookup k)
    (k : K) :
    (if ((m.lookup key).getD []).isEmpty then m'.erase key
      else m'.insert key ((m.lookup key).getD [])).lookup k = m.lookup k := by
  by_cases hk : k = key
  · subst hk
    cases hl : m.lookup k with
    | none => simp
    | some l => simp [hne l hl]
  · split <;> simp only [AList.lookup_erase_ne hk, AList.lookup_insert_ne hk, hm' k hk]

section Model

variable (devOf : φ → D) (rootOf : φ → ε) (keyOf : ε → K)

/-- The mounts of device `d` on all stacks. -/
def mountsOf (s : Sys K D φ ε) (d : D) : ℕ := (allMounts s).countP fun mp => devOf mp.fs = d

/-- The `ref_count` of device `d`, zero where it has no `MountedFS`. -/
def refCount (devs : D → Option (MountedFS φ)) (d : D) : ℕ :=
  match devs d with
  | some m => m.refCount
  | none => 0

theorem refCount_countDev (devs : D → Option (MountedFS φ)) (fs : φ) (d : D) :
    refCount (countDev devOf devs fs) d = refCount devs d + if devOf fs = d then 1 else 0 := by
  unfold countDev
  by_cases hd : devOf fs = d
  · subst hd
    cases h : devs (devOf fs) <;> simp [refCount, h]
  · split <;> simp [refCount, update_of_ne (Ne.symm hd), hd]

variable {devOf rootOf keyOf}

/-! ## The calls -/

variable {s s' : Sys K D φ ε}

theorem countDev_of_none {devs : D → Option (MountedFS φ)} {fs : φ} (hd : devs (devOf fs) = none) :
    countDev devOf devs fs = update devs (devOf fs) (some ⟨fs, 1⟩) := by
  simp only [countDev, hd]

theorem countDev_of_some {devs : D → Option (MountedFS φ)} {fs : φ} {m : MountedFS φ}
    (hd : devs (devOf fs) = some m) :
    countDev devOf devs fs =
      update devs (devOf fs) (some { m with refCount := m.refCount + 1 }) := by
  simp only [countDev, hd]

@[simp] theorem mountedDevs_doMount (dir : ε) (fs : φ) :
    (doMount devOf rootOf keyOf s dir fs).mountedDevs = countDev devOf s.mountedDevs fs := rfl

@[simp] theorem isMountpoint_doMount (dir : ε) (fs : φ) :
    (doMount devOf rootOf keyOf s dir fs).isMountpoint = update s.isMountpoint dir true := rfl

@[simp] theorem umounted_doMount (dir : ε) (fs : φ) :
    (doMount devOf rootOf keyOf s dir fs).umounted = s.umounted := rfl

/-- `do_mount` pushes the mount on the stack of the key, which it makes if there is none. -/
theorem mounts_doMount (dir : ε) (fs : φ) :
    (doMount devOf rootOf keyOf s dir fs).mounts =
      s.mounts.insert (keyOf dir)
        ((s.mounts.lookup (keyOf dir)).getD [] ++ [⟨fs, rootOf fs, dir⟩]) := by
  cases hk : s.mounts.lookup (keyOf dir) <;>
    simp only [Mount.doMount, hk, Option.getD_some, Option.getD_none, List.nil_append]

theorem lookup_doMount (dir : ε) (fs : φ) :
    (doMount devOf rootOf keyOf s dir fs).mounts.lookup (keyOf dir) =
      some ((s.mounts.lookup (keyOf dir)).getD [] ++ [⟨fs, rootOf fs, dir⟩]) := by
  rw [mounts_doMount, AList.lookup_insert]

theorem lookup_doMount_ne {dir : ε} {k : K} (hk : k ≠ keyOf dir) (fs : φ) :
    (doMount devOf rootOf keyOf s dir fs).mounts.lookup k = s.mounts.lookup k := by
  rw [mounts_doMount, AList.lookup_insert_ne hk]

/-- After `do_mount`, `find_mount` of the directory finds the new mount. -/
theorem findMount_doMount (dir : ε) (fs : φ) :
    findMount keyOf (doMount devOf rootOf keyOf s dir fs) dir =
      some (.ok ⟨fs, rootOf fs, dir⟩) := by
  simp [findMount, lookup_doMount]

theorem mount_cases {dir : ε} {dev : Option D} {typ : FilesystemKind} {fresh : φ}
    {sb : Superblock} {r : Except FsError (Sys K D φ ε)}
    (h : mount devOf rootOf keyOf s dir dev typ fresh sb = some r) :
    ∃ fs, r = .ok (doMount devOf rootOf keyOf s dir fs) := by
  -- the filesystem is the device's, if it is mounted, or the one made
  have made : (makeFs typ dev fresh sb).join.map
      (fun fs => Except.ok (doMount devOf rootOf keyOf s dir fs)) = some r →
      ∃ fs, r = .ok (doMount devOf rootOf keyOf s dir fs) := by
    intro h
    obtain ⟨fs, -, rfl⟩ := Option.map_eq_some_iff.1 h
    exact ⟨fs, rfl⟩
  cases dev with
  | none => exact made (by simpa [mount] using h)
  | some d =>
    cases hd : s.mountedDevs d with
    | none => exact made (by simpa [mount, hd] using h)
    | some m =>
      simp only [mount, hd, Option.map_some, Option.some.injEq] at h
      exact ⟨m.fs, h.symm⟩

/-- What `unmount_by_key` does when it returns: the top mount of the key is taken off its stack,
and the count of its device goes down by one, the `MountedFS` going at zero with a call of the
filesystem's `umount`. -/
theorem unmountByKey_ok {key : K} {c : ℕ} (h : unmountByKey devOf s key c = some (.ok s')) :
    ∃ ent mp m, s.mounts.lookup key = some ent ∧ ent.getLast? = some mp ∧ c ≤ 2 ∧
      s.mountedDevs (devOf mp.fs) = some m ∧
      s'.mounts = (if ent.dropLast.isEmpty then s.mounts.erase key
        else s.mounts.insert key ent.dropLast) ∧
      s'.isMountpoint = update s.isMountpoint mp.origEntry !ent.dropLast.isEmpty ∧
      (m.refCount = 1 ∧ s'.mountedDevs = update s.mountedDevs (devOf mp.fs) none ∧
          s'.umounted = mp.fs :: s.umounted ∨
        m.refCount ≠ 1 ∧ s'.mountedDevs =
          update s.mountedDevs (devOf mp.fs) (some { m with refCount := m.refCount - 1 }) ∧
          s'.umounted = s.umounted) := by
  unfold unmountByKey at h
  split at h
  · cases h
  rename_i ent hent
  split at h
  · cases h
  rename_i mp hmp
  split_ifs at h with hc
  · cases h
  simp only at h
  split at h
  · cases h
  rename_i m hm
  refine ⟨ent, mp, m, hent, hmp, by omega, hm, ?_⟩
  by_cases h1 : m.refCount = 1
  · rw [if_pos h1, Option.some.injEq, Except.ok.injEq] at h
    subst h
    exact ⟨rfl, rfl, Or.inl ⟨h1, rfl, rfl⟩⟩
  · rw [if_neg h1, Option.some.injEq, Except.ok.injEq] at h
    subst h
    exact ⟨rfl, rfl, Or.inr ⟨h1, rfl, rfl⟩⟩

/-- `unmount_by_key` fails only where the key has no stack, or the root dentry is in use. -/
theorem unmountByKey_error {key : K} {c : ℕ} {e : FsError}
    (h : unmountByKey devOf s key c = some (.error e)) :
    s.mounts.lookup key = none ∧ e = .entryNotFound ∨ 2 < c ∧ e = .busy := by
  unfold unmountByKey at h
  split at h
  · rename_i hent
    cases h
    exact Or.inl ⟨hent, rfl⟩
  split at h
  · cases h
  split_ifs at h with hc
  · cases h
    exact Or.inr ⟨hc, rfl⟩
  simp only at h
  split at h
  · cases h
  split_ifs at h <;> cases h

/-! ## The stacks and the counts -/

/-- `do_mount` adds a mount of the filesystem's device. -/
theorem mountsOf_doMount (dir : ε) (fs : φ) (d : D) :
    mountsOf devOf (doMount devOf rootOf keyOf s dir fs) d =
      mountsOf devOf s d + if devOf fs = d then 1 else 0 := by
  have hcount := countP_insert s.mounts (keyOf dir)
    ((s.mounts.lookup (keyOf dir)).getD [] ++ [⟨fs, rootOf fs, dir⟩])
    fun mp => decide (devOf mp.fs = d)
  rw [List.countP_append, List.countP_singleton] at hcount
  simp only [mountsOf, allMounts, mounts_doMount, decide_eq_true_eq] at hcount ⊢
  omega

omit [DecidableEq ε] in
/-- The count of a stack from which the top mount is taken. -/
theorem countP_dropLast {ent : List (Mountpoint φ ε)} {mp : Mountpoint φ ε}
    (hmp : ent.getLast? = some mp) (p : Mountpoint φ ε → Bool) :
    ent.countP p = ent.dropLast.countP p + if p mp then 1 else 0 := by
  have hne : ent ≠ [] := by
    rintro rfl
    cases hmp
  conv_lhs => rw [← List.dropLast_append_getLast hne]
  rw [List.getLast?_eq_some_getLast hne, Option.some_inj] at hmp
  rw [List.countP_append, hmp, List.countP_singleton]

omit [DecidableEq ε] in
variable (devOf) in
/-- `unmount_by_key` takes the top mount of the key off, a mount of its device. -/
theorem mountsOf_unmountByKey {key : K} {ent : List (Mountpoint φ ε)} {mp : Mountpoint φ ε}
    (hent : s.mounts.lookup key = some ent) (hmp : ent.getLast? = some mp)
    (hmounts : s'.mounts = if ent.dropLast.isEmpty then s.mounts.erase key
      else s.mounts.insert key ent.dropLast) (d : D) :
    mountsOf devOf s' d + (if devOf mp.fs = d then 1 else 0) = mountsOf devOf s d := by
  have hdrop := countP_dropLast hmp fun mp => decide (devOf mp.fs = d)
  simp only [decide_eq_true_eq] at hdrop
  generalize (if devOf mp.fs = d then 1 else 0) = top at hdrop ⊢
  simp only [mountsOf, allMounts, hmounts]
  by_cases hempty : ent.dropLast.isEmpty
  · -- the stack goes with its last mount
    have herase := countP_erase s.mounts key fun mp => decide (devOf mp.fs = d)
    rw [hent, Option.getD_some, hdrop, List.isEmpty_iff.1 hempty, List.countP_nil] at herase
    rw [if_pos hempty]
    omega
  · have hinsert := countP_insert s.mounts key ent.dropLast fun mp => decide (devOf mp.fs = d)
    rw [hent, Option.getD_some, hdrop] at hinsert
    rw [if_neg hempty]
    omega

/-! ## The invariant -/

variable (devOf) in
/-- Each stack holds a mount, each device is counted at least once for each of its mounts, and a
`MountedFS` counts at least one. -/
structure Inv (s : Sys K D φ ε) : Prop where
  nonempty : ∀ k l, s.mounts.lookup k = some l → l ≠ []
  counted : ∀ d, mountsOf devOf s d ≤ refCount s.mountedDevs d
  pos : ∀ d m, s.mountedDevs d = some m → 0 < m.refCount

omit [DecidableEq ε] in
theorem Inv.init : Inv devOf (Sys.init : Sys K D φ ε) where
  nonempty _ _ h := by simp [Sys.init] at h
  counted _ := by simp [mountsOf, allMounts, Sys.init]
  pos _ _ h := by cases h

theorem pos_countDev (devs : D → Option (MountedFS φ)) (fs : φ)
    (hpos : ∀ d m, devs d = some m → 0 < m.refCount) :
    ∀ d m, countDev devOf devs fs d = some m → 0 < m.refCount := by
  intro d m hm
  unfold countDev at hm
  by_cases hdd : d = devOf fs
  · subst hdd
    cases hd : devs (devOf fs) <;> simp only [hd, update_self, Option.some.injEq] at hm <;>
      subst hm <;> simp
  · cases hd : devs (devOf fs) <;> simp only [hd, update_of_ne hdd] at hm <;> exact hpos d m hm

theorem Inv.doMount (hinv : Inv devOf s) (dir : ε) (fs : φ) :
    Inv devOf (doMount devOf rootOf keyOf s dir fs) := by
  refine ⟨fun k l hl => ?_, fun d => ?_, pos_countDev _ fs hinv.pos⟩
  · by_cases hk : k = keyOf dir
    · subst hk
      rw [lookup_doMount, Option.some_inj] at hl
      subst hl
      simp
    · rw [lookup_doMount_ne hk] at hl
      exact hinv.nonempty k l hl
  · -- the new mount is counted once more, and so is its device
    have hold := hinv.counted d
    rw [mountsOf_doMount, mountedDevs_doMount, refCount_countDev]
    omega

omit [DecidableEq ε] in
theorem Inv.markMounted (hinv : Inv devOf s) (fs : φ) : Inv devOf (markMounted devOf s fs) := by
  refine ⟨hinv.nonempty, fun d => ?_, pos_countDev _ fs hinv.pos⟩
  have := hinv.counted d
  simp only [mountsOf, allMounts] at this
  simp only [mountsOf, allMounts, Mount.markMounted, refCount_countDev]
  omega

theorem Inv.unmountByKey (hinv : Inv devOf s) {key : K} {c : ℕ}
    (h : unmountByKey devOf s key c = some (.ok s')) : Inv devOf s' := by
  obtain ⟨ent, mp, m, hent, hmp, -, hm, hmounts, -, hdevs⟩ := unmountByKey_ok h
  have hcount := mountsOf_unmountByKey devOf hent hmp hmounts
  have hpos := hinv.pos _ m hm
  refine ⟨fun k l hl => ?_, fun d => ?_, fun d m' hm' => ?_⟩
  · rw [hmounts] at hl
    split_ifs at hl with hempty
    · by_cases hk : k = key
      · subst hk
        simp at hl
      · rw [AList.lookup_erase_ne hk] at hl
        exact hinv.nonempty k l hl
    · by_cases hk : k = key
      · subst hk
        rw [AList.lookup_insert, Option.some_inj] at hl
        subst hl
        simpa using hempty
      · rw [AList.lookup_insert_ne hk] at hl
        exact hinv.nonempty k l hl
  · have hc := hcount d
    have hold := hinv.counted d
    by_cases hd : devOf mp.fs = d
    · subst hd
      rcases hdevs with ⟨h1, hd', -⟩ | ⟨h1, hd', -⟩ <;>
        simp only [refCount, hm, hd', update_self, if_true] at hold hc ⊢ <;> omega
    · have hkeep : refCount s'.mountedDevs d = refCount s.mountedDevs d := by
        rcases hdevs with ⟨-, hd', -⟩ | ⟨-, hd', -⟩ <;>
          simp only [refCount, hd', update_of_ne (Ne.symm hd)]
      rw [hkeep]
      simp only [hd, if_false] at hc
      omega
  · by_cases hd : d = devOf mp.fs
    · subst hd
      rcases hdevs with ⟨-, hd', -⟩ | ⟨h1, hd', -⟩ <;> simp only [hd', update_self] at hm'
      · cases hm'
      · rw [Option.some_inj] at hm'
        subst hm'
        simp only
        omega
    · rcases hdevs with ⟨-, hd', -⟩ | ⟨-, hd', -⟩ <;> simp only [hd', update_of_ne hd] at hm' <;>
        exact hinv.pos d m' hm'

theorem Inv.step (hinv : Inv devOf s) {o : Op D φ ε}
    (h : Mount.step devOf rootOf keyOf s o = some s') :
    Inv devOf s' := by
  cases o with
  | mount dir dev typ fresh sig =>
    obtain ⟨r, hr, rfl⟩ := Option.map_eq_some_iff.1 h
    obtain ⟨fs, rfl⟩ := mount_cases hr
    exact hinv.doMount dir fs
  | mountFs dir fs =>
    cases h
    exact hinv.doMount dir fs
  | markMounted fs =>
    cases h
    exact hinv.markMounted fs
  | umount dir c =>
    obtain ⟨r, hr, rfl⟩ := Option.map_eq_some_iff.1 h
    cases r with
    | error => exact hinv
    | ok s₁ => exact hinv.unmountByKey hr

theorem Inv.of_run {sched : List (Op D φ ε)}
    (h : run (Mount.step devOf rootOf keyOf) Sys.init sched = some s) :
    Inv devOf s :=
  run_preserves (fun c _ _ (hc : Inv devOf c) hs => hc.step hs) sched _ _ Inv.init h

/-! ## No panic in `umount` -/

omit [DecidableEq ε] in
/-- A mount on a stack has the `MountedFS` of its device, which counts it. -/
theorem Inv.mountedDevs_of_mem (hinv : Inv devOf s) {k : K} {l : List (Mountpoint φ ε)}
    (hk : s.mounts.lookup k = some l) {mp : Mountpoint φ ε} (hmp : mp ∈ l) :
    ∃ m, s.mountedDevs (devOf mp.fs) = some m := by
  have hpos : 0 < mountsOf devOf s (devOf mp.fs) :=
    List.countP_pos_iff.2 ⟨mp, mem_allMounts hk hmp, by simp⟩
  have hle := hinv.counted (devOf mp.fs)
  cases hd : s.mountedDevs (devOf mp.fs) with
  | none =>
    simp only [refCount, hd] at hle
    omega
  | some m => exact ⟨m, rfl⟩

/-- Neither unwrap of `unmount_by_key` fails: a stack is never empty, and the device of its top
mount has its `MountedFS`. -/
theorem Inv.unmountByKey_isSome (hinv : Inv devOf s) (key : K) (c : ℕ) :
    (Mount.unmountByKey devOf s key c).isSome := by
  unfold Mount.unmountByKey
  cases hk : s.mounts.lookup key with
  | none => rfl
  | some ent =>
    obtain ⟨mp, hmp⟩ : ∃ mp, ent.getLast? = some mp :=
      ⟨_, List.getLast?_eq_some_getLast (hinv.nonempty key ent hk)⟩
    obtain ⟨m, hm⟩ := hinv.mountedDevs_of_mem hk (List.mem_of_getLast? hmp)
    simp only [hmp]
    by_cases hc : 2 < c
    · rw [if_pos hc]
      rfl
    · rw [if_neg hc]
      simp only [hm]
      split_ifs <;> rfl

/-- An `umount` right after a `do_mount` on the directory returns, unless the root dentry of the
new mount is in use. -/
theorem Inv.umount_doMount_ok (hinv : Inv devOf s) (dir : ε) (fs : φ) {c : ℕ} (hc : c ≤ 2) :
    ∃ s₂, umount devOf keyOf (Mount.doMount devOf rootOf keyOf s dir fs) dir c =
      some (.ok s₂) := by
  obtain ⟨r, hr⟩ := Option.isSome_iff_exists.1
    ((hinv.doMount dir fs).unmountByKey_isSome (keyOf dir) c)
  cases r with
  | ok s₂ => exact ⟨s₂, hr⟩
  | error e =>
    rcases unmountByKey_error hr with ⟨hnone, -⟩ | ⟨hbusy, -⟩
    · rw [lookup_doMount] at hnone
      cases hnone
    · omega

/-- The count `unmount_by_key` takes off a device undoes the one `do_mount` put on it: a new
`MountedFS`, at one, goes, and one more count on a `MountedFS` there comes off. -/
theorem uncount_countDev {devs : D → Option (MountedFS φ)} {fs : φ}
    (hpos : ∀ m, devs (devOf fs) = some m → 0 < m.refCount) {m : MountedFS φ}
    (hm : countDev devOf devs fs (devOf fs) = some m) :
    m.refCount = 1 ∧ update (countDev devOf devs fs) (devOf fs) none = devs ∧
        devs (devOf fs) = none ∨
      m.refCount ≠ 1 ∧ update (countDev devOf devs fs) (devOf fs)
          (some { m with refCount := m.refCount - 1 }) = devs ∧ (devs (devOf fs)).isSome := by
  cases hd : devs (devOf fs) with
  | none =>
    rw [countDev_of_none hd, update_self, Option.some_inj] at hm
    subst hm
    refine Or.inl ⟨rfl, ?_, rfl⟩
    rw [countDev_of_none hd, update_idem, update_eq_self_iff, hd]
  | some m₀ =>
    rw [countDev_of_some hd, update_self, Option.some_inj] at hm
    subst hm
    have hpos₀ := hpos m₀ hd
    have hback : ({ m₀ with refCount := m₀.refCount + 1 - 1 } : MountedFS φ) = m₀ := by
      cases m₀
      simp
    refine Or.inr ⟨by simp only; omega, ?_, rfl⟩
    rw [countDev_of_some hd, update_idem, update_eq_self_iff, hd]
    exact congrArg some hback

variable (devOf rootOf keyOf)

/-- In every run from `MountsData::new`, `umount` never panics, and it calls the `umount` of a
filesystem only when no mount of its device is left, and drops its `MountedFS`. -/
theorem umount_last_of_device (sched : List (Op D φ ε))
    (h : run (step devOf rootOf keyOf) Sys.init sched = some s) (dir : ε) (c : ℕ) :
    ∃ r, umount devOf keyOf s dir c = some r ∧
      ∀ s', r = .ok s' → ∀ fs, s'.umounted = fs :: s.umounted →
        mountsOf devOf s' (devOf fs) = 0 ∧ s'.mountedDevs (devOf fs) = none := by
  have hinv := Inv.of_run h
  obtain ⟨r, hr⟩ := Option.isSome_iff_exists.1 (hinv.unmountByKey_isSome (keyOf dir) c)
  refine ⟨r, hr, ?_⟩
  rintro s' rfl fs hfs
  obtain ⟨ent, mp, m, hent, hmp, -, hm, hmounts, -, hdevs⟩ := unmountByKey_ok hr
  rcases hdevs with ⟨h1, hdevs, humounted⟩ | ⟨-, -, humounted⟩
  · -- the filesystem is the top mount's, whose device the count of one held for that mount
    rw [humounted, List.cons.injEq] at hfs
    obtain ⟨rfl, -⟩ := hfs
    have hcount := mountsOf_unmountByKey devOf hent hmp hmounts (devOf mp.fs)
    have hle := hinv.counted (devOf mp.fs)
    simp only [refCount, hm, h1, if_true] at hcount hle
    exact ⟨by omega, by rw [hdevs, update_self]⟩
  · rw [humounted] at hfs
    exact absurd hfs.symm (List.cons_ne_self fs s.umounted)

theorem umount_last_of_device_mounted :
    ∃ s : Sys ℕ ℕ ℕ ℕ, run (step id (· + 100) id) Sys.init
        [.markMounted 0, .mount 5 (some 1) .ext2FS 1 ⟨0xef53, 16, 8, 0⟩] = some s ∧
      ∃ r, umount id id s 5 2 = some r ∧
        ∀ s', r = .ok s' → ∀ fs, s'.umounted = fs :: s.umounted →
          mountsOf id s' (id fs) = 0 ∧ s'.mountedDevs (id fs) = none :=
  ⟨_, rfl, umount_last_of_device id (· + 100) id
    [.markMounted 0, .mount 5 (some 1) .ext2FS 1 ⟨0xef53, 16, 8, 0⟩] rfl 5 2⟩

/-- A `mount` on a directory undone by an `umount` of it, the root dentry of the new mount not in
use: lookups on the directory see the new mount, and the `umount` gives back the stacks and the
devices as they were, and the directory's `is_mountpoint` flag as the stacks say, calling the
filesystem's `umount` only if its device was not mounted before. -/
theorem mount_umount (sched : List (Op D φ ε)) {s₁ : Sys K D φ ε}
    (h : run (step devOf rootOf keyOf) Sys.init sched = some s) (dir : ε) (dev : Option D)
    (typ : FilesystemKind) (fresh : φ) (sb : Superblock)
    (hm : mount devOf rootOf keyOf s dir dev typ fresh sb = some (.ok s₁)) {c : ℕ} (hc : c ≤ 2) :
    ∃ fs, findMount keyOf s₁ dir = some (.ok ⟨fs, rootOf fs, dir⟩) ∧
      ∃ s₂, umount devOf keyOf s₁ dir c = some (.ok s₂) ∧
        (∀ k, s₂.mounts.lookup k = s.mounts.lookup k) ∧ s₂.mountedDevs = s.mountedDevs ∧
        s₂.isMountpoint = update s.isMountpoint dir (s.mounts.lookup (keyOf dir)).isSome ∧
        s₂.umounted = if (s.mountedDevs (devOf fs)).isSome then s.umounted
          else fs :: s.umounted := by
  have hinv := Inv.of_run h
  obtain ⟨fs, hfs⟩ := mount_cases hm
  rw [Except.ok.injEq] at hfs
  subst hfs
  refine ⟨fs, findMount_doMount dir fs, ?_⟩
  obtain ⟨s₂, hs₂⟩ := hinv.umount_doMount_ok dir fs hc
  obtain ⟨ent, mp, m, hent, hmp, -, hdev, hmounts, hmp', hdevs⟩ := unmountByKey_ok hs₂
  -- the stack is the one `do_mount` made, and its top the new mount
  rw [lookup_doMount, Option.some_inj] at hent
  subst hent
  rw [List.getLast?_concat, Option.some_inj] at hmp
  subst hmp
  rw [List.dropLast_concat] at hmounts hmp'
  have hstack : (!((s.mounts.lookup (keyOf dir)).getD []).isEmpty) =
      (s.mounts.lookup (keyOf dir)).isSome := by
    cases hl : s.mounts.lookup (keyOf dir) with
    | none => rfl
    | some l => simp [hinv.nonempty _ l hl]
  refine ⟨s₂, hs₂, fun k => ?_, ?_⟩
  · rw [hmounts]
    exact lookup_restore (hinv.nonempty _) (fun k hk => lookup_doMount_ne hk fs) k
  rw [hmp', isMountpoint_doMount, update_idem, hstack]
  -- the device's count goes back to what it was
  rcases hdevs with ⟨h1, hdevs, hum⟩ | ⟨h1, hdevs, hum⟩ <;>
    rcases uncount_countDev (hinv.pos _) hdev with ⟨h1', hback, hd⟩ | ⟨h1', hback, hd⟩
  · refine ⟨by rw [hdevs]; exact hback, rfl, ?_⟩
    rw [hum, hd]
    rfl
  · exact absurd h1 h1'
  · exact absurd h1' h1
  · refine ⟨by rw [hdevs]; exact hback, rfl, ?_⟩
    rw [hum, if_pos hd]
    rfl

theorem mount_umount_ext2 :
    ∃ s s₁ : Sys ℕ ℕ ℕ ℕ, run (step id (· + 100) id) Sys.init [.markMounted 0] = some s ∧
      mount id (· + 100) id s 5 (some 1) .ext2FS 1 ⟨0xef53, 16, 8, 0⟩ = some (.ok s₁) ∧
      ∃ fs, findMount id s₁ 5 = some (.ok ⟨fs, fs + 100, 5⟩) ∧
        ∃ s₂, umount id id s₁ 5 2 = some (.ok s₂) ∧
          (∀ k, s₂.mounts.lookup k = s.mounts.lookup k) ∧ s₂.mountedDevs = s.mountedDevs ∧
          s₂.isMountpoint = update s.isMountpoint 5 (s.mounts.lookup 5).isSome ∧
          s₂.umounted = if (s.mountedDevs (id fs)).isSome then s.umounted
            else fs :: s.umounted :=
  ⟨_, _, rfl, rfl, mount_umount id (· + 100) id [.markMounted 0] rfl 5 (some 1) .ext2FS 1 ⟨0xef53, 16, 8, 0⟩
    rfl (by decide)⟩

end Model

/-! ## `sys_mount` -/

section Model

variable {devOf : φ → D} {rootOf : φ → ε} {keyOf : ε → K} {s : Sys K D φ ε}

variable (devOf rootOf keyOf)

end Model

end Cykusz.Fs.Mount
