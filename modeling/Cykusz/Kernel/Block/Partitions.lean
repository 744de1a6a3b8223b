import Mathlib

/-!
# Scanning a disk for partitions

`process_dev` reads the sector at `offset` as a master or extended boot record and, when it ends
with the boot signature, goes through its four entries in order: an empty entry is skipped, an
extended one (system id 5) is scanned in turn by `process_dev` at `ext_offset` plus its relative
sector, and any other is registered as a partition that starts at `offset` plus its relative
sector. `ext_offset` is the start of the first extended partition, which the relative sectors of
the nested tables count from.

Nothing bounds the recursion and no sector is remembered: a table whose extended entry leads
back to the table itself makes `process_dev` call itself with its own arguments, and the scan
never ends (`processDev_self_loop`). Nor is a partition's size checked against anything.

The model runs the scan with `fuel` nested calls, `none` when the fuel runs out, so that a scan
that ends is `some` for enough fuel and one that never ends is `none` for every fuel. The disk is
the bytes `read` gives for each sector; registering a partition is taken to succeed.

A registered partition is a `PartitionBlockDev`, whose `read` and `write` pass a request on to the
device below at the partition's offset, cut short where it would run past the partition's end.
The cut compares sectors with `size - 1 - sector` and then keeps that many bytes: no request
reaches the partition's last sector (`transfer_before_last`), and a buffer that ends in it or
past it is cut to `size - 1 - sector` bytes (`read_write_cut_at_end`).
-/

namespace Cykusz.Kernel.Block

/-- A disk as `read` sees it: the byte at each offset of each sector. -/
abbrev Disk := ℕ → ℕ → UInt8

/-- `Mbr::is_valid`: the boot signature `0x55, 0xAA` ends the sector. -/
def isValid (d : Disk) (sector : ℕ) : Bool := d sector 510 == 0x55 && d sector 511 == 0xAA

/-- A little-endian `u32` of the sector. -/
def readU32 (d : Disk) (sector off : ℕ) : ℕ :=
  (d sector off).toNat + 0x100 * (d sector (off + 1)).toNat +
    0x10000 * (d sector (off + 2)).toNat + 0x1000000 * (d sector (off + 3)).toNat

/-- The fields of a partition entry that the scan reads. -/
structure Partition where
  systemId : UInt8
  relativeSector : ℕ
  totalSectors : ℕ
deriving DecidableEq, Repr

/-- `Mbr::partition(idx)` for `idx < 4`: the 16 bytes from `0x1BE + 0x10 * idx`. -/
def partition (d : Disk) (sector idx : ℕ) : Partition :=
  let off := 0x1BE + 0x10 * idx
  ⟨d sector (off + 4), readU32 d sector (off + 8), readU32 d sector (off + 12)⟩

/-- A registered partition: the number in its name, its first sector and its size. -/
structure Registered where
  count : ℕ
  start : ℕ
  size : ℕ
deriving DecidableEq, Repr

/-- `process_partition`, with `dev` the scan of an extended partition's table: the count after it
and the partitions it registered. -/
def processPartition (dev : ℕ → ℕ → ℕ → Option (ℕ × List Registered))
    (count offset extOffset : ℕ) (part : Partition) : Option (ℕ × List Registered) :=
  if part.systemId = 0 then some (count, [])
  else if part.systemId ≠ 5 then
    some (count + 1, [⟨count, offset + part.relativeSector, part.totalSectors⟩])
  else
    dev count (extOffset + part.relativeSector)
      (if extOffset > 0 then extOffset else offset + part.relativeSector)

/-- `process_dev` with `fuel` nested calls left: the count after the scan and the partitions it
registered, in order; `none` when the fuel runs out. -/
def processDev (d : Disk) : ℕ → ℕ → ℕ → ℕ → Option (ℕ × List Registered)
  | 0, _, _, _ => none
  | fuel + 1, count, offset, extOffset =>
    if !isValid d offset then some (count, [])
    else
      (List.range 4).foldlM (fun (acc : ℕ × List Registered) p =>
        (processPartition (processDev d fuel) acc.1 offset extOffset (partition d offset p)).map
          fun r => (r.1, acc.2 ++ r.2)) (count, [])

/-- A fold in `Option` fails when every step before some element succeeds and that element's
fails, whatever each is given. -/
theorem foldlM_eq_none {α β : Type*} {f : β → α → Option β} {pre post : List α} {x : α}
    (hpre : ∀ y ∈ pre, ∀ b, (f b y).isSome) (hx : ∀ b, f b x = none) (b : β) :
    (pre ++ x :: post).foldlM f b = none := by
  induction pre generalizing b with
  | nil => simp [hx]
  | cons y pre ih =>
    obtain ⟨b', hb'⟩ := Option.isSome_iff_exists.1 (hpre y (by simp) b)
    simp [hb', ih (fun z hz => hpre z (by simp [hz]))]

section Scan

variable {dev : ℕ → ℕ → ℕ → Option (ℕ × List Registered)} {count offset extOffset : ℕ}
  {part : Partition}

/-- An entry that is not extended is skipped or registered, with no scan. -/
theorem processPartition_isSome (h : part.systemId ≠ 5) :
    (processPartition dev count offset extOffset part).isSome := by
  unfold processPartition
  split_ifs <;> simp

/-- An extended entry is scanned at `ext_offset` plus its relative sector. -/
theorem processPartition_of_extended (h : part.systemId = 5) :
    processPartition dev count offset extOffset part =
      dev count (extOffset + part.relativeSector)
        (if extOffset > 0 then extOffset else offset + part.relativeSector) := by
  simp [processPartition, h]

end Scan

/-- A table whose first extended entry leads back to the table itself, the entries before it
being no extended ones, makes `process_dev` call itself with its own arguments: the scan runs out
of any fuel. -/
theorem processDev_self_loop (d : Disk) (offset extOffset i : ℕ) (hi : i < 4)
    (hvalid : isValid d offset = true) (hbefore : ∀ j < i, (partition d offset j).systemId ≠ 5)
    (hext : (partition d offset i).systemId = 5)
    (hback : extOffset + (partition d offset i).relativeSector = offset)
    (hbase : (if extOffset > 0 then extOffset else offset + (partition d offset i).relativeSector) =
      extOffset) (fuel count : ℕ) :
    processDev d fuel count offset extOffset = none := by
  -- the entries split at the extended one
  obtain ⟨post, hsplit⟩ : ∃ post, List.range 4 = List.range i ++ i :: post := by
    interval_cases i <;> exact ⟨_, rfl⟩
  induction fuel generalizing count with
  | zero => rfl
  | succ fuel ih =>
    rw [processDev, if_neg (by simp [hvalid]), hsplit]
    apply foldlM_eq_none
    · intro j hj acc
      rw [Option.isSome_map]
      exact processPartition_isSome (hbefore j (List.mem_range.1 hj))
    · intro acc
      rw [processPartition_of_extended hext, hback, hbase, ih]
      rfl

/-- A disk whose every sector holds a boot record with one entry, extended, at relative
sector 0. -/
def loopDisk : Disk := fun _ off =>
  if off = 510 then 0x55 else if off = 511 then 0xAA else if off = 0x1BE + 4 then 5 else 0

/-- Its scan from the first sector, as `init` starts it, has not ended after a million rounds. -/
theorem processDev_self_loop_mbr : processDev loopDisk 1000000 0 0 0 = none :=
  processDev_self_loop loopDisk 0 0 0 (by decide) (by decide) (by decide) (by decide)
    (by decide) (by decide) 1000000 0

/-! ## Reading and writing a partition -/

/-- `PartitionBlockDev`: the `size` sectors of the device below from sector `offset` on. -/
structure PartitionBlockDev where
  offset : ℕ
  size : ℕ
deriving DecidableEq, Repr

/-- Whether a request reads the device below or writes it. -/
inductive Dir
  | read
  | write
deriving DecidableEq, Repr

/-- A request to the device below: the bytes of the buffer are those of the sectors from `sector`
on, `len` of them. -/
structure Request where
  dir : Dir
  sector : ℕ
  len : ℕ
deriving DecidableEq, Repr

/-- `usize::ceil_div`. -/
def ceilDiv (a d : ℕ) : ℕ := (a + d - 1) / d

namespace PartitionBlockDev

/-- The body shared by `read` and `write`: the request passed on for a buffer of `len` bytes from
the partition's sector `sector`, cut to `max_count` bytes when it counts more than `max_count`
sectors. -/
def transfer (p : PartitionBlockDev) (dir : Dir) (sector len : ℕ) : Option Request :=
  if sector ≥ p.size then none
  else
    let maxCount := p.size - 1 - sector
    let count := ceilDiv len 512
    if count > maxCount then some ⟨dir, p.offset + sector, maxCount⟩
    else some ⟨dir, p.offset + sector, len⟩

/-- `PartitionBlockDev::read`. -/
def read (p : PartitionBlockDev) (sector len : ℕ) : Option Request := p.transfer .read sector len

/-- `PartitionBlockDev::write`. -/
def write (p : PartitionBlockDev) (sector len : ℕ) : Option Request := p.transfer .write sector len

/-- A request passed on starts at the partition's sector, is no longer than the buffer (the slice
`[..max_count]` is in bounds), and ends before the partition's last sector. -/
theorem transfer_before_last {p : PartitionBlockDev} {dir : Dir} {sector len : ℕ} {r : Request}
    (h : p.transfer dir sector len = some r) :
    r.dir = dir ∧ r.sector = p.offset + sector ∧ r.len ≤ len ∧
      r.sector + ceilDiv r.len 512 < p.offset + p.size := by
  unfold transfer ceilDiv at h
  dsimp only at h
  split_ifs at h with hs hcut <;> cases h <;> unfold ceilDiv <;> dsimp only
  · -- cut: more than `max_count` sectors is more than `512 * max_count` bytes
    refine ⟨rfl, rfl, ?_, ?_⟩ <;> omega
  · exact ⟨rfl, rfl, le_rfl, by omega⟩

/-- A buffer that reaches the partition's last sector is cut to `max_count` bytes. -/
theorem transfer_of_end {p : PartitionBlockDev} {dir : Dir} {sector len : ℕ} (hs : sector < p.size)
    (hend : p.size ≤ sector + ceilDiv len 512) :
    p.transfer dir sector len = some ⟨dir, p.offset + sector, p.size - 1 - sector⟩ := by
  unfold transfer
  rw [if_neg (by omega), if_pos (by omega)]

/-- Partition reads and writes that reach the partition's last sector do not transfer the
in-range sectors: the request passed on has `size - 1 - sector` bytes, fewer than the whole
buffer when it fits and fewer than the `(size - sector) * 512` bytes left when it does not. -/
theorem read_write_cut_at_end (p : PartitionBlockDev) (sector len : ℕ) (hs : sector < p.size)
    (hend : p.size ≤ sector + ceilDiv len 512) :
    p.read sector len = some ⟨.read, p.offset + sector, p.size - 1 - sector⟩ ∧
      p.write sector len = some ⟨.write, p.offset + sector, p.size - 1 - sector⟩ ∧
      p.size - 1 - sector < min len ((p.size - sector) * 512) := by
  refine ⟨transfer_of_end hs hend, transfer_of_end hs hend, ?_⟩
  -- the buffer counts at least `size - sector` sectors, so it has more than `size - 1 - sector` bytes
  unfold ceilDiv at hend
  rw [lt_min_iff]
  constructor <;> omega

/-- A one-sector read of the last sector of a partition of eight sectors passes on no byte. -/
theorem read_write_cut_at_end_last :
    7 < (⟨2048, 8⟩ : PartitionBlockDev).size ∧ (⟨2048, 8⟩ : PartitionBlockDev).size ≤ 7 + ceilDiv 512 512 ∧
      (⟨2048, 8⟩ : PartitionBlockDev).read 7 512 = some ⟨.read, 2055, 0⟩ ∧
      (⟨2048, 8⟩ : PartitionBlockDev).write 7 512 = some ⟨.write, 2055, 0⟩ ∧ 0 < min 512 512 :=
  ⟨by decide, by decide, read_write_cut_at_end ⟨2048, 8⟩ 7 512 (by decide) (by decide)⟩

end PartitionBlockDev

end Cykusz.Kernel.Block
