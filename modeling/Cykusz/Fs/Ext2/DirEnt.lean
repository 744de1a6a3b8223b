import Mathlib
import Cykusz.Lib.Align
import Cykusz.Lib.Bindings
import Cykusz.Lib.Simulation
import Cykusz.Fs.Vfs

/-!
# ext2 directory entries

A directory's data is a sequence of blocks, and a block a chain of records (`DirEntry`): a header
of inode, `ent_size`, name size and type, then the name. A record whose inode is 0 is empty. The
record's own bytes are its `real_size`, the header and the name rounded up to 4 (0 for an empty
record); its `ent_size` reaches to the next record. A block is modelled as the list of records
its chain reads and the directory as the list of its blocks: the directory's size is the block
count times the block size, which `append_block` keeps.

`DirEntIter` visits the records in order (`records`). Its `next` skips empty records when the
iterator was made by `DirEntIter::new`, loops on an empty record of size 0, and ends the iteration
at any other record of size 0 (`visit`, then `find` and `collect`). `add_dir_entry` finds the
first record with room for the new one and splits it (`DirEntry::extract`, which reuses a record
of real size 0 in place), or appends a block holding one empty record and goes on searching
there; `remove_dir_entry` clears the record it finds and folds every later empty record of that
block into the record before it (`coalesce`).

A block is a `Chain` when its sizes are multiples of 4, at least 8 and at least the real sizes,
and sum to the block size. A record is `Named` when it has a name exactly when it is live, as
`remove_dir_entry` and `append_block` leave records. The callers add through
`DirEntIter::new_no_skip`, and remove through `DirEntIter::new` (`unlink`, `rmdir`) or through
`DirEntIter::new_no_skip` (`rename`). The search of the latter visits empty records too, but finds
none of them when every record is named. With block sizes below 64 KiB, the two operations keep
every block a chain of named records, and the names the iteration lists behave as a map
(`dir_entries_refine_name_map`). At 64 KiB a block's size no longer fits the 16-bit field:
folding the second of two records into the first wraps its size to 0, and the iteration stops
there (`remove_wraps_ent_size`).

The updates of link counts and directory counts that the two functions make on the side are not
part of this module. Where the source panics or loops for ever the model returns `none`.
-/

namespace Cykusz.Fs.Ext2

open Align Bindings Simulation

/-! ## Records -/

/-- `FileType` of an ext2 inode. -/
inductive FileType
  | fifo
  | charDev
  | dir
  | blockDev
  | file
  | symlink
  | socket
  | unknown
deriving DecidableEq, Repr

/-- `DirEntTypeIndicator`, the type byte of a directory record. -/
inductive DirEntTypeIndicator
  | unknown
  | regularFile
  | directory
  | charDev
  | blockDev
  | fifo
  | socket
  | symlink
deriving DecidableEq, Repr

/-- `From<FileType> for DirEntTypeIndicator`. -/
def DirEntTypeIndicator.ofFileType : FileType → DirEntTypeIndicator
  | .file => .regularFile
  | .charDev => .charDev
  | .blockDev => .blockDev
  | .dir => .directory
  | .symlink => .symlink
  | .socket => .socket
  | .fifo => .fifo
  | .unknown => .unknown

/-- `Superblock::block_size`, `1024 << log_block_size`. -/
def blockSize (log : ℕ) : ℕ := 1024 <<< log

/-- A `DirEntry`: its header and the `name_size` bytes of its name. -/
structure DirEntry where
  inode : BitVec 32
  entSize : BitVec 16
  name : List UInt8
  ftype : DirEntTypeIndicator
  name_le : name.length ≤ 255
deriving DecidableEq

namespace DirEntry

/-- `DirEntry::real_size`. -/
def realSize (e : DirEntry) : BitVec 16 :=
  if e.inode = 0 then 0 else BitVec.ofNat 16 (roundUp (e.name.length + 8) 4)

/-- `DirEntry::available_size`. -/
def availableSize (e : DirEntry) : BitVec 16 := e.entSize - e.realSize

/-- `DirEntry::set_name`: at most 255 bytes of the name; `none` where the record has no room. -/
def setName (e : DirEntry) (name : List UInt8) : Option DirEntry :=
  let nameLen := min 255 name.length
  if roundUp (8 + nameLen) 4 ≤ e.entSize.toNat then
    some { e with name := name.take nameLen, name_le := by rw [List.length_take]; omega }
  else none

/-- `DirEntry::extract`: the record shrinks to its real size and a record of the size that was
available starts where it now ends. What stays before the new record is returned with the new
record's size; a record of real size 0 is overlaid by the new one, so nothing of it stays. -/
def extract (e : DirEntry) : Option (List DirEntry × BitVec 16) :=
  let avail := e.availableSize
  if 12 ≤ avail.toNat then
    some (if e.realSize = 0 then [] else [{ e with entSize := e.realSize }], avail)
  else none

/-- What `remove_dir_entry` writes into the record it removes. -/
def clear (e : DirEntry) : DirEntry :=
  { e with inode := 0, name := [], ftype := .unknown, name_le := by simp }

/-- The record a block appended by `add_dir_entry` holds: the block is zeroed, then the record's
size is set to the block's length as a `u16`. -/
def empty (bs : ℕ) : DirEntry := ⟨0, BitVec.ofNat 16 bs, [], .unknown, by simp⟩

end DirEntry

/-! ## Iteration -/

namespace DirEntIter

/-- The records `DirEntIter` reads from block `b` on, each with its block and its index there. -/
def records : List (List DirEntry) → ℕ → List ((ℕ × ℕ) × DirEntry)
  | [], _ => []
  | blk :: blks, b => blk.zipIdx.map (fun p => ((b, p.2), p.1)) ++ records blks (b + 1)

/-- What `DirEntIter::next` does at a record. -/
inductive Visit
  | skip
  | loop
  | stop
  | yield
deriving DecidableEq

/-- `DirEntIter::next` at a record: an empty record is passed over when empty records are skipped,
for ever if its size is 0; any other record of size 0 ends the iteration. -/
def visit (skipEmpty : Bool) (e : DirEntry) : Visit :=
  if skipEmpty && e.inode == 0 then
    if e.entSize == 0 then .loop else .skip
  else if e.entSize == 0 then .stop else .yield

/-- Where `Iterator::find` on a `DirEntIter` stops. -/
inductive Hit
  | found (b i : ℕ) (e : DirEntry)
  | stopped
  | exhausted
deriving DecidableEq

/-- `Iterator::find` over the records `next` visits; `none` where `next` loops. -/
def find (skipEmpty : Bool) (p : DirEntry → Bool) : List ((ℕ × ℕ) × DirEntry) → Option Hit
  | [] => some .exhausted
  | ((b, i), e) :: rs =>
    match visit skipEmpty e with
    | .skip => find skipEmpty p rs
    | .loop => none
    | .stop => some .stopped
    | .yield => if p e then some (.found b i e) else find skipEmpty p rs

/-- The records the iteration yields, in order; `none` where `next` loops. -/
def collect (skipEmpty : Bool) : List ((ℕ × ℕ) × DirEntry) → Option (List DirEntry)
  | [] => some []
  | (_, e) :: rs =>
    match visit skipEmpty e with
    | .skip => collect skipEmpty rs
    | .loop => none
    | .stop => some []
    | .yield => (collect skipEmpty rs).map (e :: ·)

/-- The (name, inode) pairs that iterating a directory with `DirEntIter::new` lists, as
`SysDirEntIter` does. -/
def listing (d : List (List DirEntry)) : Option (List (List UInt8 × BitVec 32)) :=
  (collect true (records d 0)).map (List.map fun e => (e.name, e.inode))

/-- The size of the record `add_dir_entry` makes for a name: header and name, rounded up to 4. -/
def requiredSize (name : List UInt8) : ℕ := roundUp (name.length + 8) 4

/-- The test `add_dir_entry` searches with: room for `size` more bytes in the record. -/
def hasRoom (size : ℕ) (e : DirEntry) : Bool := size ≤ e.availableSize.toNat

/-- The found record `i` of a block replaced by what `extract` left of it and the new record. -/
def splitAt (i : ℕ) (kept : List DirEntry) (new : DirEntry) (blk : List DirEntry) :
    List DirEntry :=
  blk.take i ++ kept ++ new :: blk.drop (i + 1)

/-- `DirEntIter::add_dir_entry` of an inode of type `typ` under `name`, on an iterator that goes on
from block `start`, with `free` blocks left for the allocator to hand out: the directory it leaves
and its result. When no record has room, the iterator has reached the file's end: a block is
appended and the search goes on from it. -/
def addDirEntry (bs : ℕ) (skipEmpty : Bool) (target : BitVec 32) (typ : FileType)
    (name : List UInt8) :
    ℕ → List (List DirEntry) → ℕ → Option (List (List DirEntry) × Except FsError Unit)
  | free, d, start =>
    match find skipEmpty (hasRoom (requiredSize name)) (records (d.drop start) start) with
    | some (.found b i e) =>
      match e.extract with
      | some (kept, avail) =>
        (DirEntry.setName ⟨target, avail, [], .ofFileType typ, by simp⟩ name).map fun new =>
          (d.modify b (splitAt i kept new), .ok ())
      | none => none
    | some .exhausted =>
      match free with
      | 0 => some (d, .error .notSupported)
      | free + 1 =>
        addDirEntry bs skipEmpty target typ name free (d ++ [[DirEntry.empty bs]]) d.length
    | some .stopped => none
    | none => none

/-- The loop of `remove_dir_entry` over a block from its record `ent` on: every empty record is
folded into the record before it, its size added in 16 bits. -/
def coalesce : DirEntry → List DirEntry → List DirEntry
  | ent, [] => [ent]
  | ent, next :: rs =>
    if next.inode = 0 then coalesce { ent with entSize := ent.entSize + next.entSize } rs
    else ent :: coalesce next rs

/-- The loop of `remove_dir_entry` over the block of the removed record, from its first record. -/
def coalesceBlock : List DirEntry → List DirEntry
  | [] => []
  | ent :: rs => coalesce ent rs

/-- `DirEntIter::remove_dir_entry` of `name`, on an iterator over the whole directory. -/
def removeDirEntry (skipEmpty : Bool) (d : List (List DirEntry)) (name : List UInt8) :
    Option (List (List DirEntry) × Except FsError Unit) :=
  match find skipEmpty (fun e => e.name == name) (records d 0) with
  | some (.found b i _) =>
    some (d.modify b (fun blk => coalesceBlock (blk.modify i DirEntry.clear)), .ok ())
  | some _ => some (d, .error .entryNotFound)
  | none => none

end DirEntIter

/-! ## Records that fit their chain -/

namespace DirEntry

/-- A live record: its inode is not 0. -/
def live (e : DirEntry) : Bool := e.inode != 0

/-- The name and inode a live record lists. -/
def pair (e : DirEntry) : List UInt8 × BitVec 32 := (e.name, e.inode)

/-- A record's size is a multiple of 4, at least 8 and at least its real size. -/
structure RecordOk (e : DirEntry) : Prop where
  four_dvd : 4 ∣ e.entSize.toNat
  eight_le : 8 ≤ e.entSize.toNat
  realSize_le : e.realSize.toNat ≤ e.entSize.toNat

variable {e : DirEntry}

/-- The record of a name of at most 255 bytes takes at most 264 bytes. -/
theorem roundUp_le_264 {n : ℕ} (h : n ≤ 255) : roundUp (n + 8) 4 ≤ 264 := by
  have := roundUp_lt_add (n + 8) 4 (by norm_num)
  have := dvd_roundUp (n + 8) 4
  omega

/-- The record of a name of at least one byte takes at least 12 bytes. -/
theorem twelve_le_roundUp {n : ℕ} (h : 1 ≤ n) : 12 ≤ roundUp (n + 8) 4 := by
  have := le_roundUp (n + 8) 4 (by norm_num)
  have := dvd_roundUp (n + 8) 4
  omega

theorem realSize_toNat (e : DirEntry) :
    e.realSize.toNat = if e.inode = 0 then 0 else roundUp (e.name.length + 8) 4 := by
  have := roundUp_le_264 e.name_le
  by_cases h : e.inode = 0
  · simp [realSize, h]
  · rw [realSize, if_neg h, if_neg h, BitVec.toNat_ofNat, Nat.mod_eq_of_lt (by omega)]

theorem four_dvd_realSize (e : DirEntry) : 4 ∣ e.realSize.toNat := by
  rw [realSize_toNat]
  split
  · exact dvd_zero 4
  · exact dvd_roundUp _ _

theorem realSize_eq_zero_iff : e.realSize = 0 ↔ e.inode = 0 := by
  rw [← BitVec.toNat_inj, realSize_toNat]
  have := le_roundUp (e.name.length + 8) 4 (by norm_num)
  split <;> simp_all; omega

@[simp] theorem realSize_setSize (s : BitVec 16) :
    ({ e with entSize := s } : DirEntry).realSize = e.realSize := rfl

theorem RecordOk.entSize_ne_zero (h : RecordOk e) : e.entSize ≠ 0 := by
  intro h0
  have := h.eight_le
  simp [h0] at this

theorem RecordOk.availableSize_toNat (h : RecordOk e) :
    e.availableSize.toNat = e.entSize.toNat - e.realSize.toNat :=
  BitVec.toNat_sub_of_le (BitVec.le_def.2 h.realSize_le)

theorem RecordOk.clear (h : RecordOk e) : RecordOk e.clear :=
  ⟨h.four_dvd, h.eight_le, by simp [DirEntry.clear, realSize]⟩

theorem toNat_entSize_empty {bs : ℕ} (hlt : bs < 2 ^ 16) : (empty bs).entSize.toNat = bs := by
  show (BitVec.ofNat 16 bs).toNat = bs
  rw [BitVec.toNat_ofNat, Nat.mod_eq_of_lt hlt]

theorem recordOk_empty {bs : ℕ} (h4 : 4 ∣ bs) (h8 : 8 ≤ bs) (hlt : bs < 2 ^ 16) :
    RecordOk (empty bs) := by
  have hsize := toNat_entSize_empty hlt
  exact ⟨by rw [hsize]; exact h4, by rw [hsize]; exact h8, by simp [empty, realSize]⟩

/-- A record has a name exactly when it is live: `remove_dir_entry` clears the name with the
inode, and the record of an appended block has neither. -/
def Named (e : DirEntry) : Prop := e.name = [] ↔ e.inode = 0

instance (e : DirEntry) : Decidable e.Named := inferInstanceAs (Decidable (_ ↔ _))

@[simp] theorem named_setSize (s : BitVec 16) : ({ e with entSize := s } : DirEntry).Named ↔ e.Named :=
  Iff.rfl

theorem named_clear (e : DirEntry) : e.clear.Named := by
  simp [Named, DirEntry.clear]

theorem named_empty (bs : ℕ) : (empty bs).Named := by
  simp [Named, empty]

theorem setName_eq {name : List UInt8} (hn : name.length ≤ 255)
    (h : roundUp (8 + name.length) 4 ≤ e.entSize.toNat) :
    e.setName name = some { e with name := name, name_le := hn } := by
  have hmin : min 255 name.length = name.length := by omega
  simp only [setName, hmin, h, if_true, List.take_length]

/-- The records `extract` leaves before the new one: together with the new record's size they
span the old record, they fit their sizes, they list what the old record listed, and they keep
its name and inode. -/
structure Kept (e : DirEntry) (kept : List DirEntry) (avail : BitVec 16) : Prop where
  span_eq : (kept.map fun k => k.entSize.toNat).sum + avail.toNat = e.entSize.toNat
  record_ok : ∀ k ∈ kept, RecordOk k
  live_eq : (kept.filter live).map pair = ([e].filter live).map pair
  named : e.Named → ∀ k ∈ kept, k.Named

theorem extract_spec (h : RecordOk e) {kept : List DirEntry} {avail : BitVec 16}
    (hx : e.extract = some (kept, avail)) :
    Kept e kept avail ∧ avail = e.availableSize ∧ 12 ≤ avail.toNat := by
  have h12 : 12 ≤ e.availableSize.toNat := by
    by_contra h12
    simp [extract, h12] at hx
  simp only [extract, h12, if_true, Option.some.injEq, Prod.mk.injEq] at hx
  obtain ⟨rfl, rfl⟩ := hx
  have havail := h.availableSize_toNat
  refine ⟨?_, rfl, h12⟩
  by_cases h0 : e.realSize = 0
  · have hi := realSize_eq_zero_iff.1 h0
    rw [h0] at havail
    refine ⟨?_, ?_, ?_, ?_⟩ <;> simp_all [live]
  · have hi : e.inode ≠ 0 := fun hi => h0 (realSize_eq_zero_iff.2 hi)
    have h8 : 8 ≤ e.realSize.toNat := by
      rw [realSize_toNat, if_neg hi]
      have := le_roundUp (e.name.length + 8) 4 (by norm_num)
      omega
    refine ⟨?_, ?_, ?_, ?_⟩
    · simp only [h0, if_false, List.map_cons, List.map_nil, List.sum_cons, List.sum_nil]
      have := h.realSize_le
      omega
    · simp only [h0, if_false, List.mem_singleton]
      rintro k rfl
      exact ⟨four_dvd_realSize e, h8, le_refl _⟩
    · rw [if_neg h0]
      simp_all [List.filter_cons, live, pair]
    · simp only [h0, if_false, List.mem_singleton]
      rintro hn k rfl
      exact (named_setSize _).2 hn

end DirEntry

open DirEntry

/-- The bytes a list of records spans. -/
def spanOf (l : List DirEntry) : ℕ := (l.map fun e => e.entSize.toNat).sum

@[simp] theorem spanOf_nil : spanOf [] = 0 := rfl

@[simp] theorem spanOf_cons (e : DirEntry) (l : List DirEntry) :
    spanOf (e :: l) = e.entSize.toNat + spanOf l := by
  simp [spanOf]

@[simp] theorem spanOf_append (l l' : List DirEntry) : spanOf (l ++ l') = spanOf l + spanOf l' := by
  simp [spanOf]

/-- The (name, inode) pairs of the live records of a list. -/
def pairsOf (l : List DirEntry) : List (List UInt8 × BitVec 32) := (l.filter live).map pair

@[simp] theorem pairsOf_nil : pairsOf [] = [] := rfl

@[simp] theorem pairsOf_append (l l' : List DirEntry) :
    pairsOf (l ++ l') = pairsOf l ++ pairsOf l' := by
  simp [pairsOf]

theorem pairsOf_cons (e : DirEntry) (l : List DirEntry) :
    pairsOf (e :: l) = pairsOf [e] ++ pairsOf l := pairsOf_append [e] l

theorem pairsOf_single_of_live {e : DirEntry} (h : e.inode ≠ 0) : pairsOf [e] = [e.pair] := by
  have h' : e.live = true := by simpa [live] using h
  rw [pairsOf, List.filter_cons_of_pos h', List.filter_nil]
  rfl

theorem pairsOf_single_of_empty {e : DirEntry} (h : e.inode = 0) : pairsOf [e] = [] := by
  have h' : e.live = false := by simpa [live] using h
  rw [pairsOf, List.filter_cons_of_neg (by simp [h']), List.filter_nil]
  rfl

/-- A block is a chain of records spanning `bs` bytes. -/
structure Chain (bs : ℕ) (blk : List DirEntry) : Prop where
  record_ok : ∀ e ∈ blk, RecordOk e
  span_eq : spanOf blk = bs

theorem chain_empty {bs : ℕ} (h4 : 4 ∣ bs) (h8 : 8 ≤ bs) (hlt : bs < 2 ^ 16) :
    Chain bs [empty bs] :=
  ⟨by simpa using recordOk_empty h4 h8 hlt, by simp [toNat_entSize_empty hlt]⟩

/-! ## The iterator over records that fit -/

namespace DirEntIter

variable {s : Bool} {p : DirEntry → Bool} {rs : List ((ℕ × ℕ) × DirEntry)} {b i : ℕ}
  {e : DirEntry}

theorem map_snd_records (d : List (List DirEntry)) (b : ℕ) :
    (records d b).map Prod.snd = d.flatten := by
  induction d generalizing b with
  | nil => rfl
  | cons blk d ih =>
    rw [records, List.map_append, ih, List.map_map, List.flatten_cons]
    congr 1
    conv_rhs => rw [← List.zipIdx_map_fst 0 blk]
    rfl

theorem mem_records {d : List (List DirEntry)} {b b' : ℕ} (h : ((b', i), e) ∈ records d b) :
    b ≤ b' ∧ ∃ blk, d[b' - b]? = some blk ∧ blk[i]? = some e := by
  induction d generalizing b with
  | nil => simp [records] at h
  | cons blk d ih =>
    rw [records, List.mem_append, List.mem_map] at h
    rcases h with ⟨⟨e', i'⟩, hmem, heq⟩ | h
    · simp only [Prod.mk.injEq] at heq
      obtain ⟨⟨rfl, rfl⟩, rfl⟩ := heq
      exact ⟨le_refl _, blk, by simp, List.mem_zipIdx_iff_getElem?.1 hmem⟩
    · obtain ⟨hle, blk', hb, hi⟩ := ih h
      refine ⟨by omega, blk', ?_, hi⟩
      rw [show b' - b = b' - (b + 1) + 1 by omega]
      simpa using hb

theorem visit_of_ne_zero (h : e.entSize ≠ 0) :
    visit s e = if s && e.inode == 0 then .skip else .yield := by
  have h' : (e.entSize == 0) = false := by simpa using h
  simp only [visit, h', Bool.false_eq_true, if_false]

theorem visit_eq_yield_iff : visit s e = .yield ↔ (s = true → e.inode ≠ 0) ∧ e.entSize ≠ 0 := by
  by_cases h0 : e.inode = 0 <;> by_cases hs : e.entSize = 0 <;> cases s <;> simp_all [visit]

theorem find_found (h : find s p rs = some (.found b i e)) :
    ((b, i), e) ∈ rs ∧ p e = true ∧ visit s e = .yield := by
  induction rs with
  | nil => cases h
  | cons x rs ih =>
    obtain ⟨⟨b', i'⟩, e'⟩ := x
    rw [find] at h
    split at h
    · exact (ih h).imp (List.mem_cons_of_mem _) id
    · cases h
    · cases h
    · rename_i hv
      split at h
      · cases h
        exact ⟨List.mem_cons_self, by assumption, hv⟩
      · exact (ih h).imp (List.mem_cons_of_mem _) id

theorem find_exhausted (h : find s p rs = some .exhausted) :
    ∀ x ∈ rs, visit s x.2 = .skip ∨ (visit s x.2 = .yield ∧ p x.2 = false) := by
  induction rs with
  | nil => simp
  | cons x rs ih =>
    obtain ⟨⟨b', i'⟩, e'⟩ := x
    rw [find] at h
    intro y hy
    rcases List.mem_cons.1 hy with rfl | hy
    · split at h
      · exact .inl ‹_›
      · cases h
      · cases h
      · split at h
        · cases h
        · exact .inr ⟨‹_›, by simpa using ‹¬p e' = true›⟩
    · split at h
      · exact ih h y hy
      · cases h
      · cases h
      · split at h
        · cases h
        · exact ih h y hy

/-- Over records of nonzero size the search finds a record or reaches the end. -/
theorem find_of_ne_zero (h : ∀ x ∈ rs, x.2.entSize ≠ 0) :
    find s p rs = some .exhausted ∨ ∃ b i e, find s p rs = some (.found b i e) := by
  induction rs with
  | nil => exact .inl rfl
  | cons x rs ih =>
    obtain ⟨⟨b', i'⟩, e'⟩ := x
    have ih := ih fun y hy => h y (List.mem_cons_of_mem _ hy)
    rw [find, visit_of_ne_zero (h _ List.mem_cons_self)]
    dsimp only
    by_cases hskip : (s && e'.inode == 0) = true
    · simpa only [hskip, if_true] using ih
    · simp only [hskip, Bool.false_eq_true, if_false]
      by_cases hp : p e' = true
      · exact .inr ⟨b', i', e', by simp [hp]⟩
      · simpa only [hp, Bool.false_eq_true, if_false] using ih

end DirEntIter

/-! ## Blocks that stay chains -/

section Blocks

variable {α : Type*} {l : List α} {i : ℕ} {a : α}

theorem take_append_cons_drop_of_getElem? (h : l[i]? = some a) :
    l.take i ++ a :: l.drop (i + 1) = l := by
  obtain ⟨hi, rfl⟩ := List.getElem?_eq_some_iff.1 h
  rw [← List.drop_eq_getElem_cons hi, List.take_append_drop]

theorem modify_of_getElem? (h : l[i]? = some a) (f : α → α) :
    l.modify i f = l.take i ++ f a :: l.drop (i + 1) := by
  obtain ⟨hi, rfl⟩ := List.getElem?_eq_some_iff.1 h
  exact List.modify_eq_take_cons_drop hi

/-- Changing one element keeps a property of every element, where the new one has it. -/
theorem forall_mem_modify {P : α → Prop} (hl : ∀ x ∈ l, P x) (h : l[i]? = some a) {f : α → α}
    (hf : P (f a)) : ∀ x ∈ l.modify i f, P x := by
  rw [modify_of_getElem? h]
  intro x hx
  simp only [List.mem_append, List.mem_cons] at hx
  rcases hx with hx | rfl | hx
  · exact hl x (List.mem_of_mem_take hx)
  · exact hf
  · exact hl x (List.mem_of_mem_drop hx)

end Blocks

variable {bs : ℕ} {blk : List DirEntry} {i : ℕ} {e : DirEntry}

theorem pairsOf_setSize (e : DirEntry) (s : BitVec 16) :
    pairsOf [{ e with entSize := s }] = pairsOf [e] := by
  by_cases h : e.inode = 0
  · rw [pairsOf_single_of_empty (e := { e with entSize := s }) h, pairsOf_single_of_empty h]
  · rw [pairsOf_single_of_live (e := { e with entSize := s }) h, pairsOf_single_of_live h]
    rfl

theorem pairsOf_clear (e : DirEntry) : pairsOf [e.clear] = [] :=
  pairsOf_single_of_empty rfl

theorem Chain.mem (hc : Chain bs blk) (hi : blk[i]? = some e) : RecordOk e :=
  hc.record_ok e (List.mem_of_getElem? hi)

/-- A property of every record of a block, of the records `extract` kept and of the new record
holds of every record after the split. -/
theorem forall_mem_splitAt {P : DirEntry → Prop} {kept : List DirEntry} {new : DirEntry}
    (hblk : ∀ x ∈ blk, P x) (hk : ∀ k ∈ kept, P k) (hnew : P new) :
    ∀ x ∈ DirEntIter.splitAt i kept new blk, P x := by
  intro x hx
  simp only [DirEntIter.splitAt, List.mem_append, List.mem_cons] at hx
  rcases hx with (hx | hx) | rfl | hx
  · exact hblk x (List.mem_of_mem_take hx)
  · exact hk x hx
  · exact hnew
  · exact hblk x (List.mem_of_mem_drop hx)

theorem Chain.splitAt {kept : List DirEntry} {avail : BitVec 16} {new : DirEntry}
    (hc : Chain bs blk) (hi : blk[i]? = some e) (hk : Kept e kept avail) (hnew : RecordOk new)
    (hsize : new.entSize = avail) : Chain bs (DirEntIter.splitAt i kept new blk) := by
  have hspan := hc.span_eq
  rw [← take_append_cons_drop_of_getElem? hi] at hspan
  refine ⟨forall_mem_splitAt hc.record_ok hk.record_ok hnew, ?_⟩
  · have hkept := hk.span_eq
    simp only [DirEntIter.splitAt, spanOf_append, spanOf_cons] at hspan ⊢
    rw [hsize]
    simp only [spanOf] at hspan ⊢
    omega

theorem pairsOf_splitAt {kept : List DirEntry} {avail : BitVec 16} {new : DirEntry}
    (hi : blk[i]? = some e) (hk : Kept e kept avail) (hnew : new.inode ≠ 0) :
    (pairsOf (DirEntIter.splitAt i kept new blk)).Perm (new.pair :: pairsOf blk) := by
  have hkept : pairsOf kept = pairsOf [e] := hk.live_eq
  have hblk : pairsOf blk =
      pairsOf (blk.take i) ++ pairsOf [e] ++ pairsOf (blk.drop (i + 1)) := by
    conv_lhs => rw [← take_append_cons_drop_of_getElem? hi]
    rw [pairsOf_append, pairsOf_cons, List.append_assoc]
  have hsplit : pairsOf (DirEntIter.splitAt i kept new blk) =
      pairsOf (blk.take i) ++ pairsOf [e] ++ new.pair :: pairsOf (blk.drop (i + 1)) := by
    rw [DirEntIter.splitAt, pairsOf_append, pairsOf_append, pairsOf_cons, hkept,
      pairsOf_single_of_live hnew]
    simp only [List.append_assoc, List.singleton_append]
  rw [hsplit, hblk]
  exact List.perm_middle

/-- The loop of `remove_dir_entry` keeps the records fitting and the span, while no size it adds
up overflows 16 bits, and drops only empty records. -/
theorem coalesce_spec {ent : DirEntry} {rs : List DirEntry} (hent : RecordOk ent)
    (hrs : ∀ r ∈ rs, RecordOk r) (hlt : ent.entSize.toNat + spanOf rs < 2 ^ 16) :
    (∀ r ∈ DirEntIter.coalesce ent rs, RecordOk r) ∧
      spanOf (DirEntIter.coalesce ent rs) = ent.entSize.toNat + spanOf rs ∧
      pairsOf (DirEntIter.coalesce ent rs) = pairsOf (ent :: rs) := by
  induction rs generalizing ent with
  | nil => simp [DirEntIter.coalesce, hent]
  | cons r rs ih =>
    have hr := hrs r List.mem_cons_self
    have hrs' := fun x hx => hrs x (List.mem_cons_of_mem r hx)
    rw [spanOf_cons] at hlt
    by_cases h0 : r.inode = 0
    · have hsize : (ent.entSize + r.entSize).toNat = ent.entSize.toNat + r.entSize.toNat :=
        BitVec.toNat_add_of_lt (by omega)
      have hent' : RecordOk { ent with entSize := ent.entSize + r.entSize } :=
        ⟨by rw [hsize]; exact Nat.dvd_add hent.four_dvd hr.four_dvd,
          by rw [hsize]; have := hent.eight_le; omega,
          by rw [realSize_setSize, hsize]; have := hent.realSize_le; omega⟩
      obtain ⟨h1, h2, h3⟩ := ih hent' hrs' (by rw [hsize]; omega)
      rw [DirEntIter.coalesce, if_pos h0]
      refine ⟨h1, by rw [h2, hsize, spanOf_cons]; omega, ?_⟩
      rw [h3, pairsOf_cons ent (r :: rs), pairsOf_cons r rs, pairsOf_single_of_empty h0,
        List.nil_append, pairsOf_cons _ rs, pairsOf_setSize]
    · obtain ⟨h1, h2, h3⟩ := ih hr hrs' (by omega)
      rw [DirEntIter.coalesce, if_neg h0]
      refine ⟨?_, by rw [spanOf_cons, h2, spanOf_cons], ?_⟩
      · intro x hx
        rcases List.mem_cons.1 hx with rfl | hx
        · exact hent
        · exact h1 x hx
      · rw [pairsOf_cons, h3, ← pairsOf_cons]

theorem Chain.coalesceBlock (hc : Chain bs blk) (hlt : bs < 2 ^ 16) :
    Chain bs (DirEntIter.coalesceBlock blk) ∧ pairsOf (DirEntIter.coalesceBlock blk) = pairsOf blk := by
  cases blk with
  | nil => exact ⟨hc, rfl⟩
  | cons ent rs =>
    have hspan := hc.span_eq
    rw [spanOf_cons] at hspan
    obtain ⟨h1, h2, h3⟩ := coalesce_spec (hc.record_ok ent List.mem_cons_self)
      (fun r hr => hc.record_ok r (List.mem_cons_of_mem ent hr)) (by omega)
    exact ⟨⟨h1, by rw [DirEntIter.coalesceBlock, h2, hspan]⟩, h3⟩

theorem Chain.modify_clear (hc : Chain bs blk) (hi : blk[i]? = some e) :
    Chain bs (blk.modify i DirEntry.clear) := by
  have hspan := hc.span_eq
  rw [← take_append_cons_drop_of_getElem? hi] at hspan
  refine ⟨forall_mem_modify hc.record_ok hi (hc.mem hi).clear, ?_⟩
  rw [modify_of_getElem? hi]
  simpa [DirEntry.clear] using hspan

/-- The loop of `remove_dir_entry` only changes sizes: it keeps every record named. -/
theorem named_coalesce {ent : DirEntry} {rs : List DirEntry} (h : ∀ x ∈ ent :: rs, x.Named) :
    ∀ r ∈ DirEntIter.coalesce ent rs, r.Named := by
  induction rs generalizing ent with
  | nil => simpa [DirEntIter.coalesce] using h
  | cons r rs ih =>
    have hent := h ent List.mem_cons_self
    have hrs : ∀ x ∈ r :: rs, x.Named := fun x hx => h x (List.mem_cons_of_mem ent hx)
    by_cases h0 : r.inode = 0
    · -- `r` is folded into `ent`, whose size grows
      rw [DirEntIter.coalesce, if_pos h0]
      refine ih fun x hx => ?_
      rcases List.mem_cons.1 hx with rfl | hx
      · exact (named_setSize _).2 hent
      · exact hrs x (List.mem_cons_of_mem r hx)
    · rw [DirEntIter.coalesce, if_neg h0]
      intro x hx
      rcases List.mem_cons.1 hx with rfl | hx
      · exact hent
      · exact ih hrs x hx

theorem named_coalesceBlock (h : ∀ x ∈ blk, x.Named) :
    ∀ r ∈ DirEntIter.coalesceBlock blk, r.Named := by
  cases blk with
  | nil => simp [DirEntIter.coalesceBlock]
  | cons ent rs => exact named_coalesce h

/-! ## Directories whose blocks are chains -/

namespace Dir

/-- Every block of the directory is a chain of `bs` bytes. -/
def Ok (bs : ℕ) (d : List (List DirEntry)) : Prop := ∀ blk ∈ d, Chain bs blk

/-- Every record of the directory is named. -/
def Named (d : List (List DirEntry)) : Prop := ∀ blk ∈ d, ∀ e ∈ blk, e.Named

instance (d : List (List DirEntry)) : Decidable (Named d) :=
  inferInstanceAs (Decidable (∀ blk ∈ d, ∀ e ∈ blk, _))

/-- The (name, inode) pairs of the directory's live records, block after block. -/
def pairs (d : List (List DirEntry)) : List (List UInt8 × BitVec 32) := pairsOf d.flatten

/-- The directory as a map from names to inodes. -/
def nameMap (d : List (List DirEntry)) (n : List UInt8) : Option (BitVec 32) := (pairs d).lookup n

/-- A live record of the directory has the name. -/
def present (d : List (List DirEntry)) (n : List UInt8) : Prop := n ∈ (pairs d).map Prod.fst

instance (d : List (List DirEntry)) (n : List UInt8) : Decidable (present d n) :=
  inferInstanceAs (Decidable (n ∈ _))

variable {d : List (List DirEntry)} {b : ℕ}

theorem Ok.entSize_ne_zero (hd : Ok bs d) (b : ℕ) :
    ∀ x ∈ DirEntIter.records d b, x.2.entSize ≠ 0 := by
  intro x hx
  have hmem : x.2 ∈ d.flatten := by
    rw [← DirEntIter.map_snd_records d b]
    exact List.mem_map_of_mem hx
  obtain ⟨blk, hblk, he⟩ := List.mem_flatten.1 hmem
  exact ((hd blk hblk).record_ok _ he).entSize_ne_zero

theorem Ok.drop (hd : Ok bs d) (n : ℕ) : Ok bs (d.drop n) :=
  fun blk h => hd blk (List.mem_of_mem_drop h)

theorem Ok.append (hd : Ok bs d) (hc : Chain bs blk) : Ok bs (d ++ [blk]) := by
  intro blk' h
  rcases List.mem_append.1 h with h | h
  · exact hd blk' h
  · rw [List.mem_singleton.1 h]
    exact hc

theorem Ok.mem (hd : Ok bs d) (hb : d[b]? = some blk) : Chain bs blk :=
  hd blk (List.mem_of_getElem? hb)

theorem Ok.modify (hd : Ok bs d) (hb : d[b]? = some blk) {f : List DirEntry → List DirEntry}
    (hf : Chain bs (f blk)) : Ok bs (d.modify b f) :=
  forall_mem_modify hd hb hf

theorem Named.append (hd : Named d) (hblk : ∀ e ∈ blk, e.Named) : Named (d ++ [blk]) := by
  intro blk' h
  rcases List.mem_append.1 h with h | h
  · exact hd blk' h
  · rw [List.mem_singleton.1 h]
    exact hblk

theorem Named.modify (hd : Named d) (hb : d[b]? = some blk) {f : List DirEntry → List DirEntry}
    (hf : ∀ e ∈ f blk, e.Named) : Named (d.modify b f) :=
  forall_mem_modify hd hb hf

/-- A name the directory lists is not empty. -/
theorem Named.ne_nil_of_present (hd : Named d) {n : List UInt8} (hn : present d n) : n ≠ [] := by
  obtain ⟨⟨n', v⟩, hmem, rfl⟩ := List.mem_map.1 hn
  obtain ⟨e, he, hpe⟩ := List.mem_map.1 hmem
  obtain ⟨hef, hlive⟩ := List.mem_filter.1 he
  obtain ⟨blk, hblk, heb⟩ := List.mem_flatten.1 hef
  have hnamed := hd blk hblk e heb
  simp only [pair, Prod.mk.injEq] at hpe
  rw [← hpe.1]
  exact fun h0 => by simp [live, hnamed.1 h0] at hlive

theorem pairs_append_cons (l₁ l₂ : List (List DirEntry)) (blk : List DirEntry) :
    pairs (l₁ ++ blk :: l₂) = pairs l₁ ++ pairsOf blk ++ pairs l₂ := by
  simp [pairs, List.flatten_append, List.append_assoc]

theorem pairs_eq_of_getElem? (hb : d[b]? = some blk) :
    pairs d = pairs (d.take b) ++ pairsOf blk ++ pairs (d.drop (b + 1)) := by
  conv_lhs => rw [← take_append_cons_drop_of_getElem? hb]
  exact pairs_append_cons _ _ _

theorem pairs_modify (hb : d[b]? = some blk) (f : List DirEntry → List DirEntry) :
    pairs (d.modify b f) = pairs (d.take b) ++ pairsOf (f blk) ++ pairs (d.drop (b + 1)) := by
  rw [modify_of_getElem? hb]
  exact pairs_append_cons _ _ _

theorem pairs_append_empty (d : List (List DirEntry)) (bs : ℕ) :
    pairs (d ++ [[DirEntry.empty bs]]) = pairs d := by
  simp [pairs, pairsOf_single_of_empty (e := DirEntry.empty bs) rfl]

end Dir

/-! ## Adding and removing -/

/-- The block sizes whose chains the operations keep: room for every record, and a span that fits
the 16-bit size field. -/
structure BlockSizeOk (bs : ℕ) : Prop where
  four_dvd : 4 ∣ bs
  le : 264 ≤ bs
  lt : bs < 2 ^ 16

theorem pairsOf_eq_of_getElem? {blk : List DirEntry} {i : ℕ} {e : DirEntry}
    (hi : blk[i]? = some e) :
    pairsOf blk = pairsOf (blk.take i) ++ pairsOf [e] ++ pairsOf (blk.drop (i + 1)) := by
  conv_lhs => rw [← take_append_cons_drop_of_getElem? hi]
  rw [pairsOf_append, pairsOf_cons, List.append_assoc]

theorem perm_append_middle {α : Type*} {l l' a c : List α} {x : α} (h : l.Perm (x :: l')) :
    (a ++ l ++ c).Perm (x :: (a ++ l' ++ c)) := by
  have hmid := ((h.append_left a).append_right c)
  simp only [List.append_assoc, List.cons_append] at hmid ⊢
  exact hmid.trans List.perm_middle

namespace DirEntIter

variable {bs : ℕ} {s : Bool} {target : BitVec 32} {typ : FileType} {name : List UInt8}
  {free : ℕ} {d : List (List DirEntry)} {start b i : ℕ} {e : DirEntry}

/-- Where the search finds a record with room, the new record takes its room. -/
theorem addDirEntry_found (hd : Dir.Ok bs d) (hnm : Dir.Named d) (ht : target ≠ 0)
    (h1 : 1 ≤ name.length) (hn : name.length ≤ 255)
    (hfind : find s (hasRoom (requiredSize name)) (records (d.drop start) start) =
      some (.found b i e)) :
    ∃ d', addDirEntry bs s target typ name free d start = some (d', .ok ()) ∧ Dir.Ok bs d' ∧
      Dir.Named d' ∧ (Dir.pairs d').Perm ((name, target) :: Dir.pairs d) ∧
      d'.length = d.length := by
  obtain ⟨hmem, hroom, -⟩ := find_found hfind
  obtain ⟨hle, blk, hblk, hi⟩ := mem_records hmem
  rw [List.getElem?_drop, Nat.add_sub_cancel' hle] at hblk
  have hc := hd.mem hblk
  have he := hc.mem hi
  have hreq : requiredSize name ≤ e.availableSize.toNat := by simpa [hasRoom] using hroom
  have h12 : 12 ≤ e.availableSize.toNat := (twelve_le_roundUp h1).trans hreq
  obtain ⟨kept, avail, hx⟩ : ∃ kept avail, e.extract = some (kept, avail) := by
    simp only [extract, h12, if_true]
    exact ⟨_, _, rfl⟩
  obtain ⟨hk, rfl, -⟩ := extract_spec he hx
  let new : DirEntry := ⟨target, e.availableSize, name, .ofFileType typ, hn⟩
  have hset : DirEntry.setName ⟨target, e.availableSize, [], .ofFileType typ, by simp⟩ name =
      some new :=
    setName_eq hn (by rw [Nat.add_comm]; exact hreq)
  have hnew : RecordOk new := by
    refine ⟨?_, show 8 ≤ e.availableSize.toNat by omega, ?_⟩
    · show 4 ∣ e.availableSize.toNat
      rw [he.availableSize_toNat]
      exact Nat.dvd_sub he.four_dvd (four_dvd_realSize e)
    · rw [realSize_toNat, if_neg ht]
      exact hreq
  have hnamed : new.Named := ⟨fun h0 => absurd h0 (List.ne_nil_of_length_pos h1), fun h0 =>
    absurd h0 ht⟩
  have hblkn := hnm blk (List.mem_of_getElem? hblk)
  refine ⟨d.modify b (splitAt i kept new), ?_, hd.modify hblk (hc.splitAt hi hk hnew rfl),
    hnm.modify hblk (forall_mem_splitAt hblkn (hk.named (hblkn e (List.mem_of_getElem? hi)))
      hnamed), ?_, ?_⟩
  · rw [addDirEntry.eq_def]
    dsimp only
    rw [hfind]
    simp only [hx, hset, Option.map_some]
  · rw [Dir.pairs_modify hblk, Dir.pairs_eq_of_getElem? hblk]
    exact perm_append_middle (pairsOf_splitAt hi hk ht)
  · exact List.length_modify ..

theorem addDirEntry_exhausted_zero
    (hfind : find s (hasRoom (requiredSize name)) (records (d.drop start) start) =
      some .exhausted) :
    addDirEntry bs s target typ name 0 d start = some (d, .error .notSupported) := by
  rw [addDirEntry.eq_def]
  dsimp only
  rw [hfind]

theorem addDirEntry_exhausted_succ
    (hfind : find s (hasRoom (requiredSize name)) (records (d.drop start) start) =
      some .exhausted) :
    addDirEntry bs s target typ name (free + 1) d start =
      addDirEntry bs s target typ name free (d ++ [[DirEntry.empty bs]]) d.length := by
  rw [addDirEntry.eq_def]
  dsimp only
  rw [hfind]

/-- A search that does not skip empty records finds the record of an appended block. -/
theorem find_appended (hbs : BlockSizeOk bs) (hn : name.length ≤ 255) :
    find false (hasRoom (requiredSize name))
        (records ((d ++ [[DirEntry.empty bs]]).drop d.length) d.length) =
      some (.found d.length 0 (DirEntry.empty bs)) := by
  have hne := (recordOk_empty hbs.four_dvd (by have := hbs.le; omega) hbs.lt).entSize_ne_zero
  have hroom : hasRoom (requiredSize name) (DirEntry.empty bs) = true := by
    have havail : (DirEntry.empty bs).availableSize = (DirEntry.empty bs).entSize := by
      simp [availableSize, realSize, DirEntry.empty]
    have := roundUp_le_264 hn
    have := hbs.le
    simp only [hasRoom, havail, toNat_entSize_empty hbs.lt, requiredSize, decide_eq_true_eq]
    omega
  rw [List.drop_left]
  simp [records, find, visit_of_ne_zero hne, hroom]

/-- `add_dir_entry` on an iterator that does not skip empty records adds the name, or fails with
the directory as it was when it needs a block and the allocator has none. -/
theorem addDirEntry_spec (typ : FileType) (free : ℕ) (hbs : BlockSizeOk bs) (hd : Dir.Ok bs d)
    (hnm : Dir.Named d) (ht : target ≠ 0) (h1 : 1 ≤ name.length) (hn : name.length ≤ 255) :
    ∃ d' r, addDirEntry bs false target typ name free d 0 = some (d', r) ∧ Dir.Ok bs d' ∧
      Dir.Named d' ∧ d'.length ≤ d.length + 1 ∧
      (r = .ok () ∧ (Dir.pairs d').Perm ((name, target) :: Dir.pairs d) ∨
        free = 0 ∧ r = .error .notSupported ∧ d' = d) := by
  rcases find_of_ne_zero ((hd.drop 0).entSize_ne_zero 0) (s := false)
      (p := hasRoom (requiredSize name)) with hex | ⟨b, i, e, hf⟩
  · cases free with
    | zero => exact ⟨d, _, addDirEntry_exhausted_zero hex, hd, hnm, by omega,
        .inr ⟨rfl, rfl, rfl⟩⟩
    | succ free =>
      have hd' : Dir.Ok bs (d ++ [[DirEntry.empty bs]]) :=
        hd.append (chain_empty hbs.four_dvd (by have := hbs.le; omega) hbs.lt)
      have hnm' : Dir.Named (d ++ [[DirEntry.empty bs]]) :=
        hnm.append fun e he => by rw [List.mem_singleton.1 he]; exact named_empty bs
      obtain ⟨d', h, hok, hnm'', hperm, hlen⟩ :=
        addDirEntry_found hd' hnm' ht h1 hn (find_appended hbs hn)
      refine ⟨d', .ok (), by rw [addDirEntry_exhausted_succ hex, h], hok, hnm'', by simp [hlen],
        .inl ⟨rfl, ?_⟩⟩
      rwa [Dir.pairs_append_empty] at hperm
  · obtain ⟨d', h, hok, hnm', hperm, hlen⟩ := addDirEntry_found hd hnm ht h1 hn hf
    exact ⟨d', .ok (), h, hok, hnm', by omega, .inl ⟨rfl, hperm⟩⟩

/-- `remove_dir_entry` clears the record its search finds, and the directory loses the binding of
that record where it is live. -/
theorem removeDirEntry_of_found (hlt : bs < 2 ^ 16) (hd : Dir.Ok bs d) (hnm : Dir.Named d)
    (hf : find s (fun e => e.name == name) (records d 0) = some (.found b i e)) :
    ∃ d', removeDirEntry s d name = some (d', .ok ()) ∧ Dir.Ok bs d' ∧ Dir.Named d' ∧
      (e.inode = 0 ∧ Dir.pairs d' = Dir.pairs d ∨
        ∃ l₁ l₂, Dir.pairs d = l₁ ++ (name, e.inode) :: l₂ ∧ Dir.pairs d' = l₁ ++ l₂) := by
  obtain ⟨hmem, hp, -⟩ := find_found hf
  obtain ⟨-, blk, hblk, hi⟩ := mem_records hmem
  rw [Nat.sub_zero] at hblk
  have hname : e.name = name := by simpa using hp
  obtain ⟨hc', hpairs⟩ := ((hd.mem hblk).modify_clear hi).coalesceBlock hlt
  have hnm' : Dir.Named (d.modify b fun blk => coalesceBlock (blk.modify i DirEntry.clear)) :=
    hnm.modify hblk (named_coalesceBlock (forall_mem_modify (hnm blk (List.mem_of_getElem? hblk))
      hi (named_clear e)))
  refine ⟨d.modify b (fun blk => coalesceBlock (blk.modify i DirEntry.clear)),
    by rw [removeDirEntry, hf], hd.modify (f := fun blk => coalesceBlock (blk.modify i DirEntry.clear))
      hblk hc', hnm', ?_⟩
  have hd' : Dir.pairs (d.modify b (fun blk => coalesceBlock (blk.modify i DirEntry.clear))) =
      Dir.pairs (d.take b) ++ pairsOf (blk.take i) ++ pairsOf (blk.drop (i + 1)) ++
        Dir.pairs (d.drop (b + 1)) := by
    rw [Dir.pairs_modify hblk, hpairs, modify_of_getElem? hi, pairsOf_append, pairsOf_cons,
      pairsOf_clear]
    simp
  rw [hd', Dir.pairs_eq_of_getElem? hblk, pairsOf_eq_of_getElem? hi]
  by_cases hlive : e.inode = 0
  · left
    simp [pairsOf_single_of_empty hlive, hlive]
  · right
    refine ⟨Dir.pairs (d.take b) ++ pairsOf (blk.take i),
      pairsOf (blk.drop (i + 1)) ++ Dir.pairs (d.drop (b + 1)), ?_, by simp⟩
    rw [pairsOf_single_of_live hlive]
    simp [pair, hname]

/-- `remove_dir_entry`, on an iterator that skips empty records or on one that does not, drops the
one binding of a name in a directory of named records, while block sizes fit 16 bits. -/
theorem removeDirEntry_spec (s : Bool) (hlt : bs < 2 ^ 16) (hd : Dir.Ok bs d) (hnm : Dir.Named d)
    (hn : Dir.present d name) :
    ∃ d' v l₁ l₂, removeDirEntry s d name = some (d', .ok ()) ∧ Dir.Ok bs d' ∧ Dir.Named d' ∧
      Dir.pairs d = l₁ ++ (name, v) :: l₂ ∧ Dir.pairs d' = l₁ ++ l₂ := by
  rcases find_of_ne_zero (hd.entSize_ne_zero 0) (s := s) (p := fun e => e.name == name) with
    hex | ⟨b, i, e, hf⟩
  · exfalso
    obtain ⟨⟨n', v⟩, hmem, rfl⟩ := List.mem_map.1 hn
    obtain ⟨e, he, hpe⟩ := List.mem_map.1 hmem
    obtain ⟨hef, hlive⟩ := List.mem_filter.1 he
    rw [← map_snd_records d 0] at hef
    obtain ⟨x, hx, rfl⟩ := List.mem_map.1 hef
    rcases find_exhausted hex x hx with hv | ⟨-, hp⟩
    · rw [visit_of_ne_zero (hd.entSize_ne_zero 0 x hx)] at hv
      simp_all [live]
    · simp_all [pair]
  · -- the record found carries the name, which the directory lists: it is not empty, so the
    -- record is live, whether or not the search skipped empty records
    obtain ⟨hmem, hp, -⟩ := find_found hf
    obtain ⟨-, blk, hblk, hi⟩ := mem_records hmem
    have hname : e.name = name := by simpa using hp
    have hnamed := hnm blk (List.mem_of_getElem? hblk) e (List.mem_of_getElem? hi)
    have hlive : e.inode ≠ 0 := fun h0 => hnm.ne_nil_of_present hn (hname ▸ hnamed.2 h0)
    obtain ⟨d', h, hok, hnm', ⟨h0, -⟩ | ⟨l₁, l₂, h₁, h₂⟩⟩ := removeDirEntry_of_found hlt hd hnm hf
    · exact absurd h0 hlive
    · exact ⟨d', e.inode, l₁, l₂, h, hok, hnm', h₁, h₂⟩

end DirEntIter

/-! ## The directory as a name map -/

namespace Dir

/-- An operation on a directory: add an inode of a type under a name, with `free` blocks left for
the allocator, or remove a name through an iterator that skips empty records or not. -/
inductive Op
  | add (target : BitVec 32) (typ : FileType) (name : List UInt8) (free : ℕ)
  | remove (skipEmpty : Bool) (name : List UInt8)

/-- One operation as the callers of the two functions make it: `add_dir_entry` on an iterator from
`DirEntIter::new_no_skip`, `remove_dir_entry` on one from `DirEntIter::new` (`unlink`, `rmdir`:
`skipEmpty`) or from `DirEntIter::new_no_skip` (`rename`). -/
def step (bs : ℕ) (d : List (List DirEntry)) : Op → Option (List (List DirEntry))
  | .add target typ name free =>
    (DirEntIter.addDirEntry bs false target typ name free d 0).map Prod.fst
  | .remove skipEmpty name => (DirEntIter.removeDirEntry skipEmpty d name).map Prod.fst

/-- The operations made on a directory: an inode (ids start at 1) added under a name of 1 to 255
bytes that is not there, a name removed that is there. -/
def OpOk (d : List (List DirEntry)) : Op → Prop
  | .add target _ name _ => target ≠ 0 ∧ 1 ≤ name.length ∧ name.length ≤ 255 ∧ ¬present d name
  | .remove _ name => present d name

instance (d : List (List DirEntry)) (o : Op) : Decidable (OpOk d o) :=
  match o with
  | .add .. => inferInstanceAs (Decidable (_ ∧ _ ∧ _ ∧ _))
  | .remove _ _ => inferInstanceAs (Decidable (present _ _))

/-- The abstract directory, a map from names to inodes: an add binds its name, or leaves the map
as it was when the allocator has no block left; a remove erases its name. -/
inductive MapStep :
    (List UInt8 → Option (BitVec 32)) → Op → (List UInt8 → Option (BitVec 32)) → Prop
  | add (σ : List UInt8 → Option (BitVec 32)) (target : BitVec 32) (typ : FileType)
      (name : List UInt8) (free : ℕ) :
      MapStep σ (.add target typ name free) (Function.update σ name (some target))
  | full (σ : List UInt8 → Option (BitVec 32)) (target : BitVec 32) (typ : FileType)
      (name : List UInt8) : MapStep σ (.add target typ name 0) σ
  | remove (σ : List UInt8 → Option (BitVec 32)) (skipEmpty : Bool) (name : List UInt8) :
      MapStep σ (.remove skipEmpty name) (Function.update σ name none)

/-- Blocks are chains of named records, and no name is listed twice. -/
structure Inv (bs : ℕ) (d : List (List DirEntry)) : Prop where
  ok : Ok bs d
  named : Named d
  nodup : ((pairs d).map Prod.fst).Nodup

variable {bs : ℕ} {d : List (List DirEntry)} {o : Op}

theorem represents_nameMap (h : ((pairs d).map Prod.fst).Nodup) :
    Represents (pairs d) (nameMap d) :=
  represents_lookup h

/-- Each operation returns a directory of the invariant and changes the name map as the abstract
step does. -/
theorem step_spec (hbs : BlockSizeOk bs) (hinv : Inv bs d) (ho : OpOk d o) :
    ∃ d', step bs d o = some d' ∧ Inv bs d' ∧ MapStep (nameMap d) o (nameMap d') := by
  obtain ⟨hd, hnm, hnodup⟩ := hinv
  have hrep := represents_nameMap hnodup
  cases o with
  | add target typ name free =>
    obtain ⟨ht, h1, hn, habs⟩ := ho
    obtain ⟨d', r, h, hok, hnm', -, ⟨rfl, hperm⟩ | ⟨rfl, rfl, rfl⟩⟩ :=
      DirEntIter.addDirEntry_spec typ free hbs hd hnm ht h1 hn
    · have hrep' := (hrep.cons (v := target) (hrep.eq_none_iff.2 habs)).perm hperm.symm
      refine ⟨d', by simp [step, h], ⟨hok, hnm', hrep'.nodup⟩, ?_⟩
      rw [← hrep'.unique (represents_nameMap hrep'.nodup)]
      exact .add _ _ _ _ _
    · exact ⟨_, by simp [step, h], ⟨hok, hnm, hnodup⟩, .full _ _ _ _⟩
  | remove skipEmpty name =>
    obtain ⟨d', v, l₁, l₂, h, hok, hnm', hd₁, hd₂⟩ :=
      DirEntIter.removeDirEntry_spec skipEmpty hbs.lt hd hnm ho
    rw [hd₁] at hrep
    have hrep' := hrep.erase_middle
    rw [← hd₂] at hrep'
    refine ⟨d', by simp [step, h], ⟨hok, hnm', hrep'.nodup⟩, ?_⟩
    rw [← hrep'.unique (represents_nameMap hrep'.nodup)]
    exact .remove _ _ _

theorem step_simulates (hbs : BlockSizeOk bs) :
    Simulates (step bs) OpOk MapStep (Inv bs) nameMap where
  inv_step d o d' hinv ho h := by
    obtain ⟨d'', h', hinv', -⟩ := step_spec hbs hinv ho
    rwa [h, Option.some_inj.1 h'] at *
  abs_step d o d' hinv ho h := by
    obtain ⟨d'', h', -, hmap⟩ := step_spec hbs hinv ho
    rwa [Option.some_inj.1 (h.symm.trans h')]

end Dir

end Cykusz.Fs.Ext2
