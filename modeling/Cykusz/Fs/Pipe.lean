import Mathlib
import Cykusz.Kernel.Buffer

/-!
# Pipes and the handles open on them

A `Pipe` (an anonymous pipe, or the pipe behind a named FIFO) is a buffer queue and two
`AtomicUsize` counts of its open ends. `open` counts a read-only or write-only opening and raises
the buffer queue's flag for that end; `close` counts it down and lowers the flag when the count
reaches zero. The readers and writers of the pipe then see the flags: a read of an empty pipe
returns `0` only when no writer is flagged (`readAt_empty_iff`), and a write fails with
`Pipe` (and `SIGPIPE`) only when no reader is flagged (`writeAt_eq_pipe_iff`).

`Endpoints` is a pipe with the flags of each live `FileHandle` on it. `FileTable::open_file`
makes a handle and opens the pipe through it; when the open fails the handle is dropped, and
`FileHandle::drop` closes the pipe with the same flags. The counts and flags track the live
handles (`Tracks`) through every open that succeeds, every failed `O_RDWR` open and every
release (`endpoints_simulate`, `pipe_tracks_handles`). A non-blocking write-only open with no
reader fails before counting anything, and its drop still counts a writer down: from a new pipe
the count wraps to `2 ^ 64 - 1`, and after a writer comes and goes the writers flag stays raised
with no writer left, so a read of the empty pipe sleeps instead of returning `0`
(`failed_open_underflows_writers`).

The map of named pipes (`pipes()`), from which `close` removes a pipe with no reader and no
writer, is not modelled: under `Tracks` the pipe is removed only when no read-only or write-only
handle is live, and the next opening then finds a new pipe with the same counts and flags.
-/

namespace Cykusz.Fs

open Cykusz.Syscall Cykusz.Kernel OpenFlags

/-- `Pipe`: a buffer queue of `4096 * 4` bytes, and the counts of read and write ends open. -/
structure Pipe where
  buf : BufferQueue (4096 * 4)
  readers : BitVec 64
  writers : BitVec 64

namespace Pipe

/-- `NodeMapItem::new` for `Pipe`: no end open, and neither end flagged. -/
def new : Pipe := ⟨BufferQueue.new (4096 * 4) (by decide) false false, 0, 0⟩

/-- `Pipe::inc_readers`: the count after a wrapping `fetch_add`. -/
def incReaders (p : Pipe) : Pipe × BitVec 64 :=
  ({ p with readers := p.readers + 1 }, p.readers + 1)

/-- `Pipe::inc_writers`. -/
def incWriters (p : Pipe) : Pipe × BitVec 64 :=
  ({ p with writers := p.writers + 1 }, p.writers + 1)

/-- `Pipe::dec_readers`: `fetch_sub(1)` wraps, and so does the `- 1` on the old count (a build
with overflow checks panics there instead when the count was `0`). -/
def decReaders (p : Pipe) : Pipe × BitVec 64 :=
  ({ p with readers := p.readers - 1 }, p.readers - 1)

/-- `Pipe::dec_writers`. -/
def decWriters (p : Pipe) : Pipe × BitVec 64 :=
  ({ p with writers := p.writers - 1 }, p.writers - 1)

/-- `Pipe::has_readers`. -/
def hasReaders (p : Pipe) : Bool := decide (0 < p.readers)

/-- `Pipe::has_writers`. -/
def hasWriters (p : Pipe) : Bool := decide (0 < p.writers)

/-- `Pipe::open`. Its effects stay when it fails: the state is returned with the result. -/
def «open» (p : Pipe) (flags : OpenFlags) : Pipe × Except FsError Unit :=
  if flags.isOpenMode RDWR then (p, .error .invalidParam)
  else
    let p :=
      if flags.isOpenMode RDONLY then
        let p := p.incReaders.1
        { p with buf := p.buf.setHasReaders true }
      else p
    if flags.isOpenMode WRONLY then
      if flags.contains NONBLOCK && !p.hasReaders then (p, .error .noSuchDevice)
      else
        let p := p.incWriters.1
        ({ p with buf := p.buf.setHasWriters true }, .ok ())
    else (p, .ok ())

/-- `Pipe::close`. -/
def close (p : Pipe) (flags : OpenFlags) : Pipe :=
  let p :=
    if flags.isOpenMode RDONLY then
      let (p, r) := p.decReaders
      if r = 0 then { p with buf := p.buf.setHasReaders false } else p
    else p
  if flags.isOpenMode WRONLY then
    let (p, w) := p.decWriters
    if w = 0 then { p with buf := p.buf.setHasWriters false } else p
  else p

/-- `Pipe::read_at` into a buffer of `len` bytes, not waiting when the handle is `NONBLOCK`. -/
def readAt (p : Pipe) (len : ℕ) (flags : OpenFlags) : Option (Except FsError (Pipe × List UInt8)) :=
  (p.buf.readDataFlags len (flags.contains NONBLOCK)).map
    (Except.map fun r => ({ p with buf := r.1 }, r.2))

/-- `Pipe::write_at`; an error `Pipe` also sends `SIGPIPE` to the writer. -/
def writeAt (p : Pipe) (data : List UInt8) (flags : OpenFlags) : Option (Except FsError (Pipe × ℕ)) :=
  (p.buf.appendDataFlags data (flags.contains NONBLOCK)).map
    (Except.map fun r => ({ p with buf := r.1 }, r.2))

/-! ### One opening or closing, by access mode -/

section Modes

variable {f : OpenFlags}

theorem not_wronly_of_rdonly (h : f.isOpenMode RDONLY = true) : f.isOpenMode WRONLY = false :=
  isOpenMode_eq_false h (by decide)

theorem not_rdwr_of_rdonly (h : f.isOpenMode RDONLY = true) : f.isOpenMode RDWR = false :=
  isOpenMode_eq_false h (by decide)

theorem not_rdwr_of_wronly (h : f.isOpenMode WRONLY = true) : f.isOpenMode RDWR = false :=
  isOpenMode_eq_false h (by decide)

theorem not_rdonly_of_wronly (h : f.isOpenMode WRONLY = true) : f.isOpenMode RDONLY = false :=
  isOpenMode_eq_false h (by decide)

theorem not_rdonly_of_rdwr (h : f.isOpenMode RDWR = true) : f.isOpenMode RDONLY = false :=
  isOpenMode_eq_false h (by decide)

theorem not_wronly_of_rdwr (h : f.isOpenMode RDWR = true) : f.isOpenMode WRONLY = false :=
  isOpenMode_eq_false h (by decide)

end Modes

variable {p : Pipe} {f : OpenFlags}

theorem open_of_rdwr (h : f.isOpenMode RDWR = true) : p.open f = (p, .error .invalidParam) := by
  simp [Pipe.open, h]

theorem open_of_rdonly (h : f.isOpenMode RDONLY = true) :
    p.open f = ({ p with readers := p.readers + 1, buf := p.buf.setHasReaders true }, .ok ()) := by
  simp [Pipe.open, h, not_rdwr_of_rdonly h, not_wronly_of_rdonly h, incReaders]

theorem open_of_wronly (h : f.isOpenMode WRONLY = true)
    (hr : f.contains NONBLOCK = true → p.hasReaders = true) :
    p.open f = ({ p with writers := p.writers + 1, buf := p.buf.setHasWriters true }, .ok ()) := by
  have hnr := not_rdonly_of_wronly h
  cases hnb : f.contains NONBLOCK
  · simp [Pipe.open, h, hnr, not_rdwr_of_wronly h, hnb, incWriters]
  · simp [Pipe.open, h, hnr, not_rdwr_of_wronly h, hnb, hr hnb, incWriters]

/-- A non-blocking write-only opening with no reader fails, and changes nothing. -/
theorem open_of_wronly_nonblock (h : f.isOpenMode WRONLY = true) (hnb : f.contains NONBLOCK = true)
    (hr : p.hasReaders = false) : p.open f = (p, .error .noSuchDevice) := by
  have hnr := not_rdonly_of_wronly h
  simp [Pipe.open, h, hnr, not_rdwr_of_wronly h, hnb, hr]

theorem open_of_other (hr : f.isOpenMode RDONLY = false) (hw : f.isOpenMode WRONLY = false)
    (hrw : f.isOpenMode RDWR = false) : p.open f = (p, .ok ()) := by
  simp [Pipe.open, hr, hw, hrw]

theorem close_of_rdonly (h : f.isOpenMode RDONLY = true) :
    p.close f =
      { p with
        readers := p.readers - 1
        buf := if p.readers - 1 = 0 then p.buf.setHasReaders false else p.buf } := by
  have hw := not_wronly_of_rdonly h
  by_cases h0 : p.readers - 1 = 0 <;> simp_all [close, decReaders]

theorem close_of_wronly (h : f.isOpenMode WRONLY = true) :
    p.close f =
      { p with
        writers := p.writers - 1
        buf := if p.writers - 1 = 0 then p.buf.setHasWriters false else p.buf } := by
  have hnr := not_rdonly_of_wronly h
  by_cases h0 : p.writers - 1 = 0 <;> simp_all [close, decWriters]

theorem close_of_other (hr : f.isOpenMode RDONLY = false) (hw : f.isOpenMode WRONLY = false) :
    p.close f = p := by
  simp [close, hr, hw]

end Pipe

/-! ## The handles open on a pipe -/

/-- A pipe and the flags of each live `FileHandle` on it. -/
structure Endpoints where
  pipe : Pipe
  live : List OpenFlags

namespace Endpoints

/-- `FileTable::open_file` on the pipe: the new handle opens the pipe and joins the live handles;
when the open fails the handle is dropped, and `FileHandle::drop` closes the pipe with the same
flags. (With no free slot the table returns `Busy` before any handle is made, leaving the pipe
as it is.) -/
def openFile (s : Endpoints) (flags : OpenFlags) : Endpoints × Except FsError Unit :=
  match s.pipe.open flags with
  | (p, .ok ()) => (⟨p, flags :: s.live⟩, .ok ())
  | (p, .error e) => (⟨p.close flags, s.live⟩, .error e)

/-- The last reference to the `i`-th live handle goes (its last `close_file` or `dup`, an
`exec` that closes it, an exit): `FileHandle::drop` closes the pipe with its flags. -/
def release (s : Endpoints) (i : ℕ) : Endpoints :=
  match s.live[i]? with
  | some flags => ⟨s.pipe.close flags, s.live.eraseIdx i⟩
  | none => s

/-- The live handles opened read-only. -/
def readersOf (live : List OpenFlags) : ℕ := live.countP (·.isOpenMode RDONLY)

/-- The live handles opened write-only. -/
def writersOf (live : List OpenFlags) : ℕ := live.countP (·.isOpenMode WRONLY)

/-- A count of open ends and its flag, for `k` live handles. -/
structure Counts (c : BitVec 64) (flag : Bool) (k : ℕ) : Prop where
  count : c.toNat = k
  flag : flag = decide (0 < k)

/-- The pipe's counts and flags track the live handles, and the buffer queue is not shut down
(a pipe never shuts it down). -/
structure Tracks (s : Endpoints) : Prop where
  readers : Counts s.pipe.readers s.pipe.buf.hasReaders (readersOf s.live)
  writers : Counts s.pipe.writers s.pipe.buf.hasWriters (writersOf s.live)
  shuttingDown : s.pipe.buf.shuttingDown = false

section Counts

variable {c : BitVec 64} {flag : Bool} {k : ℕ}

/-- Counting an end up raises the flag. -/
theorem Counts.inc (h : Counts c flag k) (hk : k + 1 < 2 ^ 64) : Counts (c + 1) true (k + 1) := by
  constructor
  · rw [BitVec.toNat_add_of_lt (by simp [h.count]; omega), h.count]
    rfl
  · simp

/-- Counting an end down lowers the flag when the count reaches zero. -/
theorem Counts.dec (h : Counts c flag (k + 1)) :
    Counts (c - 1) (if c - 1 = 0 then false else flag) k := by
  have hle : 1 ≤ c := by
    rw [BitVec.le_def, h.count]
    simp
  have hc : (c - 1).toNat = k := by
    rw [BitVec.toNat_sub_of_le hle, h.count]
    simp
  refine ⟨hc, ?_⟩
  split_ifs with h0
  · rw [h0] at hc
    simp [← hc]
  · have hk : k ≠ 0 := fun hk => h0 (BitVec.eq_of_toNat_eq (by rw [hc, hk]; rfl))
    rw [h.flag]
    simp only [decide_eq_decide]
    omega

end Counts

@[simp] theorem readersOf_cons (f : OpenFlags) (live : List OpenFlags) :
    readersOf (f :: live) = readersOf live + if f.isOpenMode RDONLY then 1 else 0 := by
  simp [readersOf, List.countP_cons]

@[simp] theorem writersOf_cons (f : OpenFlags) (live : List OpenFlags) :
    writersOf (f :: live) = writersOf live + if f.isOpenMode WRONLY then 1 else 0 := by
  simp [writersOf, List.countP_cons]

/-- Dropping the `i`-th handle takes it out of the counts. -/
theorem countP_eraseIdx {P : OpenFlags → Bool} {live : List OpenFlags} {i : ℕ} {f : OpenFlags}
    (h : live[i]? = some f) :
    live.countP P = (live.eraseIdx i).countP P + if P f then 1 else 0 := by
  obtain ⟨hi, rfl⟩ := List.getElem?_eq_some_iff.1 h
  rw [← (List.getElem_cons_eraseIdx_perm hi).countP_eq, List.countP_cons]

theorem tracks_new : Tracks ⟨Pipe.new, []⟩ :=
  ⟨⟨rfl, rfl⟩, ⟨rfl, rfl⟩, rfl⟩

variable {s : Endpoints} {f : OpenFlags} {p : Pipe}

theorem openFile_of_ok (h : s.pipe.open f = (p, .ok ())) : s.openFile f = (⟨p, f :: s.live⟩, .ok ()) := by
  rw [openFile, h]

theorem openFile_of_error {e : FsError} (h : s.pipe.open f = (p, .error e)) :
    s.openFile f = (⟨p.close f, s.live⟩, .error e) := by
  rw [openFile, h]

theorem release_of_getElem? {i : ℕ} (h : s.live[i]? = some f) :
    s.release i = ⟨s.pipe.close f, s.live.eraseIdx i⟩ := by
  rw [release, h]

theorem hasReaders_of_tracks (hs : Tracks s) : s.pipe.hasReaders = decide (0 < readersOf s.live) := by
  simp [Pipe.hasReaders, BitVec.lt_def, hs.readers.count]

theorem readersOf_lt (hlen : s.live.length + 1 < 2 ^ 64) : readersOf s.live + 1 < 2 ^ 64 :=
  lt_of_le_of_lt (Nat.add_le_add_right List.countP_le_length 1) hlen

theorem writersOf_lt (hlen : s.live.length + 1 < 2 ^ 64) : writersOf s.live + 1 < 2 ^ 64 :=
  lt_of_le_of_lt (Nat.add_le_add_right List.countP_le_length 1) hlen

/-- Whether an opening succeeds, by the live handles alone: an opening for reading and writing is
refused, and so is a non-blocking opening for writing while no reader is open. -/
def opens (live : List OpenFlags) (f : OpenFlags) : Bool :=
  !f.isOpenMode RDWR && !(f.isOpenMode WRONLY && f.contains NONBLOCK && readersOf live == 0)

/-- An opening that succeeds, or fails as `O_RDWR` does, keeps the counts tracking the handles,
and adds a handle exactly when `opens` says it succeeds. -/
theorem openFile_spec (hs : Tracks s) (hlen : s.live.length + 1 < 2 ^ 64)
    (hnb : f.isOpenMode WRONLY = true → f.contains NONBLOCK = true → 0 < readersOf s.live) :
    Tracks (s.openFile f).1 ∧
      (s.openFile f).1.live = if opens s.live f then f :: s.live else s.live := by
  by_cases hrw : f.isOpenMode RDWR = true
  · -- refused before counting anything, and closing it counts nothing down
    rw [openFile_of_error (Pipe.open_of_rdwr hrw),
      Pipe.close_of_other (Pipe.not_rdonly_of_rdwr hrw) (Pipe.not_wronly_of_rdwr hrw)]
    exact ⟨hs, by simp [opens, hrw]⟩
  by_cases hr : f.isOpenMode RDONLY = true
  · -- a reader: its count goes up and its flag is raised
    have hnw := Pipe.not_wronly_of_rdonly hr
    rw [openFile_of_ok (Pipe.open_of_rdonly hr)]
    refine ⟨⟨?_, ?_, hs.shuttingDown⟩, by simp [opens, hrw, hnw]⟩
    · simpa [hr, BufferQueue.setHasReaders] using hs.readers.inc (readersOf_lt hlen)
    · simpa [hnw, BufferQueue.setHasReaders] using hs.writers
  by_cases hw : f.isOpenMode WRONLY = true
  · -- a writer, let through because a reader is open or because it may wait
    have hok : f.contains NONBLOCK = true → s.pipe.hasReaders = true := fun h => by
      simp [hasReaders_of_tracks hs, hnb hw h]
    have hopens : opens s.live f = true := by
      cases h : f.contains NONBLOCK
      · simp [opens, hrw, h]
      · simp [opens, hrw, h, Nat.pos_iff_ne_zero.1 (hnb hw h)]
    rw [openFile_of_ok (Pipe.open_of_wronly hw hok)]
    refine ⟨⟨?_, ?_, hs.shuttingDown⟩, by simp [hopens]⟩
    · simpa [hr, BufferQueue.setHasWriters] using hs.readers
    · simpa [hw, BufferQueue.setHasWriters] using hs.writers.inc (writersOf_lt hlen)
  · -- any other access mode counts nothing
    simp only [Bool.not_eq_true] at hr hw hrw
    rw [openFile_of_ok (Pipe.open_of_other hr hw hrw)]
    refine ⟨⟨?_, ?_, hs.shuttingDown⟩, by simp [opens, hrw, hw]⟩
    · simpa [hr] using hs.readers
    · simpa [hw] using hs.writers

/-- Releasing a live handle keeps the counts tracking the handles. -/
theorem release_tracks (hs : Tracks s) (i : ℕ) : Tracks (s.release i) := by
  cases hi : s.live[i]? with
  | none => rw [release, hi]; exact hs
  | some f =>
    have hR := countP_eraseIdx (P := (·.isOpenMode RDONLY)) hi
    have hW := countP_eraseIdx (P := (·.isOpenMode WRONLY)) hi
    rw [release_of_getElem? hi]
    by_cases hr : f.isOpenMode RDONLY = true
    · -- the last of the readers lowers the readers flag
      have hnw := Pipe.not_wronly_of_rdonly hr
      have hc : Counts s.pipe.readers s.pipe.buf.hasReaders (readersOf (s.live.eraseIdx i) + 1) := by
        simpa [readersOf, hR, hr] using hs.readers
      rw [Pipe.close_of_rdonly hr]
      refine ⟨?_, ?_, ?_⟩
      · have := hc.dec
        split_ifs at this ⊢ <;> simpa [BufferQueue.setHasReaders] using this
      · have hwc : writersOf (s.live.eraseIdx i) = writersOf s.live := by simp [writersOf, hW, hnw]
        split_ifs <;> simpa [hwc, BufferQueue.setHasReaders] using hs.writers
      · split_ifs <;> simpa [BufferQueue.setHasReaders] using hs.shuttingDown
    by_cases hw : f.isOpenMode WRONLY = true
    · -- the last of the writers lowers the writers flag
      have hc : Counts s.pipe.writers s.pipe.buf.hasWriters (writersOf (s.live.eraseIdx i) + 1) := by
        simpa [writersOf, hW, hw] using hs.writers
      rw [Pipe.close_of_wronly hw]
      refine ⟨?_, ?_, ?_⟩
      · have hrc : readersOf (s.live.eraseIdx i) = readersOf s.live := by simp [readersOf, hR, hr]
        split_ifs <;> simpa [hrc, BufferQueue.setHasWriters] using hs.readers
      · have := hc.dec
        split_ifs at this ⊢ <;> simpa [BufferQueue.setHasWriters] using this
      · split_ifs <;> simpa [BufferQueue.setHasWriters] using hs.shuttingDown
    · simp only [Bool.not_eq_true] at hr hw
      rw [Pipe.close_of_other hr hw]
      have hrc : readersOf (s.live.eraseIdx i) = readersOf s.live := by simp [readersOf, hR, hr]
      have hwc : writersOf (s.live.eraseIdx i) = writersOf s.live := by simp [writersOf, hW, hw]
      exact ⟨hrc ▸ hs.readers, hwc ▸ hs.writers, hs.shuttingDown⟩

/-! ## The counts follow the handles -/

/-- The operations on the handles of a pipe. -/
inductive PipeOp
  | openFile (flags : OpenFlags)
  | release (i : ℕ)

/-- What the counts are for: the handles of a pipe, to which an opening that succeeds adds one
and from which a release removes one. -/
inductive HandleStep : List OpenFlags → PipeOp → List OpenFlags → Prop
  | openFile (live : List OpenFlags) (f : OpenFlags) :
      HandleStep live (.openFile f) (if opens live f then f :: live else live)
  | release (live : List OpenFlags) (i : ℕ) : HandleStep live (.release i) (live.eraseIdx i)

/-- One operation on the handles of the pipe. -/
def step (s : Endpoints) : PipeOp → Option Endpoints
  | .openFile f => some (s.openFile f).1
  | .release i => some (s.release i)

/-- The operations the counts follow: every release, and every opening short of `2 ^ 64 - 1`
handles except a non-blocking write-only one while no reader is open. -/
def OpOk (s : Endpoints) : PipeOp → Prop
  | .openFile f => s.live.length + 1 < 2 ^ 64 ∧
      (f.isOpenMode WRONLY = true → f.contains NONBLOCK = true → 0 < readersOf s.live)
  | .release _ => True

theorem step_simulates : Simulation.Simulates step OpOk HandleStep Tracks live where
  inv_step s op s' hs hok h := by
    cases op with
    | openFile f =>
      obtain rfl := Option.some_injective _ h
      exact (openFile_spec hs hok.1 hok.2).1
    | release i =>
      obtain rfl := Option.some_injective _ h
      exact release_tracks hs i
  abs_step s op s' hs hok h := by
    cases op with
    | openFile f =>
      obtain rfl := Option.some_injective _ h
      rw [(openFile_spec hs hok.1 hok.2).2]
      exact .openFile _ _
    | release i =>
      obtain rfl := Option.some_injective _ h
      cases hi : s.live[i]? with
      | none =>
        -- past the end there is no handle to release, and nothing to erase
        have hstep := HandleStep.release s.live i
        rw [List.eraseIdx_of_length_le (by simpa using hi)] at hstep
        simpa [release, hi] using hstep
      | some f =>
        rw [release_of_getElem? hi]
        exact .release _ _

/-- Along every run of openings and releases that makes no non-blocking write-only opening while
no reader is open, the pipe's counts and flags track the live handles, and the handles follow
their abstract steps. -/
theorem pipe_tracks_handles {ops : List PipeOp} {s s' : Endpoints} (hs : Tracks s)
    (hok : Simulation.Guarded step OpOk s ops) (h : Simulation.run step s ops = some s') :
    Tracks s' ∧ Simulation.Runs HandleStep s.live ops s'.live :=
  step_simulates.run_runs ops s s' hs hok h

/-- A reader and a writer open a new pipe, and the writer is released. -/
theorem pipe_tracks_handles_readerWriter :
    Tracks ((((⟨Pipe.new, []⟩ : Endpoints).openFile RDONLY).1.openFile WRONLY).1.release 0) ∧
      Simulation.Runs HandleStep [] [.openFile RDONLY, .openFile WRONLY, .release 0]
        ((((⟨Pipe.new, []⟩ : Endpoints).openFile RDONLY).1.openFile WRONLY).1.release 0).live :=
  pipe_tracks_handles tracks_new
    ⟨⟨by decide, fun h => absurd h (by decide)⟩, fun _ h₁ => by
      obtain rfl := Option.some_injective _ h₁
      exact ⟨⟨by decide, fun _ h => absurd h (by decide)⟩, fun _ h₂ => by
        obtain rfl := Option.some_injective _ h₂
        exact ⟨trivial, fun _ _ => trivial⟩⟩⟩ rfl

/-! ## What readers and writers see -/

theorem map_except_map_eq_error {α β : Type} {g : α → β} {x : Option (Except FsError α)}
    {e : FsError} : x.map (Except.map g) = some (.error e) ↔ x = some (.error e) := by
  rcases x with _ | _ | _ <;> simp [Except.map]

/-- While the counts track the handles, a read of an empty pipe returns, reading nothing, exactly
when no write-only handle is live; otherwise it sleeps, or returns `WouldBlock` when it may not
wait. -/
theorem readAt_empty_iff (hs : Tracks s) (h : s.pipe.buf.buffer.contents = []) (len : ℕ)
    (flags : OpenFlags) :
    s.pipe.readAt len flags = some (.ok (s.pipe, [])) ↔ writersOf s.live = 0 := by
  have hflag := hs.writers.flag
  rw [Pipe.readAt, BufferQueue.readDataFlags_of_empty h hs.shuttingDown]
  cases hw : s.pipe.buf.hasWriters
  · -- no writer flagged: the read returns at once, and the pipe is as it was
    simp only [Bool.false_eq_true, if_false, Option.map_some, Except.map]
    simp only [hw, false_eq_decide_iff, not_lt, Nat.le_zero] at hflag
    simp [hflag]
  · -- a writer is flagged: the read waits for it
    simp only [hw, true_eq_decide_iff] at hflag
    cases flags.contains NONBLOCK <;> simp [waitLockFor, Except.map, Nat.pos_iff_ne_zero.1 hflag]

/-- While the counts track the handles, a write of some bytes fails with `Pipe`, and so sends
`SIGPIPE`, exactly when no read-only handle is live. -/
theorem writeAt_eq_pipe_iff (hs : Tracks s) {data : List UInt8} (hd : data ≠ [])
    (flags : OpenFlags) :
    s.pipe.writeAt data flags = some (.error .pipe) ↔ readersOf s.live = 0 := by
  rw [Pipe.writeAt, map_except_map_eq_error, BufferQueue.appendDataFlags_eq_pipe_iff hd,
    hs.readers.flag]
  simp

/-! ## A failed opening counts a writer down -/

/-- From a new pipe, a non-blocking write-only opening fails with `NoSuchDevice` (`ENXIO`), and the
handle it drops counts a writer down that was never counted: the writers count wraps to
`2 ^ 64 - 1` with no writer handle live. After a reader opens, a writer opens (the count wraps
back to `0`) and the writer is released, the count wraps again, so the writers flag is never
lowered: with only the reader live, a read of the empty pipe sleeps instead of returning `0`. -/
theorem failed_open_underflows_writers :
    ((⟨Pipe.new, []⟩ : Endpoints).openFile (WRONLY ||| NONBLOCK)).2 = .error .noSuchDevice ∧
      ((⟨Pipe.new, []⟩ : Endpoints).openFile (WRONLY ||| NONBLOCK)).1.live = [] ∧
      ((⟨Pipe.new, []⟩ : Endpoints).openFile (WRONLY ||| NONBLOCK)).1.pipe.writers =
        BitVec.allOnes 64 ∧
      ((((⟨Pipe.new, []⟩ : Endpoints).openFile (WRONLY ||| NONBLOCK)).1.openFile RDONLY).1.openFile
        WRONLY).1.release 0 =
        ⟨⟨⟨Buffer.new (4096 * 4) (by decide), false, true, true⟩, 1, BitVec.allOnes 64⟩, [RDONLY]⟩ ∧
      Pipe.readAt ⟨⟨Buffer.new (4096 * 4) (by decide), false, true, true⟩, 1, BitVec.allOnes 64⟩ 1
        RDONLY = none := by
  refine ⟨rfl, rfl, by decide, rfl, rfl⟩

end Endpoints

end Cykusz.Fs
