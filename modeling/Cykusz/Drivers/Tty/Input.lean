import Mathlib
import Cykusz.Lib.Circular
import Cykusz.Lib.Simulation

/-!
# The terminal's input buffer

`InputBuffer` (`drivers/tty/input.rs`) keeps the bytes typed at the terminal in a ring of
`BUFFER_SIZE = 256` bytes with three indices: the bytes from `r` to `w` are committed, ready for
`read`, and those from `w` to `e` are the line being edited, which backspace (`remove_last_n`) and
`Ctrl-U` (`remove_all_edit`) shorten and which `commit_write` commits, on a newline in canonical
mode or on every key otherwise (`Tty::write_to_buffer`, `Tty::handle_canonical`).

What it is for is a `Line`: a queue of committed bytes, the line being edited after it, and the
end-of-file flag. `put_char` appends to the line while the two together hold fewer than 255 bytes,
`remove_last_n(n)` takes `min(n, |L|)` bytes off its end, `read(n)` takes the first
`min(n, |C|)` committed bytes, and so on (`Line.exec`). Over every run from `new`, the buffer
answers every operation as the `Line` does, and its committed bytes and edited line are the
`Line`'s (`input_refines_line`): the indices wrap at 256 in every operation, and `w` stays between
`r` and `e` going around the ring (`Wf`), so the edit operations never reach a committed byte.

Conventions of the model: the indices, `u32` in the source, are `Fin BUFFER_SIZE`, since every
assignment keeps them below 256; `read` gives back the bytes it stores through `buf` and its
count.
-/

namespace Cykusz.Drivers.Tty

open Circular Simulation

/-- `BUFFER_SIZE`. -/
def BUFFER_SIZE : ℕ := 256

instance : NeZero BUFFER_SIZE := ⟨by decide⟩

/-- `InputBuffer`: the ring, the end of the edited line `e`, the end of the committed bytes `w`,
the next byte to read `r`, and whether end of file was signalled. -/
structure InputBuffer where
  data : Vector UInt8 BUFFER_SIZE
  e : Fin BUFFER_SIZE
  w : Fin BUFFER_SIZE
  r : Fin BUFFER_SIZE
  eof : Bool

/-- The operations of `InputBuffer`. -/
inductive InputOp
  | putChar (data : UInt8)
  | removeAllEdit
  | removeLastN (n : ℕ)
  | read (n : ℕ)
  | flush
  | commitWrite
  | triggerEof
  | hasData
deriving DecidableEq, Repr

/-- The operations that edit the line: typing a byte, backspace and `Ctrl-U`. -/
def InputOp.IsEdit : InputOp → Prop
  | .putChar _ | .removeAllEdit | .removeLastN _ => True
  | _ => False

/-- What an operation returns: nothing, a count, the bytes `read` stored with its count, or
`has_data`'s answer. -/
inductive Reply
  | none
  | count (n : ℕ)
  | read (bytes : List UInt8) (n : ℕ)
  | hasData (b : Bool)
deriving DecidableEq, Repr

/-- The line discipline an `InputBuffer` is for: the committed bytes, ready for `read`, the line
being edited after them, and end of file. -/
structure Line where
  committed : List UInt8
  edit : List UInt8
  eof : Bool
deriving DecidableEq, Repr

namespace Line

/-- Each operation on the line discipline: a byte is appended to the edited line while the two
hold fewer than `BUFFER_SIZE - 1` bytes, edits take bytes off the end of the line, committing
moves the line to the end of the committed bytes, and a read takes committed bytes from the
front. -/
def exec (l : Line) : InputOp → Reply × Line
  | .putChar c => (.none,
      if l.committed.length + l.edit.length < BUFFER_SIZE - 1 then { l with edit := l.edit ++ [c] }
      else l)
  | .removeAllEdit => (.count l.edit.length, { l with edit := [] })
  | .removeLastN n => (.count (min n l.edit.length), { l with edit := l.edit.take (l.edit.length - n) })
  | .read n => (.read (l.committed.take n) (min n l.committed.length),
      { l with committed := l.committed.drop n, eof := false })
  | .flush => (.none, { l with committed := [], eof := false })
  | .commitWrite => (.none, { l with committed := l.committed ++ l.edit, edit := [] })
  | .triggerEof => (.none, ⟨l.committed ++ l.edit, [], true⟩)
  | .hasData => (.hasData (!l.committed.isEmpty || l.eof), l)

/-- An edit leaves the committed bytes alone. -/
theorem exec_committed_of_isEdit {op : InputOp} (hop : op.IsEdit) (l : Line) :
    (l.exec op).2.committed = l.committed := by
  cases op with
  | putChar c =>
    show (if _ then _ else l).committed = _
    split_ifs <;> rfl
  | removeAllEdit | removeLastN _ => rfl
  | read _ | flush | commitWrite | triggerEof | hasData => exact hop.elim

end Line

namespace InputBuffer

/-- `InputBuffer::new`. -/
def new : InputBuffer := ⟨Vector.replicate BUFFER_SIZE 0, 0, 0, 0, false⟩

/-- The index before `e`: `BUFFER_SIZE - 1` before `0`. -/
def retreat (e : Fin BUFFER_SIZE) : Fin BUFFER_SIZE :=
  if h : e.val = 0 then ⟨BUFFER_SIZE - 1, by decide⟩ else ⟨e.val - 1, by omega⟩

/-- `put_char`: the byte is stored at `e` unless the ring would become full. -/
def putChar (b : InputBuffer) (data : UInt8) : InputBuffer :=
  if advance b.e 1 ≠ b.r then { b with data := b.data.set b.e data b.e.isLt, e := advance b.e 1 }
  else b

/-- `remove_all_edit`: the line's length, by its two cases, and `e` moved back to `w`. -/
def removeAllEdit (b : InputBuffer) : ℕ × InputBuffer :=
  let editSize := if b.e < b.w then BUFFER_SIZE - ((b.w : ℕ) - b.e) else (b.e : ℕ) - b.w
  (editSize, { b with e := b.w })

/-- The loop of `remove_last_n`: `e` moves back while it is not `w` and bytes remain to remove;
`e` at the end, and the count of bytes not removed. -/
def removeLastNLoop (w : Fin BUFFER_SIZE) : Fin BUFFER_SIZE → ℕ → Fin BUFFER_SIZE × ℕ
  | e, 0 => (e, 0)
  | e, remaining + 1 => if e ≠ w then removeLastNLoop w (retreat e) remaining else (e, remaining + 1)

/-- `remove_last_n`. -/
def removeLastN (b : InputBuffer) (n : ℕ) : ℕ × InputBuffer :=
  let (e, remaining) := removeLastNLoop b.w b.e n
  (n - remaining, { b with e := e })

/-- The loop of `read`: while `r` is not `w` and bytes remain to read, the byte at `r` is stored
and `r` moves on; the bytes stored, `r` at the end, and the count not read. -/
def readLoop (data : Vector UInt8 BUFFER_SIZE) (w : Fin BUFFER_SIZE) :
    Fin BUFFER_SIZE → ℕ → List UInt8 × Fin BUFFER_SIZE × ℕ
  | r, 0 => ([], r, 0)
  | r, remaining + 1 =>
    if r ≠ w then
      let (out, r', rest) := readLoop data w (advance r 1) remaining
      (data.get r :: out, r', rest)
    else ([], r, remaining + 1)

/-- `read`: the bytes stored and their count; end of file is cleared. -/
def read (b : InputBuffer) (n : ℕ) : (List UInt8 × ℕ) × InputBuffer :=
  let (out, r, remaining) := readLoop b.data b.w b.r n
  ((out, n - remaining), { b with r := r, eof := false })

/-- `flush`. -/
def flush (b : InputBuffer) : InputBuffer := { b with r := b.w, eof := false }

/-- `commit_write`. -/
def commitWrite (b : InputBuffer) : InputBuffer := { b with w := b.e }

/-- `trigger_eof`. -/
def triggerEof (b : InputBuffer) : InputBuffer := { b.commitWrite with eof := true }

/-- `has_data`. -/
def hasData (b : InputBuffer) : Bool := b.r != b.w || b.eof

/-- One operation and its reply. -/
def exec (b : InputBuffer) : InputOp → Reply × InputBuffer
  | .putChar data => (.none, b.putChar data)
  | .removeAllEdit => b.removeAllEdit.map .count id
  | .removeLastN n => (b.removeLastN n).map .count id
  | .read n => (b.read n).map (fun p => .read p.1 p.2) id
  | .flush => (.none, b.flush)
  | .commitWrite => (.none, b.commitWrite)
  | .triggerEof => (.none, b.triggerEof)
  | .hasData => (.hasData b.hasData, b)

/-- The bytes committed, from `r` to `w`, and the line being edited, from `w` to `e`. -/
def toLine (b : InputBuffer) : Line :=
  ⟨view b.data b.r (gap b.r b.w), view b.data b.w (gap b.w b.e), b.eof⟩

/-- `w` lies between `r` and `e` going around the ring. -/
def Wf (b : InputBuffer) : Prop := gap b.r b.w + gap b.w b.e < BUFFER_SIZE

theorem wf_new : new.Wf := by
  unfold Wf new
  rw [gap_self]
  decide

/-- `e` is the committed bytes and the edited line after `r`. -/
theorem e_eq_advance (b : InputBuffer) : b.e = advance b.r (gap b.r b.w + gap b.w b.e) := by
  rw [← advance_advance, advance_gap, advance_gap]

/-- One index back from `e`, one cell fewer from `w`. -/
theorem gap_retreat {w e : Fin BUFFER_SIZE} (h : e ≠ w) : gap w (retreat e) = gap w e - 1 := by
  have := e.isLt
  have hB : BUFFER_SIZE = 256 := rfl
  rw [Ne, Fin.ext_iff] at h
  unfold gap retreat
  split_ifs <;> simp only [Fin.le_def, not_le] at * <;> omega

/-- `remove_all_edit`'s two cases count the cells from `w` to `e`. -/
theorem removeAllEdit_eq (b : InputBuffer) : b.removeAllEdit = (gap b.w b.e, { b with e := b.w }) := by
  have := b.e.isLt
  unfold removeAllEdit gap
  split_ifs <;> simp only [Fin.le_def, Fin.lt_def] at * <;> first | rfl | omega

/-- The loop of `remove_last_n` moves `e` back `min(remaining, |L|)` cells, by induction on the
bytes remaining. -/
theorem removeLastNLoop_spec (w : Fin BUFFER_SIZE) : ∀ (remaining : ℕ) (e : Fin BUFFER_SIZE),
    (removeLastNLoop w e remaining).2 = remaining - min remaining (gap w e) ∧
      gap w (removeLastNLoop w e remaining).1 = gap w e - min remaining (gap w e)
  | 0, e => by simp [removeLastNLoop]
  | remaining + 1, e => by
    unfold removeLastNLoop
    by_cases he : e ≠ w
    · -- a byte is removed, and the loop goes on from the index before `e`
      have hpos : gap w e ≠ 0 := fun h0 => he (gap_eq_zero_iff.1 h0).symm
      rw [if_pos he]
      obtain ⟨h1, h2⟩ := removeLastNLoop_spec w remaining (retreat e)
      rw [gap_retreat he] at h1 h2
      constructor <;> omega
    · rw [if_neg he]
      simp only [not_not] at he
      simp [he]

/-- The loop of `read` stores the first `min(remaining, |C|)` committed bytes and moves `r` past
them, by induction on the bytes remaining. -/
theorem readLoop_spec (data : Vector UInt8 BUFFER_SIZE) (w : Fin BUFFER_SIZE) :
    ∀ (remaining : ℕ) (r : Fin BUFFER_SIZE), readLoop data w r remaining =
      (view data r (min remaining (gap r w)), advance r (min remaining (gap r w)),
        remaining - min remaining (gap r w))
  | 0, r => by simp [readLoop, view]
  | remaining + 1, r => by
    unfold readLoop
    by_cases hr : r ≠ w
    · have hpos : gap r w ≠ 0 := fun h0 => hr (gap_eq_zero_iff.1 h0)
      rw [if_pos hr, readLoop_spec data w remaining (advance r 1),
        gap_advance_of_le (Nat.one_le_iff_ne_zero.2 hpos)]
      -- one byte read now, the others from the next index
      have hmin : min (remaining + 1) (gap r w) = min remaining (gap r w - 1) + 1 := by omega
      rw [hmin, view_succ, Nat.add_comm _ 1, ← advance_advance]
      simp only [Prod.mk.injEq, true_and]
      omega
    · rw [if_neg hr]
      simp only [not_not] at hr
      simp [hr, view]

/-! ## Each operation does what the line discipline does -/

section Ops

variable {b : InputBuffer}

theorem putChar_spec (hwf : b.Wf) (c : UInt8) :
    (b.putChar c).toLine = (b.toLine.exec (.putChar c)).2 ∧ (b.putChar c).Wf := by
  have hB : BUFFER_SIZE = 256 := rfl
  unfold Wf at hwf
  have he := e_eq_advance b
  -- the ring is full exactly when the committed bytes and the line hold `BUFFER_SIZE - 1`
  have he1 : advance b.e 1 = advance b.r (gap b.r b.w + gap b.w b.e + 1) := by
    rw [← advance_advance, ← he]
  have hfull : advance b.e 1 ≠ b.r ↔ gap b.r b.w + gap b.w b.e < BUFFER_SIZE - 1 := by
    rw [he1, Ne, advance_eq_self_iff (by omega)]
    omega
  simp only [Line.exec, toLine, length_view]
  by_cases hroom : gap b.r b.w + gap b.w b.e < BUFFER_SIZE - 1
  · have hg : gap b.w (advance b.e 1) = gap b.w b.e + 1 := by
      conv_lhs => rw [← advance_gap b.w b.e, advance_advance]
      exact gap_advance _ (by omega)
    -- the byte goes where the line ends, past every committed byte
    have hset := view_set_advance (v := b.data) (r := b.w) (c := c) (gap_lt b.w b.e)
    rw [advance_gap] at hset
    have hkeep : ∀ i < gap b.r b.w, advance b.r i ≠ b.e := fun i hi hi' =>
      advance_ne (k := gap b.r b.w + gap b.w b.e) (by omega) (by omega) (hi'.trans he)
    rw [putChar, if_pos (hfull.2 hroom), if_pos hroom]
    refine ⟨?_, ?_⟩
    · simp only [Line.mk.injEq, and_true]
      exact ⟨view_set_of_ne hkeep, by rw [hg, hset]⟩
    · show gap b.r b.w + gap b.w (advance b.e 1) < BUFFER_SIZE
      omega
  · rw [putChar, if_neg (fun h => hroom (hfull.1 h)), if_neg hroom]
    exact ⟨rfl, hwf⟩

theorem removeAllEdit_spec (hwf : b.Wf) :
    Reply.count b.removeAllEdit.1 = (b.toLine.exec .removeAllEdit).1 ∧
      b.removeAllEdit.2.toLine = (b.toLine.exec .removeAllEdit).2 ∧ b.removeAllEdit.2.Wf := by
  unfold Wf at hwf
  rw [removeAllEdit_eq]
  refine ⟨by simp [Line.exec, toLine], by simp [Line.exec, toLine, view], ?_⟩
  show gap b.r b.w + gap b.w b.w < BUFFER_SIZE
  rw [gap_self]
  omega

theorem removeLastN_spec (hwf : b.Wf) (n : ℕ) :
    Reply.count (b.removeLastN n).1 = (b.toLine.exec (.removeLastN n)).1 ∧
      (b.removeLastN n).2.toLine = (b.toLine.exec (.removeLastN n)).2 ∧ (b.removeLastN n).2.Wf := by
  unfold Wf at hwf
  obtain ⟨hrem, hgap⟩ := removeLastNLoop_spec b.w n b.e
  simp only [removeLastN, Line.exec, toLine, length_view]
  refine ⟨by rw [hrem]; congr 1; omega, ?_, ?_⟩
  · -- the line is cut back to its first `|L| - n` bytes
    rw [hgap, take_view (by omega), show gap b.w b.e - n = gap b.w b.e - min n (gap b.w b.e) by omega]
  · show gap b.r b.w + gap b.w (removeLastNLoop b.w b.e n).1 < BUFFER_SIZE
    omega

theorem read_spec (hwf : b.Wf) (n : ℕ) :
    Reply.read (b.read n).1.1 (b.read n).1.2 = (b.toLine.exec (.read n)).1 ∧
      (b.read n).2.toLine = (b.toLine.exec (.read n)).2 ∧ (b.read n).2.Wf := by
  unfold Wf at hwf
  have hk : min n (gap b.r b.w) ≤ gap b.r b.w := min_le_right _ _
  simp only [read, readLoop_spec, Line.exec, toLine, length_view]
  refine ⟨?_, ?_, ?_⟩
  · -- the bytes stored are the first committed ones
    rw [List.take_eq_take_min, length_view, take_view hk]
    congr 1
    omega
  · rw [List.drop_eq_drop_min, length_view, drop_view hk, gap_advance_of_le hk]
  · show gap (advance b.r _) b.w + gap b.w b.e < BUFFER_SIZE
    rw [gap_advance_of_le hk]
    omega

theorem flush_spec (hwf : b.Wf) : b.flush.toLine = (b.toLine.exec .flush).2 ∧ b.flush.Wf := by
  unfold Wf at hwf
  refine ⟨by simp [flush, Line.exec, toLine, view], ?_⟩
  show gap b.w b.w + gap b.w b.e < BUFFER_SIZE
  rw [gap_self]
  omega

/-- Committing moves the line to the end of the committed bytes: the bytes from `r` to `e` are
those from `r` to `w` and then those from `w` to `e`. -/
theorem commitWrite_spec (hwf : b.Wf) :
    b.commitWrite.toLine = (b.toLine.exec .commitWrite).2 ∧ b.commitWrite.Wf := by
  unfold Wf at hwf
  have hre := gap_add hwf
  refine ⟨?_, ?_⟩
  · simp only [commitWrite, Line.exec, toLine, hre, view_add, advance_gap, gap_self]
    simp [view]
  · show gap b.r b.e + gap b.e b.e < BUFFER_SIZE
    rw [gap_self]
    omega

theorem hasData_eq (b : InputBuffer) : b.hasData = (!b.toLine.committed.isEmpty || b.toLine.eof) := by
  -- no committed byte is `r` meeting `w`
  have hempty : (view b.data b.r (gap b.r b.w)).isEmpty = (b.r == b.w) := by
    rw [Bool.eq_iff_iff, List.isEmpty_iff, ← List.length_eq_zero_iff, length_view, gap_eq_zero_iff,
      beq_iff_eq]
  simp only [hasData, toLine, hempty, bne]

/-- Each operation, from a state of the invariant, answers as the line discipline does, moves the
line discipline as it does, and keeps the invariant. -/
theorem exec_spec (hwf : b.Wf) (op : InputOp) :
    (b.exec op).1 = (b.toLine.exec op).1 ∧ (b.exec op).2.toLine = (b.toLine.exec op).2 ∧
      (b.exec op).2.Wf := by
  cases op with
  | putChar c => exact ⟨rfl, putChar_spec hwf c⟩
  | removeAllEdit => exact removeAllEdit_spec hwf
  | removeLastN n => exact removeLastN_spec hwf n
  | read n => exact read_spec hwf n
  | flush => exact ⟨rfl, flush_spec hwf⟩
  | commitWrite => exact ⟨rfl, commitWrite_spec hwf⟩
  | triggerEof =>
    -- `trigger_eof` commits, then sets end of file, which the invariant does not look at
    refine ⟨rfl, ?_, (commitWrite_spec hwf).2⟩
    show { b.commitWrite.toLine with eof := true } = _
    rw [(commitWrite_spec hwf).1]
    rfl
  | hasData => exact ⟨by rw [exec, hasData_eq]; rfl, rfl, hwf⟩

end Ops

theorem exec_refines : Refines exec Line.exec Wf toLine :=
  ⟨fun _ op h => (exec_spec h op).2.2, fun _ op h => (exec_spec h op).1,
    fun _ op h => (exec_spec h op).2.1⟩

theorem toLine_new : new.toLine = ⟨[], [], false⟩ := by
  simp [toLine, new, view]

/-- The input buffer is the line discipline: over every run of operations from `new`, it answers
every operation as the `Line` does, its committed bytes and edited line are the `Line`'s, and an
edit operation changes no committed byte. -/
theorem input_refines_line (ops : List InputOp) :
    (trace exec new ops).1 = (trace Line.exec ⟨[], [], false⟩ ops).1 ∧
      (trace exec new ops).2.toLine = (trace Line.exec ⟨[], [], false⟩ ops).2 ∧
      ∀ op, op.IsEdit →
        ((trace exec new ops).2.exec op).2.toLine.committed = (trace exec new ops).2.toLine.committed := by
  obtain ⟨hans, habs, hwf⟩ := exec_refines.trace_eq ops new wf_new
  rw [toLine_new] at hans habs
  refine ⟨hans, habs, fun op hop => ?_⟩
  rw [(exec_spec hwf op).2.1]
  exact Line.exec_committed_of_isEdit hop _

/-- `Tty::write_to_buffer`: the byte goes to the line, which is committed on a newline in
canonical mode and on every byte otherwise. -/
def writeToBuffer (b : InputBuffer) (symbol : UInt8) (icanon : Bool) : InputBuffer :=
  let b := b.putChar symbol
  if !icanon || symbol == 10 then b.commitWrite else b

/-- `write_to_buffer` is a run of the buffer's operations, so `input_refines_line` covers it, as it
covers backspace (`remove_last_n(1)`) and `Ctrl-U` (`remove_all_edit`). -/
theorem writeToBuffer_eq_trace (b : InputBuffer) (symbol : UInt8) (icanon : Bool) :
    b.writeToBuffer symbol icanon =
      (trace exec b (.putChar symbol :: if !icanon || symbol == 10 then [.commitWrite] else [])).2 := by
  unfold writeToBuffer
  split_ifs <;> rfl

end InputBuffer

end Cykusz.Drivers.Tty
