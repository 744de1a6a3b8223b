import Mathlib
import Cykusz.Lib.Simulation
import Cykusz.Lib.Slice
import Cykusz.Kernel.Types

/-!
# The terminal's output buffer

`OutputBuffer` holds the screen and its backlog as one circular buffer of `size_x`-cell lines,
read from line `viewport_y`, and a cursor. `write_str` feeds the bytes to the `vte` parser, whose
callbacks (`print`, `execute`, `csi_dispatch`) move the cursor and change cells through
`AnsiEscape`; the `OutputUpdate` they accumulate says which screen lines `update_screen` copies
to the video driver afterwards, once `scroll` has brought the cursor back on screen.

The callbacks are the model's input: the parser itself is not modelled, and a run is any list of
callbacks, as the bytes a program writes to the console can produce. Positions are `usize`, a
`BitVec 64`, and wrap. A panic (an index out of range, a failed assertion) is `none`.

Each CSI action clamps the cursor with its own formula, and insert-line (`ESC[nL`) assumes that
the lines it moves down fit under the cursor: `shift_up` asks `copy_lines_within` to move the
lines from the cursor to `size_y - n` down by `n`, and when `n` is more than the rows left under
the cursor that range is reversed and the assertion on it fails (`insert_lines_panics`).
-/

namespace Cykusz.Drivers.Tty

open Cykusz.Kernel Simulation

/-- `OutputUpdate`: what `update_screen` redraws, no line, the lines `first..first + num`, or the
whole viewport. -/
inductive OutputUpdate
  | none
  | line (first num : BitVec 64)
  | viewport
deriving DecidableEq, Repr

namespace OutputUpdate

/-- `update_line`: a first line makes a range of one; a later line below the range or above it
grows the range to reach it. -/
def updateLine : OutputUpdate → BitVec 64 → OutputUpdate
  | .none, l => .line l 1
  | .line cur len, l =>
    if l < cur then .line l (len + (cur - l))
    else if cur + len - 1 < l then .line cur (len + (l - cur + len - 1))
    else .line cur len
  | .viewport, _ => .viewport

end OutputUpdate

/-- `Range::len` on `usize`: an empty range for `start > end`. -/
def rangeLen (r : BitVec 64 × BitVec 64) : BitVec 64 := if r.1 ≤ r.2 then r.2 - r.1 else 0

/-- The ranges a `BufRangeIter` over a buffer of `size` cells yields with `next`: `start..stop`,
or the two pieces of a range that wraps past the end; `next_back` yields them the other way
round. -/
def bufRanges (size start stop : BitVec 64) : List (BitVec 64 × BitVec 64) :=
  if start < stop then [(start, stop)]
  else if stop < start then [(start, size), (0, stop)]
  else []

/-- A parameter `x as usize`. -/
def asUsize (x : BitVec 16) : BitVec 64 := x.setWidth 64

theorem toNat_asUsize (x : BitVec 16) : (asUsize x).toNat = x.toNat := by
  unfold asUsize
  rw [BitVec.toNat_setWidth]
  exact Nat.mod_eq_of_lt (by omega)

/-- The blank cell, `b' '`; colours are not modelled. -/
def blank : UInt8 := 0x20

/-- `OutputBuffer`, without colours and parser state. The buffer's length and `buffer_lines` are
divisors of its `%`s: `new` makes both positive and nothing changes them. -/
structure OutputBuffer where
  buffer : List UInt8
  viewportY : BitVec 64
  bufferStartY : BitVec 64
  lineCount : BitVec 64
  bufferLines : BitVec 64
  cursorX : BitVec 64
  cursorY : BitVec 64
  savedX : BitVec 64
  savedY : BitVec 64
  sizeX : BitVec 64
  sizeY : BitVec 64
  length_pos : 0 < buffer.length
  length_lt : buffer.length < 2 ^ 64
  bufferLines_ne : bufferLines ≠ 0

namespace OutputBuffer

/-- `buffer.len()`. -/
def len (o : OutputBuffer) : BitVec 64 := BitVec.ofNat 64 o.buffer.length

/-- The buffer replaced by one of the same length. -/
def withBuffer (o : OutputBuffer) (buf : List UInt8) (h : buf.length = o.buffer.length) :
    OutputBuffer :=
  { o with buffer := buf, length_pos := h ▸ o.length_pos, length_lt := h ▸ o.length_lt }

/-- `buffer[a..b].fill(blank)`. -/
def fillRange (o : OutputBuffer) (a b : ℕ) : Option OutputBuffer :=
  if Slice.InRange o.buffer a b then
    some (o.withBuffer (Slice.fill o.buffer a b blank) (Slice.length_fill _ _ _ _))
  else none

/-- `buffer.copy_within(s..e, d)`. -/
def copyWithin (o : OutputBuffer) (s e d : BitVec 64) : Option OutputBuffer :=
  if Slice.CopyInRange o.buffer s.toNat e.toNat d.toNat then
    some (o.withBuffer (Slice.copyWithin o.buffer s.toNat e.toNat d.toNat)
      (Slice.length_copyWithin _ _ _ _))
  else none

/-- `buffer[pos] = c`, at a position below the length. -/
def setCell (o : OutputBuffer) (pos : BitVec 64) (c : UInt8) : OutputBuffer :=
  o.withBuffer (o.buffer.set pos.toNat c) (List.length_set ..)

def cursorPos (o : OutputBuffer) : BitVec 64 := o.cursorX + o.cursorY * o.sizeX

def cursorBufPos (o : OutputBuffer) : BitVec 64 := (o.viewportY * o.sizeX + o.cursorPos) % o.len

def getBufferLinePos (o : OutputBuffer) (line : BitVec 64) : BitVec 64 :=
  (o.viewportY * o.sizeX + line * o.sizeX) % o.len

/-- `get_buffer_line_end_pos`: one length is taken off a position past the end, not more. -/
def getBufferLineEndPos (o : OutputBuffer) (line : BitVec 64) : BitVec 64 :=
  let pos := o.viewportY * o.sizeX + line * o.sizeX
  if pos > o.len then pos - o.len else pos

/-- `get_buffer_line_mut(line).fill(blank)`. -/
def clearBufferLine (o : OutputBuffer) (line : BitVec 64) : Option OutputBuffer :=
  let buf := o.getBufferLinePos line
  o.fillRange buf.toNat (buf + o.sizeX).toNat

/-- `get_buffer_line(line)`. -/
def getBufferLine (o : OutputBuffer) (line : BitVec 64) : Option (List UInt8) :=
  let buf := o.getBufferLinePos line
  if Slice.InRange o.buffer buf.toNat (buf + o.sizeX).toNat then
    some ((o.buffer.drop buf.toNat).take ((buf + o.sizeX).toNat - buf.toNat))
  else none

def newLine (o : OutputBuffer) : Option OutputBuffer :=
  let o := { o with cursorX := 0, cursorY := o.cursorY + 1 }
  if o.cursorY ≥ o.sizeY then o.clearBufferLine o.cursorY else some o

def tab (o : OutputBuffer) : OutputBuffer := { o with cursorX := alignDown (o.cursorX + 8) 8 }

/-- `set_viewport_line`; `none` is its assertion. -/
def setViewportLine (o : OutputBuffer) (line : BitVec 64) : Option OutputBuffer :=
  if line < o.bufferLines then
    some { o with viewportY := (o.bufferStartY + line) % o.bufferLines }
  else none

def incViewportY (o : OutputBuffer) (by_ : BitVec 64) : OutputBuffer :=
  { o with viewportY := (o.viewportY + by_) % o.bufferLines }

def incBufferStartY (o : OutputBuffer) (by_ : BitVec 64) : OutputBuffer :=
  { o with bufferStartY := (o.bufferStartY + by_) % o.bufferLines }

def viewportLine (o : OutputBuffer) : BitVec 64 :=
  if o.viewportY ≥ o.bufferStartY then o.viewportY - o.bufferStartY
  else (o.bufferLines - o.bufferStartY) + o.viewportY

def currentLine (o : OutputBuffer) : BitVec 64 := o.viewportLine + o.cursorY

def maxLine (o : OutputBuffer) : BitVec 64 :=
  if o.lineCount > o.sizeY then o.lineCount - o.sizeY else 0

/-- `store_char`: a line feed, a tab, a carriage return, or a cell written at the cursor, after a
line feed if the cursor is past the line's end. -/
def storeChar (o : OutputBuffer) (char : UInt8) (update : OutputUpdate) :
    Option (OutputBuffer × OutputUpdate) := do
  let o ←
    -- `b'\n'`, `b'\t'`, `b'\r'`
    if char = 10 then o.newLine
    else if char = 9 then
      let o := o.tab
      if o.cursorX ≥ o.sizeX then o.newLine else some o
    else if char = 13 then some { o with cursorX := 0 }
    else do
      let o ← if o.cursorX ≥ o.sizeX then o.newLine else some o
      let o := o.setCell o.cursorBufPos char
      some { o with cursorX := o.cursorX + 1 }
  let o := { o with lineCount := max o.lineCount (o.currentLine + 1) }
  some (o, update.updateLine o.cursorY)

/-- `scroll`: a cursor below the screen moves the viewport down and comes back to the last row;
the backlog forgets the lines past `buffer_lines`. -/
def scroll (o : OutputBuffer) (update : OutputUpdate) : OutputBuffer × OutputUpdate :=
  let (o, update) :=
    if o.cursorY ≥ o.sizeY then
      let off := o.cursorY - o.sizeY + 1
      (({ o with cursorY := o.sizeY - 1 } : OutputBuffer).incViewportY off, .viewport)
    else (o, update)
  if o.lineCount > o.bufferLines then
    ({ o.incBufferStartY (o.lineCount - o.bufferLines) with lineCount := o.bufferLines }, update)
  else (o, update)

/-- `_scroll_bottom`: whether the viewport moved to the last lines. -/
def scrollBottom (o : OutputBuffer) : Option (OutputBuffer × Bool) :=
  if o.viewportLine < o.maxLine then (o.setViewportLine o.maxLine).map (·, true)
  else some (o, false)

/-- `_scroll_bottom` moves the viewport and nothing else. -/
theorem scrollBottom_eq_some {o o' : OutputBuffer} {b : Bool} (h : o.scrollBottom = some (o', b)) :
    o' = { o with viewportY := o'.viewportY } := by
  unfold scrollBottom setViewportLine at h
  split_ifs at h with h₁ h₂
  · simp only [Option.map_some, Option.some.injEq, Prod.mk.injEq] at h
    rw [← h.1]
  · simp at h
  · simp only [Option.some.injEq, Prod.mk.injEq] at h
    rw [← h.1]

def viewportBufStart (o : OutputBuffer) : BitVec 64 := o.viewportY * o.sizeX

def viewportBufEnd (o : OutputBuffer) : BitVec 64 :=
  let stop := o.viewportBufStart + o.sizeX * o.sizeY
  if stop > o.len then stop - o.len else stop

/-- `clear_lines`. -/
def clearLines (o : OutputBuffer) (lineStart lineEnd : BitVec 64) : Option OutputBuffer :=
  let posStart := o.getBufferLinePos lineStart
  let posEnd := o.getBufferLineEndPos lineEnd
  if posStart < posEnd then o.fillRange posStart.toNat posEnd.toNat else some o

/-- The part of a range that `copy_lines_within` copies when the other range is `k` cells long:
from its start when copying from the start, from its end otherwise. -/
def rangeTake (fromEnd : Bool) (r : BitVec 64 × BitVec 64) (k : BitVec 64) :
    BitVec 64 × BitVec 64 :=
  if fromEnd then (r.2 - k, r.2) else (r.1, r.1 + k)

/-- The rest of a range once `rangeTake` is copied. -/
def rangeDrop (fromEnd : Bool) (r : BitVec 64 × BitVec 64) (k : BitVec 64) :
    BitVec 64 × BitVec 64 :=
  if fromEnd then (r.1, r.2 - k) else (r.1 + k, r.2)

/-- The `while let (Some(s), Some(d))` loops of `copy_lines_within`: the source ranges are copied
to the destination ranges, a piece at a time, from the start or from the end. -/
def copyRanges (o : OutputBuffer) (fromEnd : Bool) :
    List (BitVec 64 × BitVec 64) → List (BitVec 64 × BitVec 64) → Option OutputBuffer
  | s :: ss, d :: ds =>
    if rangeLen s < rangeLen d then
      (o.copyWithin s.1 s.2 (rangeTake fromEnd d (rangeLen s)).1).bind fun o =>
        o.copyRanges fromEnd ss (rangeDrop fromEnd d (rangeLen s) :: ds)
    else if rangeLen s > rangeLen d then
      let piece := rangeTake fromEnd s (rangeLen d)
      (o.copyWithin piece.1 piece.2 d.1).bind fun o =>
        o.copyRanges fromEnd (rangeDrop fromEnd s (rangeLen d) :: ss) ds
    else
      (o.copyWithin s.1 s.2 d.1).bind fun o => o.copyRanges fromEnd ss ds
  | _, _ => some o
termination_by ss ds => ss.length + ds.length

/-- `copy_lines_within`: lines `start..stop` move to `dest..`; `none` is one of its two
assertions, or a panic of `copy_within`. -/
def copyLinesWithin (o : OutputBuffer) (start stop dest : BitVec 64) : Option OutputBuffer :=
  if start = stop then some o
  else if ¬ stop > start then none
  else if ¬ dest + (stop - start) ≤ o.sizeY then none
  else
    let startPos := o.getBufferLinePos start
    let endPos := o.getBufferLineEndPos stop
    let remainingLines := stop - start
    let startDestPos := o.getBufferLinePos dest
    let endDestPos := o.getBufferLineEndPos (dest + remainingLines)
    let source := bufRanges o.len startPos endPos
    let target := bufRanges o.len startDestPos endDestPos
    if dest < start then o.copyRanges false source target
    else if dest > start then o.copyRanges true source.reverse target.reverse
    else some o

/-- A reversed range of lines fails the first assertion. -/
theorem copyLinesWithin_of_lt {o : OutputBuffer} {start stop : BitVec 64} (h : stop < start)
    (dest : BitVec 64) : o.copyLinesWithin start stop dest = none := by
  rw [BitVec.lt_def] at h
  have hne : start ≠ stop := fun e => by rw [e] at h; omega
  have hnlt : ¬ start < stop := by rw [BitVec.lt_def]; omega
  simp [copyLinesWithin, hne, hnlt]

/-- `shift_up`: the lines from the cursor down move `lines` further down, and the lines they
leave are cleared. -/
def shiftUp (o : OutputBuffer) (lines : BitVec 64) : Option OutputBuffer := do
  let o ← o.copyLinesWithin o.cursorY (o.sizeY - lines) (o.cursorY + lines)
  o.clearLines o.cursorY (o.cursorY + lines)

theorem shiftUp_of_lt {o : OutputBuffer} {lines : BitVec 64} (h : o.sizeY - lines < o.cursorY) :
    o.shiftUp lines = none := by
  simp [shiftUp, copyLinesWithin_of_lt h]

/-! ## Cursor movements of `csi_dispatch` -/

/-- `H`, `f`: row and column from 1, each 1 when missing. -/
def cursorPosition (o : OutputBuffer) (params : List (BitVec 16)) : OutputBuffer :=
  let y := asUsize (params.head?.getD 1)
  let x := asUsize ((params.drop 1).head?.getD 1)
  let y := if y ≠ 0 then y - 1 else y
  let x := if x ≠ 0 then x - 1 else x
  { o with cursorY := min y (o.sizeY - 1), cursorX := min x (o.sizeX - 1) }

/-- `A`, `F`: up `x` rows, at least one, or to the top. -/
def cursorUp (o : OutputBuffer) (x : BitVec 16) : OutputBuffer :=
  { o with cursorY := if o.cursorY ≥ asUsize x then o.cursorY - asUsize (max 1 x) else 0 }

/-- `B`, `E`: down `x` rows, at most to the last. -/
def cursorDown (o : OutputBuffer) (x : BitVec 16) : OutputBuffer :=
  { o with cursorY := min (o.sizeY - 1) (o.cursorY + asUsize x) }

/-- `C`: right `x` columns, at least one, at most to the last. -/
def cursorForward (o : OutputBuffer) (x : BitVec 16) : OutputBuffer :=
  { o with cursorX := min (o.sizeX - 1) (o.cursorX + max 1 (asUsize x)) }

/-- `D`: left `x` columns, or to the first. -/
def cursorBack (o : OutputBuffer) (x : BitVec 16) : OutputBuffer :=
  { o with cursorX := if o.cursorX ≥ asUsize x then o.cursorX - asUsize x else 0 }

/-- `d`: to row `y` from 1, clamped by the number of columns. -/
def lineAbsolute (o : OutputBuffer) (y : BitVec 16) : OutputBuffer :=
  let y := if y = 0 then y else y - 1
  { o with cursorY := min (asUsize y) (o.sizeX - 1) }

/-- `G`: to column `x`, clamped. -/
def columnAbsolute (o : OutputBuffer) (x : BitVec 16) : OutputBuffer :=
  { o with cursorX := min (asUsize x) (o.sizeX - 1) }

/-- `K`: the line's cells from the cursor to the end of its line, from its start to the cursor,
or the whole line. -/
def eraseLine (o : OutputBuffer) (x : BitVec 16) : Option OutputBuffer :=
  let bufPos := o.cursorBufPos
  if x = 0 then
    let stop := alignUp bufPos o.sizeX
    let stop := if stop = bufPos then alignUp (bufPos + 1) o.sizeX else stop
    o.fillRange bufPos.toNat stop.toNat
  else if x = 1 then o.fillRange (alignDown bufPos o.sizeX).toNat (bufPos.toNat + 1)
  else if x = 2 then o.fillRange (alignDown bufPos o.sizeX).toNat (alignUp bufPos o.sizeX).toNat
  else some o

/-- The cells `J` clears: from the cursor to the viewport's end, from its start to the cursor, or
the whole viewport. -/
def eraseDisplayRange (o : OutputBuffer) (x : BitVec 16) : Option (BitVec 64 × BitVec 64) :=
  if x = 0 then some (o.cursorBufPos, o.viewportBufEnd)
  else if x = 1 then some (o.viewportBufStart, o.cursorBufPos + 1)
  else if x = 2 then some (o.viewportBufStart, o.viewportBufEnd)
  else none

/-- `J` on a range; a range that wraps is cleared to the end and from the start. -/
def eraseDisplay (o : OutputBuffer) (clearStart clearEnd : BitVec 64) : Option OutputBuffer :=
  if clearStart < clearEnd then o.fillRange clearStart.toNat clearEnd.toNat
  else (o.fillRange clearStart.toNat o.buffer.length).bind fun o => o.fillRange 0 clearEnd.toNat

/-! ## Screen updates -/

/-- `update_screen`: the rows it copies to the video driver, each with its cells; `none` is a
slice of the buffer out of range. -/
def updateScreen (o : OutputBuffer) : OutputUpdate → Option (List (BitVec 64 × List UInt8))
  | .none => some []
  | .line line num =>
    (List.range (rangeLen (line, line + num)).toNat).mapM fun i =>
      (o.getBufferLine (line + BitVec.ofNat 64 i)).map (line + BitVec.ofNat 64 i, ·)
  | .viewport =>
    let viewportStart := o.viewportBufStart
    let viewportEnd := o.viewportBufEnd
    if viewportStart < viewportEnd then
      if Slice.InRange o.buffer viewportStart.toNat viewportEnd.toNat then
        some [(0, (o.buffer.drop viewportStart.toNat).take (viewportEnd - viewportStart).toNat)]
      else none
    else
      if Slice.InRange o.buffer viewportStart.toNat o.buffer.length ∧
          Slice.InRange o.buffer 0 viewportEnd.toNat then
        some [(0, o.buffer.drop viewportStart.toNat),
          (o.bufferLines - o.viewportY, o.buffer.take viewportEnd.toNat)]
      else none

end OutputBuffer

/-- A callback of the `vte` parser that `AnsiEscape` implements; its other callbacks do
nothing. -/
inductive Callback
  | print (c : Char)
  | execute (byte : UInt8)
  | csiDispatch (params : List (BitVec 16)) (ignore : Bool) (action : Char)

/-- `AnsiEscape`: the buffer, and the update accumulated since `write_str` began. -/
structure AnsiEscape where
  output : OutputBuffer
  update : OutputUpdate

namespace AnsiEscape

def storeChar (e : AnsiEscape) (char : UInt8) : Option AnsiEscape :=
  (e.output.storeChar char e.update).map fun (o, u) => ⟨o, u⟩

/-- `print`: the character's low byte is stored. -/
def print (e : AnsiEscape) (c : Char) : Option AnsiEscape := e.storeChar c.toNat.toUInt8

/-- `execute`: a line feed, tab or carriage return is stored, a backspace moves left. -/
def execute (e : AnsiEscape) (byte : UInt8) : Option AnsiEscape :=
  if byte = 10 ∨ byte = 9 ∨ byte = 13 then e.storeChar byte
  else if byte = 8 then
    some { e with output := { e.output with
      cursorX := if e.output.cursorX > 0 then e.output.cursorX - 1 else e.output.cursorX } }
  else some e

/-- An action that takes its first parameter, and does nothing without one. -/
def withFirst (e : AnsiEscape) (params : List (BitVec 16)) (f : BitVec 16 → Option AnsiEscape) :
    Option AnsiEscape :=
  match params.head? with
  | some x => f x
  | none => some e

/-- `csi_dispatch`. Colours (`m`) and the video cursor's visibility (`l`, `h`) are not
modelled. -/
def csiDispatch (e : AnsiEscape) (params : List (BitVec 16)) (ignore : Bool) (action : Char) :
    Option AnsiEscape :=
  let o := e.output
  if ignore then some e
  else if action = 'H' ∨ action = 'f' then some { e with output := o.cursorPosition params }
  else if action = 'A' ∨ action = 'F' then
    e.withFirst params fun x =>
      let o := o.cursorUp x
      some { e with output := if action = 'F' then { o with cursorX := 0 } else o }
  else if action = 'B' ∨ action = 'E' then
    e.withFirst params fun x =>
      let o := o.cursorDown x
      some { e with output := if action = 'E' then { o with cursorX := 0 } else o }
  else if action = 'C' then e.withFirst params fun x => some { e with output := o.cursorForward x }
  else if action = 'D' then e.withFirst params fun x => some { e with output := o.cursorBack x }
  else if action = 'd' then e.withFirst params fun y => some { e with output := o.lineAbsolute y }
  else if action = 'G' then
    e.withFirst params fun x => some { e with output := o.columnAbsolute x }
  else if action = 'K' then
    e.withFirst params fun x =>
      (o.eraseLine x).map fun o' =>
        ⟨o', if x ≤ 2 then e.update.updateLine o.cursorY else e.update⟩
  else if action = 'J' then
    e.withFirst params fun x =>
      match o.eraseDisplayRange x with
      | some (clearStart, clearEnd) =>
        (o.eraseDisplay clearStart clearEnd).map fun o => ⟨o, .viewport⟩
      | none => some e
  else if action = 'L' then
    e.withFirst params fun x => (o.shiftUp (asUsize (max 1 x))).map fun o => ⟨o, .viewport⟩
  else if action = 's' then
    some { e with output := { o with savedX := o.cursorX, savedY := o.cursorY } }
  else if action = 'u' then
    some { e with output := { o with cursorX := o.savedX, cursorY := o.savedY } }
  else some e

theorem csiDispatch_insertLines (e : AnsiEscape) (x : BitVec 16) (params : List (BitVec 16)) :
    e.csiDispatch (x :: params) false 'L' =
      (e.output.shiftUp (asUsize (max 1 x))).map fun o => ⟨o, .viewport⟩ := by
  simp [csiDispatch, withFirst]

def perform (e : AnsiEscape) : Callback → Option AnsiEscape
  | .print c => e.print c
  | .execute byte => e.execute byte
  | .csiDispatch params ignore action => e.csiDispatch params ignore action

end AnsiEscape

namespace OutputBuffer

/-- `write_str` up to its `update_screen`: the viewport goes back to the bottom, the callbacks of
the bytes run, and `scroll` brings the cursor back on screen. The update is the one passed to
`update_screen`. `put_char` is the same for the callbacks of one byte. -/
def writeStrUpdate (o : OutputBuffer) (callbacks : List Callback) :
    Option (OutputBuffer × OutputUpdate) := do
  let (o, scrolled) ← o.scrollBottom
  let e ← run AnsiEscape.perform ⟨o, if scrolled then .viewport else .none⟩ callbacks
  some (e.output.scroll e.update)

/-- `write_str`: the buffer afterwards and the rows copied to the video driver. -/
def writeStr (o : OutputBuffer) (callbacks : List Callback) :
    Option (OutputBuffer × List (BitVec 64 × List UInt8)) := do
  let (o, update) ← o.writeStrUpdate callbacks
  let rows ← o.updateScreen update
  some (o, rows)

/-- A write whose first callback panics, whatever `_scroll_bottom` did before it, panics. -/
theorem writeStr_eq_none_of_perform {o : OutputBuffer} {cb : Callback}
    (h : ∀ o' b, o.scrollBottom = some (o', b) → ∀ u, AnsiEscape.perform ⟨o', u⟩ cb = none)
    (callbacks : List Callback) : o.writeStr (cb :: callbacks) = none := by
  unfold writeStr writeStrUpdate
  cases hb : o.scrollBottom with
  | none => simp
  | some p =>
    obtain ⟨o', b⟩ := p
    simp [run_cons, h o' b hb]

end OutputBuffer

/-- `ESC[nL` with `n` more than the rows from the cursor to the bottom, and at most the screen's
height, stops the kernel: `shift_up` gives `copy_lines_within` the lines `cursor_y..size_y - n`,
a reversed range, and its first assertion fails. -/
theorem insert_lines_panics (o : OutputBuffer) (x : BitVec 16) (params : List (BitVec 16))
    (callbacks : List Callback) (hx : 0 < x.toNat) (hfit : x.toNat ≤ o.sizeY.toNat)
    (hrows : o.sizeY.toNat < o.cursorY.toNat + x.toNat) :
    o.writeStr (.csiDispatch (x :: params) false 'L' :: callbacks) = none := by
  apply OutputBuffer.writeStr_eq_none_of_perform
  intro o' b hb u
  have ho' := OutputBuffer.scrollBottom_eq_some hb
  have hcy : o'.cursorY = o.cursorY := by rw [ho']
  have hsy : o'.sizeY = o.sizeY := by rw [ho']
  -- `max(1, x)` is `x`
  have hlines : (asUsize (max 1 x)).toNat = x.toNat := by
    rw [toNat_asUsize, toNat_max, show (1 : BitVec 16).toNat = 1 from rfl]
    omega
  have hle : asUsize (max 1 x) ≤ o'.sizeY := by
    rw [hsy, BitVec.le_def, hlines]
    exact hfit
  have hlt : o'.sizeY - asUsize (max 1 x) < o'.cursorY := by
    rw [BitVec.lt_def, BitVec.toNat_sub_of_le hle, hlines, hcy, hsy]
    omega
  rw [AnsiEscape.perform, AnsiEscape.csiDispatch_insertLines, OutputBuffer.shiftUp_of_lt hlt,
    Option.map_none]

theorem console_length_pos : 0 < (List.replicate 2000 blank).length := by
  rw [List.length_replicate]
  decide

theorem console_length_lt : (List.replicate 2000 blank).length < 2 ^ 64 := by
  rw [List.length_replicate]
  decide

theorem console_bufferLines_ne : (25 : BitVec 64) ≠ 0 := by decide

/-- An 80x25 console as `OutputBuffer::new` makes it for the screen (`BACKLOG_SIZE` is 0), after
24 line feeds: the cursor is on the last row. -/
def console : OutputBuffer where
  buffer := List.replicate 2000 blank
  viewportY := 0
  bufferStartY := 0
  lineCount := 25
  bufferLines := 25
  cursorX := 0
  cursorY := 24
  savedX := 0
  savedY := 0
  sizeX := 80
  sizeY := 25
  length_pos := console_length_pos
  length_lt := console_length_lt
  bufferLines_ne := console_bufferLines_ne

/-- `ESC[2L` on the last row of an 80x25 console. -/
theorem insert_lines_panics_bottom : console.writeStr [.csiDispatch [2] false 'L'] = none :=
  insert_lines_panics console 2 [] [] (by decide) (by decide) (by decide)

end Cykusz.Drivers.Tty
