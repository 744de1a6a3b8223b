import Mathlib
import Cykusz.Lib.Circular
import Cykusz.Lib.Simulation
import Cykusz.Fs.Vfs

/-!
# The ring buffer behind pipes and sockets

`Buffer` keeps up to `n` bytes in a ring: they are read from `r` and written at `w`, and `full`
tells a full ring from an empty one when `r` and `w` meet. Its contents are the `size` bytes
from `r` (`Buffer.contents`, a `Circular.view`).

`append_data` copies what fits in up to two segments (up to the end of the array, then from its
start), `read_data` reads the same way, and `mark_as_read` drops bytes. Each does to the contents
what a bounded FIFO queue does (`appendData_spec`, `readData_spec`, `markAsRead_spec`), with one
exception: appending nothing to an empty ring moves `w` onto `r` and sets `full`, so the ring then
holds `n` bytes nobody appended (`append_empty_marks_full`). Away from that case the ring refines
the queue over every run (`buffer_refines_queue`).

`read_data_transient_from` peeks without reading, but always copies from `r`, whatever its
offset; the call it makes for what the end of the array did not fill is given the count so far as
its offset and copies from `r` again. On a ring that wraps, or is full, a peek reads the segment
from `r` to the end of the array over and over, and reports the whole buffer read
(`readDataTransientFrom_repeats`).
-/

namespace Cykusz.Kernel

open Circular

/-- `Buffer`: a ring of `n` bytes, read from `r` and written at `w`; `full` disambiguates
`r = w`, and is only set when they meet. -/
structure Buffer (n : ℕ) where
  data : Vector UInt8 n
  r : Fin n
  w : Fin n
  full : Bool
  full_eq : full = true → r = w

namespace Buffer

variable {n : ℕ}

/-- `Buffer::new`: `n` zero bytes, empty. -/
def new (n : ℕ) (hn : 0 < n) : Buffer n := ⟨Vector.replicate n 0, ⟨0, hn⟩, ⟨0, hn⟩, false, nofun⟩

def availableSize (b : Buffer n) : ℕ :=
  if b.full then 0
  else if b.r ≤ b.w then n - ((b.w : ℕ) - b.r)
  else (b.r : ℕ) - b.w

def size (b : Buffer n) : ℕ := n - b.availableSize

def hasData (b : Buffer n) : Bool := b.r != b.w || b.full

/-- What both branches of `append_data` do with the bytes they copy: copy them in at `w`, move
`w` past them, and set `full` when `w` has met `r`. -/
def put (b : Buffer n) (src : List UInt8) : Buffer n :=
  let w := advance b.w src.length
  ⟨copyIn b.data b.w src, b.r, w, decide (b.r = w), of_decide_eq_true⟩

/-- `Buffer::append_data`: the ring after the append and the number of bytes copied. -/
def appendData (b : Buffer n) (data : List UInt8) : Buffer n × ℕ :=
  if b.full then (b, 0)
  else if b.r > b.w then
    let toCopy := min ((b.r : ℕ) - b.w) data.length
    (b.put (data.take toCopy), toCopy)
  else
    let toCopy := min (n - b.w) data.length
    let b' := b.put (data.take toCopy)
    -- what did not fit before the end of the array goes to its start
    if _h : toCopy < data.length then
      let (b'', written) := appendData b' (data.drop toCopy)
      (b'', written + toCopy)
    else (b', toCopy)
termination_by data.length
decreasing_by
  have := b.w.isLt
  simp only [List.length_drop]
  omega

/-- `Buffer::read_data` into a buffer of `len` bytes: the ring after the read and the bytes
written at the start of the buffer. -/
def readData (b : Buffer n) (len : ℕ) : Buffer n × List UInt8 :=
  if (b.r = b.w ∧ b.full = false) ∨ len = 0 then (b, [])
  else if h : b.w > b.r then
    (⟨b.data, ⟨b.r + min ((b.w : ℕ) - b.r) len, by omega⟩, b.w, false, nofun⟩,
      slice b.data b.r (min ((b.w : ℕ) - b.r) len))
  else
    let toRead := min (n - b.r) len
    let b' : Buffer n := ⟨b.data, advance b.r toRead, b.w, false, nofun⟩
    -- what the end of the array did not fill comes from its start
    if h : toRead < len then
      let (b'', rest) := readData b' (len - toRead)
      (b'', slice b.data b.r toRead ++ rest)
    else (b', slice b.data b.r toRead)
termination_by len
decreasing_by
  have := b.r.isLt
  omega

/-- `Buffer::mark_as_read`: the ring after dropping `amount` bytes, and how many it dropped. -/
def markAsRead (b : Buffer n) (amount : ℕ) : Buffer n × ℕ :=
  if amount = 0 then (b, amount)
  else
    let avail := b.size
    if avail < amount then (⟨b.data, b.w, b.w, false, nofun⟩, avail)
    else (⟨b.data, advance b.r amount, b.w, false, nofun⟩, amount)

/-- `Buffer::read_data_transient_from` into a buffer of `len` bytes: the count it returns and the
bytes it writes at the start of the buffer; the ring is left as it is. -/
def readDataTransientFrom (b : Buffer n) (offset len : ℕ) : ℕ × List UInt8 :=
  if offset > b.size then (0, [])
  else
    let r := ((b.r : ℕ) + offset) &&& n
    if (r = b.w ∧ b.full = false ∧ offset = 0) ∨ len = 0 then (0, [])
    else if b.w > b.r then
      let toRead := min ((b.w : ℕ) - b.r) len
      (toRead, slice b.data b.r toRead)
    else
      let toRead := min (n - b.r) len
      -- the rest is read by a call that is given the count so far as its offset
      if _h : toRead < len then
        let (read, rest) := readDataTransientFrom b toRead (len - toRead)
        (read + toRead, slice b.data b.r toRead ++ rest)
      else (toRead, slice b.data b.r toRead)
termination_by len
decreasing_by
  have := b.r.isLt
  omega

/-! ## The bytes a ring holds -/

/-- The bytes the ring holds, in the order they are read. -/
def contents (b : Buffer n) : List UInt8 := view b.data b.r b.size

variable {b : Buffer n}

@[simp] theorem length_contents : b.contents.length = b.size := by simp [contents]

theorem size_le : b.size ≤ n := Nat.sub_le _ _

theorem availableSize_eq : b.availableSize = n - b.size := by
  have : b.availableSize ≤ n := by
    have := b.w.isLt
    unfold availableSize
    split_ifs <;> omega
  unfold size
  omega

theorem size_of_full (h : b.full = true) : b.size = n := by simp [size, availableSize, h]

theorem size_of_lt (h : b.r < b.w) : b.size = b.w - b.r := by
  have hf : b.full = false := by
    cases hfull : b.full
    · rfl
    · exact absurd (b.full_eq hfull) (Fin.ne_of_lt h)
  have := b.w.isLt
  simp only [size, availableSize, hf, Bool.false_eq_true, if_false, if_pos (Fin.le_of_lt h)]
  omega

theorem size_of_gt (h : b.w < b.r) : b.size = n - b.r + b.w := by
  have hf : b.full = false := by
    cases hfull : b.full
    · rfl
    · exact absurd (b.full_eq hfull).symm (Fin.ne_of_lt h)
  have := b.r.isLt
  simp only [size, availableSize, hf, Bool.false_eq_true, if_false, if_neg (Fin.not_le.2 h)]
  omega

theorem size_of_eq (h : b.r = b.w) (hf : b.full = false) : b.size = 0 := by
  simp [size, availableSize, hf, h]

/-- The ring's size is the one count of cells that leads from `r` to `w` and is `n` exactly when
the ring is full. -/
theorem size_eq_of {m : ℕ} (hm : m ≤ n) (hw : advance b.r m = b.w) (hf : b.full = true ↔ m = n) :
    b.size = m := by
  have hr := b.r.isLt
  have hwv : (b.w : ℕ) = if (b.r : ℕ) + m < n then b.r + m else b.r + m - n := by
    rw [← hw, val_advance_of_le hm]
  rcases Nat.lt_trichotomy (b.r : ℕ) b.w with hlt | heq | hgt
  · rw [size_of_lt hlt]
    split_ifs at hwv <;> omega
  · cases hfull : b.full
    · rw [size_of_eq (Fin.ext heq) hfull]
      simp only [hfull, Bool.false_eq_true, false_iff] at hf
      split_ifs at hwv <;> omega
    · rw [size_of_full hfull, hf.1 hfull]
  · rw [size_of_gt hgt]
    split_ifs at hwv <;> omega

/-- The contents end at `w`. -/
theorem advance_size : advance b.r b.size = b.w := by
  have hr := b.r.isLt
  have hw := b.w.isLt
  rcases Nat.lt_trichotomy (b.r : ℕ) b.w with hlt | heq | hgt
  · rw [Fin.ext_iff, size_of_lt hlt, val_advance_of_le (by omega)]
    split_ifs <;> omega
  · cases hfull : b.full
    · rw [size_of_eq (Fin.ext heq) hfull, advance_zero]
      exact Fin.ext heq
    · rw [Fin.ext_iff, size_of_full hfull, val_advance_of_le le_rfl]
      split_ifs <;> omega
  · rw [Fin.ext_iff, size_of_gt hgt, val_advance_of_le (by omega)]
    split_ifs <;> omega

theorem hasData_iff : b.hasData = true ↔ b.contents ≠ [] := by
  rw [ne_eq, ← List.length_eq_zero_iff, length_contents]
  cases hfull : b.full
  · by_cases h : b.r = b.w
    · simp [hasData, hfull, h, size_of_eq h hfull]
    · have hpos : b.size ≠ 0 := by
        rcases Nat.lt_or_gt_of_ne (Fin.val_ne_of_ne h) with hlt | hgt
        · rw [size_of_lt hlt]; omega
        · rw [size_of_gt hgt]; have := b.r.isLt; omega
      simp [hasData, h, hpos]
  · have := b.r.pos
    simp [hasData, hfull, size_of_full hfull]
    omega

/-! ## Appending -/

/-- Copying in bytes that fit before the end of the array and in the free room appends them to
the contents, unless nothing is copied into an empty ring. -/
theorem put_spec {s : List UInt8} (hpos : 0 < b.size + s.length)
    (hroom : b.size + s.length ≤ n) (hend : (b.w : ℕ) + s.length ≤ n) :
    (b.put s).size = b.size + s.length ∧ (b.put s).contents = b.contents ++ s := by
  have hw : advance b.r (b.size + s.length) = (b.put s).w := by
    rw [← advance_advance, advance_size]
    rfl
  have hsize : (b.put s).size = b.size + s.length := by
    apply size_eq_of hroom hw
    -- `w` meets `r` again exactly when the ring fills up
    have hw' : advance b.w s.length = advance b.r (b.size + s.length) := by
      rw [← advance_advance, advance_size]
    simp only [put, decide_eq_true_eq]
    rw [eq_comm, hw', advance_eq_self_iff hroom]
    omega
  refine ⟨hsize, ?_⟩
  show view (copyIn b.data b.w s) b.r (b.put s).size = view b.data b.r b.size ++ s
  rw [hsize]
  exact view_copyIn (congrArg Fin.val (advance_size (b := b))) hend hroom

/-- A ring that is not full and does not wrap holds the bytes from `r` to `w`. -/
theorem size_of_not_gt (hle : ¬b.r > b.w) (hfull : ¬b.full = true) : b.size = b.w - b.r := by
  rcases Nat.lt_or_eq_of_le (Fin.not_lt.1 hle) with hlt | heq
  · exact size_of_lt hlt
  · rw [size_of_eq (Fin.ext heq) (by simpa using hfull)]
    omega

/-- `append_data` copies as much of `data` as the room allows and appends it to the contents,
unless it appends nothing to an empty ring. -/
theorem appendData_spec (data : List UInt8) (h : data ≠ [] ∨ b.size ≠ 0) :
    (b.appendData data).2 = min (n - b.size) data.length ∧
      (b.appendData data).1.contents = b.contents ++ data.take (n - b.size) := by
  fun_induction appendData b data with
  | case1 b data hfull =>
    simp [size_of_full hfull]
  | case2 b data hfull hgt =>
    -- one segment, up to `r`
    have hs := size_of_gt hgt
    have hw := b.w.isLt
    obtain ⟨-, hc⟩ := put_spec (b := b) (s := data.take (min ((b.r : ℕ) - b.w) data.length))
      (by simp; omega) (by simp; omega) (by simp; omega)
    refine ⟨by omega, ?_⟩
    rw [hc]
    congr 1
    rw [List.take_eq_take_iff]
    omega
  | case3 b data hfull hle toCopy b' hlt b'' written hcall ih =>
    -- up to the end of the array, then the rest from its start
    have hs := size_of_not_gt hle hfull
    have hw := b.w.isLt
    have hr := b.r.isLt
    obtain ⟨hsz, hc⟩ := put_spec (b := b) (s := data.take toCopy)
      (by simp [toCopy]; omega) (by simp [toCopy]; omega) (by simp [toCopy]; omega)
    obtain ⟨ih₁, ih₂⟩ := ih (Or.inl (by simp [List.drop_eq_nil_iff, toCopy]; omega))
    rw [hcall] at ih₁ ih₂
    simp only [List.length_take, List.length_drop] at hsz ih₁
    dsimp only at ih₁ ih₂ ⊢
    refine ⟨by rw [ih₁, show b'.size = _ from hsz]; simp [toCopy]; omega, ?_⟩
    rw [ih₂, show b'.contents = _ from hc, show b'.size = _ from hsz, List.append_assoc,
      ← List.take_add]
    congr 1
    rw [List.take_eq_take_iff]
    simp [toCopy]
    omega
  | case4 b data hfull hle toCopy b' hlt =>
    have hs := size_of_not_gt hle hfull
    have hw := b.w.isLt
    have hlen : data.length ≤ n - b.w := by simp [toCopy] at hlt; omega
    have hpos : 0 < b.size + data.length := by
      rcases h with h | h
      · have := List.length_pos_of_ne_nil h; omega
      · omega
    obtain ⟨-, hc⟩ := put_spec (b := b) (s := data.take toCopy)
      (by simp [toCopy]; omega) (by simp [toCopy]; omega) (by simp [toCopy]; omega)
    refine ⟨by simp [toCopy]; omega, ?_⟩
    rw [show b'.contents = _ from hc]
    congr 1
    rw [List.take_eq_take_iff]
    simp [toCopy]
    omega

/-! ## Reading and dropping -/

/-- Dropping `t` bytes, `0 < t ≤ size`, as `read_data` and `mark_as_read` do: `r` moves on and
`full` is cleared. -/
theorem drop_spec {t : ℕ} (ht : 0 < t) (hts : t ≤ b.size) :
    (⟨b.data, advance b.r t, b.w, false, nofun⟩ : Buffer n).size = b.size - t ∧
      (⟨b.data, advance b.r t, b.w, false, nofun⟩ : Buffer n).contents = b.contents.drop t := by
  have hn := b.size_le
  have hsize : (⟨b.data, advance b.r t, b.w, false, nofun⟩ : Buffer n).size = b.size - t := by
    apply size_eq_of (by omega)
    · show advance (advance b.r t) (b.size - t) = b.w
      rw [advance_advance, Nat.add_sub_cancel' hts, advance_size]
    · simp only [Bool.false_eq_true, false_iff]
      omega
  refine ⟨hsize, ?_⟩
  show view b.data (advance b.r t) _ = _
  rw [hsize, contents, drop_view hts]

/-- A segment read from `r` within the contents is their prefix. -/
theorem slice_eq_take {k : ℕ} (hk : k ≤ b.size) (hend : (b.r : ℕ) + k ≤ n) :
    slice b.data b.r k = b.contents.take k := by
  rw [slice_eq_view hend, contents, take_view hk]

/-- Contents that do not end before `w` in the array run at least to the array's end. -/
theorem sub_r_le_size (hle : ¬b.w > b.r) (hne : ¬(b.r = b.w ∧ b.full = false)) :
    n - b.r ≤ b.size := by
  have hr := b.r.isLt
  rcases Nat.lt_or_eq_of_le (Fin.not_lt.1 hle) with hgt | heq
  · rw [size_of_gt hgt]
    omega
  · -- `r = w` with contents: the ring is full
    have hf : b.full = true := by
      by_contra hf
      exact hne ⟨Fin.ext heq.symm, by simpa using hf⟩
    rw [size_of_full hf]
    omega

/-- `read_data` reads the first bytes of the contents, as many as the buffer holds, and removes
them. -/
theorem readData_spec (len : ℕ) :
    (b.readData len).2 = b.contents.take len ∧ (b.readData len).1.contents = b.contents.drop len := by
  fun_induction readData b len with
  | case1 b len hnone =>
    rcases hnone with ⟨heq, hf⟩ | rfl
    · have h0 : b.contents = [] := by
        rw [← List.length_eq_zero_iff, length_contents, size_of_eq heq hf]
      simp [h0]
    · simp
  | case2 b len hnone hgt =>
    -- one segment, up to `w`
    have hs := size_of_lt hgt
    have hw := b.w.isLt
    have hlen : len ≠ 0 := fun h0 => hnone (Or.inr h0)
    have hr : (⟨b.r + min ((b.w : ℕ) - b.r) len, by omega⟩ : Fin n) =
        advance b.r (min ((b.w : ℕ) - b.r) len) := by
      ext
      rw [val_advance, Nat.mod_eq_of_lt (by omega)]
    obtain ⟨-, hc⟩ := drop_spec (b := b) (t := min ((b.w : ℕ) - b.r) len) (by omega) (by omega)
    refine ⟨?_, ?_⟩
    · rw [slice_eq_take (by omega) (by omega), List.take_eq_take_iff]
      simp only [length_contents]
      omega
    · have hbuf : (⟨b.data, ⟨b.r + min ((b.w : ℕ) - b.r) len, by omega⟩, b.w, false, nofun⟩ :
          Buffer n) = ⟨b.data, advance b.r (min ((b.w : ℕ) - b.r) len), b.w, false, nofun⟩ := by
        rw [Buffer.mk.injEq]
        exact ⟨rfl, hr, rfl, rfl⟩
      dsimp only
      rw [hbuf, hc, List.drop_eq_drop_iff]
      simp only [length_contents]
      omega
  | case3 b len hnone hle toRead b' hlt b'' rest hcall ih =>
    -- up to the end of the array, then from its start
    have hr := b.r.isLt
    have hs := sub_r_le_size hle fun h => hnone (.inl h)
    have hlen : len ≠ 0 := fun h0 => hnone (Or.inr h0)
    obtain ⟨-, hc⟩ := drop_spec (b := b) (t := toRead) (by simp [toRead]; omega)
      (by simp [toRead]; omega)
    obtain ⟨ih₁, ih₂⟩ := ih
    rw [hcall] at ih₁ ih₂
    dsimp only at ih₁ ih₂ ⊢
    rw [show b'.contents = _ from hc] at ih₁ ih₂
    refine ⟨?_, ?_⟩
    · rw [ih₁, slice_eq_take (by simp [toRead]; omega) (by simp [toRead]; omega), ← List.take_add,
        Nat.add_sub_cancel' (Nat.le_of_lt hlt)]
    · rw [ih₂, List.drop_drop, Nat.add_sub_cancel' (Nat.le_of_lt hlt)]
  | case4 b len hnone hle toRead b' hlt =>
    have hr := b.r.isLt
    have hs := sub_r_le_size hle fun h => hnone (.inl h)
    have hlen : len ≠ 0 := fun h0 => hnone (Or.inr h0)
    have hk : toRead = len := by simp [toRead] at hlt ⊢; omega
    obtain ⟨-, hc⟩ := drop_spec (b := b) (t := toRead) (by omega) (by simp [toRead]; omega)
    refine ⟨?_, ?_⟩
    · rw [slice_eq_take (by simp [toRead]; omega) (by simp [toRead]; omega), hk]
    · rw [show b'.contents = _ from hc, hk]

/-- `mark_as_read` drops as many bytes as asked, or all the ring holds, and says how many. -/
theorem markAsRead_spec (amount : ℕ) :
    (b.markAsRead amount).2 = min amount b.size ∧
      (b.markAsRead amount).1.contents = b.contents.drop amount := by
  unfold markAsRead
  dsimp only
  split_ifs with h0 hlt
  · subst h0
    simp
  · -- more than the ring holds: everything goes
    have hsize : (⟨b.data, b.w, b.w, false, nofun⟩ : Buffer n).size = 0 := size_of_eq rfl rfl
    refine ⟨by omega, ?_⟩
    rw [List.drop_eq_nil_of_le (by simp; omega), ← List.length_eq_zero_iff, length_contents, hsize]
  · obtain ⟨-, hc⟩ := drop_spec (b := b) (t := amount) (by omega) (by omega)
    exact ⟨by omega, hc⟩

/-! ## Appending nothing to an empty ring -/

/-- `append_data(&[])` on an empty ring copies nothing, moves `w` by nothing onto `r`, and so
marks the ring full. -/
theorem appendData_nil_of_empty (h : b.r = b.w) (hf : b.full = false) :
    (b.appendData []).2 = 0 ∧ (b.appendData []).1.size = n := by
  have hput : (b.put []).full = true := by simp [put, h]
  have happ : b.appendData [] = (b.put [], 0) := by
    rw [appendData]
    simp [hf, h]
  rw [happ]
  exact ⟨rfl, size_of_full hput⟩

/-- On a new ring of 4096 bytes, `append_data(&[])` returns 0 but leaves the ring full: it reports
data, and a read of 4096 bytes returns 4096 bytes that were never appended. -/
theorem append_empty_marks_full :
    ((new 4096 (by decide)).appendData []).2 = 0 ∧
      ((new 4096 (by decide)).appendData []).1.size = 4096 ∧
      ((new 4096 (by decide)).appendData []).1.hasData = true ∧
      (((new 4096 (by decide)).appendData []).1.readData 4096).2.length = 4096 := by
  obtain ⟨h₁, h₂⟩ := appendData_nil_of_empty (b := new 4096 (by decide)) rfl rfl
  refine ⟨h₁, h₂, ?_, ?_⟩
  · rw [hasData_iff, ne_eq, ← List.length_eq_zero_iff, length_contents, h₂]
    decide
  · rw [(readData_spec 4096).1, List.length_take, length_contents, h₂]
    rfl

/-! ## Peeking -/

/-- A ring that wraps past the end of the array, or is full, holds at least the segment from `r`
to the end, and has `w` at or before `r`. -/
theorem tail_le_size (hwrap : b.w < b.r ∨ b.full = true) : n - b.r ≤ b.size ∧ ¬ b.r < b.w := by
  rcases hwrap with hlt | hfull
  · rw [size_of_gt hlt]
    exact ⟨by omega, Fin.not_lt.2 hlt.le⟩
  · rw [size_of_full hfull, b.full_eq hfull]
    exact ⟨by omega, lt_irrefl _⟩

/-- On a ring that wraps past the end of the array, or is full, a peek that passes its first check
reads the segment from `r` to the end of the array over and over: it reports the whole buffer
read, and its byte `i` is the segment's byte `i mod (n - r)`. -/
theorem readDataTransientFrom_repeats (hwrap : b.w < b.r ∨ b.full = true) {offset : ℕ}
    (ho : offset ≤ n - b.r)
    (hstart : offset ≠ 0 ∨ ¬ ((((b.r : ℕ) + offset) &&& n) = b.w ∧ b.full = false)) (len : ℕ) :
    (b.readDataTransientFrom offset len).1 = len ∧
      ∀ i < len, (b.readDataTransientFrom offset len).2[i]? =
        (slice b.data b.r (n - b.r))[i % (n - b.r)]? := by
  have hr := b.r.isLt
  -- on the peek's own recursion: each call past the first is given a count, never 0
  fun_induction readDataTransientFrom b offset len with
  | case1 offset len hsize =>
    exact absurd hsize (not_lt.2 (ho.trans (tail_le_size hwrap).1))
  | case2 offset len hsize r hexit =>
    rcases hexit with ⟨hrw, hf, h0⟩ | h0
    · exact absurd ⟨hrw, hf⟩ (hstart.resolve_left (not_not.2 h0))
    · subst h0
      simp
  | case3 offset len hsize r hexit hgt =>
    exact absurd hgt (tail_le_size hwrap).2
  | case4 offset len hsize r hexit hle toRead hlt read rest hcall ih =>
    have hlt' : min (n - b.r) len < len := hlt
    have htr : toRead = n - b.r := by
      show min (n - b.r) len = n - b.r
      omega
    obtain ⟨ih₁, ih₂⟩ := ih (by omega) (Or.inl (by omega))
    rw [hcall] at ih₁ ih₂
    have hslen : (slice b.data b.r toRead).length = toRead := by
      simp [slice]
      omega
    refine ⟨by dsimp only; omega, fun i hi => ?_⟩
    dsimp only
    rcases lt_or_ge i toRead with hi' | hi'
    · rw [List.getElem?_append_left (by omega), getElem?_slice_of_lt hi' htr.le,
        Nat.mod_eq_of_lt (by omega)]
    · -- past the end of the array the next call reads the same segment again
      rw [List.getElem?_append_right (by omega), hslen, ih₂ _ (by dsimp only at ih₁; omega), htr,
        ← Nat.mod_eq_sub_mod (by omega)]
  | case5 offset len hsize r hexit hle toRead hlt =>
    have hlen : len ≤ n - b.r := by
      have : ¬ min (n - b.r) len < len := hlt
      omega
    have hk : toRead = len := by
      show min (n - b.r) len = len
      omega
    refine ⟨hk, fun i hi => ?_⟩
    dsimp only
    rw [Nat.mod_eq_of_lt (by omega), hk, getElem?_slice_of_lt hi hlen]

/-- The ring of four bytes that holds `3, 4, 5` from `r = 2`, wrapping after the `4`. -/
def wrappedRing : Buffer 4 := ⟨#v[5, 2, 3, 4], 2, 1, false, nofun⟩

/-- It is what appending `1, 2, 3` to a new ring, reading two bytes and appending `4, 5` leaves. -/
example : ((((new 4 (by decide)).appendData [1, 2, 3]).1.readData 2).1.appendData [4, 5]).1 =
    wrappedRing := by
  simp [new, put, wrappedRing, appendData, readData, copyIn, advance, slice]
  decide

/-- A peek into four bytes of the ring that holds three reports four, the segment `3, 4` twice. -/
theorem readDataTransientFrom_repeats_wrapped :
    (wrappedRing.readDataTransientFrom 0 4).1 = 4 ∧
      ∀ i < 4, (wrappedRing.readDataTransientFrom 0 4).2[i]? =
        (slice wrappedRing.data wrappedRing.r (4 - (wrappedRing.r : ℕ)))[i %
          (4 - (wrappedRing.r : ℕ))]? :=
  readDataTransientFrom_repeats (b := wrappedRing) (Or.inl (by decide)) (Nat.zero_le _)
    (Or.inr (by decide)) 4

/-! ## The ring as a queue -/

/-- The operations on a ring. -/
inductive BufOp
  | appendData (data : List UInt8)
  | readData (len : ℕ)
  | markAsRead (amount : ℕ)

/-- A bounded FIFO queue of capacity `n`, what a ring of `n` bytes is for: an append keeps what
fits, a read or a drop takes from the front. -/
inductive QueueStep (n : ℕ) : List UInt8 → BufOp → List UInt8 → Prop
  | appendData (q data : List UInt8) : QueueStep n q (.appendData data) (q ++ data.take (n - q.length))
  | readData (q : List UInt8) (len : ℕ) : QueueStep n q (.readData len) (q.drop len)
  | markAsRead (q : List UInt8) (amount : ℕ) : QueueStep n q (.markAsRead amount) (q.drop amount)

/-- One operation on the ring. -/
def exec (b : Buffer n) : BufOp → Option (Buffer n)
  | .appendData data => some (b.appendData data).1
  | .readData len => some (b.readData len).1
  | .markAsRead amount => some (b.markAsRead amount).1

/-- The operations the ring does as a queue: all but appending nothing to an empty ring. -/
def OpOk (b : Buffer n) : BufOp → Prop
  | .appendData data => data ≠ [] ∨ b.size ≠ 0
  | _ => True

theorem exec_simulates :
    Simulation.Simulates (fun (b : Buffer n) op => b.exec op) (fun (b : Buffer n) op => b.OpOk op)
      (QueueStep n) (fun _ => True) contents where
  inv_step _ _ _ _ _ _ := trivial
  abs_step b op b' _ hok h := by
    cases op with
    | appendData data =>
      obtain rfl := Option.some_injective _ h
      rw [(appendData_spec data hok).2, ← length_contents]
      exact .appendData _ _
    | readData len =>
      obtain rfl := Option.some_injective _ h
      rw [(readData_spec len).2]
      exact .readData _ _
    | markAsRead amount =>
      obtain rfl := Option.some_injective _ h
      rw [(markAsRead_spec amount).2]
      exact .markAsRead _ _

/-- Every run of ring operations that never appends nothing to an empty ring takes the contents
through a run of the queue. -/
theorem buffer_refines_queue {ops : List BufOp} {b b' : Buffer n}
    (hok : Simulation.Guarded (fun (b : Buffer n) op => b.exec op)
      (fun (b : Buffer n) op => b.OpOk op) b ops)
    (h : Simulation.run (fun (b : Buffer n) op => b.exec op) b ops = some b') :
    Simulation.Runs (QueueStep n) b.contents ops b'.contents :=
  (exec_simulates.run_runs ops b b' trivial hok h).2

/-- Three bytes appended to a new ring of four, then two read. -/
theorem buffer_refines_queue_appendRead :
    Simulation.Runs (QueueStep 4) (new 4 (by decide)).contents [.appendData [1, 2, 3], .readData 2]
      (((new 4 (by decide)).appendData [1, 2, 3]).1.readData 2).1.contents :=
  buffer_refines_queue ⟨Or.inl (by simp), fun _ _ => ⟨trivial, fun _ _ => trivial⟩⟩ rfl

/-- A read leaves the bytes it did not take. -/
theorem size_readData (len : ℕ) : (b.readData len).1.size = b.size - len := by
  rw [← length_contents, (readData_spec len).2, List.length_drop, length_contents]

theorem size_pos_of_hasData (h : b.hasData = true) : 0 < b.size := by
  rw [← length_contents]
  exact List.length_pos_of_ne_nil (hasData_iff.1 h)

/-- A read from an empty ring reads nothing and leaves it as it is. -/
theorem readData_of_empty (h : b.contents = []) (len : ℕ) : b.readData len = (b, []) := by
  have hno : b.hasData = false := by
    rw [← Bool.not_eq_true, hasData_iff, not_not, h]
  simp only [hasData, Bool.or_eq_false_iff, bne_eq_false_iff_eq] at hno
  rw [readData, if_pos (Or.inl hno)]

end Buffer

/-! ## Buffer queues -/

/-- `WaitQueue::wait_lock_for` with its condition `cond` evaluated under the lock: `some` of what
the call goes on to return (`k`) when the condition holds, `WouldBlock` for a call that may not
hang, and `none` for a task that sleeps until a notify makes the condition true. -/
def waitLockFor {α : Type} (noHang cond : Bool) (k : Except Fs.FsError α) :
    Option (Except Fs.FsError α) :=
  if cond then some k else if noHang then some (.error .wouldBlock) else none

/-- `BufferQueue`: a `Buffer` behind a lock, and the flags its users set. Its two wait queues are
not state of the model: a call whose wait condition is false is a `waitLockFor` that does not
return. -/
structure BufferQueue (n : ℕ) where
  buffer : Buffer n
  shuttingDown : Bool
  hasWriters : Bool
  hasReaders : Bool

namespace BufferQueue

variable {n : ℕ}

/-- `BufferQueue::new`. -/
def new (n : ℕ) (hn : 0 < n) (hasReaders hasWriters : Bool) : BufferQueue n :=
  ⟨Buffer.new n hn, false, hasWriters, hasReaders⟩

/-- `BufferQueue::set_has_readers`; the notify it sends wakes the sleepers of `waitLockFor`. -/
def setHasReaders (q : BufferQueue n) (has : Bool) : BufferQueue n := { q with hasReaders := has }

/-- `BufferQueue::set_has_writers`. -/
def setHasWriters (q : BufferQueue n) (has : Bool) : BufferQueue n := { q with hasWriters := has }

/-- `BufferQueue::has_data_locked`: data to read, or no writer left to wait for. -/
def hasDataLocked (q : BufferQueue n) : Bool := q.buffer.hasData || !q.hasWriters

/-- `BufferQueue::read_data_flags`, that is `read_data_from(0, buf, false, flags)`, into a buffer
of `len` bytes. -/
def readDataFlags (q : BufferQueue n) (len : ℕ) (noHang : Bool) :
    Option (Except Fs.FsError (BufferQueue n × List UInt8)) :=
  waitLockFor noHang (q.hasDataLocked || q.shuttingDown)
    (.ok ({ q with buffer := (q.buffer.readData len).1 }, (q.buffer.readData len).2))

/-- `BufferQueue::append_data_flags`. -/
def appendDataFlags (q : BufferQueue n) (data : List UInt8) (noHang : Bool) :
    Option (Except Fs.FsError (BufferQueue n × ℕ)) :=
  if data = [] then some (.ok (q, 0))
  else
    waitLockFor noHang (!q.hasReaders || 0 < q.buffer.availableSize)
      (if !q.hasReaders then .error .pipe
      else .ok ({ q with buffer := (q.buffer.appendData data).1 }, (q.buffer.appendData data).2))

/-- `BufferQueue::try_append_data`: append what fits now, without waiting; no data appends
nothing. -/
def tryAppendData (q : BufferQueue n) (data : List UInt8) : BufferQueue n × ℕ :=
  if data = [] then (q, 0)
  else ({ q with buffer := (q.buffer.appendData data).1 }, (q.buffer.appendData data).2)

variable {q : BufferQueue n}

/-- `try_append_data` appends what the room allows, and only touches the ring. -/
theorem tryAppendData_spec (data : List UInt8) :
    (q.tryAppendData data).1 = { q with buffer := (q.tryAppendData data).1.buffer } ∧
      (q.tryAppendData data).2 = min (n - q.buffer.size) data.length ∧
      (q.tryAppendData data).1.buffer.contents =
        q.buffer.contents ++ data.take (n - q.buffer.size) := by
  unfold tryAppendData
  split_ifs with h
  · subst h
    simp
  · exact ⟨rfl, Buffer.appendData_spec data (Or.inl h)⟩

/-- A read from an empty queue that is not shutting down returns, reading nothing, exactly when
no writer is flagged; otherwise it sleeps, or returns `WouldBlock` when it may not hang. -/
theorem readDataFlags_of_empty (h : q.buffer.contents = []) (hs : q.shuttingDown = false)
    (len : ℕ) (noHang : Bool) :
    q.readDataFlags len noHang =
      if q.hasWriters then waitLockFor noHang false (.ok (q, [])) else some (.ok (q, [])) := by
  have hno : q.buffer.hasData = false := by
    rw [← Bool.not_eq_true, Buffer.hasData_iff, not_not, h]
  -- the read itself reads nothing and leaves the queue as it is
  have hread : ({ q with buffer := (q.buffer.readData len).1 }, (q.buffer.readData len).2) =
      (q, []) := by
    rw [Buffer.readData_of_empty h]
  rw [readDataFlags, hread, hasDataLocked, hno, hs]
  cases q.hasWriters <;> simp [waitLockFor]

/-- A write of some bytes fails with `Pipe` exactly when no reader is flagged. -/
theorem appendDataFlags_eq_pipe_iff {data : List UInt8} (hd : data ≠ []) (noHang : Bool) :
    q.appendDataFlags data noHang = some (.error .pipe) ↔ q.hasReaders = false := by
  cases hr : q.hasReaders
  · simp [appendDataFlags, waitLockFor, hd, hr]
  · simp only [appendDataFlags, if_neg hd, hr, Bool.not_true, Bool.false_eq_true, if_false,
      Bool.false_or, waitLockFor]
    split_ifs <;> simp

end BufferQueue

end Cykusz.Kernel
