import Mathlib
import Cykusz.Lib.Align
import Cykusz.Mm.Virt.Entry

/-!
# The copy loops of the page cache

`CachedAccess::read_cached` and `update_cached_synced` (`kernel/fs/pcache.rs`) copy between a
buffer and the pages of a device one page at a time. Each turn of the loop takes the page of the
current offset from `get_mmap_page`. It copies from the offset within the page up to the end of the
page or of the buffer, whichever comes first, and then moves the offset to the start of the next
page. The loop stops early where `get_mmap_page` gives no page. The block reads and writes of ext2
all go through these two loops.

The pages are what `get_mmap_page(offset, true)` gives for each page number: `PAGE_SIZE` bytes, or
nothing where the device has no page. `Pages.byte` views the device as a flat partial array of
bytes, and the loops refine that view:
* `read_cached` copies the bytes from the offset on, up to the first byte that has no page
  (`read_cached_bytes`);
* `update_cached` writes the buffer over those bytes, so that a `read_cached` of the range after a
  write that copied everything gives the buffer back (`update_cached_bytes`).

The view takes the cache to be coherent with the device: a page written and then evicted is
written back and read again as it was, and neither loop sees another task's writes.
-/

namespace Cykusz.Fs.PageCache

open Function Align Cykusz.Virt

variable {α : Type*}

/-! ## Slices -/

/-- `dst[i..i + src.len()].copy_from_slice(src)`. -/
def copySlice (dst : List α) (i : ℕ) (src : List α) : List α :=
  dst.mapIdx fun j x => if i ≤ j then src[j - i]?.getD x else x

@[simp] theorem length_copySlice (dst : List α) (i : ℕ) (src : List α) :
    (copySlice dst i src).length = dst.length := List.length_mapIdx

theorem getElem?_copySlice_of_mem {dst : List α} {i : ℕ} {src : List α} {j : ℕ} (hi : i ≤ j)
    (hj : j < i + src.length) (hd : j < dst.length) : (copySlice dst i src)[j]? = src[j - i]? := by
  rw [copySlice, List.getElem?_mapIdx, List.getElem?_eq_getElem hd,
    List.getElem?_eq_getElem (show j - i < src.length by omega)]
  simp [hi]

theorem getElem?_copySlice_of_not_mem {dst : List α} {i : ℕ} {src : List α} {j : ℕ}
    (hj : ¬(i ≤ j ∧ j < i + src.length)) : (copySlice dst i src)[j]? = dst[j]? := by
  rw [copySlice, List.getElem?_mapIdx]
  cases dst[j]? with
  | none => rfl
  | some x =>
    by_cases hi : i ≤ j
    · have : src[j - i]? = none := List.getElem?_eq_none (by omega)
      simp [hi, this]
    · simp [hi]

/-! ## Pages -/

/-- The `PAGE_SIZE` bytes of a page, `data()`. -/
abbrev Page (α : Type*) := List.Vector α pageSize

/-- `data_mut()[i..i + src.len()].copy_from_slice(src)`. -/
def Page.write (page : Page α) (i : ℕ) (src : List α) : Page α :=
  ⟨copySlice page.toList i src, by rw [length_copySlice, List.Vector.toList_length]⟩

/-- The pages of a device by number, as `get_mmap_page(offset, true)` gives them: `none` where
`read_direct` reads nothing. -/
abbrev Pages (α : Type*) := ℕ → Option (Page α)

/-- The device as an array of bytes: the byte at `a` is in page `a / PAGE_SIZE`, at
`a % PAGE_SIZE`. -/
def Pages.byte (pages : Pages α) (a : ℕ) : Option α :=
  (pages (a / pageSize)).bind fun page => page.toList[a % pageSize]?

theorem pageSize_pos : 0 < pageSize := by decide

/-- Bytes within one page from `offset` are at the offset's page, further along it. -/
theorem div_mod_add {offset k : ℕ} (hk : offset % pageSize + k < pageSize) :
    (offset + k) / pageSize = offset / pageSize ∧
      (offset + k) % pageSize = offset % pageSize + k := by
  unfold pageSize at *
  omega

/-- `(offset + PAGE_SIZE).align(PAGE_SIZE)`: the start of the next page. -/
theorem roundDown_add_pageSize (offset : ℕ) :
    roundDown (offset + pageSize) pageSize = offset + (pageSize - offset % pageSize) := by
  unfold roundDown pageSize
  omega

theorem byte_of_page {pages : Pages α} {offset : ℕ} {page : Page α}
    (hp : pages (offset / pageSize) = some page) {k : ℕ} (hk : offset % pageSize + k < pageSize) :
    pages.byte (offset + k) = page.toList[offset % pageSize + k]? := by
  obtain ⟨hdiv, hmod⟩ := div_mod_add hk
  rw [Pages.byte, hdiv, hmod, hp, Option.bind_some]

/-- A write into page `p` changes the bytes it covers and no other. -/
theorem byte_update_write {pages : Pages α} {p : ℕ} {page : Page α} (i : ℕ) (src : List α)
    (a : ℕ) :
    Pages.byte (update pages p (some (page.write i src))) a =
      if a / pageSize = p ∧ i ≤ a % pageSize ∧ a % pageSize < i + src.length then
        src[a % pageSize - i]?
      else Pages.byte (update pages p (some page)) a := by
  unfold Pages.byte
  by_cases ha : a / pageSize = p
  · have hlt : a % pageSize < page.toList.length := by
      rw [List.Vector.toList_length]
      exact Nat.mod_lt _ pageSize_pos
    subst ha
    simp only [update_self, Option.bind_some, Page.write, true_and]
    split_ifs with hin
    · exact getElem?_copySlice_of_mem hin.1 hin.2 hlt
    · exact getElem?_copySlice_of_not_mem hin
  · simp only [update_of_ne ha, ha, false_and, if_false]

/-! ## `read_cached` -/

/-- The loop of `read_cached` at byte `offset` of the device, with `destOffset` bytes of `dest`
filled: the count of bytes copied, and the buffer. -/
def readLoop (pages : Pages α) (offset destOffset : ℕ) (dest : List α) : ℕ × List α :=
  if destOffset < dest.length then
    match pages (offset / pageSize) with
    | some page =>
      let pageOffset := offset % pageSize
      let toCopy := min (pageSize - pageOffset) (dest.length - destOffset)
      readLoop pages (roundDown (offset + pageSize) pageSize) (destOffset + toCopy)
        (copySlice dest destOffset ((page.toList.drop pageOffset).take toCopy))
    | none => (destOffset, dest)
  else (destOffset, dest)
termination_by dest.length - destOffset
decreasing_by
  have := Nat.mod_lt offset pageSize_pos
  simp only [length_copySlice]
  omega

/-- `CachedAccess::read_cached(offset, dest)`: `Some` of the count of bytes copied, and the
buffer. -/
def readCached (pages : Pages α) (offset : ℕ) (dest : List α) : Option ℕ × List α :=
  let r := readLoop pages offset 0 dest
  (some r.1, r.2)

/-- What a read into `dest` from place `d` on does, ending at place `n` with the buffer `out`: the
bytes from `offset` on fill `dest` from `d` to `n`, the other places are kept, and `n` is the end
of `dest` or a place whose byte has no page. -/
structure Filled (pages : Pages α) (offset d : ℕ) (dest : List α) (n : ℕ) (out : List α) :
    Prop where
  le_count : d ≤ n
  count_le : n ≤ dest.length
  length_eq : out.length = dest.length
  frame : ∀ j, j < d ∨ n ≤ j → out[j]? = dest[j]?
  bytes : ∀ j, d ≤ j → j < n → out[j]? = pages.byte (offset + (j - d))
  stop : n = dest.length ∨ pages ((offset + (n - d)) / pageSize) = none

theorem Filled.refl {pages : Pages α} {offset d : ℕ} {dest : List α} (hd : d ≤ dest.length)
    (hstop : d = dest.length ∨ pages (offset / pageSize) = none) :
    Filled pages offset d dest d dest where
  le_count := le_rfl
  count_le := hd
  length_eq := rfl
  frame _ _ := rfl
  bytes _ h₁ h₂ := absurd h₂ (not_lt.2 h₁)
  stop := by simpa using hstop

/-- A turn of the loop: a chunk of the offset's page copied to place `d`, then the rest of the
read from the start of the next page. -/
theorem Filled.chunk {pages : Pages α} {offset d : ℕ} {dest : List α} {page : Page α}
    (hp : pages (offset / pageSize) = some page) (hd : d < dest.length) {n : ℕ} {out : List α}
    (h : Filled pages (roundDown (offset + pageSize) pageSize)
      (d + min (pageSize - offset % pageSize) (dest.length - d))
      (copySlice dest d ((page.toList.drop (offset % pageSize)).take
        (min (pageSize - offset % pageSize) (dest.length - d)))) n out) :
    Filled pages offset d dest n out := by
  set t := min (pageSize - offset % pageSize) (dest.length - d) with ht
  have hmod := Nat.mod_lt offset pageSize_pos
  have hlen : ((page.toList.drop (offset % pageSize)).take t).length = t := by
    simp only [List.length_take, List.length_drop, List.Vector.toList_length]
    omega
  have hnext := roundDown_add_pageSize offset
  have hle := h.le_count
  have hcount : n ≤ dest.length := by simpa using h.count_le
  -- the rest of the read starts where the chunk ends, unless the chunk fills the buffer
  have hcont : n = dest.length ∨ t = pageSize - offset % pageSize := by omega
  refine ⟨by omega, hcount, by simpa using h.length_eq, fun j hj => ?_, fun j hj₁ hj₂ => ?_, ?_⟩
  · rw [h.frame j (by omega), getElem?_copySlice_of_not_mem (by rw [hlen]; omega)]
  · by_cases hjt : j < d + t
    · -- a byte of the chunk, from the offset's page
      rw [h.frame j (Or.inl hjt), getElem?_copySlice_of_mem hj₁ (by rw [hlen]; omega) (by omega),
        byte_of_page hp (by omega), List.getElem?_take_of_lt (by omega), List.getElem?_drop]
    · have ht' : t = pageSize - offset % pageSize := by omega
      rw [h.bytes j (by omega) hj₂, hnext, ← ht']
      congr 1
      omega
  · rcases h.stop with hn | hnone
    · exact Or.inl (by simpa using hn)
    · rcases hcont with hn | ht'
      · exact Or.inl hn
      · right
        rw [hnext, ← ht'] at hnone
        rwa [show offset + (n - d) = offset + t + (n - (d + t)) by omega]

/-- The loop of `read_cached` fills `dest` on from `destOffset` with the bytes from `offset` on. -/
theorem readLoop_filled (pages : Pages α) (offset destOffset : ℕ) (dest : List α)
    (hd : destOffset ≤ dest.length) :
    Filled pages offset destOffset dest (readLoop pages offset destOffset dest).1
      (readLoop pages offset destOffset dest).2 := by
  fun_induction readLoop pages offset destOffset dest with
  | case1 offset destOffset dest hlt page hp pageOffset toCopy ih =>
    exact Filled.chunk hp hlt (ih (by simp only [length_copySlice, toCopy]; omega))
  | case2 offset destOffset dest hlt hp => exact Filled.refl hd (Or.inr hp)
  | case3 offset destOffset dest hlt => exact Filled.refl hd (Or.inl (by omega))

/-- `read_cached` returns `Some(n)`: the first `n` bytes of the buffer are the bytes of the device
from the offset on, the rest are as they were, and it stops short of the end of the buffer only at
a byte that has no page. -/
theorem read_cached_bytes (pages : Pages α) (offset : ℕ) (dest : List α) :
    ∃ n, (readCached pages offset dest).1 = some n ∧ n ≤ dest.length ∧
      (readCached pages offset dest).2.length = dest.length ∧
      (∀ j < n, (readCached pages offset dest).2[j]? = pages.byte (offset + j)) ∧
      (∀ j, n ≤ j → (readCached pages offset dest).2[j]? = dest[j]?) ∧
      (n = dest.length ∨ pages ((offset + n) / pageSize) = none) := by
  have h := readLoop_filled pages offset 0 dest (Nat.zero_le _)
  simp only [readCached]
  refine ⟨_, rfl, h.count_le, h.length_eq, fun j hj => ?_, fun j hj => h.frame j (Or.inr hj), ?_⟩
  · simpa using h.bytes j (Nat.zero_le _) hj
  · simpa using h.stop

/-! ## `update_cached` -/

/-- The loop of `update_cached_synced` at byte `offset` of the device, with `copied` bytes of
`buf` written: the count of bytes written, and the pages. -/
def updateLoop (pages : Pages α) (offset copied : ℕ) (buf : List α) : ℕ × Pages α :=
  if copied < buf.length then
    match pages (offset / pageSize) with
    | some page =>
      let pageOffset := offset % pageSize
      let toCopy := min (pageSize - pageOffset) (buf.length - copied)
      updateLoop
        (update pages (offset / pageSize)
          (some (page.write pageOffset ((buf.drop copied).take toCopy))))
        (roundDown (offset + pageSize) pageSize) (copied + toCopy) buf
    | none => (copied, pages)
  else (copied, pages)
termination_by buf.length - copied
decreasing_by
  have := Nat.mod_lt offset pageSize_pos
  omega

/-- `CachedAccess::update_cached(offset, buf)`, and `write_cached`: `Some` of the count of bytes
written, and the pages. -/
def updateCached (pages : Pages α) (offset : ℕ) (buf : List α) : Option ℕ × Pages α :=
  let r := updateLoop pages offset 0 buf
  (some r.1, r.2)

/-- What a write of `buf` from place `c` on does, ending at place `n` with the pages `out`: the
bytes of the device from `offset` on take the bytes of `buf` from `c` to `n`, no other byte
changes, no page comes or goes, and `n` is the end of `buf` or a place whose byte has no page. -/
structure Written (pages : Pages α) (offset c : ℕ) (buf : List α) (n : ℕ) (out : Pages α) :
    Prop where
  le_count : c ≤ n
  count_le : n ≤ buf.length
  isSome_eq : ∀ i, (out i).isSome = (pages i).isSome
  bytes : ∀ a, out.byte a =
    if offset ≤ a ∧ a < offset + (n - c) then buf[c + (a - offset)]? else pages.byte a
  stop : n = buf.length ∨ pages ((offset + (n - c)) / pageSize) = none

theorem Written.refl {pages : Pages α} {offset c : ℕ} {buf : List α} (hc : c ≤ buf.length)
    (hstop : c = buf.length ∨ pages (offset / pageSize) = none) :
    Written pages offset c buf c pages where
  le_count := le_rfl
  count_le := hc
  isSome_eq _ := rfl
  bytes a := by rw [if_neg (by omega)]
  stop := by simpa using hstop

/-- A turn of the loop: a chunk of `buf` written into the offset's page from place `c`, then the
rest of the write from the start of the next page. -/
theorem Written.chunk {pages : Pages α} {offset c : ℕ} {buf : List α} {page : Page α}
    (hp : pages (offset / pageSize) = some page) (hc : c < buf.length) {n : ℕ} {out : Pages α}
    (h : Written (update pages (offset / pageSize) (some (page.write (offset % pageSize)
        ((buf.drop c).take (min (pageSize - offset % pageSize) (buf.length - c))))))
      (roundDown (offset + pageSize) pageSize)
      (c + min (pageSize - offset % pageSize) (buf.length - c)) buf n out) :
    Written pages offset c buf n out := by
  set t := min (pageSize - offset % pageSize) (buf.length - c) with ht
  have hmod := Nat.mod_lt offset pageSize_pos
  have hlen : ((buf.drop c).take t).length = t := by
    simp only [List.length_take, List.length_drop]
    omega
  have hnext := roundDown_add_pageSize offset
  have hkeep : update pages (offset / pageSize) (some page) = pages := by
    rw [update_eq_self_iff, hp]
  have hle := h.le_count
  have hcount := h.count_le
  -- the rest of the write starts where the chunk ends, unless the chunk ends the buffer
  have hcont : n = buf.length ∨ t = pageSize - offset % pageSize := by omega
  refine ⟨by omega, hcount, fun i => ?_, fun a => ?_, ?_⟩
  · rw [h.isSome_eq i]
    by_cases hi : i = offset / pageSize
    · subst hi
      simp [hp]
    · rw [update_of_ne hi]
  · rw [h.bytes a, byte_update_write, hkeep, hlen, hnext]
    by_cases hin : offset ≤ a ∧ a < offset + t
    · -- a byte of the chunk, in the offset's page
      obtain ⟨hdiv, hpos⟩ := div_mod_add (show offset % pageSize + (a - offset) < pageSize by omega)
      rw [Nat.add_sub_cancel' hin.1] at hdiv hpos
      rw [if_neg (by omega), if_pos ⟨hdiv, by omega, by omega⟩, if_pos (by omega),
        List.getElem?_take_of_lt (by omega), List.getElem?_drop]
      congr 1
      omega
    · have hout : ¬(a / pageSize = offset / pageSize ∧ offset % pageSize ≤ a % pageSize ∧
          a % pageSize < offset % pageSize + t) := by
        unfold pageSize at *
        omega
      rw [if_neg hout]
      by_cases hrest : offset + (pageSize - offset % pageSize) ≤ a ∧
          a < offset + (pageSize - offset % pageSize) + (n - (c + t))
      · -- a byte of the pages after, which the rest of the write covers
        have ht' : t = pageSize - offset % pageSize := by omega
        rw [if_pos hrest, if_pos (by omega)]
        congr 1
        omega
      · rw [if_neg hrest, if_neg (by omega)]
  · rcases h.stop with hn | hnone
    · exact Or.inl hn
    · rcases hcont with hn | ht'
      · exact Or.inl hn
      · right
        rw [hnext, ← ht'] at hnone
        have hne : (offset + t + (n - (c + t))) / pageSize ≠ offset / pageSize := by
          intro heq
          rw [heq, update_self] at hnone
          cases hnone
        rw [update_of_ne hne] at hnone
        rwa [show offset + (n - c) = offset + t + (n - (c + t)) by omega]

/-- The loop of `update_cached_synced` writes `buf` from `copied` on over the bytes from `offset`
on. -/
theorem updateLoop_written (pages : Pages α) (offset copied : ℕ) (buf : List α)
    (hc : copied ≤ buf.length) :
    Written pages offset copied buf (updateLoop pages offset copied buf).1
      (updateLoop pages offset copied buf).2 := by
  fun_induction updateLoop pages offset copied buf with
  | case1 pages offset copied hlt page hp pageOffset toCopy ih =>
    exact Written.chunk hp hlt (ih (by simp only [toCopy]; omega))
  | case2 pages offset copied hlt hp => exact Written.refl hc (Or.inr hp)
  | case3 pages offset copied hlt => exact Written.refl hc (Or.inl (by omega))

/-- A read of `buf.length` bytes from `offset` gives `buf` back when the device's bytes there are
those of `buf`. -/
theorem readCached_of_bytes {pages : Pages α} {offset : ℕ} {buf dest : List α}
    (hbytes : ∀ j < buf.length, pages.byte (offset + j) = buf[j]?)
    (hdest : dest.length = buf.length) :
    readCached pages offset dest = (some buf.length, buf) := by
  obtain ⟨n, hn, hle, hlen, hread, -, hstop⟩ := read_cached_bytes pages offset dest
  -- every byte of the range has a page, so the read does not stop short
  have hall : n = buf.length := by
    by_contra hne
    have hlt : n < buf.length := by omega
    rcases hstop with h | hnone
    · omega
    · have hb := hbytes n hlt
      rw [Pages.byte, hnone, Option.bind_none, List.getElem?_eq_getElem hlt] at hb
      cases hb
  refine Prod.ext (hn.trans (by rw [hall])) (List.ext_getElem? fun j => ?_)
  by_cases hj : j < n
  · rw [hread j hj, hbytes j (by omega)]
  · rw [List.getElem?_eq_none (by omega)]
    exact (List.getElem?_eq_none (show buf.length ≤ j by omega)).symm

/-- `update_cached` returns `Some(n)`: the bytes of the device from the offset on take the first
`n` bytes of the buffer, no other byte changes, and it stops short of the end of the buffer only at
a byte that has no page. When it writes all of the buffer, `read_cached` of the range gives the
buffer back. -/
theorem update_cached_bytes (pages : Pages α) (offset : ℕ) (buf : List α) :
    ∃ n, (updateCached pages offset buf).1 = some n ∧ n ≤ buf.length ∧
      (∀ a, (updateCached pages offset buf).2.byte a =
        if offset ≤ a ∧ a < offset + n then buf[a - offset]? else pages.byte a) ∧
      (n = buf.length ∨ pages ((offset + n) / pageSize) = none) ∧
      (n = buf.length → ∀ dest : List α, dest.length = buf.length →
        readCached (updateCached pages offset buf).2 offset dest = (some buf.length, buf)) := by
  have h := updateLoop_written pages offset 0 buf (Nat.zero_le _)
  simp only [updateCached]
  have hbytes : ∀ a, (updateLoop pages offset 0 buf).2.byte a =
      if offset ≤ a ∧ a < offset + (updateLoop pages offset 0 buf).1 then buf[a - offset]?
      else pages.byte a := by
    intro a
    simpa using h.bytes a
  refine ⟨_, rfl, h.count_le, hbytes, by simpa using h.stop, fun hall dest hdest => ?_⟩
  refine readCached_of_bytes (fun j hj => ?_) hdest
  rw [hbytes, if_pos (by omega), Nat.add_sub_cancel_left]

end Cykusz.Fs.PageCache
