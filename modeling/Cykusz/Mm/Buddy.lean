import Mathlib
import Cykusz.Lib.Align

/-!
# The physical buddy allocator

A model of `BuddyAlloc` (`arch/x86_64/mm/phys/buddy.rs`). The allocator manages the physical
memory `[start, end)` in blocks of seven orders, `BSIZE[o] = 4 KiB · 2 ^ o`. For each order a
bitmap has one bit per block slot; the slot of an address is counted from `start`
(`get_byte_bit`), while the block a bit stands for is counted from `start` rounded up to the
block size (`find_free`), and buddies are found by absolute alignment (`get_buddy`).

Conventions of the model:
* addresses are natural numbers; a `PhysAddr` subtraction that would go below zero is a panic
  (`none`), as in the checked build, and no address computed here comes near `2 ^ 64`;
* a bitmap `&mut [u64]` of `w` words is the list of its `64 w` bits, word `byte` bit `bit` at
  position `byte * 64 + bit`, so the slice index panics exactly when that position is past the
  end of the list;
* every operation returns `none` where the code panics (a failed `assert!`, an index out of
  bounds, an arithmetic underflow).
-/

namespace Cykusz.Buddy

open Align

/-- `BMTYPE_BITS`: the bits of one bitmap word. -/
def bmtypeBits : ℕ := 64

/-- `BUDDY_COUNT`: the number of orders. -/
def buddyCount : ℕ := 7

/-- An order, an index into `BSIZE` and `buddies`. -/
abbrev Order := Fin buddyCount

instance : NeZero buddyCount := ⟨by decide⟩

/-- `BSIZE`: the block size of each order. -/
def bsize : Order → ℕ := ![0x1000, 0x2000, 0x4000, 0x8000, 0x10000, 0x20000, 0x40000]

/-- `PhysAddr::align_down` for a power-of-two alignment: the mask `!(align - 1)` clears the low
bits, which rounds down to a multiple of `align`. -/
def alignDown (addr align : ℕ) : ℕ := roundDown addr align

/-- `PhysAddr::align_up`: `align_down(addr + align - 1)`. -/
def alignUp (addr align : ℕ) : ℕ := alignDown (addr + align - 1) align

/-- The allocator's state. `ranges` holds the `num_ranges` ranges added so far, oldest first. -/
structure BuddyAlloc where
  start : ℕ
  «end» : ℕ
  buddies : Order → List Bool
  freecnt : Order → ℕ
  ranges : List (ℕ × ℕ)

namespace BuddyAlloc

/-- `BuddyAlloc::new`. -/
def new : BuddyAlloc where
  start := 0
  «end» := 0
  buddies := fun _ => []
  freecnt := fun _ => 0
  ranges := []

/-- `BuddyAlloc::init`: a zeroed bitmap of `((size / bs) + 63) / 64` words for each order. -/
def init (self : BuddyAlloc) (start «end» : ℕ) : Option BuddyAlloc :=
  if start ≤ «end» then
    let size := «end» - start
    some { self with
      start := start
      «end» := «end»
      buddies := fun o =>
        List.replicate (((size / bsize o) + bmtypeBits - 1) / bmtypeBits * bmtypeBits) false }
  else none

/-- `find_ord`: the largest order whose block fits in `max_size` and to which `addr` is
aligned, or order `0` when there is none. -/
def findOrd (addr maxSize : ℕ) : Order :=
  match (List.finRange buddyCount).reverse.find?
      (fun ord => !(bsize ord > maxSize) && (bsize ord - 1) &&& addr == 0) with
  | some ord => ord
  | none => ⟨0, by decide⟩

/-- `get_byte_bit`: the word and the bit of the slot of `addr` in the bitmap of `order`; the
offset `addr - start` panics below `start`. -/
def getByteBit (self : BuddyAlloc) (addr : ℕ) (order : Order) : Option (ℕ × ℕ) :=
  if self.start ≤ addr then
    let id := (addr - self.start) / bsize order
    some (id / bmtypeBits, id % bmtypeBits)
  else none

/-- `set_bit`: sets the slot of `addr` and counts it when it was clear; returns whether it was. -/
def setBit (self : BuddyAlloc) (addr : ℕ) (order : Order) : Option (Bool × BuddyAlloc) := do
  let (byte, bit) ← self.getByteBit addr order
  let p := byte * bmtypeBits + bit
  let b ← (self.buddies order)[p]?
  if b = false then
    some (true, { self with
      buddies := Function.update self.buddies order ((self.buddies order).set p true)
      freecnt := Function.update self.freecnt order (self.freecnt order + 1) })
  else some (false, self)

/-- `clear_bit`: clears the slot of `addr` and uncounts it when it was set; an address below
`start` is refused. The count's decrement panics at zero. -/
def clearBit (self : BuddyAlloc) (addr : ℕ) (order : Order) : Option (Bool × BuddyAlloc) :=
  if addr < self.start then some (false, self)
  else do
    let (byte, bit) ← self.getByteBit addr order
    let p := byte * bmtypeBits + bit
    let b ← (self.buddies order)[p]?
    if b = true then
      if self.freecnt order = 0 then none
      else some (true, { self with
        buddies := Function.update self.buddies order ((self.buddies order).set p false)
        freecnt := Function.update self.freecnt order (self.freecnt order - 1) })
    else some (false, self)

/-- The `while rem > 0` loop of `add_range`: mark the largest aligned block that fits, then
move past it. Each pass consumes at least one byte of `rem`, so `rem` passes (`fuel`) are
enough; running out of them is not a state the code reaches. -/
def addRangeLoop (self : BuddyAlloc) (cur rem : ℕ) : ℕ → Option BuddyAlloc
  | 0 => if rem > 0 then none else some self
  | fuel + 1 =>
    if rem > 0 then
      let ord := findOrd cur rem
      let size := bsize ord
      match self.setBit cur ord with
      | some (true, s) =>
        -- `rem -= size` underflows when no block fits the rest of the range
        if size ≤ rem then s.addRangeLoop (cur + size) (rem - size) fuel else none
      | _ => none
    else some self

/-- `add_range`: marks `[start, end)` free and records it, inside the managed memory and while
fewer than `16` ranges are recorded. -/
def addRange (self : BuddyAlloc) (start «end» : ℕ) : Option BuddyAlloc :=
  if start ≥ self.start ∧ «end» ≤ self.«end» ∧ self.ranges.length < 16 ∧ start ≤ «end» then
    (self.addRangeLoop start («end» - start) («end» - start)).map fun s =>
      { s with ranges := s.ranges ++ [(start, «end»)] }
  else none

/-- `find_free`: clears the first set bit of the bitmap of `idx` (the lowest bit of the first
non-zero word) and returns the block it stands for. A bitmap with no set bit panics. -/
def findFree (self : BuddyAlloc) (idx : Order) : Option (ℕ × BuddyAlloc) :=
  match (self.buddies idx).findIdx? (· == true) with
  | none => none
  | some j =>
    if self.freecnt idx = 0 then none
    else
      let (i, ib) := (j / bmtypeBits, j % bmtypeBits)
      some (alignUp self.start (bsize idx) + bsize idx * bmtypeBits * i + bsize idx * ib,
        { self with
          buddies := Function.update self.buddies idx ((self.buddies idx).set j false)
          freecnt := Function.update self.freecnt idx (self.freecnt idx - 1) })

/-- The `for ri in (0..=i).rev()` loop of `alloc`: the part of the found block past the
requested one (`rem` bytes) is marked free again, the largest piece first. -/
def splitLoop (res size : ℕ) : List Order → ℕ → BuddyAlloc → Option BuddyAlloc
  | [], _, s => some s
  | ri :: ris, rem, s =>
    let si := bsize ri
    if rem ≥ si then
      match s.setBit (res + (rem - si) + size) ri with
      | some (true, s') => splitLoop res size ris (rem - si) s'
      | _ => none
    else splitLoop res size ris rem s

/-- The orders `0, …, i` from the largest down: `(0..=i).rev()`. -/
def ordersDownFrom (i : Order) : List Order := ((List.finRange buddyCount).take (i.val + 1)).reverse

/-- The search loop of `alloc` over the orders from the requested one up: the first order with a
free block gives it, split down to the requested `size`. -/
def allocLoop (size : ℕ) : List Order → BuddyAlloc → Option (Option ℕ × BuddyAlloc)
  | [], s => some (none, s)
  | i :: is, s =>
    if s.freecnt i > 0 then
      match s.findFree i with
      | none => none
      | some (res, s1) =>
        let rem := bsize i - size
        let r := if rem > 0 then splitLoop res size (ordersDownFrom i) rem s1 else some s1
        r.map fun s2 => (some res, s2)
    else allocLoop size is s

/-- `alloc`: a block of `order`, or `none` when no order at or above it has a free block. An
order past `BSIZE` panics. -/
def alloc (self : BuddyAlloc) (order : ℕ) : Option (Option ℕ × BuddyAlloc) :=
  if h : order < buddyCount then
    allocLoop (bsize ⟨order, h⟩) ((List.finRange buddyCount).drop order) self
  else none

/-- `get_buddy`: the other half of the block of twice the size containing `addr`. -/
def getBuddy (addr : ℕ) (order : Order) : ℕ :=
  let size := bsize order
  let base := alignDown addr (size * 2)
  if base = addr then addr + size else base

/-- `in_range`: some recorded range starts at or below `addr` and ends strictly past the end of
its block. -/
def inRange (self : BuddyAlloc) (addr : ℕ) (order : Order) : Bool :=
  let «end» := addr + bsize order
  (self.ranges.find? fun (s, e) => decide (s ≤ addr) && decide (e > «end»)).isSome

/-- The merge loop of `dealloc` over the orders from the freed one up: while the buddy is free,
take it out and move to the merged block of the next order; otherwise mark the block free. -/
def deallocLoop (addr : ℕ) : List Order → BuddyAlloc → Option BuddyAlloc
  | [], s => some s
  | order :: os, s =>
    if order.val < buddyCount - 1 then
      let buddy := getBuddy addr order
      match s.clearBit buddy order with
      | none => none
      | some (true, s') => deallocLoop (min addr buddy) os s'
      | some (false, s') => (s'.setBit addr order).map Prod.snd
    else (s.setBit addr order).map Prod.snd

/-- `dealloc`: frees the block of `order` at `addr` when `in_range` accepts it, and does
nothing otherwise. An order past `BSIZE` panics. -/
def dealloc (self : BuddyAlloc) (addr order : ℕ) : Option BuddyAlloc :=
  if h : order < buddyCount then
    if !self.inRange addr ⟨order, h⟩ then some self
    else deallocLoop addr ((List.finRange buddyCount).drop order) self
  else none

/-- `free_mem`: the bytes of all free blocks. -/
def freeMem (self : BuddyAlloc) : ℕ :=
  (List.finRange buddyCount).foldl (fun acc i => acc + self.freecnt i * bsize i) 0

/-- `used_mem`. -/
def usedMem (self : BuddyAlloc) : ℕ := (self.«end» - self.start) - self.freeMem

end BuddyAlloc

end Cykusz.Buddy
