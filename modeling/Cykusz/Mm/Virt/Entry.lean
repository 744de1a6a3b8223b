import Mathlib
import Cykusz.Lib.BitField

/-!
# Page-table entries

A model of `Entry` (`arch/x86_64/mm/virt/entry.rs`), the 64 bits of one entry of an x86-64 page
table: flags in bits 0–8 and 63, the address of a frame or of the next table in bits 12–51, and
in bits 52–62 the counter the kernel keeps in the entries above the last level. The reference
counting that `set_frame` and `unref_phys_page` do on physical pages lives with the memory in
`Cykusz.Mm.Virt.Table`; here are the bit operations, the kernel's page flags and the page indices.

Each write touches one field, and the lemmas say which fields it leaves alone: `withFrame` (the bits
of `set_frame`) keeps flags and counter, `setFlags` keeps address and counter, and `setEntryCount`
keeps the address and the low flags but carries a count of `2048` into `NO_EXECUTE`
(`getLsbD_setEntryCount_63`).
-/

namespace Cykusz.Virt

open BitField

/-- An entry: the `usize` that the bit flags `Entry` wrap. -/
abbrev Entry := BitVec 64

namespace Entry

/-- `PRESENT`. -/
def present : Entry := 1 <<< 0
/-- `WRITABLE`. -/
def writable : Entry := 1 <<< 1
/-- `USER`. -/
def user : Entry := 1 <<< 2
/-- `WRT_THROUGH`. -/
def wrtThrough : Entry := 1 <<< 3
/-- `NO_CACHE`. -/
def noCache : Entry := 1 <<< 4
/-- `HUGE_PAGE`; in an entry of the last level the same bit selects the PAT entry. -/
def hugePage : Entry := 1 <<< 7
/-- `NO_EXECUTE`. -/
def noExecute : Entry := 1 <<< 63

/-- `ADDRESS_MASK`. -/
def addressMask : Entry := 0x000f_ffff_ffff_f000
/-- `COUNTER_MASK`. -/
def counterMask : Entry := 0x7ff0_0000_0000_0000
/-- `FLAG_MASK`. -/
def flagMask : Entry := 0x80000000000001FF

/-- `contains`: every bit of `f` is set. -/
def contains (e f : Entry) : Bool := e &&& f == f

/-- `insert`. -/
def insert (e f : Entry) : Entry := e ||| f

/-- `remove`. -/
def remove (e f : Entry) : Entry := e &&& ~~~f

/-- `address`: the address field, a physical address. -/
def address (e : Entry) : ℕ := (e &&& addressMask).toNat

/-- The bits `set_frame` writes: the address field cleared and the frame's address or-ed in. -/
def withFrame (e : Entry) (frame : ℕ) : Entry := e &&& ~~~addressMask ||| BitVec.ofNat 64 frame

/-- `set_flags`: the flag field replaced by the flags under `FLAG_MASK`. -/
def setFlags (e flags : Entry) : Entry := e &&& ~~~flagMask ||| flags &&& flagMask

/-- `get_entry_count`. -/
def getEntryCount (e : Entry) : ℕ := ((e &&& counterMask) >>> 52).toNat

/-- `set_entry_count`: `count << 52` is or-ed in whole, so its bits past the counter are kept. -/
def setEntryCount (e : Entry) (count : ℕ) : Entry :=
  e &&& ~~~counterMask ||| BitVec.ofNat 64 count <<< 52

/-- `inc_entry_count`. -/
def incEntryCount (e : Entry) : Entry := e.setEntryCount (e.getEntryCount + 1)

/-- `dec_entry_count`: `assert_ne!(c, 0)` panics on a zero count. -/
def decEntryCount (e : Entry) : Option Entry :=
  if e.getEntryCount = 0 then none else some (e.setEntryCount (e.getEntryCount - 1))

end Entry

/-- `virt::PageFlags`: the flags the kernel asks of a mapping. -/
structure PageFlags where
  writable : Bool
  user : Bool
  noExecute : Bool
  wrtThrough : Bool
  noCache : Bool
  writeCombine : Bool
  writeProtect : Bool
deriving DecidableEq, Repr

namespace Entry

/-- `pat::from_kernel_flags(false, flags)`: the caching bits of a page of the last level, where the
PAT bit is `HUGE_PAGE`. -/
def patFromKernelFlags (flags : PageFlags) : Entry :=
  if flags.writeCombine then hugePage
  else if flags.writeProtect then hugePage ||| wrtThrough
  else (if flags.wrtThrough then wrtThrough else 0) ||| (if flags.noCache then noCache else 0)

/-- `Entry::from_kernel_flags`. -/
def fromKernelFlags (flags : PageFlags) : Entry :=
  (if flags.noExecute then noExecute else 0) ||| (if flags.user then user else 0) |||
    (if flags.writable then writable else 0) ||| patFromKernelFlags flags

end Entry

/-- `PAGE_SIZE`. -/
def pageSize : ℕ := 4096

/-- `Page::new(virt).number`. -/
def pageNumber (virt : ℕ) : ℕ := virt / pageSize

/-- `Frame::new(phys).address()`: the address rounded down to its frame. -/
def frameOf (phys : ℕ) : ℕ := phys / pageSize * pageSize

/-- The nine bits of a page number from bit `shift` on: `(number >> shift) & 0o777`. -/
def tableIndex (number shift : ℕ) : Fin 512 :=
  ⟨(number >>> shift) &&& 0o777, Nat.lt_of_le_of_lt Nat.and_le_right (by decide)⟩

/-- `p4_index`. -/
def p4Index (number : ℕ) : Fin 512 := tableIndex number 27
/-- `p3_index`. -/
def p3Index (number : ℕ) : Fin 512 := tableIndex number 18
/-- `p2_index`. -/
def p2Index (number : ℕ) : Fin 512 := tableIndex number 9
/-- `p1_index`. -/
def p1Index (number : ℕ) : Fin 512 := tableIndex number 0

namespace Entry

/-! ## Which fields each write keeps -/

variable {e f : Entry} {frame count : ℕ}

/-- The low flags: bits 0–8, `FLAG_MASK` without `NO_EXECUTE`. -/
def lowFlags : Entry := 0x1FF

/-- A frame address the address field holds exactly: aligned and below `2 ^ 52`. -/
def Fits (frame : ℕ) : Prop := frame % pageSize = 0 ∧ frame < 2 ^ 52

theorem getLsbD_addressMask (i : ℕ) : addressMask.getLsbD i = decide (12 ≤ i ∧ i < 52) := by
  rcases Nat.lt_or_ge i 64 with hi | hi
  · have hall : ∀ j : Fin 64, addressMask.getLsbD j = decide (12 ≤ j.val ∧ j.val < 52) := by
      decide
    exact hall ⟨i, hi⟩
  · rw [BitVec.getLsbD_of_ge _ _ hi]
    simp only [false_eq_decide_iff, not_and, not_lt]
    omega

theorem Fits.testBit_eq_false {i : ℕ} (h : Fits frame) (hi : i < 12 ∨ 52 ≤ i) :
    frame.testBit i = false := by
  rcases hi with hi | hi
  · have hmod := Nat.testBit_mod_two_pow frame 12 i
    rw [show frame % 2 ^ 12 = 0 from h.1, Nat.zero_testBit] at hmod
    simpa [hi] using hmod.symm
  · exact Nat.testBit_lt_two_pow (h.2.trans_le (Nat.pow_le_pow_right (by decide) hi))

/-- An address that fits sets no bit outside the address field. -/
theorem ofNat_and_not_addressMask (h : Fits frame) :
    BitVec.ofNat 64 frame &&& ~~~addressMask = 0 := by
  apply BitVec.eq_of_getLsbD_eq
  intro i hi
  simp only [BitVec.getLsbD_and, BitVec.getLsbD_not, BitVec.getLsbD_ofNat, getLsbD_addressMask,
    hi, decide_true, Bool.true_and]
  by_cases hin : 12 ≤ i ∧ i < 52
  · simp [hin]
  · rw [h.testBit_eq_false (by omega)]
    simp

theorem getLsbD_counterMask (i : ℕ) : counterMask.getLsbD i = decide (52 ≤ i ∧ i < 63) := by
  rcases Nat.lt_or_ge i 64 with hi | hi
  · have hall : ∀ j : Fin 64, counterMask.getLsbD j = decide (52 ≤ j.val ∧ j.val < 63) := by
      decide
    exact hall ⟨i, hi⟩
  · rw [BitVec.getLsbD_of_ge _ _ hi]
    simp only [false_eq_decide_iff, not_and, not_lt]
    omega

theorem address_zero : (0 : Entry).address = 0 := rfl

theorem getEntryCount_zero : (0 : Entry).getEntryCount = 0 := rfl

theorem contains_zero_present : (0 : Entry).contains present = false := by decide

/-- Tests of bits inside a field agree on entries that agree on the field. -/
theorem contains_eq_of_and_eq {e' m : Entry} (h : e' &&& m = e &&& m) (hf : f &&& ~~~m = 0) :
    e'.contains f = e.contains f := by
  unfold contains
  rw [and_eq_of_and_not hf, h, ← and_eq_of_and_not hf]

theorem address_eq_of_and_eq {e' : Entry} (h : e' &&& addressMask = e &&& addressMask) :
    e'.address = e.address := by
  unfold address
  rw [h]

theorem getEntryCount_eq_of_and_eq {e' : Entry} (h : e' &&& counterMask = e &&& counterMask) :
    e'.getEntryCount = e.getEntryCount := by
  unfold getEntryCount
  rw [h]

/-! ### `set_frame` -/

theorem ofNat_and_eq_zero (h : Fits frame) {m : Entry} (hm : addressMask &&& m = 0) :
    BitVec.ofNat 64 frame &&& m = 0 :=
  and_eq_zero_of_and_not (ofNat_and_not_addressMask h) hm

theorem withFrame_and_of_disjoint (h : Fits frame) {m : Entry} (hm : addressMask &&& m = 0) :
    e.withFrame frame &&& m = e &&& m := by
  rw [withFrame, clearOr_and_of_disjoint hm, ofNat_and_eq_zero h hm]
  simp

theorem address_withFrame (h : Fits frame) : (e.withFrame frame).address = frame := by
  have hlt : frame < 2 ^ 64 := h.2.trans (by decide)
  rw [address, withFrame, clearOr_and_self, and_eq_self (ofNat_and_not_addressMask h),
    BitVec.toNat_ofNat, Nat.mod_eq_of_lt hlt]

theorem withFrame_and_flagMask (h : Fits frame) :
    e.withFrame frame &&& flagMask = e &&& flagMask :=
  withFrame_and_of_disjoint h (by decide)

theorem getEntryCount_withFrame (h : Fits frame) :
    (e.withFrame frame).getEntryCount = e.getEntryCount :=
  getEntryCount_eq_of_and_eq (withFrame_and_of_disjoint h (by decide))

/-! ### `set_flags` -/

theorem setFlags_and_of_disjoint {m : Entry} (hm : flagMask &&& m = 0) :
    e.setFlags f &&& m = e &&& m := by
  rw [setFlags, clearOr_and_of_disjoint hm, BitVec.and_assoc, hm]
  simp

theorem setFlags_and_flagMask : e.setFlags f &&& flagMask = f &&& flagMask := by
  rw [setFlags, clearOr_and_self, BitVec.and_assoc, BitVec.and_self]

theorem address_setFlags : (e.setFlags f).address = e.address :=
  address_eq_of_and_eq (setFlags_and_of_disjoint (by decide))

theorem getEntryCount_setFlags : (e.setFlags f).getEntryCount = e.getEntryCount :=
  getEntryCount_eq_of_and_eq (setFlags_and_of_disjoint (by decide))

/-- A test of flag bits after `set_flags` tests the flags written. -/
theorem contains_setFlags {x : Entry} (hx : x &&& ~~~flagMask = 0) :
    (e.setFlags f).contains x = f.contains x :=
  contains_eq_of_and_eq setFlags_and_flagMask hx

theorem contains_withFrame (h : Fits frame) {x : Entry} (hx : x &&& ~~~flagMask = 0) :
    (e.withFrame frame).contains x = e.contains x :=
  contains_eq_of_and_eq (withFrame_and_flagMask h) hx

/-- The bits outside the address and the flags: a page's entry keeps none. -/
theorem setFlags_withFrame_and_rest (h : Fits frame)
    (he : e &&& ~~~(addressMask ||| flagMask) = 0) :
    (e.withFrame frame).setFlags f &&& ~~~(addressMask ||| flagMask) = 0 := by
  rw [setFlags, clearOr_and_of_disjoint (by decide), withFrame, clearOr_and_of_disjoint (by decide),
    he, ofNat_and_eq_zero h (by decide), BitVec.and_assoc, show flagMask &&& ~~~(addressMask |||
    flagMask) = 0 by decide]
  simp

theorem contains_or_left {x : Entry} : (f ||| x).contains f = true := by
  simp only [contains, beq_iff_eq]
  ext i hi
  simp only [BitVec.getElem_and, BitVec.getElem_or]
  cases f[i] <;> simp

theorem contains_or_right {x : Entry} : (x ||| f).contains f = true := by
  rw [BitVec.or_comm]
  exact contains_or_left

/-- A present page's entry as the 4 KiB operations write it: the frame's address and the flags
under `FLAG_MASK`, nothing else. -/
def pageEntry (frame : ℕ) (flags : Entry) : Entry := BitVec.ofNat 64 frame ||| flags &&& flagMask

/-- On an entry with no bits outside the address and the flags, `set_frame_flags` writes the
same entry whatever was there. -/
theorem setFlags_withFrame_of_clean (h : Fits frame)
    (he : e &&& ~~~(addressMask ||| flagMask) = 0) :
    (e.withFrame frame).setFlags f = pageEntry frame f := by
  apply BitVec.eq_of_getLsbD_eq
  intro i hi
  have hei : (e.getLsbD i && !(addressMask.getLsbD i || flagMask.getLsbD i)) = false := by
    simpa [hi] using congrArg (fun y : Entry => y.getLsbD i) he
  have hdisj : (addressMask.getLsbD i && flagMask.getLsbD i) = false := by
    have hall : ∀ j : Fin 64, (addressMask.getLsbD j && flagMask.getLsbD j) = false := by decide
    exact hall ⟨i, hi⟩
  -- the frame's bits lie inside the address field
  have hfr : (BitVec.ofNat 64 frame).getLsbD i = true → addressMask.getLsbD i = true := by
    intro hb
    rw [getLsbD_addressMask]
    rw [BitVec.getLsbD_ofNat] at hb
    by_contra hn
    have : frame.testBit i = false := h.testBit_eq_false (by simp at hn; omega)
    simp [this] at hb
  simp only [setFlags, withFrame, pageEntry, BitVec.getLsbD_or, BitVec.getLsbD_and,
    BitVec.getLsbD_not, hi, decide_true, Bool.true_and]
  cases ha : addressMask.getLsbD i <;> cases hf : flagMask.getLsbD i <;>
    cases hE : e.getLsbD i <;> cases hO : (BitVec.ofNat 64 frame).getLsbD i <;> simp_all

theorem address_pageEntry (h : Fits frame) : (pageEntry frame f).address = frame := by
  rw [← setFlags_withFrame_of_clean (e := 0) h (by decide), address_setFlags, address_withFrame h]

theorem pageEntry_and_flagMask (h : Fits frame) : pageEntry frame f &&& flagMask = f &&& flagMask := by
  rw [← setFlags_withFrame_of_clean (e := 0) h (by decide), setFlags_and_flagMask]

theorem contains_pageEntry (h : Fits frame) {x : Entry} (hx : x &&& ~~~flagMask = 0) :
    (pageEntry frame f).contains x = f.contains x := by
  rw [← setFlags_withFrame_of_clean (e := 0) h (by decide), contains_setFlags hx]

theorem fits_frameOf {phys : ℕ} (h : phys < 2 ^ 52) : Fits (frameOf phys) := by
  unfold Fits frameOf pageSize
  constructor
  · exact Nat.mul_mod_left _ _
  · have := Nat.div_mul_le_self phys 4096
    omega

/-! ### The counter -/

/-- A count shifted into place sets no bit below bit 52. -/
theorem shiftLeft_and_eq_zero {m : Entry} (hm : ∀ i, m.getLsbD i = true → i < 52) :
    BitVec.ofNat 64 count <<< 52 &&& m = 0 := by
  apply BitVec.eq_of_getLsbD_eq
  intro i hi
  simp only [BitVec.getLsbD_and, BitVec.getLsbD_shiftLeft]
  cases hmi : m.getLsbD i
  · simp
  · have := hm i hmi
    simp [this]

theorem setEntryCount_and_of_low {m : Entry} (hm : ∀ i, m.getLsbD i = true → i < 52) :
    e.setEntryCount count &&& m = e &&& m := by
  have hdisj : counterMask &&& m = 0 := by
    apply BitVec.eq_of_getLsbD_eq
    intro i hi
    simp only [BitVec.getLsbD_and, getLsbD_counterMask]
    cases hmi : m.getLsbD i
    · simp
    · have := hm i hmi
      simp; omega
  rw [setEntryCount, clearOr_and_of_disjoint hdisj, shiftLeft_and_eq_zero hm]
  simp

theorem address_setEntryCount : (e.setEntryCount count).address = e.address := by
  apply address_eq_of_and_eq
  apply setEntryCount_and_of_low
  intro i hi
  rw [getLsbD_addressMask] at hi
  simp at hi
  omega

theorem setEntryCount_and_lowFlags : e.setEntryCount count &&& lowFlags = e &&& lowFlags := by
  apply setEntryCount_and_of_low
  intro i hi
  rcases Nat.lt_or_ge i 64 with h | h
  · have hall : ∀ j : Fin 64, lowFlags.getLsbD j = true → j.val < 52 := by decide
    exact hall ⟨i, h⟩ hi
  · rw [BitVec.getLsbD_of_ge _ _ h] at hi
    cases hi

/-- A test of the low flags, `PRESENT` and `HUGE_PAGE` among them, is blind to the counter. -/
theorem contains_setEntryCount {x : Entry} (hx : x &&& ~~~lowFlags = 0) :
    (e.setEntryCount count).contains x = e.contains x :=
  contains_eq_of_and_eq setEntryCount_and_lowFlags hx

/-- The counter reads back the count modulo `2 ^ 11`, the width of `COUNTER_MASK`. -/
theorem getEntryCount_setEntryCount : (e.setEntryCount count).getEntryCount = count % 2048 := by
  have hfield : (e.setEntryCount count &&& counterMask) >>> 52 =
      BitVec.ofNat 64 (count % 2 ^ 11) := by
    apply BitVec.eq_of_getLsbD_eq
    intro i hi
    rw [setEntryCount, clearOr_and_self]
    simp only [BitVec.getLsbD_ushiftRight, BitVec.getLsbD_and, BitVec.getLsbD_shiftLeft,
      BitVec.getLsbD_ofNat, getLsbD_counterMask, Nat.testBit_mod_two_pow]
    by_cases h11 : i < 11
    · have h64 : 52 + i < 64 := by omega
      have h63 : 52 + i < 63 := by omega
      simp [h11, hi, h64, h63]
    · simp only [h11, decide_false, Bool.false_and, Bool.and_false, Bool.and_eq_false_imp,
        Bool.and_eq_true, decide_eq_true_eq]
      intro _
      simp only [decide_eq_false_iff_not, not_and, not_lt]
      omega
  rw [getEntryCount, hfield, BitVec.toNat_ofNat, Nat.mod_eq_of_lt (by omega)]
  rfl

/-- Bit 63, `NO_EXECUTE`, after a count is written: the count's bit 11 is or-ed into it. -/
theorem getLsbD_setEntryCount_63 :
    (e.setEntryCount count).getLsbD 63 = (e.getLsbD 63 || count.testBit 11) := by
  rw [setEntryCount, BitVec.getLsbD_or, BitVec.getLsbD_and, BitVec.getLsbD_not,
    BitVec.getLsbD_shiftLeft, BitVec.getLsbD_ofNat, getLsbD_counterMask]
  simp

/-! ### The kernel's flags -/

-- seven flags: each of the 128 combinations is one small computation
theorem fromKernelFlags_and_not_flagMask (flags : PageFlags) :
    fromKernelFlags flags &&& ~~~flagMask = 0 := by
  obtain ⟨wr, us, nx, wt, nc, wc, wp⟩ := flags
  cases wr <;> cases us <;> cases nx <;> cases wt <;> cases nc <;> cases wc <;> cases wp <;> decide

theorem fromKernelFlags_and_present (flags : PageFlags) : fromKernelFlags flags &&& present = 0 := by
  obtain ⟨wr, us, nx, wt, nc, wc, wp⟩ := flags
  cases wr <;> cases us <;> cases nx <;> cases wt <;> cases nc <;> cases wc <;> cases wp <;> decide

/-! ### Rewrites of a present page's entry -/

theorem contains_or_eq_false {x y : Entry} (h : e.contains x = false) :
    e.contains (x ||| y) = false := by
  simp only [contains, beq_eq_false_iff_ne, ne_eq] at h ⊢
  intro h'
  apply h
  ext i hi
  have := congrArg (fun z => z[i]) h'
  simp only [BitVec.getElem_and, BitVec.getElem_or] at this ⊢
  cases hx : x[i] <;> cases he : e[i] <;> simp_all

theorem contains_or_of_contains {x : Entry} (h : e.contains f = true) :
    (e ||| x).contains f = true := by
  simp only [contains, beq_iff_eq] at h ⊢
  ext i hi
  have := congrArg (fun z => z[i]) h
  simp only [BitVec.getElem_and] at this
  simp only [BitVec.getElem_and, BitVec.getElem_or]
  cases hx : x[i] <;> cases he : e[i] <;> simp_all

theorem setFlags_and_rest (he : e &&& ~~~(addressMask ||| flagMask) = 0) :
    e.setFlags f &&& ~~~(addressMask ||| flagMask) = 0 := by
  rw [setFlags, clearOr_and_of_disjoint (by decide), he, BitVec.and_assoc,
    show flagMask &&& ~~~(addressMask ||| flagMask) = 0 by decide]
  simp

theorem insert_and_rest {x : Entry} (he : e &&& ~~~(addressMask ||| flagMask) = 0)
    (hx : x &&& ~~~flagMask = 0) : e.insert x &&& ~~~(addressMask ||| flagMask) = 0 := by
  rw [insert, or_and_of_disjoint (and_eq_zero_of_and_not hx (by decide)), he]

theorem remove_and_rest {x : Entry} (he : e &&& ~~~(addressMask ||| flagMask) = 0) :
    e.remove x &&& ~~~(addressMask ||| flagMask) = 0 := by
  rw [remove, BitVec.and_assoc, BitVec.and_comm (~~~x), ← BitVec.and_assoc, he]
  simp

theorem address_insert {x : Entry} (hx : x &&& ~~~flagMask = 0) :
    (e.insert x).address = e.address :=
  address_eq_of_and_eq (or_and_of_disjoint (and_eq_zero_of_and_not hx (by decide)))

theorem address_remove {x : Entry} (hx : x &&& ~~~flagMask = 0) :
    (e.remove x).address = e.address :=
  address_eq_of_and_eq (and_not_and_of_disjoint (and_eq_zero_of_and_not hx (by decide)))

theorem contains_remove {x : Entry} (hx : x &&& present = 0) :
    (e.remove x).contains present = e.contains present :=
  contains_eq_of_and_eq (and_not_and_of_disjoint hx) (by decide)

theorem insert_and_flagMask {x : Entry} :
    e.insert x &&& flagMask = (e &&& flagMask) ||| (x &&& flagMask) := by
  ext i hi
  simp only [insert, BitVec.getElem_and, BitVec.getElem_or]
  cases flagMask[i] <;> simp

theorem remove_and_flagMask {x : Entry} :
    e.remove x &&& flagMask = (e &&& flagMask) &&& ~~~x := by
  ext i hi
  simp only [remove, BitVec.getElem_and, BitVec.getElem_not]
  cases flagMask[i] <;> simp

/-- A page's entry is the page entry of its address and its flags. -/
theorem pageEntry_of_clean (he : e &&& ~~~(addressMask ||| flagMask) = 0) :
    pageEntry e.address (e &&& flagMask) = e := by
  apply BitVec.eq_of_getLsbD_eq
  intro i hi
  have hei : (e.getLsbD i && !(addressMask.getLsbD i || flagMask.getLsbD i)) = false := by
    simpa [hi] using congrArg (fun y : Entry => y.getLsbD i) he
  simp only [pageEntry, address, BitVec.ofNat_toNat, BitVec.setWidth_eq, BitVec.getLsbD_or,
    BitVec.getLsbD_and]
  cases ha : addressMask.getLsbD i <;> cases hf : flagMask.getLsbD i <;>
    cases hE : e.getLsbD i <;> simp_all

end Entry

end Cykusz.Virt
