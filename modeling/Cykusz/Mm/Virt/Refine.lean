import Mathlib
import Cykusz.Lib.Simulation
import Cykusz.Mm.Virt.Query

/-!
# The page tables refine an address space

What a `P4Table` is for: an address space, the translation of each mapped page to a frame with
the flags of its entry (`AddrSpace`). `AddrSpace.Step` says what each 4 KiB operation does to it:
`map_to`, `map_to_flags` and `map_flags` map the page, `update_flags`, `insert_flags` and
`remove_flags` rewrite the flags of a mapped page, and `unmap` unmaps the page, each changing no
other page. `to_phys` is then the frame's address plus the offset in the page.

The tree at `root` is seen as an address space through `leafAt` (`Mem.view`). Each operation,
from a tree with the invariant and on the arguments its caller promises (`Mem.OpOk`: the frame
given to `map_to` and `map_to_flags` fits the address field and is not free), takes the view by
one abstract step and keeps the invariant (`exec_simulates`), so every run of operations is
matched by a run of abstract steps, and under the invariant `to_phys` and `get_flags` read the
abstract translation (`toPhys_eq_translate`, `getFlags_eq_view`). `duplicate` is the subject of
`Fork`, and `Runs` puts the two together.
-/

namespace Cykusz.Virt

open Entry

/-- A page's translation: its frame and the flags of its entry. -/
structure Translation where
  frame : ℕ
  flags : Entry
deriving DecidableEq, Repr

/-- An address space: the translation of each mapped page. -/
abbrev AddrSpace := Vpn → Option Translation

/-- The 4 KiB operations of a `P4Table`. -/
inductive PtOp
  | mapTo (virt phys : ℕ)
  | mapToFlags (virt phys : ℕ) (flags : PageFlags)
  | mapFlags (virt : ℕ) (flags : PageFlags)
  | updateFlags (virt : ℕ) (flags : PageFlags)
  | insertFlags (virt : ℕ) (flags : PageFlags)
  | removeFlags (virt : ℕ) (flags : PageFlags)
  | unmap (virt : ℕ)
deriving DecidableEq, Repr

/-- The address an operation is about. -/
def PtOp.virt : PtOp → ℕ
  | .mapTo virt _ | .mapToFlags virt _ _ | .mapFlags virt _ | .updateFlags virt _
  | .insertFlags virt _ | .removeFlags virt _ | .unmap virt => virt

namespace AddrSpace

/-- The physical address of `v`: its page's frame plus the offset in the page. -/
def translate (A : AddrSpace) (v : ℕ) : Option ℕ :=
  (A (vpnOf (pageNumber v))).map fun t => t.frame + v % pageSize

/-- The flags of a mapped page rewritten. -/
def modifyFlags (A : AddrSpace) (q : Vpn) (g : Entry → Entry) : AddrSpace :=
  Function.update A q ((A q).map fun t => ⟨t.frame, g t.flags⟩)

/-- Whether a frame is the frame of no page. -/
def Unused (A : AddrSpace) (fr : ℕ) : Prop := ∀ q t, A q = some t → t.frame ≠ fr

/-- What each operation does to the address space: only the page at `virt` changes. -/
inductive Step : AddrSpace → PtOp → AddrSpace → Prop
  /-- `map_to`: the frame, present and writable, where the page is not mapped. -/
  | mapTo (A : AddrSpace) (virt phys : ℕ) :
      Step A (.mapTo virt phys) (Function.update A (vpnOf (pageNumber virt))
        (some ((A (vpnOf (pageNumber virt))).getD ⟨frameOf phys, present ||| writable⟩)))
  /-- `map_to_flags`: the frame with the flags, over whatever was mapped. -/
  | mapToFlags (A : AddrSpace) (virt phys : ℕ) (flags : PageFlags) :
      Step A (.mapToFlags virt phys flags) (Function.update A (vpnOf (pageNumber virt))
        (some ⟨frameOf phys, present ||| fromKernelFlags flags⟩))
  /-- `map_flags`: the flags, on the page's own frame or on a frame that no page uses. -/
  | mapFlags (A : AddrSpace) (virt : ℕ) (flags : PageFlags) (fr : ℕ)
      (hfr : (A (vpnOf (pageNumber virt))).map Translation.frame = some fr ∨
        (A (vpnOf (pageNumber virt)) = none ∧ A.Unused fr)) :
      Step A (.mapFlags virt flags) (Function.update A (vpnOf (pageNumber virt))
        (some ⟨fr, fromKernelFlags flags ||| present⟩))
  /-- `update_flags`: the flags replaced, with `PRESENT`. -/
  | updateFlags (A : AddrSpace) (virt : ℕ) (flags : PageFlags) :
      Step A (.updateFlags virt flags)
        (A.modifyFlags (vpnOf (pageNumber virt)) fun _ => present ||| fromKernelFlags flags)
  /-- `insert_flags`: the flags added. -/
  | insertFlags (A : AddrSpace) (virt : ℕ) (flags : PageFlags) :
      Step A (.insertFlags virt flags)
        (A.modifyFlags (vpnOf (pageNumber virt)) fun f => f ||| fromKernelFlags flags)
  /-- `remove_flags`: the flags taken away. -/
  | removeFlags (A : AddrSpace) (virt : ℕ) (flags : PageFlags) :
      Step A (.removeFlags virt flags)
        (A.modifyFlags (vpnOf (pageNumber virt)) fun f => f &&& ~~~fromKernelFlags flags)
  /-- `unmap`: the page unmapped. -/
  | unmap (A : AddrSpace) (virt : ℕ) :
      Step A (.unmap virt) (Function.update A (vpnOf (pageNumber virt)) none)

/-- An operation changes the translation of no page but its own. -/
theorem Step.eq_of_ne {A A' : AddrSpace} {op : PtOp} {q : Vpn} (h : Step A op A')
    (hq : q ≠ vpnOf (pageNumber op.virt)) : A' q = A q := by
  cases h <;> simp only [modifyFlags, PtOp.virt] at hq ⊢ <;> exact Function.update_of_ne hq _ _

end AddrSpace

namespace Translation

/-- The translation a page's entry gives: its address, and its flags under `FLAG_MASK`. -/
def ofEntry (e : Entry) : Translation := ⟨e.address, e &&& flagMask⟩

theorem ofEntry_pageEntry {fr : ℕ} {f : Entry} (h : Fits fr) :
    ofEntry (pageEntry fr f) = ⟨fr, f &&& flagMask⟩ := by
  rw [ofEntry, address_pageEntry h, pageEntry_and_flagMask h]

end Translation

namespace Mem

variable {A : Type}

variable {m m' : Mem A} {root : ℕ} {q : Vpn}

/-- The address space of the tree at `root`. -/
def view (m : Mem A) (root : ℕ) : AddrSpace := fun q => (m.leafAt root q).map Translation.ofEntry

theorem view_of_leafAt {v : Option Entry}
    (h : m'.leafAt root = Function.update (m.leafAt root) q v) :
    m'.view root = Function.update (m.view root) q (v.map Translation.ofEntry) := by
  funext q'
  simp only [view, h]
  by_cases hq : q' = q
  · subst hq
    simp
  · rw [Function.update_of_ne hq, Function.update_of_ne hq]
    rfl

/-- A page's entry is present, in a table of the tree. -/
theorem leafAt_eq_some {e : Entry} (h : m.leafAt root q = some e) :
    ∃ t, m.walk root q.path = some t ∧ (m.entry t q.idx).contains present = true ∧
      m.entry t q.idx = e := by
  cases hw : m.walk root q.path with
  | none => rw [leafAt_eq_none_of_walk hw] at h; cases h
  | some t =>
    rw [leafAt_of_walk hw] at h
    split_ifs at h with hp
    exact ⟨t, rfl, hp, Option.some_injective _ h⟩

/-- A page's entry holds its frame and flags, nothing else. -/
theorem Shape.leafAt_clean (hs : m.Shape root) {e : Entry} (h : m.leafAt root q = some e) :
    Fits e.address ∧ e &&& ~~~(addressMask ||| flagMask) = 0 := by
  obtain ⟨t, ht, hp, rfl⟩ := leafAt_eq_some h
  have hok := hs.entry_ok q.path t q.idx (by simp [Vpn.path_length]) ht
  rw [Vpn.path_length] at hok
  exact ⟨hok.fit hp, hok.clean rfl⟩

variable [FrameAlloc A]

/-- One operation of a `P4Table` on the memory; `none` is the panic of an allocation with no
free frame. -/
def exec (root : ℕ) (m : Mem A) : PtOp → Option (Mem A)
  | .mapTo virt phys => m.mapTo root virt phys
  | .mapToFlags virt phys flags => m.mapToFlags root virt phys flags
  | .mapFlags virt flags => m.mapFlags root virt flags
  | .updateFlags virt flags => some (m.updateFlags root virt flags).2
  | .insertFlags virt flags => some (m.insertFlags root virt flags).2
  | .removeFlags virt flags => some (m.removeFlags root virt flags).2
  | .unmap virt => m.unmap root virt

/-- What the caller of `map_to` and `map_to_flags` promises: a physical address whose frame fits
the address field and is not free. -/
def OpOk (m : Mem A) : PtOp → Prop
  | .mapTo _ phys => phys < 2 ^ 52 ∧ frameOf phys ∉ m.free
  | .mapToFlags _ phys _ => phys < 2 ^ 52 ∧ frameOf phys ∉ m.free
  | _ => True

/-- A free frame is the frame of no page. -/
theorem Wf.unused_of_free (hwf : m.Wf root) {fr : ℕ} (hfr : fr ∈ m.free) :
    (m.view root).Unused fr := by
  rintro q' t ht rfl
  simp only [view, Option.map_eq_some_iff] at ht
  obtain ⟨e, he, rfl⟩ := ht
  exact refs_ne_zero_of_leafAt (q := q') (by rw [he]; rfl)
    (hwf.frames.free_unused _ hfr)

theorem kernelFlags_or_and_flagMask (flags : PageFlags) :
    (present ||| fromKernelFlags flags) &&& flagMask = present ||| fromKernelFlags flags :=
  BitField.and_eq_self (BitField.or_and_not_eq_zero present_and_not_flagMask
    (fromKernelFlags_and_not_flagMask flags))

/-- `change_entry` with a rewrite that keeps the page rewrites the abstract flags by `g`. -/
theorem view_changeEntry {fn : Entry → Entry} {g : Entry → Entry} (hwf : m.Wf root)
    (hfn : KeepsPage fn) (hg : ∀ e, Translation.ofEntry (fn e) = ⟨e.address, g (e &&& flagMask)⟩)
    (addr : ℕ) :
    (m.changeEntry root addr fn).2.Wf root ∧ (m.changeEntry root addr fn).2.view root =
      (m.view root).modifyFlags (vpnOf (pageNumber addr)) g := by
  obtain ⟨hwf', hl, -⟩ := changeEntry_spec hwf hfn addr
  refine ⟨hwf', ?_⟩
  rw [view_of_leafAt hl, AddrSpace.modifyFlags]
  congr 1
  show Option.map Translation.ofEntry (Option.map fn _) =
    Option.map _ (Option.map Translation.ofEntry _)
  rw [Option.map_map, Option.map_map]
  congr 1
  funext e
  exact hg e

/-! ## One step -/

section Step

variable {virt phys : ℕ} {flags : PageFlags}

theorem exec_mapTo (hwf : m.Wf root) (hok : m.OpOk (.mapTo virt phys))
    (h : m.exec root (.mapTo virt phys) = some m') :
    m'.Wf root ∧ AddrSpace.Step (m.view root) (.mapTo virt phys) (m'.view root) := by
  obtain ⟨hphys, hfree⟩ := hok
  obtain ⟨hwf', hl⟩ := mapTo_spec hwf hphys hfree h
  refine ⟨hwf', ?_⟩
  rw [view_of_leafAt hl]
  have hnew : Translation.ofEntry (pageEntry (frameOf phys) (present ||| writable)) =
      ⟨frameOf phys, present ||| writable⟩ := by
    rw [Translation.ofEntry_pageEntry (fits_frameOf hphys)]
    rfl
  have hval : (some ((m.leafAt root (vpnOf (pageNumber virt))).getD
      (pageEntry (frameOf phys) (present ||| writable)))).map Translation.ofEntry =
      some ((m.view root (vpnOf (pageNumber virt))).getD ⟨frameOf phys, present ||| writable⟩) := by
    rw [Option.map_some, view, ← hnew, Option.getD_map]
  rw [hval]
  exact .mapTo _ virt phys

theorem exec_mapToFlags (hwf : m.Wf root) (hok : m.OpOk (.mapToFlags virt phys flags))
    (h : m.exec root (.mapToFlags virt phys flags) = some m') :
    m'.Wf root ∧ AddrSpace.Step (m.view root) (.mapToFlags virt phys flags) (m'.view root) := by
  obtain ⟨hphys, hfree⟩ := hok
  obtain ⟨hwf', hl⟩ := mapToFlags_spec hwf hphys hfree h
  refine ⟨hwf', ?_⟩
  rw [view_of_leafAt hl, Option.map_some, Translation.ofEntry_pageEntry (fits_frameOf hphys),
    kernelFlags_or_and_flagMask]
  exact .mapToFlags _ virt phys flags

theorem exec_mapFlags (hwf : m.Wf root) (h : m.exec root (.mapFlags virt flags) = some m') :
    m'.Wf root ∧ AddrSpace.Step (m.view root) (.mapFlags virt flags) (m'.view root) := by
  obtain ⟨hwf', fr, hfr, hl⟩ := mapFlags_spec hwf h
  refine ⟨hwf', ?_⟩
  -- the frame is the page's own, or a free one: either way it fits
  have hfit : Fits fr := by
    rcases hfr with hfr | ⟨-, hfr⟩
    · obtain ⟨e, he, rfl⟩ := Option.map_eq_some_iff.1 hfr
      exact (hwf.shape.leafAt_clean he).1
    · exact hwf.frames.free_fit fr hfr
  rw [view_of_leafAt hl, Option.map_some, Translation.ofEntry_pageEntry hfit, BitVec.or_comm,
    kernelFlags_or_and_flagMask, BitVec.or_comm]
  refine .mapFlags _ virt flags fr ?_
  rcases hfr with hfr | ⟨hnone, hfree⟩
  · left
    rw [view, Option.map_map]
    exact hfr
  · exact .inr ⟨by rw [view, hnone]; rfl, hwf.unused_of_free hfree⟩

theorem exec_updateFlags (hwf : m.Wf root) (h : m.exec root (.updateFlags virt flags) = some m') :
    m'.Wf root ∧ AddrSpace.Step (m.view root) (.updateFlags virt flags) (m'.view root) := by
  obtain rfl := (Option.some_injective _ h).symm
  obtain ⟨hwf', hv⟩ := view_changeEntry (g := fun _ => present ||| fromKernelFlags flags) hwf
    (keepsPage_setFlags contains_or_left) (fun e => by
      rw [Translation.ofEntry, address_setFlags, setFlags_and_flagMask,
        kernelFlags_or_and_flagMask]) virt
  exact ⟨hwf', hv ▸ .updateFlags _ virt flags⟩

theorem exec_insertFlags (hwf : m.Wf root) (h : m.exec root (.insertFlags virt flags) = some m') :
    m'.Wf root ∧ AddrSpace.Step (m.view root) (.insertFlags virt flags) (m'.view root) := by
  obtain rfl := (Option.some_injective _ h).symm
  have hx := fromKernelFlags_and_not_flagMask flags
  obtain ⟨hwf', hv⟩ := view_changeEntry (g := fun f => f ||| fromKernelFlags flags) hwf
    (keepsPage_insert hx) (fun e => by
      rw [Translation.ofEntry, address_insert hx, insert_and_flagMask,
        BitField.and_eq_self hx]) virt
  exact ⟨hwf', hv ▸ .insertFlags _ virt flags⟩

theorem exec_removeFlags (hwf : m.Wf root) (h : m.exec root (.removeFlags virt flags) = some m') :
    m'.Wf root ∧ AddrSpace.Step (m.view root) (.removeFlags virt flags) (m'.view root) := by
  obtain rfl := (Option.some_injective _ h).symm
  have hx := fromKernelFlags_and_not_flagMask flags
  obtain ⟨hwf', hv⟩ := view_changeEntry (g := fun f => f &&& ~~~fromKernelFlags flags) hwf
    (keepsPage_remove hx (fromKernelFlags_and_present flags)) (fun e => by
      rw [Translation.ofEntry, address_remove hx, remove_and_flagMask]) virt
  exact ⟨hwf', hv ▸ .removeFlags _ virt flags⟩

theorem exec_unmap (hwf : m.Wf root) (h : m.exec root (.unmap virt) = some m') :
    m'.Wf root ∧ AddrSpace.Step (m.view root) (.unmap virt) (m'.view root) := by
  obtain ⟨m'', h', hwf', hl⟩ := unmap_spec hwf virt
  obtain rfl : m' = m'' := Option.some_injective _ (h.symm.trans h')
  refine ⟨hwf', ?_⟩
  rw [view_of_leafAt hl, Option.map_none]
  exact .unmap _ virt

end Step

/-- Every operation, from a tree with the invariant and on arguments its caller promises, keeps
the invariant and takes the view by one abstract step. -/
theorem exec_simulates (root : ℕ) :
    Simulation.Simulates (fun (m : Mem A) op => m.exec root op) (fun (m : Mem A) op => m.OpOk op)
      AddrSpace.Step (fun (m : Mem A) => m.Wf root) (fun (m : Mem A) => m.view root) := by
  -- both fields from the one lemma per operation
  have key : ∀ (m m' : Mem A) (op : PtOp), m.Wf root → m.OpOk op → m.exec root op = some m' →
      m'.Wf root ∧ AddrSpace.Step (m.view root) op (m'.view root) := by
    intro m m' op hwf hok h
    cases op with
    | mapTo virt phys => exact exec_mapTo hwf hok h
    | mapToFlags virt phys flags => exact exec_mapToFlags hwf hok h
    | mapFlags virt flags => exact exec_mapFlags hwf h
    | updateFlags virt flags => exact exec_updateFlags hwf h
    | insertFlags virt flags => exact exec_insertFlags hwf h
    | removeFlags virt flags => exact exec_removeFlags hwf h
    | unmap virt => exact exec_unmap hwf h
  exact ⟨fun m op m' hwf hok h => (key m m' op hwf hok h).1,
    fun m op m' hwf hok h => (key m m' op hwf hok h).2⟩

/-- Under the invariant `to_phys` is the abstract translation. -/
theorem toPhys_eq_translate (hwf : m.Wf root) (v : ℕ) :
    m.toPhys root v = (m.view root).translate v := by
  rw [toPhys_eq hwf.shape, AddrSpace.translate, view, Option.map_map]
  rfl

/-- Under the invariant `get_flags` is the entry of the page's frame and flags, or zero where
the page is not mapped. -/
theorem getFlags_eq_view (hwf : m.Wf root) (v : ℕ) :
    (m.getFlags root v).getD 0 =
      ((m.view root) (vpnOf (pageNumber v))).elim 0 fun t => pageEntry t.frame t.flags := by
  rw [getFlags_getD hwf.shape, view]
  cases h : m.leafAt root (vpnOf (pageNumber v)) with
  | none => rfl
  | some e => exact (pageEntry_of_clean (hwf.shape.leafAt_clean h).2).symm

/-! ## A new table -/

omit [FrameAlloc A] in
/-- The users of a new table's frames: the table itself, at the root. -/
theorem refs_of_root_empty (hz : ∀ j, m.entry root j = 0) (g : ℕ) :
    m.refs root g = if g = root then 1 else 0 := by
  have hempty : m.Empty root := fun j => by rw [hz j]; exact contains_zero_present
  have hwalk : ∀ p : List (Fin 512), p ≠ [] → m.walk root p = none :=
    fun _ hp => walk_of_empty hempty hp
  have hleaf : ∀ q : Vpn, m.leafAt root q = none :=
    fun q => leafAt_eq_none_of_walk (hwalk _ (by simp [Vpn.path]))
  have htab : m.IsTable root g ↔ g = root := by
    constructor
    · rintro ⟨p, -, hp⟩
      cases p with
      | nil => exact (Option.some_injective _ hp).symm
      | cons j p => rw [hwalk _ (List.cons_ne_nil j p)] at hp; cases hp
    · rintro rfl
      exact ⟨[], by simp, walk_nil⟩
  unfold refs
  rw [Finset.card_eq_zero.2 (Finset.filter_eq_empty_iff.2 fun q _ => by simp [hleaf q])]
  by_cases hg : g = root
  · rw [if_pos (htab.2 hg), if_pos hg]
  · rw [if_neg (mt htab.1 hg), if_neg hg]

/-- `P4Table::new`, from a memory whose frames are accounted for: an empty address space, with
the invariant. -/
theorem newTable_spec {R : ℕ → ℕ} (hfr : m.Frames R) (h : m.newTable = some (root, m')) :
    m'.Wf root ∧ m'.view root = fun _ => none := by
  simp only [newTable, Option.bind_eq_bind, Option.bind_eq_some_iff, Option.pure_def,
    Option.some.injEq] at h
  obtain ⟨⟨f, m₀⟩, ha, h⟩ := h
  simp only [Prod.mk.injEq] at h
  obtain ⟨rfl, rfl⟩ := h
  obtain ⟨hfr₀, -, hfit, hfree⟩ := hfr.allocate ha
  -- the new root's entries are all zero, so every walk below it stops
  have hz : ∀ j, ((m₀.clearFrame f).refTable f).entry f j = 0 := fun j => by
    rw [entry_of_tables_eq (tables_refTable f), entry_clearFrame, if_pos rfl]
  have hempty : ((m₀.clearFrame f).refTable f).Empty f := fun j => by
    rw [hz j]
    exact contains_zero_present
  have hwalk : ∀ p : List (Fin 512), p ≠ [] → ((m₀.clearFrame f).refTable f).walk f p = none :=
    fun _ hp => walk_of_empty hempty hp
  have hrefs := refs_of_root_empty hz
  refine ⟨⟨⟨?_, hfit, ?_⟩, ?_, ?_⟩, ?_⟩
  · intro p q g _ _ hp hq
    cases p with
    | cons j p => rw [hwalk _ (List.cons_ne_nil j p)] at hp; cases hp
    | nil =>
    cases q with
    | cons j q => rw [hwalk _ (List.cons_ne_nil j q)] at hq; cases hq
    | nil => rfl
  · intro p t j _ hp
    cases p with
    | cons i p => rw [hwalk _ (List.cons_ne_nil i p)] at hp; cases hp
    | nil =>
      obtain rfl := (Option.some_injective _ hp).symm
      rw [hz j]
      exact entryOk_zero _
  · intro p t j hp1 _ hp
    cases p with
    | nil => simp at hp1
    | cons i p => rw [hwalk _ (List.cons_ne_nil i p)] at hp; cases hp
  · -- the root's frame is its one user, counted by `ref_table`
    have hfree' : ((m₀.clearFrame f).refTable f).free = m₀.free := by simp
    refine ⟨hfree' ▸ hfr₀.free_fit, fun g hg => ?_, fun g hg => ?_, fun g _ hp => ?_⟩
    · rw [hfree'] at hg
      rw [hrefs, if_neg (fun h : g = f => hfree (h ▸ hg))]
    · rw [hrefs] at hg
      split_ifs at hg with hgf
      · exact hgf ▸ hfit
      · exact absurd rfl hg
    · rw [hrefs]
      split_ifs with hgf
      · subst hgf
        have hp' : (m₀.clearFrame g).hasPhysPage g = true := by
          simp only [hasPhysPage, pages_refTable] at hp ⊢
          exact hp
        rw [uses_refTable hp']
        omega
      · exact Nat.zero_le _
  · funext q
    rw [view, leafAt_eq_none_of_walk (hwalk _ (by simp [Vpn.path]))]
    rfl

/-- A new `P4Table` with the page at address 0 mapped by `map_to`, then duplicated as by
`fork`. -/
def forkRun : Option (ℕ × ℕ × Mem FreeList) := do
  let (root, m) ← bootMem.newTable
  let m ← m.mapTo root 0 0xA000
  let (new, m) ← m.duplicate root
  pure (root, new, m)

set_option maxRecDepth 100000 in
/-- The page at address 0 translates to its frame in the original table and to nothing in the
copy: its entry, written by `map_to`, lacks `USER`. -/
theorem duplicate_drops_mapTo_page :
    (forkRun.map fun (root, new, m) => (root, new, m.toPhys root 0, m.toPhys new 0)) =
      some (0x1000, 0x5000, some 0xA000, none) := by
  decide +kernel

end Mem

end Cykusz.Virt
