import Mathlib
import Cykusz.Mm.Virt.Unmap

/-!
# Reading and rewriting a page's entry

`to_phys`, `get_flags` and `change_entry` walk the page's path as `map_*` and `unmap` do. The
first and the last also stop at a huge entry of the third or second level, but under the
invariant no such entry is present (`Shape.contains_huge_present`), so each reads or rewrites
exactly the page's entry: `toPhys_eq` and `getFlags_getD` read it through `leafAt`, and
`changeEntry_spec` rewrites it. The rewrites of `update_flags`, `insert_flags` and
`remove_flags` keep the page present, at its frame, with nothing outside its address and flags
(`KeepsPage`), so they keep the invariant.
-/

namespace Cykusz.Virt

namespace Mem

variable {A : Type}

open Entry

variable {m : Mem A} {root t : ℕ} {d : List (Fin 512) → ℤ} {fn : Entry → Entry}

/-- The offset in a page: `addr & 0xFFF`. -/
theorem and_0xFFF (addr : ℕ) : addr &&& 0xFFF = addr % pageSize := by
  simpa [pageSize] using Nat.and_two_pow_sub_one_eq_mod addr 12

/-- No table of the third or second level of the tree holds a huge entry. -/
theorem Shape.contains_huge_present (hs : m.Shape root) {p : List (Fin 512)}
    (hp1 : 1 ≤ p.length) (hp2 : p.length ≤ 2) (ht : m.walk root p = some t) (j : Fin 512) :
    (m.entry t j).contains (hugePage ||| present) = false :=
  contains_or_eq_false ((hs.entry_ok p t j (by omega) ht).noHuge hp1 hp2)

theorem vpnOf_path (n : ℕ) : (vpnOf n).path = [p4Index n, p3Index n, p2Index n] := rfl

theorem vpnOf_idx (n : ℕ) : (vpnOf n).idx = p1Index n := rfl

/-! ## `to_phys` and `get_flags` -/

/-- `to_phys` is the address in the frame of the page's entry, when the page is mapped. -/
theorem toPhys_eq (hs : m.Shape root) (addr : ℕ) :
    m.toPhys root addr =
      (m.leafAt root (vpnOf (pageNumber addr))).map fun e => e.address + addr % pageSize := by
  have hpath := vpnOf_path (pageNumber addr)
  simp only [toPhys, Option.bind_eq_bind]
  cases h4 : m.nextLevel root (p4Index (pageNumber addr)) with
  | none => rw [leafAt_eq_none_of_walk (by simp [hpath, walk_cons, h4])]; rfl
  | some l3 =>
  have hw1 : m.walk root [p4Index (pageNumber addr)] = some l3 := by
    simp [walk_cons, h4, walk_nil]
  -- no huge entry in the table of the third level
  simp only [Option.bind_some, hs.contains_huge_present (by simp) (by simp) hw1,
    Bool.false_eq_true, if_false]
  cases h3 : m.nextLevel l3 (p3Index (pageNumber addr)) with
  | none => rw [leafAt_eq_none_of_walk (by simp [hpath, walk_cons, h4, h3])]; rfl
  | some l2 =>
  have hw2 : m.walk root [p4Index (pageNumber addr), p3Index (pageNumber addr)] = some l2 := by
    simp [walk_cons, h4, h3, walk_nil]
  -- nor in the table of the second level
  simp only [Option.bind_some, hs.contains_huge_present (by simp) (by simp) hw2,
    Bool.false_eq_true, if_false]
  cases h2 : m.nextLevel l2 (p2Index (pageNumber addr)) with
  | none => rw [leafAt_eq_none_of_walk (by simp [hpath, walk_cons, h4, h3, h2])]; rfl
  | some l1 =>
  rw [leafAt_of_walk (t := l1) (by simp [hpath, walk_cons, h4, h3, h2, walk_nil]),
    vpnOf_idx]
  simp only [Option.bind_some, and_0xFFF]
  by_cases hp : (m.entry l1 (p1Index (pageNumber addr))).contains present
  · rw [if_pos hp, if_pos hp]
    rfl
  · rw [if_neg hp, if_neg hp]
    rfl

/-- `get_flags` is the page's entry in its last table, present or not. -/
theorem getFlags_eq (addr : ℕ) :
    m.getFlags root addr = (m.walk root (vpnOf (pageNumber addr)).path).map
      fun t => m.entry t (vpnOf (pageNumber addr)).idx := by
  simp only [getFlags, Option.bind_eq_bind, vpnOf_path, vpnOf_idx, walk_cons, walk_nil]
  cases m.nextLevel root (p4Index (pageNumber addr)) with
  | none => rfl
  | some l3 =>
  simp only [Option.bind_some]
  cases m.nextLevel l3 (p3Index (pageNumber addr)) with
  | none => rfl
  | some l2 =>
  simp only [Option.bind_some]
  cases m.nextLevel l2 (p2Index (pageNumber addr)) with
  | none => rfl
  | some l1 => rfl

/-- Under the shape an entry that is not present is zero, so `get_flags` reads the page's entry,
or zero where the page is not mapped. -/
theorem getFlags_getD (hs : m.Shape root) (addr : ℕ) :
    (m.getFlags root addr).getD 0 = (m.leafAt root (vpnOf (pageNumber addr))).getD 0 := by
  rw [getFlags_eq]
  cases hw : m.walk root (vpnOf (pageNumber addr)).path with
  | none => rw [leafAt_eq_none_of_walk hw]; rfl
  | some t =>
    rw [leafAt_of_walk hw]
    by_cases hp : (m.entry t (vpnOf (pageNumber addr)).idx).contains present
    · rw [if_pos hp]
      rfl
    · rw [if_neg hp]
      exact hs.eq_zero (by simp [Vpn.path_length]) hw (by simpa using hp)

/-! ## `change_entry` -/

/-- A rewrite of a present page's entry that keeps it present, at its frame, and with nothing
outside its address and its flags. -/
def KeepsPage (fn : Entry → Entry) : Prop :=
  ∀ e : Entry, e.contains present = true → e &&& ~~~(addressMask ||| flagMask) = 0 →
    (fn e).contains present = true ∧ (fn e).address = e.address ∧
      fn e &&& ~~~(addressMask ||| flagMask) = 0

/-- `set_flags` of flags with `PRESENT`, as `update_flags` writes them. -/
theorem keepsPage_setFlags {x : Entry} (hx : x.contains present = true) :
    KeepsPage (·.setFlags x) := fun _ _ he =>
  ⟨by rw [contains_setFlags present_and_not_flagMask, hx], address_setFlags, setFlags_and_rest he⟩

/-- `insert` of flags, as `insert_flags` does. -/
theorem keepsPage_insert {x : Entry} (hx : x &&& ~~~flagMask = 0) : KeepsPage (·.insert x) :=
  fun _ hp he => ⟨contains_or_of_contains hp, address_insert hx, insert_and_rest he hx⟩

/-- `remove` of flags other than `PRESENT`, as `remove_flags` does and as `duplicate` removes
`WRITABLE`. -/
theorem keepsPage_remove {x : Entry} (hx : x &&& ~~~flagMask = 0) (hxp : x &&& present = 0) :
    KeepsPage (·.remove x) :=
  fun _ hp he => ⟨by rw [contains_remove hxp, hp], address_remove hx, remove_and_rest he⟩

/-- A rewrite of a present page's entry that keeps the page: the page's entry changes, the walks,
the users of each frame and the counts stay. -/
theorem modifyEntry_keepsPage_spec [FrameAlloc A] {q₀ : Vpn} (hs : m.Shape root)
    (hfr : m.Frames (m.refs root)) (hc : m.CountedUpTo root d) (ht : m.walk root q₀.path = some t)
    (hp : (m.entry t q₀.idx).contains present = true) (hfn : KeepsPage fn) :
    LeafResult m (m.modifyEntry t q₀.idx fn) root q₀ (some (fn (m.entry t q₀.idx))) d := by
  have hok := hs.entry_ok q₀.path t q₀.idx (by simp [Vpn.path_length]) ht
  rw [Vpn.path_length] at hok
  obtain ⟨hp', ha, hclean⟩ := hfn _ hp (hok.clean rfl)
  have hm : EqOff m (m.modifyEntry t q₀.idx fn) t q₀.idx := fun x j hxj => by
    rw [entry_modifyEntry, if_neg hxj]
  have hent : (m.modifyEntry t q₀.idx fn).entry t q₀.idx = fn (m.entry t q₀.idx) := by
    rw [entry_modifyEntry, if_pos ⟨rfl, rfl⟩]
  have hl := leaf_leafAt hs.inj ht hm
  rw [hent, if_pos hp'] at hl
  refine ⟨fun q hq => leaf_walk hs.inj ht hm hq, hl, ?_, ?_, ?_⟩
  · apply leaf_shape hs.inj ht hm hs
    rw [hent]
    exact ⟨fun h => absurd hp' (by rw [h]; decide), fun _ => ha ▸ hok.fit hp,
      fun _ h => absurd h (by omega), fun _ => hclean⟩
  · -- the page keeps its frame, so every frame keeps its users
    have hrefs : (m.modifyEntry t q₀.idx fn).refs root = m.refs root := by
      funext g
      have := leaf_refs hs.inj ht hm g
      rw [leafAt_of_walk ht, if_pos hp, hent, if_pos hp'] at this
      simp only [Option.map_some, ha] at this
      exact Nat.add_right_cancel this
    rw [hrefs]
    exact hfr.of_eq rfl rfl rfl
  · have hcnt := leaf_counted hs.inj ht hm hc
    rw [hent, hp, hp', add_sub_cancel_right, Function.update_eq_self] at hcnt
    exact hcnt

/-- `change_entry` rewrites the page's entry when the page is mapped, and returns the address
in its frame. -/
theorem changeEntry_eq (hs : m.Shape root) (addr : ℕ) (fn : Entry → Entry) :
    m.changeEntry root addr fn =
      match m.walk root (vpnOf (pageNumber addr)).path with
      | none => (none, m)
      | some t =>
        if (m.entry t (vpnOf (pageNumber addr)).idx).contains present then
          (some ((fn (m.entry t (vpnOf (pageNumber addr)).idx)).address + addr % pageSize),
            m.modifyEntry t (vpnOf (pageNumber addr)).idx fn)
        else (none, m) := by
  simp only [changeEntry, vpnOf_path, vpnOf_idx, walk_cons, walk_nil]
  cases h4 : m.nextLevel root (p4Index (pageNumber addr)) with
  | none => rfl
  | some l3 =>
  have hw1 : m.walk root [p4Index (pageNumber addr)] = some l3 := by
    simp [walk_cons, h4, walk_nil]
  simp only [Option.bind_some, hs.contains_huge_present (by simp) (by simp) hw1,
    Bool.false_eq_true, if_false]
  cases h3 : m.nextLevel l3 (p3Index (pageNumber addr)) with
  | none => rfl
  | some l2 =>
  have hw2 : m.walk root [p4Index (pageNumber addr), p3Index (pageNumber addr)] = some l2 := by
    simp [walk_cons, h4, h3, walk_nil]
  simp only [Option.bind_some, hs.contains_huge_present (by simp) (by simp) hw2,
    Bool.false_eq_true, if_false]
  cases h2 : m.nextLevel l2 (p2Index (pageNumber addr)) with
  | none => rfl
  | some l1 =>
  simp only [Option.bind_some, and_0xFFF, entry_modifyEntry, and_self, if_true]
  rfl

/-- `change_entry` with a rewrite that keeps the page: the page's entry is rewritten where it is
mapped, the invariant holds again, and the address returned is the address in the page's frame. -/
theorem changeEntry_spec [FrameAlloc A] (hwf : m.Wf root) (hfn : KeepsPage fn) (addr : ℕ) :
    (m.changeEntry root addr fn).2.Wf root ∧
    (m.changeEntry root addr fn).2.leafAt root = Function.update (m.leafAt root)
      (vpnOf (pageNumber addr)) ((m.leafAt root (vpnOf (pageNumber addr))).map fn) ∧
    (m.changeEntry root addr fn).1 =
      (m.leafAt root (vpnOf (pageNumber addr))).map fun e => (fn e).address + addr % pageSize := by
  rw [changeEntry_eq hwf.shape]
  cases hw : m.walk root (vpnOf (pageNumber addr)).path with
  | none =>
    dsimp only
    have hl := leafAt_eq_none_of_walk hw
    refine ⟨hwf, ?_, by rw [hl]; rfl⟩
    rw [hl, Option.map_none, eq_comm, Function.update_eq_self_iff, hl]
  | some t =>
    dsimp only
    by_cases hp : (m.entry t (vpnOf (pageNumber addr)).idx).contains present
    · have R := modifyEntry_keepsPage_spec hwf.shape hwf.frames hwf.counted hw hp hfn
      rw [if_pos hp, leafAt_of_walk hw, if_pos hp, Option.map_some, Option.map_some]
      exact ⟨⟨R.shape, R.counted, R.frames⟩, R.leafAt, rfl⟩
    · have hl : m.leafAt root (vpnOf (pageNumber addr)) = none := by
        rw [leafAt_of_walk hw, if_neg hp]
      rw [if_neg hp]
      refine ⟨hwf, ?_, by rw [hl]; rfl⟩
      rw [hl, Option.map_none, eq_comm, Function.update_eq_self_iff, hl]

end Mem

end Cykusz.Virt
