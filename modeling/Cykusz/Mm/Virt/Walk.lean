import Mathlib
import Cykusz.Lib.Count
import Cykusz.Mm.Virt.TableSpec

/-!
# Walks through the tree of tables

The tables of a `P4Table` form a tree: the table at a path of at most three indices is reached
from the root through present entries (`walk`), and a page's entry is the present entry at its
last index in the table at the path of its first three (`leafAt`). `to_phys` reads exactly that
entry when no table on the way holds a huge entry (`toPhys_eq`).

A write to one entry changes only the walks through it (`walk_eqOff`), and a write to a frame
that is no table of the tree changes none (`walk_eqOffFrame`); with the tables at distinct frames
(`Shape.inj`) this is what lets every operation be described by the one path it walks.
-/

namespace Cykusz.Virt

/-- A page as the four table indices of its number. -/
abbrev Vpn := Fin 512 × Fin 512 × Fin 512 × Fin 512

/-- The indices of a page number: `p4_index` to `p1_index`. -/
def vpnOf (number : ℕ) : Vpn := (p4Index number, p3Index number, p2Index number, p1Index number)

namespace Vpn

/-- The path to the page's last table. -/
def path (q : Vpn) : List (Fin 512) := [q.1, q.2.1, q.2.2.1]

/-- The page's index in its last table. -/
def idx (q : Vpn) : Fin 512 := q.2.2.2

theorem path_length (q : Vpn) : q.path.length = 3 := rfl

theorem path_idx_eq_iff {q q' : Vpn} : q.path = q'.path ∧ q.idx = q'.idx ↔ q = q' := by
  obtain ⟨a, b, c, e⟩ := q
  obtain ⟨a', b', c', e'⟩ := q'
  simp [path, idx, and_assoc]

end Vpn

namespace Mem

variable {A : Type}

open Entry

variable {m m' : Mem A} {root t t' f : ℕ} {i j : Fin 512} {p q : List (Fin 512)}

/-- The table reached from `root` along the indices of `path`, through present entries. -/
def walk (m : Mem A) (root : ℕ) (path : List (Fin 512)) : Option ℕ := path.foldlM m.nextLevel root

/-- The present entry that maps the page `q`. -/
def leafAt (m : Mem A) (root : ℕ) (q : Vpn) : Option Entry := do
  let t ← m.walk root q.path
  if (m.entry t q.idx).contains present then some (m.entry t q.idx) else none

/-- The number of present entries of the table at `t`. -/
def presentCount (m : Mem A) (t : ℕ) : ℕ :=
  (Finset.univ.filter fun j => (m.entry t j).contains present).card

/-- A table with no present entry. -/
def Empty (m : Mem A) (t : ℕ) : Prop := ∀ j, (m.entry t j).contains present = false

theorem walk_nil : m.walk root [] = some root := rfl

theorem walk_append_singleton (p : List (Fin 512)) (i : Fin 512) :
    m.walk root (p ++ [i]) = (m.walk root p).bind (m.nextLevel · i) := by
  simp only [walk, List.foldlM_append, List.foldlM_cons, List.foldlM_nil, bind_pure]
  rfl

theorem walk_append (p r : List (Fin 512)) :
    m.walk root (p ++ r) = (m.walk root p).bind fun t => m.walk t r := by
  simp only [walk, List.foldlM_append]
  rfl

theorem walk_cons_of_nextLevel_none {r : List (Fin 512)} (h : m.nextLevel t j = none) :
    m.walk t (j :: r) = none := by
  simp [walk, List.foldlM_cons, h]

/-- Below an empty table every walk stops. -/
theorem walk_of_empty {r : List (Fin 512)} (h : m.Empty t) (hr : r ≠ []) : m.walk t r = none := by
  obtain ⟨j, r, rfl⟩ := List.exists_cons_of_ne_nil hr
  apply walk_cons_of_nextLevel_none
  simp [nextLevel, h j]

theorem nextLevel_eq_of_entry_eq (h : m'.entry t j = m.entry t j) :
    m'.nextLevel t j = m.nextLevel t j := by
  simp only [nextLevel, h]

/-- A walk reads one link per step: memories whose links agree along it give the same walk. -/
theorem walk_congr
    (h : ∀ q j t, q ++ [j] <+: p → m.walk root q = some t → m'.nextLevel t j = m.nextLevel t j) :
    m'.walk root p = m.walk root p := by
  induction p using List.reverseRecOn with
  | nil => rfl
  | append_singleton p i ih =>
    have ih' := ih fun q j t hq ht => h q j t (hq.trans (List.prefix_append _ _)) ht
    rw [walk_append_singleton, walk_append_singleton, ih']
    cases hw : m.walk root p with
    | none => rfl
    | some t => exact h p i t (List.prefix_refl _) hw

theorem leafAt_of_walk {q : Vpn} (ht : m.walk root q.path = some t) :
    m.leafAt root q =
      if (m.entry t q.idx).contains present then some (m.entry t q.idx) else none := by
  simp [leafAt, ht]

theorem leafAt_congr {q : Vpn} (hw : m'.walk root q.path = m.walk root q.path)
    (he : ∀ t, m.walk root q.path = some t → m'.entry t q.idx = m.entry t q.idx) :
    m'.leafAt root q = m.leafAt root q := by
  simp only [leafAt, hw]
  cases hwt : m.walk root q.path with
  | none => rfl
  | some t => simp [he t hwt]

/-! ## The shape of the tree -/

/-- Distinct positions hold distinct tables. -/
def Inj (m : Mem A) (root : ℕ) : Prop :=
  ∀ p q f, p.length ≤ 3 → q.length ≤ 3 → m.walk root p = some f → m.walk root q = some f → p = q

/-- Two memories that differ at most in the entry `i` of the table at `t`. -/
def EqOff (m m' : Mem A) (t : ℕ) (i : Fin 512) : Prop :=
  ∀ t' j, ¬(t' = t ∧ j = i) → m'.entry t' j = m.entry t' j

/-- Two memories that differ at most in the entries of the table at `f`. -/
def EqOffFrame (m m' : Mem A) (f : ℕ) : Prop := ∀ t j, t ≠ f → m'.entry t j = m.entry t j

/-- A write to one entry changes no walk that does not pass through it. -/
theorem walk_eqOff (hinj : m.Inj root) (hp : p.length ≤ 3) (ht : m.walk root p = some t)
    (hm : EqOff m m' t i) (hq : q.length ≤ 3) (hpre : ¬ p ++ [i] <+: q) :
    m'.walk root q = m.walk root q := by
  apply walk_congr
  intro q' j t' hq' ht'
  apply nextLevel_eq_of_entry_eq
  apply hm
  rintro ⟨rfl, rfl⟩
  have hlen : q'.length ≤ 3 := by
    have := hq'.length_le
    simp only [List.length_append, List.length_singleton] at this
    omega
  obtain rfl := hinj q' p t' hlen hp ht' ht
  exact hpre hq'

/-- A write to one entry that keeps its link changes no walk. -/
theorem walk_eqOff_of_link (hm : EqOff m m' t i) (hl : m'.nextLevel t i = m.nextLevel t i) :
    m'.walk root q = m.walk root q := by
  apply walk_congr
  intro q' j t' _ _
  by_cases hc : t' = t ∧ j = i
  · obtain ⟨rfl, rfl⟩ := hc
    exact hl
  · exact nextLevel_eq_of_entry_eq (hm t' j hc)

/-- A write to a frame that is no table of the tree changes no walk. -/
theorem walk_eqOffFrame (hm : EqOffFrame m m' f)
    (hf : ∀ p, p.length ≤ 3 → m.walk root p ≠ some f) (hq : q.length ≤ 4) :
    m'.walk root q = m.walk root q := by
  apply walk_congr
  intro q' j t' hq' ht'
  apply nextLevel_eq_of_entry_eq
  apply hm
  rintro rfl
  have hlen : q'.length ≤ 3 := by
    have := hq'.length_le
    simp only [List.length_append, List.length_singleton] at this
    omega
  exact hf q' hlen ht'

theorem leafAt_eqOffFrame (hm : EqOffFrame m m' f)
    (hf : ∀ p, p.length ≤ 3 → m.walk root p ≠ some f) (q : Vpn) :
    m'.leafAt root q = m.leafAt root q := by
  apply leafAt_congr (walk_eqOffFrame hm hf (by simp [Vpn.path_length]))
  intro t ht
  apply hm
  rintro rfl
  exact hf q.path (by simp [Vpn.path_length]) ht

theorem length_eq_of_walk_eq (hinj : m.Inj root) (hp : p.length ≤ 3) (hq : q.length ≤ 3)
    (hpt : m.walk root p = some t) (hqt : m.walk root q = some t) : p.length = q.length := by
  rw [hinj p q t hp hq hpt hqt]

/-- A write to an entry above the last level that keeps its link changes no page's entry. -/
theorem leafAt_eqOff_of_link (hinj : m.Inj root) (hp : p.length ≤ 2) (ht : m.walk root p = some t)
    (hm : EqOff m m' t i) (hl : m'.nextLevel t i = m.nextLevel t i) (q : Vpn) :
    m'.leafAt root q = m.leafAt root q := by
  apply leafAt_congr (walk_eqOff_of_link hm hl)
  intro t' ht'
  apply hm
  rintro ⟨rfl, rfl⟩
  have := length_eq_of_walk_eq hinj (by simp [Vpn.path_length]) (by omega) ht' ht
  simp [Vpn.path_length] at this
  omega

/-- A write to an entry of a last table changes only the page it maps. -/
theorem leafAt_eqOff_of_leaf (hinj : m.Inj root) (hp : p.length = 3) (ht : m.walk root p = some t)
    (hm : EqOff m m' t i) (q : Vpn) :
    m'.leafAt root q =
      if q.path = p ∧ q.idx = i then
        (if (m'.entry t i).contains present then some (m'.entry t i) else none)
      else m.leafAt root q := by
  have hw : m'.walk root q.path = m.walk root q.path := by
    apply walk_eqOff hinj (by omega) ht hm (by simp [Vpn.path_length])
    intro hpre
    have := hpre.length_le
    simp [Vpn.path_length, hp] at this
  by_cases hq : q.path = p ∧ q.idx = i
  · rw [if_pos hq]
    obtain ⟨hpath, hidx⟩ := hq
    simp only [leafAt, hw, ← hidx]
    rw [hpath, ht]
    rfl
  · rw [if_neg hq]
    apply leafAt_congr hw
    intro t' ht'
    apply hm
    rintro ⟨rfl, rfl⟩
    exact hq ⟨hinj _ _ _ (by simp [Vpn.path_length]) (by omega) ht' ht, rfl⟩

/-- Linking an empty table at a new position adds that position and changes no other walk. -/
theorem walk_link (hinj : m.Inj root) (hp : p.length ≤ 2) (ht : m.walk root p = some t)
    (hm : EqOff m m' t i) (hold : m.nextLevel t i = none) (hnew : m'.nextLevel t i = some f)
    (hempty : m'.Empty f) (hq : q.length ≤ 3) :
    m'.walk root q = if q = p ++ [i] then some f else m.walk root q := by
  have ht' : m'.walk root p = some t := by
    rw [walk_eqOff hinj (by omega) ht hm (by omega) (fun h => by simpa using h.length_le)]
    exact ht
  by_cases hpre : p ++ [i] <+: q
  · obtain ⟨r, rfl⟩ := hpre
    cases r with
    | nil => simp [walk_append_singleton, ht', hnew]
    | cons r0 r =>
      have hne : p ++ [i] ++ r0 :: r ≠ p ++ [i] := by simp
      rw [if_neg hne, walk_append (m := m'), walk_append (m := m), walk_append_singleton,
        walk_append_singleton, ht', ht]
      simp [hnew, hold, walk_of_empty hempty (List.cons_ne_nil r0 r)]
  · have hne : q ≠ p ++ [i] := fun h => hpre (h ▸ List.prefix_refl _)
    rw [if_neg hne]
    exact walk_eqOff hinj (by omega) ht hm hq hpre

/-- Linking an empty table changes no page's entry. -/
theorem leafAt_link (hinj : m.Inj root) (hp : p.length ≤ 2) (ht : m.walk root p = some t)
    (hm : EqOff m m' t i) (hold : m.nextLevel t i = none) (hnew : m'.nextLevel t i = some f)
    (hempty : m'.Empty f) (q : Vpn) : m'.leafAt root q = m.leafAt root q := by
  have hw := walk_link hinj hp ht hm hold hnew hempty (q := q.path) (by simp [Vpn.path_length])
  split_ifs at hw with hq
  · -- the page's last table is the new one: its entry is not present, and before there was none
    have hwm : m.walk root q.path = none := by
      rw [hq, walk_append_singleton, ht]
      simpa using hold
    simp [leafAt, hw, hwm, hempty q.idx]
  · apply leafAt_congr hw
    intro t' ht'
    apply hm
    rintro ⟨rfl, rfl⟩
    have := length_eq_of_walk_eq hinj (by simp [Vpn.path_length]) (by omega) ht' ht
    simp [Vpn.path_length] at this
    omega

end Mem

end Cykusz.Virt
