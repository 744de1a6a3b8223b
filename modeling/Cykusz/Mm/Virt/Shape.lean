import Mathlib
import Cykusz.Mm.Virt.Walk
import Cykusz.Mm.Virt.Frames

/-!
# The invariant of a `P4Table`

`Shape` is what the tree of tables keeps under the 4 KiB operations: the tables sit at distinct
frames, entries that are not present are zero, present entries hold addresses that fit the
address field, and the tables of the third and second level hold no huge entry. `CountedUpTo`
says that the entries of those two levels count the present entries of the table they link to,
up to a debt per position that an operation pays back before it returns. `refs` counts the users
of each frame in the tree (the table at a position, and the pages mapped to it), and
`Frames m (m.refs root)` ties them to the use counts and the allocator's free frames.

The lemmas `refs_*` say how the users move when one position is linked or unlinked and when one
page changes.
-/

namespace Cykusz.Virt

namespace Mem

variable {A : Type}

open Entry

variable {m m' : Mem A} {root t f g : ℕ} {i j : Fin 512} {p P : List (Fin 512)}

/-- Some position of the tree holds the table at `f`. -/
def IsTable (m : Mem A) (root f : ℕ) : Prop :=
  ∃ p : List (Fin 512), p.length ≤ 3 ∧ m.walk root p = some f

open Classical in
/-- The users of the frame `f` in the tree at `root`: the table at one of its positions, and
every page mapped to it. -/
noncomputable def refs (m : Mem A) (root f : ℕ) : ℕ :=
  (if m.IsTable root f then 1 else 0) +
    (Finset.univ.filter fun q => (m.leafAt root q).map address = some f).card

theorem isTable_iff_of_walk (hw : ∀ p, p.length ≤ 3 → m'.walk root p = m.walk root p) :
    m'.IsTable root f ↔ m.IsTable root f := by
  unfold IsTable
  constructor
  · rintro ⟨p, hp, h⟩
    exact ⟨p, hp, (hw p hp) ▸ h⟩
  · rintro ⟨p, hp, h⟩
    exact ⟨p, hp, (hw p hp).symm ▸ h⟩

section Refs

open Classical

/-- Memories with the same walks and the same pages have the same users. -/
theorem refs_congr (hw : ∀ p, p.length ≤ 3 → m'.walk root p = m.walk root p)
    (hl : m'.leafAt root = m.leafAt root) : m'.refs root = m.refs root := by
  funext g
  simp only [refs, hl]
  rw [if_congr (isTable_iff_of_walk hw) rfl rfl]

theorem refs_ne_zero_of_isTable (h : m.IsTable root f) : m.refs root f ≠ 0 := by
  simp [refs, h]

theorem refs_ne_zero_of_leafAt {q : Vpn} (h : (m.leafAt root q).map address = some f) :
    m.refs root f ≠ 0 := by
  -- membership in the filter by `simp`: a term would make Lean unfold the finite type of pages
  have hpos : (Finset.univ.filter fun q => (m.leafAt root q).map address = some f).card ≠ 0 := by
    apply Finset.card_ne_zero_of_mem (a := q)
    simp only [Finset.mem_filter, Finset.mem_univ, true_and]
    exact h
  unfold refs
  omega

theorem not_isTable_of_refs_eq_zero (h : m.refs root f = 0) : ¬m.IsTable root f :=
  fun ht => refs_ne_zero_of_isTable ht h

/-- A table linked at a new position `P` is a new user of its frame. -/
theorem refs_link (hP : P.length ≤ 3) (hP0 : m.walk root P = none)
    (hw : ∀ q, q.length ≤ 3 → m'.walk root q = if q = P then some f else m.walk root q)
    (hf : ¬m.IsTable root f) (hl : m'.leafAt root = m.leafAt root) :
    m'.refs root = Function.update (m.refs root) f (m.refs root f + 1) := by
  have hex : ∀ g, m'.IsTable root g ↔ m.IsTable root g ∨ g = f := by
    intro g
    constructor
    · rintro ⟨q, hq, hqg⟩
      rw [hw q hq] at hqg
      split_ifs at hqg with hqP
      · exact .inr (Option.some_injective _ hqg).symm
      · exact .inl ⟨q, hq, hqg⟩
    · rintro (⟨q, hq, hqg⟩ | rfl)
      · have hqP : q ≠ P := by
          intro hqP
          rw [hqP, hP0] at hqg
          cases hqg
        exact ⟨q, hq, by rw [hw q hq, if_neg hqP]; exact hqg⟩
      · exact ⟨P, hP, by rw [hw P hP, if_pos rfl]⟩
  funext g
  by_cases hg : g = f
  · subst hg
    simp only [refs, hl, Function.update_self]
    rw [if_pos ((hex g).2 (.inr rfl)), if_neg hf]
    omega
  · simp only [refs, hl, Function.update_of_ne hg]
    rw [if_congr ((hex g).trans (or_iff_left hg)) rfl rfl]

/-- A table unlinked from its position `P` loses that user. -/
theorem refs_unlink (hinj : m.Inj root) (hP : P.length ≤ 3) (hPf : m.walk root P = some f)
    (hw : ∀ q, q.length ≤ 3 → m'.walk root q = if q = P then none else m.walk root q)
    (hl : m'.leafAt root = m.leafAt root) :
    m'.refs root = Function.update (m.refs root) f (m.refs root f - 1) := by
  have hex : ∀ g, m'.IsTable root g ↔ m.IsTable root g ∧ g ≠ f := by
    intro g
    constructor
    · rintro ⟨q, hq, hqg⟩
      rw [hw q hq] at hqg
      -- the position `P` walks nowhere now, so `q` is another one
      split_ifs at hqg with hqP
      refine ⟨⟨q, hq, hqg⟩, ?_⟩
      rintro rfl
      exact hqP (hinj q P g hq hP hqg hPf)
    · rintro ⟨⟨q, hq, hqg⟩, hgf⟩
      have hqP : q ≠ P := by
        intro hqP
        rw [hqP, hPf] at hqg
        exact hgf (Option.some_injective _ hqg).symm
      exact ⟨q, hq, by rw [hw q hq, if_neg hqP]; exact hqg⟩
  have hft : m.IsTable root f := ⟨P, hP, hPf⟩
  funext g
  by_cases hg : g = f
  · subst hg
    simp only [refs, hl, Function.update_self]
    rw [if_neg fun h => ((hex g).1 h).2 rfl, if_pos hft]
    omega
  · simp only [refs, hl, Function.update_of_ne hg]
    rw [if_congr ((hex g).trans (and_iff_left hg)) rfl rfl]

/-- A page mapped anew moves one user from its old frame to its new one. -/
theorem refs_leaf (hw : ∀ p, p.length ≤ 3 → m'.walk root p = m.walk root p) {q : Vpn}
    {v : Option Entry} (hl : m'.leafAt root = Function.update (m.leafAt root) q v) (g : ℕ) :
    m'.refs root g + (if (m.leafAt root q).map address = some g then 1 else 0) =
      m.refs root g + (if v.map address = some g then 1 else 0) := by
  have hc := Count.card_filter_update (m.leafAt root) q v fun x => x.map address = some g
  simp only [refs, hl]
  rw [if_congr (isTable_iff_of_walk hw) rfl rfl]
  omega

end Refs

/-! ## The shape of the tree -/

/-- An entry of a table at depth `n`, as the 4 KiB operations leave it: a page's entry holds
nothing but its address and its flags. -/
structure EntryOk (n : ℕ) (e : Entry) : Prop where
  zero : e.contains present = false → e = 0
  fit : e.contains present = true → Fits e.address
  noHuge : 1 ≤ n → n ≤ 2 → e.contains hugePage = false
  clean : n = 3 → e &&& ~~~(addressMask ||| flagMask) = 0

/-- The tables at distinct frames, the root's frame a page, and every entry of every table of
the tree as `EntryOk` wants it. -/
structure Shape (m : Mem A) (root : ℕ) : Prop where
  inj : m.Inj root
  root_fit : Fits root
  entry_ok : ∀ p t j, p.length ≤ 3 → m.walk root p = some t → EntryOk p.length (m.entry t j)

theorem entryOk_zero (n : ℕ) : EntryOk n 0 where
  zero _ := rfl
  fit h := absurd h (by rw [contains_zero_present]; decide)
  noHuge _ _ := by decide
  clean _ := by decide

/-- A page's entry, present or not, has no bits outside its address and its flags. -/
theorem EntryOk.and_rest_eq_zero {e : Entry} (hok : EntryOk 3 e) :
    e &&& ~~~(addressMask ||| flagMask) = 0 := by
  cases hp : e.contains present
  · rw [hok.zero hp]
    decide
  · exact hok.clean rfl

theorem inj_of_walk_eq (hinj : m.Inj root)
    (hw : ∀ p, p.length ≤ 3 → m'.walk root p = m.walk root p) : m'.Inj root := by
  intro p q f hp hq hpf hqf
  rw [hw p hp] at hpf
  rw [hw q hq] at hqf
  exact hinj p q f hp hq hpf hqf

/-- The shape carries over to a memory each of whose entries in the tree is either `m`'s entry
at the same position or itself as the shape wants it. -/
theorem Shape.of_entries (hs : m.Shape root) (hinj : m'.Inj root)
    (hent : ∀ q x j, q.length ≤ 3 → m'.walk root q = some x →
      EntryOk q.length (m'.entry x j) ∨ (m.walk root q = some x ∧ m'.entry x j = m.entry x j)) :
    m'.Shape root where
  inj := hinj
  root_fit := hs.root_fit
  entry_ok q x j hq hx := by
    rcases hent q x j hq hx with h | ⟨hw, he⟩
    · exact h
    · exact he ▸ hs.entry_ok q x j hq hw

/-- A table that is no table of the tree is not on any walk. -/
theorem walk_ne_of_not_isTable (hf : ¬m.IsTable root f) (hp : p.length ≤ 3) :
    m.walk root p ≠ some f :=
  fun h => hf ⟨p, hp, h⟩

theorem Shape.eq_zero (hs : m.Shape root) (hp : p.length ≤ 3) (ht : m.walk root p = some t)
    (h : (m.entry t j).contains present = false) : m.entry t j = 0 :=
  (hs.entry_ok p t j hp ht).zero h

/-- A present entry above the last level links the next position of the walk. -/
theorem walk_append_of_present (ht : m.walk root p = some t)
    (h : (m.entry t j).contains present = true) :
    m.walk root (p ++ [j]) = some (m.entry t j).address := by
  simp [walk_append_singleton, ht, nextLevel, h]

/-! ## Counts of present entries -/

/-- The entries of the third and second level count the present entries of the table they
link to, but for a debt `d` at the position of that table. -/
def CountedUpTo (m : Mem A) (root : ℕ) (d : List (Fin 512) → ℤ) : Prop :=
  ∀ p t j, 1 ≤ p.length → p.length ≤ 2 → m.walk root p = some t →
    (m.entry t j).contains present = true →
    ((m.entry t j).getEntryCount : ℤ) + d (p ++ [j]) = m.presentCount (m.entry t j).address

/-- The invariant of a `P4Table` between operations. -/
structure Wf [FrameAlloc A] (m : Mem A) (root : ℕ) : Prop where
  shape : m.Shape root
  counted : m.CountedUpTo root fun _ => 0
  frames : m.Frames (m.refs root)

end Mem

end Cykusz.Virt
