import Mathlib
import Cykusz.Mm.Virt.Map

/-!
# Unmapping a page

`unmap` clears the page's entry (`Table<Level1>::do_unmap`) and walks back up: each `do_unmap`
above the last level drops the count of the entry it passes, and releases the table below with
its last entry. In the writes of `Steps`, `doUnmapL1_spec` writes the page's entry, and
`doUnmap_spec` moves a count (`keepLink`) and, when the count reaches zero, unlinks the emptied
table (`unlink`), after `unref_phys_page` has dropped the table's page, which writes no table.
`unmap_spec` assembles them: `unmap` always returns, unmaps the page and no other, and keeps the
invariant.

The walk back up stops below the root: the root's entry is never passed to `do_unmap`, so its
count only grows and the tables of the third level are never released (`unmap_root_count`).
-/

namespace Cykusz.Virt

namespace Mem

variable {A : Type}

open Entry

variable {m m' : Mem A} {root t c : ℕ} {i : Fin 512} {p : List (Fin 512)}
  {d : List (Fin 512) → ℤ}

/-! ## Writes to the use counts alone -/

section Tables

variable (h : m'.tables = m.tables)
include h

theorem entry_of_tables_eq (t : ℕ) (j : Fin 512) : m'.entry t j = m.entry t j := by
  simp only [entry, h]

theorem walk_of_tables_eq (q : List (Fin 512)) : m'.walk root q = m.walk root q :=
  walk_congr fun _ _ _ _ _ => nextLevel_eq_of_entry_eq (entry_of_tables_eq h _ _)

theorem leafAt_of_tables_eq : m'.leafAt root = m.leafAt root :=
  funext fun _ => leafAt_congr (walk_of_tables_eq h _) fun _ _ => entry_of_tables_eq h _ _

theorem refs_of_tables_eq : m'.refs root = m.refs root := by
  apply refs_congr
  · intro q _
    exact walk_of_tables_eq h q
  · exact leafAt_of_tables_eq h

theorem Shape.of_tables_eq (hs : m.Shape root) : m'.Shape root := by
  apply hs.of_entries (inj_of_walk_eq hs.inj fun q _ => walk_of_tables_eq h q)
  intro q x j _ hx
  rw [walk_of_tables_eq h] at hx
  exact .inr ⟨hx, entry_of_tables_eq h x j⟩

theorem presentCount_of_tables_eq (t : ℕ) : m'.presentCount t = m.presentCount t :=
  presentCount_congr fun k => by rw [entry_of_tables_eq h]

theorem CountedUpTo.of_tables_eq (hc : m.CountedUpTo root d) : m'.CountedUpTo root d := by
  intro q x j hq1 hq2 hx hpx
  rw [walk_of_tables_eq h] at hx
  rw [entry_of_tables_eq h] at hpx ⊢
  rw [presentCount_of_tables_eq h]
  exact hc q x j hq1 hq2 hx hpx

end Tables

theorem leafAt_eq_none_of_walk {q : Vpn} (h : m.walk root q.path = none) :
    m.leafAt root q = none := by
  simp [leafAt, h]

theorem walk_cons (j : Fin 512) (r : List (Fin 512)) :
    m.walk t (j :: r) = (m.nextLevel t j).bind fun t' => m.walk t' r := by
  simp only [walk, List.foldlM_cons]
  rfl

/-! ## The page's entry -/

variable [FrameAlloc A]

/-- `Table<Level1>::do_unmap` of the page `q₀`'s entry: the page is unmapped, its frame loses a
user, and its table owes one present entry less when there was one. -/
theorem doUnmapL1_spec {q₀ : Vpn} (hs : m.Shape root) (hfr : m.Frames (m.refs root))
    (hc : m.CountedUpTo root d) (ht : m.walk root q₀.path = some t) :
    LeafResult m (m.doUnmapL1 t q₀.idx).2 root q₀ none
      (Function.update d q₀.path
        (d q₀.path - if (m.doUnmapL1 t q₀.idx).1 then 1 else 0)) := by
  have hl := leafAt_of_walk ht
  by_cases hp : (m.entry t q₀.idx).contains present
  · -- the page's frame is released, then the entry cleared
    simp only [doUnmapL1, hp, if_true]
    rw [if_pos hp] at hl
    have hR : m.refs root (m.entry t q₀.idx).address ≠ 0 :=
      refs_ne_zero_of_leafAt (q := q₀) (by rw [hl]; rfl)
    have hfr₁ := hfr.unrefPhysPage hR
    have htab := tables_unrefPhysPage (m := m) (m.entry t q₀.idx).address
    generalize (m.unrefPhysPage (m.entry t q₀.idx).address).2 = m₁ at hfr₁ htab ⊢
    generalize ha : (m.entry t q₀.idx).address = a at hR hfr₁
    have ht₁ : m₁.walk root q₀.path = some t := by rw [walk_of_tables_eq htab]; exact ht
    have hinj₁ : m₁.Inj root := (hs.of_tables_eq htab).inj
    have hm : EqOff m₁ (m₁.setEntry t q₀.idx 0) t q₀.idx := fun x j hxj => by
      rw [entry_setEntry, if_neg hxj]
    have h0 : (m₁.setEntry t q₀.idx 0).entry t q₀.idx = 0 := entry_setEntry_self
    have hok : EntryOk 3 ((m₁.setEntry t q₀.idx 0).entry t q₀.idx) := by
      rw [h0]
      exact entryOk_zero 3
    have hl₁ := leaf_leafAt hinj₁ ht₁ hm
    rw [h0, contains_zero_present, leafAt_of_tables_eq htab] at hl₁
    refine ⟨fun q hq => (leaf_walk hinj₁ ht₁ hm hq).trans (walk_of_tables_eq htab q), hl₁,
      leaf_shape hinj₁ ht₁ hm (hs.of_tables_eq htab) hok, ?_, ?_⟩
    · -- the page's user of `a` is gone
      have hrefs : (m₁.setEntry t q₀.idx 0).refs root =
          Function.update (m.refs root) a (m.refs root a - 1) := by
        funext g
        have := leaf_refs hinj₁ ht₁ hm g
        rw [leafAt_of_tables_eq htab, hl, h0, refs_of_tables_eq htab] at this
        simp only [contains_zero_present, Bool.false_eq_true, if_false, Option.map_none,
          reduceCtorEq, Option.map_some, Option.some.injEq, ha] at this
        by_cases hg : g = a
        · subst hg
          rw [if_pos rfl] at this
          rw [Function.update_self]
          omega
        · rw [if_neg (Ne.symm hg)] at this
          rw [Function.update_of_ne hg]
          omega
      rw [hrefs]
      exact hfr₁.of_eq rfl rfl rfl
    · have hcnt := leaf_counted hinj₁ ht₁ hm (hc.of_tables_eq htab)
      rwa [h0, entry_of_tables_eq htab, hp, contains_zero_present, if_pos rfl, if_neg (by simp),
        add_zero] at hcnt
  · -- nothing is mapped there: nothing changes
    simp only [doUnmapL1, hp, Bool.false_eq_true, if_false, sub_zero, Function.update_eq_self]
    rw [if_neg hp] at hl
    simpa [hl] using (LeafResult.refl hs hfr hc : LeafResult m m root q₀ _ d)

/-! ## The counts above the last level -/

/-- What `do_unmap` above the last level leaves: the position `P` below its entry gone when the
table there was released (`r`), every other walk and every page as they were, and the
invariant with the debt `d'`. -/
structure DropResult (m m' : Mem A) (root : ℕ) (P : List (Fin 512)) (r : Bool)
    (d' : List (Fin 512) → ℤ) : Prop where
  walk : ∀ q, q.length ≤ 3 →
    m'.walk root q = if r = true ∧ q = P then none else m.walk root q
  leafAt : m'.leafAt root = m.leafAt root
  shape : m'.Shape root
  frames : m'.Frames (m'.refs root)
  counted : m'.CountedUpTo root d'

theorem doUnmap_of_decEntryCount {e' : Entry} (h : (m.entry t i).decEntryCount = some e') :
    m.doUnmap t i = some (if e'.getEntryCount = 0 then
      (true, ((m.setEntry t i e').unrefPhysPage e'.address).2.setEntry t i 0)
      else (false, m.setEntry t i e')) := by
  by_cases hz : e'.getEntryCount = 0 <;> simp [doUnmap, h, hz]

/-- The emptied table below the entry `i` of the table at `p` released: its page loses its one
user, the position below the entry is gone, and the table at `p` owes one present entry less. -/
theorem releaseEmpty_result {m₁ : Mem A} {d₁ : List (Fin 512) → ℤ} (K : KeepResult m m₁ root d₁)
    (hp : p.length ≤ 2) (ht : m.walk root p = some t) (hchild : m.walk root (p ++ [i]) = some c)
    (hpr : (m₁.entry t i).contains present = true) (ha : (m₁.entry t i).address = c)
    (hempty₁ : m₁.Empty c) :
    DropResult m ((m₁.unrefPhysPage c).2.setEntry t i 0) root (p ++ [i]) true
      (Function.update d₁ p (d₁ p - 1)) := by
  have hR : m₁.refs root c ≠ 0 := by
    apply refs_ne_zero_of_isTable
    exact ⟨p ++ [i], by simp; omega, by rw [K.walk]; exact hchild⟩
  have hfr₂ := K.frames.unrefPhysPage hR
  have htab := tables_unrefPhysPage (m := m₁) c
  generalize (m₁.unrefPhysPage c).2 = m₂ at hfr₂ htab ⊢
  have hs₂ := K.shape.of_tables_eq htab
  have ht₂ : m₂.walk root p = some t := by rw [walk_of_tables_eq htab, K.walk]; exact ht
  have hm' : EqOff m₂ (m₂.setEntry t i 0) t i := fun x j hxj => by
    rw [entry_setEntry, if_neg hxj]
  have hpr₂ : (m₂.entry t i).contains present = true := by rw [entry_of_tables_eq htab, hpr]
  have hc₂ : (m₂.entry t i).address = c := by rw [entry_of_tables_eq htab, ha]
  have hempty₂ : m₂.Empty c := fun j => by
    rw [entry_of_tables_eq htab]
    exact hempty₁ j
  have h0 : (m₂.setEntry t i 0).entry t i = 0 := entry_setEntry_self
  have hinj₂ := hs₂.inj
  refine ⟨fun q hq => ?_, ?_, unlink_shape hinj₂ hp ht₂ hm' hpr₂ hc₂ hempty₂ h0 hs₂, ?_, ?_⟩
  · rw [unlink_walk hinj₂ hp ht₂ hm' hpr₂ hc₂ hempty₂ h0 hq, walk_of_tables_eq htab, K.walk]
    simp only [true_and]
  · rw [unlink_leafAt hinj₂ hp ht₂ hm' hpr₂ hc₂ hempty₂ h0, leafAt_of_tables_eq htab, K.leafAt]
  · -- the table's one user, its position, is gone
    rw [unlink_refs hinj₂ hp ht₂ hm' hpr₂ hc₂ hempty₂ h0, refs_of_tables_eq htab]
    exact hfr₂.of_eq rfl rfl rfl
  · exact unlink_counted hinj₂ hp ht₂ hm' hpr₂ hc₂ hempty₂ h0 (K.counted.of_tables_eq htab)

/-- `do_unmap` of the entry `i` of the table at `p`, after the table below lost one present
entry: the count drops to the number of present entries left there, and the table is released
exactly when none is left. -/
theorem doUnmap_spec (hs : m.Shape root) (hfr : m.Frames (m.refs root))
    (hc : m.CountedUpTo root d) (hp1 : 1 ≤ p.length) (hp : p.length ≤ 2)
    (ht : m.walk root p = some t) (hpr : (m.entry t i).contains present = true)
    (hd : d (p ++ [i]) = -1) :
    ∃ r m', m.doUnmap t i = some (r, m') ∧ (r = true ↔ m.Empty (m.entry t i).address) ∧
      DropResult m m' root (p ++ [i]) r
        (Function.update (Function.update d (p ++ [i]) 0) p (d p - if r then 1 else 0)) := by
  have hok := hs.entry_ok p t i (by omega) ht
  have hchild := walk_append_of_present ht hpr
  have hct : (m.entry t i).address ≠ t := fun h => by
    have := eq_of_walk_self hs.inj (by omega) ht (by simp; omega) (h ▸ hchild)
    simp at this
  -- the count is one more than the present entries left below
  have hcnt := hc p t i hp1 hp ht hpr
  rw [hd] at hcnt
  have hle := presentCount_le m (m.entry t i).address
  have hdec : (m.entry t i).decEntryCount =
      some ((m.entry t i).setEntryCount ((m.entry t i).getEntryCount - 1)) := by
    simp [decEntryCount, show (m.entry t i).getEntryCount ≠ 0 by omega]
  obtain ⟨hpr', ha, hok'⟩ := setEntryCount_keeps ((m.entry t i).getEntryCount - 1) hok hpr hp
  have hcount' : ((m.entry t i).setEntryCount ((m.entry t i).getEntryCount - 1)).getEntryCount =
      m.presentCount (m.entry t i).address := by
    rw [getEntryCount_setEntryCount, Nat.mod_eq_of_lt (by omega)]
    omega
  rw [doUnmap_of_decEntryCount hdec, address_setEntryCount]
  -- the count is rewritten under its link
  have hm : EqOff m (m.setEntry t i ((m.entry t i).setEntryCount
      ((m.entry t i).getEntryCount - 1))) t i := fun x j hxj => by rw [entry_setEntry, if_neg hxj]
  have hent := entry_setEntry_self (m := m) (t := t) (i := i)
    (e := (m.entry t i).setEntryCount ((m.entry t i).getEntryCount - 1))
  generalize he' : (m.entry t i).setEntryCount ((m.entry t i).getEntryCount - 1) = e' at *
  generalize hm₁ : m.setEntry t i e' = m₁ at hm hent ⊢
  rw [← hent] at hpr' ha hok'
  have K : KeepResult m m₁ root (Function.update d (p ++ [i]) 0) :=
    keepLink_result hs hfr hc hp ht hm hpr' ha hok' (by rw [← hm₁]; rfl)
      (by rw [← hm₁]; rfl) (by rw [← hm₁]; rfl)
      (fun _ => by rw [hent, hcount', Function.update_self, hd]; omega)
      (fun q hq => Function.update_of_ne hq _ _)
  have hempty : m.Empty (m.entry t i).address ↔ m₁.presentCount (m.entry t i).address = 0 := by
    rw [presentCount_eqOff_ne hm hct, presentCount_eq_zero_iff]
  have hdp : Function.update d (p ++ [i]) 0 p = d p := Function.update_of_ne (by simp) _ _
  generalize hcdef : (m.entry t i).address = c at *
  by_cases hz : e'.getEntryCount = 0
  · -- the table below is empty: its page is released and its entry cleared
    rw [if_pos hz]
    have hempty₁ : m₁.Empty c := presentCount_eq_zero_iff.1 (by
      rw [presentCount_eqOff_ne hm hct]
      omega)
    refine ⟨true, _, rfl, iff_of_true rfl (presentCount_eq_zero_iff.1 (by omega)), ?_⟩
    have hpr₁ : (m₁.entry t i).contains present = true := by rw [hpr', hpr]
    have := releaseEmpty_result K hp ht hchild hpr₁ ha hempty₁
    rwa [hdp] at this
  · -- entries are left below: only the count moved
    rw [if_neg hz]
    refine ⟨false, m₁, rfl, iff_of_false (by simp) fun h => hz ?_, ?_⟩
    · rw [hcount']
      exact presentCount_eq_zero_iff.2 h
    · simp only [Bool.false_eq_true, if_false, sub_zero]
      rw [← hdp, Function.update_eq_self]
      exact ⟨fun q _ => K.walk q, K.leafAt, K.shape, K.frames, K.counted⟩

/-! ## `unmap` -/

/-- `unmap` always returns, unmaps the page and no other, and keeps the invariant. -/
theorem unmap_spec (hwf : m.Wf root) (virt : ℕ) :
    ∃ m', m.unmap root virt = some m' ∧ m'.Wf root ∧
      m'.leafAt root = Function.update (m.leafAt root) (vpnOf (pageNumber virt)) none := by
  obtain ⟨hs, hc, hfr⟩ := hwf
  -- a table missing on the way: the page is not mapped and nothing changes
  have hkeep : m.walk root (vpnOf (pageNumber virt)).path = none → ∃ m', some m = some m' ∧
      m'.Wf root ∧
      m'.leafAt root = Function.update (m.leafAt root) (vpnOf (pageNumber virt)) none :=
    fun h => ⟨m, rfl, ⟨hs, hc, hfr⟩,
      (Function.update_eq_self_iff.2 (leafAt_eq_none_of_walk h).symm).symm⟩
  simp only [unmap]
  cases h4 : m.nextLevel root (p4Index (pageNumber virt)) with
  | none => exact hkeep (by simp [Vpn.path, vpnOf, walk_cons, h4])
  | some l3 =>
  dsimp only
  cases h3 : m.nextLevel l3 (p3Index (pageNumber virt)) with
  | none => exact hkeep (by simp [Vpn.path, vpnOf, walk_cons, h4, h3])
  | some l2 =>
  dsimp only
  cases h2 : m.nextLevel l2 (p2Index (pageNumber virt)) with
  | none => exact hkeep (by simp [Vpn.path, vpnOf, walk_cons, h4, h3, h2])
  | some l1 =>
  dsimp only
  -- the page's four indices
  rw [show vpnOf (pageNumber virt) = (p4Index (pageNumber virt), p3Index (pageNumber virt),
    p2Index (pageNumber virt), p1Index (pageNumber virt)) from rfl]
  generalize p4Index (pageNumber virt) = a at h4 ⊢
  generalize p3Index (pageNumber virt) = b at h3 ⊢
  generalize p2Index (pageNumber virt) = c at h2 ⊢
  generalize p1Index (pageNumber virt) = e
  have hw₁ : m.walk root [a] = some l3 := by simp [walk_cons, h4, walk_nil]
  have hw₂ : m.walk root [a, b] = some l2 := by simp [walk_cons, h4, h3, walk_nil]
  have hw₃ : m.walk root [a, b, c] = some l1 := by simp [walk_cons, h4, h3, h2, walk_nil]
  -- the page's entry
  have L := doUnmapL1_spec hs hfr hc
    (show m.walk root (Vpn.path (a, b, c, e)) = some l1 from hw₃)
  cases hr : m.doUnmapL1 l1 e with
  | mk r1 m₁ =>
  simp only [Vpn.path, Vpn.idx, hr] at L
  dsimp only
  cases r1 with
  | false =>
    refine ⟨m₁, rfl, ⟨L.shape, L.counted.congr fun q _ _ => ?_, L.frames⟩, L.leafAt⟩
    simp [Function.update_apply]
  | true =>
    -- the page's table lost its entry: the count above it drops
    have hw₂' : m₁.walk root [a, b] = some l2 := by rw [L.walk _ (by simp)]; exact hw₂
    have hw₃' : m₁.walk root ([a, b] ++ [c]) = some l1 := by
      rw [L.walk _ (by simp)]
      exact hw₃
    obtain ⟨r2, m₂, h2eq, -, D2⟩ := doUnmap_spec L.shape L.frames L.counted (by simp)
      (by simp) hw₂' (present_of_walk_append hw₂' hw₃').1 (by simp)
    simp only [if_true, h2eq, Option.bind_eq_bind, Option.bind_some]
    cases r2 with
    | false =>
      refine ⟨m₂, rfl, ⟨D2.shape, D2.counted.congr fun q _ _ => ?_, D2.frames⟩,
        by rw [D2.leafAt, L.leafAt]⟩
      simp [Function.update_apply]
    | true =>
      -- the last table was released: the count above it drops in turn
      have hv₁ : m₂.walk root [a] = some l3 := by
        rw [D2.walk _ (by simp), if_neg (by simp), L.walk _ (by simp)]
        exact hw₁
      have hv₂ : m₂.walk root ([a] ++ [b]) = some l2 := by
        rw [D2.walk _ (by simp), if_neg (by simp), L.walk _ (by simp)]
        exact hw₂
      obtain ⟨r3, m₃, h3eq, -, D3⟩ := doUnmap_spec D2.shape D2.frames D2.counted (by simp)
        (by simp) hv₁ (present_of_walk_append hv₁ hv₂).1 (by simp)
      simp only [if_true, h3eq, Option.bind_some]
      refine ⟨m₃, rfl, ⟨D3.shape, D3.counted.congr fun q hq2 _ => ?_, D3.frames⟩,
        by rw [D3.leafAt, D2.leafAt, L.leafAt]⟩
      -- the debt left at the position of the third level's table is where no count is kept
      have hqa : q ≠ [a] := by
        rintro rfl
        simp at hq2
      simp [hqa]

theorem doUnmapL1_entry_of_ne {t' : ℕ} (j : Fin 512) (h : t' ≠ t) :
    (m.doUnmapL1 t i).2.entry t' j = m.entry t' j := by
  unfold doUnmapL1
  split_ifs
  · rw [entry_setEntry, if_neg fun h' => h h'.1, entry_unrefPhysPage]
  · rfl

theorem doUnmap_entry_of_ne {t' : ℕ} {r : Bool} (j : Fin 512) (h : t' ≠ t)
    (hu : m.doUnmap t i = some (r, m')) : m'.entry t' j = m.entry t' j := by
  simp only [doUnmap, Option.bind_eq_bind, Option.bind_eq_some_iff] at hu
  obtain ⟨e', -, hu⟩ := hu
  have hne : ¬(t' = t ∧ j = i) := fun h' => h h'.1
  split_ifs at hu <;> simp only [Option.pure_def, Option.some.injEq, Prod.mk.injEq] at hu <;>
    obtain ⟨-, rfl⟩ := hu
  · rw [entry_setEntry, if_neg hne, entry_unrefPhysPage, entry_setEntry, if_neg hne]
  · rw [entry_setEntry, if_neg hne]

/-- `unmap` writes no entry of the root table: the walk back up stops below it. -/
theorem unmap_entry_root (hs : m.Shape root) {virt : ℕ} (h : m.unmap root virt = some m')
    (j : Fin 512) : m'.entry root j = m.entry root j := by
  -- the tables below the root sit at positions of positive length, so at other frames
  have hne : ∀ p t, p ≠ [] → p.length ≤ 3 → m.walk root p = some t → t ≠ root := by
    rintro p t hp hl ht rfl
    exact hp (hs.inj p [] t hl (by simp) ht walk_nil)
  simp only [unmap] at h
  cases h4 : m.nextLevel root (p4Index (pageNumber virt)) with
  | none => simp only [h4, Option.some.injEq] at h; rw [h]
  | some l3 =>
  cases h3 : m.nextLevel l3 (p3Index (pageNumber virt)) with
  | none => simp only [h4, h3, Option.some.injEq] at h; rw [h]
  | some l2 =>
  cases h2 : m.nextLevel l2 (p2Index (pageNumber virt)) with
  | none => simp only [h4, h3, h2, Option.some.injEq] at h; rw [h]
  | some l1 =>
  simp only [h4, h3, h2] at h
  have hl3 := hne [p4Index (pageNumber virt)] l3 (by simp) (by simp)
    (by simp [walk_cons, h4, walk_nil])
  have hl2 := hne [p4Index (pageNumber virt), p3Index (pageNumber virt)] l2 (by simp) (by simp)
    (by simp [walk_cons, h4, h3, walk_nil])
  have hl1 := hne [p4Index (pageNumber virt), p3Index (pageNumber virt),
    p2Index (pageNumber virt)] l1 (by simp) (by simp) (by simp [walk_cons, h4, h3, h2, walk_nil])
  have h1 := doUnmapL1_entry_of_ne (m := m) (i := p1Index (pageNumber virt)) j hl1.symm
  generalize m.doUnmapL1 l1 (p1Index (pageNumber virt)) = x at h h1
  obtain ⟨r1, m₁⟩ := x
  cases r1 with
  | false =>
    simp only [Bool.false_eq_true, if_false, Option.pure_def, Option.some.injEq] at h
    rw [← h, h1]
  | true =>
    simp only [if_true, Option.bind_eq_bind, Option.bind_eq_some_iff] at h
    obtain ⟨⟨r2, m₂⟩, h2eq, h⟩ := h
    have e2 := doUnmap_entry_of_ne j hl2.symm h2eq
    cases r2 with
    | false =>
      simp only [Bool.false_eq_true, if_false, Option.pure_def, Option.some.injEq] at h
      rw [← h, e2, h1]
    | true =>
      simp only [if_true, Option.bind_eq_some_iff, Option.pure_def, Option.some.injEq] at h
      obtain ⟨⟨r3, m₃⟩, h3eq, rfl⟩ := h
      rw [doUnmap_entry_of_ne j hl3.symm h3eq, e2, h1]

/-! ### The root's counts

The root's entries count the present entries of the tables of the third level (`map_*` adds one
for each table of the second level it links), but the walk back up of `unmap` never reaches
them. A page mapped and unmapped in a new table leaves the root's entry counting one present entry
in a table of the third level that has none, and that table linked. -/

/-- Sixteen pages of physical memory, nothing in use, the frames `0x1000` to `0x8000` free. -/
def bootMem : Mem FreeList :=
  ⟨fun _ _ => 0, ⟨[0x1000, 0x2000, 0x3000, 0x4000, 0x5000, 0x6000, 0x7000, 0x8000], by decide⟩,
    fun _ => 0, 16⟩

/-- Present, writable, for user space. -/
def userRW : PageFlags := ⟨true, true, false, false, false, false, false⟩

/-- A new `P4Table`, the page at address 0 mapped to the frame at `0xA000`, then unmapped. -/
def mapUnmapRun : Option (Mem FreeList) := do
  let (root, m) ← bootMem.newTable
  let m ← m.mapToFlags root 0 0xA000 userRW
  m.unmap root 0

/-- After the run, the root's entry counts one present entry in the table at `0x2000`, which has
none and is still linked. -/
theorem unmap_root_count_stale :
    mapUnmapRun.isSome = true ∧
      ((mapUnmapRun.getD bootMem).entry 0x1000 0).getEntryCount = 1 ∧
      (mapUnmapRun.getD bootMem).nextLevel 0x1000 0 = some 0x2000 ∧
      (mapUnmapRun.getD bootMem).presentCount 0x2000 = 0 := by
  decide +kernel

end Mem

end Cykusz.Virt
