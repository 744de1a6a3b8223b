import Mathlib
import Cykusz.Mm.Virt.Ops

/-!
# `map_flags`, `map_to_flags` and `map_to`

The three share one walk, `mapWith`: link the three tables of the page's path, write the page's
entry, then count what was linked. `mapWith_spec` proves the walk once, for any write of the
page's entry that meets `LeafSpec`; the three operations differ only in that write and in what
they allow the page's new entry to be.
-/

namespace Cykusz.Virt

namespace Mem

variable {A : Type} [FrameAlloc A]

open Entry

variable {m m' : Mem A} {root virt : ℕ} {leaf : Mem A → ℕ → Fin 512 → Option (Bool × Mem A)}
  {q₀ : Vpn} {Q : Option Entry → Prop}

/-- `mapWith` is three `alloc_next_level`, the write of the page's entry, and the counts. -/
theorem mapWith_cases (h : m.mapWith leaf root virt = some m') :
    ∃ w₄ l3 m₁ w₃ l2 m₂ w₂ l1 m₃ inc m₄,
      m.allocNextLevel root (vpnOf (pageNumber virt)).1
        ((vpnOf (pageNumber virt)).1.val < 256) = some (w₄, l3, m₁) ∧
      m₁.allocNextLevel l3 (vpnOf (pageNumber virt)).2.1
        ((vpnOf (pageNumber virt)).1.val < 256) = some (w₃, l2, m₂) ∧
      m₂.allocNextLevel l2 (vpnOf (pageNumber virt)).2.2.1
        ((vpnOf (pageNumber virt)).1.val < 256) = some (w₂, l1, m₃) ∧
      leaf m₃ l1 (vpnOf (pageNumber virt)).2.2.2 = some (inc, m₄) ∧
      m' = (let m₅ := if inc then m₄.incEntryCount l2 (vpnOf (pageNumber virt)).2.2.1 else m₄
        let m₆ := if w₂ then m₅.incEntryCount l3 (vpnOf (pageNumber virt)).2.1 else m₅
        if w₃ then m₆.incEntryCount root (vpnOf (pageNumber virt)).1 else m₆) := by
  unfold mapWith at h
  simp only [Option.bind_eq_bind, Option.bind_eq_some_iff, Option.pure_def, Option.some.injEq] at h
  obtain ⟨⟨w₄, l3, m₁⟩, h1, ⟨w₃, l2, m₂⟩, h2, ⟨w₂, l1, m₃⟩, h3, ⟨inc, m₄⟩, h4, rfl⟩ := h
  exact ⟨_, _, _, _, _, _, _, _, _, _, _, h1, h2, h3, h4, rfl⟩

/-- What `mapWith` asks of the write of the page's entry: from any memory with the invariant,
the page's path linked, the page's entry as in `m` and no free frame that `m` did not have, it
writes the page's entry to some `v` that `Q` allows, and the page's table owes one more present
entry exactly when it says so. -/
def LeafSpec (leaf : Mem A → ℕ → Fin 512 → Option (Bool × Mem A)) (m : Mem A) (root : ℕ) (q₀ : Vpn)
    (Q : Option Entry → Prop) : Prop :=
  ∀ m₁ t d inc m₂, m₁.Shape root → m₁.Frames (m₁.refs root) → m₁.CountedUpTo root d →
    m₁.walk root q₀.path = some t → m₁.leafAt root q₀ = m.leafAt root q₀ →
    (∀ g ∈ m₁.free, g ∈ m.free) → leaf m₁ t q₀.idx = some (inc, m₂) →
    ∃ v, Q v ∧ LeafResult m₁ m₂ root q₀ v
      (Function.update d q₀.path (d q₀.path + if inc then 1 else 0))

/-- A debt taken for a flag and paid back for the same flag is no debt. -/
theorem update_debt_paid (d : List (Fin 512) → ℤ) (P : List (Fin 512)) (b : Bool) :
    (if b then Function.update (Function.update d P (d P + if b then 1 else 0)) P
        (Function.update d P (d P + if b then 1 else 0) P - 1)
      else Function.update d P (d P + if b then 1 else 0)) = d := by
  cases b <;> simp

/-- `map_flags`, `map_to_flags` and `map_to` keep the invariant and change the page's entry only,
to one that the write of the page's entry allows. -/
theorem mapWith_spec (hwf : m.Wf root) (hleaf : LeafSpec leaf m root (vpnOf (pageNumber virt)) Q)
    (h : m.mapWith leaf root virt = some m') :
    m'.Wf root ∧ ∃ v, Q v ∧
      m'.leafAt root = Function.update (m.leafAt root) (vpnOf (pageNumber virt)) v := by
  obtain ⟨w₄, l3, m₁, w₃, l2, m₂, w₂, l1, m₃, inc, m₄, h1, h2, h3, h4, rfl⟩ := mapWith_cases h
  generalize vpnOf (pageNumber virt) = q₀ at hleaf h1 h2 h3 h4 ⊢
  obtain ⟨a, b, c, e⟩ := q₀
  dsimp only at h1 h2 h3 h4
  -- the three tables of the path, linked one after the other
  have L1 := allocNextLevel_spec (p := []) hwf.shape hwf.frames hwf.counted (by simp) walk_nil rfl h1
  have hw₁ : m₁.walk root [a] = some l3 := by rw [L1.walk [a] (by simp)]; simp
  have L2 := allocNextLevel_spec (p := [a]) L1.shape L1.frames L1.counted (by simp) hw₁
    (by simp) h2
  have hw₂ : m₂.walk root [a, b] = some l2 := by rw [L2.walk [a, b] (by simp)]; simp
  have L3 := allocNextLevel_spec (p := [a, b]) L2.shape L2.frames L2.counted (by simp) hw₂
    (by simp) h3
  have hw₃ : m₃.walk root [a, b, c] = some l1 := by rw [L3.walk [a, b, c] (by simp)]; simp
  -- the page's entry
  obtain ⟨v, hQ, LR⟩ := hleaf m₃ l1 _ inc m₄ L3.shape L3.frames L3.counted hw₃
    (by simp [L3.leafAt, L2.leafAt, L1.leafAt])
    (fun g hg => L1.free_sub g (L2.free_sub g (L3.free_sub g hg))) h4
  simp only [Vpn.path] at LR
  have hw₃₂ : m₃.walk root [a, b] = some l2 := by rw [L3.walk _ (by simp)]; simpa using hw₂
  have hw₃₁ : m₃.walk root [a] = some l3 := by
    rw [L3.walk _ (by simp), if_neg (by simp), L2.walk _ (by simp), if_neg (by simp)]
    exact hw₁
  have hv₁ : m₄.walk root [a] = some l3 := (LR.walk _ (by simp)).trans hw₃₁
  have hv₂ : m₄.walk root [a, b] = some l2 := (LR.walk _ (by simp)).trans hw₃₂
  have hv₃ : m₄.walk root [a, b, c] = some l1 := (LR.walk _ (by simp)).trans hw₃
  -- the counts, each paying the debt its level took
  have K5 := incEntryCount_if_spec (b := inc) (p := [a, b]) (i := c) LR.shape LR.frames LR.counted
    (by simp) hv₂ (fun _ => (present_of_walk_append hv₂ hv₃).1)
    (fun hi _ => by simp [hi])
  simp only [List.cons_append, List.nil_append] at K5
  rw [update_debt_paid] at K5
  have K6 := incEntryCount_if_spec (b := w₂) (p := [a]) (i := b) K5.shape K5.frames K5.counted
    (by simp) ((K5.walk _).trans hv₁)
    (fun _ => (present_of_walk_append ((K5.walk _).trans hv₁) ((K5.walk _).trans hv₂)).1)
    (fun hi _ => by simp [hi])
  simp only [List.cons_append, List.nil_append] at K6
  rw [update_debt_paid] at K6
  have K7 := incEntryCount_if_spec (b := w₃) (p := []) (i := a) K6.shape K6.frames K6.counted
    (by simp) walk_nil
    (fun _ => (present_of_walk_append walk_nil ((K6.walk _).trans ((K5.walk _).trans hv₁))).1)
    (fun _ h => absurd h (by simp))
  simp only [List.nil_append] at K7
  rw [update_debt_paid] at K7
  refine ⟨⟨K7.shape, K7.counted.congr fun q hq _ => ?_, K7.frames⟩, v, hQ, ?_⟩
  · -- the root's own debt sits at the empty position, where no count is kept
    have hq0 : q ≠ [] := by rintro rfl; simp at hq
    simp [Function.update_of_ne hq0]
  · rw [K7.leafAt, K6.leafAt, K5.leafAt, LR.leafAt, L3.leafAt, L2.leafAt, L1.leafAt]

/-! ## The writes of the page's entry -/

theorem LeafResult.refl (hs : m.Shape root) (hfr : m.Frames (m.refs root))
    {d : List (Fin 512) → ℤ} (hc : m.CountedUpTo root d) :
    LeafResult m m root q₀ (m.leafAt root q₀) d :=
  ⟨fun _ _ => rfl, by simp, hs, hfr, hc⟩

/-- A write of the page's entry after a write to a frame outside the tree. -/
theorem LeafResult.of_offTree {m₂ m₃ : Mem A} {f : ℕ} {v : Option Entry}
    {d : List (Fin 512) → ℤ} (hm : EqOffFrame m m₂ f) (hf : ¬m.IsTable root f)
    (h : LeafResult m₂ m₃ root q₀ v d) : LeafResult m m₃ root q₀ v d where
  walk q hq := (h.walk q hq).trans (offTree_walk hm hf (by omega))
  leafAt := by rw [h.leafAt, offTree_leafAt hm hf]
  shape := h.shape
  frames := h.frames
  counted := h.counted

theorem debt_not (x : ℤ) (b : Bool) :
    (x + if (!b) = true then 1 else 0) = x + 1 - if b = true then 1 else 0 := by
  cases b <;> simp

/-- `set_frame_flags` with a frame in use or out of the allocator's hands: the page's entry
becomes the frame with the flags, whatever it was. -/
theorem setFrameFlags_leafSpec {fr : ℕ} {fl : Entry} (hfit : Fits fr) (hfree : fr ∉ m.free)
    (hfl : fl.contains present = true) :
    LeafSpec (fun m t i => some (!(m.entry t i).contains present, m.setFrameFlags t i fr fl))
      m root q₀ (· = some (pageEntry fr fl)) := by
  intro m₁ t d inc m₂ hs hfr hc ht _ hsub h
  simp only [Option.some.injEq, Prod.mk.injEq] at h
  obtain ⟨rfl, rfl⟩ := h
  have R := setFrameFlags_spec hs hfr hc ht hfit (fun h => hfree (hsub _ h)) hfl
  have hok := hs.entry_ok q₀.path t q₀.idx (by simp [Vpn.path_length]) ht
  rw [Vpn.path_length] at hok
  rw [setFlags_withFrame_of_clean hfit hok.and_rest_eq_zero, ← debt_not] at R
  exact ⟨_, rfl, R⟩

/-- The write of `map_to_flags`. -/
theorem setFlagsL1_leafSpec {fr : ℕ} {fl : Entry} (hfit : Fits fr) (hfree : fr ∉ m.free) :
    LeafSpec (fun m t i => some (m.setFlagsL1 t i fr fl)) m root q₀
      (· = some (pageEntry fr (present ||| fl))) :=
  setFrameFlags_leafSpec hfit hfree contains_or_left

/-- The write of `map_to`: the frame, writable, only where the page is not mapped. -/
theorem setL1_leafSpec {fr : ℕ} (hfit : Fits fr) (hfree : fr ∉ m.free) :
    LeafSpec (fun m t i => some (m.setL1 t i fr)) m root q₀
      (· = some ((m.leafAt root q₀).getD (pageEntry fr (present ||| writable)))) := by
  intro m₁ t d inc m₂ hs hfr hc ht hleaf hsub h
  have hl := leafAt_of_walk ht
  cases hp : (m₁.entry t q₀.idx).contains present
  · -- not mapped: written as `map_to_flags` would
    have hw := setFrameFlags_leafSpec hfit hfree
      contains_or_left m₁ t d inc m₂ hs hfr hc ht hleaf hsub (by
        simpa [setL1, hp] using h)
    rw [hl, hp] at hleaf
    simpa [← hleaf] using hw
  · -- mapped: nothing changes
    simp only [setL1, hp, Bool.not_true, Bool.false_eq_true, if_false, Option.some.injEq,
      Prod.mk.injEq] at h
    obtain ⟨rfl, rfl⟩ := h
    refine ⟨m₁.leafAt root q₀, ?_, by simpa using LeafResult.refl hs hfr hc⟩
    rw [← hleaf, hl, hp]
    rfl

/-- The write of `map_flags`: the page's frame kept, or a frame from the allocator, cleared. -/
theorem allocSetFlags_leafSpec {fl : Entry} :
    LeafSpec (fun m t i => m.allocSetFlags t i fl) m root q₀
      (fun v => ∃ fr, ((m.leafAt root q₀).map address = some fr ∨
        (m.leafAt root q₀ = none ∧ fr ∈ m.free)) ∧ v = some (pageEntry fr (fl ||| present))) := by
  intro m₁ t d inc m₂ hs hfr hc ht hleaf hsub h
  have hl := leafAt_of_walk ht
  have hok := hs.entry_ok q₀.path t q₀.idx (by simp [Vpn.path_length]) ht
  rw [Vpn.path_length] at hok
  cases hp : (m₁.entry t q₀.idx).contains present
  · -- a cleared frame from the allocator
    simp only [allocSetFlags, hp, Bool.not_false, if_true, Option.bind_eq_bind,
      Option.bind_eq_some_iff, Option.pure_def, Option.some.injEq] at h
    obtain ⟨⟨fr, m₁'⟩, ha, h⟩ := h
    simp only [Prod.mk.injEq] at h
    obtain ⟨rfl, rfl⟩ := h
    obtain ⟨hfr', hRf, hfit, hfree⟩ := hfr.allocate ha
    obtain ⟨-, htab, -, -⟩ := allocate_eq_some ha
    have hnt : ¬m₁.IsTable root fr := not_isTable_of_refs_eq_zero hRf
    have hoff : EqOffFrame m₁ (m₁'.clearFrame fr) fr := fun x j hx => by
      rw [entry_clearFrame, if_neg hx]
      simp [entry, htab]
    have htf : t ≠ fr := fun h => walk_ne_of_not_isTable hnt (by simp [Vpn.path_length]) (h ▸ ht)
    have he : (m₁'.clearFrame fr).entry t q₀.idx = m₁.entry t q₀.idx := hoff t q₀.idx htf
    have R := setFrameFlags_spec (offTree_shape hs hoff hnt)
      (by rw [offTree_refs hoff hnt]; exact hfr'.of_eq rfl rfl rfl) (offTree_counted hoff hnt hc)
      (by rw [offTree_walk hoff hnt (by simp [Vpn.path_length])]; exact ht) hfit
      (by simpa using hfree) (contains_or_right (x := fl))
    rw [he, hok.zero hp, setFlags_withFrame_of_clean hfit (by decide), contains_zero_present] at R
    refine ⟨_, ⟨fr, .inr ⟨?_, hsub fr (mem_free_of_allocate ha)⟩, rfl⟩,
      LeafResult.of_offTree hoff hnt (by simpa using R)⟩
    rw [← hleaf, hl, hp]
    rfl
  · -- the page's own frame, with the flags
    simp only [allocSetFlags, hp, Bool.not_true, Bool.false_eq_true, if_false,
      Option.some.injEq, Prod.mk.injEq] at h
    obtain ⟨rfl, rfl⟩ := h
    have hfit := hok.fit hp
    have hused : (m₁.leafAt root q₀).map address = some (m₁.entry t q₀.idx).address := by
      rw [hl, if_pos hp]
      rfl
    have hfit' : Fits (frameOf (m₁.entry t q₀.idx).address) := by rwa [frameOf_of_fits hfit]
    have R := setFrameFlags_spec hs hfr hc ht hfit' (fun h => refs_ne_zero_of_leafAt hused
        (hfr.free_unused _ (by rwa [frameOf_of_fits hfit] at h)))
      (contains_or_right (x := fl))
    rw [setFlags_withFrame_of_clean hfit' hok.and_rest_eq_zero, hp] at R
    refine ⟨_, ⟨frameOf (m₁.entry t q₀.idx).address,
      .inl (by rw [← hleaf, hused, frameOf_of_fits hfit]), rfl⟩, by simpa using R⟩

/-! ## The three operations -/

section Ops

variable {phys : ℕ} {flags : PageFlags}

/-- `map_to_flags` maps the page, and no other, to the frame of `phys` with the flags, over
whatever it mapped. -/
theorem mapToFlags_spec (hwf : m.Wf root) (hphys : phys < 2 ^ 52) (hfree : frameOf phys ∉ m.free)
    (h : m.mapToFlags root virt phys flags = some m') :
    m'.Wf root ∧ m'.leafAt root = Function.update (m.leafAt root) (vpnOf (pageNumber virt))
      (some (pageEntry (frameOf phys) (present ||| fromKernelFlags flags))) := by
  obtain ⟨hwf', v, rfl, hl⟩ := mapWith_spec hwf (setFlagsL1_leafSpec (fits_frameOf hphys) hfree) h
  exact ⟨hwf', hl⟩

/-- `map_to` maps the page, writable, to the frame of `phys` when it was not mapped, and
changes nothing else. -/
theorem mapTo_spec (hwf : m.Wf root) (hphys : phys < 2 ^ 52) (hfree : frameOf phys ∉ m.free)
    (h : m.mapTo root virt phys = some m') :
    m'.Wf root ∧ m'.leafAt root = Function.update (m.leafAt root) (vpnOf (pageNumber virt))
      (some ((m.leafAt root (vpnOf (pageNumber virt))).getD
        (pageEntry (frameOf phys) (present ||| writable)))) := by
  obtain ⟨hwf', v, rfl, hl⟩ := mapWith_spec hwf (setL1_leafSpec (fits_frameOf hphys) hfree) h
  exact ⟨hwf', hl⟩

/-- `map_flags` maps the page with the flags, to its own frame if it was mapped and to a frame
that was free otherwise, and changes nothing else. -/
theorem mapFlags_spec (hwf : m.Wf root) (h : m.mapFlags root virt flags = some m') :
    m'.Wf root ∧ ∃ fr, ((m.leafAt root (vpnOf (pageNumber virt))).map address = some fr ∨
      (m.leafAt root (vpnOf (pageNumber virt)) = none ∧ fr ∈ m.free)) ∧
      m'.leafAt root = Function.update (m.leafAt root) (vpnOf (pageNumber virt))
        (some (pageEntry fr (fromKernelFlags flags ||| present))) := by
  obtain ⟨hwf', v, ⟨fr, hfr, rfl⟩, hl⟩ := mapWith_spec hwf allocSetFlags_leafSpec h
  exact ⟨hwf', fr, hfr, hl⟩

end Ops

end Mem

end Cykusz.Virt
