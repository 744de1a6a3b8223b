import Mathlib
import Cykusz.Mm.Virt.Shape

/-!
# The five kinds of write

Every 4 KiB operation of a `P4Table` is a sequence of writes of five kinds, and this module says
once, for each kind, what it does to the walks, to the pages' entries, to the shape, to the users
of each frame and to the counts of present entries:

* `keepLink`: a write to a present entry above the last level that keeps it present and keeps its
  address (`set_flags` on a linked entry, `inc_entry_count`, `dec_entry_count`);
* `offTree`: a write to a frame that is no table of the tree (`Frame::clear` of a new frame);
* `link`: a cleared table linked under an entry that was not present (`alloc_next_level`);
* `leaf`: a write to an entry of a table of the last level (`set`, `set_flags`, `do_unmap`,
  `change_entry`);
* `unlink`: a present entry above the last level cleared while its table is empty (`do_unmap`
  above the last level).
-/

namespace Cykusz.Virt

namespace Mem

variable {A : Type}

open Entry

variable {m m' : Mem A} {root t f c : ℕ} {i j : Fin 512} {p q : List (Fin 512)}
  {d d' : List (Fin 512) → ℤ}

/-! ## Counting present entries -/

theorem presentCount_congr (h : ∀ j, (m'.entry t j).contains present = (m.entry t j).contains present) :
    m'.presentCount t = m.presentCount t := by
  simp only [presentCount, h]

theorem presentCount_le (m : Mem A) (t : ℕ) : m.presentCount t ≤ 512 := by
  unfold presentCount
  exact (Finset.card_filter_le _ _).trans (by simp)

theorem presentCount_eq_zero_iff : m.presentCount t = 0 ↔ m.Empty t := by
  simp [presentCount, Empty]

theorem presentCount_eqOff_ne (hm : EqOff m m' t i) (hc : c ≠ t) :
    m'.presentCount c = m.presentCount c :=
  presentCount_congr fun j => by rw [hm c j fun h => hc h.1]

/-- One entry of a table changes its count of present entries by what it contributes. -/
theorem presentCount_eqOff (hm : EqOff m m' t i) :
    (m'.presentCount t : ℤ) + (if (m.entry t i).contains present then 1 else 0) =
      m.presentCount t + (if (m'.entry t i).contains present then 1 else 0) := by
  have h := Count.card_filter_of_eq_off (u := m.entry t) (v := m'.entry t) (a := i)
    (fun j hj => hm t j fun h => hj h.2) fun e => e.contains present = true
  simp only [presentCount]
  split_ifs at h ⊢ <;> omega

theorem presentCount_eqOffFrame_ne (hm : EqOffFrame m m' f) (hc : c ≠ f) :
    m'.presentCount c = m.presentCount c :=
  presentCount_congr fun j => by rw [hm c j hc]

theorem nextLevel_eq_of_link
    (hp : (m'.entry t i).contains present = (m.entry t i).contains present)
    (ha : (m'.entry t i).address = (m.entry t i).address) :
    m'.nextLevel t i = m.nextLevel t i := by
  simp only [nextLevel, hp, ha]

/-- A debt that agrees at every position a count is kept for gives the same counts. -/
theorem CountedUpTo.congr (hc : m.CountedUpTo root d)
    (hd : ∀ q, 2 ≤ q.length → q.length ≤ 3 → d' q = d q) : m.CountedUpTo root d' := by
  intro q x j hq1 hq2 hx hpr
  rw [hd (q ++ [j]) (by simp; omega) (by simp; omega)]
  exact hc q x j hq1 hq2 hx hpr

/-! ## `keepLink`: a present entry above the last level, rewritten with its link -/

theorem keepLink_walk (hm : EqOff m m' t i)
    (hpr : (m'.entry t i).contains present = (m.entry t i).contains present)
    (ha : (m'.entry t i).address = (m.entry t i).address) (q : List (Fin 512)) :
    m'.walk root q = m.walk root q :=
  walk_eqOff_of_link hm (nextLevel_eq_of_link hpr ha)

theorem keepLink_leafAt (hinj : m.Inj root) (hp : p.length ≤ 2) (ht : m.walk root p = some t)
    (hm : EqOff m m' t i)
    (hpr : (m'.entry t i).contains present = (m.entry t i).contains present)
    (ha : (m'.entry t i).address = (m.entry t i).address) :
    m'.leafAt root = m.leafAt root :=
  funext (leafAt_eqOff_of_link hinj hp ht hm (nextLevel_eq_of_link hpr ha))

theorem keepLink_presentCount (hm : EqOff m m' t i)
    (hpr : (m'.entry t i).contains present = (m.entry t i).contains present) (c : ℕ) :
    m'.presentCount c = m.presentCount c := by
  apply presentCount_congr
  intro j
  by_cases hc : c = t ∧ j = i
  · obtain ⟨rfl, rfl⟩ := hc
    exact hpr
  · rw [hm c j hc]

theorem keepLink_refs (hinj : m.Inj root) (hp : p.length ≤ 2) (ht : m.walk root p = some t)
    (hm : EqOff m m' t i)
    (hpr : (m'.entry t i).contains present = (m.entry t i).contains present)
    (ha : (m'.entry t i).address = (m.entry t i).address) :
    m'.refs root = m.refs root :=
  refs_congr (fun q _ => keepLink_walk hm hpr ha q) (keepLink_leafAt hinj hp ht hm hpr ha)

/-- The position of a table of the tree is the only one that reaches it. -/
theorem eq_of_walk_self (hinj : m.Inj root) (hp : p.length ≤ 3) (ht : m.walk root p = some t)
    (hq : q.length ≤ 3) (hqt : m.walk root q = some t) : q = p :=
  hinj q p t hq hp hqt ht

theorem keepLink_shape (hs : m.Shape root) (hp : p.length ≤ 2) (ht : m.walk root p = some t)
    (hm : EqOff m m' t i)
    (hpr : (m'.entry t i).contains present = (m.entry t i).contains present)
    (ha : (m'.entry t i).address = (m.entry t i).address)
    (hok : EntryOk p.length (m'.entry t i)) : m'.Shape root := by
  have hw : ∀ q, m'.walk root q = m.walk root q := keepLink_walk hm hpr ha
  apply hs.of_entries (inj_of_walk_eq hs.inj fun q _ => hw q)
  intro q x j hq hx
  rw [hw] at hx
  by_cases hc : x = t ∧ j = i
  · obtain ⟨rfl, rfl⟩ := hc
    left
    rwa [eq_of_walk_self hs.inj (by omega) ht hq hx]
  · exact .inr ⟨hx, hm x j hc⟩

/-- The count of the rewritten entry moves against the debt at its position. -/
theorem keepLink_counted (hinj : m.Inj root) (hp : p.length ≤ 2) (ht : m.walk root p = some t)
    (hm : EqOff m m' t i)
    (hpr : (m'.entry t i).contains present = (m.entry t i).contains present)
    (ha : (m'.entry t i).address = (m.entry t i).address) (hc : m.CountedUpTo root d)
    (hcount : 1 ≤ p.length → ((m'.entry t i).getEntryCount : ℤ) + d' (p ++ [i]) =
      (m.entry t i).getEntryCount + d (p ++ [i]))
    (hd : ∀ q, q ≠ p ++ [i] → d' q = d q) : m'.CountedUpTo root d' := by
  intro q x j hq1 hq2 hx hpx
  rw [keepLink_walk hm hpr ha] at hx
  rw [keepLink_presentCount hm hpr]
  by_cases hxj : x = t ∧ j = i
  · obtain ⟨rfl, rfl⟩ := hxj
    obtain rfl := eq_of_walk_self hinj (by omega) ht (by omega) hx
    rw [hcount hq1, ha]
    exact hc q x j hq1 hq2 hx (hpr ▸ hpx)
  · have hne : q ++ [j] ≠ p ++ [i] := by
      intro h
      obtain ⟨rfl, hji⟩ := List.append_inj' h rfl
      simp only [List.cons.injEq, and_true] at hji
      exact hxj ⟨Option.some_injective _ (hx.symm.trans ht), hji⟩
    rw [hm x j hxj] at hpx ⊢
    rw [hd _ hne]
    exact hc q x j hq1 hq2 hx hpx

/-- The child of a present entry of the tree sits at the next position, so it is the table at a
position exactly when that next position is the position. -/
theorem child_eq_iff (hinj : m.Inj root) (hq : q.length ≤ 2) (hx : m.walk root q = some c)
    (hpr : (m.entry c j).contains present = true) (hp : p.length ≤ 3)
    (ht : m.walk root p = some t) : (m.entry c j).address = t ↔ q ++ [j] = p := by
  have hchild := walk_append_of_present hx hpr
  constructor
  · intro h
    rw [h] at hchild
    exact eq_of_walk_self hinj hp ht (by simp; omega) hchild
  · rintro rfl
    exact Option.some_injective _ (hchild.symm.trans ht)

/-! ## `offTree`: a frame that is no table of the tree -/

theorem offTree_walk (hm : EqOffFrame m m' f) (hf : ¬m.IsTable root f) (hq : q.length ≤ 4) :
    m'.walk root q = m.walk root q :=
  walk_eqOffFrame hm (fun _ hp => walk_ne_of_not_isTable hf hp) hq

theorem offTree_leafAt (hm : EqOffFrame m m' f) (hf : ¬m.IsTable root f) :
    m'.leafAt root = m.leafAt root :=
  funext (leafAt_eqOffFrame hm fun _ hp => walk_ne_of_not_isTable hf hp)

theorem offTree_refs (hm : EqOffFrame m m' f) (hf : ¬m.IsTable root f) :
    m'.refs root = m.refs root :=
  refs_congr (fun _ hq => offTree_walk hm hf (by omega)) (offTree_leafAt hm hf)

theorem offTree_shape (hs : m.Shape root) (hm : EqOffFrame m m' f) (hf : ¬m.IsTable root f) :
    m'.Shape root := by
  have hw : ∀ q : List (Fin 512), q.length ≤ 3 → m'.walk root q = m.walk root q :=
    fun _ hq => offTree_walk hm hf (by omega)
  apply hs.of_entries (inj_of_walk_eq hs.inj hw)
  intro q x j hq hx
  rw [hw q hq] at hx
  exact .inr ⟨hx, hm x j fun h => walk_ne_of_not_isTable hf hq (h ▸ hx)⟩

theorem offTree_counted (hm : EqOffFrame m m' f) (hf : ¬m.IsTable root f)
    (hc : m.CountedUpTo root d) : m'.CountedUpTo root d := by
  intro q x j hq1 hq2 hx hpx
  rw [offTree_walk hm hf (by omega)] at hx
  have hxf : x ≠ f := fun h => walk_ne_of_not_isTable hf (by omega) (h ▸ hx)
  rw [hm x j hxf] at hpx ⊢
  have hchild := walk_append_of_present hx hpx
  have haf : (m.entry x j).address ≠ f := fun h =>
    walk_ne_of_not_isTable hf (by simp; omega) (h ▸ hchild)
  rw [presentCount_eqOffFrame_ne hm haf]
  exact hc q x j hq1 hq2 hx hpx

/-! ## `link`: a cleared table linked under an entry that was not present -/

section Link

variable (hs : m.Shape root) (hp : p.length ≤ 2) (ht : m.walk root p = some t)
  (hm : EqOff m m' t i) (hnp : (m.entry t i).contains present = false)
  (hpr' : (m'.entry t i).contains present = true) (ha : (m'.entry t i).address = f)
  (hf : ¬m.IsTable root f) (hclear : ∀ j, m.entry f j = 0)

theorem link_ne (hp : p.length ≤ 2) (ht : m.walk root p = some t) (hf : ¬m.IsTable root f) :
    t ≠ f :=
  fun h => walk_ne_of_not_isTable hf (by omega) (h ▸ ht)

theorem empty_of_clear (hclear : ∀ j, m.entry f j = 0) : m.Empty f := fun j => by
  rw [hclear j]
  exact contains_zero_present

theorem link_empty (hp : p.length ≤ 2) (ht : m.walk root p = some t) (hm : EqOff m m' t i)
    (hf : ¬m.IsTable root f) (hclear : ∀ j, m.entry f j = 0) : m'.Empty f := by
  intro j
  rw [hm f j fun h => link_ne hp ht hf h.1.symm, hclear j]
  exact contains_zero_present

theorem link_presentCount (hm : EqOff m m' t i) (hnp : (m.entry t i).contains present = false)
    (hpr' : (m'.entry t i).contains present = true) :
    m'.presentCount t = m.presentCount t + 1 := by
  have h := presentCount_eqOff hm
  rw [hnp, hpr', if_neg Bool.false_ne_true, if_pos rfl] at h
  omega

include hs hp ht hm hnp hpr' ha hf hclear

theorem link_walk (hq : q.length ≤ 3) :
    m'.walk root q = if q = p ++ [i] then some f else m.walk root q :=
  walk_link hs.inj hp ht hm (by simp [nextLevel, hnp]) (by simp [nextLevel, hpr', ha])
    (link_empty hp ht hm hf hclear) hq

theorem link_leafAt : m'.leafAt root = m.leafAt root :=
  funext (leafAt_link hs.inj hp ht hm (by simp [nextLevel, hnp]) (by simp [nextLevel, hpr', ha])
    (link_empty hp ht hm hf hclear))

theorem link_refs : m'.refs root = Function.update (m.refs root) f (m.refs root f + 1) := by
  apply refs_link (P := p ++ [i]) (by simp; omega) _ (fun q hq => link_walk hs hp ht hm hnp hpr' ha
    hf hclear hq) hf (link_leafAt hs hp ht hm hnp hpr' ha hf hclear)
  simp [walk_append_singleton, ht, nextLevel, hnp]

theorem link_shape (hok : EntryOk p.length (m'.entry t i)) : m'.Shape root := by
  have hw := fun (q : List (Fin 512)) (hq : q.length ≤ 3) => link_walk hs hp ht hm hnp hpr' ha hf hclear hq
  have htf := link_ne hp ht hf
  apply hs.of_entries
  · -- the new position holds the new frame, every other one its old table
    intro q₁ q₂ x hq₁ hq₂ h₁ h₂
    rw [hw q₁ hq₁] at h₁
    rw [hw q₂ hq₂] at h₂
    split_ifs at h₁ h₂ with e₁ e₂ e₂
    · rw [e₁, e₂]
    · exact absurd ((Option.some_injective _ h₁) ▸ h₂) (walk_ne_of_not_isTable hf hq₂)
    · exact absurd ((Option.some_injective _ h₂) ▸ h₁) (walk_ne_of_not_isTable hf hq₁)
    · exact hs.inj q₁ q₂ x hq₁ hq₂ h₁ h₂
  · intro q x j hq hx
    rw [hw q hq] at hx
    split_ifs at hx with hqp
    · -- an entry of the new table: still the cleared one
      have hxf : x = f := (Option.some_injective _ hx).symm
      left
      rw [hxf, hm f j fun h => htf h.1.symm, hclear j]
      exact entryOk_zero _
    · by_cases hxj : x = t ∧ j = i
      · obtain ⟨rfl, rfl⟩ := hxj
        left
        rwa [eq_of_walk_self hs.inj (by omega) ht hq hx]
      · exact .inr ⟨hx, hm x j hxj⟩

theorem link_counted (hc : m.CountedUpTo root d) (hd : d (p ++ [i]) = 0)
    (hcount : (m'.entry t i).getEntryCount = 0) :
    m'.CountedUpTo root (Function.update d p (d p + 1)) := by
  have htf := link_ne hp ht hf
  intro q x j hq1 hq2 hx hpx
  rw [link_walk hs hp ht hm hnp hpr' ha hf hclear (by omega)] at hx
  split_ifs at hx with hqp
  · -- the new table has no present entry
    have hxf : x = f := (Option.some_injective _ hx).symm
    rw [hxf, hm f j fun h => htf h.1.symm, hclear j, contains_zero_present] at hpx
    cases hpx
  · by_cases hxj : x = t ∧ j = i
    · obtain ⟨rfl, rfl⟩ := hxj
      obtain rfl := eq_of_walk_self hs.inj (by omega) ht (by omega) hx
      have hne : q ++ [j] ≠ q := by simp
      rw [Function.update_of_ne hne, hd, hcount, ha, presentCount_eqOff_ne hm htf.symm,
        presentCount_eq_zero_iff.2 (empty_of_clear hclear)]
      simp
    · rw [hm x j hxj] at hpx ⊢
      have hiff := child_eq_iff hs.inj hq2 hx hpx (by omega) ht
      by_cases hct : (m.entry x j).address = t
      · have hqj := hiff.1 hct
        have h0 := hc q x j hq1 hq2 hx hpx
        rw [hqj, hct] at h0
        rw [hqj, Function.update_self, hct, link_presentCount hm hnp hpr']
        push_cast
        omega
      · rw [presentCount_eqOff_ne hm hct, Function.update_of_ne (mt hiff.2 hct)]
        exact hc q x j hq1 hq2 hx hpx

end Link

/-! ## `leaf`: an entry of a table of the last level -/

section Leaf

variable {q₀ : Vpn} (hinj : m.Inj root) (ht : m.walk root q₀.path = some t)
  (hm : EqOff m m' t q₀.idx)
include hinj ht hm

theorem leaf_walk (hq : q.length ≤ 3) : m'.walk root q = m.walk root q := by
  apply walk_eqOff hinj (by simp [Vpn.path_length]) ht hm hq
  intro h
  have := h.length_le
  simp [Vpn.path_length] at this
  omega

/-- Only the page of the written entry changes. -/
theorem leaf_leafAt :
    m'.leafAt root = Function.update (m.leafAt root) q₀
      (if (m'.entry t q₀.idx).contains present then some (m'.entry t q₀.idx) else none) := by
  funext q
  rw [leafAt_eqOff_of_leaf hinj (Vpn.path_length q₀) ht hm q]
  by_cases hq : q = q₀
  · subst hq
    simp
  · rw [if_neg (mt Vpn.path_idx_eq_iff.1 hq), Function.update_of_ne hq]

theorem leaf_refs (g : ℕ) :
    m'.refs root g + (if (m.leafAt root q₀).map address = some g then 1 else 0) =
      m.refs root g + (if (if (m'.entry t q₀.idx).contains present then
        some (m'.entry t q₀.idx) else none).map address = some g then 1 else 0) :=
  refs_leaf (fun _ hq => leaf_walk hinj ht hm hq) (leaf_leafAt hinj ht hm) g

/-- The table of a page is at depth three, below every table that links. -/
theorem leaf_ne (hq : q.length ≤ 2) (hx : m.walk root q = some c) : c ≠ t := by
  rintro rfl
  have := length_eq_of_walk_eq hinj (by omega) (by simp [Vpn.path_length]) hx ht
  simp [Vpn.path_length] at this
  omega

theorem leaf_shape (hs : m.Shape root) (hok : EntryOk 3 (m'.entry t q₀.idx)) :
    m'.Shape root := by
  have hw := fun (q : List (Fin 512)) (hq : q.length ≤ 3) => leaf_walk hinj ht hm hq
  apply hs.of_entries (inj_of_walk_eq hinj hw)
  intro q x j hq hx
  rw [hw q hq] at hx
  by_cases hxj : x = t ∧ j = q₀.idx
  · obtain ⟨rfl, rfl⟩ := hxj
    left
    rwa [eq_of_walk_self hinj (by simp [Vpn.path_length]) ht hq hx, Vpn.path_length]
  · exact .inr ⟨hx, hm x j hxj⟩

/-- The written entry's table gains or loses one present entry. -/
theorem leaf_counted (hc : m.CountedUpTo root d) :
    m'.CountedUpTo root (Function.update d q₀.path (d q₀.path +
      (if (m'.entry t q₀.idx).contains present then 1 else 0) -
      (if (m.entry t q₀.idx).contains present then 1 else 0))) := by
  intro q x j hq1 hq2 hx hpx
  rw [leaf_walk hinj ht hm (by omega)] at hx
  have hxt := leaf_ne hinj ht hm hq2 hx
  rw [hm x j fun h => hxt h.1] at hpx ⊢
  have hiff := child_eq_iff hinj hq2 hx hpx (by simp [Vpn.path_length]) ht
  have h0 := hc q x j hq1 hq2 hx hpx
  by_cases hct : (m.entry x j).address = t
  · have hcount := presentCount_eqOff hm
    rw [hiff.1 hct, hct] at h0
    rw [hiff.1 hct, Function.update_self, hct]
    omega
  · rw [presentCount_eqOff_ne hm hct, Function.update_of_ne (mt hiff.2 hct)]
    exact h0

end Leaf

/-! ## `unlink`: a present entry above the last level cleared under an empty table -/

section Unlink

variable (hinj : m.Inj root) (hp : p.length ≤ 2) (ht : m.walk root p = some t)
  (hm : EqOff m m' t i) (hpr : (m.entry t i).contains present = true)
  (hc : (m.entry t i).address = c) (hempty : m.Empty c) (h0 : m'.entry t i = 0)

theorem unlink_presentCount (hm : EqOff m m' t i) (hpr : (m.entry t i).contains present = true)
    (h0 : m'.entry t i = 0) : m'.presentCount t + 1 = m.presentCount t := by
  have h := presentCount_eqOff hm
  rw [hpr, h0, contains_zero_present, if_pos rfl, if_neg Bool.false_ne_true] at h
  omega

include hinj hp ht hm hpr hc hempty h0

theorem unlink_walk (hq : q.length ≤ 3) :
    m'.walk root q = if q = p ++ [i] then none else m.walk root q := by
  have ht' : m'.walk root p = some t := by
    rw [walk_eqOff hinj (by omega) ht hm (by omega) fun h => by simpa using h.length_le]
    exact ht
  have hchild : m.walk root (p ++ [i]) = some c := hc ▸ walk_append_of_present ht hpr
  by_cases hpre : p ++ [i] <+: q
  · obtain ⟨r, rfl⟩ := hpre
    -- nothing is reached through the cleared entry now, and nothing was below the empty table
    have hnl : m'.nextLevel t i = none := by
      unfold nextLevel
      rw [h0, contains_zero_present]
      rfl
    have hnone : m'.walk root (p ++ [i] ++ r) = none := by
      rw [walk_append (m := m'), walk_append_singleton, ht']
      simp [hnl]
    rw [hnone]
    cases r with
    | nil => simp
    | cons r0 r =>
      rw [if_neg (by simp), walk_append, hchild]
      simp [walk_of_empty hempty (List.cons_ne_nil r0 r)]
  · rw [if_neg fun (h : q = p ++ [i]) => hpre (h ▸ List.prefix_refl _)]
    exact walk_eqOff hinj (by omega) ht hm hq hpre

theorem unlink_leafAt : m'.leafAt root = m.leafAt root := by
  funext q
  have hw := unlink_walk hinj hp ht hm hpr hc hempty h0 (q := q.path) (by simp [Vpn.path_length])
  split_ifs at hw with hq
  · -- the page's last table was the emptied one
    have hwm : m.walk root q.path = some c := hq ▸ hc ▸ walk_append_of_present ht hpr
    simp [leafAt, hw, hwm, hempty q.idx]
  · apply leafAt_congr hw
    intro t' ht'
    apply hm
    rintro ⟨rfl, rfl⟩
    have := length_eq_of_walk_eq hinj (by simp [Vpn.path_length]) (by omega) ht' ht
    simp [Vpn.path_length] at this
    omega

theorem unlink_refs : m'.refs root = Function.update (m.refs root) c (m.refs root c - 1) :=
  refs_unlink hinj (P := p ++ [i]) (by simp; omega) (hc ▸ walk_append_of_present ht hpr)
    (fun _ hq => unlink_walk hinj hp ht hm hpr hc hempty h0 hq)
    (unlink_leafAt hinj hp ht hm hpr hc hempty h0)

theorem unlink_shape (hs : m.Shape root) : m'.Shape root := by
  have hw := fun (q : List (Fin 512)) (hq : q.length ≤ 3) =>
    unlink_walk hinj hp ht hm hpr hc hempty h0 hq
  have hsub : ∀ q x, q.length ≤ 3 → m'.walk root q = some x → m.walk root q = some x := by
    intro q x hq hx
    rw [hw q hq] at hx
    split_ifs at hx
    exact hx
  apply hs.of_entries
  · intro q₁ q₂ x hq₁ hq₂ h₁ h₂
    exact hinj q₁ q₂ x hq₁ hq₂ (hsub q₁ x hq₁ h₁) (hsub q₂ x hq₂ h₂)
  · intro q x j hq hx
    by_cases hxj : x = t ∧ j = i
    · obtain ⟨rfl, rfl⟩ := hxj
      left
      rw [h0]
      exact entryOk_zero _
    · exact .inr ⟨hsub q x hq hx, hm x j hxj⟩

/-- The cleared entry's table loses one present entry. -/
theorem unlink_counted (hcnt : m.CountedUpTo root d) :
    m'.CountedUpTo root (Function.update d p (d p - 1)) := by
  intro q x j hq1 hq2 hx hpx
  rw [unlink_walk hinj hp ht hm hpr hc hempty h0 (by omega)] at hx
  split_ifs at hx
  have hxj : ¬(x = t ∧ j = i) := by
    rintro ⟨rfl, rfl⟩
    rw [h0, contains_zero_present] at hpx
    cases hpx
  rw [hm x j hxj] at hpx ⊢
  have hiff := child_eq_iff hinj hq2 hx hpx (by omega) ht
  have hq0 := hcnt q x j hq1 hq2 hx hpx
  by_cases hct : (m.entry x j).address = t
  · have hcount := unlink_presentCount hm hpr h0
    rw [hiff.1 hct, hct] at hq0
    rw [hiff.1 hct, Function.update_self, hct]
    omega
  · rw [presentCount_eqOff_ne hm hct, Function.update_of_ne (mt hiff.2 hct)]
    exact hq0

end Unlink

end Mem

end Cykusz.Virt
