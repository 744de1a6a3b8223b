import Mathlib
import Cykusz.Mm.Virt.Steps

/-!
# One lemma per operation on tables

Each primitive operation of `table.rs` is taken apart once, into the writes of `Steps`, and its
lemma says what it does to the whole tree: `allocNextLevel_spec` links the next table of a path,
`setFrameFlags_spec` and `doUnmapL1_spec` write a page's entry, `incEntryCount_spec` and
`decEntryCount_spec` move a count, and `unlinkEmpty_spec` releases a table with its last entry.
The operations of `P4Table` are then proved from these lemmas alone.
-/

namespace Cykusz.Virt

namespace Mem

variable {A : Type} [FrameAlloc A]

open Entry

variable {m m' : Mem A} {root t t' f : ℕ} {i : Fin 512} {p : List (Fin 512)} {user w : Bool}
  {d : List (Fin 512) → ℤ}

/-- The flags `alloc_next_level` gives the entry it walks through. -/
def linkFlags (user : Bool) : Entry := present ||| writable ||| (if user then Entry.user else 0)

theorem present_and_not_flagMask : present &&& ~~~flagMask = 0 := by decide

theorem hugePage_and_not_flagMask : hugePage &&& ~~~flagMask = 0 := by decide

theorem present_and_not_lowFlags : present &&& ~~~lowFlags = 0 := by decide

theorem hugePage_and_not_lowFlags : hugePage &&& ~~~lowFlags = 0 := by decide

theorem contains_linkFlags_present (user : Bool) :
    (linkFlags user).contains present = true := by
  cases user <;> decide

theorem contains_linkFlags_hugePage (user : Bool) :
    (linkFlags user).contains hugePage = false := by
  cases user <;> decide

/-- A linking entry with `alloc_next_level`'s flags is as the shape wants it. -/
theorem entryOk_setFlags_linkFlags {e : Entry} {n : ℕ} (hn : n ≤ 2) (hfit : Fits e.address) :
    EntryOk n (e.setFlags (linkFlags user)) where
  zero h := by
    rw [contains_setFlags present_and_not_flagMask, contains_linkFlags_present] at h
    cases h
  fit _ := by rwa [address_setFlags]
  noHuge _ _ := by rw [contains_setFlags hugePage_and_not_flagMask, contains_linkFlags_hugePage]
  clean h := absurd h (by omega)

/-- `alloc_next_level` either sets the flags of a present entry, or links a cleared new frame. -/
theorem allocNextLevel_cases (h : m.allocNextLevel t i user = some (w, t', m')) :
    t' = (m'.entry t i).address ∧
    (((m.entry t i).contains present = true ∧ w = false ∧
        m' = m.modifyEntry t i (·.setFlags (linkFlags user))) ∨
     ((m.entry t i).contains present = false ∧ w = true ∧ ∃ f m₀, m.allocate = some (f, m₀) ∧
        m' = ((m₀.clearFrame f).setFrame t i f).modifyEntry t i (·.setFlags (linkFlags user)))) := by
  unfold allocNextLevel at h
  cases hp : (m.entry t i).contains present
  · cases ha : m.allocate with
    | none => simp [hp, ha] at h
    | some x =>
      obtain ⟨f, m₀⟩ := x
      simp only [hp, ha, Bool.not_false, if_true] at h
      simp at h
      obtain ⟨rfl, rfl, rfl⟩ := h
      exact ⟨rfl, .inr ⟨rfl, rfl, f, m₀, rfl, rfl⟩⟩
  · simp [hp] at h
    obtain ⟨rfl, rfl, rfl⟩ := h
    exact ⟨rfl, .inl ⟨rfl, rfl, rfl⟩⟩

/-- What linking the next table of a path leaves: the position `P` at the table `t'` and every
other walk as it was, the same pages, and the invariant with the debt `d'`. -/
structure LinkResult (m m' : Mem A) (root : ℕ) (P : List (Fin 512)) (t' : ℕ)
    (d' : List (Fin 512) → ℤ) : Prop where
  walk : ∀ q, q.length ≤ 3 → m'.walk root q = if q = P then some t' else m.walk root q
  leafAt : m'.leafAt root = m.leafAt root
  shape : m'.Shape root
  frames : m'.Frames (m'.refs root)
  counted : m'.CountedUpTo root d'
  free_sub : ∀ g ∈ m'.free, g ∈ m.free

/-- `alloc_next_level` on a present entry: only its flags change, and the debt stays. -/
theorem allocNextLevel_present (hs : m.Shape root) (hfr : m.Frames (m.refs root))
    (hc : m.CountedUpTo root d) (hp : p.length ≤ 2) (ht : m.walk root p = some t)
    (hpr : (m.entry t i).contains present = true)
    (hm' : m' = m.modifyEntry t i (·.setFlags (linkFlags user)))
    (ht' : t' = (m'.entry t i).address) : LinkResult m m' root (p ++ [i]) t' d := by
  subst hm'
  have hm : EqOff m (m.modifyEntry t i (·.setFlags (linkFlags user))) t i := fun x j hxj => by
    rw [entry_modifyEntry, if_neg hxj]
  have hpr' : ((m.modifyEntry t i (·.setFlags (linkFlags user))).entry t i).contains present =
      (m.entry t i).contains present := by
    rw [entry_modifyEntry, if_pos ⟨rfl, rfl⟩, contains_setFlags present_and_not_flagMask,
      contains_linkFlags_present, hpr]
  have ha : ((m.modifyEntry t i (·.setFlags (linkFlags user))).entry t i).address =
      (m.entry t i).address := by
    rw [entry_modifyEntry, if_pos ⟨rfl, rfl⟩, address_setFlags]
  have hfit := (hs.entry_ok p t i (by omega) ht).fit hpr
  have hrefs := keepLink_refs hs.inj hp ht hm hpr' ha
  refine ⟨?_, keepLink_leafAt hs.inj hp ht hm hpr' ha, ?_, ?_, ?_, fun g hg => hg⟩
  · intro q _
    rw [keepLink_walk hm hpr' ha]
    split_ifs with hq
    · rw [hq, walk_append_of_present ht hpr, ht', ha]
    · rfl
  · apply keepLink_shape hs hp ht hm hpr' ha
    rw [entry_modifyEntry, if_pos ⟨rfl, rfl⟩]
    exact entryOk_setFlags_linkFlags hp hfit
  · rw [hrefs]
    exact hfr.of_eq rfl rfl rfl
  · apply keepLink_counted hs.inj hp ht hm hpr' ha hc
    · intro _
      rw [entry_modifyEntry, if_pos ⟨rfl, rfl⟩, getEntryCount_setFlags]
    · intro q _
      rfl

/-- `alloc_next_level` on an entry that is not present: a cleared frame from the allocator is
linked, and the table at `p` owes one more present entry. -/
theorem allocNextLevel_absent {m₀ : Mem A} (hs : m.Shape root) (hfr : m.Frames (m.refs root))
    (hc : m.CountedUpTo root d) (hp : p.length ≤ 2) (ht : m.walk root p = some t)
    (hd : d (p ++ [i]) = 0) (hnp : (m.entry t i).contains present = false)
    (ha : m.allocate = some (f, m₀))
    (hm' : m' = ((m₀.clearFrame f).setFrame t i f).modifyEntry t i (·.setFlags (linkFlags user)))
    (ht' : t' = (m'.entry t i).address) :
    LinkResult m m' root (p ++ [i]) t' (Function.update d p (d p + 1)) := by
  subst hm'
  obtain ⟨hfr₀, hRf, hfit, hfree⟩ := hfr.allocate ha
  obtain ⟨-, htab, -, -⟩ := allocate_eq_some ha
  have hnt : ¬m.IsTable root f := not_isTable_of_refs_eq_zero hRf
  have htf : t ≠ f := link_ne hp ht hnt
  -- the cleared frame, then the link
  have hoff : EqOffFrame m (m₀.clearFrame f) f := fun x j hx => by
    rw [entry_clearFrame, if_neg hx]
    simp [entry, htab]
  have he0 : (m₀.clearFrame f).entry t i = 0 := by
    rw [hoff t i htf]
    exact hs.eq_zero (by omega) ht hnp
  have hs₂ := offTree_shape hs hoff hnt
  have hc₂ := offTree_counted hoff hnt hc
  have hw₂ : ∀ q : List (Fin 512), q.length ≤ 3 →
      (m₀.clearFrame f).walk root q = m.walk root q := fun q hq => offTree_walk hoff hnt (by omega)
  have ht₂ : (m₀.clearFrame f).walk root p = some t := by rw [hw₂ p (by omega)]; exact ht
  have hnt₂ : ¬(m₀.clearFrame f).IsTable root f := by
    rwa [isTable_iff_of_walk hw₂]
  set m₂ := m₀.clearFrame f with hm₂
  set m' := (m₂.setFrame t i f).modifyEntry t i (·.setFlags (linkFlags user)) with hm'
  have hent : m'.entry t i = ((m₂.entry t i).withFrame f).setFlags (linkFlags user) := by
    rw [hm', entry_modifyEntry, if_pos ⟨rfl, rfl⟩, entry_setFrame, if_pos ⟨rfl, rfl⟩]
  have hm : EqOff m₂ m' t i := fun x j hxj => by
    rw [hm', entry_modifyEntry, if_neg hxj, entry_setFrame, if_neg hxj]
  have hpr' : (m'.entry t i).contains present = true := by
    rw [hent, contains_setFlags present_and_not_flagMask, contains_linkFlags_present]
  have ha' : (m'.entry t i).address = f := by
    rw [hent, address_setFlags, address_withFrame hfit]
  have hnp₂ : (m₂.entry t i).contains present = false := by
    rw [he0]
    exact contains_zero_present
  have hclear : ∀ j, m₂.entry f j = 0 := fun j => by
    rw [hm₂, entry_clearFrame, if_pos rfl]
  have hrefs := link_refs hs₂ hp ht₂ hm hnp₂ hpr' ha' hnt₂ hclear
  refine ⟨?_, ?_, ?_, ?_, ?_, ?_⟩
  · intro q hq
    rw [link_walk hs₂ hp ht₂ hm hnp₂ hpr' ha' hnt₂ hclear hq, hw₂ q hq, ht', ha']
  · rw [link_leafAt hs₂ hp ht₂ hm hnp₂ hpr' ha' hnt₂ hclear, offTree_leafAt hoff hnt]
  · apply link_shape hs₂ hp ht₂ hm hnp₂ hpr' ha' hnt₂ hclear
    rw [hent]
    exact entryOk_setFlags_linkFlags hp (by rwa [address_withFrame hfit])
  · -- the new table is the frame's one user
    have hfr₂ : m₂.Frames (m.refs root) := hfr₀.of_eq rfl rfl rfl
    have hacc := hfr₂.setFrame (t := t) (i := i) (o := none) (S := m'.refs root) hfit hfree
      (fun _ h => by cases h) (fun _ => by rw [he0]; rfl) (fun g => by
        rw [hrefs, offTree_refs hoff hnt]
        by_cases hg : g = f
        · subst hg
          simp
        · simp [Function.update_of_ne hg, Ne.symm hg])
    rw [setFrame_eq hfit] at hm'
    exact hacc.of_eq (by rw [hm']; rfl) (by rw [hm']; rfl) (by rw [hm']; rfl)
  · apply link_counted hs₂ hp ht₂ hm hnp₂ hpr' ha' hnt₂ hclear hc₂ hd
    rw [hent, getEntryCount_setFlags, getEntryCount_withFrame hfit, he0]
    rfl
  · -- the allocator only takes
    intro g hg
    rw [hm', setFrame_eq hfit, he0, address_zero] at hg
    simp only [free_modifyEntry, free_setEntry] at hg
    have hg₂ : g ∈ m₂.free := by
      split_ifs at hg
      · rwa [free_refPhysPage, unrefPhysPage_of_not (by simp)] at hg
      · exact hg
    exact mem_free_of_mem_allocate ha hg₂

/-- `alloc_next_level` under the entry `i` of the table at position `p`: the next position holds
the returned table, and the table at `p` owes one more present entry when one was linked. -/
theorem allocNextLevel_spec (hs : m.Shape root) (hfr : m.Frames (m.refs root))
    (hc : m.CountedUpTo root d) (hp : p.length ≤ 2) (ht : m.walk root p = some t)
    (hd : d (p ++ [i]) = 0) (h : m.allocNextLevel t i user = some (w, t', m')) :
    LinkResult m m' root (p ++ [i]) t' (Function.update d p (d p + if w then 1 else 0)) := by
  obtain ⟨ht', ⟨hpr, rfl, hm'⟩ | ⟨hnp, rfl, f, m₀, ha, hm'⟩⟩ := allocNextLevel_cases h
  · rw [if_neg Bool.false_ne_true, Int.add_zero, Function.update_eq_self]
    exact allocNextLevel_present hs hfr hc hp ht hpr hm' ht'
  · rw [if_pos rfl]
    exact allocNextLevel_absent hs hfr hc hp ht hd hnp ha hm' ht'

/-- What a write that keeps every link leaves: the same walks and pages, and the invariant with
the debt `d'`. -/
structure KeepResult (m m' : Mem A) (root : ℕ) (d' : List (Fin 512) → ℤ) : Prop where
  walk : ∀ q, m'.walk root q = m.walk root q
  leafAt : m'.leafAt root = m.leafAt root
  shape : m'.Shape root
  frames : m'.Frames (m'.refs root)
  counted : m'.CountedUpTo root d'

theorem KeepResult.refl (hs : m.Shape root) (hfr : m.Frames (m.refs root))
    (hc : m.CountedUpTo root d) : KeepResult m m root d :=
  ⟨fun _ => rfl, rfl, hs, hfr, hc⟩

/-- A write of a linking entry that keeps its link and the frames' accounting. -/
theorem keepLink_result {d' : List (Fin 512) → ℤ} (hs : m.Shape root)
    (hfr : m.Frames (m.refs root)) (hc : m.CountedUpTo root d) (hp : p.length ≤ 2)
    (ht : m.walk root p = some t) (hm : EqOff m m' t i)
    (hpr : (m'.entry t i).contains present = (m.entry t i).contains present)
    (ha : (m'.entry t i).address = (m.entry t i).address) (hok : EntryOk p.length (m'.entry t i))
    (hfree : m'.free = m.free) (huses : m'.uses = m.uses) (hpages : m'.pages = m.pages)
    (hcount : 1 ≤ p.length → ((m'.entry t i).getEntryCount : ℤ) + d' (p ++ [i]) =
      (m.entry t i).getEntryCount + d (p ++ [i]))
    (hd : ∀ q, q ≠ p ++ [i] → d' q = d q) : KeepResult m m' root d' where
  walk := keepLink_walk hm hpr ha
  leafAt := keepLink_leafAt hs.inj hp ht hm hpr ha
  shape := keepLink_shape hs hp ht hm hpr ha hok
  frames := by
    rw [keepLink_refs hs.inj hp ht hm hpr ha]
    exact hfr.of_eq hfree huses hpages
  counted := keepLink_counted hs.inj hp ht hm hpr ha hc hcount hd

omit [FrameAlloc A] in
/-- A present linking entry of the tree: its count is at most what its table can hold, less
what it still owes. -/
theorem count_add_debt_le (hc : m.CountedUpTo root d) (hp1 : 1 ≤ p.length) (hp : p.length ≤ 2)
    (ht : m.walk root p = some t) (hpr : (m.entry t i).contains present = true) :
    ((m.entry t i).getEntryCount : ℤ) + d (p ++ [i]) ≤ 512 := by
  rw [hc p t i hp1 hp ht hpr]
  exact_mod_cast presentCount_le m _

/-- A count rewritten by `set_entry_count` below the counter's width keeps the entry's link, its
flags, and the shape. -/
theorem setEntryCount_keeps {e : Entry} {n : ℕ} (count : ℕ) (hok : EntryOk n e)
    (hpr : e.contains present = true) (hn : n ≤ 2) :
    (e.setEntryCount count).contains present = e.contains present ∧
      (e.setEntryCount count).address = e.address ∧ EntryOk n (e.setEntryCount count) := by
  have hpr' : (e.setEntryCount count).contains present = e.contains present :=
    contains_setEntryCount present_and_not_lowFlags
  refine ⟨hpr', address_setEntryCount, fun h => absurd (hpr' ▸ h) (by rw [hpr]; decide),
    fun _ => address_setEntryCount (e := e) ▸ hok.fit hpr, fun h1 h2 => ?_,
    fun h => absurd h (by omega)⟩
  rw [contains_setEntryCount hugePage_and_not_lowFlags]
  exact hok.noHuge h1 h2

/-- `inc_entry_count` of a linking entry pays one of the debt at its position. -/
theorem incEntryCount_spec (hs : m.Shape root) (hfr : m.Frames (m.refs root))
    (hc : m.CountedUpTo root d) (hp : p.length ≤ 2) (ht : m.walk root p = some t)
    (hpr : (m.entry t i).contains present = true) (hd : 1 ≤ p.length → 1 ≤ d (p ++ [i])) :
    KeepResult m (m.incEntryCount t i) root
      (Function.update d (p ++ [i]) (d (p ++ [i]) - 1)) := by
  have hent : (m.incEntryCount t i).entry t i = (m.entry t i).incEntryCount := by
    rw [incEntryCount, entry_modifyEntry, if_pos ⟨rfl, rfl⟩]
  have hm : EqOff m (m.incEntryCount t i) t i := fun x j hxj => by
    rw [incEntryCount, entry_modifyEntry, if_neg hxj]
  obtain ⟨hpr', ha, hok⟩ := setEntryCount_keeps ((m.entry t i).getEntryCount + 1)
    (hs.entry_ok p t i (by omega) ht) hpr hp
  rw [← Entry.incEntryCount, ← hent] at hpr' ha hok
  refine keepLink_result hs hfr hc hp ht hm hpr' ha hok rfl rfl rfl ?_ ?_
  · -- the count stays below the counter's width: it owes at least one and its table holds 512
    intro hp1
    have hle := count_add_debt_le hc hp1 hp ht hpr
    have hd1 := hd hp1
    rw [hent, Entry.incEntryCount, getEntryCount_setEntryCount, Function.update_self,
      Nat.mod_eq_of_lt (by omega)]
    push_cast
    ring
  · intro q hq
    rw [Function.update_of_ne hq]

/-- `inc_entry_count` when a flag says so, as `map_*` does after each level. -/
theorem incEntryCount_if_spec {b : Bool} (hs : m.Shape root) (hfr : m.Frames (m.refs root))
    (hc : m.CountedUpTo root d) (hp : p.length ≤ 2) (ht : m.walk root p = some t)
    (hpr : b = true → (m.entry t i).contains present = true)
    (hd : b = true → 1 ≤ p.length → 1 ≤ d (p ++ [i])) :
    KeepResult m (if b then m.incEntryCount t i else m) root
      (if b then Function.update d (p ++ [i]) (d (p ++ [i]) - 1) else d) := by
  cases b with
  | false => exact KeepResult.refl hs hfr hc
  | true => exact incEntryCount_spec hs hfr hc hp ht (hpr rfl) (hd rfl)

omit [FrameAlloc A] in
theorem present_of_walk_append {x : ℕ} (ht : m.walk root p = some t)
    (hx : m.walk root (p ++ [i]) = some x) :
    (m.entry t i).contains present = true ∧ (m.entry t i).address = x := by
  rw [walk_append_singleton, ht] at hx
  simp only [Option.bind_some, nextLevel] at hx
  split_ifs at hx with hpr
  exact ⟨hpr, Option.some_injective _ hx⟩

/-- What a write of the page `q₀`'s entry leaves: the same walks, the page's entry `v`, and the
invariant with the debt `d'`. -/
structure LeafResult (m m' : Mem A) (root : ℕ) (q₀ : Vpn) (v : Option Entry)
    (d' : List (Fin 512) → ℤ) : Prop where
  walk : ∀ q, q.length ≤ 3 → m'.walk root q = m.walk root q
  leafAt : m'.leafAt root = Function.update (m.leafAt root) q₀ v
  shape : m'.Shape root
  frames : m'.Frames (m'.refs root)
  counted : m'.CountedUpTo root d'

/-- `set_frame_flags` on the entry of the page `q₀`: the page is mapped to `fr` with the flags, a
user moves to `fr`, and the page's table owes one more present entry if it had none there. -/
theorem setFrameFlags_spec {q₀ : Vpn} {fr : ℕ} {fl : Entry} (hs : m.Shape root)
    (hfr : m.Frames (m.refs root)) (hc : m.CountedUpTo root d)
    (ht : m.walk root q₀.path = some t) (hfit : Fits fr) (hfree : fr ∉ m.free)
    (hfl : fl.contains present = true) :
    LeafResult m (m.setFrameFlags t q₀.idx fr fl) root q₀
      (some (((m.entry t q₀.idx).withFrame fr).setFlags fl))
      (Function.update d q₀.path
        (d q₀.path + 1 - if (m.entry t q₀.idx).contains present then 1 else 0)) := by
  have hok := hs.entry_ok q₀.path t q₀.idx (by simp [Vpn.path_length]) ht
  rw [Vpn.path_length] at hok
  have hm : EqOff m (m.setFrameFlags t q₀.idx fr fl) t q₀.idx := fun x j hxj => by
    rw [entry_setFrameFlags, if_neg hxj]
  have hent : (m.setFrameFlags t q₀.idx fr fl).entry t q₀.idx =
      ((m.entry t q₀.idx).withFrame fr).setFlags fl := by
    rw [entry_setFrameFlags, if_pos ⟨rfl, rfl⟩]
  have hl := leaf_leafAt hs.inj ht hm
  have hrefs := leaf_refs hs.inj ht hm
  have hcnt := leaf_counted hs.inj ht hm hc
  rw [leafAt_of_walk ht] at hrefs
  rw [hent] at hl hrefs hcnt
  set e := m.entry t q₀.idx with he
  set E := (e.withFrame fr).setFlags fl with hE
  have hpr : E.contains present = true := by
    rw [hE, contains_setFlags present_and_not_flagMask, hfl]
  have haE : E.address = fr := by rw [hE, address_setFlags, address_withFrame hfit]
  rw [if_pos hpr] at hl hrefs hcnt
  refine ⟨fun q hq => leaf_walk hs.inj ht hm hq, hl, ?_, ?_, hcnt⟩
  · apply leaf_shape hs.inj ht hm hs
    rw [hent]
    refine ⟨fun h => absurd h (by rw [hpr]; decide), fun _ => haE ▸ hfit,
      fun _ h => absurd h (by omega), fun _ => ?_⟩
    -- the old entry is present and clean, or zero
    cases hp : e.contains present
    · rw [hE, hok.zero hp]
      exact setFlags_withFrame_and_rest hfit (by decide)
    · exact setFlags_withFrame_and_rest hfit (hok.clean rfl)
  · have hacc := hfr.setFrame (t := t) (i := q₀.idx)
      (S := (m.setFrameFlags t q₀.idx fr fl).refs root)
      (o := if e.contains present then some e.address else none) hfit hfree
      (fun a h => by
        split_ifs at h with hp
        obtain rfl := Option.some_injective _ h
        refine ⟨rfl, refs_ne_zero_of_leafAt (q := q₀) ?_⟩
        rw [leafAt_of_walk ht, ← he, if_pos hp]
        rfl)
      (fun h => by
        split_ifs at h with hp
        rw [← he, hok.zero (by simpa using hp)]
        rfl)
      (fun g => by
        have hold : (if e.contains present then some e else none).map address =
            if e.contains present then some e.address else none := by
          split <;> rfl
        have := hrefs g
        rw [hold, Option.map_some, haE] at this
        simpa only [Option.some.injEq] using this)
    have hff : m.setFrameFlags t q₀.idx fr fl = (((if e.address ≠ fr then
        (m.unrefPhysPage e.address).2.refPhysPage fr else m).setEntry t q₀.idx
          (e.withFrame fr)).modifyEntry t q₀.idx (·.setFlags fl)) := by
      rw [setFrameFlags, setFrame_eq hfit]
    exact hacc.of_eq (by rw [hff]; rfl) (by rw [hff]; rfl) (by rw [hff]; rfl)

end Mem

end Cykusz.Virt
