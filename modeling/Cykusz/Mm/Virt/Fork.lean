import Mathlib
import Cykusz.Lib.Loop
import Cykusz.Mm.Virt.Refine

/-!
# `duplicate`: the copy a `fork` takes of an address space

`P4Table::duplicate` (`table.rs`) makes a new `P4Table` whose kernel half (root entries 256 to
511) is the old root's entries, and walks the old tree through the entries that carry
`PRESENT | USER`: for each such entry it links a new table from the allocator in the new tree,
and at the last level it clears `WRITABLE` in the old page's entry and maps the same frame with
the same flags in the new table. A user page, whose entries at all four levels carry
`PRESENT | USER`, so translates in both tables to its frame without `WRITABLE`; no other page of
the lower half is in the copy.

The four loops are proved from the bottom up. The loop over a last table (`dupL1_spec`) and the
loop over a table above it (`dupLevel_loop`) are each given the old table `l` and the new table
`n`; what they leave is `Copied`: below `n` the copy of what is below `l`, and below `l` the pages
without `WRITABLE`. Each turn of the loop above the last level writes only the new table's entry,
frames it takes from the allocator, and the last tables below one old entry (`LoopInv`), so the
copies made by the earlier turns stay (`Copied.congr`). The kernel half of the old root must carry
no `USER` (`KernelHalf`): the loop over the root then skips it, and the old tree keeps its
invariant (`duplicate_spec`).
-/

namespace Cykusz.Virt

/-! ## What `duplicate` does to an address space -/

namespace Translation

open Entry

/-- A translation without `WRITABLE`, as `duplicate` leaves a user page. -/
def readOnly (t : Translation) : Translation := ⟨t.frame, t.flags &&& ~~~writable⟩

theorem ofEntry_remove_writable (e : Entry) :
    ofEntry (e.remove writable) = (ofEntry e).readOnly := by
  rw [ofEntry, ofEntry, readOnly, address_remove (by decide), remove_and_flagMask]

end Translation

namespace AddrSpace

open Entry

/-- The old table's address space after `duplicate`: the pages of `U` without `WRITABLE`. -/
def protect (A : AddrSpace) (U : Vpn → Bool) : AddrSpace :=
  fun q => if U q then (A q).map Translation.readOnly else A q

/-- The copy `duplicate` makes: the kernel half as it is, the pages of `U` without `WRITABLE`, and
no other page. -/
def fork (A : AddrSpace) (U : Vpn → Bool) : AddrSpace :=
  fun q => if 256 ≤ q.1.val then A q else if U q then (A q).map Translation.readOnly else none

/-- A page of `U` in the lower half translates alike in the copy and in the old table. -/
theorem fork_eq_protect {A : AddrSpace} {U : Vpn → Bool} {q : Vpn} (hq : q.1.val < 256)
    (hU : U q = true) : A.fork U q = A.protect U q := by
  simp [fork, protect, hU, Nat.not_le.2 hq]

end AddrSpace

namespace Mem

variable {A : Type}

open Entry

variable {M m m' : Mem A} {root l n t : ℕ} {h : ℕ} {j a : Fin 512} {p : List (Fin 512)}

/-! ## The tables below a table -/

/-- The tables below `l`, at most `h` levels down. -/
def Reach (m : Mem A) (l h t : ℕ) : Prop :=
  ∃ p : List (Fin 512), p.length ≤ h ∧ m.walk l p = some t

/-- An entry `duplicate` walks through or copies: it carries `PRESENT | USER`. -/
def IsUser (e : Entry) : Prop := e.contains dupFlags = true

instance (e : Entry) : Decidable (IsUser e) := inferInstanceAs (Decidable (_ = true))

/-- The walk from `l` through entries that carry `PRESENT | USER`, as `duplicate` walks the old
tree. -/
def userWalk (m : Mem A) (l : ℕ) (p : List (Fin 512)) : Option ℕ :=
  p.foldlM (fun t i => if IsUser (m.entry t i) then some (m.entry t i).address else none) l

/-- The tables `h` user links below `l`: the last tables `duplicate` writes. -/
def Below (m : Mem A) (l h t : ℕ) : Prop :=
  ∃ p : List (Fin 512), p.length = h ∧ m.userWalk l p = some t

/-- Distinct positions at most `h` levels below `l` hold distinct tables. -/
def InjBelow (m : Mem A) (l h : ℕ) : Prop :=
  ∀ p q t, p.length ≤ h → q.length ≤ h → m.walk l p = some t → m.walk l q = some t → p = q

/-- The present entries of the tables above the last level below `l` link tables at frames. -/
def FitBelow (m : Mem A) (l h : ℕ) : Prop :=
  ∀ p t j, p.length < h → m.walk l p = some t → (m.entry t j).contains present = true →
    Fits (m.entry t j).address

theorem reach_self : m.Reach l h l := ⟨[], Nat.zero_le _, walk_nil⟩

theorem walk_cons_of_present (hp : (m.entry l j).contains present = true) (p : List (Fin 512)) :
    m.walk l (j :: p) = m.walk (m.entry l j).address p := by
  rw [walk_cons]
  simp [nextLevel, hp]

theorem Reach.cons (hp : (m.entry l j).contains present = true)
    (hr : m.Reach (m.entry l j).address h t) : m.Reach l (h + 1) t := by
  obtain ⟨p, hl, hw⟩ := hr
  exact ⟨j :: p, by simpa using hl, by rw [walk_cons_of_present hp]; exact hw⟩

theorem IsUser.contains_present {e : Entry} (he : IsUser e) : e.contains present = true := by
  cases hp : e.contains present
  · have hno := contains_or_eq_false (y := user) hp
    rw [IsUser, dupFlags] at he
    rw [he] at hno
    cases hno
  · rfl

theorem userWalk_nil : m.userWalk l [] = some l := rfl

theorem userWalk_cons (p : List (Fin 512)) :
    m.userWalk l (j :: p) =
      if IsUser (m.entry l j) then m.userWalk (m.entry l j).address p else none := by
  simp only [userWalk, List.foldlM_cons]
  split_ifs <;> rfl

/-- A walk through user entries is a walk. -/
theorem walk_of_userWalk : ∀ {l : ℕ} {p : List (Fin 512)}, m.userWalk l p = some t →
    m.walk l p = some t
  | _, [], hw => hw
  | l, j :: p, hw => by
    rw [userWalk_cons] at hw
    split_ifs at hw with hu
    rw [walk_cons_of_present hu.contains_present]
    exact walk_of_userWalk hw

theorem Below.cons (hu : IsUser (m.entry l j)) (hr : m.Below (m.entry l j).address h t) :
    m.Below l (h + 1) t := by
  obtain ⟨p, hl, hw⟩ := hr
  exact ⟨j :: p, by simp [hl], by rw [userWalk_cons, if_pos hu]; exact hw⟩

theorem Below.reach (hb : m.Below l h t) : m.Reach l h t :=
  let ⟨p, hl, hw⟩ := hb
  ⟨p, hl.le, walk_of_userWalk hw⟩

/-- A table below `l` is below the entry of `l` it is reached through. -/
theorem Reach.of_cons (hr : m.Reach l (h + 1) t) :
    t = l ∨ ∃ j, (m.entry l j).contains present = true ∧ m.Reach (m.entry l j).address h t := by
  obtain ⟨p, hl, hw⟩ := hr
  cases p with
  | nil => exact .inl (Option.some_injective _ hw).symm
  | cons j p =>
    by_cases hp : (m.entry l j).contains present = true
    · rw [walk_cons_of_present hp] at hw
      exact .inr ⟨j, hp, p, by simpa using hl, hw⟩
    · rw [walk_cons_of_nextLevel_none (by simp [nextLevel, hp])] at hw
      cases hw

theorem InjBelow.cons (hinj : m.InjBelow l (h + 1)) (hp : (m.entry l j).contains present = true) :
    m.InjBelow (m.entry l j).address h := by
  intro p q t hpl hql hpt hqt
  have := hinj (j :: p) (j :: q) t (by simpa using hpl) (by simpa using hql)
    (by rw [walk_cons_of_present hp]; exact hpt) (by rw [walk_cons_of_present hp]; exact hqt)
  exact List.cons_injective this

/-- The tables below two entries of `l` are distinct tables. -/
theorem InjBelow.disjoint (hinj : m.InjBelow l (h + 1)) (hne : j ≠ a)
    (hj : (m.entry l j).contains present = true) (ha : (m.entry l a).contains present = true)
    (htj : m.Reach (m.entry l j).address h t) (hta : m.Reach (m.entry l a).address h t) :
    False := by
  obtain ⟨p, hpl, hpt⟩ := htj
  obtain ⟨q, hql, hqt⟩ := hta
  have := hinj (j :: p) (a :: q) t (by simpa using hpl) (by simpa using hql)
    (by rw [walk_cons_of_present hj]; exact hpt) (by rw [walk_cons_of_present ha]; exact hqt)
  exact hne (List.cons_eq_cons.1 this).1

/-- The table `l` is below none of its entries. -/
theorem InjBelow.not_reach_self (hinj : m.InjBelow l (h + 1))
    (hj : (m.entry l j).contains present = true) : ¬m.Reach (m.entry l j).address h l := by
  rintro ⟨p, hpl, hpt⟩
  have := hinj (j :: p) [] l (by simpa using hpl) (Nat.zero_le _)
    (by rw [walk_cons_of_present hj]; exact hpt) walk_nil
  exact List.cons_ne_nil _ _ this

/-- The table `l` is no last table below it. -/
theorem InjBelow.not_below_self (hinj : m.InjBelow l (h + 1)) : ¬m.Below l (h + 1) l := by
  rintro ⟨p, hpl, hpt⟩
  have := hinj p [] l (by omega) (Nat.zero_le _) (walk_of_userWalk hpt) walk_nil
  subst this
  simp at hpl

theorem FitBelow.cons (hfit : m.FitBelow l (h + 1)) (hp : (m.entry l j).contains present = true) :
    m.FitBelow (m.entry l j).address h := by
  intro p t i hpl hpt hti
  exact hfit (j :: p) t i (by simpa using hpl) (by rw [walk_cons_of_present hp]; exact hpt) hti

theorem FitBelow.self (hfit : m.FitBelow l (h + 1)) (hp : (m.entry l j).contains present = true) :
    Fits (m.entry l j).address :=
  hfit [] l j (Nat.zero_lt_succ _) walk_nil hp

/-- Walks of at most `h + 1` steps from `n` read only the tables at most `h` levels below `n`. -/
theorem walk_eq_of_agree (hag : ∀ t, m.Reach n h t → m'.tables t = m.tables t)
    (hp : p.length ≤ h + 1) : m'.walk n p = m.walk n p := by
  apply walk_congr
  intro q j t hq ht
  have hlen := hq.length_le
  simp only [List.length_append, List.length_singleton] at hlen
  apply nextLevel_eq_of_entry_eq
  show m'.tables t j = m.tables t j
  rw [hag t ⟨q, by omega, ht⟩]

theorem reach_iff_of_agree (hag : ∀ t, m.Reach n h t → m'.tables t = m.tables t) :
    m'.Reach n h t ↔ m.Reach n h t := by
  constructor
  · rintro ⟨p, hp, hw⟩
    exact ⟨p, hp, (walk_eq_of_agree hag (hp.trans h.le_succ)) ▸ hw⟩
  · rintro ⟨p, hp, hw⟩
    exact ⟨p, hp, (walk_eq_of_agree hag (hp.trans h.le_succ)).symm ▸ hw⟩

/-! ## What `duplicate` writes -/

/-- A page's entry in the old table after `duplicate`: a user page's without `WRITABLE`. -/
def protect (e : Entry) : Entry := if IsUser e then e.remove writable else e

/-- The entry `duplicate` writes for a user page in the new last table, over an entry of zeros:
`set_flags` with the page's frame and its flags, already without `WRITABLE`. -/
def copyLeaf (e : Entry) : Entry :=
  ((0 : Entry).withFrame (frameOf (e.remove writable).address)).setFlags
    (present ||| e.remove writable)

/-- After `duplicate`, the new table `n` holds the copy of the user entries of the old table `l`
of `M`, `h` levels above the last, and the old last tables below `l` hold their user pages without
`WRITABLE`; every other entry of a new table is zero. -/
def Copied (M m : Mem A) : ℕ → ℕ → ℕ → Prop
  | 0, l, n => ∀ j, m.entry l j = protect (M.entry l j) ∧
      m.entry n j = if IsUser (M.entry l j) then copyLeaf (M.entry l j) else 0
  | h + 1, l, n => ∀ j, m.entry l j = M.entry l j ∧
      if IsUser (M.entry l j) then
        (m.entry n j).contains present = true ∧
          Copied M m h (M.entry l j).address (m.entry n j).address
      else m.entry n j = 0

/-- What `Copied` says reads only the tables below `l` in `M` and below `n` in `m`. -/
theorem Copied.congr : ∀ {h l n : ℕ}, Copied M m h l n →
    (∀ t, M.Reach l h t → m'.tables t = m.tables t) →
    (∀ t, m.Reach n h t → m'.tables t = m.tables t) → Copied M m' h l n
  | 0, l, n, hc, hl, hn => fun j => by
    have hl' : m'.entry l j = m.entry l j := by
      show m'.tables l j = m.tables l j
      rw [hl l reach_self]
    have hn' : m'.entry n j = m.entry n j := by
      show m'.tables n j = m.tables n j
      rw [hn n reach_self]
    rw [hl', hn']
    exact hc j
  | h + 1, l, n, hc, hl, hn => fun j => by
    obtain ⟨hold, hnew⟩ := hc j
    have hl' : m'.entry l j = m.entry l j := by
      show m'.tables l j = m.tables l j
      rw [hl l reach_self]
    have hn' : m'.entry n j = m.entry n j := by
      show m'.tables n j = m.tables n j
      rw [hn n reach_self]
    refine ⟨hl'.trans hold, ?_⟩
    rw [hn']
    split_ifs at hnew ⊢ with hu
    · -- the copy below the entry reads the tables below it, on both sides
      obtain ⟨hp, hcop⟩ := hnew
      exact ⟨hp, hcop.congr (fun t ht => hl t (ht.cons hu.contains_present))
        (fun t ht => hn t (ht.cons hp))⟩
    · exact hnew

/-! ## The allocator and the counts -/

variable [FrameAlloc A]

/-- What `duplicate` does to the allocator and the counts: it frees no frame and only raises
counts. -/
structure Grows (m m' : Mem A) : Prop where
  free : ∀ x ∈ m'.free, x ∈ m.free
  uses : ∀ x, m.uses x ≤ m'.uses x
  pages : m'.pages = m.pages

theorem Grows.refl (m : Mem A) : Grows m m := ⟨fun _ hx => hx, fun _ => le_rfl, rfl⟩

theorem Grows.trans {m'' : Mem A} (h₁ : Grows m m') (h₂ : Grows m' m'') : Grows m m'' :=
  ⟨fun x hx => h₁.free x (h₂.free x hx), fun x => (h₁.uses x).trans (h₂.uses x),
    h₂.pages.trans h₁.pages⟩

theorem Grows.of_eq (hfree : m'.free = m.free) (huses : m'.uses = m.uses)
    (hpages : m'.pages = m.pages) : Grows m m' :=
  ⟨fun _ hx => hfree ▸ hx, fun _ => by rw [huses], hpages⟩

theorem Grows.mem_free (hg : Grows m m') {x : ℕ} (hx : x ∈ m'.free) : x ∈ m.free :=
  hg.free x hx

/-- Frames taken from the allocator and counts raised keep the bounds of every user. -/
theorem Frames.of_grows {R : ℕ → ℕ} (hf : m.Frames R) (hg : Grows m m') : m'.Frames R where
  free_fit f hf' := hf.free_fit f (hg.mem_free hf')
  free_unused f hf' := hf.free_unused f (hg.mem_free hf')
  used_fit := hf.used_fit
  uses f hf0 hp := (hf.uses f hf0 (by simpa [hasPhysPage, hg.pages] using hp)).trans (hg.uses _)

theorem address_lt (e : Entry) : e.address < 2 ^ 52 := by
  unfold address
  rw [BitVec.toNat_and]
  exact lt_of_le_of_lt Nat.and_le_right (by decide)

/-- `set_frame` over an entry of zeros: one write, and the new frame gains a user. -/
theorem setFrame_of_zero {f : ℕ} {i : Fin 512} (h0 : m.entry t i = 0) (hfit : Fits f) :
    Grows m (m.setFrame t i f) ∧ (m.setFrame t i f).free = m.free := by
  have hunref : (m.unrefPhysPage (m.entry t i).address).2 = m := by
    rw [h0, address_zero]
    exact unrefPhysPage_of_not (by simp)
  rw [setFrame_eq hfit, hunref]
  split_ifs
  · exact ⟨⟨by simp, fun x => by simpa using uses_le_refPhysPage x, by simp⟩, by simp⟩
  · exact ⟨Grows.of_eq (by simp) (by simp) (by simp), by simp⟩

theorem setFrameFlags_of_zero {f : ℕ} (fl : Entry) {i : Fin 512} (h0 : m.entry t i = 0)
    (hfit : Fits f) :
    Grows m (m.setFrameFlags t i f fl) ∧ (m.setFrameFlags t i f fl).free = m.free := by
  obtain ⟨hg, hf⟩ := setFrame_of_zero h0 hfit
  exact ⟨hg.trans (Grows.of_eq rfl rfl rfl), hf⟩

/-- `alloc_next_level` on an entry of zeros: a free frame from the allocator, cleared, is linked
with `alloc_next_level`'s flags, and nothing else is written. -/
theorem allocNextLevel_of_zero {w : Bool} {n' : ℕ} {m₁ : Mem A} (h0 : m.entry n a = 0)
    (hfit : ∀ f ∈ m.free, Fits f) (hnf : n ∉ m.free)
    (h : m.allocNextLevel n a true = some (w, n', m₁)) :
    n' ∈ m.free ∧ n' ∉ m₁.free ∧ (m₁.entry n a).contains present = true ∧
      (m₁.entry n a).address = n' ∧ (∀ j, m₁.entry n' j = 0) ∧
      (∀ t j, ¬(t = n ∧ j = a) → t ≠ n' → m₁.entry t j = m.entry t j) ∧ Grows m m₁ := by
  obtain ⟨rfl, ⟨hp, -⟩ | ⟨-, -, f, m₀, ha, rfl⟩⟩ := allocNextLevel_cases h
  · rw [h0, contains_zero_present] at hp
    cases hp
  obtain ⟨-, htab, huses, hpages⟩ := allocate_eq_some ha
  have hfm : f ∈ m.free := mem_free_of_allocate ha
  have hff : Fits f := hfit f hfm
  have hfn : f ≠ n := fun e => hnf (e ▸ hfm)
  have hz : (m₀.clearFrame f).entry n a = 0 := by
    rw [entry_clearFrame, if_neg hfn.symm]
    simpa [entry, htab] using h0
  obtain ⟨hg, hsf⟩ := setFrame_of_zero hz hff
  have hent : (((m₀.clearFrame f).setFrame n a f).modifyEntry n a
      (·.setFlags (linkFlags true))).entry n a =
      (((m₀.clearFrame f).entry n a).withFrame f).setFlags (linkFlags true) := by
    rw [entry_modifyEntry, if_pos ⟨rfl, rfl⟩, entry_setFrame, if_pos ⟨rfl, rfl⟩]
  have haddr : ((((m₀.clearFrame f).entry n a).withFrame f).setFlags (linkFlags true)).address =
      f := by
    rw [address_setFlags, address_withFrame hff]
  refine ⟨by rw [hent, haddr]; exact hfm, ?_, ?_, ?_, fun j => ?_, fun t j htj htf => ?_, ?_⟩
  · rw [hent, haddr, free_modifyEntry, hsf, free_clearFrame]
    exact not_mem_free_allocate ha
  · rw [hent, contains_setFlags present_and_not_flagMask, contains_linkFlags_present]
  · rw [hent]
  · rw [hent, haddr, entry_modifyEntry, if_neg (fun h => hfn h.1), entry_setFrame,
      if_neg (fun h => hfn h.1), entry_clearFrame, if_pos rfl]
  · rw [hent, haddr] at htf
    rw [entry_modifyEntry, if_neg htj, entry_setFrame, if_neg htj, entry_clearFrame, if_neg htf]
    simp [entry, htab]
  · -- the frame taken, and the link's new user
    refine ⟨fun x hx => ?_, fun x => ?_, ?_⟩
    · rw [free_modifyEntry, hsf, free_clearFrame] at hx
      exact mem_free_of_mem_allocate ha hx
    · rw [uses_modifyEntry, ← huses]
      exact hg.uses x
    · rw [pages_modifyEntry, hg.pages, pages_clearFrame, hpages]

/-! ## The loop over a last table -/

/-- The loop over an old last table `l` and a new one `n`: the user pages of `l` lose `WRITABLE`
and `n` maps each of them to the same frame with the same flags; no other table changes, and no
frame is taken. -/
theorem dupL1_spec (hne : l ≠ n) (hn : ∀ j, IsUser (m.entry l j) → m.entry n j = 0)
    (hm' : (dupL1 l n m).1 = m') :
    (∀ j, m'.entry l j = protect (m.entry l j)) ∧
    (∀ j, m'.entry n j = if IsUser (m.entry l j) then copyLeaf (m.entry l j) else m.entry n j) ∧
    (∀ t, t ≠ l → t ≠ n → m'.tables t = m.tables t) ∧ Grows m m' ∧ m'.free = m.free := by
  subst hm'
  -- the entries at the indices the loop has passed are written, the others are as they were
  let I : List (Fin 512) → Mem A × ℕ → Prop := fun pre s =>
    (∀ j, s.1.entry l j = if j ∈ pre then protect (m.entry l j) else m.entry l j) ∧
    (∀ j, s.1.entry n j =
      if j ∈ pre ∧ IsUser (m.entry l j) then copyLeaf (m.entry l j) else m.entry n j) ∧
    (∀ t, t ≠ l → t ≠ n → s.1.tables t = m.tables t) ∧ Grows m s.1 ∧ s.1.free = m.free
  have hI : I (List.finRange 512) (dupL1 l n m) := by
    unfold dupL1
    refine Loop.foldl_inv I ?_ ⟨by simp, by simp, fun _ _ _ => rfl, Grows.refl m, rfl⟩
    rintro pre a post ⟨ms, c⟩ hl ⟨hL, hN, hT, hG, hF⟩
    have ha := (Loop.not_mem_of_eq_append (List.nodup_finRange 512) hl).1
    have hla : ms.entry l a = m.entry l a := by rw [hL a, if_neg ha]
    dsimp only
    rw [hla]
    by_cases hu : IsUser (m.entry l a)
    · -- the user page: `WRITABLE` cleared in the old entry, the copy written over zeros
      rw [if_pos (show (m.entry l a).contains dupFlags = true from hu)]
      set m₁ := ms.modifyEntry l a (·.remove writable) with hm₁
      have h₁ : m₁.entry l a = (m.entry l a).remove writable := by
        rw [hm₁, entry_modifyEntry, if_pos ⟨rfl, rfl⟩, hla]
      have hz : m₁.entry n a = 0 := by
        rw [hm₁, entry_modifyEntry, if_neg (fun h => hne h.1.symm), hN a, if_neg (by simp [ha]),
          hn a hu]
      have hfit : Fits (frameOf (m₁.entry l a).address) := fits_frameOf (address_lt _)
      obtain ⟨hG₂, hF₂⟩ := setFrameFlags_of_zero (present ||| m₁.entry l a) hz hfit
      refine ⟨fun j => ?_, fun j => ?_, fun t ht hn' => ?_, (hG.trans ?_).trans hG₂, ?_⟩
      · rw [setFlagsL1, entry_setFrameFlags, if_neg (fun h => hne h.1), hm₁, entry_modifyEntry]
        by_cases hj : j = a
        · subst hj
          simp [hla, protect, hu]
        · simp [hj, hL j]
      · rw [setFlagsL1, entry_setFrameFlags]
        by_cases hj : j = a
        · subst hj
          simp only [and_self, if_true, hz, h₁, List.mem_append, List.mem_singleton, or_true,
            true_and, if_pos hu, copyLeaf]
        · rw [if_neg (fun h => hj h.2), hm₁, entry_modifyEntry, if_neg (fun h => hne h.1.symm),
            hN j]
          simp [hj]
      · have hent : ∀ i, (m₁.setFrameFlags n a (frameOf (m₁.entry l a).address)
            (present ||| m₁.entry l a)).entry t i = ms.entry t i := fun i => by
          rw [entry_setFrameFlags, if_neg (fun h => hn' h.1), hm₁, entry_modifyEntry,
            if_neg (fun h => ht h.1)]
        exact funext fun i => (hent i).trans (congrFun (hT t ht hn') i)
      · exact Grows.of_eq rfl rfl rfl
      · rw [setFlagsL1, hF₂, hm₁, free_modifyEntry, hF]
    · rw [if_neg (show ¬(m.entry l a).contains dupFlags = true from hu)]
      refine ⟨fun j => ?_, fun j => ?_, hT, hG, hF⟩
      · rw [hL j]
        by_cases hj : j = a
        · subst hj
          simp [ha, protect, hu]
        · simp [hj]
      · rw [hN j]
        by_cases hj : j = a
        · subst hj
          simp [hu]
        · simp [hj]
  obtain ⟨hL, hN, hT, hG, hF⟩ := hI
  refine ⟨fun j => ?_, fun j => ?_, hT, hG, hF⟩
  · rw [hL j, if_pos (List.mem_finRange j)]
  · simp only [hN j, List.mem_finRange, true_and]

/-! ## What a loop needs and what it leaves -/

/-- What the loop of `duplicate` over the old table `l`, `h` levels above the last, and the new
table `n` needs of the memory `m` it starts from, against the old tree `M`: the tables below `l`
as in `M`, at distinct frames and linked at frames; free frames off them and off `n`;
and `n` off them, zero where `l` has a user entry. -/
structure DupPre (M m : Mem A) (h l n : ℕ) : Prop where
  old : ∀ t, M.Reach l h t → m.tables t = M.tables t
  inj : M.InjBelow l h
  fit : M.FitBelow l h
  free_fit : ∀ t ∈ m.free, Fits t
  free_off : ∀ t ∈ m.free, ¬M.Reach l h t
  new_free : n ∉ m.free
  new_off : ¬M.Reach l h n
  new_zero : ∀ j, IsUser (M.entry l j) → m.entry n j = 0

/-- What the loop leaves in `m'` from a new table of zeros: the copy, frames taken from the
allocator, no write but to the last tables below `l`, to `n` and to the frames taken, and only
`n` and frames taken below `n`. -/
structure DupPost (M m m' : Mem A) (h l n : ℕ) : Prop where
  copied : Copied M m' h l n
  grows : Grows m m'
  frame : ∀ t, ¬M.Below l h t → t ≠ n → (t ∈ m'.free ∨ t ∉ m.free) → m'.tables t = m.tables t
  fresh : ∀ t, m'.Reach n h t → t = n ∨ (t ∈ m.free ∧ t ∉ m'.free)

/-- The loop `inner`, over the tables `h` levels above the last, does what `DupPost` says from a
new table of zeros. -/
def LoopSpec (M : Mem A) (h : ℕ) (inner : ℕ → ℕ → Mem A → Option (Mem A × ℕ)) : Prop :=
  ∀ m m' l n c, DupPre M m h l n → (∀ j, m.entry n j = 0) → inner l n m = some (m', c) →
    DupPost M m m' h l n

theorem DupPre.ne (hpre : DupPre M m h l n) : l ≠ n := fun e => hpre.new_off (e ▸ reach_self)

/-- The loop over a last table. -/
theorem dupL1_loopSpec : LoopSpec M 0 fun l1 n1 m => some (dupL1 l1 n1 m) := by
  intro m m' l n c hpre hz h
  obtain rfl : (dupL1 l n m).1 = m' := congrArg Prod.fst (Option.some_injective _ h)
  have hl : m.tables l = M.tables l := hpre.old l reach_self
  have hlj : ∀ j, m.entry l j = M.entry l j := fun j => congrFun hl j
  obtain ⟨hL, hN, hT, hG, -⟩ :=
    dupL1_spec hpre.ne (fun j _ => hz j) rfl
  refine ⟨fun j => ⟨by rw [hL j, hlj], by rw [hN j, hlj, hz]⟩, hG, ?_, ?_⟩
  · intro t ht htn _
    exact hT t (fun e => ht ⟨[], rfl, e ▸ userWalk_nil⟩) htn
  · rintro t ⟨p, hp, hw⟩
    obtain rfl : p = [] := List.eq_nil_of_length_eq_zero (Nat.le_zero.1 hp)
    exact .inl (Option.some_injective _ hw).symm

/-! ## The loop over a table above the last level -/

/-- The entry `j` of the new table `n` once the loop over the old table `l` has passed it, from
`m`: for a user entry, a present link to a copy of what is below the old entry, all of whose
tables the loop took from the allocator; any other entry as it was. -/
def Linked (M m ms : Mem A) (h l n : ℕ) (j : Fin 512) : Prop :=
  if IsUser (M.entry l j) then
    (ms.entry n j).contains present = true ∧
      Copied M ms h (M.entry l j).address (ms.entry n j).address ∧
      ∀ t, ms.Reach (ms.entry n j).address h t → t ∈ m.free ∧ t ∉ ms.free
  else ms.entry n j = m.entry n j

/-- What the loop over `l` and `n` has done from `m` once it has passed the indices `pre`: each
entry passed is `Linked`, the entries of `n` not passed and the tables below the user entries not
passed are as they were, and no table has been written but `n`, frames taken and the last tables
below `l`. -/
structure LoopInv (M m ms : Mem A) (h l n : ℕ) (pre : List (Fin 512)) : Prop where
  done : ∀ j ∈ pre, Linked M m ms h l n j
  todo : ∀ j ∉ pre, ms.entry n j = m.entry n j
  old : ∀ j ∉ pre, IsUser (M.entry l j) → ∀ t, M.Reach (M.entry l j).address h t →
    ms.tables t = m.tables t
  frame : ∀ t, ¬M.Below l (h + 1) t → t ≠ n → (t ∈ ms.free ∨ t ∉ m.free) →
    ms.tables t = m.tables t
  grows : Grows m ms

theorem LoopInv.start : LoopInv M m m h l n [] :=
  ⟨fun _ hj => absurd hj List.not_mem_nil, fun _ _ => rfl, fun _ _ _ _ _ => rfl,
    fun _ _ _ _ => rfl, Grows.refl m⟩

/-- What one turn of the loop over `l` does at a user entry `a`, from `ms`: the new table's entry
links the table `n'`, below which is the copy, taken from the allocator; nothing else is written
but the last tables below the old entry and the frames taken. -/
structure TurnResult (M ms ms' : Mem A) (h l n : ℕ) (a : Fin 512) (n' : ℕ) : Prop where
  grows : Grows ms ms'
  linked : (ms'.entry n a).contains present = true
  target : (ms'.entry n a).address = n'
  entry_ne : ∀ j, j ≠ a → ms'.entry n j = ms.entry n j
  frame : ∀ t, t ≠ n → ¬M.Below (M.entry l a).address h t → (t ∉ ms.free ∨ t ∈ ms'.free) →
    ms'.tables t = ms.tables t
  copied : Copied M ms' h (M.entry l a).address n'
  fresh : ∀ t, ms'.Reach n' h t → t ∈ ms.free ∧ t ∉ ms'.free

variable {inner : ℕ → ℕ → Mem A → Option (Mem A × ℕ)} {ms ms' m₁ m₂ : Mem A} {w : Bool} {n' c : ℕ}
  {pre : List (Fin 512)}

/-- One turn at a user entry: `alloc_next_level` over the new table's entry of zeros, the loop
below it, and the count. -/
theorem turn_spec (hpre : DupPre M m (h + 1) l n) (hin : LoopSpec M h inner) (hms : Grows m ms)
    (hold : ∀ t, M.Reach (M.entry l a).address h t → ms.tables t = m.tables t)
    (hau : IsUser (M.entry l a)) (hz : ms.entry n a = 0)
    (h1 : ms.allocNextLevel n a true = some (w, n', m₁))
    (h2 : inner (M.entry l a).address n' m₁ = some (m₂, c)) :
    TurnResult M ms (m₂.modifyEntry n a (·.setEntryCount c)) h l n a n' := by
  have hpa := hau.contains_present
  have hnf : n ∉ ms.free := fun hn => hpre.new_free (hms.mem_free hn)
  obtain ⟨hn'ms, hn'm₁, hp1, ha1, hclear, hkeep1, hG1⟩ :=
    allocNextLevel_of_zero hz (fun f hf => hpre.free_fit f (hms.mem_free hf)) hnf h1
  have hn'off : ¬M.Reach l (h + 1) n' := hpre.free_off n' (hms.mem_free hn'ms)
  have hn'n : n' ≠ n := fun e => hnf (e ▸ hn'ms)
  have hm₁ms : ∀ x ∈ m₁.free, x ∈ ms.free := hG1.free
  have hkeep1' : ∀ t, t ≠ n → t ≠ n' → m₁.tables t = ms.tables t := fun t htn htn' =>
    funext fun j => hkeep1 t j (fun e => htn e.1) htn'
  -- the loop below starts from the tables below the old entry as in `M`
  have hpre₁ : DupPre M m₁ h (M.entry l a).address n' := {
    old := fun t ht => by
      have hr := ht.cons hpa
      rw [hkeep1' t (fun e => hpre.new_off (e ▸ hr)) (fun e => hn'off (e ▸ hr)), hold t ht,
        hpre.old t hr]
    inj := hpre.inj.cons hpa
    fit := hpre.fit.cons hpa
    free_fit := fun t ht => hpre.free_fit t (hms.mem_free (hm₁ms t ht))
    free_off := fun t ht hr => hpre.free_off t (hms.mem_free (hm₁ms t ht)) (hr.cons hpa)
    new_free := hn'm₁
    new_off := fun hr => hn'off (hr.cons hpa)
    new_zero := fun j _ => hclear j }
  have P := hin m₁ m₂ _ n' c hpre₁ hclear h2
  -- the loop below writes nothing of `n`, and the count writes nothing else
  have hn₂ : m₂.tables n = m₁.tables n :=
    P.frame n (fun hb => hpre.new_off (hb.reach.cons hpa)) hn'n.symm
      (Or.inr fun hx => hnf (hm₁ms n hx))
  set m₃ := m₂.modifyEntry n a (·.setEntryCount c) with hm₃
  have h₃ : ∀ t, t ≠ n → m₃.tables t = m₂.tables t := fun t ht => funext fun j => by
    show m₃.entry t j = m₂.entry t j
    rw [hm₃, entry_modifyEntry, if_neg (fun e => ht e.1)]
  have hna : m₃.entry n a = (m₁.entry n a).setEntryCount c := by
    rw [hm₃, entry_modifyEntry, if_pos ⟨rfl, rfl⟩]
    show (m₂.tables n a).setEntryCount c = _
    rw [hn₂]
    rfl
  have hagree : ∀ t, m₂.Reach n' h t → m₃.tables t = m₂.tables t := fun t ht => by
    apply h₃
    intro htn
    rcases P.fresh t ht with e | ⟨hx, -⟩
    · exact hn'n (e.symm.trans htn)
    · exact hnf (htn ▸ hm₁ms t hx)
  refine ⟨(hG1.trans P.grows).trans (Grows.of_eq rfl rfl rfl), ?_, ?_, fun j hj => ?_,
    fun t htn hb hfr => ?_, ?_, fun t ht => ?_⟩
  · rw [hna, contains_setEntryCount present_and_not_lowFlags, hp1]
  · rw [hna, address_setEntryCount, ha1]
  · rw [hm₃, entry_modifyEntry, if_neg (fun e => hj e.2)]
    show m₂.tables n j = _
    rw [hn₂]
    exact hkeep1 n j (fun e => hj e.2) hn'n.symm
  · -- off `n` and the part below the old entry, only the frames taken are written
    have htn' : t ≠ n' := by
      rintro rfl
      rcases hfr with hx | hx
      · exact hx hn'ms
      · exact hn'm₁ (P.grows.mem_free hx)
    have hor : t ∈ m₂.free ∨ t ∉ m₁.free := by
      rcases hfr with hx | hx
      · exact Or.inr fun hx' => hx (hm₁ms t hx')
      · exact Or.inl hx
    rw [h₃ t htn, P.frame t hb htn' hor, hkeep1' t htn htn']
  · exact P.copied.congr (fun t ht => h₃ t (fun e => hpre.new_off (e ▸ ht.cons hpa))) hagree
  · rw [reach_iff_of_agree hagree] at ht
    rcases P.fresh t ht with rfl | ⟨hx, hx'⟩
    · exact ⟨hn'ms, fun hx => hn'm₁ (P.grows.mem_free hx)⟩
    · exact ⟨hm₁ms t hx, hx'⟩

/-- A turn at a user entry keeps the loop's invariant: the copies of the earlier turns are off
what it writes. -/
theorem LoopInv.turn (hpre : DupPre M m (h + 1) l n) (hI : LoopInv M m ms h l n pre)
    (ha : a ∉ pre) (hau : IsUser (M.entry l a)) (T : TurnResult M ms ms' h l n a n') :
    LoopInv M m ms' h l n (pre ++ [a]) := by
  have hpa := hau.contains_present
  -- the tables below the other entries of `l`, and the tables taken by earlier turns, are kept
  have hoff : ∀ t, M.Reach l (h + 1) t → ¬M.Below (M.entry l a).address h t →
      ms'.tables t = ms.tables t := fun t hr hb =>
    T.frame t (fun e => hpre.new_off (e ▸ hr)) hb
      (Or.inl fun hx => hpre.free_off t (hI.grows.mem_free hx) hr)
  have hnew : ∀ t, t ∈ m.free → t ∉ ms.free → ms'.tables t = ms.tables t := fun t hm hms =>
    T.frame t (fun e => hpre.new_free (e ▸ hm))
      (fun hb => hpre.free_off t hm (hb.reach.cons hpa)) (Or.inl hms)
  have hdisj : ∀ j, j ≠ a → IsUser (M.entry l j) → ∀ t, M.Reach (M.entry l j).address h t →
      ms'.tables t = ms.tables t := fun j hja hju t ht =>
    hoff t (ht.cons hju.contains_present)
      (fun hb => hpre.inj.disjoint hja hju.contains_present hpa ht hb.reach)
  refine ⟨fun j hj => ?_, fun j hj => ?_, fun j hj hju t ht => ?_, fun t hb htn hfr => ?_,
    hI.grows.trans T.grows⟩
  · rcases List.mem_append.1 hj with hj | hj
    · -- an earlier turn's copy
      have hja : j ≠ a := fun e => ha (e ▸ hj)
      have hL := hI.done j hj
      unfold Linked at hL ⊢
      rw [T.entry_ne j hja]
      split_ifs at hL ⊢ with hju
      · obtain ⟨hp, hc, hf⟩ := hL
        have hag : ∀ t, ms.Reach (ms.entry n j).address h t → ms'.tables t = ms.tables t :=
          fun t ht => hnew t (hf t ht).1 (hf t ht).2
        refine ⟨hp, hc.congr (hdisj j hja hju) hag, fun t ht => ?_⟩
        rw [reach_iff_of_agree hag] at ht
        exact ⟨(hf t ht).1, fun hx => (hf t ht).2 (T.grows.mem_free hx)⟩
      · exact hL
    · -- this turn's copy
      obtain rfl := List.mem_singleton.1 hj
      unfold Linked
      rw [if_pos hau, T.target]
      exact ⟨T.linked, T.copied, fun t ht => ⟨hI.grows.mem_free (T.fresh t ht).1, (T.fresh t ht).2⟩⟩
  · have hja : j ≠ a := fun e => hj (by simp [e])
    rw [T.entry_ne j hja, hI.todo j (fun hp => hj (List.mem_append_left _ hp))]
  · have hja : j ≠ a := fun e => hj (by simp [e])
    rw [hdisj j hja hju t ht, hI.old j (fun hp => hj (List.mem_append_left _ hp)) hju t ht]
  · have hT : t ∉ ms.free ∨ t ∈ ms'.free := by
      rcases hfr with hx | hx
      · exact Or.inr hx
      · exact Or.inl fun hx' => hx (hI.grows.mem_free hx')
    have hI' : t ∈ ms.free ∨ t ∉ m.free := by
      rcases hfr with hx | hx
      · exact Or.inl (T.grows.mem_free hx)
      · exact Or.inr hx
    rw [T.frame t htn (fun hb' => hb (hb'.cons hau)) hT, hI.frame t hb htn hI']

/-- A turn at an entry that is not a user entry writes nothing. -/
theorem LoopInv.skip (hI : LoopInv M m ms h l n pre) (ha : a ∉ pre)
    (hau : ¬IsUser (M.entry l a)) : LoopInv M m ms h l n (pre ++ [a]) := by
  refine ⟨fun j hj => ?_, fun j hj => hI.todo j (fun hp => hj (List.mem_append_left _ hp)),
    fun j hj => hI.old j (fun hp => hj (List.mem_append_left _ hp)), hI.frame, hI.grows⟩
  rcases List.mem_append.1 hj with hj | hj
  · exact hI.done j hj
  · obtain rfl := List.mem_singleton.1 hj
    unfold Linked
    rw [if_neg hau]
    exact hI.todo j ha

/-- The table `l` itself is never written. -/
theorem LoopInv.entry_old (hpre : DupPre M m (h + 1) l n) (hI : LoopInv M m ms h l n pre)
    (j : Fin 512) : ms.entry l j = M.entry l j := by
  have ht := hI.frame l hpre.inj.not_below_self hpre.ne
    (Or.inr fun hx => hpre.free_off l hx reach_self)
  exact (congrFun ht j).trans (congrFun (hpre.old l reach_self) j)

/-- The loop over a table above the last level passes every entry. -/
theorem dupLevel_loop (hpre : DupPre M m (h + 1) l n) (hin : LoopSpec M h inner)
    (hd : dupLevel inner l n m = some (m', c)) : LoopInv M m m' h l n (List.finRange 512) := by
  unfold dupLevel at hd
  refine Loop.foldlM_inv (fun pre (s : Mem A × ℕ) => LoopInv M m s.1 h l n pre) ?_ LoopInv.start hd
  rintro pre a post ⟨ms, k⟩ ⟨ms', k'⟩ hl hI hs
  have ha := (Loop.not_mem_of_eq_append (List.nodup_finRange 512) hl).1
  dsimp only at hs hI ⊢
  rw [hI.entry_old hpre a] at hs
  by_cases hau : IsUser (M.entry l a)
  · rw [if_pos (show (M.entry l a).contains dupFlags = true from hau)] at hs
    simp only [Option.bind_eq_bind, Option.bind_eq_some_iff, Option.pure_def,
      Option.some.injEq, Prod.mk.injEq] at hs
    obtain ⟨⟨w, n', m₁⟩, h1, ⟨m₂, cnt⟩, h2, rfl, -⟩ := hs
    -- the next old table is at its entry's address
    rw [frameOf_of_fits (hpre.fit.self hau.contains_present)] at h2
    exact hI.turn hpre ha hau (turn_spec hpre hin hI.grows (hI.old a ha hau) hau
      ((hI.todo a ha).trans (hpre.new_zero a hau)) h1 h2)
  · rw [if_neg (show ¬(M.entry l a).contains dupFlags = true from hau)] at hs
    obtain rfl := (Prod.mk.injEq _ _ _ _ ▸ Option.some_injective _ hs).1
    exact hI.skip ha hau

/-- The loop over a table above the last level, from a new table of zeros. -/
theorem dupLevel_loopSpec (hin : LoopSpec M h inner) : LoopSpec M (h + 1) (dupLevel inner) := by
  intro m m' l n c hpre hz hd
  have I := dupLevel_loop hpre hin hd
  have hfin : ∀ j, Linked M m m' h l n j := fun j => I.done j (List.mem_finRange j)
  refine ⟨fun j => ⟨I.entry_old hpre j, ?_⟩, I.grows, I.frame, fun t ht => ?_⟩
  · have hL := hfin j
    unfold Linked at hL
    split_ifs at hL ⊢
    · exact ⟨hL.1, hL.2.1⟩
    · rw [hL, hz]
  · rcases ht.of_cons with rfl | ⟨j, hp, hr⟩
    · exact .inl rfl
    · have hL := hfin j
      unfold Linked at hL
      split_ifs at hL
      · exact .inr (hL.2.2 t hr)
      · rw [hL, hz, contains_zero_present] at hp
        cases hp

/-! ## A copy, walked -/

omit [FrameAlloc A] in
/-- A walk of `h` steps below a copy's new table goes as far as the user walk below the old
table, and ends, where both end at last tables, with the copy of one in the other. -/
theorem Copied.walk : ∀ {h l n : ℕ}, Copied M m h l n → ∀ p : List (Fin 512), p.length = h →
    (M.userWalk l p = none ∧ m.walk n p = none) ∨
      ∃ l' n', M.userWalk l p = some l' ∧ m.walk n p = some n' ∧ Copied M m 0 l' n'
  | 0, l, n, hc, p, hp => by
    obtain rfl := List.eq_nil_of_length_eq_zero hp
    exact .inr ⟨l, n, rfl, rfl, hc⟩
  | h + 1, l, n, hc, p, hp => by
    obtain ⟨j, p, rfl⟩ := List.exists_cons_of_length_eq_add_one hp
    obtain ⟨-, hnew⟩ := hc j
    rw [userWalk_cons]
    split_ifs at hnew ⊢ with hu
    · -- a user entry: both walks go one level down, to the copy below it
      rw [walk_cons_of_present hnew.1]
      exact hnew.2.walk p (by simpa using hp)
    · rw [walk_cons_of_nextLevel_none (by rw [nextLevel, hnew, contains_zero_present]; rfl)]
      exact .inl ⟨rfl, rfl⟩

/-! ## The address spaces `duplicate` leaves -/

/-- The kernel half of the root, the entries 256 to 511 that every `P4Table` shares, holds no
entry that `duplicate` walks through. -/
def KernelHalf (m : Mem A) (root : ℕ) : Prop := ∀ i : Fin 512, 256 ≤ i.val → ¬IsUser (m.entry root i)

/-- Whether `duplicate` copies the page: its entries at all four levels carry `PRESENT | USER`. -/
def isUserPage (m : Mem A) (root : ℕ) (q : Vpn) : Bool :=
  match m.userWalk root q.path with
  | some t => decide (IsUser (m.entry t q.idx))
  | none => false

omit [FrameAlloc A] in
theorem isUserPage_of_userWalk {q : Vpn} (ht : m.userWalk root q.path = some t) :
    m.isUserPage root q = decide (IsUser (m.entry t q.idx)) := by
  simp [isUserPage, ht]

omit [FrameAlloc A] in
theorem isUserPage_of_userWalk_none {q : Vpn} (ht : m.userWalk root q.path = none) :
    m.isUserPage root q = false := by
  simp [isUserPage, ht]

theorem or_eq_of_contains {e f : Entry} (h : e.contains f = true) : f ||| e = e := by
  simp only [contains, beq_iff_eq] at h
  ext i hi
  have hi' := congrArg (fun x : Entry => x[i]) h
  simp only [BitVec.getElem_and] at hi'
  simp only [BitVec.getElem_or]
  cases hf : f[i] <;> simp_all

/-- The copy of a user page translates as the old page without `WRITABLE`. -/
theorem ofEntry_copyLeaf {e : Entry} (hu : IsUser e) (hfit : Fits e.address) :
    Translation.ofEntry (copyLeaf e) = (Translation.ofEntry e).readOnly := by
  have hfr : frameOf (e.remove writable).address = e.address := by
    rw [address_remove (by decide), frameOf_of_fits hfit]
  have hp : (e.remove writable).contains present = true := by
    rw [contains_remove (by decide)]
    exact hu.contains_present
  rw [copyLeaf, hfr, setFlags_withFrame_of_clean hfit (by decide),
    Translation.ofEntry_pageEntry hfit, or_eq_of_contains hp, ← Translation.ofEntry_remove_writable,
    Translation.ofEntry, address_remove (by decide)]

/-! ## The loops below the root, and the root's -/

theorem dupL2_loopSpec : LoopSpec M 1 dupL2 := fun m m' l n c hpre hz h => by
  unfold dupL2 at h
  exact dupLevel_loopSpec dupL1_loopSpec m m' l n c hpre hz h

theorem dupL3_loopSpec : LoopSpec M 2 dupL3 := fun m m' l n c hpre hz h => by
  unfold dupL3 at h
  exact dupLevel_loopSpec dupL2_loopSpec m m' l n c hpre hz h

/-- The loop over the root is the loop above the last level without its count. -/
theorem dupL4_eq (root new : ℕ) (m : Mem A) :
    dupL4 root new m = (dupLevel dupL3 root new m).map Prod.fst := by
  unfold dupL4 dupLevel
  refine (Loop.foldlM_map_fst (fun s a => ?_) _ (m, 0)).symm
  split_ifs
  · cases h1 : s.1.allocNextLevel new a true with
    | none => rfl
    | some x =>
      obtain ⟨w, n', m₁⟩ := x
      cases h2 : dupL3 (frameOf (s.1.entry root a).address) n' m₁ with
      | none => simp [h2]
      | some y => simp [h2]
  · rfl

/-! ## `duplicate` from the top -/

theorem mem_drop_256 (j : Fin 512) : j ∈ (List.finRange 512).drop 256 ↔ 256 ≤ j.val := by
  rw [List.mem_iff_getElem]
  constructor
  · rintro ⟨i, hi, rfl⟩
    simp
  · intro hj
    refine ⟨j.val - 256, by simp; omega, ?_⟩
    ext
    simp
    omega

omit [FrameAlloc A] in
/-- The loop of `duplicate` that copies the old root's kernel half into the new root. -/
theorem copyKernel_entry {new : ℕ} (hne : root ≠ new) (m : Mem A) (t : ℕ) (j : Fin 512) :
    (((List.finRange 512).drop 256).foldl (fun m e => m.setEntry new e (m.entry root e)) m).entry
      t j = if t = new ∧ 256 ≤ j.val then m.entry root j else m.entry t j := by
  let I : List (Fin 512) → Mem A → Prop := fun pre s =>
    (∀ t j, s.entry t j = if t = new ∧ j ∈ pre then m.entry root j else m.entry t j) ∧
      s.free = m.free ∧ s.uses = m.uses ∧ s.pages = m.pages
  have hI : I ((List.finRange 512).drop 256)
      (((List.finRange 512).drop 256).foldl (fun m e => m.setEntry new e (m.entry root e)) m) := by
    refine Loop.foldl_inv I ?_ ⟨fun t j => by simp, rfl, rfl, rfl⟩
    rintro pre a post s - ⟨hE, hF, hU, hP⟩
    -- the root's entry is read before any write to it: the root is not the new table
    have hra : s.entry root a = m.entry root a := by rw [hE, if_neg fun h => hne h.1]
    refine ⟨fun t j => ?_, hF, hU, hP⟩
    rw [entry_setEntry, hra, hE]
    by_cases htn : t = new
    · by_cases hj : j = a
      · simp [htn, hj]
      · simp [htn, hj]
    · simp [htn]
  rw [hI.1 t j]
  simp only [mem_drop_256]

omit [FrameAlloc A] in
theorem copyKernel_free (root new : ℕ) (m : Mem A) :
    (((List.finRange 512).drop 256).foldl (fun m e => m.setEntry new e (m.entry root e)) m).free =
      m.free ∧
    (((List.finRange 512).drop 256).foldl (fun m e => m.setEntry new e (m.entry root e)) m).uses =
      m.uses ∧
    (((List.finRange 512).drop 256).foldl (fun m e => m.setEntry new e (m.entry root e)) m).pages =
      m.pages := by
  refine Loop.foldl_inv (fun (_ : List (Fin 512)) (s : Mem A) =>
    s.free = m.free ∧ s.uses = m.uses ∧ s.pages = m.pages) ?_ ⟨rfl, rfl, rfl⟩
  rintro pre a post s - ⟨hF, hU, hP⟩
  exact ⟨hF, hU, hP⟩

/-- A run of `duplicate` taken apart: the new root from the allocator, holding the old kernel
half, and the loop over the old root that `LoopInv` describes. -/
structure DupRun (m m₂ m' : Mem A) (root new : ℕ) : Prop where
  wf : m.Wf root
  kernel : m.KernelHalf root
  entry₂ : ∀ t j, m₂.entry t j =
    if t = new then (if 256 ≤ j.val then m.entry root j else 0) else m.entry t j
  free₂ : new ∈ m.free ∧ new ∉ m₂.free
  grows₂ : Grows m m₂
  pre : DupPre m m₂ 3 root new
  loop : LoopInv m m₂ m' 2 root new (List.finRange 512)

theorem Wf.not_isTable_of_free (hwf : m.Wf root) {f : ℕ} (hf : f ∈ m.free) :
    ¬m.IsTable root f :=
  not_isTable_of_refs_eq_zero (hwf.frames.free_unused f hf)

/-- Every run of `duplicate` from a tree with the invariant and no user entry in its kernel half
is a `DupRun`. -/
theorem duplicate_run {new : ℕ} (hwf : m.Wf root) (hk : m.KernelHalf root)
    (h : m.duplicate root = some (new, m')) : ∃ m₂, DupRun m m₂ m' root new := by
  simp only [duplicate, newTable, Option.bind_eq_bind, Option.bind_eq_some_iff, Option.pure_def,
    Option.some.injEq, Prod.mk.injEq] at h
  obtain ⟨_, ⟨⟨f, m₀⟩, ha, rfl⟩, m₃, hd, rfl, rfl⟩ := h
  dsimp only at hd
  obtain ⟨-, htab, huses, hpages⟩ := allocate_eq_some ha
  have hfm : f ∈ m.free := mem_free_of_allocate ha
  have hnt := hwf.not_isTable_of_free hfm
  have hrf : root ≠ f := fun e => hnt (e ▸ ⟨[], Nat.zero_le _, walk_nil⟩)
  set m₂ := ((List.finRange 512).drop 256).foldl (fun m e => m.setEntry f e (m.entry root e))
    ((m₀.clearFrame f).refTable f) with hm₂
  have h₁ : ∀ t j, ((m₀.clearFrame f).refTable f).entry t j = if t = f then 0 else m.entry t j :=
    fun t j => by
      rw [entry_of_tables_eq (tables_refTable f), entry_clearFrame]
      simp [entry, htab]
  have he₂ : ∀ t j, m₂.entry t j =
      if t = f then (if 256 ≤ j.val then m.entry root j else 0) else m.entry t j := fun t j => by
    rw [hm₂, copyKernel_entry hrf, h₁, h₁, if_neg hrf]
    by_cases htf : t = f <;> simp [htf]
  obtain ⟨hF₂, hU₂, hP₂⟩ := copyKernel_free root f ((m₀.clearFrame f).refTable f)
  rw [← hm₂] at hF₂ hU₂ hP₂
  have hm₂m : ∀ x ∈ m₂.free, x ∈ m.free := fun x hx => by
    rw [hF₂, free_refTable, free_clearFrame] at hx
    exact mem_free_of_mem_allocate ha hx
  have hfm₂ : f ∉ m₂.free := by
    rw [hF₂, free_refTable, free_clearFrame]
    exact not_mem_free_allocate ha
  have hpre : DupPre m m₂ 3 root f := {
    old := fun t ht => funext fun j => by
      show m₂.entry t j = m.entry t j
      rw [he₂, if_neg fun (e : t = f) => hnt (e ▸ ht)]
    inj := hwf.shape.inj
    fit := fun p t j hp ht hpr => (hwf.shape.entry_ok p t j hp.le ht).fit hpr
    free_fit := fun t ht => hwf.frames.free_fit t (hm₂m t ht)
    free_off := fun t ht => hwf.not_isTable_of_free (hm₂m t ht)
    new_free := hfm₂
    new_off := hnt
    new_zero := fun j hu => by
      rw [he₂, if_pos rfl, if_neg fun hj => hk j hj hu] }
  have hgrows : Grows m m₂ := by
    refine ⟨hm₂m, fun x => ?_, ?_⟩
    · rw [hU₂, ← huses]
      unfold refTable
      split_ifs
      · simp only [uses_clearFrame, Function.update_apply]
        split_ifs with hx
        · subst hx
          omega
        · exact le_rfl
      · exact le_rfl
    · rw [hP₂, pages_refTable, pages_clearFrame, hpages]
  obtain ⟨c, hd'⟩ : ∃ c, dupLevel dupL3 root f m₂ = some (m₃, c) := by
    rw [dupL4_eq] at hd
    obtain ⟨⟨m'', c⟩, hd', rfl⟩ := Option.map_eq_some_iff.1 hd
    exact ⟨c, hd'⟩
  exact ⟨m₂, hwf, hk, he₂, ⟨hfm, hfm₂⟩, hgrows, hpre, dupLevel_loop hpre dupL3_loopSpec hd'⟩

/-! ## What a run of `duplicate` leaves -/

namespace DupRun

variable {m₂ : Mem A} {new : ℕ} {q : Vpn}

omit [FrameAlloc A] in
theorem isUser_of_userWalk_cons (h : m.userWalk l (j :: p) = some t) : IsUser (m.entry l j) := by
  rw [userWalk_cons] at h
  split_ifs at h with hu
  exact hu

/-- A table of the old tree that is no last table below a user path is not written. -/
theorem keep (R : DupRun m m₂ m' root new) (ht : m.IsTable root t) (hb : ¬m.Below root 3 t) :
    m'.tables t = m.tables t := by
  have htn : t ≠ new := fun e => R.pre.new_off (e ▸ ht)
  rw [R.loop.frame t hb htn (Or.inr fun hx => R.pre.free_off t hx ht), R.pre.old t ht]

/-- The tables of the old tree above the last level are no last tables. -/
theorem not_below (R : DupRun m m₂ m' root new) (hp : p.length ≤ 2)
    (ht : m.walk root p = some t) : ¬m.Below root 3 t := by
  rintro ⟨p', hp', hw⟩
  have := R.wf.shape.inj p p' t (by omega) (by omega) ht (walk_of_userWalk hw)
  subst this
  omega

/-- The old tree's walks are as they were. -/
theorem walk_old (R : DupRun m m₂ m' root new) (hp : p.length ≤ 3) :
    m'.walk root p = m.walk root p :=
  walk_eq_of_agree (h := 2) (fun _ ⟨p', hp', hw⟩ => R.keep ⟨p', by omega, hw⟩ (R.not_below hp' hw))
    hp

theorem entry_root (R : DupRun m m₂ m' root new) (j : Fin 512) :
    m'.entry root j = m.entry root j :=
  congrFun (R.keep ⟨[], Nat.zero_le _, walk_nil⟩ (R.not_below (Nat.zero_le _) walk_nil)) j

/-- Below a root entry of the lower half, the new tree goes as far as the old tree's user walk,
down to a copy of the last table. -/
theorem linked (R : DupRun m m₂ m' root new) (ha : a.val < 256) (hp : p.length = 2) :
    (m.userWalk root (a :: p) = none ∧ m'.walk new (a :: p) = none) ∨
      ∃ l1 n1, m.userWalk root (a :: p) = some l1 ∧ m'.walk new (a :: p) = some n1 ∧
        Copied m m' 0 l1 n1 := by
  have hL := R.loop.done a (List.mem_finRange a)
  unfold Linked at hL
  rw [userWalk_cons]
  split_ifs at hL ⊢ with hu
  · obtain ⟨hp', hc, -⟩ := hL
    rw [walk_cons_of_present hp']
    exact hc.walk p hp
  · -- the new root's entry is zero below the kernel half
    have hz : m'.entry new a = 0 := by rw [hL, R.entry₂, if_pos rfl, if_neg (by omega)]
    rw [walk_cons_of_nextLevel_none (by rw [nextLevel, hz, contains_zero_present]; rfl)]
    exact .inl ⟨rfl, rfl⟩

/-- A last table below a user path holds its user pages without `WRITABLE`. -/
theorem below_entry (R : DupRun m m₂ m' root new) (hb : m.Below root 3 t) (j : Fin 512) :
    m'.entry t j = protect (m.entry t j) := by
  obtain ⟨p, hp, hw⟩ := hb
  obtain ⟨a, p, rfl⟩ := List.exists_cons_of_length_eq_add_one hp
  -- a user path starts in the lower half
  have ha : a.val < 256 := by
    by_contra hge
    exact R.kernel a (by omega) (isUser_of_userWalk_cons hw)
  rcases R.linked ha (by simpa using hp) with ⟨hn, -⟩ | ⟨l1, n1, hl1, -, hc⟩
  · rw [hn] at hw
    cases hw
  · rw [hw] at hl1
    obtain rfl := Option.some_injective _ hl1
    exact (hc j).1

/-- A page's entry in the old tree: without `WRITABLE` where `duplicate` copies the page. -/
theorem leaf_old (R : DupRun m m₂ m' root new) (hwq : m.walk root q.path = some t) :
    m'.entry t q.idx =
      if m.isUserPage root q then (m.entry t q.idx).remove writable else m.entry t q.idx := by
  cases hu : m.userWalk root q.path with
  | none =>
    rw [isUserPage_of_userWalk_none hu, if_neg Bool.false_ne_true]
    -- a last table below a user path of the tree would be reached by the page's path
    have hb : ¬m.Below root 3 t := by
      rintro ⟨p, hp, hpw⟩
      have := R.wf.shape.inj p q.path t (by omega) (by simp [Vpn.path_length])
        (walk_of_userWalk hpw) hwq
      rw [← this, hpw] at hu
      cases hu
    exact congrFun (R.keep ⟨_, by simp [Vpn.path_length], hwq⟩ hb) _
  | some t' =>
    obtain rfl : t' = t := Option.some_injective _ ((walk_of_userWalk hu).symm.trans hwq)
    rw [isUserPage_of_userWalk hu, R.below_entry ⟨q.path, Vpn.path_length q, hu⟩, protect]
    by_cases hus : IsUser (m.entry t' q.idx) <;> simp [hus]

theorem contains_present_remove_writable (e : Entry) :
    (e.remove writable).contains present = e.contains present :=
  contains_remove (by decide)

/-- The old tree's pages: the user pages without `WRITABLE`, the others as they were. -/
theorem leafAt_old (R : DupRun m m₂ m' root new) (q : Vpn) :
    m'.leafAt root q =
      (m.leafAt root q).map fun e => if m.isUserPage root q then e.remove writable else e := by
  have hw := R.walk_old (p := q.path) (by simp [Vpn.path_length])
  cases hwq : m.walk root q.path with
  | none => rw [leafAt_eq_none_of_walk (hw.trans hwq), leafAt_eq_none_of_walk hwq]; rfl
  | some t =>
    rw [leafAt_of_walk (hw.trans hwq), leafAt_of_walk hwq, R.leaf_old hwq]
    split_ifs <;> simp_all [contains_present_remove_writable]

/-- The old table's address space after `duplicate`: the user pages without `WRITABLE`. -/
theorem view_old (R : DupRun m m₂ m' root new) :
    m'.view root = (m.view root).protect (m.isUserPage root) := by
  funext q
  simp only [view, AddrSpace.protect, R.leafAt_old]
  split_ifs
  · simp only [Option.map_map]
    congr 1
    funext e
    exact Translation.ofEntry_remove_writable e
  · simp

/-- The copy's address space: the kernel half of the old table, its user pages without
`WRITABLE`, and nothing else. -/
theorem view_new (R : DupRun m m₂ m' root new) :
    m'.view new = (m.view root).fork (m.isUserPage root) := by
  funext q
  unfold AddrSpace.fork
  split_ifs with hq hU
  · -- the kernel half: the new root's entry is the old one, so both roots walk alike
    have hku := R.kernel q.1 hq
    have hL := R.loop.done q.1 (List.mem_finRange _)
    unfold Linked at hL
    rw [if_neg hku, R.entry₂, if_pos rfl, if_pos hq] at hL
    have hwalk : m'.walk new q.path = m'.walk root q.path := by
      show m'.walk new (q.1 :: _) = m'.walk root (q.1 :: _)
      rw [walk_cons, walk_cons]
      simp only [nextLevel, hL, R.entry_root]
    have hnot : m.isUserPage root q = false := by
      apply isUserPage_of_userWalk_none
      show m.userWalk root (q.1 :: _) = none
      rw [userWalk_cons, if_neg hku]
    have hl : m'.leafAt new q = m'.leafAt root q := by simp only [leafAt, hwalk]
    rw [view, hl, ← view, R.view_old, AddrSpace.protect, hnot, if_neg Bool.false_ne_true]
  · have hq' : q.1.val < 256 := by omega
    rcases R.linked (p := [q.2.1, q.2.2.1]) hq' rfl with ⟨hn, -⟩ | ⟨l1, n1, hu, hwn, hc⟩
    · rw [isUserPage_of_userWalk_none hn] at hU
      cases hU
    · rw [isUserPage_of_userWalk hu, decide_eq_true_iff] at hU
      have hwl : m.walk root q.path = some l1 := walk_of_userWalk hu
      have hfit := (R.wf.shape.entry_ok q.path l1 q.idx (by simp [Vpn.path_length]) hwl).fit
        hU.contains_present
      have hent := (hc q.idx).2
      rw [if_pos hU] at hent
      have hcp : (copyLeaf (m.entry l1 q.idx)).contains present = true := by
        rw [copyLeaf, contains_setFlags present_and_not_flagMask]
        exact contains_or_left
      rw [view, view, leafAt_of_walk hwn, leafAt_of_walk hwl, hent, if_pos hcp,
        if_pos hU.contains_present, Option.map_some, Option.map_some, Option.map_some,
        ofEntry_copyLeaf hU (by simpa [Vpn.path_length] using hfit)]
  · have hq' : q.1.val < 256 := by omega
    rw [view]
    rcases R.linked (p := [q.2.1, q.2.2.1]) hq' rfl with ⟨-, hn⟩ | ⟨l1, n1, hu, hwn, hc⟩
    · rw [leafAt_eq_none_of_walk hn]
      rfl
    · rw [isUserPage_of_userWalk hu, decide_eq_true_iff] at hU
      have hent := (hc q.idx).2
      rw [if_neg hU] at hent
      rw [leafAt_of_walk hwn, hent, contains_zero_present]
      rfl

/-- A page's entry without `WRITABLE`, as `duplicate` leaves it, is as the shape wants it. -/
theorem entryOk_protect {e : Entry} (hok : EntryOk 3 e) : EntryOk 3 (protect e) := by
  unfold protect
  split_ifs
  · refine ⟨fun h => ?_, fun h => ?_, fun _ h => absurd h (by omega), fun _ => ?_⟩
    · rw [contains_present_remove_writable] at h
      rw [hok.zero h]
      rfl
    · rw [contains_present_remove_writable] at h
      rw [address_remove (by decide)]
      exact hok.fit h
    · exact remove_and_rest (hok.clean rfl)
  · exact hok

/-- The old table keeps the invariant of a `P4Table` and its kernel half. -/
theorem wf_old (R : DupRun m m₂ m' root new) : m'.Wf root ∧ m'.KernelHalf root := by
  have hinj : m'.Inj root := inj_of_walk_eq R.wf.shape.inj fun p hp => R.walk_old hp
  -- every entry of the tree is as it was, or a user page's entry without `WRITABLE`
  have hent : ∀ t, m.IsTable root t → ∀ j,
      (m'.entry t j).contains present = (m.entry t j).contains present ∧
        (m'.entry t j).address = (m.entry t j).address := by
    intro t ht j
    by_cases hb : m.Below root 3 t
    · rw [R.below_entry hb, protect]
      split_ifs
      · exact ⟨contains_present_remove_writable _, address_remove (by decide)⟩
      · exact ⟨rfl, rfl⟩
    · rw [show m'.entry t j = m.entry t j from congrFun (R.keep ht hb) j]
      exact ⟨rfl, rfl⟩
  have hshape : m'.Shape root := R.wf.shape.of_entries hinj fun q x j hq hx => by
    rw [R.walk_old hq] at hx
    by_cases hb : m.Below root 3 x
    · left
      obtain ⟨p, hp, hpw⟩ := hb
      have hpq := R.wf.shape.inj p q x (by omega) hq (walk_of_userWalk hpw) hx
      subst hpq
      rw [R.below_entry ⟨p, hp, hpw⟩, hp]
      exact entryOk_protect (hp ▸ R.wf.shape.entry_ok p x j hq hx)
    · exact .inr ⟨hx, congrFun (R.keep ⟨q, hq, hx⟩ hb) j⟩
  have hrefs : m'.refs root = m.refs root := by
    classical
    funext g
    have hl : ∀ q, (m'.leafAt root q).map address = (m.leafAt root q).map address := fun q => by
      rw [R.leafAt_old, Option.map_map]
      congr 1
      funext e
      split_ifs
      · exact address_remove (by decide)
      · rfl
    simp only [refs, hl]
    rw [if_congr (isTable_iff_of_walk fun p hp => R.walk_old hp) rfl rfl]
  refine ⟨⟨hshape, fun q x j hq1 hq2 hx hpr => ?_, ?_⟩, fun i hi => ?_⟩
  · rw [R.walk_old (by omega)] at hx
    have hxe : m'.entry x j = m.entry x j :=
      congrFun (R.keep ⟨q, by omega, hx⟩ (R.not_below hq2 hx)) j
    rw [hxe] at hpr ⊢
    rw [R.wf.counted q x j hq1 hq2 hx hpr]
    have hy : m.IsTable root (m.entry x j).address :=
      ⟨q ++ [j], by simp; omega, walk_append_of_present hx hpr⟩
    rw [presentCount_congr fun j' => (hent _ hy j').1]
  · rw [hrefs]
    exact R.wf.frames.of_grows (R.grows₂.trans R.loop.grows)
  · rw [R.entry_root]
    exact R.kernel i hi

end DupRun

/-- `P4Table::duplicate`, from a tree with the invariant whose kernel half holds no user entry:
the old table keeps the invariant, its kernel half and its pages, but for the user pages
(`isUserPage`), which lose `WRITABLE`; the copy has the old kernel half, the user pages without
`WRITABLE`, and no other page. -/
theorem duplicate_spec {new : ℕ} (hwf : m.Wf root) (hk : m.KernelHalf root)
    (h : m.duplicate root = some (new, m')) :
    m'.Wf root ∧ m'.KernelHalf root ∧
      m'.view root = (m.view root).protect (m.isUserPage root) ∧
      m'.view new = (m.view root).fork (m.isUserPage root) := by
  obtain ⟨m₂, R⟩ := duplicate_run hwf hk h
  exact ⟨R.wf_old.1, R.wf_old.2, R.view_old, R.view_new⟩

end Mem

end Cykusz.Virt
