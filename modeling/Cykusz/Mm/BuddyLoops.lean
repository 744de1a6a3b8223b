import Mathlib
import Cykusz.Mm.BuddySpec

/-!
# The loops of the buddy allocator

What the three loops of `buddy.rs` do to the free set, in the form the invariant needs:

* `addRangeLoop_spec`: marking a range free adds pairwise disjoint blocks inside it;
* `alloc_spec`: `alloc` takes one free block of some order `i ≥ order` out and frees again the
  pieces of it past the returned block, the piece of each order from `order` up to `i`;
* `deallocLoop_spec`: freeing a loose block takes out the free buddies it merges with and adds
  one block made of them and of the freed block.

Each is stated for runs that do not panic (`= some`), which is what a reached state is.
-/

namespace Cykusz.Buddy

open Align

namespace BuddyAlloc

variable {s s' : BuddyAlloc}

/-! ## `find_ord` and the range loop -/

theorem bsize_eq_two_pow (o : Order) : bsize o = 2 ^ (12 + o.val) := by
  rw [bsize_eq, Nat.pow_add]

theorem page_dvd_bsize (o : Order) : 0x1000 ∣ bsize o := by
  rw [bsize_eq]
  exact Nat.dvd_mul_right _ _

/-- The order `find_ord` picks is aligned with `addr`, unless it is the fallback order `0`. -/
theorem findOrd_dvd (addr maxSize : ℕ) :
    bsize (findOrd addr maxSize) ∣ addr ∨ findOrd addr maxSize = ⟨0, by decide⟩ := by
  unfold findOrd
  split
  · rename_i ord hord
    left
    have hp := List.find?_some hord
    simp only [Bool.and_eq_true, beq_iff_eq] at hp
    have hmod : addr % bsize ord = 0 := by
      rw [← hp.2, Nat.and_comm, bsize_eq_two_pow, Nat.and_two_pow_sub_one_eq_mod]
    exact Nat.dvd_of_mod_eq_zero hmod
  · right; rfl

theorem bsize_findOrd_dvd {addr : ℕ} (h : 0x1000 ∣ addr) (maxSize : ℕ) :
    bsize (findOrd addr maxSize) ∣ addr := by
  rcases findOrd_dvd addr maxSize with hd | h0
  · exact hd
  · rw [h0]
    exact h

/-- On a remainder of at least a page, the block `find_ord` picks fits in it: a chosen order
fits by the test, and the fallback order is a page. -/
theorem bsize_findOrd_le {addr maxSize : ℕ} (h : 0x1000 ≤ maxSize) :
    bsize (findOrd addr maxSize) ≤ maxSize := by
  unfold findOrd
  split
  · rename_i ord hord
    have hp := List.find?_some hord
    simp only [Bool.and_eq_true, Bool.not_eq_true', decide_eq_false_iff_not, not_lt] at hp
    exact hp.1
  · exact h

/-- After a pass marks the block of order `ord` at `cur`, no free block overlaps the rest of the
range, when none overlapped the range. -/
theorem loose_of_mark {cur rem : ℕ} {ord : Order} (hsize : bsize ord ≤ rem)
    (hloose : ∀ f ∈ s.freeSet, Disjoint f.ival (block cur rem))
    (hfree : s'.freeSet = insert ⟨cur, ord⟩ s.freeSet) :
    ∀ f ∈ s'.freeSet, Disjoint f.ival (block (cur + bsize ord) (rem - bsize ord)) := by
  have hsub : block (cur + bsize ord) (rem - bsize ord) ⊆ block cur rem :=
    block_subset_block (by omega) (by omega)
  intro f hf
  rw [hfree] at hf
  rcases hf with rfl | hf
  · exact disjoint_block_iff.2 (Or.inl le_rfl)
  · exact (hloose f hf).mono_right hsub

/-- The range loop adds to the free set pairwise disjoint blocks that make up `[cur, cur + rem)`,
provided it starts page-aligned at or above `start` and no free block overlaps the range. -/
theorem addRangeLoop_spec {cur rem fuel : ℕ} (hcur : 0x1000 ∣ cur) (hle : s.start ≤ cur)
    (hloose : ∀ f ∈ s.freeSet, Disjoint f.ival (block cur rem))
    (h : s.addRangeLoop cur rem fuel = some s') :
    SameShape s s' ∧ (s.CountOk → s'.CountOk) ∧ ∃ N : Set Block, s'.freeSet = s.freeSet ∪ N ∧
      ⋃ b ∈ N, b.ival = block cur rem ∧ N.PairwiseDisjoint Block.ival := by
  induction fuel generalizing s cur rem with
  | zero =>
    -- out of passes: only a finished loop returns
    unfold addRangeLoop at h
    split_ifs at h with hrem
    cases h
    exact ⟨SameShape.refl _, id, ∅, by simp, by simp [show rem = 0 by omega],
      Set.pairwiseDisjoint_empty⟩
  | succ fuel ih =>
    unfold addRangeLoop at h
    split_ifs at h with hrem
    · -- one pass: the block of order `ord` at `cur` is marked, then the rest of the range
      set ord := findOrd cur rem
      cases hs : s.setBit cur ord with
      | none => simp [hs] at h
      | some r =>
        obtain ⟨c, s₁⟩ := r
        cases c
        · simp [hs] at h
        simp only [hs] at h
        split_ifs at h with hsize
        have hplaced : s.Placed ⟨cur, ord⟩ := ⟨bsize_findOrd_dvd hcur rem, hle⟩
        obtain ⟨hsh, hcnt, -, hfree⟩ := setBit_spec hplaced hs
        have hdisj :
            Disjoint (Block.ival ⟨cur, ord⟩) (block (cur + bsize ord) (rem - bsize ord)) :=
          disjoint_block_iff.2 (Or.inl le_rfl)
        obtain ⟨hsh', hcnt', N, hN, hNsub, hNdisj⟩ := ih (Nat.dvd_add hcur (page_dvd_bsize ord))
          (by rw [hsh.start]; omega) (loose_of_mark hsize hloose hfree) h
        refine ⟨hsh.trans hsh', hcnt' ∘ hcnt, insert ⟨cur, ord⟩ N, ?_, ?_, ?_⟩
        · rw [hN, hfree, Set.insert_union, Set.union_insert]
        · -- the block marked, then the blocks of the rest of the range
          rw [Set.biUnion_insert, hNsub]
          show block cur (bsize ord) ∪ _ = _
          rw [block_append, Nat.add_sub_cancel' hsize]
        · refine hNdisj.insert fun b hb _ => ?_
          exact hdisj.mono_right ((Set.subset_biUnion_of_mem hb).trans hNsub.subset)
    · cases h
      exact ⟨SameShape.refl _, id, ∅, by simp, by simp [show rem = 0 by omega],
        Set.pairwiseDisjoint_empty⟩

/-! ## `alloc` -/

/-- The orders below `k + 1` from the largest down are `k + 1` and then those below `k`. -/
theorem ordersDownFrom_succ (k : ℕ) (h : k + 1 < buddyCount) :
    ordersDownFrom ⟨k + 1, h⟩ = ⟨k + 1, h⟩ :: ordersDownFrom ⟨k, by omega⟩ := by
  revert h
  have hk : k < 6 ∨ 6 ≤ k := by omega
  rcases hk with hk | hk
  · interval_cases k <;> decide
  · intro h
    exact absurd h (by simp [buddyCount]; omega)

theorem ordersDownFrom_zero : ordersDownFrom ⟨0, by decide⟩ = [⟨0, by decide⟩] := by decide

/-- The blocks `alloc` frees again when it splits a block at `res` down to `order`: the one of
each order `j` with `order ≤ j < n`, at `res + BSIZE[j]`. -/
def pieces (res : ℕ) (order : Order) (n : ℕ) : Set Block :=
  {b | order ≤ b.order ∧ b.order.val < n ∧ b.addr = res + bsize b.order}

theorem pieces_of_le {res : ℕ} {order : Order} {n : ℕ} (h : n ≤ order.val) :
    pieces res order n = ∅ := by
  ext b
  simp only [pieces, Set.mem_ofPred_eq, Set.mem_empty_iff_false, iff_false, not_and]
  intro hb
  have : order.val ≤ b.order.val := hb
  omega

theorem pieces_succ {res : ℕ} {order : Order} {n : ℕ} (hn : n < buddyCount)
    (h : order.val ≤ n) :
    pieces res order (n + 1) = insert ⟨res + bsize ⟨n, hn⟩, ⟨n, hn⟩⟩ (pieces res order n) := by
  ext ⟨a, o⟩
  simp only [pieces, Set.mem_insert_iff, Set.mem_ofPred_eq, Block.mk.injEq]
  constructor
  · rintro ⟨ho, hlt, rfl⟩
    by_cases hon : o.val = n
    · have : o = ⟨n, hn⟩ := Fin.ext hon
      subst this
      exact Or.inl ⟨rfl, rfl⟩
    · exact Or.inr ⟨ho, by omega, rfl⟩
  · rintro (⟨rfl, rfl⟩ | ⟨ho, hlt, rfl⟩)
    · exact ⟨Fin.le_def.2 h, by simp, rfl⟩
    · exact ⟨ho, by omega, rfl⟩

theorem bsize_lt_bsize {o o' : Order} (h : o < o') : bsize o < bsize o' := by
  rw [bsize_eq, bsize_eq]
  exact Nat.mul_lt_mul_of_pos_left (Nat.pow_lt_pow_right (by decide) h) (by decide)

theorem two_mul_bsize_le {o o' : Order} (h : o < o') : 2 * bsize o ≤ bsize o' := by
  rw [bsize_eq, bsize_eq]
  have : 2 ^ (o.val + 1) ≤ 2 ^ o'.val := Nat.pow_le_pow_right (by decide) h
  rw [Nat.pow_succ] at this
  omega

/-- One pass of the split loop at order `k` with `2 BSIZE[k] - BSIZE[order]` bytes left: it frees
the piece of order `k` when `order ≤ k`, and otherwise skips with nothing left. -/
theorem splitLoop_cons_spec {res : ℕ} {order : Order} {k : ℕ} (hk : k < buddyCount)
    {rest : List Order} {t t' : BuddyAlloc} (hres : 2 * bsize ⟨k, hk⟩ ∣ res) (ht : t.start ≤ res)
    (h : splitLoop res (bsize order) (⟨k, hk⟩ :: rest) (2 * bsize ⟨k, hk⟩ - bsize order) t =
      some t') :
    ∃ t₁, SameShape t t₁ ∧ (t.CountOk → t₁.CountOk) ∧
      t₁.freeSet = t.freeSet ∪ (if order.val ≤ k then {⟨res + bsize ⟨k, hk⟩, ⟨k, hk⟩⟩} else ∅) ∧
      t₁.freeMem = t.freeMem + (if order.val ≤ k then bsize ⟨k, hk⟩ else 0) ∧
      splitLoop res (bsize order) rest (bsize ⟨k, hk⟩ - bsize order) t₁ = some t' := by
  unfold splitLoop at h
  by_cases hok : order.val ≤ k
  · have hle : bsize order ≤ bsize ⟨k, hk⟩ := bsize_le_bsize (Fin.le_def.2 hok)
    have haddr : res + (2 * bsize ⟨k, hk⟩ - bsize order - bsize ⟨k, hk⟩) + bsize order =
        res + bsize ⟨k, hk⟩ := by omega
    rw [if_pos (by omega), haddr] at h
    cases hs : t.setBit (res + bsize ⟨k, hk⟩) ⟨k, hk⟩ with
    | none => simp [hs] at h
    | some r =>
      obtain ⟨c, t₁⟩ := r
      cases c
      · simp [hs] at h
      simp only [hs] at h
      have hpl : t.Placed ⟨res + bsize ⟨k, hk⟩, ⟨k, hk⟩⟩ :=
        ⟨Nat.dvd_add ((Nat.dvd_mul_left _ 2).trans hres) dvd_rfl, ht.trans (Nat.le_add_right _ _)⟩
      obtain ⟨hsh, hcnt, -, hfree⟩ := setBit_spec hpl hs
      refine ⟨t₁, hsh, hcnt, by rw [hfree, if_pos hok, Set.union_singleton],
        by rw [setBit_freeMem hs, if_pos hok], ?_⟩
      have hrem : 2 * bsize ⟨k, hk⟩ - bsize order - bsize ⟨k, hk⟩ = bsize ⟨k, hk⟩ - bsize order :=
        by omega
      rwa [hrem] at h
  · have hge : 2 * bsize ⟨k, hk⟩ ≤ bsize order :=
      two_mul_bsize_le (Fin.lt_def.2 (show k < order.val by omega))
    rw [if_neg (by have := bsize_pos ⟨k, hk⟩; omega)] at h
    refine ⟨t, SameShape.refl t, id, by rw [if_neg hok]; simp, by rw [if_neg hok, Nat.add_zero], ?_⟩
    have hrem : 2 * bsize ⟨k, hk⟩ - bsize order = bsize ⟨k, hk⟩ - bsize order := by omega
    rwa [hrem] at h

/-- The split loop, entered at order `k` with the bytes `2 BSIZE[k] - BSIZE[order]` left past
the returned block, frees the pieces of the orders `order ≤ j ≤ k`. -/
theorem splitLoop_spec {res : ℕ} {order : Order} (k : ℕ) (hk : k < buddyCount)
    {s s' : BuddyAlloc} (hres : 2 * bsize ⟨k, hk⟩ ∣ res) (hstart : s.start ≤ res)
    (h : splitLoop res (bsize order) (ordersDownFrom ⟨k, hk⟩)
      (2 * bsize ⟨k, hk⟩ - bsize order) s = some s') :
    SameShape s s' ∧ (s.CountOk → s'.CountOk) ∧
      s'.freeSet = s.freeSet ∪ pieces res order (k + 1) ∧
      s'.freeMem = s.freeMem + (2 * bsize ⟨k, hk⟩ - bsize order) := by
  induction k generalizing s with
  | zero =>
    rw [ordersDownFrom_zero] at h
    obtain ⟨s₁, hsh, hcnt, hfree, hmem, h⟩ := splitLoop_cons_spec hk hres hstart h
    simp only [splitLoop, Option.some.injEq] at h
    subst h
    refine ⟨hsh, hcnt, ?_, ?_⟩
    · by_cases hok : order.val ≤ 0
      · rw [hfree, if_pos hok, pieces_succ hk hok, pieces_of_le (Nat.zero_le _)]
        simp
      · rw [hfree, if_neg hok, pieces_of_le (by omega)]
    · -- order `0` is split off when asked for, and nothing is left otherwise
      by_cases hok : order.val ≤ 0
      · have : order = ⟨0, hk⟩ := Fin.ext (Nat.le_zero.1 hok)
        subst this
        rw [hmem, if_pos hok]
        omega
      · have := two_mul_bsize_le (show (⟨0, hk⟩ : Order) < order from
          Fin.lt_def.2 (show 0 < order.val by omega))
        rw [hmem, if_neg hok]
        omega
  | succ k ih =>
    rw [ordersDownFrom_succ k hk] at h
    obtain ⟨s₁, hsh, hcnt, hfree, hmem, h⟩ := splitLoop_cons_spec hk hres hstart h
    have hsucc := bsize_succ ⟨k, by omega⟩ hk
    simp only at hsucc
    have hres' : 2 * bsize ⟨k, by omega⟩ ∣ res := by
      rw [← hsucc]
      exact (Nat.dvd_mul_left _ 2).trans hres
    rw [hsucc] at h
    obtain ⟨hsh', hcnt', hfree', hmem'⟩ := ih (by omega) hres' (by rw [hsh.start]; exact hstart) h
    refine ⟨hsh.trans hsh', hcnt' ∘ hcnt, ?_, ?_⟩
    · rw [hfree', hfree, Set.union_assoc]
      by_cases hok : order.val ≤ k + 1
      · rw [if_pos hok, pieces_succ hk hok, Set.insert_eq]
      · rw [if_neg hok, Set.empty_union, pieces_of_le (by omega), pieces_of_le (by omega)]
    · rw [hmem', hmem, hsucc]
      by_cases hok : order.val ≤ k + 1
      · have := bsize_le_bsize (show order ≤ ⟨k + 1, hk⟩ from Fin.le_def.2 hok)
        rw [if_pos hok]
        omega
      · have := two_mul_bsize_le (show (⟨k + 1, hk⟩ : Order) < order from
          Fin.lt_def.2 (show k + 1 < order.val by omega))
        rw [if_neg hok]
        omega

theorem le_of_mem_drop_finRange {k : ℕ} {i : Order}
    (h : i ∈ (List.finRange buddyCount).drop k) : k ≤ i.val := by
  obtain ⟨j, hj, rfl⟩ := List.mem_iff_getElem.1 h
  simp

theorem mem_drop_finRange_of_le {k : ℕ} {i : Order} (h : k ≤ i.val) :
    i ∈ (List.finRange buddyCount).drop k := by
  rw [List.mem_drop_iff_getElem]
  refine ⟨i.val - k, by rw [List.length_finRange]; have := i.isLt; omega, ?_⟩
  ext
  simp
  omega

/-- The search loop of `alloc` over orders at or above `order`: it finds nothing, when no order
it goes through counts a free block, and changes nothing, or it takes out a free block of some
order `i ≥ order`, returns its address, frees again the pieces of it past the returned block, and
`free_mem` drops by the returned block. -/
theorem allocLoop_spec {order : Order} (l : List Order) (hl : ∀ i ∈ l, order ≤ i)
    {r : Option ℕ} (h : allocLoop (bsize order) l s = some (r, s')) :
    SameShape s s' ∧ (s.CountOk → s'.CountOk) ∧ (r = none → s' = s ∧ ∀ i ∈ l, s.freecnt i = 0) ∧
      ∀ a, r = some a → ∃ i, order ≤ i ∧ (⟨a, i⟩ : Block) ∈ s.freeSet ∧
        s'.freeSet = (s.freeSet \ {⟨a, i⟩}) ∪ pieces a order i.val ∧
        s'.freeMem + bsize order = s.freeMem := by
  induction l with
  | nil =>
    simp only [allocLoop, Option.some.injEq, Prod.mk.injEq] at h
    obtain ⟨rfl, rfl⟩ := h
    exact ⟨SameShape.refl _, id, fun _ => ⟨rfl, by simp⟩, by simp⟩
  | cons i is ih =>
    unfold allocLoop at h
    split_ifs at h with hpos
    · cases hf : s.findFree i with
      | none => simp [hf] at h
      | some p =>
        obtain ⟨res, s₁⟩ := p
        simp only [hf] at h
        obtain ⟨hmem, hsh, hcnt, hfree⟩ := findFree_spec hf
        have hfm := findFree_freeMem hf
        have hoi : order ≤ i := hl i List.mem_cons_self
        have hpl := placed_of_mem_freeSet hmem
        by_cases hrem : bsize i - bsize order > 0
        · -- a larger block was found: the pass at its own order frees nothing, the orders below
          -- free the pieces
          rw [if_pos hrem] at h
          obtain ⟨s₂, hs₂, heq⟩ := Option.map_eq_some_iff.1 h
          simp only [Prod.mk.injEq] at heq
          obtain ⟨rfl, rfl⟩ := heq
          have hlt : order < i := by
            rcases lt_or_eq_of_le hoi with hlt | rfl
            · exact hlt
            · simp at hrem
          obtain ⟨k, hk⟩ : ∃ k, i.val = k + 1 := ⟨i.val - 1, by have := Fin.lt_def.1 hlt; omega⟩
          obtain ⟨iv, hiv⟩ := i
          simp only at hk
          subst hk
          rw [ordersDownFrom_succ k hiv, splitLoop.eq_2,
            if_neg (by have := bsize_pos order; omega), bsize_succ ⟨k, by omega⟩ hiv] at hs₂
          have hres : 2 * bsize ⟨k, by omega⟩ ∣ res := by
            rw [← bsize_succ ⟨k, by omega⟩ hiv]
            exact hpl.1
          obtain ⟨hsh', hcnt', hfree', hmem'⟩ :=
            splitLoop_spec k (by omega) hres (by rw [hsh.start]; exact hpl.2) hs₂
          refine ⟨hsh.trans hsh', hcnt' ∘ hcnt, by simp, fun a ha => ?_⟩
          simp only [Option.some.injEq] at ha
          subst ha
          refine ⟨⟨k + 1, hiv⟩, hoi, hmem, by rw [hfree', hfree], ?_⟩
          -- the pieces give back all of the found block but the returned one
          have hsplit := bsize_succ ⟨k, by omega⟩ hiv
          have hle := bsize_le_bsize hoi
          simp only at hsplit
          omega
        · -- the block found has the requested order: nothing is left to split
          rw [if_neg hrem] at h
          simp only [Option.map_some, Option.some.injEq, Prod.mk.injEq] at h
          obtain ⟨rfl, rfl⟩ := h
          have hio : i = order := by
            rcases lt_or_eq_of_le hoi with hlt | heq
            · have := bsize_lt_bsize hlt
              omega
            · exact heq.symm
          subst hio
          refine ⟨hsh, hcnt, by simp, fun a ha => ?_⟩
          simp only [Option.some.injEq] at ha
          subst ha
          exact ⟨i, le_rfl, hmem, by rw [hfree, pieces_of_le le_rfl, Set.union_empty], hfm⟩
    · obtain ⟨hsh, hcnt, hnone, hsome⟩ := ih (fun i hi => hl i (List.mem_cons_of_mem _ hi)) h
      refine ⟨hsh, hcnt, fun hr => ⟨(hnone hr).1, ?_⟩, hsome⟩
      intro j hj
      rcases List.mem_cons.1 hj with rfl | hj
      · omega
      · exact (hnone hr).2 j hj

/-- `alloc`: see `allocLoop_spec`; an order past `BSIZE` panics. -/
theorem alloc_spec {order : ℕ} {r : Option ℕ} (h : s.alloc order = some (r, s')) :
    ∃ ho : order < buddyCount, SameShape s s' ∧ (s.CountOk → s'.CountOk) ∧
      (r = none → s' = s ∧ ∀ i, (⟨order, ho⟩ : Order) ≤ i → s.freecnt i = 0) ∧
      ∀ a, r = some a → ∃ i, (⟨order, ho⟩ : Order) ≤ i ∧ (⟨a, i⟩ : Block) ∈ s.freeSet ∧
        s'.freeSet = (s.freeSet \ {⟨a, i⟩}) ∪ pieces a ⟨order, ho⟩ i.val ∧
        s'.freeMem + bsize ⟨order, ho⟩ = s.freeMem := by
  unfold alloc at h
  split_ifs at h with ho
  obtain ⟨hsh, hcnt, hnone, hsome⟩ :=
    allocLoop_spec _ (fun i hi => Fin.le_def.2 (le_of_mem_drop_finRange hi)) h
  exact ⟨ho, hsh, hcnt, fun hr => ⟨(hnone hr).1, fun i hi =>
    (hnone hr).2 i (mem_drop_finRange_of_le (Fin.le_def.1 hi))⟩, hsome⟩

/-- The pieces of a block of order `i` at `res` lie inside it. -/
theorem ival_subset_of_mem_pieces {res : ℕ} {order i : Order} {b : Block}
    (hb : b ∈ pieces res order i.val) : b.ival ⊆ block res (bsize i) := by
  obtain ⟨-, hlt, haddr⟩ := hb
  have := two_mul_bsize_le (Fin.lt_def.2 hlt)
  show block b.addr (bsize b.order) ⊆ _
  rw [haddr]
  exact block_subset_block (Nat.le_add_right _ _) (by omega)

/-- The pieces are pairwise disjoint. -/
theorem pieces_pairwiseDisjoint (res : ℕ) (order : Order) (n : ℕ) :
    (pieces res order n).PairwiseDisjoint Block.ival := by
  rintro ⟨a, o⟩ ⟨-, -, ha⟩ ⟨a', o'⟩ ⟨-, -, ha'⟩ hne
  simp only at ha ha'
  subst ha ha'
  have hoo : o ≠ o' := fun h => hne (by rw [h])
  show Disjoint (block (res + bsize o) (bsize o)) (block (res + bsize o') (bsize o'))
  rw [disjoint_block_iff]
  rcases lt_or_gt_of_ne hoo with h | h
  · have := two_mul_bsize_le h
    omega
  · have := two_mul_bsize_le h
    omega

/-- The returned block is disjoint from the pieces. -/
theorem disjoint_pieces {res : ℕ} {order : Order} {n : ℕ} {b : Block}
    (hb : b ∈ pieces res order n) : Disjoint (Block.ival ⟨res, order⟩) b.ival := by
  obtain ⟨ho, -, ha⟩ := hb
  have := bsize_le_bsize ho
  show Disjoint (block res (bsize order)) (block b.addr (bsize b.order))
  rw [disjoint_block_iff, ha]
  omega

/-! ## `dealloc` -/

/-- The buddy of an aligned block is aligned, the merged block starts at the lower of the two,
which is the address rounded down to twice the size, and is made of the two halves. -/
theorem getBuddy_spec {a : ℕ} {o : Order} (ha : bsize o ∣ a) :
    bsize o ∣ getBuddy a o ∧ min a (getBuddy a o) = roundDown a (2 * bsize o) ∧
      block (min a (getBuddy a o)) (2 * bsize o) =
        block a (bsize o) ∪ block (getBuddy a o) (bsize o) := by
  have hB := bsize_pos o
  have hdvd : bsize o ∣ roundDown a (2 * bsize o) :=
    (Nat.dvd_mul_left _ 2).trans (dvd_roundDown _ _)
  unfold getBuddy
  simp only [alignDown_eq_roundDown, Nat.mul_comm (bsize o) 2]
  rcases eq_roundDown_or_eq_add hB ha with h | h
  · -- the lower half: the buddy is the upper one
    rw [if_pos h.symm, min_eq_left (Nat.le_add_right _ _)]
    exact ⟨Nat.dvd_add ha dvd_rfl, h, (block_union_block a (bsize o)).symm⟩
  · -- the upper half: the buddy is the lower one
    rw [if_neg (by omega), min_eq_right (by omega)]
    refine ⟨hdvd, rfl, ?_⟩
    generalize roundDown a (2 * bsize o) = rd at h ⊢
    subst h
    rw [Set.union_comm]
    exact (block_union_block _ _).symm

theorem drop_finRange_eq_cons (o : Order) :
    (List.finRange buddyCount).drop o.val = o :: (List.finRange buddyCount).drop (o.val + 1) := by
  rw [List.drop_eq_getElem_cons (by simp)]
  simp

/-- Marking a placed block `c` free ends the merge loop, with `c` itself as the merged block. -/
theorem markFree_spec {t : BuddyAlloc} {c : Block} (hst : SameShape s t)
    (htf : t.freeSet ⊆ s.freeSet) (htc : t.Placed c)
    (ht : (t.setBit c.addr c.order).map Prod.snd = some s') (hct : s.CountOk → t.CountOk) :
    SameShape s s' ∧ (s.CountOk → s'.CountOk) ∧ ∃ m : Block, ∃ R ⊆ s.freeSet,
      s'.freeSet = insert m (s.freeSet \ R) ∧ m.ival ⊆ c.ival ∪ ⋃ f ∈ R, f.ival := by
  obtain ⟨⟨b, t'⟩, hs, heq⟩ := Option.map_eq_some_iff.1 ht
  simp only at heq
  subst heq
  obtain ⟨hsh, hcnt, -, hfree⟩ := setBit_spec htc hs
  refine ⟨hst.trans hsh, hcnt ∘ hct, c, s.freeSet \ t.freeSet, Set.sdiff_subset, ?_,
    Set.subset_union_left⟩
  rw [hfree, Set.sdiff_sdiff_cancel_left htf]

/-- Freeing a loose block `c` (placed, overlapping no free block) with the merge loop: the free
buddies `R` it merges with are taken out, and one block `m` made of `c` and of them is made free. -/
theorem deallocLoop_spec {l : List Order} {c : Block}
    (hl : l = (List.finRange buddyCount).drop c.order.val) (hc : s.Placed c)
    (hdisj : s.freeSet.PairwiseDisjoint Block.ival)
    (hloose : ∀ f ∈ s.freeSet, Disjoint f.ival c.ival)
    (h : deallocLoop c.addr l s = some s') :
    SameShape s s' ∧ (s.CountOk → s'.CountOk) ∧ ∃ m : Block, ∃ R ⊆ s.freeSet,
      s'.freeSet = insert m (s.freeSet \ R) ∧ m.ival ⊆ c.ival ∪ ⋃ f ∈ R, f.ival := by
  induction l generalizing c s with
  | nil => simp [drop_finRange_eq_cons c.order] at hl
  | cons o os ih =>
    rw [drop_finRange_eq_cons c.order, List.cons.injEq] at hl
    obtain ⟨rfl, rfl⟩ := hl
    unfold deallocLoop at h
    split_ifs at h with hlast
    · -- not the last order: probe the buddy
      obtain ⟨hbd, hmin, hunion⟩ := getBuddy_spec hc.1
      cases hcb : s.clearBit (getBuddy c.addr c.order) c.order with
      | none => simp [hcb] at h
      | some p =>
        obtain ⟨b, s₁⟩ := p
        obtain ⟨hsh, hcnt, hb, hfree⟩ := clearBit_spec hbd hcb
        cases b
        · -- the buddy is not free: `c` is marked free
          simp only [hcb] at h
          have hnot : (⟨getBuddy c.addr c.order, c.order⟩ : Block) ∉ s.freeSet := by simpa using hb
          rw [Set.sdiff_singleton_eq_self hnot] at hfree
          exact markFree_spec hsh (by rw [hfree]) (hsh.placed_iff.2 hc) h hcnt
        · -- the buddy is free: merge and go on one order up
          simp only [hcb] at h
          have hbm : (⟨getBuddy c.addr c.order, c.order⟩ : Block) ∈ s.freeSet := by simpa using hb
          have hnext : c.order.val + 1 < buddyCount := by simp [buddyCount] at hlast ⊢; omega
          have hival : Block.ival ⟨min c.addr (getBuddy c.addr c.order), ⟨c.order.val + 1, hnext⟩⟩ =
              c.ival ∪ Block.ival ⟨getBuddy c.addr c.order, c.order⟩ := by
            show block _ (bsize ⟨c.order.val + 1, hnext⟩) = _
            rw [bsize_succ c.order hnext, hunion]
            rfl
          have hc' : s₁.Placed ⟨min c.addr (getBuddy c.addr c.order), ⟨c.order.val + 1, hnext⟩⟩ := by
            refine ⟨?_, ?_⟩
            · show bsize ⟨c.order.val + 1, hnext⟩ ∣ min c.addr (getBuddy c.addr c.order)
              rw [bsize_succ c.order hnext, hmin]
              exact dvd_roundDown _ _
            · show s₁.start ≤ min c.addr (getBuddy c.addr c.order)
              rw [hsh.start]
              exact le_min hc.2 (placed_of_mem_freeSet hbm).2
          have hdisj₁ : s₁.freeSet.PairwiseDisjoint Block.ival := by
            rw [hfree]
            exact hdisj.subset Set.sdiff_subset
          have hloose₁ : ∀ f ∈ s₁.freeSet, Disjoint f.ival
              (Block.ival ⟨min c.addr (getBuddy c.addr c.order), ⟨c.order.val + 1, hnext⟩⟩) := by
            intro f hf
            rw [hfree] at hf
            rw [hival, Set.disjoint_union_right]
            exact ⟨hloose f hf.1, hdisj hf.1 hbm hf.2⟩
          obtain ⟨hsh', hcnt', m, R, hR, hfree', hm⟩ := ih rfl hc' hdisj₁ hloose₁ h
          refine ⟨hsh.trans hsh', hcnt' ∘ hcnt, m,
            insert ⟨getBuddy c.addr c.order, c.order⟩ R, ?_, ?_, ?_⟩
          · rw [Set.insert_subset_iff]
            exact ⟨hbm, hR.trans (by rw [hfree]; exact Set.sdiff_subset)⟩
          · rw [hfree', hfree, Set.sdiff_sdiff, Set.singleton_union]
          · rw [Set.biUnion_insert, ← Set.union_assoc, ← hival]
            exact hm
    · -- the last order: `c` is marked free
      exact markFree_spec (SameShape.refl s) le_rfl hc h id

end BuddyAlloc

end Cykusz.Buddy
