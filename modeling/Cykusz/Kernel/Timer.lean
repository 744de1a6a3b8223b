import Mathlib
import Cykusz.Lib.Simulation

/-!
# Kernel timers

`kernel/timer.rs` keeps the started timers on one list, `TIMERS`, under a spin lock, sorted by
`timeout`, the time in ns a timer is due. `start_with_timeout` takes the timer off the list
(`unlink_locked`) and links it again (`link_locked`) before the first timer due strictly later, so
that timers due at the same time stay in the order they were started; `disable` takes it off.
The timer thread's `check_timers` reads the clock once, waits for a timer on the list, and then
pops the front timer while it is due, calling each with the lock dropped; the first timer not due
is pushed back and the loop ends, as it does on an empty list. The TCP connection timers are its
users.

Timers are named by their identity `τ`, the `Arc` of the source. The model's steps are the
operations under the lock: a start or a disable by any task, the clock read of `check_timers`,
and one turn of its loop, the first of which `wait_lock_for` holds back until a timer is on the
list; between two turns, other tasks start and disable timers, as they do while a callback runs.

From the boot state, in every interleaving, the list is sorted and holds each timer once, so
that no timer is linked twice; each turn of `check_timers` calls the front timer only if it is due
at the time read, takes it off the list, and calls no timer before one due earlier; and the loop
ends only when no timer on the list is due (`check_timers_calls_due`). Timers due at the same
time are called in the order they were started (`started_later_called_later`).
-/

namespace Cykusz.Kernel.Timer

open Simulation

variable {τ : Type*} [DecidableEq τ]

/-- A timer on the list: its identity and its `timeout`. -/
structure Entry (τ : Type*) where
  id : τ
  timeout : UInt64
deriving DecidableEq, Repr

/-- `set_timeout`: `current_ns() + val * 1_000_000`, in `u64` arithmetic. -/
def setTimeout (now val : UInt64) : UInt64 := now + val * 1000000

/-- `unlink_locked`: the timer's node leaves the list, if it is on it. -/
def unlinkLocked (t : τ) (l : List (Entry τ)) : List (Entry τ) := l.eraseP fun e => e.id = t

/-- `link_locked`: the timer goes before the first timer due strictly later than it, or at the
back. -/
def linkLocked (e : Entry τ) : List (Entry τ) → List (Entry τ)
  | [] => [e]
  | f :: l => if f.timeout > e.timeout then e :: f :: l else f :: linkLocked e l

/-- `start_with_timeout`. -/
def startWithTimeout (t : τ) (now val : UInt64) (l : List (Entry τ)) : List (Entry τ) :=
  linkLocked ⟨t, setTimeout now val⟩ (unlinkLocked t l)

/-- `enabled`: whether the timer's link is on the list. -/
def enabled (t : τ) (l : List (Entry τ)) : Bool := l.any fun e => e.id = t

/-- The timers on the list. -/
def ids (l : List (Entry τ)) : List τ := l.map Entry.id

/-- Sorted by `timeout`, earliest first. -/
def Sorted (l : List (Entry τ)) : Prop := l.Pairwise fun a b => a.timeout ≤ b.timeout

/-- Where the timer thread is in `check_timers`: between two checks, in `wait_lock_for` with the
time it read, or in the loop. -/
inductive Phase
  | idle
  | waiting (time : UInt64)
  | looping (time : UInt64)
deriving DecidableEq, Repr

/-- The time the running check read. -/
def Phase.time : Phase → Option UInt64
  | .idle => none
  | .waiting time | .looping time => some time

/-- The timer list, and where the timer thread is. -/
structure Sys (τ : Type*) where
  timers : List (Entry τ)
  check : Phase

/-- The state at boot: no timer, and the timer thread between two checks. -/
def Sys.init : Sys τ := ⟨[], .idle⟩

/-- The steps under the lock: `start_with_timeout` and `disable` by any task at any time (`now` is
what `current_ns()` reads in `set_timeout`); the clock read of `check_timers`; and a turn of its
loop. -/
inductive Op (τ : Type*)
  | startWithTimeout (t : τ) (now val : UInt64)
  | disable (t : τ)
  | checkTimers (now : UInt64)
  | turn
deriving DecidableEq, Repr

/-- A step; `none` where it cannot be taken: a second clock read while a check runs, a turn
with no check running, and a turn on the empty list while `wait_lock_for` waits. -/
def step (s : Sys τ) : Op τ → Option (Sys τ)
  | .startWithTimeout t now val => some { s with timers := startWithTimeout t now val s.timers }
  | .disable t => some { s with timers := unlinkLocked t s.timers }
  | .checkTimers now => if s.check = .idle then some { s with check := .waiting now } else none
  | .turn =>
    match s.check, s.timers with
    | .idle, _ | .waiting _, [] => none
    -- `pop_front` finds the list empty, and the loop ends
    | .looping _, [] => some ⟨[], .idle⟩
    | .waiting time, e :: l | .looping time, e :: l =>
      -- a due timer is popped and called; the first one not due is pushed back, ending the loop
      if e.timeout ≤ time then some ⟨l, .looping time⟩ else some ⟨e :: l, .idle⟩

/-! ## The list -/

theorem timeout_lt_iff {a b : UInt64} : a < b ↔ a.toNat < b.toNat := UInt64.lt_iff_toNat_lt

theorem timeout_le_iff {a b : UInt64} : a ≤ b ↔ a.toNat ≤ b.toNat := UInt64.le_iff_toNat_le

omit [DecidableEq τ] in
/-- `link_locked` is Mathlib's insertion before the first element the new one goes before. -/
theorem linkLocked_eq_orderedInsert (e : Entry τ) (l : List (Entry τ)) :
    linkLocked e l = l.orderedInsert (fun a b => a.timeout < b.timeout) e := by
  induction l with
  | nil => rfl
  | cons f l ih => simp only [linkLocked, List.orderedInsert, gt_iff_lt, ih]

omit [DecidableEq τ] in
theorem linkLocked_perm (e : Entry τ) (l : List (Entry τ)) : (linkLocked e l).Perm (e :: l) := by
  rw [linkLocked_eq_orderedInsert]
  exact List.perm_orderedInsert _ e l

omit [DecidableEq τ] in
/-- The insertion keeps the list sorted: the timer goes after every timer due no later, and
before the rest, which are due later. -/
theorem Sorted.linkLocked {l : List (Entry τ)} (hl : Sorted l) (e : Entry τ) :
    Sorted (linkLocked e l) := by
  induction l with
  | nil => exact List.pairwise_singleton _ e
  | cons f l ih =>
    have hf := List.pairwise_cons.1 hl
    unfold Timer.linkLocked
    split_ifs with hlt <;> rw [gt_iff_lt, timeout_lt_iff] at hlt
    · -- before `f`, and so before all of `l`
      refine List.pairwise_cons.2 ⟨fun g hg => ?_, hl⟩
      rw [timeout_le_iff]
      rcases List.mem_cons.1 hg with rfl | hg
      · omega
      · have := timeout_le_iff.1 (hf.1 g hg)
        omega
    · -- after `f`, in the sorted rest
      refine List.pairwise_cons.2 ⟨fun g hg => ?_, ih hf.2⟩
      rcases List.mem_cons.1 ((linkLocked_perm e l).subset hg) with rfl | hg
      · rw [timeout_le_iff]
        omega
      · exact hf.1 g hg

theorem Sorted.unlinkLocked {l : List (Entry τ)} (hl : Sorted l) (t : τ) :
    Sorted (unlinkLocked t l) :=
  List.Pairwise.eraseP _ hl

omit [DecidableEq τ] in
theorem ids_linkLocked_perm (e : Entry τ) (l : List (Entry τ)) :
    (ids (linkLocked e l)).Perm (e.id :: ids l) :=
  (linkLocked_perm e l).map Entry.id

/-- With each timer on the list once, `unlink_locked` takes off exactly the timer. -/
theorem ids_unlinkLocked {l : List (Entry τ)} (hl : (ids l).Nodup) (t : τ) :
    ids (unlinkLocked t l) = (ids l).erase t := by
  induction l with
  | nil => rfl
  | cons f l ih =>
    simp only [ids, List.map_cons, List.nodup_cons] at hl
    by_cases hf : f.id = t
    · simp [unlinkLocked, ids, hf]
    · simp only [unlinkLocked, ids] at ih ⊢
      rw [List.eraseP_cons_of_neg (by simpa using hf), List.map_cons, ih hl.2]
      simp [hf]

theorem Nodup.unlinkLocked {l : List (Entry τ)} (hl : (ids l).Nodup) (t : τ) :
    (ids (unlinkLocked t l)).Nodup := by
  rw [ids_unlinkLocked hl]
  exact hl.erase t

/-- `start_with_timeout` links the timer once: it was taken off first. -/
theorem Nodup.startWithTimeout {l : List (Entry τ)} (hl : (ids l).Nodup) (t : τ)
    (now val : UInt64) : (ids (startWithTimeout t now val l)).Nodup := by
  unfold Timer.startWithTimeout
  refine (ids_linkLocked_perm _ _).nodup_iff.2 (List.nodup_cons.2 ⟨?_, Nodup.unlinkLocked hl t⟩)
  rw [ids_unlinkLocked hl]
  exact hl.not_mem_erase


/-! ## The timer thread's loop -/

variable {s s' : Sys τ}

/-- A turn of `check_timers`: the front timer is called if due at the time read, and the loop goes
on; otherwise, with the front timer not due or the list empty, the list stays and the loop
ends. -/
theorem turn_cases (h : step s .turn = some s') :
    ∃ time, s.check.time = some time ∧
      ((∃ e l, s.timers = e :: l ∧ e.timeout ≤ time ∧ s' = ⟨l, .looping time⟩) ∨
        (∀ e ∈ s.timers.head?, ¬e.timeout ≤ time) ∧ s' = ⟨s.timers, .idle⟩) := by
  obtain ⟨timers, check⟩ := s
  -- the front timer is popped alike after the wait and in the loop
  have pop : ∀ time e l, (if e.timeout ≤ time then some (⟨l, .looping time⟩ : Sys τ)
      else some ⟨e :: l, .idle⟩) = some s' →
      (∃ e' l', e :: l = e' :: l' ∧ e'.timeout ≤ time ∧ s' = ⟨l', .looping time⟩) ∨
        (∀ e' ∈ (e :: l).head?, ¬e'.timeout ≤ time) ∧ s' = ⟨e :: l, .idle⟩ := by
    intro time e l h
    split_ifs at h with hdue <;> cases h
    · exact Or.inl ⟨e, l, rfl, hdue, rfl⟩
    · exact Or.inr ⟨by simpa using hdue, rfl⟩
  cases check with
  | idle => cases h
  | waiting time =>
    cases timers with
    | nil => cases h
    | cons e l => exact ⟨time, rfl, pop time e l h⟩
  | looping time =>
    cases timers with
    | nil =>
      cases h
      exact ⟨time, rfl, Or.inr ⟨by simp, rfl⟩⟩
    | cons e l => exact ⟨time, rfl, pop time e l h⟩

/-- Each timer on the list once, and the list sorted. -/
structure Inv (s : Sys τ) : Prop where
  nodup : (ids s.timers).Nodup
  sorted : Sorted s.timers

omit [DecidableEq τ] in
theorem Inv.init : Inv (Sys.init : Sys τ) := ⟨List.nodup_nil, List.Pairwise.nil⟩

theorem Inv.step (hinv : Inv s) {o : Op τ} (h : step s o = some s') : Inv s' := by
  cases o with
  | startWithTimeout t now val =>
    cases h
    exact ⟨Nodup.startWithTimeout hinv.nodup t now val, (hinv.sorted.unlinkLocked t).linkLocked _⟩
  | disable t =>
    cases h
    exact ⟨Nodup.unlinkLocked hinv.nodup t, hinv.sorted.unlinkLocked t⟩
  | checkTimers now =>
    simp only [Timer.step] at h
    split_ifs at h
    cases h
    exact ⟨hinv.nodup, hinv.sorted⟩
  | turn =>
    obtain ⟨time, -, ⟨e, l, ht, -, rfl⟩ | ⟨-, rfl⟩⟩ := turn_cases h
    · -- the called timer leaves the front of the list
      have hn := hinv.nodup
      have hs := hinv.sorted
      rw [ht] at hn hs
      exact ⟨(List.nodup_cons.1 hn).2, (List.pairwise_cons.1 hs).2⟩
    · exact ⟨hinv.nodup, hinv.sorted⟩

omit [DecidableEq τ] in
/-- On a sorted list whose front timer is not due, no timer is. -/
theorem Sorted.not_due {l : List (Entry τ)} (hl : Sorted l) {time : UInt64}
    (h : ∀ e ∈ l.head?, ¬e.timeout ≤ time) : ∀ e ∈ l, time < e.timeout := by
  cases l with
  | nil => exact fun e he => absurd he List.not_mem_nil
  | cons e l =>
    have hlt : time.toNat < e.timeout.toNat := by
      have := h e (by simp)
      rw [timeout_le_iff] at this
      omega
    intro f hf
    rcases List.mem_cons.1 hf with rfl | hf
    · exact timeout_lt_iff.2 hlt
    · have := timeout_le_iff.1 ((List.pairwise_cons.1 hl).1 f hf)
      exact timeout_lt_iff.2 (by omega)

theorem Inv.of_run {sched : List (Op τ)} (h : run Timer.step Sys.init sched = some s) : Inv s :=
  run_preserves (fun _ _ _ (hc : Inv _) hs => hc.step hs) sched _ _ Inv.init h

/-- From the boot state, in every interleaving, the timer list holds each timer once and is sorted
by timeout; and a turn of `check_timers` at the time it read either calls the front timer, which
is due, is due no later than any timer left, and is no longer on the list, or ends the loop with
the list as it was and no timer on it due. -/
theorem check_timers_calls_due {time : UInt64} (sched : List (Op τ))
    (h : run step Sys.init sched = some s) (hc : s.check.time = some time)
    (hturn : step s .turn = some s') :
    (ids s.timers).Nodup ∧ Sorted s.timers ∧
      ((∃ e, s.timers = e :: s'.timers ∧ e.timeout ≤ time ∧ e.id ∉ ids s'.timers ∧
          (∀ f ∈ s'.timers, e.timeout ≤ f.timeout) ∧ s'.check = .looping time) ∨
        (s'.timers = s.timers ∧ s'.check = .idle ∧ ∀ e ∈ s.timers, time < e.timeout)) := by
  have hinv := Inv.of_run h
  refine ⟨hinv.nodup, hinv.sorted, ?_⟩
  obtain ⟨time', hc', ⟨e, l, ht, hdue, rfl⟩ | ⟨hfront, rfl⟩⟩ := turn_cases hturn
  all_goals obtain rfl : time = time' := Option.some_inj.1 (hc.symm.trans hc')
  · left
    have hn := hinv.nodup
    have hs := hinv.sorted
    rw [ht] at hn hs
    exact ⟨e, ht, hdue, (List.nodup_cons.1 hn).1, (List.pairwise_cons.1 hs).1, rfl⟩
  · exact Or.inr ⟨rfl, rfl, hinv.sorted.not_due hfront⟩

/-- Timer 0 is started for 1 ms and timer 1 for 2 ms; `check_timers` reads the clock at 1.5 ms,
and its first turn calls timer 0, leaving timer 1. -/
theorem check_timers_calls_due_twoTimers :
    ∃ s s' : Sys ℕ, run step Sys.init
        [.startWithTimeout 0 0 1, .startWithTimeout 1 0 2, .checkTimers 1500000] = some s ∧
      step s .turn = some s' ∧ ids s'.timers = [1] ∧
      (ids s.timers).Nodup ∧ Sorted s.timers ∧
      ((∃ e, s.timers = e :: s'.timers ∧ e.timeout ≤ 1500000 ∧ e.id ∉ ids s'.timers ∧
          (∀ f ∈ s'.timers, e.timeout ≤ f.timeout) ∧ s'.check = .looping 1500000) ∨
        (s'.timers = s.timers ∧ s'.check = .idle ∧ ∀ e ∈ s.timers, 1500000 < e.timeout)) :=
  ⟨_, _, rfl, rfl, rfl,
    check_timers_calls_due [.startWithTimeout 0 0 1, .startWithTimeout 1 0 2, .checkTimers 1500000]
      rfl rfl rfl⟩


/-! ## Timers due at the same time -/

/-- Whether an operation starts or disables timer `t`. -/
def Op.touches (t : τ) : Op τ → Bool
  | .startWithTimeout u _ _ | .disable u => u = t
  | .checkTimers _ | .turn => false

omit [DecidableEq τ] in
/-- The list with a timer linked keeps the others in their order. -/
theorem sublist_linkLocked (e : Entry τ) (l : List (Entry τ)) : l.Sublist (linkLocked e l) := by
  induction l with
  | nil => exact List.nil_sublist _
  | cons f l ih =>
    unfold Timer.linkLocked
    split_ifs
    · exact List.sublist_cons_self _ _
    · exact ih.cons_cons f

omit [DecidableEq τ] in
/-- A timer linked goes behind every timer on a sorted list due no later than it. -/
theorem before_linkLocked {l : List (Entry τ)} (hl : Sorted l) {e f : Entry τ} (hf : f ∈ l)
    (hle : f.timeout ≤ e.timeout) : [f.id, e.id].Sublist (ids (linkLocked e l)) := by
  induction l with
  | nil => cases hf
  | cons g l ih =>
    have hg := List.pairwise_cons.1 hl
    unfold Timer.linkLocked
    split_ifs with hlt
    · -- `g` is due later than `e`, so `f`, due no earlier than `g`, would be too
      exfalso
      rw [gt_iff_lt, timeout_lt_iff] at hlt
      have hgf : g.timeout.toNat ≤ f.timeout.toNat := by
        rcases List.mem_cons.1 hf with rfl | hf
        · exact le_refl _
        · exact timeout_le_iff.1 (hg.1 f hf)
      have := timeout_le_iff.1 hle
      omega
    · simp only [ids, List.map_cons]
      rcases List.mem_cons.1 hf with rfl | hf
      · -- `f` stays in front, and `e` is linked behind it
        have he : e.id ∈ ids (linkLocked e l) :=
          (ids_linkLocked_perm e l).mem_iff.2 List.mem_cons_self
        exact (List.singleton_sublist.2 he).cons_cons _
      · exact (ih hg.2 hf).cons _


/-- Timer `a` is on the list ahead of timer `b`. -/
def Ahead (a b : τ) (l : List (Entry τ)) : Prop := [a, b].Sublist (ids l)

omit [DecidableEq τ] in
theorem Ahead.linkLocked {a b : τ} {l : List (Entry τ)} (h : Ahead a b l) (e : Entry τ) :
    Ahead a b (linkLocked e l) :=
  h.trans ((sublist_linkLocked e l).map Entry.id)

theorem Ahead.unlinkLocked {a b t : τ} {l : List (Entry τ)} (hl : (ids l).Nodup)
    (h : Ahead a b l) (ha : a ≠ t) (hb : b ≠ t) : Ahead a b (unlinkLocked t l) := by
  unfold Ahead at h ⊢
  rw [ids_unlinkLocked hl]
  have := h.erase t
  rwa [List.erase_of_not_mem (by simp [ha.symm, hb.symm])] at this

omit [DecidableEq τ] in
/-- A timer other than `a` leaves the front of the list. -/
theorem Ahead.tail {a b : τ} {e : Entry τ} {l : List (Entry τ)} (h : Ahead a b (e :: l))
    (he : e.id ≠ a) : Ahead a b l := by
  unfold Ahead at h ⊢
  simp only [ids, List.map_cons] at h
  rcases List.sublist_cons_iff.1 h with h | ⟨r, hr, -⟩
  · exact h
  · exact absurd (List.cons.inj hr).1.symm he

theorem mem_of_mem_startWithTimeout {l : List (Entry τ)} {a t : τ} {now val : UInt64}
    (hl : (ids l).Nodup) (h : a ∈ ids (startWithTimeout t now val l)) (ha : a ≠ t) :
    a ∈ ids l := by
  have := (ids_linkLocked_perm _ _).mem_iff.1 h
  rw [List.mem_cons, ids_unlinkLocked hl] at this
  exact List.mem_of_mem_erase (this.resolve_left ha)

theorem mem_of_mem_unlinkLocked {l : List (Entry τ)} {a t : τ} (hl : (ids l).Nodup)
    (h : a ∈ ids (unlinkLocked t l)) : a ∈ ids l := by
  rw [ids_unlinkLocked hl] at h
  exact List.mem_of_mem_erase h

/-- Timer `a` stays ahead of timer `b` while it is on the list. -/
structure KeepsAhead (a b : τ) (s : Sys τ) : Prop where
  inv : Inv s
  ahead : a ∈ ids s.timers → Ahead a b s.timers

/-- A step that neither starts nor disables `a` or `b` keeps `a` ahead of `b`: a start or a
disable of another timer keeps the order of the rest, and a turn calls the front timer, which is
not `b` while `a` is ahead of it. -/
theorem KeepsAhead.step {a b : τ} (hk : KeepsAhead a b s) {o : Op τ}
    (ha : o.touches a = false) (hb : o.touches b = false) (h : step s o = some s') :
    KeepsAhead a b s' := by
  have hinv := hk.inv.step h
  refine ⟨hinv, fun hmem => ?_⟩
  cases o with
  | startWithTimeout t now val =>
    cases h
    simp only [Op.touches, decide_eq_false_iff_not] at ha hb
    have hold := mem_of_mem_startWithTimeout hk.inv.nodup hmem (Ne.symm ha)
    exact ((hk.ahead hold).unlinkLocked hk.inv.nodup (Ne.symm ha) (Ne.symm hb)).linkLocked _
  | disable t =>
    cases h
    simp only [Op.touches, decide_eq_false_iff_not] at ha hb
    exact (hk.ahead (mem_of_mem_unlinkLocked hk.inv.nodup hmem)).unlinkLocked hk.inv.nodup
      (Ne.symm ha) (Ne.symm hb)
  | checkTimers now =>
    simp only [Timer.step] at h
    split_ifs at h
    cases h
    exact hk.ahead hmem
  | turn =>
    obtain ⟨time, -, ⟨e, l, ht, -, rfl⟩ | ⟨-, rfl⟩⟩ := turn_cases h
    · -- the timer called is not `a`, which is still on the list
      have hn := hk.inv.nodup
      rw [ht] at hn
      have hea : e.id ≠ a := fun hea => (List.nodup_cons.1 hn).1 (hea ▸ hmem)
      have hold : a ∈ ids s.timers := by
        rw [ht]
        exact List.mem_cons_of_mem _ hmem
      exact (ht ▸ hk.ahead hold).tail hea
    · exact hk.ahead hmem

/-- In every interleaving from the boot state, a timer started with a deadline no earlier than
that of a timer on the list goes behind it, and stays behind it while that timer is on the list,
until one of the two is started again or disabled: timers due at the same time are called in the
order they were started. -/
theorem started_later_called_later {s₀ : Sys τ} (sched₀ sched : List (Op τ)) (t₁ t₂ : τ)
    (now val : UInt64) (h₀ : run step Sys.init sched₀ = some s₀) (hne : t₁ ≠ t₂)
    (ht₁ : ∃ f ∈ s₀.timers, f.id = t₁ ∧ f.timeout ≤ setTimeout now val)
    (hsched : ∀ o ∈ sched, o.touches t₁ = false ∧ o.touches t₂ = false)
    (h : run step s₀ (.startWithTimeout t₂ now val :: sched) = some s) :
    t₁ ∈ ids s.timers → Ahead t₁ t₂ s.timers := by
  have hinv₀ := Inv.of_run h₀
  obtain ⟨s₁, hs₁, hrun⟩ := run_cons_eq_some h
  -- the start links `t₂` behind `t₁`
  have hk : KeepsAhead t₁ t₂ s₁ := by
    refine ⟨hinv₀.step hs₁, fun _ => ?_⟩
    cases hs₁
    obtain ⟨f, hf, rfl, hle⟩ := ht₁
    have hf' : f ∈ unlinkLocked t₂ s₀.timers := (List.mem_eraseP_of_neg (by simpa using hne)).2 hf
    exact before_linkLocked (hinv₀.sorted.unlinkLocked t₂) (e := ⟨t₂, setTimeout now val⟩) hf'
      hle
  exact (run_inv (fun c o c' (hc : KeepsAhead t₁ t₂ c)
    (hok : o.touches t₁ = false ∧ o.touches t₂ = false) hs => hc.step hok.1 hok.2 hs)
    sched s₁ s hk (Guarded.of_forall s₁ hsched) hrun).ahead

/-- Timer 0 is started for 1 ms, then timer 1 for 1 ms too, and timer 2 for 0 ms; the first turn
of `check_timers` calls timer 2, and timer 0 is still ahead of timer 1. -/
theorem started_later_called_later_threeTimers :
    ∃ s : Sys ℕ, run step Sys.init [.startWithTimeout 0 0 1, .startWithTimeout 1 0 1,
        .startWithTimeout 2 0 0, .checkTimers 2000000, .turn] = some s ∧ ids s.timers = [0, 1] ∧
      (0 ∈ ids s.timers → Ahead 0 1 s.timers) :=
  ⟨_, rfl, rfl, started_later_called_later [.startWithTimeout 0 0 1]
    [.startWithTimeout 2 0 0, .checkTimers 2000000, .turn] 0 1 0 1 rfl (by decide) (by decide)
    (by decide) rfl⟩

end Cykusz.Kernel.Timer
