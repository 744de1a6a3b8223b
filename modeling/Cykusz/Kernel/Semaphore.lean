import Mathlib
import Cykusz.Kernel.WaitQueue
import Cykusz.Lib.Count
import Cykusz.Lib.Simulation

/-!
# Counting semaphores

`Semaphore` (behind ACPICA's `AcpiOsWaitSemaphore` and `AcpiOsSignalSemaphore`) keeps a count of
units under a spin lock, and a wait queue. `acquire` takes the lock and registers its task on the
queue; then, while the count is below 1, it drops the lock (`WaitQueue::wait_lock`), sleeps and
takes the lock again; it takes a unit, deregisters, and returns, dropping the lock. `release`
takes the lock and calls `notify_one`; only when no task was woken does it add a unit, up to
`max_value`.

The tasks are the threads of one system, stepping one at a time as in `WaitLock`; a schedule is an
interleaving. The model covers runs in which no signal interrupts a sleep.

In every interleaving from threads at their start, the count stays at least 0 and no more units
are taken than there were at the start and have been released since (`units_conserved`). But a
release that wakes a waiter adds no unit, and the waiter finds the count still 0 and sleeps again:
once a task waits with the count at 0, the count stays 0 and the task never returns, whatever
number of releases run (`release_to_waiter_lost`).
-/

namespace Cykusz.Kernel.Semaphore

open Simulation

/-- Where a task in `acquire` is: taking the lock, registering, the loop's check, dropping the
lock, sleeping, on the awaiting list, taking the lock again, deregistering with a unit taken,
returning (the guard drops), returned. -/
inductive AcquirePc
  | lock
  | register
  | check
  | unlock
  | awaitIo
  | asleep
  | relock
  | deregister
  | leave
  | done
deriving DecidableEq, Repr

/-- Where a task in `release` is: taking the lock, notifying, returning (the guard drops),
returned. -/
inductive ReleasePc
  | lock
  | notify
  | leave
  | done
deriving DecidableEq, Repr

inductive Thread
  | acquirer (pc : AcquirePc)
  | releaser (pc : ReleasePc)
deriving DecidableEq, Repr

/-- The semaphore's `max_value` and count, the task holding its spin lock, its queue, the
scheduler's state of the tasks, and the threads, task `i` running thread `i`. -/
structure Sys where
  maxValue : ℤ
  value : ℤ
  owner : Option ℕ
  queue : WaitQueue
  tasks : Tasks
  threads : List Thread

/-- The step of thread `i`, as the thread it becomes and the state after the step; `none` where
it cannot step: it waits for the lock, is on the awaiting list, or has returned. -/
def move (s : Sys) (i : ℕ) : Thread → Option (Thread × Sys)
  | .acquirer pc =>
    let go (pc' : AcquirePc) (s' : Sys) := some (Thread.acquirer pc', s')
    match pc with
    | .lock => if s.owner = none then go .register { s with owner := some i } else none
    | .register => go .check { s with queue := s.queue.addTask i }
    | .check =>
      if s.value < 1 then go .unlock s else go .deregister { s with value := s.value - 1 }
    | .unlock => go .awaitIo { s with owner := none }
    | .awaitIo =>
      go (if s.tasks.pendingIo i then .relock else .asleep) { s with tasks := s.tasks.sleep i }
    | .asleep => if s.tasks.awaiting i then none else go .relock s
    | .relock => if s.owner = none then go .check { s with owner := some i } else none
    | .deregister => go .leave { s with queue := s.queue.removeTask i }
    | .leave => go .done { s with owner := none }
    | .done => none
  | .releaser pc =>
    let go (pc' : ReleasePc) (s' : Sys) := some (Thread.releaser pc', s')
    match pc with
    | .lock => if s.owner = none then go .notify { s with owner := some i } else none
    | .notify =>
      let (ts, woke) := s.queue.notifyOne s.tasks
      go .leave
        { s with
          tasks := ts
          value := if !woke then (if s.value < s.maxValue then s.value + 1 else s.value)
            else s.value }
    | .leave => go .done { s with owner := none }
    | .done => none

/-- Thread `i` takes one step. -/
def step (s : Sys) (i : ℕ) : Option Sys :=
  match s.threads[i]? with
  | none => none
  | some th => (move s i th).map fun p => { p.2 with threads := s.threads.set i p.1 }

/-- An acquirer that has taken its unit. -/
def Thread.taken : Thread → Bool
  | .acquirer .deregister | .acquirer .leave | .acquirer .done => true
  | _ => false

/-- A releaser past its `notify_one`. -/
def Thread.released : Thread → Bool
  | .releaser .leave | .releaser .done => true
  | _ => false

/-- An acquirer registered on the queue and waiting for a unit. -/
def AcquirePc.waiting : AcquirePc → Bool
  | .check | .unlock | .awaitIo | .asleep | .relock => true
  | _ => false

/-- A thread at its start. -/
def Thread.atStart : Thread → Bool
  | .acquirer .lock | .releaser .lock => true
  | _ => false

variable {s s' : Sys} {i : ℕ} {th th' : Thread}

theorem step_cases (h : step s i = some s') :
    ∃ th th' s'', s.threads[i]? = some th ∧ move s i th = some (th', s'') ∧
      s' = { s'' with threads := s.threads.set i th' } := by
  unfold step at h
  cases hi : s.threads[i]? with
  | none => rw [hi] at h; cases h
  | some th =>
    rw [hi] at h
    obtain ⟨⟨th', s''⟩, hm, rfl⟩ := Option.map_eq_some_iff.1 h
    exact ⟨th, th', s'', rfl, hm, rfl⟩

/-! ## Units taken and released -/

/-- What a move does to the count: a unit comes off it only as its acquirer takes it, and goes on
only as a releaser passes `notify_one`; it never goes below 0. -/
structure MoveOk (s : Sys) (th th' : Thread) (s' : Sys) : Prop where
  nonneg : 0 ≤ s.value → 0 ≤ s'.value
  units : s'.value + (if th'.taken then 1 else 0) + (if th.released then 1 else 0) ≤
    s.value + (if th.taken then 1 else 0) + (if th'.released then 1 else 0)

/-- A move that leaves the count alone, and takes and releases nothing. -/
theorem moveOk_keep (hv : s'.value = s.value) (htk : th'.taken = th.taken)
    (hrl : th'.released = th.released) : MoveOk s th th' s' :=
  ⟨fun h => hv ▸ h, by rw [hv, htk, hrl]⟩

theorem move_ok (h : move s i th = some (th', s')) : MoveOk s th th' s' := by
  -- one case for each point of each kind of thread, as `move` has them
  cases th with
  | acquirer pc =>
    cases pc with
    | lock | relock =>
      simp only [move] at h
      split_ifs at h
      cases h
      exact moveOk_keep rfl rfl rfl
    | register | unlock | deregister | leave =>
      simp only [move] at h
      cases h
      exact moveOk_keep rfl rfl rfl
    | awaitIo =>
      simp only [move] at h
      split_ifs at h <;> cases h <;> exact moveOk_keep rfl rfl rfl
    | check =>
      simp only [move] at h
      split_ifs at h with hv
      · cases h
        exact moveOk_keep rfl rfl rfl
      · -- the unit is taken
        cases h
        refine ⟨fun _ => by dsimp only; omega, ?_⟩
        simp only [Thread.taken, Thread.released, ↓reduceIte, Bool.false_eq_true]
        omega
    | asleep =>
      simp only [move] at h
      split_ifs at h
      cases h
      exact moveOk_keep rfl rfl rfl
    | done => cases h
  | releaser pc =>
    cases pc with
    | lock =>
      simp only [move] at h
      split_ifs at h
      cases h
      exact moveOk_keep rfl rfl rfl
    | notify =>
      -- a unit is added, or a waiter woken
      simp only [move] at h
      cases h
      refine ⟨fun hv => by dsimp only; split_ifs <;> omega, ?_⟩
      simp only [Thread.taken, Thread.released, ↓reduceIte, Bool.false_eq_true]
      split_ifs <;> omega
    | leave =>
      cases h
      exact moveOk_keep rfl rfl rfl
    | done => cases h

/-- The count is at least 0, and with the units taken it is at most `units` and the units
released. -/
structure Inv (units : ℤ) (s : Sys) : Prop where
  nonneg : 0 ≤ s.value
  conserved : s.value + s.threads.countP Thread.taken ≤ units + s.threads.countP Thread.released

theorem Inv.step {units : ℤ} (hinv : Inv units s) (h : step s i = some s') : Inv units s' := by
  obtain ⟨th, th', s'', hi, hm, rfl⟩ := step_cases h
  have hok := move_ok hm
  have htk := Count.countP_set_add hi Thread.taken th'
  have hrl := Count.countP_set_add hi Thread.released th'
  refine ⟨hok.nonneg hinv.nonneg, ?_⟩
  have := hinv.conserved
  have := hok.units
  simp only at htk hrl ⊢
  split_ifs at htk hrl this <;> push_cast at * <;> omega

theorem inv_of_atStart (hv : 0 ≤ s.value) (hstart : ∀ th ∈ s.threads, th.atStart = true) :
    Inv s.value s := by
  -- no thread at its start has taken or released a unit
  have htk : s.threads.countP Thread.taken = 0 := by
    refine List.countP_eq_zero.2 fun th hth => ?_
    have := hstart th hth
    cases th with
    | acquirer pc => cases pc <;> simp_all [Thread.atStart, Thread.taken]
    | releaser pc => cases pc <;> simp_all [Thread.atStart, Thread.taken]
  exact ⟨hv, by rw [htk]; omega⟩

/-- In every interleaving of threads that start at the beginning of `acquire` or `release`, the
count stays at least 0, and the acquirers that have taken a unit are no more than the units at the
start and the releases that have passed `notify_one`. -/
theorem units_conserved (hv : 0 ≤ s.value) (hstart : ∀ th ∈ s.threads, th.atStart = true)
    (sched : List ℕ) (h : run step s sched = some s') :
    0 ≤ s'.value ∧
      (s'.threads.countP Thread.taken : ℤ) ≤ s.value + s'.threads.countP Thread.released := by
  have hinv : Inv s.value s' := run_preserves (fun _ _ _ (hc : Inv s.value _) hs => hc.step hs)
    sched s s' (inv_of_atStart hv hstart) h
  have := hinv.conserved
  exact ⟨hinv.nonneg, by linarith [hinv.nonneg]⟩

/-- A binary semaphore with its unit, two tasks that acquire and one that releases. -/
def twoAcquirers : Sys :=
  ⟨1, 1, none, ⟨[]⟩, Tasks.idle, [.acquirer .lock, .acquirer .lock, .releaser .lock]⟩

/-- Task 0 takes the unit, task 2 puts one back, and task 1 takes it: two units taken, of the one
there was and the one released. -/
theorem units_conserved_twoAcquirers :
    ∃ s', run step twoAcquirers [0, 0, 0, 0, 0, 2, 2, 2, 1, 1, 1, 1, 1] = some s' ∧
      s'.threads.countP Thread.taken = 2 ∧ 0 ≤ s'.value ∧
      (s'.threads.countP Thread.taken : ℤ) ≤
        twoAcquirers.value + s'.threads.countP Thread.released :=
  ⟨_, rfl, rfl, units_conserved (by decide) (by decide) [0, 0, 0, 0, 0, 2, 2, 2, 1, 1, 1, 1, 1] rfl⟩

/-! ## A release to a waiter -/

/-- Acquirer `i` waits for a unit, registered on the queue, and the count is 0. -/
structure Starved (i : ℕ) (s : Sys) : Prop where
  zero : s.value = 0
  registered : i ∈ s.queue.tasks
  waiting : ∃ pc, pc.waiting = true ∧ s.threads[i]? = some (.acquirer pc)

/-- With the count at 0 and `i` registered, a move of another thread leaves the count at 0 and
`i` registered: an acquirer's check finds no unit, a deregistration removes only its own task, and
`notify_one` finds a task to wake, so `release` adds no unit. -/
theorem move_of_other {j : ℕ} (hv : s.value = 0) (hq : i ∈ s.queue.tasks) (hji : j ≠ i)
    {s'' : Sys} (h : move s j th = some (th', s'')) : s''.value = 0 ∧ i ∈ s''.queue.tasks := by
  cases th with
  | acquirer pc =>
    cases pc with
    | lock | relock | asleep =>
      simp only [move] at h
      split_ifs at h
      cases h
      exact ⟨hv, hq⟩
    | unlock | leave =>
      cases h
      exact ⟨hv, hq⟩
    | awaitIo =>
      simp only [move] at h
      split_ifs at h <;> cases h <;> exact ⟨hv, hq⟩
    | register =>
      cases h
      exact ⟨hv, List.mem_append_left _ hq⟩
    | check =>
      simp only [move] at h
      rw [if_pos (by omega)] at h
      cases h
      exact ⟨hv, hq⟩
    | deregister =>
      cases h
      exact ⟨hv, (List.mem_erase_of_ne (Ne.symm hji)).2 hq⟩
    | done => cases h
  | releaser pc =>
    cases pc with
    | lock =>
      simp only [move] at h
      split_ifs at h
      cases h
      exact ⟨hv, hq⟩
    | notify =>
      obtain ⟨t, l, htl⟩ := List.exists_cons_of_ne_nil (List.ne_nil_of_mem hq)
      simp only [move, WaitQueue.notifyOne_of_cons htl] at h
      cases h
      exact ⟨hv, hq⟩
    | leave =>
      cases h
      exact ⟨hv, hq⟩
    | done => cases h

/-- A waiting acquirer with the count at 0 only moves between its waiting points, and leaves the
count and the queue alone. -/
theorem move_of_waiting {pc : AcquirePc} (hv : s.value = 0) (hpc : pc.waiting = true) {s'' : Sys}
    (h : move s i (.acquirer pc) = some (th', s'')) :
    s''.value = 0 ∧ s''.queue = s.queue ∧ ∃ pc', pc'.waiting = true ∧ th' = .acquirer pc' := by
  cases pc with
  | check =>
    simp only [move] at h
    rw [if_pos (by omega)] at h
    cases h
    exact ⟨hv, rfl, _, rfl, rfl⟩
  | unlock =>
    cases h
    exact ⟨hv, rfl, _, rfl, rfl⟩
  | awaitIo =>
    simp only [move] at h
    split_ifs at h <;> cases h <;> exact ⟨hv, rfl, _, rfl, rfl⟩
  | asleep | relock =>
    simp only [move] at h
    split_ifs at h
    cases h
    exact ⟨hv, rfl, _, rfl, rfl⟩
  | lock | register | deregister | leave | done => simp [AcquirePc.waiting] at hpc

theorem Starved.step (hs : Starved i s) {j : ℕ} (h : step s j = some s') : Starved i s' := by
  obtain ⟨th, th', s'', hj, hm, rfl⟩ := step_cases h
  obtain ⟨pc, hpc, hi⟩ := hs.waiting
  by_cases hji : j = i
  · -- the waiter itself steps
    subst hji
    rw [hi, Option.some_inj] at hj
    subst hj
    obtain ⟨hv, hq, pc', hpc', rfl⟩ := move_of_waiting hs.zero hpc hm
    refine ⟨hv, hq ▸ hs.registered, pc', hpc', ?_⟩
    simp [(List.getElem?_eq_some_iff.1 hi).1]
  · obtain ⟨hv, hq⟩ := move_of_other hs.zero hs.registered hji hm
    exact ⟨hv, hq, pc, hpc, by rw [List.getElem?_set_ne hji]; exact hi⟩

/-- Once acquirer `i` waits, registered, with the count at 0, the count stays 0 and `i` keeps
waiting in every interleaving, whatever releases run: each release wakes a registered task instead
of adding a unit, and the task woken finds no unit and sleeps again. -/
theorem release_to_waiter_lost {pc : AcquirePc} (hv : s.value = 0) (hq : i ∈ s.queue.tasks)
    (hpc : pc.waiting = true) (hi : s.threads[i]? = some (.acquirer pc)) (sched : List ℕ)
    (h : run step s sched = some s') :
    s'.value = 0 ∧ ∃ pc', pc'.waiting = true ∧ s'.threads[i]? = some (.acquirer pc') := by
  have hs : Starved i s' := run_preserves (fun _ _ _ (hc : Starved i _) hs => hc.step hs) sched
    s s' ⟨hv, hq, pc, hpc, hi⟩ h
  exact ⟨hs.zero, hs.waiting⟩

/-- A binary semaphore with no unit: task 0 acquires and task 1 releases. -/
def oneWaiter : Sys :=
  ⟨1, 0, none, ⟨[]⟩, Tasks.idle, [.acquirer .lock, .releaser .lock]⟩

/-- Task 0 of `oneWaiter` registered and asleep. -/
def oneWaiterAsleep : Sys :=
  ⟨1, 0, none, ⟨[0]⟩, Tasks.idle.sleep 0, [.acquirer .asleep, .releaser .lock]⟩

/-- Task 0 registers and sleeps; task 1's release wakes it and adds no unit; task 0 finds the count
0 and sleeps again. -/
theorem release_to_waiter_lost_oneWaiter :
    run step oneWaiter [0, 0, 0, 0, 0] = some oneWaiterAsleep ∧
      ∃ s₂, run step oneWaiterAsleep [1, 1, 1, 0, 0, 0, 0, 0] = some s₂ ∧
        s₂.threads = [.acquirer .asleep, .releaser .done] ∧ s₂.value = 0 ∧
        ∃ pc', pc'.waiting = true ∧ s₂.threads[0]? = some (.acquirer pc') := by
  refine ⟨rfl, _, rfl, rfl, ?_⟩
  exact release_to_waiter_lost (s := oneWaiterAsleep) rfl (by decide)
    (show AcquirePc.asleep.waiting = true from rfl) rfl
    [1, 1, 1, 0, 0, 0, 0, 0] rfl

end Cykusz.Kernel.Semaphore
