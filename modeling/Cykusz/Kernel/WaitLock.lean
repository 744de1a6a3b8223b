import Mathlib
import Cykusz.Kernel.WaitQueue
import Cykusz.Lib.Simulation

/-!
# Waiting on a wait queue for a condition

`WaitQueue::wait_lock_for(flags, m, cond)` takes the lock `m` and returns at once when `cond`
holds, or with `NO_HANG`. Otherwise it registers the task on the queue and, while `cond` is false,
drops the lock, sleeps and takes the lock again; it returns with the lock held, and the task is
deregistered as it returns. A notifier takes the lock, writes a condition, drops the lock and
then calls `notify_all` or `notify_one`. `sys_poll` registers its task on the queue of the
descriptor it polls (`PollTable::listen`), sleeps while the descriptor is not ready, and
deregisters when it returns.

These tasks are the threads of one system (`Sys`). A thread takes one step at a time (`step`), a
step being a section that the locks make atomic, and a schedule, the list of the threads that
step in order, is an interleaving. The conditions are flags of the state, written under `m`.

From any state in which every thread is at its start, whatever the `pending_io` flags left by
earlier wakes, every waiter that has returned `Ok(Some(_))` holds `m` and sees its condition true
(`returned_cond_holds`). But `notify_one` wakes the first task registered, which need not wait for
the condition the notifier made true: a poller registered before a waiter takes the wake, and the
waiter sleeps on with its condition true and no task left to wake it (`notify_one_wakes_poller`).
-/

namespace Cykusz.Kernel.WaitLock

open Simulation

/-- Where a task in `WaitQueue::wait_lock_for` is: taking the lock, the first check, registering,
the loop's check, dropping the lock, sleeping, on the awaiting list, taking the lock again,
deregistering on return; then returned `Ok(Some(lock))`, its caller done with the lock, or
returned `Ok(None)`. -/
inductive WaiterPc
  | lock
  | first
  | register
  | check
  | unlock
  | awaitIo
  | asleep
  | relock
  | deregister
  | holding
  | released
  | noHang
deriving DecidableEq, Repr

/-- Where a notifier is: taking the lock, writing the condition, dropping the lock, notifying,
done. -/
inductive NotifierPc
  | lock
  | write
  | unlock
  | notify
  | done
deriving DecidableEq, Repr

/-- Where a task in `sys_poll` on one descriptor is: registering (`PollTable::listen`), polling,
sleeping, on the awaiting list, deregistering as the poll table drops, returned. -/
inductive PollerPc
  | listen
  | poll
  | awaitIo
  | asleep
  | drop
  | done
deriving DecidableEq, Repr

/-- A task of the system. A waiter waits for condition `cond`, with `NO_HANG` or without; a
notifier writes `value` into condition `cond` and calls `notify_all` or `notify_one`; a poller
polls a descriptor that is ready when condition `cond` holds. -/
inductive Thread
  | waiter (cond : ℕ) (noHang : Bool) (pc : WaiterPc)
  | notifier (cond : ℕ) (value : Bool) (all : Bool) (pc : NotifierPc)
  | poller (cond : ℕ) (pc : PollerPc)
deriving DecidableEq, Repr

/-- The conditions, kept under the lock `m`; the task holding `m`; the queue; the scheduler's
state of the tasks; and the threads, task `i` running thread `i`. -/
structure Sys where
  conds : ℕ → Bool
  owner : Option ℕ
  queue : WaitQueue
  tasks : Tasks
  threads : List Thread

/-- The step of thread `i`, as the thread it becomes and the shared state after the step; `none`
where it cannot step: it waits for the lock, is on the awaiting list, or has returned. -/
def move (s : Sys) (i : ℕ) : Thread → Option (Thread × Sys)
  | .waiter c nh pc =>
    let go (pc' : WaiterPc) (s' : Sys) := some (Thread.waiter c nh pc', s')
    match pc with
    | .lock => if s.owner = none then go .first { s with owner := some i } else none
    | .first =>
      if s.conds c then go .holding s
      else if nh then go .noHang { s with owner := none }
      else go .register s
    | .register => go .check { s with queue := s.queue.addTask i }
    | .check => if s.conds c then go .deregister s else go .unlock s
    | .unlock => go .awaitIo { s with owner := none }
    | .awaitIo =>
      go (if s.tasks.pendingIo i then .relock else .asleep) { s with tasks := s.tasks.sleep i }
    | .asleep => if s.tasks.awaiting i then none else go .relock s
    | .relock => if s.owner = none then go .check { s with owner := some i } else none
    | .deregister => go .holding { s with queue := s.queue.removeTask i }
    | .holding => go .released { s with owner := none }
    | .released => none
    | .noHang => none
  | .notifier c v all pc =>
    let go (pc' : NotifierPc) (s' : Sys) := some (Thread.notifier c v all pc', s')
    match pc with
    | .lock => if s.owner = none then go .write { s with owner := some i } else none
    | .write => go .unlock { s with conds := Function.update s.conds c v }
    | .unlock => go .notify { s with owner := none }
    | .notify =>
      go .done
        { s with tasks := (if all then s.queue.notifyAll s.tasks else s.queue.notifyOne s.tasks).1 }
    | .done => none
  | .poller c pc =>
    let go (pc' : PollerPc) (s' : Sys) := some (Thread.poller c pc', s')
    match pc with
    | .listen => go .poll { s with queue := s.queue.addTask i }
    | .poll => go (if s.conds c then .drop else .awaitIo) s
    | .awaitIo =>
      go (if s.tasks.pendingIo i then .poll else .asleep) { s with tasks := s.tasks.sleep i }
    | .asleep => if s.tasks.awaiting i then none else go .poll s
    | .drop => go .done { s with queue := s.queue.removeTask i }
    | .done => none

/-- Thread `i` takes one step. -/
def step (s : Sys) (i : ℕ) : Option Sys :=
  match s.threads[i]? with
  | none => none
  | some th => (move s i th).map fun p => { p.2 with threads := s.threads.set i p.1 }

/-- The threads at a point where they hold the lock `m`. -/
def holdsLock : Thread → Bool
  | .waiter _ _ .first | .waiter _ _ .register | .waiter _ _ .check | .waiter _ _ .unlock
  | .waiter _ _ .deregister | .waiter _ _ .holding => true
  | .notifier _ _ _ .write | .notifier _ _ _ .unlock => true
  | _ => false

/-- The condition of a waiter that is returning `Ok(Some(lock))` or has returned it and still
holds the lock. -/
def returned : Thread → Option ℕ
  | .waiter c _ .deregister | .waiter c _ .holding => some c
  | _ => none

/-- A thread at its start. -/
def atStart : Thread → Bool
  | .waiter _ _ .lock | .notifier _ _ _ .lock | .poller _ .listen => true
  | _ => false

/-! ## The lock, and what a returned waiter sees -/

variable {s s' : Sys} {i : ℕ} {th th' : Thread}

theorem step_cases (h : step s i = some s') :
    ∃ th th' s'', s.threads[i]? = some th ∧ move s i th = some (th', s'') ∧
      s' = { s'' with threads := s.threads.set i th' } := by
  unfold step at h
  cases hi : s.threads[i]? with
  | none => rw [hi] at h; cases h
  | some th =>
    rw [hi] at h
    obtain ⟨⟨th', s''⟩, hm, rfl⟩ := Option.map_eq_some_iff.1 h
    exact ⟨th, th', s'', rfl, hm, rfl⟩

/-- What one move can do: take the free lock, drop a lock it holds, or leave the lock as it was;
write a condition only while it holds the lock; and return a waiter only on a true condition. -/
structure MoveOk (s : Sys) (i : ℕ) (th th' : Thread) (s' : Sys) : Prop where
  lock : (s'.owner = s.owner ∧ holdsLock th' = holdsLock th) ∨
    (s.owner = none ∧ s'.owner = some i ∧ holdsLock th' = true) ∨
    (holdsLock th = true ∧ s'.owner = none ∧ holdsLock th' = false)
  conds : s'.conds = s.conds ∨ holdsLock th = true
  returned : ∀ c, returned th' = some c →
    s'.conds c = true ∨ (returned th = some c ∧ s'.conds = s.conds)

/-- A move that leaves the lock as it was and writes no condition. -/
theorem moveOk_keep (hown : s'.owner = s.owner) (hconds : s'.conds = s.conds)
    (hlock : holdsLock th' = holdsLock th)
    (hret : ∀ c, returned th' = some c → s.conds c = true ∨ returned th = some c) :
    MoveOk s i th th' s' where
  lock := .inl ⟨hown, hlock⟩
  conds := .inl hconds
  returned c hc := (hret c hc).imp (fun h => hconds ▸ h) fun h => ⟨h, hconds⟩

/-- A move that takes the free lock. -/
theorem moveOk_acquire (hown : s.owner = none) (hown' : s'.owner = some i)
    (hconds : s'.conds = s.conds) (hlock : holdsLock th' = true) (hret : returned th' = none) :
    MoveOk s i th th' s' where
  lock := .inr (.inl ⟨hown, hown', hlock⟩)
  conds := .inl hconds
  returned c hc := by simp [hret] at hc

/-- A move that drops the lock its thread holds. -/
theorem moveOk_release (hlock : holdsLock th = true) (hown' : s'.owner = none)
    (hlock' : holdsLock th' = false) (hret : returned th' = none) : MoveOk s i th th' s' where
  lock := .inr (.inr ⟨hlock, hown', hlock'⟩)
  conds := .inr hlock
  returned c hc := by simp [hret] at hc

/-- A move that writes a condition under the lock its thread holds. -/
theorem moveOk_write (hlock : holdsLock th = true) (hown : s'.owner = s.owner)
    (hlock' : holdsLock th' = true) (hret : returned th' = none) : MoveOk s i th th' s' where
  lock := .inl ⟨hown, hlock'.trans hlock.symm⟩
  conds := .inr hlock
  returned c hc := by simp [hret] at hc

theorem move_ok (h : move s i th = some (th', s')) : MoveOk s i th th' s' := by
  -- one case for each point of each kind of thread, as `move` has them
  cases th with
  | waiter c nh pc =>
    cases pc with
    | lock =>
      simp only [move] at h
      split_ifs at h with hown
      cases h
      exact moveOk_acquire hown rfl rfl rfl rfl
    | first =>
      simp only [move] at h
      split_ifs at h with hcond hnh
      · -- the condition holds: the waiter returns with it
        cases h
        refine moveOk_keep rfl rfl rfl fun c' hc' => .inl ?_
        simp only [returned, Option.some.injEq] at hc'
        exact hc' ▸ hcond
      · cases h
        exact moveOk_release rfl rfl rfl rfl
      · cases h
        exact moveOk_keep rfl rfl rfl (by simp [returned])
    | register =>
      cases h
      exact moveOk_keep rfl rfl rfl (by simp [returned])
    | check =>
      simp only [move] at h
      split_ifs at h with hcond
      · cases h
        refine moveOk_keep rfl rfl rfl fun c' hc' => .inl ?_
        simp only [returned, Option.some.injEq] at hc'
        exact hc' ▸ hcond
      · cases h
        exact moveOk_keep rfl rfl rfl (by simp [returned])
    | unlock =>
      cases h
      exact moveOk_release rfl rfl rfl rfl
    | awaitIo =>
      simp only [move] at h
      split_ifs at h <;> cases h <;> exact moveOk_keep rfl rfl rfl (by simp [returned])
    | asleep =>
      simp only [move] at h
      split_ifs at h
      cases h
      exact moveOk_keep rfl rfl rfl (by simp [returned])
    | relock =>
      simp only [move] at h
      split_ifs at h with hown
      cases h
      exact moveOk_acquire hown rfl rfl rfl rfl
    | deregister =>
      cases h
      exact moveOk_keep rfl rfl rfl fun _ hc' => .inr hc'
    | holding =>
      cases h
      exact moveOk_release rfl rfl rfl rfl
    | released => cases h
    | noHang => cases h
  | notifier c v all pc =>
    cases pc with
    | lock =>
      simp only [move] at h
      split_ifs at h with hown
      cases h
      exact moveOk_acquire hown rfl rfl rfl rfl
    | write =>
      cases h
      exact moveOk_write rfl rfl rfl rfl
    | unlock =>
      cases h
      exact moveOk_release rfl rfl rfl rfl
    | notify =>
      cases h
      exact moveOk_keep rfl rfl rfl (by simp [returned])
    | done => cases h
  | poller c pc =>
    -- a poller never takes the lock
    cases pc with
    | listen | drop =>
      cases h
      exact moveOk_keep rfl rfl rfl (by simp [returned])
    | poll | awaitIo =>
      simp only [move] at h
      cases h
      exact moveOk_keep rfl rfl rfl (by simp [returned])
    | asleep =>
      simp only [move] at h
      split_ifs at h
      cases h
      exact moveOk_keep rfl rfl rfl (by simp [returned])
    | done => cases h

theorem holdsLock_of_returned {c : ℕ} (h : returned th = some c) : holdsLock th = true := by
  cases th with
  | waiter c nh pc => cases pc <;> simp_all [returned, holdsLock]
  | notifier => simp [returned] at h
  | poller => simp [returned] at h

/-- The lock is held exactly by the threads at a point that holds it, and a waiter that has
returned `Ok(Some(_))` sees its condition true. -/
structure Inv (s : Sys) : Prop where
  owner_iff : ∀ j, s.owner = some j ↔ ∃ th, s.threads[j]? = some th ∧ holdsLock th = true
  cond : ∀ (j : ℕ) (th : Thread) (c : ℕ), s.threads[j]? = some th → returned th = some c →
    s.conds c = true

theorem inv_of_atStart (hown : s.owner = none) (hstart : ∀ th ∈ s.threads, atStart th = true) :
    Inv s := by
  have hfree : ∀ (j : ℕ) (th : Thread), s.threads[j]? = some th →
      holdsLock th = false ∧ returned th = none := by
    intro j th hj
    have := hstart th (List.mem_of_getElem? hj)
    cases th with
    | waiter c nh pc => cases pc <;> simp_all [atStart, holdsLock, returned]
    | notifier c v all pc => cases pc <;> simp_all [atStart, holdsLock, returned]
    | poller c pc => cases pc <;> simp_all [atStart, holdsLock, returned]
  refine ⟨fun j => ?_, fun j th c hj hc => ?_⟩
  · simp only [hown, reduceCtorEq, false_iff, not_exists, not_and]
    intro th hj
    simp [(hfree j th hj).1]
  · simp [(hfree j th hj).2] at hc

theorem getElem?_set_threads {l : List Thread} {j : ℕ} (hi : l[i]? = some th) :
    (l.set i th')[j]? = if j = i then some th' else l[j]? := by
  rw [List.getElem?_set]
  have := (List.getElem?_eq_some_iff.1 hi).1
  by_cases hj : j = i
  · simp [hj, this]
  · simp [hj, Ne.symm hj]

/-- Every step keeps the invariant. -/
theorem Inv.step (hinv : Inv s) (h : step s i = some s') : Inv s' := by
  obtain ⟨th, th', s'', hi, hm, rfl⟩ := step_cases h
  have hok := move_ok hm
  have hheld : holdsLock th = true → s.owner = some i := fun hl =>
    (hinv.owner_iff i).2 ⟨th, hi, hl⟩
  refine ⟨fun j => ?_, fun j thj c hj hc => ?_⟩
  · simp only [getElem?_set_threads hi]
    by_cases hji : j = i
    · subst hji
      simp only [if_true, Option.some.injEq, exists_eq_left']
      rcases hok.lock with ⟨ho, hl⟩ | ⟨-, ho, hl⟩ | ⟨-, ho, hl⟩
      · rw [ho, hinv.owner_iff j, hl]
        simp [hi]
      · simp [ho, hl]
      · simp [ho, hl]
    · simp only [hji, if_false]
      rcases hok.lock with ⟨ho, -⟩ | ⟨ho₀, ho, -⟩ | ⟨hl, ho, -⟩
      · rw [ho, hinv.owner_iff j]
      · rw [ho, ← hinv.owner_iff j, ho₀]
        simp [Ne.symm hji]
      · rw [ho, ← hinv.owner_iff j, hheld hl]
        simp [Ne.symm hji]
  · rw [getElem?_set_threads hi] at hj
    by_cases hji : j = i
    · subst hji
      simp only [if_true, Option.some.injEq] at hj
      subst hj
      rcases hok.returned c hc with hc' | ⟨hc', hconds⟩
      · exact hc'
      · rw [hconds]
        exact hinv.cond j th c hi hc'
    · simp only [hji, if_false] at hj
      rcases hok.conds with hconds | hl
      · rw [hconds]
        exact hinv.cond j thj c hj hc
      · have hj' := (hinv.owner_iff j).2 ⟨thj, hj, holdsLock_of_returned hc⟩
        rw [hheld hl] at hj'
        exact absurd (Option.some_injective _ hj').symm hji

/-- From a state where the lock is free and every thread is at its start, whatever the conditions
and the pending wakes left by earlier runs, every waiter that has returned `Ok(Some(_))` and still
holds the guard holds the lock and sees its condition true, in every interleaving. -/
theorem returned_cond_holds (hown : s.owner = none) (hstart : ∀ th ∈ s.threads, atStart th = true)
    (sched : List ℕ) (h : run step s sched = some s') :
    ∀ j th c, s'.threads[j]? = some th → returned th = some c →
      s'.owner = some j ∧ s'.conds c = true := by
  have hinv : Inv s' := run_preserves (fun _ _ _ (hc : Inv _) hs => hc.step hs) sched s s'
    (inv_of_atStart hown hstart) h
  intro j th c hj hc
  exact ⟨(hinv.owner_iff j).2 ⟨th, hj, holdsLock_of_returned hc⟩, hinv.cond j th c hj hc⟩

/-! ## `notify_one` and a poller -/

/-- A poller of a descriptor that is not ready, then a reader waiting for the descriptor's data
without `NO_HANG`, then a writer that makes the data available and calls `notify_one`, all on one
queue. -/
def pollFirst : Sys :=
  ⟨fun _ => false, none, ⟨[]⟩, Tasks.idle,
    [.poller 0 .listen, .waiter 0 false .lock, .notifier 0 true false .lock]⟩

/-- Once the poller and the writer are done and the reader is on the awaiting list, no thread can
step. -/
theorem step_eq_none_of_asleep {c c' c'' : ℕ} {nh v all : Bool}
    (hth : s.threads = [.poller c .done, .waiter c' nh .asleep, .notifier c'' v all .done])
    (haw : s.tasks.awaiting 1 = true) (i : ℕ) : step s i = none := by
  match i with
  | 0 => simp [step, hth, move]
  | 1 => simp [step, hth, move, haw]
  | 2 => simp [step, hth, move]
  | i + 3 => simp [step, hth]

/-- The poller registers and sleeps, the reader registers and sleeps, and the writer's
`notify_one` wakes the poller, which returns. The reader's condition is true, but it is on the
awaiting list and no thread can step any more: it never returns. -/
theorem notify_one_wakes_poller :
    ∃ s, run step pollFirst [0, 0, 0, 1, 1, 1, 1, 1, 1, 2, 2, 2, 2, 0, 0, 0] = some s ∧
      s.threads = [.poller 0 .done, .waiter 0 false .asleep, .notifier 0 true false .done] ∧
      s.conds 0 = true ∧ s.tasks.awaiting 1 = true ∧
      ∀ sched s', run step s sched = some s' → s' = s := by
  refine ⟨_, rfl, rfl, rfl, rfl, fun sched s' h => ?_⟩
  exact (run_of_stuck (step_eq_none_of_asleep rfl rfl) sched h).2

end Cykusz.Kernel.WaitLock
