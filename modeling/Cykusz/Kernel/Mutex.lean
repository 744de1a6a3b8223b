import Mathlib
import Cykusz.Kernel.WaitQueue
import Cykusz.Lib.Count
import Cykusz.Lib.Simulation
import Cykusz.Lib.SpinLock

/-!
# Sleeping mutexes

`Mutex` (`kernel/sync/mutex.rs`), the lock of most of the kernel's shared state, is a spin lock
and a wait queue. `lock` registers its task on the queue and then, until `try_lock` of the spin
lock succeeds, sleeps in `task_wait_flags` (`NON_INTERRUPTIBLE`); it deregisters as it returns the
guard. `try_lock` tries the spin lock once. Dropping the guard releases the spin lock and then
calls `notify_one`.

The spin lock is a parameter, a lock of the `spin` crate's `Mutex` with its laws (`SpinLock`):
`try_lock` takes it if and only if it is free, as one atomic step, and the drop of the guard frees
it. The tasks are the threads of one system, stepping one at a time as in `WaitLock`; a schedule is
an interleaving.

In every interleaving from threads at their start, at most one thread holds the mutex, and no
waiter is stranded: while a thread waits for the mutex, some thread can step that holds it, is
about to notify, or will try the spin lock again without a further wake
(`mutex_no_stranded_waiter`). A release that wakes a waiter still on its way to sleep is not lost:
the wake leaves `pending_io` set, and the sleep returns at once.
-/

namespace Cykusz.Kernel.Mutex

open Simulation Count

/-- Where a task is: in `lock`, registering, trying the spin lock, sleeping, on the awaiting list,
deregistering with the lock taken; in `try_lock`, trying once; holding the guard; in the guard's
drop, past releasing the spin lock; returned. -/
inductive Pc
  | register
  | attempt
  | awaitIo
  | asleep
  | deregister
  | tryLock
  | held
  | notify
  | done
deriving DecidableEq, Repr

/-- The spin lock, the wait queue, the scheduler's state of the tasks, and the threads, task `i`
running thread `i`. -/
structure Sys (L : Type*) where
  lock : L
  queue : WaitQueue
  tasks : Tasks
  threads : List Pc

variable {L : Type*} [SpinLock L]

/-- The step of thread `i`, as the point it reaches and the state after the step; `none` where it
is on the awaiting list or has returned. -/
def move (s : Sys L) (i : ℕ) : Pc → Option (Pc × Sys L)
  | .register => some (.attempt, { s with queue := s.queue.addTask i })
  | .attempt =>
    let (ok, l) := SpinLock.tryLock s.lock
    some (if ok then .deregister else .awaitIo, { s with lock := l })
  | .awaitIo =>
    some (if s.tasks.pendingIo i then .attempt else .asleep, { s with tasks := s.tasks.sleep i })
  | .asleep => if s.tasks.awaiting i then none else some (.attempt, s)
  | .deregister => some (.held, { s with queue := s.queue.removeTask i })
  | .tryLock =>
    let (ok, l) := SpinLock.tryLock s.lock
    some (if ok then .held else .done, { s with lock := l })
  | .held => some (.notify, { s with lock := SpinLock.unlock s.lock })
  | .notify => some (.done, { s with tasks := (s.queue.notifyOne s.tasks).1 })
  | .done => none

/-- Thread `i` takes one step. -/
def step (s : Sys L) (i : ℕ) : Option (Sys L) :=
  match s.threads[i]? with
  | none => none
  | some pc => (move s i pc).map fun p => { p.2 with threads := s.threads.set i p.1 }

/-- Registered on the queue, from `add_task` to `remove_task`. -/
def Pc.registered : Pc → Bool
  | .attempt | .awaitIo | .asleep | .deregister => true
  | _ => false

/-- Waiting for the mutex in `lock`. -/
def Pc.waiting : Pc → Bool
  | .attempt | .awaitIo | .asleep => true
  | _ => false

/-- Holding the spin lock. -/
def Pc.holds : Pc → Bool
  | .deregister | .held => true
  | _ => false

/-- At the start of `lock` or `try_lock`. -/
def Pc.atStart : Pc → Bool
  | .register | .tryLock => true
  | _ => false

/-- A waiter that will try the spin lock again without a further wake. -/
def Pc.ready (ts : Tasks) (i : ℕ) : Pc → Bool
  | .attempt => true
  | .awaitIo => ts.pendingIo i
  | .asleep => !ts.awaiting i
  | _ => false


variable {s s' : Sys L} {i : ℕ} {pc pc' : Pc}

theorem step_cases (h : step s i = some s') :
    ∃ pc pc' s'', s.threads[i]? = some pc ∧ move s i pc = some (pc', s'') ∧
      s' = { s'' with threads := s.threads.set i pc' } := by
  unfold step at h
  cases hi : s.threads[i]? with
  | none => rw [hi] at h; cases h
  | some pc =>
    rw [hi] at h
    obtain ⟨⟨pc', s''⟩, hm, rfl⟩ := Option.map_eq_some_iff.1 h
    exact ⟨pc, pc', s'', rfl, hm, rfl⟩

namespace Pc

theorem registered_of_waiting (h : pc.waiting = true) : pc.registered = true := by
  cases pc <;> simp_all [waiting, registered]

theorem waiting_of_registered (h : pc.registered = true) (hh : pc.holds = false) :
    pc.waiting = true := by
  cases pc <;> simp_all [waiting, registered, holds]

/-- Readiness survives a wake of any task, and a sleep of another task. -/
theorem ready_wake {ts : Tasks} {j : ℕ} (h : pc.ready ts j = true) (t : ℕ) :
    pc.ready (ts.wake t) j = true := by
  have hw := Tasks.wake_mono ts t j
  cases pc <;> simp_all [ready]

theorem ready_sleep {ts : Tasks} {j : ℕ} (h : pc.ready ts j = true) (hji : j ≠ i) :
    pc.ready (ts.sleep i) j = true := by
  have hs : (ts.sleep i).awaiting j = ts.awaiting j ∧ (ts.sleep i).pendingIo j = ts.pendingIo j :=
    Tasks.sleep_of_ne hji
  cases pc <;> simp_all [ready]

/-- A waiter woken by `notify_one`, unless it sleeps on the awaiting list only at `asleep`, tries
again without a further wake. -/
theorem ready_of_roused {ts ts' : Tasks} {t : ℕ} (hw : pc.waiting = true)
    (hr : Tasks.Roused ts ts' t) (ha : ts.awaiting t = true → pc = .asleep) :
    pc.ready ts' t = true := by
  cases pc with
  | attempt => rfl
  | awaitIo => exact hr.pending (Bool.eq_false_iff.2 fun h => by simpa using ha h)
  | asleep => simp [ready, hr.not_awaiting]
  | register | deregister | tryLock | held | notify | done => simp [waiting] at hw

end Pc


/-! ## The invariant -/

/-- The queue holds each registered task once; only a thread at `asleep` is on the awaiting list;
one thread holds the spin lock while it is locked, and none while it is free; and while it is free,
a thread is about to notify, a waiter is ready, or no thread waits. -/
structure Inv (s : Sys L) : Prop where
  nodup : s.queue.tasks.Nodup
  queue : ∀ j, j ∈ s.queue.tasks ↔ ∃ pc, s.threads[j]? = some pc ∧ pc.registered = true
  awaiting : ∀ j, s.tasks.awaiting j = true → s.threads[j]? = some .asleep
  held : s.threads.countP Pc.holds = if SpinLock.isLocked s.lock then 1 else 0
  progress : SpinLock.isLocked s.lock = false → (∃ j : ℕ, s.threads[j]? = some .notify) ∨
    (∃ (j : ℕ) (pc : Pc), s.threads[j]? = some pc ∧ pc.ready s.tasks j = true) ∨
    ∀ (j : ℕ) (pc : Pc), s.threads[j]? = some pc → pc.waiting = false

section Frame

variable (hinv : Inv s) (hi : s.threads[i]? = some pc) {s'' : Sys L}
include hinv hi

/-- A move that leaves the queue alone and keeps the thread registered or not. -/
theorem Inv.queue_keep (hq : s''.queue = s.queue) (hr : pc'.registered = pc.registered) :
    ∀ j, j ∈ s''.queue.tasks ↔
      ∃ pc, (s.threads.set i pc')[j]? = some pc ∧ pc.registered = true := by
  intro j
  rw [hq, hinv.queue j, getElem?_set_of_getElem? hi]
  split_ifs with hj
  · subst hj
    simp [hi, hr]
  · rfl

/-- A thread not at `asleep` is off the awaiting list. -/
theorem Inv.not_awaiting (hpc : pc ≠ .asleep) : s.tasks.awaiting i = false :=
  Bool.eq_false_iff.2 fun ha => hpc (Option.some_inj.1 (hi.symm.trans (hinv.awaiting i ha)))

/-- A move that leaves the scheduler alone, of a thread off the awaiting list. -/
theorem Inv.awaiting_keep (ht : s''.tasks = s.tasks) (ha : s.tasks.awaiting i = false) :
    ∀ j, s''.tasks.awaiting j = true → (s.threads.set i pc')[j]? = some .asleep := by
  intro j hj
  rw [ht] at hj
  rw [getElem?_set_of_getElem? hi, if_neg (by rintro rfl; simp [ha] at hj)]
  exact hinv.awaiting j hj

/-- A thread holds the spin lock only while it is locked. -/
theorem Inv.locked_of_holds (hh : pc.holds = true) : SpinLock.isLocked s.lock = true := by
  have hpos : 0 < s.threads.countP Pc.holds :=
    List.countP_pos_iff.2 ⟨pc, List.mem_of_getElem? hi, hh⟩
  have h := hinv.held
  cases hl : SpinLock.isLocked s.lock
  · simp only [hl, Bool.false_eq_true, ↓reduceIte] at h
    omega
  · rfl

/-- A move that leaves the spin lock locked or free and keeps the thread holding it or not. -/
theorem Inv.held_keep (hl : SpinLock.isLocked s''.lock = SpinLock.isLocked s.lock)
    (hh : pc'.holds = pc.holds) :
    (s.threads.set i pc').countP Pc.holds = if SpinLock.isLocked s''.lock then 1 else 0 := by
  obtain ⟨n, hn, hn'⟩ := countP_set_split hi Pc.holds pc'
  rw [hn', hh, hl, ← hn]
  exact hinv.held

/-- A move that takes the free spin lock, to a point that holds it. -/
theorem Inv.held_take (hl : SpinLock.isLocked s.lock = false)
    (hl' : SpinLock.isLocked s''.lock = true) (hh : pc'.holds = true) :
    (s.threads.set i pc').countP Pc.holds = if SpinLock.isLocked s''.lock then 1 else 0 := by
  obtain ⟨n, hn, hn'⟩ := countP_set_split hi Pc.holds pc'
  -- no thread held the free lock
  have h0 := hinv.held
  simp only [hl, Bool.false_eq_true, ↓reduceIte, hn] at h0
  simp only [hn', hh, hl', ↓reduceIte]
  omega

/-- A move of the thread that holds the spin lock that frees it, to a point that does not hold
it. -/
theorem Inv.held_release (hh : pc.holds = true) (hl' : SpinLock.isLocked s''.lock = false)
    (hh' : pc'.holds = false) :
    (s.threads.set i pc').countP Pc.holds = if SpinLock.isLocked s''.lock then 1 else 0 := by
  obtain ⟨n, hn, hn'⟩ := countP_set_split hi Pc.holds pc'
  -- the thread was the one holder
  have h1 := hinv.held
  simp only [hn, hh, ↓reduceIte] at h1
  have hn0 : n = 0 := by
    split_ifs at h1
    omega
  simp only [hn', hh', hl', hn0, Bool.false_eq_true, ↓reduceIte]

end Frame

/-- At most one thread holds the spin lock. -/
theorem Inv.holds_unique (hinv : Inv s) {j k : ℕ} {pcj pck : Pc} (hj : s.threads[j]? = some pcj)
    (hhj : pcj.holds = true) (hk : s.threads[k]? = some pck) (hhk : pck.holds = true) : j = k :=
  eq_of_countP_le_one (by rw [hinv.held]; split <;> omega) hj hhj hk hhk

/-- A thread at `pc` that is not registered is not on the queue. -/
theorem Inv.not_mem (hinv : Inv s) (hi : s.threads[i]? = some pc) (hr : pc.registered = false) :
    i ∉ s.queue.tasks := by
  rw [hinv.queue i]
  rintro ⟨pc', hpc', hr'⟩
  rw [hi, Option.some_inj] at hpc'
  subst hpc'
  simp [hr] at hr'

/-- The step of `notify_one` with the spin lock free: it wakes the first registered task, a waiter,
which then tries again; with no task registered, no thread waits. -/
theorem Inv.progress_notify (hinv : Inv s) (hi : s.threads[i]? = some .notify)
    (hl : SpinLock.isLocked s.lock = false) :
    (∃ (j : ℕ) (pc : Pc), (s.threads.set i .done)[j]? = some pc ∧
      pc.ready (s.queue.notifyOne s.tasks).1 j = true) ∨
    ∀ (j : ℕ) (pc : Pc), (s.threads.set i .done)[j]? = some pc → pc.waiting = false := by
  cases hq : s.queue.tasks with
  | nil =>
    -- a waiter is registered, and no task is
    right
    intro j pcj hj
    rw [getElem?_set_of_getElem? hi] at hj
    split_ifs at hj with hji
    · cases hj
      rfl
    · refine Bool.eq_false_iff.2 fun hw => ?_
      have hmem := (hinv.queue j).2 ⟨pcj, hj, Pc.registered_of_waiting hw⟩
      simp [hq] at hmem
  | cons t l =>
    left
    obtain ⟨pct, ht, hrt⟩ := (hinv.queue t).1 (by simp [hq])
    have hti : t ≠ i := by
      rintro rfl
      rw [hi, Option.some_inj] at ht
      subst ht
      simp [Pc.registered] at hrt
    -- the task woken holds no lock, so it waits
    have hht : pct.holds = false :=
      Bool.eq_false_iff.2 fun hh => by simp [hinv.locked_of_holds ht hh] at hl
    refine ⟨t, pct, by rw [getElem?_set_of_getElem? hi, if_neg hti]; exact ht, ?_⟩
    rw [WaitQueue.notifyOne_of_cons hq]
    exact Pc.ready_of_roused (Pc.waiting_of_registered hrt hht) (Tasks.roused_wake _ t)
      fun ha => Option.some_inj.1 (ht.symm.trans (hinv.awaiting t ha))

theorem Inv.step (hinv : Inv s) (h : step s i = some s') : Inv s' := by
  obtain ⟨pc, pc', s'', hi, hm, rfl⟩ := step_cases h
  have hget := getElem?_set_of_getElem? hi pc'
  -- one case for each point, as `move` has them
  cases pc with
  | register =>
    cases hm
    have hni := hinv.not_mem hi rfl
    refine ⟨?_, fun j => ?_, hinv.awaiting_keep hi rfl (hinv.not_awaiting hi (by simp)),
      hinv.held_keep hi rfl rfl, fun _ => Or.inr (Or.inl ⟨i, .attempt, by simp [hget], rfl⟩)⟩
    · exact hinv.nodup.append (List.nodup_singleton i) (by simpa using hni)
    · -- the task joins the queue
      simp only [WaitQueue.addTask, List.mem_append, List.mem_singleton, hget]
      split_ifs with hj
      · simp [hj, Pc.registered]
      · simp [hj, hinv.queue j]
  | attempt =>
    simp only [move] at hm
    cases hok : (SpinLock.tryLock s.lock).1 <;>
      simp only [hok, Bool.false_eq_true, ↓reduceIte, Option.some.injEq, Prod.mk.injEq] at hm <;>
      obtain ⟨rfl, rfl⟩ := hm
    · -- the spin lock is taken: it stays locked
      have hl : SpinLock.isLocked s.lock = true := by simpa using hok
      exact ⟨hinv.nodup, hinv.queue_keep hi rfl rfl,
        hinv.awaiting_keep hi rfl (hinv.not_awaiting hi (by simp)),
        hinv.held_keep hi (by simp [hl]) rfl, fun h => absurd h (by simp)⟩
    · -- the spin lock was free: taken
      have hl : SpinLock.isLocked s.lock = false := by simpa using hok
      exact ⟨hinv.nodup, hinv.queue_keep hi rfl rfl,
        hinv.awaiting_keep hi rfl (hinv.not_awaiting hi (by simp)),
        hinv.held_take hi hl (by simp) rfl, fun h => absurd h (by simp)⟩
  | awaitIo =>
    cases hm
    have hreg : (if s.tasks.pendingIo i then Pc.attempt else .asleep).registered = true := by
      split <;> rfl
    have hhold : (if s.tasks.pendingIo i then Pc.attempt else .asleep).holds = false := by
      split <;> rfl
    refine ⟨hinv.nodup, hinv.queue_keep hi rfl hreg, fun j hj => ?_, hinv.held_keep hi rfl hhold,
      fun ho => ?_⟩
    · -- the sleeper goes on the awaiting list, with no wake pending
      rw [hget]
      rcases Tasks.awaiting_sleep hj with ha | ⟨rfl, hp⟩
      · rw [if_neg fun hji => by subst hji; simp [hinv.not_awaiting hi (by simp)] at ha]
        exact hinv.awaiting j ha
      · simp [hp]
    · rcases hinv.progress ho with ⟨j, hj⟩ | ⟨j, pcj, hj, hr⟩ | hno
      · have hji : j ≠ i := by rintro rfl; simp [hi] at hj
        exact Or.inl ⟨j, by rw [hget, if_neg hji]; exact hj⟩
      · by_cases hji : j = i
        · -- the waiter itself was ready: a wake was pending, and the sleep returns
          subst hji
          rw [hi, Option.some_inj] at hj
          subst hj
          simp only [Pc.ready] at hr
          exact Or.inr (Or.inl ⟨j, .attempt, by rw [hget, if_pos rfl, if_pos hr], rfl⟩)
        · exact Or.inr (Or.inl ⟨j, pcj, by rw [hget, if_neg hji]; exact hj, Pc.ready_sleep hr hji⟩)
      · exact absurd (hno i .awaitIo hi) (by simp [Pc.waiting])
  | asleep =>
    simp only [move] at hm
    split_ifs at hm with ha
    cases hm
    exact ⟨hinv.nodup, hinv.queue_keep hi rfl rfl,
      hinv.awaiting_keep hi rfl (Bool.eq_false_iff.2 ha), hinv.held_keep hi rfl rfl,
      fun _ => Or.inr (Or.inl ⟨i, .attempt, by simp [hget], rfl⟩)⟩
  | deregister =>
    cases hm
    have hmem : i ∈ s.queue.tasks := (hinv.queue i).2 ⟨_, hi, rfl⟩
    refine ⟨hinv.nodup.erase i, fun j => ?_,
      hinv.awaiting_keep hi rfl (hinv.not_awaiting hi (by simp)), hinv.held_keep hi rfl rfl,
      fun hl => by simp [hinv.locked_of_holds hi rfl] at hl⟩
    -- the task leaves the queue, where it was once
    simp only [WaitQueue.removeTask, hget]
    split_ifs with hj
    · subst hj
      simp [hinv.nodup.not_mem_erase, Pc.registered]
    · rw [List.mem_erase_of_ne hj, hinv.queue j]
  | tryLock =>
    simp only [move] at hm
    cases hok : (SpinLock.tryLock s.lock).1 <;>
      simp only [hok, Bool.false_eq_true, ↓reduceIte, Option.some.injEq, Prod.mk.injEq] at hm <;>
      obtain ⟨rfl, rfl⟩ := hm
    · have hl : SpinLock.isLocked s.lock = true := by simpa using hok
      exact ⟨hinv.nodup, hinv.queue_keep hi rfl rfl,
        hinv.awaiting_keep hi rfl (hinv.not_awaiting hi (by simp)),
        hinv.held_keep hi (by simp [hl]) rfl, fun h => absurd h (by simp)⟩
    · have hl : SpinLock.isLocked s.lock = false := by simpa using hok
      exact ⟨hinv.nodup, hinv.queue_keep hi rfl rfl,
        hinv.awaiting_keep hi rfl (hinv.not_awaiting hi (by simp)),
        hinv.held_take hi hl (by simp) rfl, fun h => absurd h (by simp)⟩
  | held =>
    cases hm
    -- the spin lock is released by the thread that held it
    exact ⟨hinv.nodup, hinv.queue_keep hi rfl rfl,
      hinv.awaiting_keep hi rfl (hinv.not_awaiting hi (by simp)),
      hinv.held_release hi rfl (by simp) rfl, fun _ => Or.inl ⟨i, by simp [hget]⟩⟩
  | notify =>
    cases hm
    refine ⟨hinv.nodup, hinv.queue_keep hi rfl rfl, fun j hj => ?_, hinv.held_keep hi rfl rfl,
      fun hl => Or.inr (hinv.progress_notify hi hl)⟩
    have ha := WaitQueue.awaiting_notifyOne hj
    rw [hget, if_neg fun hji => by subst hji; simp [hinv.not_awaiting hi (by simp)] at ha]
    exact hinv.awaiting j ha
  | done => cases hm


/-- A free spin lock, an empty queue, no task on the awaiting list, and every thread at the start
of `lock` or `try_lock`, whatever wakes are pending from earlier runs. -/
theorem inv_of_atStart (hown : SpinLock.isLocked s.lock = false) (hq : s.queue.tasks = [])
    (ha : ∀ j, s.tasks.awaiting j = false) (hstart : ∀ pc ∈ s.threads, pc.atStart = true) :
    Inv s := by
  -- a thread at its start is neither registered, nor holding, nor waiting
  have hfree : ∀ (j : ℕ) (pc : Pc), s.threads[j]? = some pc →
      pc.registered = false ∧ pc.holds = false ∧ pc.waiting = false := by
    intro j pc hj
    have := hstart pc (List.mem_of_getElem? hj)
    cases pc <;> simp_all [Pc.atStart, Pc.registered, Pc.holds, Pc.waiting]
  refine ⟨by simp [hq], fun j => ?_, fun j hj => by simp [ha j] at hj, ?_,
    fun _ => Or.inr (Or.inr fun j pc hj => (hfree j pc hj).2.2)⟩
  · simp only [hq, List.not_mem_nil, false_iff, not_exists, not_and]
    intro pc hj
    simp [(hfree j pc hj).1]
  · rw [hown, if_neg Bool.false_ne_true, List.countP_eq_zero]
    intro pc hpc
    obtain ⟨j, hj⟩ := List.mem_iff_getElem?.1 hpc
    simp [(hfree j pc hj).2.1]

/-- A thread that holds the lock, is about to notify, or is a ready waiter can step. -/
theorem step_isSome (hi : s.threads[i]? = some pc)
    (h : pc.holds = true ∨ pc = .notify ∨ pc.ready s.tasks i = true) : (step s i).isSome := by
  unfold step
  rw [hi, Option.isSome_map]
  rcases h with h | rfl | h
  · cases pc <;> simp_all [Pc.holds, move]
  · rfl
  · cases pc <;> simp_all [Pc.ready, move]

/-- In every interleaving of threads that start at `lock` or `try_lock`, with the spin lock free
and the queue empty: at most one thread holds the mutex; and while a thread waits for it, a thread
can step that holds the lock, is about to notify, or will try the spin lock again without a further
wake. -/
theorem mutex_no_stranded_waiter (hown : SpinLock.isLocked s.lock = false)
    (hq : s.queue.tasks = []) (ha : ∀ j, s.tasks.awaiting j = false)
    (hstart : ∀ pc ∈ s.threads, pc.atStart = true) (sched : List ℕ)
    (h : run step s sched = some s') :
    (∀ (j k : ℕ), (∃ pc : Pc, s'.threads[j]? = some pc ∧ pc.holds = true) →
      (∃ pc : Pc, s'.threads[k]? = some pc ∧ pc.holds = true) → j = k) ∧
    ((∃ (j : ℕ) (pc : Pc), s'.threads[j]? = some pc ∧ pc.waiting = true) →
      ∃ (j : ℕ) (pc : Pc), s'.threads[j]? = some pc ∧ (step s' j).isSome ∧
        (pc.holds = true ∨ pc = .notify ∨ pc.ready s'.tasks j = true)) := by
  have hinv : Inv s' := run_preserves (fun _ _ _ (hc : Inv _) hs => hc.step hs) sched s s'
    (inv_of_atStart hown hq ha hstart) h
  refine ⟨fun j k ⟨pcj, hj, hhj⟩ ⟨pck, hk, hhk⟩ => hinv.holds_unique hj hhj hk hhk,
    fun ⟨j, pc, hj, hw⟩ => ?_⟩
  -- the holder of a locked spin lock can step; with the lock free, the invariant's progress names
  -- a thread
  cases hl : SpinLock.isLocked s'.lock with
  | true =>
    have hpos : 0 < s'.threads.countP Pc.holds := by simp [hinv.held, hl]
    obtain ⟨pck, hmem, hh⟩ := List.countP_pos_iff.1 hpos
    obtain ⟨k, hk⟩ := List.mem_iff_getElem?.1 hmem
    exact ⟨k, pck, hk, step_isSome hk (Or.inl hh), Or.inl hh⟩
  | false =>
    rcases hinv.progress hl with ⟨k, hk⟩ | ⟨k, pck, hk, hr⟩ | hno
    · exact ⟨k, .notify, hk, step_isSome hk (Or.inr (Or.inl rfl)), Or.inr (Or.inl rfl)⟩
    · exact ⟨k, pck, hk, step_isSome hk (Or.inr (Or.inr hr)), Or.inr (Or.inr hr)⟩
    · simp [hno j pc hj] at hw

/-- Two tasks that lock and one that tries the lock once. -/
def twoLockers : Sys Bool :=
  ⟨SpinLock.new, ⟨[]⟩, Tasks.idle, [.register, .register, .tryLock]⟩

/-- Task 0 takes the lock, task 1 goes to sleep on the awaiting list, task 2's `try_lock` fails,
and task 0 releases the spin lock: the sleeper waits, and task 0 can step to `notify_one`. -/
theorem mutex_no_stranded_waiter_twoLockers :
    ∃ s', run step twoLockers [0, 0, 1, 1, 1, 2, 0, 0] = some s' ∧
      s'.threads = [.notify, .asleep, .done] ∧
      ∃ (j : ℕ) (pc : Pc), s'.threads[j]? = some pc ∧ (step s' j).isSome ∧
        (pc.holds = true ∨ pc = .notify ∨ pc.ready s'.tasks j = true) :=
  ⟨_, rfl, rfl, (mutex_no_stranded_waiter (s := twoLockers) rfl rfl (fun _ => rfl) (by decide)
    [0, 0, 1, 1, 1, 2, 0, 0] rfl).2 ⟨1, .asleep, rfl, rfl⟩⟩

end Cykusz.Kernel.Mutex
