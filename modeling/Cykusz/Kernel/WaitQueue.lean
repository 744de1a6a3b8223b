import Mathlib

/-!
# Wait queues and the scheduler's sleep and wake

A task blocks in `Queues::sleep` and becomes runnable again through `Queues::wake`. A wake that
finds the task not on the awaiting list sets the task's `pending_io` flag instead, and the task's
next sleep consumes the flag and returns at once: this is what keeps a wake that comes between a
waiter's last check and its sleep from being lost. A `WaitQueue` is the list of the tasks
registered on it; `notify_all` wakes each of them (`notifyAll_roused`), `notify_one` only the
first (`notifyOne_of_cons`).

Tasks are named by their tid. The model covers sleeps without a timeout in runs where no signal
is delivered, so that a sleep returns `Ok`; the scheduler's per-CPU lock makes each sleep and
each wake one step.
-/

namespace Cykusz.Kernel

/-- The scheduler's state of each task: its `pending_io` flag, and whether it is on the awaiting
list (`TaskState::AwaitingIo`). -/
structure Tasks where
  pendingIo : ℕ → Bool
  awaiting : ℕ → Bool

namespace Tasks

/-- No task asleep and no wake pending. -/
def idle : Tasks := ⟨fun _ => false, fun _ => false⟩

/-- `Queues::wake`: a task on the awaiting list is moved to the runnable list; any other task
gets its `pending_io` set. -/
def wake (ts : Tasks) (t : ℕ) : Tasks :=
  if ts.awaiting t then { ts with awaiting := Function.update ts.awaiting t false }
  else { ts with pendingIo := Function.update ts.pendingIo t true }

/-- `Queues::sleep` of task `t`: a pending wake is consumed and the sleep returns at once;
otherwise the task goes on the awaiting list. -/
def sleep (ts : Tasks) (t : ℕ) : Tasks :=
  if ts.pendingIo t then { ts with pendingIo := Function.update ts.pendingIo t false }
  else { ts with awaiting := Function.update ts.awaiting t true }

/-- After a wake, the task `t` is off the awaiting list, and if it was not on it, its next sleep
returns at once. -/
structure Roused (ts ts' : Tasks) (t : ℕ) : Prop where
  not_awaiting : ts'.awaiting t = false
  pending : ts.awaiting t = false → ts'.pendingIo t = true

variable {ts : Tasks} {t u : ℕ}

theorem wake_of_ne (h : u ≠ t) :
    (ts.wake t).awaiting u = ts.awaiting u ∧ (ts.wake t).pendingIo u = ts.pendingIo u := by
  unfold wake
  split <;> simp [Function.update_of_ne h]

theorem sleep_of_ne (h : u ≠ t) :
    (ts.sleep t).awaiting u = ts.awaiting u ∧ (ts.sleep t).pendingIo u = ts.pendingIo u := by
  unfold sleep
  split <;> simp [Function.update_of_ne h]

/-- A wake puts no task on the awaiting list and takes no pending wake away. -/
theorem wake_mono (ts : Tasks) (t u : ℕ) :
    ((ts.wake t).awaiting u = true → ts.awaiting u = true) ∧
      (ts.pendingIo u = true → (ts.wake t).pendingIo u = true) := by
  unfold wake
  by_cases hu : u = t
  · subst hu
    split <;> simp_all
  · split <;> simp [Function.update_of_ne hu]

theorem roused_wake (ts : Tasks) (t : ℕ) : Roused ts (ts.wake t) t := by
  unfold wake
  cases h : ts.awaiting t <;> exact ⟨by simp [h], by simp [h]⟩

/-- A wake of another task keeps what an earlier wake did to `t`. -/
theorem Roused.wake_of_ne {ts₀ : Tasks} (hr : Roused ts₀ ts t) (h : t ≠ u) :
    Roused ts₀ (ts.wake u) t :=
  ⟨by rw [(Tasks.wake_of_ne h).1]; exact hr.not_awaiting,
    fun h₀ => by rw [(Tasks.wake_of_ne h).2]; exact hr.pending h₀⟩

/-- A second wake of `t` keeps it roused. -/
theorem Roused.wake_self {ts₀ : Tasks} (hr : Roused ts₀ ts t) : Roused ts₀ (ts.wake t) t := by
  have hw := roused_wake ts t
  exact ⟨hw.not_awaiting, fun _ => hw.pending hr.not_awaiting⟩

/-- A sleep with a wake pending leaves the task off the awaiting list. -/
theorem sleep_of_pending (h : ts.pendingIo t = true) :
    ts.sleep t = { ts with pendingIo := Function.update ts.pendingIo t false } := by
  simp [sleep, h]

theorem sleep_of_not_pending (h : ts.pendingIo t = false) :
    ts.sleep t = { ts with awaiting := Function.update ts.awaiting t true } := by
  simp [sleep, h]

/-- The only task a sleep puts on the awaiting list is the sleeper with no wake pending. -/
theorem awaiting_sleep (h : (ts.sleep t).awaiting u = true) :
    ts.awaiting u = true ∨ (u = t ∧ ts.pendingIo t = false) := by
  by_cases hu : u = t
  · subst hu
    cases hp : ts.pendingIo u
    · exact Or.inr ⟨rfl, rfl⟩
    · rw [sleep_of_pending hp] at h
      exact Or.inl h
  · rw [(sleep_of_ne hu).1] at h
    exact Or.inl h

/-- Wakes of other tasks leave `t` as it was, by induction on the list. -/
theorem foldl_wake_of_not_mem {l : List ℕ} (ht : t ∉ l) (ts : Tasks) :
    (l.foldl wake ts).awaiting t = ts.awaiting t ∧
      (l.foldl wake ts).pendingIo t = ts.pendingIo t := by
  induction l generalizing ts with
  | nil => exact ⟨rfl, rfl⟩
  | cons u l ih =>
    simp only [List.mem_cons, not_or] at ht
    rw [List.foldl_cons, (ih ht.2 _).1, (ih ht.2 _).2]
    exact wake_of_ne ht.1

/-- A roused task stays roused through any further wakes. -/
theorem Roused.foldl_wake {ts₀ : Tasks} (hr : Roused ts₀ ts t) (l : List ℕ) :
    Roused ts₀ (l.foldl wake ts) t := by
  induction l generalizing ts with
  | nil => exact hr
  | cons u l ih =>
    rw [List.foldl_cons]
    by_cases hu : t = u
    · subst hu
      exact ih hr.wake_self
    · exact ih (hr.wake_of_ne hu)

/-- Waking a list of tasks in order rouses each task of the list. -/
theorem roused_foldl_wake {l : List ℕ} (ht : t ∈ l) (ts : Tasks) :
    Roused ts (l.foldl wake ts) t := by
  induction l generalizing ts with
  | nil => simp at ht
  | cons u l ih =>
    rw [List.foldl_cons]
    by_cases hu : t = u
    · subst hu
      exact (roused_wake ts t).foldl_wake l
    · have hr := ih (List.mem_of_ne_of_mem hu ht) (ts.wake u)
      exact ⟨hr.not_awaiting, fun h => hr.pending (by rw [(wake_of_ne hu).1]; exact h)⟩

end Tasks

/-- A `WaitQueue`: the tids of the tasks registered on it, in order. -/
structure WaitQueue where
  tasks : List ℕ
deriving DecidableEq, Repr

namespace WaitQueue

/-- `WaitQueue::add_task`. -/
def addTask (q : WaitQueue) (t : ℕ) : WaitQueue := ⟨q.tasks ++ [t]⟩

/-- `WaitQueue::remove_task`: the first registration of the tid goes. -/
def removeTask (q : WaitQueue) (t : ℕ) : WaitQueue := ⟨q.tasks.erase t⟩

/-- `WaitQueue::is_empty`. -/
def isEmpty (q : WaitQueue) : Bool := q.tasks.isEmpty

/-- `WaitQueue::notify_one`: the first task registered is woken; whether there was one. -/
def notifyOne (q : WaitQueue) (ts : Tasks) : Tasks × Bool :=
  match q.tasks with
  | [] => (ts, false)
  | t :: _ => (ts.wake t, true)

/-- `WaitQueue::notify_all`: every task registered is woken in order; whether there was one. -/
def notifyAll (q : WaitQueue) (ts : Tasks) : Tasks × Bool :=
  (q.tasks.foldl Tasks.wake ts, !q.tasks.isEmpty)

variable {q : WaitQueue} {ts : Tasks} {t : ℕ}

/-- `notify_all` rouses every task registered on the queue. -/
theorem notifyAll_roused (ht : t ∈ q.tasks) : Tasks.Roused ts (q.notifyAll ts).1 t :=
  Tasks.roused_foldl_wake ht ts

/-- `notify_all` leaves a task that is not registered as it was. -/
theorem notifyAll_of_not_mem (ht : t ∉ q.tasks) :
    (q.notifyAll ts).1.awaiting t = ts.awaiting t ∧
      (q.notifyAll ts).1.pendingIo t = ts.pendingIo t :=
  Tasks.foldl_wake_of_not_mem ht ts

/-- `notify_one` wakes the first task registered and no other. -/
theorem notifyOne_of_cons {l : List ℕ} (hq : q.tasks = t :: l) :
    q.notifyOne ts = (ts.wake t, true) := by
  simp [notifyOne, hq]

/-- `notify_one` puts no task on the awaiting list. -/
theorem awaiting_notifyOne {u : ℕ} (h : (q.notifyOne ts).1.awaiting u = true) :
    ts.awaiting u = true := by
  unfold notifyOne at h
  split at h
  · exact h
  · exact (Tasks.wake_mono ts _ u).1 h

end WaitQueue

end Cykusz.Kernel
