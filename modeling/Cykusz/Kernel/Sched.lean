import Mathlib
import Cykusz.Kernel.WaitQueue
import Cykusz.Lib.Simulation

/-!
# The round-robin run queues

The per-CPU `Queues` of the round-robin scheduler link each task into at most one of four
intrusive lists, `runnable`, `deadline_awaiting`, `awaiting` and `stopped`, chosen by the task's
state and by its `sleep_until`. Every operation runs under the per-CPU lock, so each is one step
of a state machine over the lists, the per-task fields and the current task.

The lists agree with the task states (`Matches`) from boot on, and every operation keeps that
agreement (`matches_step`, `queues_match_states`), but one: `queue_task` of the running task,
which the kernel only calls on tasks it has just created. A sleep whose deadline wraps to zero
puts the task on the deadline list with `sleep_until` 0, but the `schedule_next` of the same
sleep wakes it at once. A wake of a task that is not asleep sets its `pending_io`, no other step
clears it, and the task's next sleep returns at once (`wake_then_sleep_returns`). A sleep without
a deadline and a wake are the steps of the abstract `Tasks` of the wait queues (`sleep_refines`,
`wake_refines`).

`wake_as_next` of a runnable task removes it from the runnable list through
`cursor_mut_from_ptr`, whose contract is that the task is on that list. The running task is
runnable and on no list, so a `wake_as_next` that reaches it, as the IPI of a thread's `exec` does
when the process leader runs on its own CPU, breaks that contract (`wake_as_next_running`).

Tasks are named by their tid. `current_ns` is an argument of the steps that read it, and the
signal checks of `sleep` are one flag.
-/

namespace Cykusz.Kernel.Sched

open Simulation

/-- `TaskState`. -/
inductive TaskState
  | unused
  | idle
  | runnable
  | awaitingIo
  | stopped
deriving DecidableEq

/-- The fields of a `Task` that the queues read and write. -/
structure Task where
  state : TaskState
  sleepUntil : BitVec 64
  pendingIo : Bool
  leader : Bool
deriving DecidableEq

/-- The record of a task that `schedule_check_deadline` wakes. -/
def Task.woken (x : Task) : Task := { x with state := .runnable, sleepUntil := 0 }

/-- The four intrusive lists of `Queues`. -/
inductive Queue
  | runnable
  | deadlineAwaiting
  | awaiting
  | stopped
deriving DecidableEq

/-- The per-CPU `Queues`, with the CPU's `CURRENT_TASK` and the task records. -/
@[ext]
structure Queues where
  idleTask : ℕ
  lists : Queue → List ℕ
  tasks : ℕ → Task
  current : ℕ

namespace Queues

/-- `task.sched.is_linked()`. -/
def linked (q : Queues) (t : ℕ) : Prop :=
  t ∈ q.lists .runnable ∨ t ∈ q.lists .deadlineAwaiting ∨ t ∈ q.lists .awaiting ∨
    t ∈ q.lists .stopped

instance (q : Queues) (t : ℕ) : Decidable (q.linked t) :=
  inferInstanceAs (Decidable (_ ∨ _))

def setTask (q : Queues) (t : ℕ) (x : Task) : Queues :=
  { q with tasks := Function.update q.tasks t x }

def setList (q : Queues) (l : Queue) (xs : List ℕ) : Queues :=
  { q with lists := Function.update q.lists l xs }

/-- The `push_*` helpers: assert that the task is on no list and is not the idle task, store its
new record, and link it at the back, or the front, of list `l`. -/
def push (q : Queues) (l : Queue) (front : Bool) (x : Task) (t : ℕ) : Option Queues :=
  if q.linked t ∨ t = q.idleTask then none
  else some ((q.setTask t x).setList l (if front then t :: q.lists l else q.lists l ++ [t]))

/-- `push_awaiting`. -/
def pushAwaiting (q : Queues) (t : ℕ) : Option Queues :=
  q.push .awaiting false { q.tasks t with state := .awaitingIo, sleepUntil := 0 } t

/-- `push_stopped`. -/
def pushStopped (q : Queues) (t : ℕ) : Option Queues :=
  q.push .stopped false { q.tasks t with state := .stopped } t

/-- `push_deadline_awaiting`: the task sleeps until `current_ns() + time_ns`, in `usize`. -/
def pushDeadlineAwaiting (q : Queues) (t : ℕ) (now timeNs : BitVec 64) : Option Queues :=
  q.push .deadlineAwaiting false
    { q.tasks t with state := .awaitingIo, sleepUntil := now + timeNs } t

/-- `push_runnable`. -/
def pushRunnable (q : Queues) (t : ℕ) : Option Queues :=
  q.push .runnable false { q.tasks t with state := .runnable } t

/-- `push_runnable_front`. -/
def pushRunnableFront (q : Queues) (t : ℕ) : Option Queues :=
  q.push .runnable true { q.tasks t with state := .runnable } t

/-- `l.cursor_mut_from_ptr(t)` and `remove`. The call is unsafe: it is only defined when `t` is
linked in `l`, and `none` stands for the other case. -/
def cursorRemove (q : Queues) (l : Queue) (t : ℕ) : Option Queues :=
  if t ∈ q.lists l then some (q.setList l ((q.lists l).erase t)) else none

/-- A task whose deadline has passed at `time`. -/
def expired (q : Queues) (time : BitVec 64) (t : ℕ) : Bool :=
  (q.tasks t).sleepUntil ≤ time

/-- The cursor loop of `schedule_check_deadline` over the deadline list: an expired task is
removed, made runnable with `sleep_until` 0 and pushed at the back of the runnable list; the
others are kept in order. -/
def checkLoop (time : BitVec 64) : List ℕ → Queues → List ℕ × Queues
  | [], q => ([], q)
  | t :: xs, q =>
    if q.expired time t then
      checkLoop time xs
        ((q.setTask t (q.tasks t).woken).setList .runnable (q.lists .runnable ++ [t]))
    else
      let r := checkLoop time xs q
      (t :: r.1, r.2)

/-- `schedule_check_deadline`, at the time `current_ns()` returns. -/
def scheduleCheckDeadline (q : Queues) (time : BitVec 64) : Queues :=
  if q.lists .deadlineAwaiting = [] then q
  else
    let r := checkLoop time (q.lists .deadlineAwaiting) q
    r.2.setList .deadlineAwaiting r.1

/-- The task `schedule_next` switches to, and the queues once it is off the runnable list: the
front of the runnable list, or else the current task if it may run on, or else the idle task. -/
def pickNext (q : Queues) : ℕ × Queues :=
  match q.lists .runnable with
  | t :: rest => (t, q.setList .runnable rest)
  | [] =>
    (if q.current ≠ q.idleTask ∧ (q.tasks q.current).state = .runnable then q.current
      else q.idleTask, q)

/-- Put the current task back on the runnable list if it is not the task switched to, is on no
list and is runnable. -/
def requeueCurrent (q : Queues) (next : ℕ) : Option Queues :=
  if q.current ≠ next ∧ ¬ q.linked q.current ∧ (q.tasks q.current).state = .runnable then
    q.pushRunnable q.current
  else some q

/-- `schedule_next`: expire deadlines, pick the next task, requeue the current task, and switch. -/
def scheduleNext (q : Queues) (time : BitVec 64) : Option Queues :=
  let r := pickNext (q.scheduleCheckDeadline time)
  (requeueCurrent r.2 r.1).map fun q' => { q' with current := r.1 }

/-- `queue_task`. -/
def queueTask (q : Queues) (t : ℕ) : Option Queues :=
  q.pushRunnable t

/-- `sleep` of the current task, with or without a deadline: a pending wake is consumed and the
sleep returns; a pending signal (`interrupted`) makes it return; otherwise the task goes on the
deadline list or the awaiting list and the CPU reschedules. -/
def sleep (q : Queues) (timeNs : Option (BitVec 64)) (interrupted : Bool) (time : BitVec 64) :
    Option Queues :=
  let t := q.current
  if (q.tasks t).pendingIo then some (q.setTask t { q.tasks t with pendingIo := false })
  else if interrupted then some q
  else if t = q.idleTask then none
  else do
    let q' ← match timeNs with
      | some ns => q.pushDeadlineAwaiting t time ns
      | none => q.pushAwaiting t
    q'.scheduleNext time

/-- The list a sleeping task is looked up in: by `sleep_until > 0`. -/
def sleepList (q : Queues) (t : ℕ) : Queue :=
  if (q.tasks t).sleepUntil > 0 then .deadlineAwaiting else .awaiting

/-- Set `has_pending_io`. -/
def setPending (q : Queues) (t : ℕ) : Queues :=
  q.setTask t { q.tasks t with pendingIo := true }

/-- `wake`: a sleeping task is moved to the back of the runnable list; any other task has its
`pending_io` set. -/
def wake (q : Queues) (t : ℕ) : Option Queues :=
  if (q.tasks t).state = .awaitingIo then do
    let q' ← q.cursorRemove (q.sleepList t) t
    q'.pushRunnable t
  else some (q.setPending t)

/-- `wake_as_next`: a sleeping task is moved to the front of the runnable list; a runnable task
has its `pending_io` set and is moved to the front of the runnable list; any other task has its
`pending_io` set. -/
def wakeAsNext (q : Queues) (t : ℕ) : Option Queues :=
  if (q.tasks t).state = .awaitingIo then do
    let q' ← q.cursorRemove (q.sleepList t) t
    q'.pushRunnableFront t
  else if (q.tasks t).state = .runnable then do
    let q' ← (q.setPending t).cursorRemove .runnable t
    q'.pushRunnableFront t
  else some (q.setPending t)

/-- `stop` of the current task. -/
def stop (q : Queues) (time : BitVec 64) : Option Queues :=
  if q.current = q.idleTask then none
  else do
    let q' ← q.pushStopped q.current
    q'.scheduleNext time

/-- `cont`: a stopped task, which must be linked, goes to the front of the runnable list; any
other task is woken. -/
def cont (q : Queues) (t : ℕ) : Option Queues :=
  if (q.tasks t).state = .stopped then
    if ¬ q.linked t then none
    else do
      let q' ← q.cursorRemove .stopped t
      q'.pushRunnableFront t
  else q.wake t

/-- `exit` and `exit_thread` of the current task: it becomes unused, it must be on no list and be
a process leader (`exit`) or not (`exit_thread`), and the CPU reschedules. -/
def exitWith (leader : Bool) (q : Queues) (time : BitVec 64) : Option Queues :=
  let t := q.current
  let q' := q.setTask t { q.tasks t with state := .unused }
  if q'.linked t ∨ (q'.tasks t).leader ≠ leader then none
  else q'.scheduleNext time

/-- `exit`. -/
def exit (q : Queues) (time : BitVec 64) : Option Queues :=
  q.exitWith true time

/-- `exit_thread`. -/
def exitThread (q : Queues) (time : BitVec 64) : Option Queues :=
  q.exitWith false time

end Queues

/-- The operations of `Queues`, each under the per-CPU lock. -/
inductive Op
  | queueTask (t : ℕ)
  | reschedule (time : BitVec 64)
  | sleep (timeNs : Option (BitVec 64)) (interrupted : Bool) (time : BitVec 64)
  | wake (t : ℕ)
  | wakeAsNext (t : ℕ)
  | stop (time : BitVec 64)
  | cont (t : ℕ)
  | exit (time : BitVec 64)
  | exitThread (time : BitVec 64)

/-- One operation on the queues. -/
def step (q : Queues) : Op → Option Queues
  | .queueTask t => q.queueTask t
  | .reschedule time => q.scheduleNext time
  | .sleep timeNs interrupted time => q.sleep timeNs interrupted time
  | .wake t => q.wake t
  | .wakeAsNext t => q.wakeAsNext t
  | .stop time => q.stop time
  | .cont t => q.cont t
  | .exit time => q.exit time
  | .exitThread time => q.exitThread time

/-! ## The lists a task belongs on -/

namespace Task

/-- The list a task's record puts it on: runnable, asleep with a deadline (`sleep_until > 0`) or
without, stopped, or none. -/
def home (x : Task) : Option Queue :=
  match x.state with
  | .runnable => some .runnable
  | .awaitingIo => some (if x.sleepUntil > 0 then .deadlineAwaiting else .awaiting)
  | .stopped => some .stopped
  | .unused | .idle => none

/-- How many times the record puts the task on list `l`. -/
def slot (x : Task) (l : Queue) : ℕ := if x.home = some l then 1 else 0

theorem slot_le_one (x : Task) (l : Queue) : x.slot l ≤ 1 := by
  unfold slot
  split <;> omega

theorem slot_of_home {x : Task} {l : Queue} (h : x.home = some l) (l' : Queue) :
    x.slot l' = if l' = l then 1 else 0 := by
  simp only [slot, h, Option.some.injEq, eq_comm]

@[simp] theorem home_woken (x : Task) : x.woken.home = some .runnable := rfl

theorem state_of_home_runnable {x : Task} (h : x.home = some .runnable) : x.state = .runnable := by
  cases hs : x.state with
  | runnable => rfl
  | awaitingIo =>
    simp only [home, hs, Option.some.injEq] at h
    split at h <;> cases h
  | _ => simp [home, hs] at h

end Task

namespace Queues

variable {q q' q₁ : Queues} {t u : ℕ} {l l' : Queue} {x : Task} {front : Bool}

@[simp] theorem lists_setTask : (q.setTask t x).lists = q.lists := rfl
@[simp] theorem tasks_setTask : (q.setTask t x).tasks = Function.update q.tasks t x := rfl
@[simp] theorem current_setTask : (q.setTask t x).current = q.current := rfl
@[simp] theorem idleTask_setTask : (q.setTask t x).idleTask = q.idleTask := rfl
@[simp] theorem lists_setList {xs : List ℕ} :
    (q.setList l xs).lists = Function.update q.lists l xs := rfl
@[simp] theorem tasks_setList {xs : List ℕ} : (q.setList l xs).tasks = q.tasks := rfl
@[simp] theorem current_setList {xs : List ℕ} : (q.setList l xs).current = q.current := rfl
@[simp] theorem idleTask_setList {xs : List ℕ} : (q.setList l xs).idleTask = q.idleTask := rfl

/-- Each list holds task `t` as often as its record puts it there. -/
def Agrees (q : Queues) (t : ℕ) : Prop := ∀ l, (q.lists l).count t = (q.tasks t).slot l

/-- Task `t` is on no list. -/
def Unlinked (q : Queues) (t : ℕ) : Prop := ∀ l, (q.lists l).count t = 0

theorem not_linked_iff : ¬ q.linked t ↔ q.Unlinked t := by
  simp only [linked, Unlinked, List.count_eq_zero, not_or]
  constructor
  · rintro ⟨h₁, h₂, h₃, h₄⟩ l
    cases l <;> assumption
  · intro h
    exact ⟨h _, h _, h _, h _⟩

theorem Agrees.unlinked (h : q.Agrees t) (hx : (q.tasks t).home = none) : q.Unlinked t := by
  intro l
  rw [h l, Task.slot, hx, if_neg nofun]

theorem Unlinked.agrees (h : q.Unlinked t) (hx : (q.tasks t).home = none) : q.Agrees t := by
  intro l
  rw [h l, Task.slot, hx, if_neg nofun]

theorem Agrees.count_le_one (h : q.Agrees t) (l : Queue) : (q.lists l).count t ≤ 1 :=
  (h l).symm ▸ Task.slot_le_one _ l

theorem push_spec (h : q.push l front x t = some q') :
    q.Unlinked t ∧ t ≠ q.idleTask ∧ q'.current = q.current ∧ q'.idleTask = q.idleTask ∧
      (∀ u, q'.tasks u = if u = t then x else q.tasks u) ∧
      ∀ l' u, (q'.lists l').count u = (q.lists l').count u + if l' = l ∧ u = t then 1 else 0 := by
  unfold push at h
  split at h
  · cases h
  · rename_i hn
    rw [not_or] at hn
    obtain rfl := Option.some_injective _ h
    refine ⟨not_linked_iff.1 hn.1, hn.2, rfl, rfl, fun u => Function.update_apply _ _ _ _,
      fun l' u => ?_⟩
    by_cases hl : l' = l
    · subst hl
      simp only [lists_setList, Function.update_self, true_and]
      rcases eq_or_ne u t with rfl | hu
      · cases front <;> simp
      · cases front <;> simp [hu, hu.symm]
    · simp [hl]

theorem push_lists_of_ne (h : q.push l front x t = some q') (hl : l' ≠ l) :
    q'.lists l' = q.lists l' := by
  unfold push at h
  split at h
  · cases h
  · obtain rfl := Option.some_injective _ h
    simp [Function.update_of_ne hl]

theorem cursorRemove_spec (h : q.cursorRemove l t = some q') :
    t ∈ q.lists l ∧ q'.current = q.current ∧ q'.idleTask = q.idleTask ∧ q'.tasks = q.tasks ∧
      ∀ l' u, (q'.lists l').count u = (q.lists l').count u - if l' = l ∧ u = t then 1 else 0 := by
  unfold cursorRemove at h
  split at h
  · rename_i hm
    obtain rfl := Option.some_injective _ h
    refine ⟨hm, rfl, rfl, rfl, fun l' u => ?_⟩
    by_cases hl : l' = l
    · subst hl
      simp only [lists_setList, Function.update_self, true_and, List.count_erase]
      rcases eq_or_ne u t with rfl | hu
      · simp
      · simp [hu, hu.symm]
    · simp [hl]
  · cases h

/-- The queues once the deadline loop has run over `xs`: every expired task of `xs` woken and
appended, in order, to the runnable list. -/
def wakeExpired (q : Queues) (time : BitVec 64) (xs : List ℕ) : Queues :=
  { q with
    tasks := fun u => if u ∈ xs ∧ q.expired time u then (q.tasks u).woken else q.tasks u
    lists := Function.update q.lists .runnable (q.lists .runnable ++ xs.filter (q.expired time)) }

theorem wakeExpired_nil (time : BitVec 64) : q.wakeExpired time [] = q :=
  Queues.ext rfl (by simp [wakeExpired]) (by simp [wakeExpired]) rfl

theorem expired_setTask_of_ne (time : BitVec 64) (h : u ≠ t) :
    (q.setTask t x).expired time u = q.expired time u := by
  simp [expired, Function.update_of_ne h]

/-- The cursor loop, over a list without repeats, keeps the tasks that have not expired and wakes
the others. -/
theorem checkLoop_eq (time : BitVec 64) :
    ∀ (xs : List ℕ) (q : Queues), xs.Nodup →
      checkLoop time xs q = (xs.filter (fun t => !q.expired time t), q.wakeExpired time xs)
  | [], q, _ => by rw [checkLoop, List.filter_nil, wakeExpired_nil]
  | t :: xs, q, hn => by
    rw [List.nodup_cons] at hn
    have hne : ∀ u ∈ xs, u ≠ t := fun u hu h => hn.1 (h ▸ hu)
    by_cases he : q.expired time t = true
    · rw [checkLoop, if_pos he, checkLoop_eq time xs _ hn.2]
      have hexp : ∀ u ∈ xs, ((q.setTask t (q.tasks t).woken).setList .runnable
          (q.lists .runnable ++ [t])).expired time u = q.expired time u :=
        fun u hu => expired_setTask_of_ne time (hne u hu)
      refine Prod.ext ?_ ?_
      · simp only [List.filter_cons, he, Bool.not_true, Bool.false_eq_true, if_false]
        exact List.filter_congr fun u hu => by rw [hexp u hu]
      · refine Queues.ext rfl (funext fun l => ?_) (funext fun u => ?_) rfl
        · by_cases hl : l = .runnable
          · subst hl
            simp only [wakeExpired, Function.update_self, lists_setList, lists_setTask,
              List.filter_cons, he, if_true, List.append_assoc, List.singleton_append]
            rw [List.filter_congr fun u hu => hexp u hu]
          · simp [wakeExpired, Function.update_of_ne hl]
        · simp only [wakeExpired, tasks_setList, tasks_setTask, List.mem_cons]
          by_cases hu : u = t
          · subst hu
            simp [hn.1, he]
          · simp [hu, expired]
    · rw [checkLoop, if_neg he, checkLoop_eq time xs _ hn.2]
      refine Prod.ext ?_ ?_
      · simp [he]
      · refine Queues.ext rfl (funext fun l => ?_) (funext fun u => ?_) rfl
        · by_cases hl : l = .runnable
          · subst hl
            simp [wakeExpired, he]
          · simp [wakeExpired, Function.update_of_ne hl]
        · simp only [wakeExpired, List.mem_cons]
          by_cases hu : u = t
          · subst hu
            simp [hn.1, he]
          · simp [hu]

theorem scheduleCheckDeadline_eq (time : BitVec 64) (hD : (q.lists .deadlineAwaiting).Nodup) :
    q.scheduleCheckDeadline time =
      (q.wakeExpired time (q.lists .deadlineAwaiting)).setList .deadlineAwaiting
        ((q.lists .deadlineAwaiting).filter fun t => !q.expired time t) := by
  unfold scheduleCheckDeadline
  split
  · rename_i h
    rw [h, List.filter_nil, wakeExpired_nil]
    refine Queues.ext rfl (funext fun l => ?_) rfl rfl
    by_cases hl : l = .deadlineAwaiting
    · subst hl
      simp [h]
    · simp [Function.update_of_ne hl]
  · rw [checkLoop_eq time _ q hD]

theorem count_filter_eq {p : ℕ → Bool} (xs : List ℕ) (u : ℕ) :
    (xs.filter p).count u = if p u then xs.count u else 0 := by
  split
  · exact List.count_filter ‹_›
  · exact List.count_eq_zero.2 fun h => by simp_all [List.mem_filter]

section CheckDeadline

variable (time : BitVec 64) (hD : (q.lists .deadlineAwaiting).Nodup)
include hD

/-- A task that the deadline check does not wake keeps its record and its place. -/
theorem check_of_not_woken (h : ¬ (u ∈ q.lists .deadlineAwaiting ∧ q.expired time u)) :
    (q.scheduleCheckDeadline time).tasks u = q.tasks u ∧
      ∀ l, ((q.scheduleCheckDeadline time).lists l).count u = (q.lists l).count u := by
  rw [scheduleCheckDeadline_eq time hD]
  have hz : (q.lists .deadlineAwaiting).count u = 0 ∨ q.expired time u = false := by
    by_cases hm : u ∈ q.lists .deadlineAwaiting
    · exact .inr (by simpa [hm] using h)
    · exact .inl (List.count_eq_zero.2 hm)
  refine ⟨by simp [wakeExpired, h], fun l => ?_⟩
  cases l <;> rcases hz with hz | hz <;> simp [wakeExpired, count_filter_eq, hz]

/-- A task that the deadline check wakes leaves the deadline list for the runnable list. -/
theorem check_of_woken (h : u ∈ q.lists .deadlineAwaiting ∧ q.expired time u) :
    (q.scheduleCheckDeadline time).tasks u = (q.tasks u).woken ∧
      ∀ l, ((q.scheduleCheckDeadline time).lists l).count u =
        if l = .runnable then (q.lists .runnable).count u + (q.lists .deadlineAwaiting).count u
        else if l = .deadlineAwaiting then 0 else (q.lists l).count u := by
  rw [scheduleCheckDeadline_eq time hD]
  refine ⟨by simp [wakeExpired, h], fun l => ?_⟩
  cases l <;> simp [wakeExpired, count_filter_eq, h.2]

theorem Unlinked.check (h : q.Unlinked u) :
    (q.scheduleCheckDeadline time).tasks u = q.tasks u ∧
      (q.scheduleCheckDeadline time).Unlinked u := by
  have hn : ¬ (u ∈ q.lists .deadlineAwaiting ∧ q.expired time u) :=
    fun hm => List.count_eq_zero.1 (h _) hm.1
  obtain ⟨ht, hc⟩ := check_of_not_woken time hD hn
  exact ⟨ht, fun l => (hc l).trans (h l)⟩

end CheckDeadline

theorem Agrees.of_eq (h : q.Agrees u) (ht : q'.tasks u = q.tasks u)
    (hc : ∀ l, (q'.lists l).count u = (q.lists l).count u) : q'.Agrees u := fun l => by
  rw [hc l, ht, h l]

theorem Agrees.home_of_mem (h : q.Agrees u) (hm : u ∈ q.lists l) : (q.tasks u).home = some l := by
  have h₁ := h l
  have h₂ := List.count_pos_iff.2 hm
  unfold Task.slot at h₁
  split at h₁ <;> simp_all

theorem Agrees.count_of_home (h : q.Agrees u) (hx : (q.tasks u).home = some l) (l' : Queue) :
    (q.lists l').count u = if l' = l then 1 else 0 := by
  rw [h l', Task.slot_of_home hx]

theorem Agrees.push_other (h : q.Agrees u) (hp : q.push l front x t = some q') (hu : u ≠ t) :
    q'.Agrees u := by
  obtain ⟨-, -, -, -, ht, hc⟩ := push_spec hp
  exact h.of_eq (by rw [ht, if_neg hu]) fun l' => by rw [hc, if_neg fun h => hu h.2, Nat.add_zero]

theorem push_agrees (hp : q.push l front x t = some q') (hx : x.home = some l) : q'.Agrees t := by
  obtain ⟨hu, -, -, -, ht, hc⟩ := push_spec hp
  intro l'
  rw [hc, hu l', ht, if_pos rfl, Task.slot_of_home hx]
  by_cases hl : l' = l <;> simp [hl]

theorem Unlinked.push_other (h : q.Unlinked u) (hp : q.push l front x t = some q') (hu : u ≠ t) :
    q'.Unlinked u := by
  obtain ⟨-, -, -, -, -, hc⟩ := push_spec hp
  intro l'
  rw [hc, if_neg fun h => hu h.2, Nat.add_zero, h l']

/-- Task `t` has just gone on the deadline list with `sleep_until` 0, where `current_ns() +
time_ns` wraps to zero. -/
def Expiring (q : Queues) (t : ℕ) : Prop :=
  (q.tasks t).state = .awaitingIo ∧ (q.tasks t).sleepUntil = 0 ∧
    ∀ l, (q.lists l).count t = if l = .deadlineAwaiting then 1 else 0

/-- Task `t` may run on: it is runnable, on no list, and not the idle task. -/
def Running (q : Queues) (t : ℕ) : Prop :=
  q.Unlinked t ∧ (q.tasks t).state = .runnable ∧ t ≠ q.idleTask

theorem Expiring.count_le_one (h : q.Expiring t) (l : Queue) : (q.lists l).count t ≤ 1 := by
  rw [h.2.2 l]
  split <;> omega

theorem Agrees.check (time : BitVec 64) (hD : (q.lists .deadlineAwaiting).Nodup)
    (h : q.Agrees u ∨ q.Expiring u) : (q.scheduleCheckDeadline time).Agrees u := by
  by_cases hw : u ∈ q.lists .deadlineAwaiting ∧ q.expired time u
  · obtain ⟨ht, hc⟩ := check_of_woken time hD hw
    have h₁ : ∀ l, (q.lists l).count u = if l = .deadlineAwaiting then 1 else 0 := by
      rcases h with h | h
      · exact h.count_of_home (h.home_of_mem hw.1)
      · exact h.2.2
    intro l
    rw [hc l, ht, Task.slot_of_home (Task.home_woken _)]
    cases l <;> simp [h₁]
  · obtain ⟨ht, hc⟩ := check_of_not_woken time hD hw
    rcases h with h | h
    · exact h.of_eq ht hc
    · refine absurd ⟨List.count_pos_iff.1 ?_, ?_⟩ hw
      · rw [h.2.2]
        simp
      · simp [expired, h.2.1, BitVec.le_def]

/-- The queues as `schedule_next` finds them: every task but the current one agrees with the
lists, and the current task agrees with them, or has just gone on the deadline list with
`sleep_until` 0, or may run on. -/
structure Ready (q : Queues) : Prop where
  agrees : ∀ t, t ≠ q.current → q.Agrees t
  current : q.Agrees q.current ∨ q.Expiring q.current ∨ q.Running q.current
  idle_home : (q.tasks q.idleTask).home = none

/-- The queues once the deadlines are checked. -/
structure Settled (q : Queues) : Prop where
  agrees : ∀ t, t ≠ q.current → q.Agrees t
  current : q.Agrees q.current ∨ q.Running q.current
  idle_home : (q.tasks q.idleTask).home = none

/-- The lists agree with the task states: each task is on the list its state names, once, the
running task on none. -/
structure Matches (q : Queues) : Prop where
  agrees : ∀ t, t ≠ q.current → q.Agrees t
  current : q.Unlinked q.current
  current_state : q.current = q.idleTask ∨ (q.tasks q.current).state = .runnable
  idle_home : (q.tasks q.idleTask).home = none

theorem Ready.count_le_one (h : q.Ready) (l : Queue) (u : ℕ) : (q.lists l).count u ≤ 1 := by
  by_cases hu : u = q.current
  · subst hu
    rcases h.current with hc | hc | hc
    · exact hc.count_le_one l
    · exact hc.count_le_one l
    · rw [hc.1 l]
      omega
  · exact (h.agrees u hu).count_le_one l

theorem Ready.idle_unlinked (h : q.Ready) : q.Unlinked q.idleTask := by
  by_cases hi : q.idleTask = q.current
  · rcases h.current with hc | hc | hc
    · exact hi ▸ hc.unlinked (hi ▸ h.idle_home)
    · have := hi ▸ h.idle_home
      simp [Task.home, hc.1] at this
    · exact absurd hi.symm hc.2.2
  · exact (h.agrees _ hi).unlinked h.idle_home

/-- Checking the deadlines wakes the current task if it had just gone on the deadline list with
`sleep_until` 0, and keeps every other task in agreement. -/
theorem Ready.check (h : q.Ready) (time : BitVec 64) : (q.scheduleCheckDeadline time).Settled := by
  have hD : (q.lists .deadlineAwaiting).Nodup :=
    List.nodup_iff_count_le_one.2 (h.count_le_one _)
  have hcur : (q.scheduleCheckDeadline time).current = q.current := by
    rw [scheduleCheckDeadline_eq time hD]
    rfl
  have hidle : (q.scheduleCheckDeadline time).idleTask = q.idleTask := by
    rw [scheduleCheckDeadline_eq time hD]
    rfl
  refine ⟨fun t ht => Agrees.check time hD (.inl (h.agrees t (hcur ▸ ht))), ?_, ?_⟩
  · rw [hcur]
    rcases h.current with hc | hc | hc
    · exact .inl (Agrees.check time hD (.inl hc))
    · exact .inl (Agrees.check time hD (.inr hc))
    · obtain ⟨ht, hu⟩ := Unlinked.check time hD hc.1
      exact .inr ⟨hu, by rw [ht]; exact hc.2.1, by rw [hidle]; exact hc.2.2⟩
  · rw [hidle, (Unlinked.check time hD h.idle_unlinked).1]
    exact h.idle_home

theorem pickNext_cons {rest : List ℕ} (hr : q.lists .runnable = t :: rest) :
    q.pickNext = (t, q.setList .runnable rest) := by
  simp only [pickNext, hr]

theorem pickNext_nil (hr : q.lists .runnable = []) :
    q.pickNext = (if q.current ≠ q.idleTask ∧ (q.tasks q.current).state = .runnable then q.current
      else q.idleTask, q) := by
  simp only [pickNext, hr]

theorem count_pop {rest : List ℕ} (hr : q.lists .runnable = t :: rest) (l : Queue) (u : ℕ) :
    ((q.setList .runnable rest).lists l).count u =
      (q.lists l).count u - if l = .runnable ∧ u = t then 1 else 0 := by
  by_cases hl : l = .runnable
  · subst hl
    rw [lists_setList, Function.update_self, hr, List.count_cons]
    rcases eq_or_ne u t with rfl | hu
    · simp
    · simp [hu, Ne.symm hu]
  · simp [hl]

theorem requeueCurrent_cases {n : ℕ} (hq : q.requeueCurrent n = some q') :
    (q.current ≠ n ∧ q.Unlinked q.current ∧ (q.tasks q.current).state = .runnable ∧
        q.pushRunnable q.current = some q') ∨
      (¬ (q.current ≠ n ∧ q.Unlinked q.current ∧ (q.tasks q.current).state = .runnable) ∧
        q' = q) := by
  unfold requeueCurrent at hq
  split at hq
  · rename_i hc
    exact .inl ⟨hc.1, not_linked_iff.1 hc.2.1, hc.2.2, hq⟩
  · rename_i hc
    exact .inr ⟨fun h' => hc ⟨h'.1, not_linked_iff.2 h'.2.1, h'.2.2⟩,
      (Option.some_injective _ hq).symm⟩

/-- From settled queues, picking the next task, requeueing the current one and switching leaves
the lists in agreement with the task states. -/
theorem Settled.switch (h : q.Settled) (hq : q.pickNext.2.requeueCurrent q.pickNext.1 = some q') :
    { q' with current := q.pickNext.1 }.Matches := by
  rcases hr : q.lists .runnable with _ | ⟨t, rest⟩
  · rw [pickNext_nil hr] at hq ⊢
    -- the runnable list is empty: the current task runs on if it may, else the idle task runs
    have hq' : q' = q := by
      rcases requeueCurrent_cases hq with ⟨hne, -, hst, -⟩ | ⟨-, rfl⟩
      · split at hne <;> simp_all
      · rfl
    rw [hq']
    split
    · rename_i hrun
      have hu : q.Unlinked q.current := by
        rcases h.current with hc | hc
        · have := hc (.runnable)
          rw [hr, Task.slot] at this
          simp [Task.home, hrun.2] at this
        · exact hc.1
      exact ⟨h.agrees, hu, .inr hrun.2, h.idle_home⟩
    · rename_i hrun
      refine ⟨fun u hu => ?_, ?_, .inl rfl, h.idle_home⟩
      · by_cases huc : u = q.current
        · subst huc
          exact h.current.resolve_right fun hc => hrun ⟨hc.2.2, hc.2.1⟩
        · exact h.agrees u huc
      · by_cases hi : q.idleTask = q.current
        · have hc := h.current.resolve_right fun hc => hc.2.2 hi.symm
          exact hi ▸ hc.unlinked (hi ▸ h.idle_home)
        · exact (h.agrees _ hi).unlinked h.idle_home
  · rw [pickNext_cons hr] at hq ⊢
    dsimp only at hq ⊢
    -- the front task `t` runs next; it agreed with the lists, so it was on the runnable list only
    have hmem : t ∈ q.lists .runnable := by simp [hr]
    have hAt : q.Agrees t := by
      by_cases htc : t = q.current
      · subst htc
        exact h.current.resolve_right fun hc =>
          List.count_eq_zero.1 (hc.1 _) hmem
      · exact h.agrees t htc
    have hhome := hAt.home_of_mem hmem
    have hpop : ∀ u, u ≠ t → ∀ l, ((q.setList .runnable rest).lists l).count u =
        (q.lists l).count u := fun u hu l => by
      rw [count_pop hr, if_neg fun h => hu h.2, Nat.sub_zero]
    have hgone : (q.setList .runnable rest).Unlinked t := fun l => by
      rw [count_pop hr, hAt.count_of_home hhome]
      by_cases hl : l = .runnable <;> simp [hl]
    have hagree : ∀ u, u ≠ t → u ≠ q.current → (q.setList .runnable rest).Agrees u :=
      fun u hut huc => (h.agrees u huc).of_eq rfl (hpop u hut)
    rcases requeueCurrent_cases hq with ⟨hne, hun, hst, hp⟩ | ⟨hno, rfl⟩
    · obtain ⟨-, hidle, -, hidl, htasks, -⟩ := push_spec hp
      have hag : ∀ u, u ≠ t → q'.Agrees u := fun u hu => by
        by_cases huc : u = q.current
        · subst huc
          exact push_agrees hp rfl
        · exact (hagree u hu huc).push_other hp huc
      have hst' : (q'.tasks t).state = .runnable := by
        rw [htasks, if_neg (Ne.symm hne)]
        exact Task.state_of_home_runnable hhome
      have hid' : (q'.tasks q'.idleTask).home = none := by
        rw [hidl, htasks, if_neg (Ne.symm hidle)]
        exact h.idle_home
      have hun' : q'.Unlinked t := hgone.push_other hp (Ne.symm hne)
      exact ⟨hag, hun', .inr hst', hid'⟩
    · refine ⟨fun u (hu : u ≠ t) => ?_, hgone, .inr (Task.state_of_home_runnable hhome),
        h.idle_home⟩
      by_cases huc : u = q.current
      · subst huc
        rcases h.current with hc | hc
        · exact hc.of_eq rfl (hpop _ hu)
        · exact absurd ⟨hu, fun l => (hpop _ hu l).trans (hc.1 l), hc.2.1⟩ hno
      · exact hagree u hu huc

theorem Ready.scheduleNext (h : q.Ready) (time : BitVec 64) (hs : q.scheduleNext time = some q') :
    q'.Matches := by
  obtain ⟨q₃, hq, rfl⟩ := Option.map_eq_some_iff.1 hs
  exact (h.check time).switch hq

/-! ### Each operation keeps the lists in agreement -/

theorem Matches.ready (h : q.Matches) : q.Ready := by
  refine ⟨h.agrees, ?_, h.idle_home⟩
  rcases h.current_state with hi | hr
  · exact .inl (h.current.agrees (hi ▸ h.idle_home))
  · by_cases hi : q.current = q.idleTask
    · exact .inl (h.current.agrees (hi ▸ h.idle_home))
    · exact .inr (.inr ⟨h.current, hr, hi⟩)

theorem Matches.reschedule (h : q.Matches) (time : BitVec 64) (hs : q.scheduleNext time = some q') :
    q'.Matches :=
  h.ready.scheduleNext time hs

/-- A new record for `t` with the same state and deadline, such as a changed `pending_io`. -/
theorem Matches.setTask (h : q.Matches) (hs : x.state = (q.tasks t).state)
    (hu : x.sleepUntil = (q.tasks t).sleepUntil) : (q.setTask t x).Matches := by
  have hx : ∀ u, ((q.setTask t x).tasks u).home = (q.tasks u).home ∧
      ((q.setTask t x).tasks u).state = (q.tasks u).state := fun u => by
    by_cases hut : u = t
    · subst hut
      simp [Task.home, hs, hu]
    · simp [Function.update_of_ne hut]
  refine ⟨fun u hu' l => ?_, h.current, ?_, ?_⟩
  · rw [lists_setTask, h.agrees u hu' l, Task.slot, Task.slot, (hx u).1]
  · rw [current_setTask, idleTask_setTask, (hx _).2]
    exact h.current_state
  · rw [idleTask_setTask, (hx _).1]
    exact h.idle_home

/-- Linking a task that is not the current one on the list its new record names. -/
theorem Matches.push (h : q.Matches) (hp : q.push l front x t = some q') (ht : t ≠ q.current)
    (hx : x.home = some l) : q'.Matches := by
  obtain ⟨-, hidle, hcur, hidl, htasks, -⟩ := push_spec hp
  refine ⟨fun u hu => ?_, ?_, ?_, ?_⟩
  · by_cases hut : u = t
    · subst hut
      exact push_agrees hp hx
    · exact (h.agrees u (hcur ▸ hu)).push_other hp hut
  · rw [hcur]
    exact h.current.push_other hp (Ne.symm ht)
  · rw [hcur, hidl, htasks, if_neg (Ne.symm ht)]
    exact h.current_state
  · rw [hidl, htasks, if_neg (Ne.symm hidle)]
    exact h.idle_home

/-- Moving a task that is not the current one from one list to the list its new record names:
`cursor_mut_from_ptr`, `remove` and a `push_*`. -/
theorem Matches.move {q₂ : Queues} {l₂ : Queue} (h : q.Matches) (ht : t ≠ q.current)
    (hr : q.cursorRemove l t = some q₁) (hp : q₁.push l₂ front x t = some q₂)
    (hx : x.home = some l₂) : q₂.Matches := by
  obtain ⟨-, hcur, hidl, htasks, hcount⟩ := cursorRemove_spec hr
  have hsame : ∀ u, u ≠ t → ∀ l', (q₁.lists l').count u = (q.lists l').count u := fun u hu l' => by
    rw [hcount, if_neg fun h => hu h.2, Nat.sub_zero]
  have h₁ : ∀ u, u ≠ t → u ≠ q₁.current → q₁.Agrees u := fun u hu hc =>
    (h.agrees u (hcur ▸ hc)).of_eq (by rw [htasks]) (hsame u hu)
  obtain ⟨-, hidle, hcur₂, hidl₂, htasks₂, -⟩ := push_spec hp
  refine ⟨fun u hu => ?_, ?_, ?_, ?_⟩
  · by_cases hut : u = t
    · subst hut
      exact push_agrees hp hx
    · exact (h₁ u hut (hcur₂ ▸ hu)).push_other hp hut
  · rw [hcur₂, hcur]
    have : q₁.Unlinked q.current := fun l' => (hsame _ (Ne.symm ht) l').trans (h.current l')
    exact this.push_other hp (Ne.symm ht)
  · rw [hcur₂, hidl₂, htasks₂, if_neg (hcur ▸ Ne.symm ht), htasks, hcur, hidl]
    exact h.current_state
  · rw [hidl₂, htasks₂, if_neg (Ne.symm hidle), htasks, hidl]
    exact h.idle_home

/-- A task asleep or stopped is not the running task, which is runnable or idle. -/
theorem Matches.ne_current (h : q.Matches)
    (hst : (q.tasks t).state = .awaitingIo ∨ (q.tasks t).state = .stopped) : t ≠ q.current := by
  rintro rfl
  rcases h.current_state with hi | hr
  · have := h.idle_home
    rw [← hi] at this
    rcases hst with hs | hs <;> simp [Task.home, hs] at this
  · rcases hst with hs | hs <;> simp [hs] at hr

/-- The current task goes on a list, on the one its record names or, if its deadline wrapped to
zero, on the deadline list: `schedule_next` then starts from ready queues. -/
theorem Matches.ready_push (h : q.Matches) (hp : q.push l false x q.current = some q₁)
    (hx : x.home = some l ∨ (x.state = .awaitingIo ∧ x.sleepUntil = 0 ∧ l = .deadlineAwaiting)) :
    q₁.Ready := by
  obtain ⟨hun, hidle, hcur, hidl, htasks, hc⟩ := push_spec hp
  refine ⟨fun u hu => (h.agrees u (hcur ▸ hu)).push_other hp (hcur ▸ hu), ?_, ?_⟩
  · rw [hcur]
    rcases hx with hx | ⟨hs, hz, rfl⟩
    · exact .inl (push_agrees hp hx)
    · refine .inr (.inl ⟨by rw [htasks, if_pos rfl, hs], by rw [htasks, if_pos rfl, hz],
        fun l' => ?_⟩)
      rw [hc, hun l']
      by_cases hl : l' = .deadlineAwaiting <;> simp [hl]
  · rw [hidl, htasks, if_neg (Ne.symm hidle)]
    exact h.idle_home

theorem Matches.queueTask (h : q.Matches) (ht : t ≠ q.current) (hs : q.queueTask t = some q') :
    q'.Matches :=
  h.push hs ht rfl

theorem Matches.sleep {timeNs : Option (BitVec 64)} {interrupted : Bool} {time : BitVec 64}
    (h : q.Matches) (hs : q.sleep timeNs interrupted time = some q') : q'.Matches := by
  unfold Queues.sleep at hs
  dsimp only at hs
  split at hs
  · obtain rfl := Option.some_injective _ hs
    exact h.setTask rfl rfl
  split at hs
  · obtain rfl := Option.some_injective _ hs
    exact h
  split at hs
  · cases hs
  cases timeNs with
  | none =>
    obtain ⟨q₁, hp, hn⟩ := Option.bind_eq_some_iff.1 hs
    exact (h.ready_push hp (.inl rfl)).scheduleNext time hn
  | some ns =>
    obtain ⟨q₁, hp, hn⟩ := Option.bind_eq_some_iff.1 hs
    refine Ready.scheduleNext ?_ time hn
    -- `current_ns() + time_ns` may wrap to zero; the task then expires at once
    by_cases hz : time + ns = 0
    · exact h.ready_push hp (.inr ⟨rfl, hz, rfl⟩)
    · have hpos : (0 : BitVec 64) < time + ns := by bv_omega
      exact h.ready_push hp (.inl (by simp only [Task.home, gt_iff_lt, hpos, if_true]))

theorem Matches.wake (h : q.Matches) (hs : q.wake t = some q') : q'.Matches := by
  unfold Queues.wake at hs
  split at hs
  · obtain ⟨q₁, hr, hp⟩ := Option.bind_eq_some_iff.1 hs
    exact h.move (h.ne_current (.inl ‹_›)) hr hp rfl
  · obtain rfl := Option.some_injective _ hs
    exact h.setTask rfl rfl

theorem Matches.wakeAsNext (h : q.Matches) (hs : q.wakeAsNext t = some q') : q'.Matches := by
  unfold Queues.wakeAsNext at hs
  split at hs
  · obtain ⟨q₁, hr, hp⟩ := Option.bind_eq_some_iff.1 hs
    exact h.move (h.ne_current (.inl ‹_›)) hr hp rfl
  split at hs
  · obtain ⟨q₁, hr, hp⟩ := Option.bind_eq_some_iff.1 hs
    -- a successful removal from the runnable list shows the task is not the running one
    have ht : t ≠ q.current := by
      rintro rfl
      exact List.count_eq_zero.1 (h.current .runnable) (cursorRemove_spec hr).1
    have h₁ : (q.setPending t).Matches := h.setTask rfl rfl
    exact h₁.move ht hr hp rfl
  · obtain rfl := Option.some_injective _ hs
    exact h.setTask rfl rfl

theorem Matches.stop {time : BitVec 64} (h : q.Matches) (hs : q.stop time = some q') :
    q'.Matches := by
  unfold Queues.stop at hs
  split at hs
  · cases hs
  obtain ⟨q₁, hp, hn⟩ := Option.bind_eq_some_iff.1 hs
  exact (h.ready_push hp (.inl rfl)).scheduleNext time hn

theorem Matches.cont (h : q.Matches) (hs : q.cont t = some q') : q'.Matches := by
  unfold Queues.cont at hs
  split at hs
  · split at hs
    · cases hs
    obtain ⟨q₁, hr, hp⟩ := Option.bind_eq_some_iff.1 hs
    exact h.move (h.ne_current (.inr ‹_›)) hr hp rfl
  · exact h.wake hs

theorem Matches.exitWith {leader : Bool} {time : BitVec 64} (h : q.Matches)
    (hs : q.exitWith leader time = some q') : q'.Matches := by
  unfold Queues.exitWith at hs
  dsimp only at hs
  split at hs
  · cases hs
  refine Ready.scheduleNext ?_ time hs
  -- the current task, on no list, becomes unused
  have hnone : ({ q.tasks q.current with state := .unused } : Task).home = none := rfl
  refine ⟨fun u (hu : u ≠ q.current) => (h.agrees u hu).of_eq ?_ fun _ => rfl, .inl ?_, ?_⟩
  · simp [Function.update_of_ne hu]
  · exact Unlinked.agrees (q := q.setTask _ _) h.current (by simp [hnone])
  · by_cases hi : q.idleTask = q.current
    · simp [hi, hnone]
    · simp [Function.update_of_ne hi, h.idle_home]

/-- In agreeing queues a task is on list `l` exactly when its record names `l` and it is not the
running task, and then only once. -/
theorem Matches.mem_iff (h : q.Matches) (l : Queue) (t : ℕ) :
    t ∈ q.lists l ↔ (q.tasks t).home = some l ∧ t ≠ q.current := by
  by_cases ht : t = q.current
  · subst ht
    simp only [ne_eq, not_true_eq_false, and_false, iff_false]
    exact List.count_eq_zero.1 (h.current l)
  · rw [← List.count_pos_iff, h.agrees t ht l, Task.slot]
    split <;> simp_all

theorem Matches.nodup (h : q.Matches) (l : Queue) : (q.lists l).Nodup := by
  refine List.nodup_iff_count_le_one.2 fun t => ?_
  by_cases ht : t = q.current
  · rw [ht, h.current l]
    omega
  · exact (h.agrees t ht).count_le_one l

/-! ### `pending_io` -/

/-- Every `pending_io` flag that was set is still set. -/
def KeepsPending (q q' : Queues) : Prop :=
  ∀ u, (q.tasks u).pendingIo = true → (q'.tasks u).pendingIo = true

theorem KeepsPending.trans {q₂ : Queues} (h₁ : KeepsPending q q₁) (h₂ : KeepsPending q₁ q₂) :
    KeepsPending q q₂ := fun u hu => h₂ u (h₁ u hu)

theorem keepsPending_setTask (hx : (q.tasks t).pendingIo = true → x.pendingIo = true) :
    KeepsPending q (q.setTask t x) := fun u hu => by
  by_cases hut : u = t
  · subst hut
    simpa using hx hu
  · simpa [Function.update_of_ne hut] using hu

theorem push_keepsPending (hp : q.push l front x t = some q')
    (hx : x.pendingIo = (q.tasks t).pendingIo) : KeepsPending q q' := fun u hu => by
  obtain ⟨-, -, -, -, htasks, -⟩ := push_spec hp
  rw [htasks]
  split
  · subst_vars
    rwa [hx]
  · exact hu

theorem cursorRemove_keepsPending (hr : q.cursorRemove l t = some q') : KeepsPending q q' :=
  fun u hu => by rwa [(cursorRemove_spec hr).2.2.2.1]

theorem checkLoop_keepsPending (time : BitVec 64) :
    ∀ (xs : List ℕ) (q : Queues), KeepsPending q (checkLoop time xs q).2
  | [], _ => fun _ hu => hu
  | t :: xs, q => by
    rw [checkLoop]
    split
    · exact fun u hu => checkLoop_keepsPending time xs _ u
        (keepsPending_setTask (x := (q.tasks t).woken) (t := t) id u hu)
    · exact checkLoop_keepsPending time xs q

theorem scheduleNext_keepsPending {time : BitVec 64} (hs : q.scheduleNext time = some q') :
    KeepsPending q q' := by
  obtain ⟨q₃, hq, rfl⟩ := Option.map_eq_some_iff.1 hs
  have hc : KeepsPending q (q.scheduleCheckDeadline time) := by
    unfold scheduleCheckDeadline
    split
    · exact fun _ hu => hu
    · exact checkLoop_keepsPending time _ q
  have hp : KeepsPending (q.scheduleCheckDeadline time) (q.scheduleCheckDeadline time).pickNext.2 := by
    unfold pickNext
    split <;> exact fun _ hu => hu
  have hr : KeepsPending (q.scheduleCheckDeadline time).pickNext.2 q₃ := by
    rcases requeueCurrent_cases hq with ⟨-, -, -, hpush⟩ | ⟨-, rfl⟩
    · exact push_keepsPending hpush rfl
    · exact fun _ hu => hu
  exact hc.trans (hp.trans hr)

/-- A sleep of the current task with a wake pending consumes the wake and returns: the task stays
the running task and no list changes. -/
theorem sleep_of_pending {timeNs : Option (BitVec 64)} {interrupted : Bool} {time : BitVec 64}
    (hp : (q.tasks q.current).pendingIo = true) :
    q.sleep timeNs interrupted time =
      some (q.setTask q.current { q.tasks q.current with pendingIo := false }) := by
  simp [Queues.sleep, hp]

end Queues

/-! ## Runs -/

open Queues

/-- The queues after `Queues::default` and `init`: the idle task is current and has state
`Idle`, every list is empty, and no other task has been queued yet. -/
def boot (idle : ℕ) (leader : ℕ → Bool) : Queues where
  idleTask := idle
  lists := fun _ => []
  tasks := fun t => ⟨if t = idle then .idle else .unused, 0, false, leader t⟩
  current := idle

theorem matches_boot (idle : ℕ) (leader : ℕ → Bool) : (boot idle leader).Matches where
  agrees t ht l := by
    have hu : t ≠ idle := ht
    simp [boot, Task.slot, Task.home, hu]
  current _ := rfl
  current_state := .inl rfl
  idle_home := by simp [boot, Task.home]

/-- `queue_task` is only called on a task the kernel has just created, never on the running one. -/
def OpOk (q : Queues) : Op → Prop
  | .queueTask t => t ≠ q.current
  | _ => True

theorem matches_step {op : Op} {q q' : Queues} (h : q.Matches) (hok : OpOk q op)
    (hs : step q op = some q') : q'.Matches := by
  cases op with
  | queueTask t => exact h.queueTask hok hs
  | reschedule time => exact h.reschedule time hs
  | sleep timeNs interrupted time => exact h.sleep hs
  | wake t => exact h.wake hs
  | wakeAsNext t => exact h.wakeAsNext hs
  | stop time => exact h.stop hs
  | cont t => exact h.cont hs
  | exit time => exact h.exitWith hs
  | exitThread time => exact h.exitWith hs

/-- From boot, along every run of the queue operations in which `queue_task` is not applied to the
running task, every task is on the list its state names (runnable when runnable and not running,
awaiting when asleep with `sleep_until` 0, on the deadline list when asleep with `sleep_until > 0`,
stopped when stopped), on that list once and on no other, and the running task and the idle task
are on no list. -/
theorem queues_match_states {idle : ℕ} {leader : ℕ → Bool} {q : Queues} (ops : List Op)
    (hops : Guarded step OpOk (boot idle leader) ops) (hrun : run step (boot idle leader) ops = some q) :
    (∀ l t, t ∈ q.lists l ↔ (q.tasks t).home = some l ∧ t ≠ q.current) ∧
      (∀ l, (q.lists l).Nodup) ∧ ∀ l, q.idleTask ∉ q.lists l := by
  have h : q.Matches :=
    run_inv (fun _ _ _ hc hok hs => matches_step hc hok hs) ops _ q (matches_boot idle leader) hops hrun
  refine ⟨h.mem_iff, h.nodup, fun l hm => ?_⟩
  have := ((h.mem_iff l _).1 hm).1
  rw [h.idle_home] at this
  cases this

/-- Task 1 queued on a CPU whose idle task is 0, then scheduled. -/
theorem queues_match_states_queued :
    ∃ q, run step (boot 0 fun _ => true) [.queueTask 1, .reschedule 0] = some q ∧
      (∀ l t, t ∈ q.lists l ↔ (q.tasks t).home = some l ∧ t ≠ q.current) ∧
      (∀ l, (q.lists l).Nodup) ∧ ∀ l, q.idleTask ∉ q.lists l :=
  ⟨_, rfl, @queues_match_states 0 (fun _ => true) _ [.queueTask 1, .reschedule 0]
    ⟨(by decide : (1 : ℕ) ≠ 0), fun _ _ => ⟨trivial, fun _ _ => trivial⟩⟩ rfl⟩

/-- Every operation but a sleep of the running task keeps every `pending_io` flag that is set. -/
theorem step_keepsPending {op : Op} {q q' : Queues} {t : ℕ} (hs : step q op = some q')
    (hop : ∀ timeNs interrupted time, op = .sleep timeNs interrupted time → t ≠ q.current)
    (hp : (q.tasks t).pendingIo = true) : (q'.tasks t).pendingIo = true := by
  -- a removal from a list followed by a `push_*` of the same record
  have hmove : ∀ {q₀ q₁ q₂ : Queues} {l l' : Queue} {front : Bool} {u : ℕ},
      q₀.cursorRemove l u = some q₁ →
      q₁.push l' front { q₁.tasks u with state := .runnable } u = some q₂ → KeepsPending q₀ q₂ :=
    fun hr hpush => (cursorRemove_keepsPending hr).trans (push_keepsPending hpush rfl)
  have hwake : ∀ {u q'}, q.wake u = some q' → KeepsPending q q' := fun {u q'} hw => by
    unfold Queues.wake at hw
    split at hw
    · obtain ⟨q₁, hr, hpush⟩ := Option.bind_eq_some_iff.1 hw
      exact hmove hr hpush
    · obtain rfl := Option.some_injective _ hw
      exact keepsPending_setTask fun _ => rfl
  cases op with
  | queueTask u => exact push_keepsPending hs rfl t hp
  | reschedule time => exact scheduleNext_keepsPending hs t hp
  | sleep timeNs interrupted time =>
    have ht := hop timeNs interrupted time rfl
    simp only [step, Queues.sleep] at hs
    split at hs
    · obtain rfl := Option.some_injective _ hs
      simpa [Function.update_of_ne ht] using hp
    split at hs
    · obtain rfl := Option.some_injective _ hs
      exact hp
    split at hs
    · cases hs
    cases timeNs <;>
    · obtain ⟨q₁, hpush, hn⟩ := Option.bind_eq_some_iff.1 hs
      exact scheduleNext_keepsPending hn t (push_keepsPending hpush rfl t hp)
  | wake u => exact hwake hs t hp
  | wakeAsNext u =>
    simp only [step, Queues.wakeAsNext] at hs
    split at hs
    · obtain ⟨q₁, hr, hpush⟩ := Option.bind_eq_some_iff.1 hs
      exact hmove hr hpush t hp
    split at hs
    · obtain ⟨q₁, hr, hpush⟩ := Option.bind_eq_some_iff.1 hs
      exact hmove hr hpush t (keepsPending_setTask (fun _ => rfl) t hp)
    · obtain rfl := Option.some_injective _ hs
      exact keepsPending_setTask (fun _ => rfl) t hp
  | stop time =>
    simp only [step, Queues.stop] at hs
    split at hs
    · cases hs
    obtain ⟨q₁, hpush, hn⟩ := Option.bind_eq_some_iff.1 hs
    exact scheduleNext_keepsPending hn t (push_keepsPending hpush rfl t hp)
  | cont u =>
    simp only [step, Queues.cont] at hs
    split at hs
    · split at hs
      · cases hs
      obtain ⟨q₁, hr, hpush⟩ := Option.bind_eq_some_iff.1 hs
      exact hmove hr hpush t hp
    · exact hwake hs t hp
  | exit time | exitThread time =>
    simp only [step, Queues.exit, Queues.exitThread, Queues.exitWith] at hs
    split at hs
    · cases hs
    exact scheduleNext_keepsPending hs t
      (keepsPending_setTask (x := { q.tasks q.current with state := .unused }) id t hp)

/-- A wake of a task that is not asleep sets its `pending_io`. Along any run in which the task
does not sleep, the flag stays set, and the next sleep of the task returns at once: it stays the
running task and no list changes. -/
theorem wake_then_sleep_returns {q q₁ q₂ : Queues} {t : ℕ} (hst : (q.tasks t).state ≠ .awaitingIo)
    (hw : step q (.wake t) = some q₁) (ops : List Op)
    (hops : Guarded step (fun q op => ∀ timeNs interrupted time,
      op = .sleep timeNs interrupted time → t ≠ q.current) q₁ ops)
    (hrun : run step q₁ ops = some q₂) (hcur : q₂.current = t) (timeNs : Option (BitVec 64))
    (interrupted : Bool) (time : BitVec 64) :
    step q₂ (.sleep timeNs interrupted time) =
      some (q₂.setTask t { q₂.tasks t with pendingIo := false }) := by
  have h₁ : (q₁.tasks t).pendingIo = true := by
    simp only [step, Queues.wake, hst, if_false, Option.some.injEq] at hw
    subst hw
    simp [setPending]
  have hstep : ∀ c o c', (c.tasks t).pendingIo = true →
      (∀ timeNs interrupted time, o = .sleep timeNs interrupted time → t ≠ c.current) →
      step c o = some c' → (c'.tasks t).pendingIo = true :=
    fun _ _ _ hp hok hs => step_keepsPending hs hok hp
  have h₂ : (q₂.tasks t).pendingIo = true := run_inv hstep ops q₁ q₂ h₁ hops hrun
  subst hcur
  exact sleep_of_pending h₂

/-- Task 1 is woken before it is queued, then queued and scheduled: its first sleep returns at
once. -/
theorem wake_then_sleep_returns_boot :
    ∃ q₁ q₂, step (boot 0 fun _ => true) (.wake 1) = some q₁ ∧
      run step q₁ [.queueTask 1, .reschedule 0] = some q₂ ∧ q₂.current = 1 ∧
      step q₂ (.sleep none false 0) = some (q₂.setTask 1 { q₂.tasks 1 with pendingIo := false }) :=
  ⟨_, _, rfl, rfl, rfl,
    @wake_then_sleep_returns (boot 0 fun _ => true) _ _ 1 (by decide) rfl [.queueTask 1, .reschedule 0]
      ⟨(fun _ _ _ h => nomatch h), fun _ _ => ⟨(fun _ _ _ h => nomatch h), fun _ _ => trivial⟩⟩
      rfl rfl
      none false 0⟩

/-! ## The wait queues' view -/

/-- The scheduler's state of each task as the wait queues see it: its `pending_io` flag, and
whether it sleeps. -/
def Queues.view (q : Queues) : Tasks :=
  ⟨fun t => (q.tasks t).pendingIo, fun t => decide ((q.tasks t).state = .awaitingIo)⟩

/-- `wake` is the abstract wake of the wait queues. -/
theorem wake_refines {q q' : Queues} {t : ℕ} (hs : q.wake t = some q') :
    q'.view = q.view.wake t := by
  unfold Queues.wake at hs
  split at hs
  · rename_i ha
    obtain ⟨q₁, hr, hpush⟩ := Option.bind_eq_some_iff.1 hs
    obtain ⟨-, -, -, htasks₁, -⟩ := cursorRemove_spec hr
    obtain ⟨-, -, -, -, htasks, -⟩ := push_spec hpush
    have hv : q.view.awaiting t = true := by simp [view, ha]
    rw [Tasks.wake, if_pos hv]
    simp only [view, Tasks.mk.injEq]
    constructor <;> funext u <;> by_cases hut : u = t <;> simp [htasks, htasks₁, hut]
  · rename_i ha
    obtain rfl := Option.some_injective _ hs
    have hv : q.view.awaiting t = false := by simp [view, ha]
    rw [Tasks.wake, if_neg (by simp [hv])]
    simp only [view, Tasks.mk.injEq]
    constructor <;> funext u <;> by_cases hut : u = t <;> simp [setPending, hut]

/-- With no task on the deadline list and the current task not runnable, `schedule_next` changes
no task's record: it only pops the next task and switches. -/
theorem scheduleNext_tasks {q q' : Queues} {time : BitVec 64} (hd : q.lists .deadlineAwaiting = [])
    (hst : (q.tasks q.current).state ≠ .runnable) (hs : q.scheduleNext time = some q') :
    q'.tasks = q.tasks := by
  obtain ⟨q₃, hq, rfl⟩ := Option.map_eq_some_iff.1 hs
  have hc : q.scheduleCheckDeadline time = q := by simp [scheduleCheckDeadline, hd]
  rw [hc] at hq
  have hp : q.pickNext.2.tasks = q.tasks ∧ q.pickNext.2.current = q.current := by
    unfold pickNext
    split <;> exact ⟨rfl, rfl⟩
  rcases requeueCurrent_cases hq with ⟨-, -, hr, -⟩ | ⟨-, rfl⟩
  · rw [hp.1, hp.2] at hr
    exact absurd hr hst
  · exact hp.1

/-- A sleep without a deadline and with no signal pending, on a CPU with no task on the deadline
list, is the abstract sleep of the running task. -/
theorem sleep_refines {q q' : Queues} {time : BitVec 64} (hd : q.lists .deadlineAwaiting = [])
    (hs : q.sleep none false time = some q') : q'.view = q.view.sleep q.current := by
  unfold Queues.sleep at hs
  dsimp only at hs
  split at hs
  · rename_i hp
    obtain rfl := Option.some_injective _ hs
    rw [Tasks.sleep, if_pos (by simpa [view] using hp)]
    simp only [view, Tasks.mk.injEq]
    constructor <;> funext u <;> by_cases hut : u = q.current <;> simp [hut]
  rename_i hp
  split at hs
  · exact absurd ‹false = true› Bool.false_ne_true
  split at hs
  · cases hs
  obtain ⟨q₁, hpush, hn⟩ := Option.bind_eq_some_iff.1 hs
  obtain ⟨-, -, hcur, -, htasks, -⟩ := push_spec hpush
  have hd₁ : q₁.lists .deadlineAwaiting = [] := by
    rw [push_lists_of_ne hpush (show Queue.deadlineAwaiting ≠ .awaiting by decide), hd]
  have hst : (q₁.tasks q₁.current).state ≠ .runnable := by
    rw [htasks, hcur, if_pos rfl]
    exact TaskState.noConfusion
  rw [view, view, scheduleNext_tasks hd₁ hst hn, Tasks.sleep, if_neg (by simpa using hp)]
  simp only [Tasks.mk.injEq]
  constructor <;> funext u <;> by_cases hut : u = q.current <;> simp [htasks, hut]

/-! ## `wake_as_next` of the running task -/

/-- Task 1 is queued on a CPU whose idle task is 0, and the CPU switches to it: task 1 runs and
is on no list. `wake_as_next` of task 1, which the IPI of an `exec` in one of its threads makes
while it runs on its own CPU, then removes it from the runnable list through
`cursor_mut_from_ptr`, outside that call's contract. -/
theorem wake_as_next_running :
    ∃ q, run step (boot 0 fun _ => true) [.queueTask 1, .reschedule 0] = some q ∧
      q.current = 1 ∧ (q.tasks 1).state = .runnable ∧ ¬ q.linked 1 ∧
      step q (.wakeAsNext 1) = none :=
  ⟨_, rfl, rfl, rfl, by decide, rfl⟩

end Cykusz.Kernel.Sched
