import Mathlib
import Cykusz.Kernel.WaitQueue
import Cykusz.Lib.Simulation
import Cykusz.Syscall.Defs

/-!
# Futex wait and wake

`FutexContainer::wait(addr, expected)` loads the word at `addr` and returns `EAGAIN` when it is not
`expected`. Otherwise it looks up the futex of the address in the map, or allocates one
(`get_alloc`), and waits on its queue once (`WaitQueue::wait`: register, sleep, deregister as the
guard drops); as it leaves, it removes the address from the map when the queue looks empty.
`wake(addr)` looks the futex up (`get`) and calls `notify_all` on its queue. The map and each queue
have their locks, but no lock is held from the load to the registration, nor from `is_empty` to
the removal.

One address is modelled: the map is the futex the address has, if any, and a futex is named by
the order of its allocation. A waker stores its value into the word and then wakes.

A wake rouses every task registered on the futex it finds (`notify_rouses_registered`). But a
store and its wake can both come between a waiter's load and its registration: the wake finds no
futex, and the waiter sleeps on with the word changed and no one to wake it (`futex_wake_lost`).
A waiter that arrives while another leaves registers on the futex the other then removes from the
map, and the next wake finds none (`leaving_waiter_drops_futex`).
-/

namespace Cykusz.Kernel.Futex

open Simulation Cykusz.Syscall

/-- Where a task in `FutexContainer::wait` is: loading the word, in `get_alloc`, registering on
the queue of futex `f`, sleeping, on the awaiting list, deregistering, testing `is_empty`,
removing the address from the map, returned. -/
inductive WaitPc
  | load
  | getAlloc
  | register (f : ℕ)
  | awaitIo (f : ℕ)
  | asleep (f : ℕ)
  | deregister (f : ℕ)
  | isEmpty (f : ℕ)
  | remove
  | returned (r : SyscallResult)
deriving DecidableEq

/-- Where a waker is: storing its value, in `get`, in `notify_all` on futex `f`, returned. -/
inductive WakePc
  | store
  | get
  | notify (f : ℕ)
  | returned
deriving DecidableEq

/-- A task of the system: a waiter for the value `expected`, or a waker storing `value`. -/
inductive Thread
  | waiter (expected : BitVec 32) (pc : WaitPc)
  | waker (value : BitVec 32) (pc : WakePc)
deriving DecidableEq

/-- The word at the address; the futex the map holds for the address; the queue of each futex;
the number of futexes allocated; the scheduler's state of the tasks; the threads, task `i` running
thread `i`. -/
structure Sys where
  word : BitVec 32
  entry : Option ℕ
  queues : ℕ → WaitQueue
  allocated : ℕ
  tasks : Tasks
  threads : List Thread

/-- The step of thread `i`; `none` where it is on the awaiting list or has returned. -/
def move (s : Sys) (i : ℕ) : Thread → Option (Thread × Sys)
  | .waiter e pc =>
    let go (pc' : WaitPc) (s' : Sys) := some (Thread.waiter e pc', s')
    match pc with
    | .load => if s.word = e then go .getAlloc s else go (.returned (.error .EAGAIN)) s
    | .getAlloc =>
      match s.entry with
      | some f => go (.register f) s
      | none =>
        go (.register s.allocated)
          { s with entry := some s.allocated, allocated := s.allocated + 1 }
    | .register f =>
      go (.awaitIo f) { s with queues := Function.update s.queues f ((s.queues f).addTask i) }
    | .awaitIo f =>
      go (if s.tasks.pendingIo i then .deregister f else .asleep f)
        { s with tasks := s.tasks.sleep i }
    | .asleep f => if s.tasks.awaiting i then none else go (.deregister f) s
    | .deregister f =>
      go (.isEmpty f) { s with queues := Function.update s.queues f ((s.queues f).removeTask i) }
    | .isEmpty f => go (if (s.queues f).isEmpty then .remove else .returned (.ok 0)) s
    | .remove => go (.returned (.ok 0)) { s with entry := none }
    | .returned _ => none
  | .waker v pc =>
    let go (pc' : WakePc) (s' : Sys) := some (Thread.waker v pc', s')
    match pc with
    | .store => go .get { s with word := v }
    | .get =>
      match s.entry with
      | some f => go (.notify f) s
      | none => go .returned s
    | .notify f => go .returned { s with tasks := ((s.queues f).notifyAll s.tasks).1 }
    | .returned => none

/-- Thread `i` takes one step. -/
def step (s : Sys) (i : ℕ) : Option Sys :=
  match s.threads[i]? with
  | none => none
  | some th => (move s i th).map fun p => { p.2 with threads := s.threads.set i p.1 }

/-- A thread that no step of another thread lets go on: returned, or on the awaiting list. -/
def parked (ts : Tasks) (i : ℕ) : Thread → Bool
  | .waiter _ (.asleep _) => ts.awaiting i
  | .waiter _ (.returned _) | .waker _ .returned => true
  | _ => false

variable {s s' : Sys} {i k : ℕ}

/-- `notify_all` in a wake rouses every task registered on the futex the wake found. -/
theorem notify_rouses_registered {v : BitVec 32} {f : ℕ}
    (hk : s.threads[k]? = some (.waker v (.notify f))) (hi : i ∈ (s.queues f).tasks)
    (h : step s k = some s') : Tasks.Roused s.tasks s'.tasks i := by
  simp only [step, hk, move, Option.map_some, Option.some.injEq] at h
  subst h
  exact WaitQueue.notifyAll_roused hi

theorem step_eq_none_of_parked (h : ∀ th, s.threads[i]? = some th → parked s.tasks i th = true) :
    step s i = none := by
  unfold step
  cases hi : s.threads[i]? with
  | none => rfl
  | some th =>
    have hp := h th hi
    cases th with
    | waiter e pc => cases pc <;> simp_all [parked, move]
    | waker v pc => cases pc <;> simp_all [parked, move]

/-- When every thread is parked, no thread steps again. -/
theorem run_of_all_parked (h : (s.threads.zipIdx.all fun p => parked s.tasks p.2 p.1) = true)
    (sched : List ℕ) (hrun : run step s sched = some s') : s' = s := by
  refine (run_of_stuck (fun i => step_eq_none_of_parked fun th hi => ?_) sched hrun).2
  have hmem : (th, i) ∈ s.threads.zipIdx := List.mem_zipIdx_iff_getElem?.2 hi
  exact List.all_eq_true.1 h _ hmem

/-- A waiter of the value 0 and a waker that stores 1, with no futex allocated. -/
def storeFirst : Sys :=
  ⟨0, none, fun _ => ⟨[]⟩, 0, Tasks.idle, [.waiter 0 .load, .waker 1 .store]⟩

/-- The waiter loads 0; the waker stores 1 and wakes, finding no futex; the waiter allocates a
futex, registers and sleeps. The word is no longer 0, but the waiter is on the awaiting list and
no thread can step any more. -/
theorem futex_wake_lost :
    ∃ s, run step storeFirst [0, 1, 1, 0, 0, 0] = some s ∧
      s.threads = [.waiter 0 (.asleep 0), .waker 1 .returned] ∧ s.word = 1 ∧
      s.tasks.awaiting 0 = true ∧ ∀ sched s', run step s sched = some s' → s' = s :=
  ⟨_, rfl, rfl, rfl, rfl, fun sched _ hrun => run_of_all_parked rfl sched hrun⟩

/-- Two waiters and two wakers: the first waiter waits for 0 and the first waker stores 1; the
second waiter waits for 1 and the second waker stores 2. -/
def twoRounds : Sys :=
  ⟨0, none, fun _ => ⟨[]⟩, 0, Tasks.idle,
    [.waiter 0 .load, .waker 1 .store, .waiter 1 .load, .waker 2 .store]⟩

/-- The first waiter sleeps on futex 0 and the first wake rouses it; it deregisters and finds the
queue empty. The second waiter then finds futex 0 in the map, registers on it and sleeps. The
first waiter removes the address from the map, so the second wake finds no futex: the word is 2,
the second waiter is on the awaiting list, and no thread can step any more. -/
theorem leaving_waiter_drops_futex :
    ∃ s, run step twoRounds [0, 0, 0, 0, 1, 1, 1, 0, 0, 0, 2, 2, 2, 2, 0, 3, 3] = some s ∧
      s.threads[2]? = some (.waiter 1 (.asleep 0)) ∧ s.word = 2 ∧ s.entry = none ∧
      s.tasks.awaiting 2 = true ∧ ∀ sched s', run step s sched = some s' → s' = s :=
  ⟨_, rfl, rfl, rfl, rfl, rfl, fun sched _ hrun => run_of_all_parked rfl sched hrun⟩

end Cykusz.Kernel.Futex
