import Mathlib
import Cykusz.Kernel.WaitQueue
import Cykusz.Lib.Count
import Cykusz.Lib.SpinLock
import Cykusz.Lib.Simulation

/-!
# Sleeping reader-writer locks

`RwMutex` (`kernel/sync/mutex_rw.rs`), the lock of each ext2 inode, is a spin `RwLock` (`RwSpin`,
over the `spin` crate's `RwLock`) and two wait queues, one for readers and one for writers. `read`,
`read_upgradeable` and `write` register their task on their queue and then, until the spin lock's
`try_read`, `try_upgradeable_read` or `try_write` succeeds, sleep in `task_wait`; they deregister as
they return the guard. `upgrade` of an upgradeable guard moves its task to the writer queue and
loops on `try_upgrade` the same way. Dropping a read or upgradeable guard releases the spin lock
and, if then `reader_count()` is 0, calls `notify_one` on the writer queue; dropping a write guard
calls `notify_all` on the reader queue if `writer_count()` is 0. The `_irq` variants take the same
steps with interrupts off.

The spin lock is a parameter, a word of the crate's `RwLock` with its laws (`RwSpinLock`), of
which the model reads the state: the `WRITER` and `UPGRADED` bits and a count of readers. Each
`try_` but `try_read` is one atomic update. `try_read` takes two: its `fetch_add` counts a reader,
and where the value returned had a bit set a `fetch_sub` takes the reader off again; in between
the word counts a reader that holds no guard. The tasks are the threads of one system, stepping
one at a time as in `Mutex`; the model covers runs in which no signal interrupts a sleep.

In every interleaving from threads at their start, the lock word counts the read guards held and
the readers of failed `try_read`s not yet taken off, at most one thread holds the write or the
upgradeable guard, and none holds a read guard while one holds the write guard
(`rw_mutex_exclusive`). But no drop of a write guard wakes the writer queue: among
writers only, a writer that has gone to sleep sleeps for good, though the lock is free
(`writer_wakeup_lost`). And a task asleep in `upgrade` is counted by `reader_count()` itself, so no
drop of a read guard wakes it either (`upgrade_wakeup_lost`).
-/

namespace Cykusz.Kernel.RwMutex

open Simulation Count RwSpinLock


/-! ## The tasks -/

/-- The two wait queues of an `RwMutex`. -/
inductive Queue
  | readers
  | writers
deriving DecidableEq, Repr

/-- The guards of the spin lock. -/
inductive Mode
  | read
  | upgradeable
  | write
deriving DecidableEq, Repr

/-- The four loops that register, try the spin lock and sleep: `read`, `read_upgradeable` (and
whether its guard is then upgraded rather than dropped), `write`, and `upgrade`. -/
inductive Loop
  | read
  | readUpgradeable (upgrade : Bool)
  | write
  | upgrade
deriving DecidableEq, Repr

/-- Where a task is: in a loop, registering, trying the spin lock, sleeping, on the awaiting list,
deregistering with the spin guard taken; in `read`'s loop, taking off the reader of a failed
`try_read`; holding a guard, its next step the guard's drop releasing
the spin lock (`heldUpgrading` is about to call `upgrade`); in a drop, reading the count of the
spin guards that block the queue's waiters, and notifying the queue; in `upgrade` past the loop,
dropping the emptied upgradeable guard: reading `reader_count()` and notifying the writer queue;
returned. -/
inductive Pc
  | register (l : Loop)
  | attempt (l : Loop)
  | awaitIo (l : Loop)
  | asleep (l : Loop)
  | deregister (l : Loop)
  | undoRead
  | held (m : Mode)
  | heldUpgrading
  | check (q : Queue)
  | notify (q : Queue)
  | upgradedCheck
  | upgradedNotify
  | done
deriving DecidableEq, Repr

/-- The queue a loop registers on. -/
def Loop.queue : Loop → Queue
  | .read | .readUpgradeable _ => .readers
  | .write | .upgrade => .writers

/-- The loop's try of the spin lock. -/
def Loop.tryLock {W : Type*} [RwSpinLock W] : Loop → W → Bool × W
  | .read => tryRead
  | .readUpgradeable _ => tryUpgradeableRead
  | .write => tryWrite
  | .upgrade => tryUpgrade

/-- Where a loop goes when its try fails: `try_read` first takes its reader off the word again. -/
def Loop.failed : Loop → Pc
  | .read => .undoRead
  | .readUpgradeable up => .awaitIo (.readUpgradeable up)
  | .write => .awaitIo .write
  | .upgrade => .awaitIo .upgrade

/-- Where a loop returns to once it has deregistered. -/
def Loop.returns : Loop → Pc
  | .read => .held .read
  | .readUpgradeable false => .held .upgradeable
  | .readUpgradeable true => .heldUpgrading
  | .write => .held .write
  | .upgrade => .upgradedCheck

/-- The two queues, the lock word, the scheduler's state of the tasks, and the threads, task `i`
running thread `i`. -/
structure Sys (W : Type*) where
  lock : W
  queues : Queue → WaitQueue
  tasks : Tasks
  threads : List Pc

/-- `q` with `f` applied to it. -/
def Sys.mapQueue {W : Type*} (s : Sys W) (q : Queue) (f : WaitQueue → WaitQueue) : Sys W :=
  { s with queues := Function.update s.queues q (f (s.queues q)) }

variable {W : Type*} [RwSpinLock W]

/-- The step of thread `i`, as the point it reaches and the state after the step; `none` where it
is on the awaiting list or has returned. -/
def move (s : Sys W) (i : ℕ) : Pc → Option (Pc × Sys W)
  | .register l => some (.attempt l, s.mapQueue l.queue fun q => q.addTask i)
  | .attempt l =>
    let (ok, w) := l.tryLock s.lock
    some (if ok then .deregister l else l.failed, { s with lock := w })
  | .awaitIo l =>
    some (if s.tasks.pendingIo i then .attempt l else .asleep l,
      { s with tasks := s.tasks.sleep i })
  | .asleep l => if s.tasks.awaiting i then none else some (.attempt l, s)
  | .deregister l => some (l.returns, s.mapQueue l.queue fun q => q.removeTask i)
  | .undoRead => some (.awaitIo .read, { s with lock := releaseRead s.lock })
  | .held .read => some (.check .writers, { s with lock := releaseRead s.lock })
  | .held .upgradeable => some (.check .writers, { s with lock := releaseUpgradeable s.lock })
  | .held .write => some (.check .readers, { s with lock := releaseWrite s.lock })
  -- `upgrade` first takes its task off the reader queue
  | .heldUpgrading => some (.register .upgrade, s.mapQueue .readers fun q => q.removeTask i)
  | .check .writers => some (if readerCount s.lock = 0 then .notify .writers else .done, s)
  | .check .readers => some (if writerCount s.lock = 0 then .notify .readers else .done, s)
  | .notify .writers => some (.done, { s with tasks := ((s.queues .writers).notifyOne s.tasks).1 })
  | .notify .readers => some (.done, { s with tasks := ((s.queues .readers).notifyAll s.tasks).1 })
  -- the upgradeable guard, its spin guard taken by `try_upgrade`, is dropped as `upgrade` returns
  | .upgradedCheck =>
    some (if readerCount s.lock = 0 then .upgradedNotify else .held .write, s)
  | .upgradedNotify =>
    some (.held .write, { s with tasks := ((s.queues .writers).notifyOne s.tasks).1 })
  | .done => none

/-- Thread `i` takes one step. -/
def step (s : Sys W) (i : ℕ) : Option (Sys W) :=
  match s.threads[i]? with
  | none => none
  | some pc => (move s i pc).map fun p => { p.2 with threads := s.threads.set i p.1 }

/-- The spin guard a waiting loop keeps: `upgrade` waits with its upgradeable guard. -/
def Loop.keeps : Loop → Option Mode
  | .upgrade => some .upgradeable
  | _ => none

/-- The spin guard a loop's try takes. -/
def Loop.takes : Loop → Mode
  | .read => .read
  | .readUpgradeable _ => .upgradeable
  | .write | .upgrade => .write

/-- The spin guard a thread holds. -/
def Pc.spinGuard : Pc → Option Mode
  | .register l | .attempt l | .awaitIo l | .asleep l => l.keeps
  | .deregister l => some l.takes
  | .held m => some m
  | .heldUpgrading => some .upgradeable
  | .upgradedCheck | .upgradedNotify => some .write
  | .undoRead | .check _ | .notify _ | .done => none

/-- Whether a thread holds the spin guard `m`. -/
def Pc.holds (m : Mode) (pc : Pc) : Bool := pc.spinGuard == some m

/-- Whether a thread's failed `try_read` has left its reader in the word. -/
def Pc.undoing : Pc → Bool
  | .undoRead => true
  | _ => false

/-- What a thread adds to the lock word: its spin guard, and a reader of a failed `try_read`. -/
def Pc.counted (pc : Pc) : Option Mode × Bool := (pc.spinGuard, pc.undoing)

/-- The queue a thread is registered on, from `add_task` to `remove_task`. -/
def Pc.queued : Pc → Option Queue
  | .attempt l | .awaitIo l | .asleep l | .deregister l => some l.queue
  | .undoRead => some .readers
  | _ => none

/-- About to call `notify_one` on the writer queue. -/
def Pc.notifiesWriters : Pc → Bool
  | .notify .writers | .upgradedNotify => true
  | _ => false

/-- At the start of `read`, `read_upgradeable` or `write`. -/
def Pc.atStart : Pc → Bool
  | .register .read | .register (.readUpgradeable _) | .register .write => true
  | _ => false

/-- In `write`, holding its guard, or in the guard's drop. -/
def Pc.writer : Pc → Bool
  | .register .write | .attempt .write | .awaitIo .write | .asleep .write | .deregister .write
  | .held .write | .check .readers | .notify .readers | .done => true
  | _ => false

variable {s s' : Sys W} {i : ℕ} {pc pc' : Pc}

theorem step_cases (h : step s i = some s') :
    ∃ pc pc' s'', s.threads[i]? = some pc ∧ move s i pc = some (pc', s'') ∧
      s' = { s'' with threads := s.threads.set i pc' } := by
  unfold step at h
  cases hi : s.threads[i]? with
  | none => rw [hi] at h; cases h
  | some pc =>
    rw [hi] at h
    obtain ⟨⟨pc', s''⟩, hm, rfl⟩ := Option.map_eq_some_iff.1 h
    exact ⟨pc, pc', s'', rfl, hm, rfl⟩

omit [RwSpinLock W] in
@[simp]
theorem mapQueue_lock (q : Queue) (f : WaitQueue → WaitQueue) : (s.mapQueue q f).lock = s.lock :=
  rfl

omit [RwSpinLock W] in
@[simp]
theorem mapQueue_tasks (q : Queue) (f : WaitQueue → WaitQueue) :
    (s.mapQueue q f).tasks = s.tasks :=
  rfl

omit [RwSpinLock W] in
theorem mapQueue_queues (q q' : Queue) (f : WaitQueue → WaitQueue) :
    (s.mapQueue q f).queues q' = if q' = q then f (s.queues q) else s.queues q' := by
  simp only [Sys.mapQueue, Function.update_apply]


/-! ## The lock word and the guards held -/

/-- The lock word agrees with what a thread at `pc` adds to it and what the others add, `r` read,
`u` upgradeable and `x` write guards and `t` readers of failed `try_read`s. -/
def HeldWith (w : W) (r t u x : ℕ) (pc : Pc) : Prop :=
  Held (state w) (r + if pc.holds .read then 1 else 0) (t + if pc.undoing then 1 else 0)
    (u + if pc.holds .upgradeable then 1 else 0) (x + if pc.holds .write then 1 else 0)

theorem HeldWith.keep {w : W} {r t u x : ℕ} (h : HeldWith w r t u x pc)
    (hg : pc'.counted = pc.counted) : HeldWith w r t u x pc' := by
  simp only [Pc.counted, Prod.mk.injEq] at hg
  unfold HeldWith Pc.holds at *
  rw [hg.1, hg.2]
  exact h

/-- What a move does to the lock word: each `try_` that succeeds takes its guard, each drop gives
one back, and a failed `try_read` adds a reader that its next step takes off. -/
theorem move_held {s'' : Sys W} {r t u x : ℕ} (h : move s i pc = some (pc', s''))
    (hw : HeldWith s.lock r t u x pc) : HeldWith s''.lock r t u x pc' := by
  cases pc with
  | register l =>
    cases h
    exact hw.keep rfl
  | awaitIo l =>
    cases h
    exact hw.keep (by split <;> rfl)
  | asleep l =>
    simp only [move] at h
    split_ifs at h
    cases h
    exact hw.keep rfl
  | attempt l =>
    simp only [move] at h
    cases hok : (l.tryLock s.lock).1 <;> simp only [hok, Bool.false_eq_true, ↓reduceIte] at h <;>
      cases h
    · -- the try failed: the word is left as it was, but for the `UPGRADED` bit and the reader of
      -- `try_read`
      cases l with
      | readUpgradeable up => exact Held.tryUpgradeableRead_fail hw hok
      | read => exact Held.tryRead_fail hw
      | write => exact HeldWith.keep (Held.tryWrite_fail hw hok) rfl
      | upgrade => exact HeldWith.keep (Held.tryUpgrade_fail hw hok) rfl
    · cases l with
      | read => exact Held.tryRead_ok hw hok
      | readUpgradeable up => exact Held.tryUpgradeableRead_ok hw hok
      | write => exact Held.tryWrite_ok hw hok
      | upgrade => exact Held.tryUpgrade_ok hw hok
  | deregister l =>
    cases h
    cases l with
    | readUpgradeable up => cases up <;> exact hw.keep rfl
    | read | write | upgrade => exact hw.keep rfl
  | undoRead =>
    cases h
    exact Held.undoRead hw
  | held m =>
    cases m <;> cases h
    · exact Held.releaseRead hw
    · exact Held.releaseUpgradeable hw
    · exact Held.releaseWrite hw
  | heldUpgrading =>
    cases h
    exact hw.keep rfl
  | check q =>
    cases q <;> cases h <;> exact hw.keep (by split <;> rfl)
  | notify q =>
    cases q <;> cases h <;> exact hw.keep rfl
  | upgradedCheck =>
    cases h
    exact hw.keep (by split <;> rfl)
  | upgradedNotify =>
    cases h
    exact hw.keep rfl
  | done => cases h


/-! ## The invariant -/

/-- The lock word agrees with the guards the threads hold; each queue holds once each task
registered on it. -/
structure Inv (s : Sys W) : Prop where
  held : Held (state s.lock) (s.threads.countP (Pc.holds .read)) (s.threads.countP Pc.undoing)
    (s.threads.countP (Pc.holds .upgradeable)) (s.threads.countP (Pc.holds .write))
  nodup : ∀ q, (s.queues q).tasks.Nodup
  queued : ∀ q j, j ∈ (s.queues q).tasks ↔ ∃ pc, s.threads[j]? = some pc ∧ pc.queued = some q

/-- The lock word after a move, from `move_held`, with each count split into the other threads'
and the mover's. -/
theorem Inv.held_step {s'' : Sys W} (hinv : Inv s) (hi : s.threads[i]? = some pc)
    (hm : move s i pc = some (pc', s'')) :
    Held (state s''.lock) ((s.threads.set i pc').countP (Pc.holds .read))
      ((s.threads.set i pc').countP Pc.undoing)
      ((s.threads.set i pc').countP (Pc.holds .upgradeable))
      ((s.threads.set i pc').countP (Pc.holds .write)) := by
  obtain ⟨r, hr, hr'⟩ := countP_set_split hi (Pc.holds .read) pc'
  obtain ⟨t, ht, ht'⟩ := countP_set_split hi Pc.undoing pc'
  obtain ⟨u, hu, hu'⟩ := countP_set_split hi (Pc.holds .upgradeable) pc'
  obtain ⟨x, hx, hx'⟩ := countP_set_split hi (Pc.holds .write) pc'
  have hw : HeldWith s.lock r t u x pc := by
    unfold HeldWith
    rw [← hr, ← ht, ← hu, ← hx]
    exact hinv.held
  have hw' := move_held hm hw
  unfold HeldWith at hw'
  rw [hr', ht', hu', hx']
  exact hw'

/-- The queues after a move of thread `i`, given what the move does to `i`'s registrations and
that it leaves every other task's alone. -/
theorem Inv.queued_step {qs : Queue → WaitQueue} (hinv : Inv s) (hi : s.threads[i]? = some pc)
    (hother : ∀ q j, j ≠ i → (j ∈ (qs q).tasks ↔ j ∈ (s.queues q).tasks))
    (hself : ∀ q, i ∈ (qs q).tasks ↔ pc'.queued = some q) :
    ∀ q j, j ∈ (qs q).tasks ↔ ∃ pc, (s.threads.set i pc')[j]? = some pc ∧ pc.queued = some q := by
  intro q j
  rw [getElem?_set_of_getElem? hi pc' j]
  split_ifs with hj
  · subst hj
    simp [hself q]
  · rw [hother q j hj, hinv.queued q j]

/-- A thread at `pc` is on the queues `pc.queued` says. -/
theorem Inv.mem_iff (hinv : Inv s) (hi : s.threads[i]? = some pc) (q : Queue) :
    i ∈ (s.queues q).tasks ↔ pc.queued = some q := by
  rw [hinv.queued q i]
  constructor
  · rintro ⟨pc', hpc', hq⟩
    rw [hi, Option.some_inj] at hpc'
    exact hpc' ▸ hq
  · exact fun hq => ⟨pc, hi, hq⟩

@[simp]
theorem Loop.queued_returns (l : Loop) : l.returns.queued = none := by
  rcases l with _ | ⟨_ | _⟩ | _ | _ <;> rfl

/-- A move that leaves the queues alone and keeps the thread on the queues it was on. -/
theorem Inv.queued_keep {s'' : Sys W} (hinv : Inv s) (hi : s.threads[i]? = some pc)
    (hq : s''.queues = s.queues) (hqd : pc'.queued = pc.queued) :
    ∀ q j, j ∈ (s''.queues q).tasks ↔
      ∃ pc, (s.threads.set i pc')[j]? = some pc ∧ pc.queued = some q := by
  rw [hq]
  exact hinv.queued_step hi (fun _ _ _ => Iff.rfl) fun q => by
    rw [hinv.mem_iff hi q, hqd]

/-- `add_task` of a thread on no queue, onto the queue of its loop. -/
theorem Inv.queued_add (hinv : Inv s) (hi : s.threads[i]? = some pc) (hnone : pc.queued = none)
    {l : Loop} (hqd : pc'.queued = some l.queue) :
    (∀ q, ((s.mapQueue l.queue fun q => q.addTask i).queues q).tasks.Nodup) ∧
    ∀ q j, j ∈ ((s.mapQueue l.queue fun q => q.addTask i).queues q).tasks ↔
      ∃ pc, (s.threads.set i pc')[j]? = some pc ∧ pc.queued = some q := by
  have hni : ∀ q, i ∉ (s.queues q).tasks := fun q h => by simp [(hinv.mem_iff hi q).1 h] at hnone
  have hnodup : ∀ q, ((s.mapQueue l.queue fun q => q.addTask i).queues q).tasks.Nodup := by
    intro q
    rw [mapQueue_queues]
    split_ifs with hq
    · subst hq
      exact (hinv.nodup _).append (List.nodup_singleton i) (by simpa using hni _)
    · exact hinv.nodup q
  refine ⟨hnodup, hinv.queued_step hi (fun q j hj => ?_) fun q => ?_⟩
  · rw [mapQueue_queues]
    split_ifs with hq
    · subst hq
      simp [WaitQueue.addTask, hj]
    · rfl
  · rw [mapQueue_queues, hqd]
    split_ifs with hq
    · subst hq
      simp [WaitQueue.addTask]
    · simp [hni q, Ne.symm hq]

/-- `remove_task` of a thread, from the queue it was on or from one it was not on, to no queue. -/
theorem Inv.queued_remove (hinv : Inv s) (hi : s.threads[i]? = some pc) (q₀ : Queue)
    (hqd : pc.queued = some q₀ ∨ pc.queued = none) (hnone : pc'.queued = none) :
    (∀ q, ((s.mapQueue q₀ fun q => q.removeTask i).queues q).tasks.Nodup) ∧
    ∀ q j, j ∈ ((s.mapQueue q₀ fun q => q.removeTask i).queues q).tasks ↔
      ∃ pc, (s.threads.set i pc')[j]? = some pc ∧ pc.queued = some q := by
  have hnodup : ∀ q, ((s.mapQueue q₀ fun q => q.removeTask i).queues q).tasks.Nodup := by
    intro q
    rw [mapQueue_queues]
    split_ifs with hq
    · exact (hinv.nodup q₀).erase i
    · exact hinv.nodup q
  refine ⟨hnodup, hinv.queued_step hi (fun q j hj => ?_) fun q => ?_⟩
  · rw [mapQueue_queues]
    split_ifs with hq
    · subst hq
      exact List.mem_erase_of_ne hj
    · rfl
  · rw [mapQueue_queues, hnone]
    simp only [reduceCtorEq, iff_false]
    split_ifs with hq
    · exact (hinv.nodup q₀).not_mem_erase
    · -- the thread was on `q₀` or on no queue, so not on `q`
      rw [hinv.mem_iff hi q]
      rcases hqd with hqd | hqd <;> simp [hqd, Ne.symm hq]

/-- Every step keeps the invariant. -/
theorem Inv.step (hinv : Inv s) (h : step s i = some s') : Inv s' := by
  obtain ⟨pc, pc', s'', hi, hm, rfl⟩ := step_cases h
  have hheld := hinv.held_step hi hm
  -- the queues: one case for each point that registers or deregisters, the rest keep them
  cases pc with
  | register l =>
    cases hm
    obtain ⟨hn, hq⟩ := hinv.queued_add hi rfl (show (Pc.attempt l).queued = some l.queue from rfl)
    exact ⟨hheld, hn, hq⟩
  | deregister l =>
    cases hm
    obtain ⟨hn, hq⟩ := hinv.queued_remove hi l.queue (Or.inl rfl) (Loop.queued_returns l)
    exact ⟨hheld, hn, hq⟩
  | heldUpgrading =>
    cases hm
    obtain ⟨hn, hq⟩ := hinv.queued_remove hi .readers (Or.inr rfl)
      (show (Pc.register .upgrade).queued = none from rfl)
    exact ⟨hheld, hn, hq⟩
  | attempt l =>
    cases hm
    exact ⟨hheld, hinv.nodup, hinv.queued_keep hi rfl (by split_ifs <;> cases l <;> rfl)⟩
  | awaitIo l =>
    cases hm
    exact ⟨hheld, hinv.nodup, hinv.queued_keep hi rfl (by split <;> rfl)⟩
  | asleep l =>
    simp only [move] at hm
    split_ifs at hm
    cases hm
    exact ⟨hheld, hinv.nodup, hinv.queued_keep hi rfl rfl⟩
  | undoRead =>
    cases hm
    exact ⟨hheld, hinv.nodup, hinv.queued_keep hi rfl rfl⟩
  | held m =>
    cases m <;> cases hm <;> exact ⟨hheld, hinv.nodup, hinv.queued_keep hi rfl rfl⟩
  | check q =>
    cases q <;> cases hm <;>
      exact ⟨hheld, hinv.nodup, hinv.queued_keep hi rfl (by split <;> rfl)⟩
  | notify q =>
    cases q <;> cases hm <;> exact ⟨hheld, hinv.nodup, hinv.queued_keep hi rfl rfl⟩
  | upgradedCheck =>
    cases hm
    exact ⟨hheld, hinv.nodup, hinv.queued_keep hi rfl (by split <;> rfl)⟩
  | upgradedNotify =>
    cases hm
    exact ⟨hheld, hinv.nodup, hinv.queued_keep hi rfl rfl⟩
  | done => cases hm

/-- A free lock, empty queues, and every thread at the start of `read`, `read_upgradeable` or
`write`. -/
theorem inv_of_atStart (hlock : state s.lock = .free) (hq : ∀ q, (s.queues q).tasks = [])
    (hstart : ∀ pc ∈ s.threads, pc.atStart = true) : Inv s := by
  -- a thread at its start adds nothing to the lock word and is on no queue
  have hfree : ∀ pc ∈ s.threads, pc.counted = (none, false) ∧ pc.queued = none := by
    intro pc hpc
    have := hstart pc hpc
    cases pc with
    | register l => cases l <;> simp_all [Pc.atStart, Pc.counted, Pc.spinGuard, Pc.queued,
        Pc.undoing, Loop.keeps]
    | _ => simp [Pc.atStart] at this
  have hzero : ∀ m, s.threads.countP (Pc.holds m) = 0 := fun m =>
    List.countP_eq_zero.2 fun pc hpc => by
      have := (hfree pc hpc).1
      simp only [Pc.counted, Prod.mk.injEq] at this
      simp [Pc.holds, this.1]
  have hundo : s.threads.countP Pc.undoing = 0 :=
    List.countP_eq_zero.2 fun pc hpc => by
      have := (hfree pc hpc).1
      simp only [Pc.counted, Prod.mk.injEq] at this
      simp [this.2]
  refine ⟨by rw [hlock, hzero, hzero, hzero, hundo]; exact Held.free, fun q => by simp [hq q],
    fun q j => ?_⟩
  simp only [hq q, List.not_mem_nil, false_iff, not_exists, not_and]
  intro pc hj
  simp [(hfree pc (List.mem_of_getElem? hj)).2]


/-- In every interleaving of threads that start at `read`, `read_upgradeable` or `write`, with the
lock free and the queues empty: the lock word counts the read guards held and the readers that
failed `try_read`s have added and not yet taken off, and has its `WRITER` bit set exactly while a
write guard is held; at most one thread holds the write or the upgradeable guard; and while one
holds the write guard, none holds a read guard. -/
theorem rw_mutex_exclusive (hlock : state s.lock = .free) (hq : ∀ q, (s.queues q).tasks = [])
    (hstart : ∀ pc ∈ s.threads, pc.atStart = true) (sched : List ℕ)
    (h : run step s sched = some s') :
    (state s'.lock).readers = s'.threads.countP (Pc.holds .read) + s'.threads.countP Pc.undoing ∧
      ((state s'.lock).writer = true ↔ 0 < s'.threads.countP (Pc.holds .write)) ∧
      s'.threads.countP (Pc.holds .write) + s'.threads.countP (Pc.holds .upgradeable) ≤ 1 ∧
      (0 < s'.threads.countP (Pc.holds .write) → s'.threads.countP (Pc.holds .read) = 0) := by
  have hinv : Inv s' := run_preserves (fun _ _ _ (hc : Inv _) hs => hc.step hs) sched s s'
    (inv_of_atStart hlock hq hstart) h
  exact ⟨hinv.held.readers, hinv.held.writer, hinv.held.exclusive, hinv.held.no_readers⟩

/-- A reader, an upgradeable reader that goes on to upgrade, and a writer. -/
def threeTasks : Sys RwWord :=
  ⟨RwSpinLock.new, fun _ => ⟨[]⟩, Tasks.idle,
    [.register .read, .register (.readUpgradeable true), .register .write]⟩

/-- The reader takes its guard, the upgradeable reader its own beside it, and the writer, finding
the lock taken, sleeps: one read and one upgradeable guard, and the word counts the reader. -/
theorem rw_mutex_exclusive_threeTasks :
    ∃ s', run step threeTasks [0, 0, 0, 1, 1, 1, 2, 2, 2] = some s' ∧
      s'.threads = [.held .read, .heldUpgrading, .asleep .write] ∧
      (state s'.lock).readers = s'.threads.countP (Pc.holds .read) + s'.threads.countP Pc.undoing ∧
      ((state s'.lock).writer = true ↔ 0 < s'.threads.countP (Pc.holds .write)) ∧
      s'.threads.countP (Pc.holds .write) + s'.threads.countP (Pc.holds .upgradeable) ≤ 1 ∧
      (0 < s'.threads.countP (Pc.holds .write) → s'.threads.countP (Pc.holds .read) = 0) :=
  ⟨_, rfl, rfl, rw_mutex_exclusive (s := threeTasks) rfl (fun _ => rfl) (by decide)
    [0, 0, 0, 1, 1, 1, 2, 2, 2] rfl⟩

/-! ## Wakes that never come -/

/-- A thread asleep on the awaiting list does not step. -/
theorem ne_of_asleep {s'' : Sys W} {j : ℕ} {l : Loop} (hi : s.threads[i]? = some (.asleep l))
    (ha : s.tasks.awaiting i = true) (hj : s.threads[j]? = some pc)
    (h : move s j pc = some (pc', s'')) : i ≠ j := by
  rintro rfl
  rw [hi, Option.some_inj] at hj
  subst hj
  simp [move, ha] at h

/-- A move of another thread that is not about to notify the writer queue leaves a task that is
not on the reader queue as it was on the awaiting list: only a sleep of the mover and the wakes of
the reader queue's `notify_all` touch the awaiting list. -/
theorem awaiting_move {s'' : Sys W} {j : ℕ} (h : move s j pc = some (pc', s'')) (hji : i ≠ j)
    (hn : pc.notifiesWriters = false) (hr : i ∉ (s.queues .readers).tasks) :
    s''.tasks.awaiting i = s.tasks.awaiting i := by
  cases pc with
  | awaitIo l =>
    cases h
    exact (Tasks.sleep_of_ne hji).1
  | notify q =>
    cases q with
    | readers =>
      cases h
      exact (WaitQueue.notifyAll_of_not_mem hr).1
    | writers => simp [Pc.notifiesWriters] at hn
  | upgradedNotify => simp [Pc.notifiesWriters] at hn
  | asleep l =>
    simp only [move] at h
    split_ifs at h
    cases h
    rfl
  | held m => cases m <;> cases h <;> rfl
  | check q => cases q <;> cases h <;> rfl
  | register l | attempt l | deregister l | undoRead | heldUpgrading | upgradedCheck =>
    cases h
    rfl
  | done => cases h

section Writers

/-- No point of `write` or of the write guard's drop notifies the writer queue. -/
theorem Pc.notifiesWriters_of_writer (hw : pc.writer = true) : pc.notifiesWriters = false := by
  cases pc with
  | notify q => cases q <;> simp_all [Pc.writer, Pc.notifiesWriters]
  | upgradedNotify => simp [Pc.writer] at hw
  | register _ | attempt _ | awaitIo _ | asleep _ | deregister _ | undoRead | held _
  | heldUpgrading | check _ | upgradedCheck | done => rfl

/-- A writer moves to another writer point, and leaves the reader queue alone. -/
theorem move_writer {s'' : Sys W} (h : move s i pc = some (pc', s'')) (hw : pc.writer = true) :
    pc'.writer = true ∧ s''.queues .readers = s.queues .readers := by
  -- the points of `write` register and deregister on the writer queue only
  have hother : ∀ f : WaitQueue → WaitQueue, (s.mapQueue .writers f).queues .readers =
      s.queues .readers := fun f => by rw [mapQueue_queues, if_neg (by decide)]
  cases pc with
  | register l =>
    cases l <;> simp [Pc.writer] at hw
    cases h
    exact ⟨rfl, hother _⟩
  | attempt l =>
    cases l <;> simp [Pc.writer] at hw
    cases h
    exact ⟨by split_ifs <;> rfl, rfl⟩
  | awaitIo l =>
    cases l <;> simp [Pc.writer] at hw
    cases h
    exact ⟨by split <;> rfl, rfl⟩
  | asleep l =>
    cases l <;> simp [Pc.writer] at hw
    simp only [move] at h
    split_ifs at h
    cases h
    exact ⟨rfl, rfl⟩
  | deregister l =>
    cases l <;> simp [Pc.writer] at hw
    cases h
    exact ⟨rfl, hother _⟩
  | held m =>
    cases m <;> simp [Pc.writer] at hw
    cases h
    exact ⟨rfl, rfl⟩
  | check q =>
    cases q <;> simp [Pc.writer] at hw
    cases h
    exact ⟨by split <;> rfl, rfl⟩
  | notify q =>
    cases q <;> simp [Pc.writer] at hw
    cases h
    exact ⟨rfl, rfl⟩
  | undoRead | heldUpgrading | upgradedCheck | upgradedNotify => simp [Pc.writer] at hw
  | done => cases h

/-- Every thread a writer, and no task on the reader queue. -/
structure WritersOnly (s : Sys W) : Prop where
  writers : ∀ pc ∈ s.threads, pc.writer = true
  readers : (s.queues .readers).tasks = []

theorem WritersOnly.step (hs : WritersOnly s) (h : step s i = some s') : WritersOnly s' := by
  obtain ⟨pc, pc', s'', hi, hm, rfl⟩ := step_cases h
  obtain ⟨hw, hr⟩ := move_writer hm (hs.writers pc (List.mem_of_getElem? hi))
  refine ⟨fun pc'' hpc => ?_, by rw [hr]; exact hs.readers⟩
  rcases List.mem_or_eq_of_mem_set hpc with hpc | rfl
  · exact hs.writers pc'' hpc
  · exact hw

/-- Writer `i`, among writers only, sleeps on the awaiting list. -/
structure WriterStranded (i : ℕ) (s : Sys W) : Prop extends WritersOnly s where
  asleep : s.threads[i]? = some (.asleep .write)
  awaiting : s.tasks.awaiting i = true

theorem WriterStranded.step (hs : WriterStranded i s) {j : ℕ} (h : step s j = some s') :
    WriterStranded i s' := by
  have hw := hs.toWritersOnly.step h
  obtain ⟨pc, pc', s'', hj, hm, rfl⟩ := step_cases h
  have hji := ne_of_asleep hs.asleep hs.awaiting hj hm
  have hn := Pc.notifiesWriters_of_writer (hs.writers pc (List.mem_of_getElem? hj))
  refine ⟨hw, by rw [List.getElem?_set_ne hji.symm]; exact hs.asleep, ?_⟩
  rw [awaiting_move hm hji hn (by simp [hs.readers])]
  exact hs.awaiting

/-- Among writers only, with the reader queue empty at the start: once a writer sleeps on the
awaiting list, it sleeps for good in every interleaving, whatever the other writers do. The drop
of a write guard wakes the reader queue, and nothing wakes the writer queue. -/
theorem writer_wakeup_lost {s₁ s₂ : Sys W} (hw : ∀ pc ∈ s.threads, pc.writer = true)
    (hr : (s.queues .readers).tasks = []) (sched₁ : List ℕ) (h₁ : run step s sched₁ = some s₁)
    (hi : s₁.threads[i]? = some (.asleep .write)) (ha : s₁.tasks.awaiting i = true)
    (sched₂ : List ℕ) (h₂ : run step s₁ sched₂ = some s₂) :
    s₂.threads[i]? = some (.asleep .write) ∧ s₂.tasks.awaiting i = true := by
  have hs₁ : WritersOnly s₁ := run_preserves (fun _ _ _ (hc : WritersOnly _) hs => hc.step hs)
    sched₁ s s₁ ⟨hw, hr⟩ h₁
  have hs₂ : WriterStranded i s₂ :=
    run_preserves (fun _ _ _ (hc : WriterStranded i _) hs => hc.step hs) sched₂ s₁ s₂
      ⟨hs₁, hi, ha⟩ h₂
  exact ⟨hs₂.asleep, hs₂.awaiting⟩

/-- Three tasks that write. -/
def threeWriters : Sys RwWord :=
  ⟨RwSpinLock.new, fun _ => ⟨[]⟩, Tasks.idle,
    [.register .write, .register .write, .register .write]⟩

/-- Task 0 takes the write guard, task 1 finds the lock taken and sleeps, and task 0 drops its
guard: the lock is free, and task 1 still sleeps after task 2 has taken and dropped the guard in
its turn. -/
theorem writer_wakeup_lost_threeWriters :
    ∃ s₁ s₂, run step threeWriters [0, 0, 0, 1, 1, 1, 0, 0, 0] = some s₁ ∧
      s₁.lock = RwSpinLock.new ∧ run step s₁ [2, 2, 2, 2, 2, 2] = some s₂ ∧
      s₂.lock = RwSpinLock.new ∧ s₂.threads = [.done, .asleep .write, .done] ∧
      s₂.threads[1]? = some (.asleep .write) ∧ s₂.tasks.awaiting 1 = true :=
  ⟨_, _, rfl, rfl, rfl, rfl, rfl,
    writer_wakeup_lost (s := threeWriters) (by decide) rfl [0, 0, 0, 1, 1, 1, 0, 0, 0] rfl rfl rfl
      [2, 2, 2, 2, 2, 2] rfl⟩

end Writers

section Upgrade

/-- No move reaches a `notify_one` of the writer queue while `reader_count()` is not 0. -/
theorem move_quiet {s'' : Sys W} {j : ℕ} (h : move s j pc = some (pc', s''))
    (hn : pc.notifiesWriters = false) (hr : 0 < readerCount s.lock) :
    pc'.notifiesWriters = false := by
  cases pc with
  | check q =>
    cases q with
    | readers =>
      cases h
      split <;> rfl
    | writers =>
      cases h
      rw [if_neg (by omega)]
      rfl
  | upgradedCheck =>
    cases h
    rw [if_neg (by omega)]
    rfl
  | attempt l =>
    cases h
    split_ifs <;> cases l <;> rfl
  | awaitIo l =>
    cases h
    split <;> rfl
  | asleep l =>
    simp only [move] at h
    split_ifs at h
    cases h
    rfl
  | deregister l =>
    cases h
    rcases l with _ | ⟨_ | _⟩ | _ | _ <;> rfl
  | held m => cases m <;> cases h <;> rfl
  | notify q => cases q <;> cases h <;> rfl
  | register l | undoRead | heldUpgrading | upgradedNotify =>
    cases h
    rfl
  | done => cases h

/-- Task `i` sleeps on the awaiting list in `upgrade`, and no thread is about to notify the writer
queue. -/
structure UpgradeStranded (i : ℕ) (s : Sys W) : Prop where
  inv : Inv s
  asleep : s.threads[i]? = some (.asleep .upgrade)
  awaiting : s.tasks.awaiting i = true
  quiet : ∀ pc ∈ s.threads, pc.notifiesWriters = false

theorem UpgradeStranded.step (hs : UpgradeStranded i s) {j : ℕ} (h : step s j = some s') :
    UpgradeStranded i s' := by
  have hinv := hs.inv.step h
  obtain ⟨pc, pc', s'', hj, hm, rfl⟩ := step_cases h
  have hji := ne_of_asleep hs.asleep hs.awaiting hj hm
  have hn := hs.quiet pc (List.mem_of_getElem? hj)
  -- the sleeper keeps its upgradeable guard, which `reader_count()` counts
  have hu : 0 < s.threads.countP (Pc.holds .upgradeable) :=
    List.countP_pos_iff.2 ⟨_, List.mem_of_getElem? hs.asleep, rfl⟩
  -- and it is registered on the writer queue, not on the reader queue
  have hr : i ∉ (s.queues .readers).tasks := fun hmem => by
    cases (hs.inv.mem_iff hs.asleep .readers).1 hmem
  refine ⟨hinv, by rw [List.getElem?_set_ne hji.symm]; exact hs.asleep, ?_, fun pc'' hpc => ?_⟩
  · rw [awaiting_move hm hji hn hr]
    exact hs.awaiting
  · rcases List.mem_or_eq_of_mem_set hpc with hpc | rfl
    · exact hs.quiet pc'' hpc
    · exact move_quiet hm hn (hs.inv.held.readerCount_pos hu)

/-- In every interleaving of threads that start at `read`, `read_upgradeable` or `write`, with the
lock free and the queues empty: once a task sleeps on the awaiting list in `upgrade` while no
thread is about to notify the writer queue, it sleeps for good, whatever the other threads do.
The sleeper's own upgradeable guard keeps `reader_count()` above 0, so the drop of the last read
guard does not notify the writer queue. -/
theorem upgrade_wakeup_lost {s₁ s₂ : Sys W} (hlock : state s.lock = .free)
    (hq : ∀ q, (s.queues q).tasks = []) (hstart : ∀ pc ∈ s.threads, pc.atStart = true)
    (sched₁ : List ℕ) (h₁ : run step s sched₁ = some s₁)
    (hi : s₁.threads[i]? = some (.asleep .upgrade)) (ha : s₁.tasks.awaiting i = true)
    (hn : ∀ pc ∈ s₁.threads, pc.notifiesWriters = false)
    (sched₂ : List ℕ) (h₂ : run step s₁ sched₂ = some s₂) :
    s₂.threads[i]? = some (.asleep .upgrade) ∧ s₂.tasks.awaiting i = true := by
  have hinv : Inv s₁ := run_preserves (fun _ _ _ (hc : Inv _) hs => hc.step hs) sched₁ s s₁
    (inv_of_atStart hlock hq hstart) h₁
  have hs : UpgradeStranded i s₂ :=
    run_preserves (fun _ _ _ (hc : UpgradeStranded i _) hs => hc.step hs) sched₂ s₁ s₂
      ⟨hinv, hi, ha, hn⟩ h₂
  exact ⟨hs.asleep, hs.awaiting⟩

/-- The reader takes its guard; the upgradeable reader takes its own, calls `upgrade`, and, the
reader still holding its guard, sleeps. Then the reader drops its guard, finding `reader_count()`
at 1, and the writer finds the lock taken and sleeps too: the upgrading task holds the only guard
and never wakes. -/
theorem upgrade_wakeup_lost_threeTasks :
    ∃ s₁ s₂, run step threeTasks [0, 0, 0, 1, 1, 1, 1, 1, 1, 1] = some s₁ ∧
      run step s₁ [0, 0, 2, 2, 2] = some s₂ ∧
      s₂.threads = [.done, .asleep .upgrade, .asleep .write] ∧ state s₂.lock = ⟨false, true, 0⟩ ∧
      s₂.threads[1]? = some (.asleep .upgrade) ∧ s₂.tasks.awaiting 1 = true :=
  ⟨_, _, rfl, rfl, rfl, rfl,
    upgrade_wakeup_lost (s := threeTasks) rfl (fun _ => rfl) (by decide)
      [0, 0, 0, 1, 1, 1, 1, 1, 1, 1] rfl rfl rfl (by decide) [0, 0, 2, 2, 2] rfl⟩

end Upgrade

end Cykusz.Kernel.RwMutex
