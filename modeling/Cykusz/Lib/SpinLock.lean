import Mathlib

/-!
# Spin locks

The spin locks of the crate `spin`, as the kernel's sleeping locks use them: through their atomic
updates, each one step of a thread. The crate is not part of the program, so a lock is a
parameter, a type of lock words with the crate's operations, and what is taken from the crate is
stated as laws over them.

`SpinLock` is a mutex: `try_lock` takes it if and only if it is free, and the drop of its guard
frees it, as `is_locked` tells. `Bool`, the crate's `AtomicBool` under `compare_exchange(false,
true)` and `store(false)`, is one.

`RwSpinLock` is a reader-writer lock, seen through its state (`RwState`): its `WRITER` and
`UPGRADED` bits and the readers it counts. The laws say what each atomic update does to the state,
as the crate's `RwLock` (0.12) makes them. `try_read` is two updates: its `fetch_add` counts a
reader whatever follows and, where the value returned had a bit set, a `fetch_sub` takes the
reader off again. A failed `try_upgradeable_read` leaves `UPGRADED` set, for the holder of the
other guard to clear; a failed `try_write` or `try_upgrade` leaves the state as it was; each drop
takes off what its guard put on. `RwWord`, the crate's `AtomicUsize` with `WRITER = 1`,
`UPGRADED = 2` and `READER = 4`, is one.

`RwSpinLock.Held` says that a state agrees with the guards held: `r` read, `u` upgradeable and `x`
write guards, and `t` readers of failed `try_read`s not yet taken off. Each update keeps it, from
the laws alone: a write guard excludes every other guard, and an upgradeable guard another one.
-/

/-! ## Mutexes -/

/-- A type `L` of spin locks with the operations of the crate's `Mutex`: `tryLock` returns whether
it took the lock, and `unlock` is the drop of its guard. -/
class SpinLock (L : Type*) where
  new : L
  isLocked : L → Bool
  tryLock : L → Bool × L
  unlock : L → L
  isLocked_new : isLocked new = false
  tryLock_fst (l : L) : (tryLock l).1 = !isLocked l
  isLocked_tryLock (l : L) : isLocked (tryLock l).2 = true
  isLocked_unlock (l : L) : isLocked (unlock l) = false

attribute [simp] SpinLock.isLocked_new SpinLock.tryLock_fst SpinLock.isLocked_tryLock
  SpinLock.isLocked_unlock

/-- The crate's `SpinMutex`, an `AtomicBool`: `try_lock` is `compare_exchange(false, true)`, the
drop of the guard `store(false)`. -/
instance : SpinLock Bool where
  new := false
  isLocked l := l
  tryLock l := (!l, true)
  unlock _ := false
  isLocked_new := rfl
  tryLock_fst _ := rfl
  isLocked_tryLock _ := rfl
  isLocked_unlock _ := rfl

/-! ## Reader-writer locks -/

/-- What a reader-writer lock word says: its `WRITER` bit, its `UPGRADED` bit, and the readers
counted in the bits above them. -/
structure RwState where
  writer : Bool
  upgraded : Bool
  readers : ℕ
deriving DecidableEq, Repr

/-- The state of a free lock, the word 0. -/
def RwState.free : RwState := ⟨false, false, 0⟩

/-- A type `W` of reader-writer lock words with the operations of the crate's `RwLock`: each
`try_` returns whether it took its guard, each `release` is the drop of a guard, and the laws are
what they do to the state. -/
class RwSpinLock (W : Type*) where
  new : W
  state : W → RwState
  tryRead : W → Bool × W
  tryUpgradeableRead : W → Bool × W
  tryWrite : W → Bool × W
  tryUpgrade : W → Bool × W
  releaseRead : W → W
  releaseUpgradeable : W → W
  releaseWrite : W → W
  readerCount : W → ℕ
  writerCount : W → ℕ
  state_new : state new = .free
  /-- The `fetch_add(READER)` of `try_read`: a reader is counted, and the guard taken unless a bit
  was set. -/
  tryRead_fst (w : W) : (tryRead w).1 = !((state w).writer || (state w).upgraded)
  state_tryRead (w : W) : state (tryRead w).2 = { state w with readers := (state w).readers + 1 }
  /-- The `fetch_or(UPGRADED)` of `try_upgradeable_read`. -/
  tryUpgradeableRead_fst (w : W) :
    (tryUpgradeableRead w).1 = !((state w).writer || (state w).upgraded)
  state_tryUpgradeableRead (w : W) :
    state (tryUpgradeableRead w).2 = { state w with upgraded := true }
  /-- The `compare_exchange(0, WRITER)` of `try_write`. -/
  tryWrite_fst (w : W) : (tryWrite w).1 = decide (state w = .free)
  state_tryWrite (w : W) :
    state (tryWrite w).2 = if state w = .free then ⟨true, false, 0⟩ else state w
  /-- The `compare_exchange(UPGRADED, WRITER)` of the upgradeable guard's `try_upgrade`. -/
  tryUpgrade_fst (w : W) : (tryUpgrade w).1 = decide (state w = ⟨false, true, 0⟩)
  state_tryUpgrade (w : W) :
    state (tryUpgrade w).2 = if state w = ⟨false, true, 0⟩ then ⟨true, false, 0⟩ else state w
  /-- The `fetch_sub(READER)` of a read guard's drop, with a reader counted. -/
  state_releaseRead (w : W) (h : 0 < (state w).readers) :
    state (releaseRead w) = { state w with readers := (state w).readers - 1 }
  /-- The `fetch_sub(UPGRADED)` of the upgradeable guard's drop, with the bit set. -/
  state_releaseUpgradeable (w : W) (h : (state w).upgraded = true) :
    state (releaseUpgradeable w) = { state w with upgraded := false }
  /-- The `fetch_and(!(WRITER | UPGRADED))` of the write guard's drop. -/
  state_releaseWrite (w : W) :
    state (releaseWrite w) = { state w with writer := false, upgraded := false }
  readerCount_eq (w : W) : readerCount w = (state w).readers + if (state w).upgraded then 1 else 0
  writerCount_eq (w : W) : writerCount w = if (state w).writer then 1 else 0

/-- The word of the crate's `RwLock`, an `AtomicUsize` of which bit 0 is `WRITER`, bit 1
`UPGRADED`, and the bits above count the readers. Its cap on readers, which panics, and the wrap of
the word lie far above any number of threads. -/
structure RwWord where
  bits : ℕ
deriving DecidableEq, Repr

namespace RwWord

/-- The state the bits say: bit 0, bit 1, and `state / READER`. -/
def state (w : RwWord) : RwState := ⟨w.bits.testBit 0, w.bits.testBit 1, w.bits / 4⟩

/-- The state, in the arithmetic of the bits. -/
theorem state_eq (w : RwWord) :
    w.state = ⟨decide (w.bits % 2 = 1), decide (w.bits / 2 % 2 = 1), w.bits / 4⟩ := by
  simp only [state, Nat.testBit_zero, Nat.testBit_succ]

theorem state_eq_free {w : RwWord} : w.state = .free ↔ w.bits = 0 := by
  simp only [state_eq, RwState.free, RwState.mk.injEq, decide_eq_false_iff_not]
  omega

theorem state_eq_upgraded {w : RwWord} : w.state = ⟨false, true, 0⟩ ↔ w.bits = 2 := by
  simp only [state_eq, RwState.mk.injEq, decide_eq_false_iff_not, decide_eq_true_eq]
  omega

/-- `try_read`'s `fetch_add(READER)`, and whether the value returned had `WRITER` or `UPGRADED`
clear. -/
def tryRead (w : RwWord) : Bool × RwWord := (decide (w.bits % 4 = 0), ⟨w.bits + 4⟩)

/-- `try_upgradeable_read`'s `fetch_or(UPGRADED)`: the bit set where it was clear. -/
def tryUpgradeableRead (w : RwWord) : Bool × RwWord :=
  (decide (w.bits % 4 = 0), ⟨if w.bits / 2 % 2 = 1 then w.bits else w.bits + 2⟩)

/-- `try_write`'s `compare_exchange(0, WRITER)`. -/
def tryWrite (w : RwWord) : Bool × RwWord := if w.bits = 0 then (true, ⟨1⟩) else (false, w)

/-- `try_upgrade`'s `compare_exchange(UPGRADED, WRITER)`. -/
def tryUpgrade (w : RwWord) : Bool × RwWord := if w.bits = 2 then (true, ⟨1⟩) else (false, w)

/-- `fetch_sub(READER)`. -/
def releaseRead (w : RwWord) : RwWord := ⟨w.bits - 4⟩

/-- `fetch_sub(UPGRADED)`. -/
def releaseUpgradeable (w : RwWord) : RwWord := ⟨w.bits - 2⟩

/-- `fetch_and(!(WRITER | UPGRADED))`: the two low bits cleared. -/
def releaseWrite (w : RwWord) : RwWord := ⟨w.bits - w.bits % 4⟩

/-- `reader_count`: `state / READER + (state & UPGRADED) / UPGRADED`. -/
def readerCount (w : RwWord) : ℕ := w.bits / 4 + w.bits / 2 % 2

/-- `writer_count`: `(state & WRITER) / WRITER`. -/
def writerCount (w : RwWord) : ℕ := w.bits % 2

instance : RwSpinLock RwWord where
  new := ⟨0⟩
  state := state
  tryRead := tryRead
  tryUpgradeableRead := tryUpgradeableRead
  tryWrite := tryWrite
  tryUpgrade := tryUpgrade
  releaseRead := releaseRead
  releaseUpgradeable := releaseUpgradeable
  releaseWrite := releaseWrite
  readerCount := readerCount
  writerCount := writerCount
  state_new := rfl
  tryRead_fst w := by
    rw [Bool.eq_iff_iff]
    simp [tryRead, state_eq]
    omega
  state_tryRead w := by
    simp only [tryRead, state_eq, RwState.mk.injEq, decide_eq_decide]
    omega
  tryUpgradeableRead_fst w := by
    rw [Bool.eq_iff_iff]
    simp [tryUpgradeableRead, state_eq]
    omega
  state_tryUpgradeableRead w := by
    unfold tryUpgradeableRead
    split_ifs with h <;> simp only [state_eq, RwState.mk.injEq, decide_eq_decide,
      decide_eq_true_eq, and_true, true_and] <;> omega
  tryWrite_fst w := by
    unfold tryWrite
    split_ifs with h <;> simp [state_eq_free, h]
  state_tryWrite w := by
    by_cases h : w.bits = 0
    · rw [tryWrite, if_pos h, if_pos (state_eq_free.2 h)]
      rfl
    · rw [tryWrite, if_neg h, if_neg (mt state_eq_free.1 h)]
  tryUpgrade_fst w := by
    unfold tryUpgrade
    split_ifs with h <;> simp [state_eq_upgraded, h]
  state_tryUpgrade w := by
    by_cases h : w.bits = 2
    · rw [tryUpgrade, if_pos h, if_pos (state_eq_upgraded.2 h)]
      rfl
    · rw [tryUpgrade, if_neg h, if_neg (mt state_eq_upgraded.1 h)]
  state_releaseRead w h := by
    simp only [releaseRead, state_eq, RwState.mk.injEq, decide_eq_decide] at h ⊢
    omega
  state_releaseUpgradeable w h := by
    simp only [releaseUpgradeable, state_eq, RwState.mk.injEq, decide_eq_decide, decide_eq_true_eq,
      decide_eq_false_iff_not] at h ⊢
    omega
  state_releaseWrite w := by
    simp only [releaseWrite, state_eq, RwState.mk.injEq, decide_eq_false_iff_not]
    omega
  readerCount_eq w := by
    simp only [readerCount, state_eq, decide_eq_true_eq]
    split_ifs <;> omega
  writerCount_eq w := by
    simp only [writerCount, state_eq, decide_eq_true_eq]
    split_ifs <;> omega

end RwWord

/-! ## The guards held -/

namespace RwSpinLock

/-- The state of a lock of which `r` read guards, `u` upgradeable guards and `x` write guards are
held, and in which `t` failed `try_read`s have left their readers: the readers are counted; the
`WRITER` bit is set while a write guard is held; a write guard excludes every other guard, and an
upgradeable guard another upgradeable one; the `UPGRADED` bit is set while the upgradeable guard is
held, and otherwise only while a write guard is. -/
structure Held (σ : RwState) (r t u x : ℕ) : Prop where
  readers : σ.readers = r + t
  writer : σ.writer = true ↔ 0 < x
  exclusive : x + u ≤ 1
  no_readers : 0 < x → r = 0
  upgraded : 0 < u → σ.upgraded = true
  upgraded_held : σ.upgraded = true → 0 < u ∨ 0 < x

namespace Held

variable {W : Type*} [RwSpinLock W] {w : W} {r t u x : ℕ}

theorem free : Held RwState.free 0 0 0 0 :=
  ⟨rfl, by simp [RwState.free], by omega, fun _ => rfl, fun h => absurd h (lt_irrefl 0),
    fun h => by simp [RwState.free] at h⟩

/-- A clear `WRITER` bit: no write guard. -/
theorem no_writer {σ : RwState} (h : Held σ r t u x) (hw : σ.writer = false) : x = 0 := by
  have := h.writer
  simp only [hw, Bool.false_eq_true, false_iff] at this
  omega

/-- A clear `UPGRADED` bit: no upgradeable guard. -/
theorem no_upgradeable {σ : RwState} (h : Held σ r t u x) (hu : σ.upgraded = false) : u = 0 :=
  Nat.eq_zero_of_not_pos fun hpos => by simp [h.upgraded hpos] at hu

theorem tryRead_ok (h : Held (state w) r t u x) (hok : (tryRead w).1 = true) :
    Held (state (tryRead w).2) (r + 1) t u x := by
  -- neither bit was set, so no write guard is held
  rw [tryRead_fst, Bool.not_eq_true', Bool.or_eq_false_iff] at hok
  have hx := h.no_writer hok.1
  rw [state_tryRead]
  exact ⟨by simp [h.readers]; omega, h.writer, h.exclusive, fun hx' => absurd hx' (by omega),
    h.upgraded, h.upgraded_held⟩

/-- A failed `try_read` leaves a reader in the word, which holds no guard. -/
theorem tryRead_fail (h : Held (state w) r t u x) : Held (state (tryRead w).2) r (t + 1) u x := by
  rw [state_tryRead]
  exact ⟨by simp [h.readers]; omega, h.writer, h.exclusive, h.no_readers, h.upgraded,
    h.upgraded_held⟩

/-- The `fetch_sub` of a failed `try_read` takes its reader off. -/
theorem undoRead (h : Held (state w) r (t + 1) u x) : Held (state (releaseRead w)) r t u x := by
  rw [state_releaseRead w (by rw [h.readers]; omega)]
  exact ⟨by simp [h.readers], h.writer, h.exclusive, h.no_readers, h.upgraded, h.upgraded_held⟩

theorem tryUpgradeableRead_ok (h : Held (state w) r t u x) (hok : (tryUpgradeableRead w).1 = true) :
    Held (state (tryUpgradeableRead w).2) r t (u + 1) x := by
  rw [tryUpgradeableRead_fst, Bool.not_eq_true', Bool.or_eq_false_iff] at hok
  have hx := h.no_writer hok.1
  have hu := h.no_upgradeable hok.2
  rw [state_tryUpgradeableRead]
  exact ⟨h.readers, h.writer, by omega, fun hx' => absurd hx' (by omega), fun _ => rfl,
    fun _ => Or.inl (by omega)⟩

/-- A failed `try_upgradeable_read` leaves the `UPGRADED` bit set, while the guard of another
holds it or the write guard. -/
theorem tryUpgradeableRead_fail (h : Held (state w) r t u x)
    (hok : (tryUpgradeableRead w).1 = false) : Held (state (tryUpgradeableRead w).2) r t u x := by
  rw [tryUpgradeableRead_fst, Bool.not_eq_false', Bool.or_eq_true] at hok
  rw [state_tryUpgradeableRead]
  refine ⟨h.readers, h.writer, h.exclusive, h.no_readers, fun _ => rfl, fun _ => ?_⟩
  rcases hok with hw | hu
  · exact Or.inr (h.writer.1 hw)
  · exact h.upgraded_held hu

/-- The state was that of a free lock: no guard at all, and no reader left by a failed
`try_read`. -/
theorem eq_zero_of_free {σ : RwState} (h : Held σ r t u x) (hσ : σ = .free) :
    r = 0 ∧ t = 0 ∧ u = 0 ∧ x = 0 := by
  subst hσ
  have hr := h.readers
  simp only [RwState.free] at hr
  exact ⟨by omega, by omega, h.no_upgradeable rfl, h.no_writer rfl⟩

/-- The state `try_write` and `try_upgrade` leave: the write guard alone. -/
theorem written : Held ⟨true, false, 0⟩ 0 0 0 1 :=
  ⟨rfl, by simp, le_refl _, fun _ => rfl, fun h => absurd h (lt_irrefl 0),
    fun _ => Or.inr Nat.one_pos⟩

theorem tryWrite_ok (h : Held (state w) r t u x) (hok : (tryWrite w).1 = true) :
    Held (state (tryWrite w).2) r t u (x + 1) := by
  rw [tryWrite_fst, decide_eq_true_eq] at hok
  obtain ⟨rfl, rfl, rfl, rfl⟩ := h.eq_zero_of_free hok
  rw [state_tryWrite, if_pos hok]
  exact written

/-- A failed `try_write` leaves the state as it was. -/
theorem tryWrite_fail (h : Held (state w) r t u x) (hok : (tryWrite w).1 = false) :
    Held (state (tryWrite w).2) r t u x := by
  rw [tryWrite_fst, decide_eq_false_iff_not] at hok
  rwa [state_tryWrite, if_neg hok]

theorem tryUpgrade_ok (h : Held (state w) r t (u + 1) x) (hok : (tryUpgrade w).1 = true) :
    Held (state (tryUpgrade w).2) r t u (x + 1) := by
  rw [tryUpgrade_fst, decide_eq_true_eq] at hok
  -- the state was `UPGRADED`: the upgradeable guard alone
  have hx := h.no_writer (by rw [hok])
  have hr : r = 0 ∧ t = 0 := by have := h.readers; simp only [hok] at this; omega
  have hu : u = 0 := by have := h.exclusive; omega
  obtain ⟨rfl, rfl⟩ := hr
  subst hx hu
  rw [state_tryUpgrade, if_pos hok]
  exact written

/-- A failed `try_upgrade` leaves the state as it was. -/
theorem tryUpgrade_fail (h : Held (state w) r t u x) (hok : (tryUpgrade w).1 = false) :
    Held (state (tryUpgrade w).2) r t u x := by
  rw [tryUpgrade_fst, decide_eq_false_iff_not] at hok
  rwa [state_tryUpgrade, if_neg hok]

theorem releaseRead (h : Held (state w) (r + 1) t u x) : Held (state (releaseRead w)) r t u x := by
  rw [state_releaseRead w (by rw [h.readers]; omega)]
  exact ⟨by simp [h.readers], h.writer, h.exclusive,
    fun hx => absurd (h.no_readers hx) (Nat.succ_ne_zero r), h.upgraded, h.upgraded_held⟩

theorem releaseUpgradeable (h : Held (state w) r t (u + 1) x) :
    Held (state (releaseUpgradeable w)) r t u x := by
  have hex := h.exclusive
  rw [state_releaseUpgradeable w (h.upgraded (Nat.succ_pos u))]
  exact ⟨h.readers, h.writer, by omega, fun hx => absurd hx (by omega),
    fun hu => absurd hu (by omega), fun h => by simp at h⟩

theorem releaseWrite (h : Held (state w) r t u (x + 1)) :
    Held (state (releaseWrite w)) r t u x := by
  have hex := h.exclusive
  rw [state_releaseWrite]
  exact ⟨h.readers, by simp; omega, by omega, fun hx => absurd hx (by omega),
    fun hu => absurd hu (by omega), fun h => by simp at h⟩

/-- `reader_count()` counts the holder of the upgradeable guard. -/
theorem readerCount_pos (h : Held (state w) r t u x) (hu : 0 < u) : 0 < readerCount w := by
  simp [readerCount_eq, h.upgraded hu]

end Held

end RwSpinLock
