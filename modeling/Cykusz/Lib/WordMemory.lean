import Mathlib

/-!
# A memory of 64-bit words at byte addresses

A memory maps each byte address of a 64-bit address space to the word stored there; a block of
`n` words at `a` occupies the addresses `a`, `a + 8`, ... (`load`, `store`), wrapping around the
address space as the machine does. `Within a n x` says that `x` lies in the `8 * n` bytes from
`a`, measured by the wrapping offset `x - a`.

A store leaves every address outside its block unchanged (`store_of_not_within`), a load reads
only the addresses of its block (`load_congr`), and a block of fewer than `2 ^ 61` words reads
back as it was stored (`load_store`).
-/

namespace WordMemory

variable {α : Type*}

/-- The `n` words of the block at `a`. -/
def load (m : BitVec 64 → α) (a : BitVec 64) : ℕ → List α
  | 0 => []
  | n + 1 => m a :: load m (a + 8) n

/-- Store the words `vs` as a block at `a`. -/
def store (m : BitVec 64 → α) (a : BitVec 64) : List α → BitVec 64 → α
  | [] => m
  | v :: vs => store (Function.update m a v) (a + 8) vs

/-- The address `x` lies in the `8 * n` bytes from `a`. -/
def Within (a : BitVec 64) (n : ℕ) (x : BitVec 64) : Prop := (x - a).toNat < 8 * n

instance (a : BitVec 64) (n : ℕ) (x : BitVec 64) : Decidable (Within a n x) :=
  inferInstanceAs (Decidable ((x - a).toNat < 8 * n))

variable {m m' : BitVec 64 → α} {a x : BitVec 64} {n : ℕ}

@[simp] theorem load_zero : load m a 0 = [] := rfl

theorem load_succ : load m a (n + 1) = m a :: load m (a + 8) n := rfl

@[simp] theorem store_nil : store m a [] = m := rfl

@[simp] theorem length_load : (load m a n).length = n := by
  induction n generalizing a with
  | zero => rfl
  | succ n ih => simp [load_succ, ih]

theorem not_within_of_succ (h : ¬Within a (n + 1) x) : ¬Within (a + 8) n x ∧ x ≠ a := by
  unfold Within at *
  constructor
  · bv_omega
  · rintro rfl
    simp at h

/-- A store leaves every address outside its block unchanged. -/
theorem store_of_not_within {vs : List α} (h : ¬Within a vs.length x) :
    store m a vs x = m x := by
  induction vs generalizing m a with
  | nil => rfl
  | cons v vs ih =>
    obtain ⟨hrest, hne⟩ := not_within_of_succ h
    rw [store, ih hrest, Function.update_of_ne hne]

/-- A load reads only the addresses of its block. -/
theorem load_congr (h : ∀ x, Within a n x → m x = m' x) : load m a n = load m' a n := by
  induction n generalizing a with
  | zero => rfl
  | succ n ih =>
    have ha : Within a (n + 1) a := by simp [Within]
    rw [load_succ, load_succ, h a ha, ih fun x hx => h x ?_]
    unfold Within at hx ⊢
    bv_omega

/-- The first address of a block is outside the rest of it, when the block does not wrap
around the address space onto itself. -/
theorem not_within_self (hn : n < 2 ^ 61) : ¬Within (a + 8) n a := by
  unfold Within
  bv_omega

/-- A block of fewer than `2 ^ 61` words reads back as it was stored. -/
theorem load_store {vs : List α} (hn : vs.length < 2 ^ 61) :
    load (store m a vs) a vs.length = vs := by
  induction vs generalizing m a with
  | nil => rfl
  | cons v vs ih =>
    have hvs : vs.length < 2 ^ 61 := by simp at hn; omega
    rw [List.length_cons, load_succ, store, ih hvs,
      store_of_not_within (not_within_self hvs), Function.update_self]

end WordMemory
