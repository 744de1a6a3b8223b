import Mathlib

/-!
# Forward simulation of a partial step function

A concrete machine runs a partial step function `step : C → O → Option C` over a list of
operations (`run`), failing as soon as one step fails; an abstract machine takes the steps of a
relation `R : A → O → A → Prop` (`Runs`). An invariant `inv` on concrete states and an
abstraction `abs : C → A` make a forward simulation (`Simulates`) when every concrete step from
a state of the invariant, on an operation its guard `ok` allows, keeps the invariant and is
matched by an abstract step from the abstract state. Every concrete run whose operations are all
allowed (`Guarded`) is then matched by an abstract run (`Simulates.run_runs`).
-/

namespace Simulation

variable {C A O : Type*}

/-- A run of a partial step function, `none` as soon as a step fails. -/
def run (step : C → O → Option C) : C → List O → Option C
  | c, [] => some c
  | c, o :: os => (step c o).bind fun c' => run step c' os

/-- Every operation of a run is allowed in the state it is run from. -/
def Guarded (step : C → O → Option C) (ok : C → O → Prop) : C → List O → Prop
  | _, [] => True
  | c, o :: os => ok c o ∧ ∀ c' ∈ step c o, Guarded step ok c' os

/-- Whether a run is guarded, decided step by step along it. -/
def Guarded.decide (step : C → O → Option C) (ok : C → O → Prop) [∀ c o, Decidable (ok c o)] :
    (c : C) → (os : List O) → Decidable (Guarded step ok c os)
  | _, [] => isTrue trivial
  | c, o :: os =>
    have := fun c' => Guarded.decide step ok c' os
    inferInstanceAs (Decidable (ok c o ∧ ∀ c' ∈ step c o, Guarded step ok c' os))

instance (step : C → O → Option C) (ok : C → O → Prop) [∀ c o, Decidable (ok c o)] (c : C)
    (os : List O) : Decidable (Guarded step ok c os) :=
  Guarded.decide step ok c os

/-- Operations each allowed whatever the state are allowed along every run. -/
theorem Guarded.of_forall {step : C → O → Option C} {p : O → Prop} :
    ∀ {os : List O} (c : C), (∀ o ∈ os, p o) → Guarded step (fun _ o => p o) c os
  | [], _, _ => trivial
  | o :: _, _, h => ⟨h o List.mem_cons_self, fun c' _ =>
      Guarded.of_forall c' fun o' ho' => h o' (List.mem_cons_of_mem o ho')⟩

/-- The runs of a step relation. -/
inductive Runs (R : A → O → A → Prop) : A → List O → A → Prop
  | nil (a : A) : Runs R a [] a
  | cons {a a' a'' : A} {o : O} {os : List O} :
      R a o a' → Runs R a' os a'' → Runs R a (o :: os) a''

/-- `step`, on the operations `ok` allows, simulates `R` through `abs` from the states of `inv`. -/
structure Simulates (step : C → O → Option C) (ok : C → O → Prop) (R : A → O → A → Prop)
    (inv : C → Prop) (abs : C → A) : Prop where
  inv_step : ∀ c o c', inv c → ok c o → step c o = some c' → inv c'
  abs_step : ∀ c o c', inv c → ok c o → step c o = some c' → R (abs c) o (abs c')

variable {step : C → O → Option C} {ok : C → O → Prop} {R : A → O → A → Prop}
  {inv : C → Prop} {abs : C → A}

@[simp] theorem run_nil (c : C) : run step c [] = some c := rfl

theorem run_cons (c : C) (o : O) (os : List O) :
    run step c (o :: os) = (step c o).bind fun c' => run step c' os := rfl

theorem run_cons_eq_some {c c'' : C} {o : O} {os : List O}
    (h : run step c (o :: os) = some c'') : ∃ c', step c o = some c' ∧ run step c' os = some c'' :=
  Option.bind_eq_some_iff.1 h

/-- A simulation lifts from steps to runs: by induction on the operations, the invariant and the
abstract run are carried along the concrete run. -/
theorem Simulates.run_runs (hsim : Simulates step ok R inv abs) :
    ∀ (os : List O) (c c' : C), inv c → Guarded step ok c os → run step c os = some c' →
      inv c' ∧ Runs R (abs c) os (abs c')
  | [], c, c', hc, _, h => by
    obtain rfl := Option.some_injective _ h
    exact ⟨hc, .nil _⟩
  | o :: os, c, c'', hc, ⟨hok, hrest⟩, h => by
    obtain ⟨c', hstep, hrun⟩ := run_cons_eq_some h
    obtain ⟨hc'', hruns⟩ := hsim.run_runs os c' c'' (hsim.inv_step c o c' hc hok hstep)
      (hrest c' hstep) hrun
    exact ⟨hc'', .cons (hsim.abs_step c o c' hc hok hstep) hruns⟩

/-- An invariant that every allowed step keeps holds after every allowed run, by induction on the
operations. -/
theorem run_inv (hstep : ∀ c o c', inv c → ok c o → step c o = some c' → inv c') :
    ∀ (os : List O) (c c' : C), inv c → Guarded step ok c os → run step c os = some c' → inv c'
  | [], c, c', hc, _, h => by
    obtain rfl := Option.some_injective _ h
    exact hc
  | o :: os, c, c'', hc, ⟨hok, hrest⟩, h => by
    obtain ⟨c', hs, hrun⟩ := run_cons_eq_some h
    exact run_inv hstep os c' c'' (hstep c o c' hc hok hs) (hrest c' hs) hrun

/-- A run returns when every allowed step from a state of the invariant returns a state of the
invariant, by induction on the operations. -/
theorem exists_run_eq_some (hstep : ∀ c o, inv c → ok c o → ∃ c', step c o = some c' ∧ inv c') :
    ∀ (os : List O) (c : C), inv c → Guarded step ok c os → ∃ c', run step c os = some c'
  | [], c, _, _ => ⟨c, rfl⟩
  | o :: os, c, hc, ⟨hok, hrest⟩ => by
    obtain ⟨c', hs, hc'⟩ := hstep c o hc hok
    obtain ⟨c'', hrun⟩ := exists_run_eq_some hstep os c' hc' (hrest c' hs)
    exact ⟨c'', by rw [run_cons, hs, Option.bind_some, hrun]⟩

/-- An invariant that every step keeps holds after every run, by induction on the operations. -/
theorem run_preserves (hstep : ∀ c o c', inv c → step c o = some c' → inv c') :
    ∀ (os : List O) (c c' : C), inv c → run step c os = some c' → inv c'
  | [], c, c', hc, h => by
    obtain rfl := Option.some_injective _ h
    exact hc
  | o :: os, c, c'', hc, h => by
    obtain ⟨c', hs, hrun⟩ := run_cons_eq_some h
    exact run_preserves hstep os c' c'' (hstep c o c' hc hs) hrun

/-- From a state in which no operation steps, only the empty run returns. -/
theorem run_of_stuck {c c' : C} (h : ∀ o, step c o = none) :
    ∀ os, run step c os = some c' → os = [] ∧ c' = c
  | [], h' => ⟨rfl, (Option.some_injective _ h').symm⟩
  | o :: os, h' => by
    obtain ⟨c'', hs, -⟩ := run_cons_eq_some h'
    rw [h o] at hs
    cases hs

/-! ## Machines that answer -/

section Answers

variable {X : Type*}

/-- A run of a total step function that answers each operation: the answers in order and the
last state. -/
def trace (next : C → O → X × C) : C → List O → List X × C
  | c, [] => ([], c)
  | c, o :: os => ((next c o).1 :: (trace next (next c o).2 os).1, (trace next (next c o).2 os).2)

/-- `next` refines `spec` through `abs` on the states of `inv`: each step keeps the invariant,
answers as the specification does, and moves the abstract state as it does. -/
structure Refines (next : C → O → X × C) (spec : A → O → X × A) (inv : C → Prop) (abs : C → A) :
    Prop where
  inv_step : ∀ c o, inv c → inv (next c o).2
  answer_step : ∀ c o, inv c → (next c o).1 = (spec (abs c) o).1
  abs_step : ∀ c o, inv c → abs (next c o).2 = (spec (abs c) o).2

/-- A refinement lifts from steps to runs: by induction on the operations, the answers are the
specification's and the abstract state follows the specification's run. -/
theorem Refines.trace_eq {next : C → O → X × C} {spec : A → O → X × A}
    (h : Refines next spec inv abs) : ∀ (os : List O) (c : C), inv c →
      (trace next c os).1 = (trace spec (abs c) os).1 ∧
        abs (trace next c os).2 = (trace spec (abs c) os).2 ∧ inv (trace next c os).2
  | [], _, hc => ⟨rfl, rfl, hc⟩
  | o :: os, c, hc => by
    obtain ⟨hans, habs, hinv⟩ := h.trace_eq os (next c o).2 (h.inv_step c o hc)
    simp only [trace]
    rw [hans, habs, h.answer_step c o hc, h.abs_step c o hc]
    exact ⟨rfl, rfl, hinv⟩

end Answers

end Simulation
