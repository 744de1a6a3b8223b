import Mathlib

/-!
# Lists of bindings as finite maps

A list of key-value pairs represents a map `σ : κ → Option ν` when it lists every binding of `σ`
and only those, each key once (`Represents`). A permutation of the list represents the same map,
consing the binding of an absent key represents the map updated at that key, and dropping the
binding of a key from wherever it stands represents the map with the key erased. The map a list
with distinct keys represents is its `List.lookup`.
-/

namespace Bindings

variable {κ ν : Type*} {l l' l₁ l₂ : List (κ × ν)} {σ : κ → Option ν}
  {k : κ} {v : ν}

/-- `l` lists the bindings of `σ`, each key once. -/
structure Represents (l : List (κ × ν)) (σ : κ → Option ν) : Prop where
  nodup : (l.map Prod.fst).Nodup
  mem_iff : ∀ k v, (k, v) ∈ l ↔ σ k = some v

theorem Represents.perm (h : Represents l σ) (hp : l.Perm l') : Represents l' σ :=
  ⟨(hp.map Prod.fst).nodup_iff.1 h.nodup, fun k v => hp.mem_iff.symm.trans (h.mem_iff k v)⟩

theorem Represents.eq_none_iff (h : Represents l σ) : σ k = none ↔ k ∉ l.map Prod.fst := by
  constructor
  · intro hk hmem
    obtain ⟨⟨k', v⟩, hkv, rfl⟩ := List.mem_map.1 hmem
    simp [(h.mem_iff _ _).1 hkv] at hk
  · intro hk
    cases hσ : σ k with
    | none => rfl
    | some v => exact absurd (List.mem_map_of_mem ((h.mem_iff k v).2 hσ)) hk

/-- A list represents one map only. -/
theorem Represents.unique {σ' : κ → Option ν} (h : Represents l σ) (h' : Represents l σ') :
    σ = σ' := by
  funext k
  cases hk : σ k with
  | none => exact (h'.eq_none_iff.2 (h.eq_none_iff.1 hk)).symm
  | some v => exact ((h'.mem_iff k v).1 ((h.mem_iff k v).2 hk)).symm

/-- A list with distinct keys represents its lookup. -/
theorem represents_lookup [BEq κ] [LawfulBEq κ] (hl : (l.map Prod.fst).Nodup) :
    Represents l (fun k => l.lookup k) := by
  refine ⟨hl, fun k v => ?_⟩
  induction l with
  | nil => simp
  | cons p l ih =>
    obtain ⟨k', v'⟩ := p
    simp only [List.map_cons, List.nodup_cons] at hl
    rw [List.lookup_cons, List.mem_cons]
    by_cases hkk : k = k'
    · subst hkk
      have hnot : (k, v) ∉ l := fun hm => hl.1 (List.mem_map_of_mem hm)
      simp [hnot, eq_comm]
    · have hne : (k == k') = false := by simpa using hkk
      simp [hne, hkk, ih hl.2]

variable [DecidableEq κ]

theorem Represents.cons (h : Represents l σ) (hk : σ k = none) :
    Represents ((k, v) :: l) (Function.update σ k (some v)) := by
  refine ⟨List.nodup_cons.2 ⟨h.eq_none_iff.1 hk, h.nodup⟩, fun k' v' => ?_⟩
  rw [List.mem_cons, h.mem_iff]
  by_cases hkk : k' = k
  · subst hkk
    simp [hk, eq_comm]
  · simp [hkk]

theorem Represents.erase_middle (h : Represents (l₁ ++ (k, v) :: l₂) σ) :
    Represents (l₁ ++ l₂) (Function.update σ k none) := by
  have hp := (h.perm List.perm_middle).nodup
  simp only [List.map_cons, List.map_append, List.nodup_cons, List.mem_append, not_or] at hp
  refine ⟨by simpa using hp.2, fun k' v' => ?_⟩
  by_cases hkk : k' = k
  · subst hkk
    simp only [Function.update_self, reduceCtorEq, iff_false, List.mem_append, not_or]
    exact ⟨fun hm => hp.1.1 (List.mem_map_of_mem hm), fun hm => hp.1.2 (List.mem_map_of_mem hm)⟩
  · rw [Function.update_of_ne hkk, ← h.mem_iff]
    simp [hkk]

end Bindings
