import Mathlib

/-!
# Least-recently-used caches

A cache of bounded capacity keeps its entries in the order of their last use, the most recent
first, which is the order the crate `lru` documents for its iterator. `put` of a key present
replaces its value and moves the entry to the front; `put` of a new key into a full cache first
evicts the last entry, the least recently used; `pop` takes the entry of a key out and returns its
value; `clear` empties the cache.

The crate's cache is not part of the program, so it is a parameter: `Lru` gives a type of caches
with the crate's operations and, as laws, what they do to the entries (`putEntries`, `eraseKey`).
A cache holds each key once and at most its capacity of entries. From the laws alone, an entry
moves back by at most one place at a `put` of another key (`mem_take_put`) and not at all at a
`pop` of another key (`mem_take_pop`), so that an entry among the first `m` stays in the cache
through `cap - m` such operations. `LruCache`, the entries as a list, is a cache with these laws.
-/

variable {K V : Type*} [DecidableEq K]

/-- The entries without the one of key `k`. -/
def eraseKey (k : K) (l : List (K × V)) : List (K × V) := l.eraseP fun e => e.1 = k

/-- The entries after a `put`: a present key updated and moved to the front, or a new key in
front, the last entry evicted first if there are `cap` of them. -/
def putEntries (cap : ℕ) (k : K) (v : V) (l : List (K × V)) : List (K × V) :=
  if k ∈ l.map Prod.fst then (k, v) :: eraseKey k l
  else if l.length = cap then (k, v) :: l.dropLast
  else (k, v) :: l

/-! ## The entries -/

theorem keys_eraseKey (k : K) (l : List (K × V)) :
    (eraseKey k l).map Prod.fst = (l.map Prod.fst).erase k := by
  induction l with
  | nil => rfl
  | cons e l ih =>
    by_cases he : e.1 = k
    · simp [eraseKey, he]
    · rw [eraseKey, List.eraseP_cons_of_neg (by simpa using he), List.map_cons, List.map_cons,
        List.erase_cons_tail (by simpa using he), ← ih]
      rfl

theorem eraseKey_sublist (k : K) (l : List (K × V)) : (eraseKey k l).Sublist l :=
  List.eraseP_sublist

theorem eraseKey_of_not_mem {k : K} {l : List (K × V)} (hk : k ∉ l.map Prod.fst) :
    eraseKey k l = l :=
  List.eraseP_of_forall_not fun e he hek => hk (List.mem_map.2 ⟨e, he, of_decide_eq_true hek⟩)

/-- With each key once, the entries left hold no entry of the key taken out, and all the others. -/
theorem mem_eraseKey {k : K} {l : List (K × V)} (hl : (l.map Prod.fst).Nodup) {e : K × V} :
    e ∈ eraseKey k l ↔ e ∈ l ∧ e.1 ≠ k := by
  constructor
  · intro he
    refine ⟨(eraseKey_sublist k l).subset he, fun hek => ?_⟩
    have hkey : e.1 ∈ (eraseKey k l).map Prod.fst := List.mem_map_of_mem he
    rw [keys_eraseKey, hek] at hkey
    exact hl.not_mem_erase hkey
  · rintro ⟨he, hek⟩
    exact (List.mem_eraseP_of_neg (by simpa using hek)).2 he

theorem nodup_putEntries {cap : ℕ} {l : List (K × V)} (hl : (l.map Prod.fst).Nodup) (k : K)
    (v : V) : ((putEntries cap k v l).map Prod.fst).Nodup := by
  unfold putEntries
  split_ifs with hk
  · rw [List.map_cons, List.nodup_cons, keys_eraseKey]
    exact ⟨hl.not_mem_erase, hl.erase k⟩
  · have hsub := (List.dropLast_sublist l).map Prod.fst
    exact List.nodup_cons.2 ⟨fun h => hk (hsub.subset h), hl.sublist hsub⟩
  · exact List.nodup_cons.2 ⟨hk, hl⟩

theorem length_putEntries_le {cap : ℕ} (hcap : 0 < cap) {l : List (K × V)} (hl : l.length ≤ cap)
    (k : K) (v : V) : (putEntries cap k v l).length ≤ cap := by
  unfold putEntries
  split_ifs with hk hfull
  · -- the entry of `k` is replaced
    obtain ⟨e, he, rfl⟩ := List.mem_map.1 hk
    rw [List.length_cons, eraseKey, List.length_eraseP_of_mem he (by simp)]
    have : 0 < l.length := List.length_pos_of_mem he
    omega
  · rw [List.length_cons, List.length_dropLast]
    omega
  · rw [List.length_cons]
    omega

omit [DecidableEq K] in
/-- An entry among the first `m` that `p` does not take out is among the first `m` after. -/
theorem mem_take_eraseP {p : K × V → Bool} {e : K × V} :
    ∀ {l : List (K × V)} {m : ℕ}, e ∈ l.take m → p e = false → e ∈ (l.eraseP p).take m
  | [], _, he, _ => by simp at he
  | _ :: _, 0, he, _ => by simp at he
  | a :: l, m + 1, he, hp => by
    rw [List.take_succ_cons] at he
    by_cases ha : p a
    · -- `a` goes, and the entries behind it move forward
      rw [List.eraseP_cons_of_pos ha]
      rcases List.mem_cons.1 he with rfl | he
      · exact absurd ha (by simp [hp])
      · exact (List.take_sublist_take_left (Nat.le_succ m)).subset he
    · rw [List.eraseP_cons_of_neg ha, List.take_succ_cons]
      rcases List.mem_cons.1 he with rfl | he
      · exact List.mem_cons_self
      · exact List.mem_cons_of_mem _ (mem_take_eraseP he hp)

/-! ## Caches -/

/-- A type `C` of least-recently-used caches from `K` to `V`, with the operations of the crate's
`LruCache`: `entries` is its iteration order, the most recently used first, and the laws are what
the operations do to it. -/
class Lru (C : Type*) (K V : outParam Type*) where
  cap : C → ℕ
  entries : C → List (K × V)
  new : (n : ℕ) → 0 < n → C
  put : C → K → V → C
  pop : C → K → Option V × C
  clear : C → C
  cap_pos (c : C) : 0 < cap c
  nodup (c : C) : ((entries c).map Prod.fst).Nodup
  length_le (c : C) : (entries c).length ≤ cap c
  cap_new (n : ℕ) (h : 0 < n) : cap (new n h) = n
  entries_new (n : ℕ) (h : 0 < n) : entries (new n h) = []
  cap_put (c : C) (k : K) (v : V) : cap (put c k v) = cap c
  entries_put [DecidableEq K] (c : C) (k : K) (v : V) :
    entries (put c k v) = putEntries (cap c) k v (entries c)
  pop_fst [DecidableEq K] (c : C) (k : K) :
    (pop c k).1 = ((entries c).find? fun e => e.1 = k).map Prod.snd
  cap_pop (c : C) (k : K) : cap (pop c k).2 = cap c
  entries_pop [DecidableEq K] (c : C) (k : K) : entries (pop c k).2 = eraseKey k (entries c)
  cap_clear (c : C) : cap (clear c) = cap c
  entries_clear (c : C) : entries (clear c) = []

namespace Lru

attribute [simp] cap_new entries_new cap_put entries_put cap_pop entries_pop cap_clear entries_clear

variable {C : Type*} [Lru C K V] {c : C} {k : K} {v : V} {e : K × V}

/-- The entries after a `put` are the new one and entries from before. -/
theorem mem_put (he : e ∈ entries (put c k v)) : e = (k, v) ∨ e ∈ entries c := by
  rw [entries_put, putEntries] at he
  split_ifs at he <;> rcases List.mem_cons.1 he with rfl | he
  all_goals first | exact Or.inl rfl | right
  · exact (eraseKey_sublist k _).subset he
  · exact List.dropLast_subset _ he
  · exact he

theorem mem_pop (he : e ∈ entries (pop c k).2) : e ∈ entries c := by
  rw [entries_pop] at he
  exact (eraseKey_sublist k _).subset he

/-- `pop` finds the value of the entry of the key. -/
theorem pop_eq_some_iff : (pop c k).1 = some v ↔ (k, v) ∈ entries c := by
  rw [pop_fst]
  constructor
  · intro h
    obtain ⟨e, he, rfl⟩ := Option.map_eq_some_iff.1 h
    have hk : e.1 = k := by simpa using List.find?_some he
    rw [← hk]
    exact List.mem_of_find?_eq_some he
  · intro h
    -- the entry found has the key, so it is the entry of the key
    obtain ⟨e, he⟩ := Option.isSome_iff_exists.1
      (List.find?_isSome.2 ⟨(k, v), h, by simp⟩ : ((entries c).find? fun e => e.1 = k).isSome)
    have hek : e.1 = k := by simpa using List.find?_some he
    have heq : e = (k, v) :=
      List.inj_on_of_nodup_map (nodup c) (List.mem_of_find?_eq_some he) h hek
    simp [he, heq]

/-- `pop` of a key with no entry leaves the entries as they are. -/
theorem pop_of_not_mem (hk : k ∉ (entries c).map Prod.fst) :
    (pop c k).1 = none ∧ entries (pop c k).2 = entries c := by
  refine ⟨?_, by rw [entries_pop, eraseKey_of_not_mem hk]⟩
  rw [pop_fst, Option.map_eq_none_iff, List.find?_eq_none]
  intro e he hek
  exact hk (List.mem_map.2 ⟨e, he, of_decide_eq_true hek⟩)

/-- What is `put` is at the front. -/
theorem pop_put : (pop (put c k v) k).1 = some v := by
  rw [pop_eq_some_iff, entries_put, putEntries]
  split_ifs <;> exact List.mem_cons_self

/-! ## Recency -/

/-- A `put` of another key moves an entry among the first `m < cap` back by at most one place:
the entries the new one goes before shift, and the one evicted is the last. -/
theorem mem_take_put {m : ℕ} (hm : m < cap c) (he : e ∈ (entries c).take m) (hk : e.1 ≠ k) :
    e ∈ (entries (put c k v)).take (m + 1) := by
  rw [entries_put, putEntries]
  split_ifs with hmem hfull
  · rw [List.take_succ_cons]
    exact List.mem_cons_of_mem _ (mem_take_eraseP he (by simpa using hk))
  · rw [List.take_succ_cons, List.dropLast_eq_take, List.take_take]
    refine List.mem_cons_of_mem _ ?_
    rwa [Nat.min_eq_left (by omega)]
  · rw [List.take_succ_cons]
    exact List.mem_cons_of_mem _ he

theorem mem_take_pop {m : ℕ} (he : e ∈ (entries c).take m) (hk : e.1 ≠ k) :
    e ∈ (entries (pop c k).2).take m := by
  rw [entries_pop]
  exact mem_take_eraseP he (by simpa using hk)

end Lru

/-! ## The entries as a list -/

/-- The entries, most recently used first: each key once, and at most `cap` of them. -/
structure LruCache (K V : Type*) where
  cap : ℕ
  entries : List (K × V)
  cap_pos : 0 < cap
  nodup : (entries.map Prod.fst).Nodup
  length_le : entries.length ≤ cap

namespace LruCache

/-- `LruCache::new`, of a capacity that is not zero. -/
def new (cap : ℕ) (hcap : 0 < cap) : LruCache K V :=
  ⟨cap, [], hcap, List.nodup_nil, Nat.zero_le cap⟩

/-- `put`. -/
def put (c : LruCache K V) (k : K) (v : V) : LruCache K V :=
  ⟨c.cap, putEntries c.cap k v c.entries, c.cap_pos, nodup_putEntries c.nodup k v,
    length_putEntries_le c.cap_pos c.length_le k v⟩

/-- `pop`: the value of the key, if it has an entry, and the cache without it. -/
def pop (c : LruCache K V) (k : K) : Option V × LruCache K V :=
  ((c.entries.find? fun e => e.1 = k).map Prod.snd,
    ⟨c.cap, eraseKey k c.entries, c.cap_pos, c.nodup.sublist ((eraseKey_sublist k _).map _),
      ((eraseKey_sublist k _).length_le).trans c.length_le⟩)

/-- `clear`. -/
def clear (c : LruCache K V) : LruCache K V := ⟨c.cap, [], c.cap_pos, List.nodup_nil, Nat.zero_le _⟩

instance : Lru (LruCache K V) K V where
  cap := cap
  entries := entries
  new := new
  put := put
  pop := pop
  clear := clear
  cap_pos := cap_pos
  nodup := nodup
  length_le := length_le
  cap_new _ _ := rfl
  entries_new _ _ := rfl
  cap_put _ _ _ := rfl
  -- the laws hold for every decision procedure of equal keys, all of which agree
  entries_put c k v :=
    congrArg (fun d => @putEntries K V d c.cap k v c.entries) (Subsingleton.elim _ _)
  pop_fst c k := congrArg (fun d : DecidableEq K =>
    (c.entries.find? fun e : K × V => @decide (e.1 = k) (d e.1 k)).map Prod.snd)
    (Subsingleton.elim _ _)
  cap_pop _ _ := rfl
  entries_pop c k := congrArg (fun d => @eraseKey K V d k c.entries) (Subsingleton.elim _ _)
  cap_clear _ := rfl
  entries_clear _ := rfl

end LruCache
