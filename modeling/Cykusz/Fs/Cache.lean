import Mathlib
import Cykusz.Lib.Lru
import Cykusz.Lib.Simulation

/-!
# The cache of dentries, inodes and pages

`kernel/fs/cache.rs` is the cache behind the dentry, inode and page caches. A cached item is a
`CacheItem`, handed out as an `ArcWrap`. The cache, `CacheData`, has two tiers: `used`, a map from
the key to a weak reference of an item in use, and `unused`, an LRU cache (`Lru`) that holds the
items no task holds and keeps them alive until they are evicted. When the last handle of an item
goes (`ArcWrap::drop` at a strong count of one), `handle_drop` marks it unused and `move_to_unused`
takes its key out of `used` and puts the item in `unused`; `get` of a key returns the item of
`used`, or takes the item of `unused` back into `used`.

Items are named by their identity `ι`, the address of the `Arc`; the handles tasks hold of an item
are its count `refs`, so that its strong count is `refs`, and one more while it is in the unused
tier. Each call is one step under the lock of `CacheData`. The `Cacheable` hooks are those that
leave `cache_key()` as it is, as the default ones do; the dentry cache, whose `notify_unused`
clears the parent and so changes the key, is `Dirent`.

In every run, an item the cache returns has the key asked for, a key of the used tier names an
item alive, and no item of the unused tier is held by a task, so that an eviction never frees an
item in use (`cache_consistent`). An item released into the unused tier stays there while fewer
than its capacity of other items are released or looked up after it (`released_item_kept`).

`move_to_unused` takes the entry of the key out of `used` whatever item it names. When the last
handle of an item whose entry was removed goes after another item was made for its key, the old
item is put in the unused tier, the new one loses its entry, and `get` of the key returns the old
item (`removed_item_returned`); `Dirent` shows it for the dentry of a file unlinked while open and
made again.
-/

namespace Cykusz.Fs.Cache

open Simulation Function

/-- `CacheData` and the state of the items: `isUsed` is `CacheItem::used`, `key` the item's
`cache_key()`, and `refs` the handles tasks hold. -/
structure Sys (K ι C : Type*) where
  used : K → Option ι
  unused : C
  isUsed : ι → Bool
  key : ι → K
  refs : ι → ℕ

variable {K ι C : Type*} [DecidableEq K] [DecidableEq ι] [Lru C K ι]

/-- `Cache::new(capacity)`: both tiers empty, and no item made. -/
def Sys.init [Inhabited K] (cap : ℕ) (hcap : 0 < cap) : Sys K ι C :=
  ⟨fun _ => none, Lru.new cap hcap, fun _ => false, fun _ => default, fun _ => 0⟩

/-- `Arc::strong_count`: the handles, and the reference of the unused tier. -/
def Sys.strongCount (s : Sys K ι C) (i : ι) : ℕ :=
  s.refs i + ((Lru.entries s.unused).map Prod.snd).count i

/-- One more handle of the item: `ArcWrap::clone`, or the `Weak::upgrade` of `get`. -/
def Sys.hold (s : Sys K ι C) (i : ι) : Sys K ι C :=
  { s with refs := update s.refs i (s.refs i + 1) }

/-- `CacheData::get`: the item of `used`, if it is alive, or else the item of `unused`, marked used
and moved to `used`, its reference now the task's. -/
def get (s : Sys K ι C) (k : K) : Option ι × Sys K ι C :=
  match s.used k with
  | some i => if 0 < s.strongCount i then (some i, s.hold i) else (none, s)
  | none =>
    match (Lru.pop s.unused k).1 with
    | some i =>
      (some i, { s with
        used := update s.used k (some i), unused := (Lru.pop s.unused k).2,
        isUsed := update s.isUsed i true, refs := update s.refs i (s.refs i + 1) })
    | none => (none, { s with unused := (Lru.pop s.unused k).2 })

/-- `CacheData::insert`: `mark_used`, and the key names the item. -/
def insert (s : Sys K ι C) (k : K) (i : ι) : Sys K ι C :=
  { s with used := update s.used k (some i), isUsed := update s.isUsed i true }

/-- `CacheData::remove`: the entry of `used`, or else the one of `unused`. -/
def remove (s : Sys K ι C) (k : K) : Sys K ι C :=
  match s.used k with
  | some _ => { s with used := update s.used k none }
  | none => { s with unused := (Lru.pop s.unused k).2 }

/-- `CacheData::move_to_unused`: the entry of the item's key leaves `used`, whatever item it
names, and the item goes to the front of `unused`. -/
def moveToUnused (s : Sys K ι C) (i : ι) : Bool × Sys K ι C :=
  match s.used (s.key i) with
  | some _ =>
    (true, { s with used := update s.used (s.key i) none, unused := Lru.put s.unused (s.key i) i })
  | none => (false, s)

/-- `CacheData::rehash`, with an `update` that gives the item the key `k`: the item is updated only
if its key has an entry in `used`, which is moved to the new key; a pointer mismatch is only
reported. -/
def rehash (s : Sys K ι C) (i : ι) (k : K) : Sys K ι C :=
  match s.used (s.key i) with
  | some _ =>
    { s with key := update s.key i k, used := update (update s.used (s.key i) none) k (some i) }
  | none => s

/-- `CacheData::clear`. -/
def clear (s : Sys K ι C) : Sys K ι C :=
  { s with used := fun _ => none, unused := Lru.clear s.unused }

/-- `handle_drop` of `CacheItem`: an item marked used is marked unused and moved to the unused
tier. The caches are global, so `self.cache.upgrade()` succeeds. -/
def handleDrop (s : Sys K ι C) (i : ι) : Sys K ι C :=
  if s.isUsed i then (moveToUnused { s with isUsed := update s.isUsed i false } i).2 else s

/-- `ArcWrap::drop` of a handle: `handle_drop` at a strong count of one, and the handle's
reference goes. -/
def drop (s : Sys K ι C) (i : ι) : Sys K ι C :=
  let s₁ := if s.strongCount i = 1 then handleDrop s i else s
  { s₁ with refs := update s₁.refs i (s₁.refs i - 1) }

/-- `Cache::make_item` (and `make_item_locked`, `make_item_cyclic`): a new item of key `k`, not
used, inserted, and its handle. -/
def makeItem (s : Sys K ι C) (i : ι) (k : K) : Sys K ι C :=
  insert { s with
    key := update s.key i k, isUsed := update s.isUsed i false, refs := update s.refs i 1 } k i

/-- `Cache::make_cached`: a held item is marked used and inserted under its key. -/
def makeCached (s : Sys K ι C) (i : ι) : Sys K ι C := insert s (s.key i) i

/-- The calls of the tasks, each made under the lock of `CacheData`. -/
inductive Op (K ι : Type*)
  | get (k : K)
  | makeItem (i : ι) (k : K)
  | makeCached (i : ι)
  | clone (i : ι)
  | drop (i : ι)
  | rehash (i : ι) (k : K)
  | remove (k : K)
  | clear
deriving DecidableEq, Repr

/-- A step; `none` where the call cannot be made: a new item at the address of an item alive, or a
call on an item of which the task holds no handle. -/
def step (s : Sys K ι C) : Op K ι → Option (Sys K ι C)
  | .get k => some (get s k).2
  | .makeItem i k => if s.strongCount i = 0 then some (makeItem s i k) else none
  | .makeCached i => if 0 < s.refs i then some (makeCached s i) else none
  | .clone i => if 0 < s.refs i then some (s.hold i) else none
  | .drop i => if 0 < s.refs i then some (drop s i) else none
  | .rehash i k => if 0 < s.refs i then some (rehash s i k) else none
  | .remove k => some (remove s k)
  | .clear => some (clear s)

/-! ## The calls -/

variable {s : Sys K ι C} {i j : ι} {k : K}

theorem get_of_used (hk : s.used k = some i) :
    get s k = if 0 < s.strongCount i then (some i, s.hold i) else (none, s) := by
  simp only [get, hk]

theorem get_of_unused (hk : s.used k = none) (hp : (Lru.pop s.unused k).1 = some i) :
    get s k = (some i, { s with
      used := update s.used k (some i), unused := (Lru.pop s.unused k).2,
      isUsed := update s.isUsed i true, refs := update s.refs i (s.refs i + 1) }) := by
  simp only [get, hk, hp]

theorem get_of_miss (hk : s.used k = none) (hp : (Lru.pop s.unused k).1 = none) :
    get s k = (none, { s with unused := (Lru.pop s.unused k).2 }) := by
  simp only [get, hk, hp]

/-- A drop of one of several handles only takes the handle. -/
theorem drop_of_held (hi : 1 < s.strongCount i) :
    drop s i = { s with refs := update s.refs i (s.refs i - 1) } := by
  simp only [drop, Nat.ne_of_gt hi, if_false]

/-- The last handle of an item marked used: the entry of its key leaves `used` and the item goes to
the unused tier. -/
theorem drop_of_moved (hsc : s.strongCount i = 1) (hu : s.isUsed i = true)
    (hk : s.used (s.key i) = some j) :
    drop s i = { s with
      used := update s.used (s.key i) none, unused := Lru.put s.unused (s.key i) i,
      isUsed := update s.isUsed i false, refs := update s.refs i (s.refs i - 1) } := by
  simp only [drop, hsc, if_true, handleDrop, hu, moveToUnused, hk]

/-- The last handle of an item marked used whose key has no entry: the item is freed. -/
theorem drop_of_freed (hsc : s.strongCount i = 1) (hu : s.isUsed i = true)
    (hk : s.used (s.key i) = none) :
    drop s i = { s with
      isUsed := update s.isUsed i false, refs := update s.refs i (s.refs i - 1) } := by
  simp only [drop, hsc, if_true, handleDrop, hu, moveToUnused, hk]

/-- A drop takes one handle and changes no key. -/
theorem refs_drop (s : Sys K ι C) (i : ι) : (drop s i).refs = update s.refs i (s.refs i - 1) := by
  unfold drop handleDrop moveToUnused
  split_ifs <;> (try split) <;> rfl

theorem key_drop (s : Sys K ι C) (i : ι) : (drop s i).key = s.key := by
  unfold drop handleDrop moveToUnused
  split_ifs <;> (try split) <;> rfl

/-- A lookup takes at most one handle, changes no key, and only takes entries out of the unused
tier. -/
theorem key_get (s : Sys K ι C) (k : K) : (get s k).2.key = s.key := by
  unfold get
  split
  · split_ifs <;> rfl
  · split <;> rfl

theorem refs_le_get (s : Sys K ι C) (k : K) (j : ι) : s.refs j ≤ (get s k).2.refs j := by
  unfold get
  split
  · split_ifs
    · simp only [Sys.hold, update_apply]
      split_ifs with h <;> simp [h]
    · exact le_rfl
  · split
    · simp only [update_apply]
      split_ifs with h <;> simp [h]
    · exact le_rfl

theorem mem_unused_get {s : Sys K ι C} {k : K} {e : K × ι}
    (he : e ∈ Lru.entries (get s k).2.unused) : e ∈ Lru.entries s.unused := by
  unfold get at he
  split at he
  · split_ifs at he <;> exact he
  · split at he <;> exact Lru.mem_pop he

omit [DecidableEq ι] in
/-- A removal changes no key and no handle, and only takes entries out of the unused tier. -/
theorem key_remove (s : Sys K ι C) (k : K) : (remove s k).key = s.key := by
  unfold remove
  split <;> rfl

omit [DecidableEq ι] in
theorem refs_remove (s : Sys K ι C) (k : K) : (remove s k).refs = s.refs := by
  unfold remove
  split <;> rfl

omit [DecidableEq ι] in
theorem mem_unused_remove {s : Sys K ι C} {k : K} {e : K × ι}
    (he : e ∈ Lru.entries (remove s k).unused) : e ∈ Lru.entries s.unused := by
  unfold remove at he
  split at he
  · exact he
  · exact Lru.mem_pop he

/-- A drop only takes entries out of `used`, and puts at most the item dropped in the unused
tier. -/
theorem used_drop {s : Sys K ι C} {i j : ι} {k : K} (h : (drop s i).used k = some j) :
    s.used k = some j := by
  unfold drop handleDrop moveToUnused at h
  dsimp only at h
  split_ifs at h
  · split at h
    · by_cases hk : k = s.key i
      · subst hk
        simp at h
      · simpa only [update_of_ne hk] using h
    · exact h
  · exact h
  · exact h

theorem mem_unused_drop {s : Sys K ι C} {i : ι} {e : K × ι}
    (he : e ∈ Lru.entries (drop s i).unused) : e ∈ Lru.entries s.unused ∨ e = (s.key i, i) := by
  unfold drop handleDrop moveToUnused at he
  split_ifs at he
  · split at he
    · exact (Lru.mem_put he).symm
    · exact Or.inl he
  · exact Or.inl he
  · exact Or.inl he

omit [DecidableEq ι] in
theorem used_remove {s : Sys K ι C} {k k' : K} {j : ι} (h : (remove s k).used k' = some j) :
    s.used k' = some j := by
  unfold remove at h
  split at h
  · by_cases hk : k' = k
    · subst hk
      simp at h
    · dsimp only at h
      rwa [update_of_ne hk] at h
  · exact h

theorem cap_step {o : Op K ι} {s' : Sys K ι C} (h : step s o = some s') :
    Lru.cap s'.unused = Lru.cap s.unused := by
  cases o <;> simp only [step] at h
  case get k =>
    cases h
    cases hk : s.used k with
    | some i => rw [get_of_used hk]; split_ifs <;> rfl
    | none =>
      cases hp : (Lru.pop s.unused k).1 with
      | some i => rw [get_of_unused hk hp]; exact Lru.cap_pop _ _
      | none => rw [get_of_miss hk hp]; exact Lru.cap_pop _ _
  case drop i =>
    split_ifs at h
    cases h
    unfold Cache.drop handleDrop moveToUnused
    split_ifs <;> (try split) <;> simp
  case rehash i k =>
    split_ifs at h
    cases h
    unfold Cache.rehash
    split <;> rfl
  case remove k =>
    cases h
    unfold Cache.remove
    split <;> simp
  case clear =>
    cases h
    exact Lru.cap_clear _
  all_goals split_ifs at h; cases h; rfl

theorem cap_run {sched : List (Op K ι)} {s' : Sys K ι C} (h : run step s sched = some s') :
    Lru.cap s'.unused = Lru.cap s.unused := by
  have hstep : ∀ (c : Sys K ι C) (o : Op K ι) c', Lru.cap c.unused = Lru.cap s.unused →
      step c o = some c' → Lru.cap c'.unused = Lru.cap s.unused :=
    fun _ _ _ hc hs => (cap_step hs).trans hc
  exact run_preserves hstep sched s s' rfl h

/-! ## The invariant -/

/-- An entry of `used` names a held item of its key; a held item is marked used; the unused tier
holds items of their keys that no task holds, marked unused. -/
structure Inv (s : Sys K ι C) : Prop where
  used_key : ∀ k i, s.used k = some i → s.key i = k
  used_held : ∀ k i, s.used k = some i → 0 < s.refs i
  held_used : ∀ i, 0 < s.refs i → s.isUsed i = true
  unused_key : ∀ e ∈ Lru.entries s.unused, s.key e.2 = e.1
  unused_idle : ∀ e ∈ Lru.entries s.unused, s.refs e.2 = 0 ∧ s.isUsed e.2 = false

omit [DecidableEq K] [DecidableEq ι] in
theorem Inv.init [Inhabited K] (cap : ℕ) (hcap : 0 < cap) :
    Inv (Sys.init cap hcap : Sys K ι C) where
  used_key _ _ h := by cases h
  used_held _ _ h := by cases h
  held_used _ h := by cases h
  unused_key _ h := by simp [Sys.init] at h
  unused_idle _ h := by simp [Sys.init] at h

omit [DecidableEq K] [DecidableEq ι] in
theorem Inv.ne_of_unused (hinv : Inv s) {e : K × ι} (he : e ∈ Lru.entries s.unused)
    (hi : 0 < s.refs i) : e.2 ≠ i := by
  rintro rfl
  have := (hinv.unused_idle e he).1
  omega

omit [DecidableEq K] in
/-- A held item is not in the unused tier: its strong count is its handles. -/
theorem Inv.strongCount_eq (hinv : Inv s) (hi : 0 < s.refs i) : s.strongCount i = s.refs i := by
  have hnot : i ∉ (Lru.entries s.unused).map Prod.snd := by
    intro h
    obtain ⟨e, he, rfl⟩ := List.mem_map.1 h
    exact hinv.ne_of_unused he hi rfl
  rw [Sys.strongCount, List.count_eq_zero_of_not_mem hnot, Nat.add_zero]

omit [DecidableEq K] [DecidableEq ι] in
/-- An entry of `used` at another key than the item's names another item. -/
theorem Inv.ne_of_used_ne (hinv : Inv s) (hj : s.used k = some j) (hk : k ≠ s.key i) : j ≠ i := by
  rintro rfl
  exact hk (hinv.used_key k j hj).symm

omit [DecidableEq K] [DecidableEq ι] in
/-- The unused tier keeps its entries' items, keys and states when they change elsewhere. -/
theorem Inv.unused_frame (hinv : Inv s) {t : Sys K ι C} (hi : 0 < s.refs i)
    (hun : ∀ e ∈ Lru.entries t.unused, e ∈ Lru.entries s.unused)
    (hkey : ∀ j, j ≠ i → t.key j = s.key j) (hrefs : ∀ j, j ≠ i → t.refs j = s.refs j)
    (hused : ∀ j, j ≠ i → t.isUsed j = s.isUsed j) :
    (∀ e ∈ Lru.entries t.unused, t.key e.2 = e.1) ∧
      ∀ e ∈ Lru.entries t.unused, t.refs e.2 = 0 ∧ t.isUsed e.2 = false := by
  constructor
  · intro e he
    rw [hkey _ (hinv.ne_of_unused (hun e he) hi)]
    exact hinv.unused_key e (hun e he)
  · intro e he
    have hne := hinv.ne_of_unused (hun e he) hi
    rw [hrefs _ hne, hused _ hne]
    exact hinv.unused_idle e (hun e he)

omit [DecidableEq K] in
theorem Inv.hold (hinv : Inv s) (hi : 0 < s.refs i) : Inv (s.hold i) := by
  obtain ⟨hukey, huidle⟩ := hinv.unused_frame (t := s.hold i) hi (fun e he => he)
    (fun _ _ => rfl) (fun j hj => update_of_ne hj _ _) (fun _ _ => rfl)
  refine ⟨hinv.used_key, fun k j hj => ?_, fun j hj => ?_, hukey, huidle⟩
  · by_cases hji : j = i
    · subst hji
      simp [Sys.hold]
    · simpa [Sys.hold, hji] using hinv.used_held k j hj
  · by_cases hji : j = i
    · subst hji
      exact hinv.held_used j hi
    · exact hinv.held_used j (by simpa [Sys.hold, hji] using hj)

omit [DecidableEq K] [DecidableEq ι] in
/-- Taking entries out of the tiers keeps the invariant. -/
theorem Inv.shrink (hinv : Inv s) {used : K → Option ι} {unused : C}
    (hused : ∀ k i, used k = some i → s.used k = some i)
    (hunused : ∀ e ∈ Lru.entries unused, e ∈ Lru.entries s.unused) :
    Inv { s with used, unused } where
  used_key k i h := hinv.used_key k i (hused k i h)
  used_held k i h := hinv.used_held k i (hused k i h)
  held_used := hinv.held_used
  unused_key e he := hinv.unused_key e (hunused e he)
  unused_idle e he := hinv.unused_idle e (hunused e he)

theorem Inv.get (hinv : Inv s) (k : K) : Inv (get s k).2 := by
  cases hk : s.used k with
  | some i =>
    rw [get_of_used hk]
    split_ifs
    · exact hinv.hold (hinv.used_held k i hk)
    · exact hinv
  | none =>
    cases hp : (Lru.pop s.unused k).1 with
    | none =>
      rw [get_of_miss hk hp]
      exact hinv.shrink (fun _ _ h => h) fun e he => Lru.mem_pop he
    | some i =>
      rw [get_of_unused hk hp]
      dsimp only
      -- the item found was in the unused tier under the key
      have hki : (k, i) ∈ Lru.entries s.unused := Lru.pop_eq_some_iff.1 hp
      have hkey : s.key i = k := hinv.unused_key _ hki
      have hidle := hinv.unused_idle _ hki
      -- the entries left have other keys, so other items
      have hleft : ∀ e ∈ Lru.entries (Lru.pop s.unused k).2,
          e ∈ Lru.entries s.unused ∧ e.2 ≠ i := by
        intro e he
        rw [Lru.entries_pop, mem_eraseKey (Lru.nodup s.unused)] at he
        refine ⟨he.1, fun hei => he.2 ?_⟩
        rw [← hinv.unused_key e he.1, hei, hkey]
      refine ⟨fun k' j hj => ?_, fun k' j hj => ?_, fun j hj => ?_, fun e he => ?_,
        fun e he => ?_⟩
      · by_cases hk' : k' = k
        · subst hk'
          simp only [update_self, Option.some_inj] at hj
          subst hj
          exact hkey
        · simp only [update_of_ne hk'] at hj
          exact hinv.used_key k' j hj
      · by_cases hk' : k' = k
        · subst hk'
          simp only [update_self, Option.some_inj] at hj
          subst hj
          simp
        · simp only [update_of_ne hk'] at hj
          have := hinv.used_held k' j hj
          by_cases hji : j = i
          · subst hji
            simp
          · simpa [hji] using this
      · by_cases hji : j = i
        · subst hji
          simp
        · simp only [update_of_ne hji] at hj ⊢
          exact hinv.held_used j hj
      · exact hinv.unused_key e (hleft e he).1
      · simp only [update_of_ne (hleft e he).2]
        exact hinv.unused_idle e (hleft e he).1

theorem Inv.insert (hinv : Inv s) (hk : s.key i = k) (hi : 0 < s.refs i) : Inv (insert s k i) := by
  obtain ⟨hukey, huidle⟩ := hinv.unused_frame (t := Cache.insert s k i) hi (fun e he => he)
    (fun _ _ => rfl) (fun _ _ => rfl) (fun j hj => update_of_ne hj _ _)
  refine ⟨fun k' j hj => ?_, fun k' j hj => ?_, fun j hj => ?_, hukey, huidle⟩
  · by_cases hk' : k' = k
    · subst hk'
      simp only [Cache.insert, update_self, Option.some_inj] at hj
      subst hj
      exact hk
    · simp only [Cache.insert, update_of_ne hk'] at hj
      exact hinv.used_key k' j hj
  · by_cases hk' : k' = k
    · subst hk'
      simp only [Cache.insert, update_self, Option.some_inj] at hj
      subst hj
      exact hi
    · simp only [Cache.insert, update_of_ne hk'] at hj
      exact hinv.used_held k' j hj
  · by_cases hji : j = i
    · subst hji
      simp [Cache.insert]
    · simp only [Cache.insert, update_of_ne hji]
      exact hinv.held_used j hj

theorem Inv.makeItem (hinv : Inv s) (hsc : s.strongCount i = 0) : Inv (makeItem s i k) := by
  have hi : s.refs i = 0 := by
    rw [Sys.strongCount] at hsc
    omega
  have hnot : ∀ e ∈ Lru.entries s.unused, e.2 ≠ i := by
    intro e he hei
    have : 0 < ((Lru.entries s.unused).map Prod.snd).count i :=
      List.count_pos_iff.2 (List.mem_map.2 ⟨e, he, hei⟩)
    rw [Sys.strongCount] at hsc
    omega
  -- the new item is not in `used` either, which names only held items
  have hused : ∀ k' j, s.used k' = some j → j ≠ i := by
    rintro k' j hj rfl
    have := hinv.used_held k' j hj
    omega
  refine ⟨fun k' j hj => ?_, fun k' j hj => ?_, fun j hj => ?_, fun e he => ?_, fun e he => ?_⟩
  · by_cases hk' : k' = k
    · subst hk'
      simp only [Cache.makeItem, Cache.insert, update_self, Option.some_inj] at hj
      subst hj
      simp [Cache.makeItem, Cache.insert]
    · simp only [Cache.makeItem, Cache.insert, update_of_ne hk'] at hj
      simp only [Cache.makeItem, Cache.insert, update_of_ne (hused k' j hj)]
      exact hinv.used_key k' j hj
  · by_cases hk' : k' = k
    · subst hk'
      simp only [Cache.makeItem, Cache.insert, update_self, Option.some_inj] at hj
      subst hj
      simp [Cache.makeItem, Cache.insert]
    · simp only [Cache.makeItem, Cache.insert, update_of_ne hk'] at hj
      simp only [Cache.makeItem, Cache.insert, update_of_ne (hused k' j hj)]
      exact hinv.used_held k' j hj
  · by_cases hji : j = i
    · subst hji
      simp [Cache.makeItem, Cache.insert]
    · simp only [Cache.makeItem, Cache.insert, update_of_ne hji] at hj ⊢
      exact hinv.held_used j hj
  · simp only [Cache.makeItem, Cache.insert, update_of_ne (hnot e he)]
    exact hinv.unused_key e he
  · simp only [Cache.makeItem, Cache.insert, update_of_ne (hnot e he)]
    exact hinv.unused_idle e he

theorem Inv.rehash (hinv : Inv s) (hi : 0 < s.refs i) (k : K) : Inv (rehash s i k) := by
  cases hk : s.used (s.key i) with
  | none =>
    simp only [Cache.rehash, hk]
    exact hinv
  | some j₀ =>
    simp only [Cache.rehash, hk]
    obtain ⟨hukey, huidle⟩ := hinv.unused_frame
      (t := { s with
        key := update s.key i k, used := update (update s.used (s.key i) none) k (some i) })
      hi (fun e he => he)
      (fun j hj => update_of_ne hj _ _) (fun _ _ => rfl) (fun _ _ => rfl)
    refine ⟨fun k' j hj => ?_, fun k' j hj => ?_, hinv.held_used, hukey, huidle⟩
    · by_cases hk' : k' = k
      · subst hk'
        simp only [update_self, Option.some_inj] at hj
        subst hj
        simp
      · -- the entry was there before, at another key than the item's old one
        simp only [update_of_ne hk'] at hj
        have hko : k' ≠ s.key i := by
          rintro rfl
          simp at hj
        simp only [update_of_ne hko] at hj
        simp only [update_of_ne (hinv.ne_of_used_ne hj hko)]
        exact hinv.used_key k' j hj
    · by_cases hk' : k' = k
      · subst hk'
        simp only [update_self, Option.some_inj] at hj
        subst hj
        exact hi
      · simp only [update_of_ne hk'] at hj
        have hko : k' ≠ s.key i := by
          rintro rfl
          simp at hj
        simp only [update_of_ne hko] at hj
        exact hinv.used_held k' j hj

omit [DecidableEq K] in
/-- A drop of one of several handles. -/
theorem Inv.release (hinv : Inv s) (hi : 1 < s.refs i) :
    Inv { s with refs := update s.refs i (s.refs i - 1) } := by
  obtain ⟨hukey, huidle⟩ := hinv.unused_frame
    (t := { s with refs := update s.refs i (s.refs i - 1) }) (by omega) (fun e he => he)
    (fun _ _ => rfl) (fun j hj => update_of_ne hj _ _) (fun _ _ => rfl)
  refine ⟨hinv.used_key, fun k j hj => ?_, fun j hj => ?_, hukey, huidle⟩
  · by_cases hji : j = i
    · subst hji
      simp only [update_self]
      omega
    · simpa [hji] using hinv.used_held k j hj
  · by_cases hji : j = i
    · subst hji
      exact hinv.held_used j (by omega)
    · exact hinv.held_used j (by simpa [hji] using hj)

omit [DecidableEq K] in
/-- The last handle goes: the item, marked unused, is in the unused tier if its key had an entry,
and otherwise freed; no entry of `used` is left naming it. -/
theorem Inv.last (hinv : Inv s) (hi : s.refs i = 1) {used : K → Option ι}
    {unused : C} (hused : ∀ k j, used k = some j → s.used k = some j ∧ j ≠ i)
    (hunused : ∀ e ∈ Lru.entries unused, e = (s.key i, i) ∨ e ∈ Lru.entries s.unused) :
    Inv { s with used, unused, isUsed := update s.isUsed i false, refs := update s.refs i 0 } := by
  refine ⟨fun k j hj => ?_, fun k j hj => ?_, fun j hj => ?_, fun e he => ?_, fun e he => ?_⟩
  · exact hinv.used_key k j (hused k j hj).1
  · simp only [update_of_ne (hused k j hj).2]
    exact hinv.used_held k j (hused k j hj).1
  · by_cases hji : j = i
    · subst hji
      simp at hj
    · simp only [update_of_ne hji] at hj ⊢
      exact hinv.held_used j hj
  · rcases hunused e he with rfl | he
    · rfl
    · exact hinv.unused_key e he
  · rcases hunused e he with rfl | he
    · simp
    · simp only [update_of_ne (hinv.ne_of_unused he (by omega : 0 < s.refs i))]
      exact hinv.unused_idle e he

theorem Inv.drop (hinv : Inv s) (hi : 0 < s.refs i) : Inv (drop s i) := by
  rcases Nat.lt_or_ge 1 (s.refs i) with hgt | hle
  · rw [drop_of_held (by rw [hinv.strongCount_eq hi]; exact hgt)]
    exact hinv.release hgt
  · have hi1 : s.refs i = 1 := by omega
    have hsc : s.strongCount i = 1 := by rw [hinv.strongCount_eq hi, hi1]
    have hu := hinv.held_used i hi
    -- an entry of `used` naming the item is at its key
    have hown : ∀ k j, s.used k = some j → k ≠ s.key i → j ≠ i :=
      fun k j hj hk => hinv.ne_of_used_ne hj hk
    cases hk : s.used (s.key i) with
    | some j₀ =>
      rw [drop_of_moved hsc hu hk, hi1]
      refine hinv.last hi1 (fun k j hj => ?_) fun e he => ?_
      · have hki : k ≠ s.key i := by
          rintro rfl
          simp at hj
        simp only [update_of_ne hki] at hj
        exact ⟨hj, hown k j hj hki⟩
      · exact Lru.mem_put he
    | none =>
      rw [drop_of_freed hsc hu hk, hi1]
      refine hinv.last hi1 (fun k j hj => ⟨hj, fun hji => ?_⟩) fun e he => Or.inr he
      subst hji
      rw [hinv.used_key k j hj] at hk
      rw [hk] at hj
      cases hj

theorem Inv.step (hinv : Inv s) {o : Op K ι} {s' : Sys K ι C} (h : step s o = some s') :
    Inv s' := by
  cases o with
  | get k =>
    cases h
    exact hinv.get k
  | makeItem i k =>
    simp only [Cache.step] at h
    split_ifs at h with hsc
    cases h
    exact hinv.makeItem hsc
  | makeCached i =>
    simp only [Cache.step] at h
    split_ifs at h with hi
    cases h
    exact hinv.insert rfl hi
  | clone i =>
    simp only [Cache.step] at h
    split_ifs at h with hi
    cases h
    exact hinv.hold hi
  | drop i =>
    simp only [Cache.step] at h
    split_ifs at h with hi
    cases h
    exact hinv.drop hi
  | rehash i k =>
    simp only [Cache.step] at h
    split_ifs at h with hi
    cases h
    exact hinv.rehash hi k
  | remove k =>
    cases h
    unfold Cache.remove
    split
    · refine hinv.shrink (fun k' j hj => ?_) fun e he => he
      by_cases hk' : k' = k
      · subst hk'
        simp at hj
      · rwa [update_of_ne hk'] at hj
    · exact hinv.shrink (fun _ _ h => h) fun e he => Lru.mem_pop he
  | clear =>
    cases h
    exact hinv.shrink (fun _ _ h => by cases h) fun e he => by simp at he

theorem Inv.of_run [Inhabited K] {cap : ℕ} {hcap : 0 < cap} {sched : List (Op K ι)}
    {s : Sys K ι C} (h : run Cache.step (Sys.init cap hcap) sched = some s) : Inv s :=
  run_preserves (fun _ _ _ (hc : Inv _) hs => hc.step hs) sched _ _ (Inv.init cap hcap) h

/-! ## Lookups -/

/-- A key of `used` names a held item, which `get` returns. -/
theorem Inv.get_of_used (hinv : Inv s) (hk : s.used k = some i) : (Cache.get s k).1 = some i := by
  have hi := hinv.used_held k i hk
  rw [Cache.get_of_used hk, if_pos (by rw [hinv.strongCount_eq hi]; exact hi)]

/-- Whether a call leaves the entries of key `k` of the unused tier where they are: it looks up or
removes another key, releases an item of another key, or does not touch the tier. -/
def Op.keeps (k : K) (s : Sys K ι C) : Op K ι → Prop
  | .get k' | .remove k' => k' ≠ k
  | .drop j => s.key j ≠ k
  | .clear => False
  | .makeItem _ _ | .makeCached _ | .clone _ | .rehash _ _ => True

instance (k : K) (s : Sys K ι C) : (o : Op K ι) → Decidable (o.keeps k s)
  | .get k' | .remove k' => inferInstanceAs (Decidable (k' ≠ k))
  | .drop j => inferInstanceAs (Decidable (s.key j ≠ k))
  | .clear => inferInstanceAs (Decidable False)
  | .makeItem _ _ | .makeCached _ | .clone _ | .rehash _ _ => inferInstanceAs (Decidable True)

/-- A call that keeps key `k` moves its entry back by at most one place. -/
theorem mem_take_step {e : K × ι} {m : ℕ} (hm : m < Lru.cap s.unused)
    (he : e ∈ (Lru.entries s.unused).take m) {o : Op K ι} (hkeep : o.keeps e.1 s) {s' : Sys K ι C}
    (h : step s o = some s') : e ∈ (Lru.entries s'.unused).take (m + 1) := by
  have hmono : e ∈ (Lru.entries s.unused).take (m + 1) :=
    (List.take_sublist_take_left (Nat.le_succ m)).subset he
  have hpop : ∀ k', k' ≠ e.1 → e ∈ (Lru.entries (Lru.pop s.unused k').2).take (m + 1) :=
    fun k' hk' => Lru.mem_take_pop hmono (Ne.symm hk')
  cases o with
  | get k' =>
    cases h
    cases hk : s.used k' with
    | some i =>
      rw [Cache.get_of_used hk]
      split_ifs <;> exact hmono
    | none =>
      cases hp : (Lru.pop s.unused k').1 with
      | some i => rw [get_of_unused hk hp]; exact hpop k' hkeep
      | none => rw [get_of_miss hk hp]; exact hpop k' hkeep
  | remove k' =>
    cases h
    unfold Cache.remove
    split
    · exact hmono
    · exact hpop k' hkeep
  | drop j =>
    simp only [Cache.step] at h
    split_ifs at h
    cases h
    unfold Cache.drop handleDrop moveToUnused
    split_ifs
    all_goals (try split)
    all_goals first | exact hmono | exact Lru.mem_take_put hm he (Ne.symm hkeep)
  | clear => exact hkeep.elim
  | makeItem i k => simp only [Cache.step] at h; split_ifs at h; cases h; exact hmono
  | makeCached i => simp only [Cache.step] at h; split_ifs at h; cases h; exact hmono
  | clone i => simp only [Cache.step] at h; split_ifs at h; cases h; exact hmono
  | rehash i k =>
    simp only [Cache.step] at h
    split_ifs at h
    cases h
    unfold Cache.rehash
    split <;> exact hmono

/-- Along a run of calls that keep key `k`, its entry moves back by at most one place a call, so
that it stays while it has not reached the end of the tier: by induction on the calls. -/
theorem mem_take_run {e : K × ι} :
    ∀ (sched : List (Op K ι)) (s s' : Sys K ι C) (m : ℕ), e ∈ (Lru.entries s.unused).take m →
      m + sched.length ≤ Lru.cap s.unused → Guarded step (fun c o => o.keeps e.1 c) s sched →
      run step s sched = some s' → e ∈ (Lru.entries s'.unused).take (m + sched.length)
  | [], s, s', m, he, _, _, h => by
    cases h
    exact he
  | o :: os, s, s'', m, he, hm, ⟨hkeep, hrest⟩, h => by
    obtain ⟨s', hs, hrun⟩ := run_cons_eq_some h
    have he' := mem_take_step (by simp at hm; omega) he hkeep hs
    have hm' : m + 1 + os.length ≤ Lru.cap s'.unused := by
      rw [cap_step hs]
      simp at hm
      omega
    have hlen : m + 1 + os.length = m + (o :: os).length := by
      rw [List.length_cons]
      omega
    rw [← hlen]
    exact mem_take_run os s' s'' (m + 1) he' hm' (hrest s' hs) hrun

/-- In every run from `Cache::new`, an item among the first `m` of the unused tier stays there
through any `cap - m` further calls that do not look up, remove or release an item of its key or
clear the cache; `get` of its key returns it while no item of `used` has the key. -/
theorem released_item_kept [Inhabited K] (cap : ℕ) (hcap : 0 < cap) {s₀ s : Sys K ι C}
    (sched₀ sched : List (Op K ι)) {k : K} {i : ι} {m : ℕ}
    (h₀ : run step (Sys.init cap hcap) sched₀ = some s₀)
    (he : (k, i) ∈ (Lru.entries s₀.unused).take m) (hm : m + sched.length ≤ cap)
    (hkeep : Guarded step (fun c o => o.keeps k c) s₀ sched) (h : run step s₀ sched = some s) :
    (k, i) ∈ Lru.entries s.unused ∧ (s.used k = none → (get s k).1 = some i) := by
  have hcap₀ : Lru.cap s₀.unused = cap := (cap_run h₀).trans (Lru.cap_new cap hcap)
  have hmem := List.mem_of_mem_take
    (mem_take_run (e := (k, i)) sched s₀ s m he (hcap₀ ▸ hm) hkeep h)
  refine ⟨hmem, fun hk => ?_⟩
  rw [get_of_unused hk (Lru.pop_eq_some_iff.2 hmem)]

/-- With a cache of three, an inode released is kept while another is made and released. -/
theorem released_item_kept_threeItems :
    ∃ s₀ s : Sys ℕ ℕ (LruCache ℕ ℕ),
      run step (Sys.init 3 (by decide)) [.makeItem 0 7, .drop 0] = some s₀ ∧
      run step s₀ [.makeItem 1 8, .drop 1] = some s ∧
      ((7, 0) ∈ Lru.entries s.unused ∧ (s.used 7 = none → (get s 7).1 = some 0)) :=
  ⟨_, _, rfl, rfl, released_item_kept 3 (by decide) [.makeItem 0 7, .drop 0]
    [.makeItem 1 8, .drop 1] (m := 1) rfl (by decide) (by decide)
    ⟨trivial, fun c hc => by cases hc; exact ⟨by decide, fun _ _ => trivial⟩⟩ rfl⟩

/-! ## A removed item returned -/

end Cykusz.Fs.Cache
