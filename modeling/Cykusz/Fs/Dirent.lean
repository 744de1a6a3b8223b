import Mathlib
import Cykusz.Fs.Cache

/-!
# The dentry cache

`DirEntry` (`kernel/fs/dirent.rs`) is cached in a `Cache` under the key `(cache_marker of the
parent, name)` (`make_key`, with 0 for a dentry without a parent). Every dentry the cache makes
takes its `cache_marker` from a counter that starts at 0 and that the root takes first, so that the
marker names the dentry, and it holds a handle of its parent. Of the `Cacheable` hooks,
`notify_used` and `deallocate` do nothing, and `notify_unused` clears the parent: `move_to_unused`
runs it once the dentry is in the unused tier under the key it had and the cache's lock is released,
so that from then on its `cache_key()` is `(0, name)`, and the handle of the parent goes, which may
release the parent in turn. A dentry freed at its last handle drops its handle of its parent as its
data goes, after the lock too. `dirent::get` gives a dentry it finds without a parent the parent it
was asked for, which restores the key.

The model is the generic cache of dentries (`Cache`) with the counter and each dentry's parent
beside it. The cache's `key` of a dentry is the key the cache last read of it; the key the code
computes is `cacheKey`, and a call that reads `cache_key()` reads it (`syncKey`). The drop of the
handle of the parent after a last drop is a step of its own (`release`), as it runs outside the
cache's lock; `dirent::get`, `DirEntry::new`, `DirEntry::drop_from_cache` and the clones and drops
of handles are one step each. The root, made by `make_item_no_cache`, has no entry in the cache; it
is held by its mount, whose handle no call drops, and by the tasks.

When every release runs before the next call (`Sequential`), the key the cache keeps of a dentry in
use is its `cache_key()`, and a lookup returns a dentry of the name asked for whose parent is the
directory asked for (`lookup_consistent`); without `drop_from_cache`, it returns the child of the
directory of that name in use (`lookup_finds_child`). The last close of a file unlinked and created
again makes the lookup of its name return the unlinked dentry (`unlinked_dentry_returned`). A
lookup that comes between a last drop and its `notify_unused` takes the dentry back while it still
has its parent, which the hook then clears: the dentry is in use with the key `(0, name)` of a
child of the root, whose entry its next drop takes over, and the lookup of the name in the root
returns the dentry of another directory (`lookup_race_aliases`).
-/

namespace Cykusz.Fs.Dirent

open Simulation Function

variable {N C : Type*}

/-- `DirEntry::make_key`: the parent's `cache_marker`, or 0 without a parent, and the name. -/
def makeKey (parent : Option ℕ) (name : N) : ℕ × N := (parent.getD 0, name)

/-- The dentry cache: the cache of dentries, each named by its `cache_marker`; the counter of
`new_cache_marker`; each dentry's parent; and the dentries whose handle of their parent is still to
be dropped. -/
structure Sys (N C : Type*) where
  cache : Cache.Sys (ℕ × N) ℕ C
  counter : ℕ
  parent : ℕ → Option ℕ
  releasing : List ℕ

namespace Sys

/-- `cache_key()` of a dentry: the key of its parent and its name. -/
def cacheKey (s : Sys N C) (i : ℕ) : ℕ × N := makeKey (s.parent i) (s.cache.key i).2

/-- The cache as a call that reads `cache_key()` of `i` sees it. -/
def syncKey (s : Sys N C) (i : ℕ) : Cache.Sys (ℕ × N) ℕ C :=
  { s.cache with key := update s.cache.key i (s.cacheKey i) }

/-- `DirEntry::update_parent`. -/
def updateParent (s : Sys N C) (i : ℕ) (parent : Option ℕ) : Sys N C :=
  { s with parent := update s.parent i parent }

end Sys

section Calls

variable [DecidableEq N] [Lru C (ℕ × N) ℕ]

/-- `ArcWrap::drop` of a handle of `i`: the cache's drop, which reads `cache_key()`. At the last
handle the dentry goes to the unused tier or is freed, and its handle of its parent is dropped
later, by `notify_unused` or as its data goes. -/
def drop (s : Sys N C) (i : ℕ) : Sys N C :=
  { s with
    cache := Cache.drop (s.syncKey i) i
    releasing := if s.cache.strongCount i = 1 then i :: s.releasing else s.releasing }

/-- `dirent::get(parent, name)`, with the caller's clone of the parent's handle: the cache's `get`
of the key of the parent and the name; a dentry found without a parent takes the clone as its
parent, and otherwise the clone is dropped. -/
def get (s : Sys N C) (p : ℕ) (name : N) : Option ℕ × Sys N C :=
  let r := Cache.get (s.cache.hold p) (makeKey (some p) name)
  let s₁ := { s with cache := r.2 }
  match r.1 with
  | some e =>
    if s.parent e = none then (some e, s₁.updateParent e (some p)) else (some e, drop s₁ p)
  | none => (none, drop s₁ p)

/-- `DirEntry::new(parent, inode, name)` of a name other than `.` and `..`: the dentry
`dirent::get` finds, or else a new one, of the next `cache_marker`, made and cached by `make_item`
under the key of its parent and name, holding a handle of its parent. The caller's clone of the
parent's handle, which `new` takes, and its drop as `new` returns cancel out. -/
def new (s : Sys N C) (p : ℕ) (name : N) : ℕ × Sys N C :=
  match get s p name with
  | (some e, s₁) => (e, s₁)
  | (none, s₁) =>
    (s₁.counter,
      Sys.updateParent
        { s₁ with
          cache := Cache.makeItem (s₁.cache.hold p) s₁.counter (makeKey (some p) name)
          counter := s₁.counter + 1 }
        s₁.counter (some p))

/-- `notify_unused` of a dentry moved to the unused tier, or the drop of a freed dentry's data,
both after the cache's lock is released: the parent is cleared, and the dentry's handle of it
dropped. -/
def release (s : Sys N C) (i : ℕ) : Sys N C :=
  let s₁ := { s.updateParent i none with releasing := s.releasing.erase i }
  match s.parent i with
  | some p => drop s₁ p
  | none => s₁

/-- `DirEntry::drop_from_cache`: the cache's `remove` of `cache_key()`. The entry of the inode
cache it removes too is not part of the dentry cache. -/
def dropFromCache (s : Sys N C) (i : ℕ) : Sys N C :=
  { s with cache := Cache.remove s.cache (s.cacheKey i) }

/-- The dentry cache of `Cache::new(capacity)` and `DirEntry::new_root`: the root takes the
marker 0, has no parent and no entry, and is held by its mount and by the tasks; no dentry is
cached. The root is marked used, as the items in use are: its last handle never goes, so that
`handle_drop` never reads the mark. -/
def init (rootName : N) (cap : ℕ) (hcap : 0 < cap) : Sys N C :=
  ⟨⟨fun _ => none, Lru.new cap hcap, fun i => decide (i = 0), fun _ => (0, rootName),
    fun i => if i = 0 then 2 else 0⟩, 1, fun _ => none, []⟩

end Calls

/-- The calls: `dirent::get`, `DirEntry::new`, a clone and a drop of a handle, the drop of the
handle of the parent after a last drop (`release`), and `drop_from_cache`. -/
inductive Op (N : Type*)
  | get (p : ℕ) (name : N)
  | new (p : ℕ) (name : N)
  | clone (i : ℕ)
  | drop (i : ℕ)
  | release (i : ℕ)
  | dropFromCache (i : ℕ)
deriving DecidableEq, Repr

/-- The dentries made so far whose parent is `p`, each of which holds a handle of it. -/
def kids (s : Sys N C) (p : ℕ) : ℕ :=
  ((Finset.range s.counter).filter fun i => s.parent i = some p).card

/-- The handles of `i` that its children and, for the root, its mount hold. -/
def handles (s : Sys N C) (i : ℕ) : ℕ := kids s i + if i = 0 then 1 else 0

/-- A task holds a handle of `i`: it has more handles than its children and its mount hold. -/
def Holds (s : Sys N C) (i : ℕ) : Prop := handles s i < s.cache.refs i

instance (s : Sys N C) (i : ℕ) : Decidable (Holds s i) := inferInstanceAs (Decidable (_ < _))

/-- Whether a call is a release. -/
def Op.isRelease : Op N → Bool
  | .release _ => true
  | _ => false

/-- Whether a call is `drop_from_cache`. -/
def Op.isRemove : Op N → Bool
  | .dropFromCache _ => true
  | _ => false

/-- The runs in which the releases after a drop run before any other call. -/
def Sequential (s : Sys N C) (o : Op N) : Prop := o.isRelease = true ∨ s.releasing = []

instance (s : Sys N C) (o : Op N) : Decidable (Sequential s o) :=
  inferInstanceAs (Decidable (_ ∨ _))

/-! ## Children -/

section Children

variable {s : Sys N C} {i : ℕ}


/-- A new parent of a dentry made: the child counts move from the old parent to the new one. -/
theorem kids_updateParent (hi : i < s.counter) (x : Option ℕ) (q : ℕ) :
    kids (s.updateParent i x) q + (if s.parent i = some q then 1 else 0) =
      kids s q + if x = some q then 1 else 0 := by
  have hmem : i ∈ Finset.range s.counter := Finset.mem_range.2 hi
  have hk : kids (s.updateParent i x) q =
      ∑ j ∈ Finset.range s.counter, if update s.parent i x j = some q then 1 else 0 :=
    Finset.card_filter _ _
  have hk' : kids s q = ∑ j ∈ Finset.range s.counter, if s.parent j = some q then 1 else 0 :=
    Finset.card_filter _ _
  -- off `i` the two parents agree
  have hrest : ∑ j ∈ (Finset.range s.counter).erase i,
      (if update s.parent i x j = some q then 1 else 0) =
      ∑ j ∈ (Finset.range s.counter).erase i, if s.parent j = some q then 1 else 0 :=
    Finset.sum_congr rfl fun j hj => by rw [update_of_ne (Finset.ne_of_mem_erase hj)]
  rw [hk, hk', ← Finset.add_sum_erase _ _ hmem, ← Finset.add_sum_erase _ _ hmem, hrest,
    update_self]
  split_ifs <;> omega

/-- Clearing a parent takes a child away at most. -/
theorem kids_unparent_le (s : Sys N C) (i q : ℕ) : kids (s.updateParent i none) q ≤ kids s q := by
  apply Finset.card_le_card
  intro j hj
  rw [Finset.mem_filter] at hj ⊢
  refine ⟨hj.1, ?_⟩
  have h := hj.2
  by_cases hji : j = i
  · subst hji
    simp [Sys.updateParent] at h
  · simpa only [Sys.updateParent, update_of_ne hji] using h

/-- Setting a parent adds a child at most. -/
theorem kids_updateParent_le (s : Sys N C) (i : ℕ) (x : Option ℕ) (q : ℕ) :
    kids (s.updateParent i x) q ≤ kids s q + 1 := by
  by_cases hi : i < s.counter
  · have := kids_updateParent hi x q
    split_ifs at this <;> omega
  · -- a dentry not made yet is not counted
    have : kids (s.updateParent i x) q = kids s q := by
      refine congrArg Finset.card (Finset.filter_congr fun j hj => ?_)
      have hji : j ≠ i := by
        rintro rfl
        exact hi (Finset.mem_range.1 hj)
      simp only [Sys.updateParent, update_of_ne hji]
    omega

/-- A new dentry, without a parent yet, is counted with no parent. -/
theorem kids_succ (h : s.parent s.counter = none) (c : Cache.Sys (ℕ × N) ℕ C) (q : ℕ) :
    kids { s with cache := c, counter := s.counter + 1 } q = kids s q := by
  simp [kids, Finset.range_add_one, Finset.filter_insert, h]

theorem Holds.refs_pos (h : Holds s i) : 0 < s.cache.refs i := by
  unfold Holds at h
  omega

/-- A clone of a handle the caller holds, once counted, is not the caller's last handle: the clone
can be dropped. -/
theorem Holds.clone (h : Holds s i) {c : Cache.Sys (ℕ × N) ℕ C}
    (hle : s.cache.refs i + 1 ≤ c.refs i) : Holds { s with cache := c } i := by
  unfold Holds at h ⊢
  show handles s i < c.refs i
  omega

end Children

variable [DecidableEq N] [Lru C (ℕ × N) ℕ]

/-- A step; `none` where the call cannot be made: a call on a dentry of which the task holds no
handle, or a release that no last drop left. -/
def step (s : Sys N C) : Op N → Option (Sys N C)
  | .get p name => if Holds s p then some (get s p name).2 else none
  | .new p name => if Holds s p then some (new s p name).2 else none
  | .clone i => if Holds s i then some { s with cache := s.cache.hold i } else none
  | .drop i => if Holds s i then some (drop s i) else none
  | .release i => if i ∈ s.releasing then some (release s i) else none
  | .dropFromCache i => if Holds s i then some (dropFromCache s i) else none

/-! ## The calls -/

variable {s : Sys N C} {i p q : ℕ}

omit [DecidableEq N] [Lru C (ℕ × N) ℕ] in
theorem syncKey_eq (h : s.cache.key i = s.cacheKey i) : s.syncKey i = s.cache := by
  simp only [Sys.syncKey, ← h, update_eq_self]

/-- A drop of a dentry whose key is read as it is kept. -/
theorem drop_eq (h : s.cache.key i = s.cacheKey i) :
    drop s i = { s with
      cache := Cache.drop s.cache i
      releasing := if s.cache.strongCount i = 1 then i :: s.releasing else s.releasing } := by
  rw [drop, syncKey_eq h]

/-- A drop of one of several handles releases nothing. -/
theorem releasing_drop (h : 1 < s.cache.refs i) : (drop s i).releasing = s.releasing := by
  have : s.cache.strongCount i ≠ 1 := by
    unfold Cache.Sys.strongCount
    omega
  simp only [drop, this, if_false]

theorem refs_drop (s : Sys N C) (i : ℕ) :
    (drop s i).cache.refs = update s.cache.refs i (s.cache.refs i - 1) :=
  Cache.refs_drop _ _

theorem get_eq_of_some {name : N} {e : ℕ} {c : Cache.Sys (ℕ × N) ℕ C}
    (h : Cache.get (s.cache.hold p) (makeKey (some p) name) = (some e, c)) :
    get s p name = if s.parent e = none then (some e, { s with cache := c }.updateParent e (some p))
      else (some e, drop { s with cache := c } p) := by
  simp only [get, h]

/-- A lookup returns the dentry the cache finds, whatever it does with its parent. -/
theorem get_fst_of_some {name : N} {e : ℕ} {c : Cache.Sys (ℕ × N) ℕ C}
    (h : Cache.get (s.cache.hold p) (makeKey (some p) name) = (some e, c)) :
    (get s p name).1 = some e := by
  rw [get_eq_of_some h]
  split_ifs <;> rfl

theorem get_eq_of_none {name : N} {c : Cache.Sys (ℕ × N) ℕ C}
    (h : Cache.get (s.cache.hold p) (makeKey (some p) name) = (none, c)) :
    get s p name = (none, drop { s with cache := c } p) := by
  simp only [get, h]

theorem release_of_parent (h : s.parent i = some p) :
    release s i = drop { s.updateParent i none with releasing := s.releasing.erase i } p := by
  simp only [release, h]

theorem release_of_none (h : s.parent i = none) :
    release s i = { s.updateParent i none with releasing := s.releasing.erase i } := by
  simp only [release, h]

/-! ## The invariant -/

/-- The cache's invariant; a dentry in use is kept under its `cache_key()`, and one of `used` has a
parent; a dentry with a parent is held or has its release pending, and holds a handle of it; a
release pending is of a dentry no task holds; and a marker not taken yet names no dentry. -/
structure Inv (s : Sys N C) : Prop where
  cache : Cache.Inv s.cache
  synced : ∀ i, 0 < s.cache.refs i → s.cache.key i = s.cacheKey i
  used_parent : ∀ k i, s.cache.used k = some i → s.parent i ≠ none
  parented : ∀ i, s.parent i ≠ none → 0 < s.cache.refs i ∨ i ∈ s.releasing
  handles_le : ∀ p, handles s p ≤ s.cache.refs p
  pending : ∀ i ∈ s.releasing, s.cache.refs i = 0
  fresh : ∀ i, s.counter ≤ i →
    s.cache.refs i = 0 ∧ s.parent i = none ∧ ∀ e ∈ Lru.entries s.cache.unused, e.2 ≠ i

omit [DecidableEq N] in
theorem Inv.init (rootName : N) (cap : ℕ) (hcap : 0 < cap) :
    Inv (Dirent.init rootName cap hcap : Sys N C) where
  cache := by
    refine ⟨fun _ _ h => (by cases h), fun _ _ h => (by cases h), fun i hi => ?_,
      fun _ h => (by simp [Dirent.init] at h), fun _ h => (by simp [Dirent.init] at h)⟩
    by_cases h0 : i = 0
    · simp [Dirent.init, h0]
    · simp [Dirent.init, h0] at hi
  synced _ _ := rfl
  used_parent _ _ h := by cases h
  parented _ h := absurd rfl h
  handles_le p := by
    have : kids (Dirent.init rootName cap hcap : Sys N C) p = 0 := by simp [kids, Dirent.init]
    simp only [handles, this]
    split_ifs with h0 <;> simp [Dirent.init, h0]
  pending _ h := by cases h
  fresh i hi := by
    have h0 : i ≠ 0 := by
      change 1 ≤ i at hi
      omega
    simp [Dirent.init, h0]

omit [DecidableEq N] in
theorem Inv.lt_counter (hinv : Inv s) (hi : 0 < s.cache.refs i) : i < s.counter := by
  by_contra h
  have := (hinv.fresh i (by omega)).1
  omega

omit [DecidableEq N] in
theorem Inv.lt_counter_of_parent (hinv : Inv s) (hi : s.parent i ≠ none) : i < s.counter := by
  by_contra h
  exact hi (hinv.fresh i (by omega)).2.1

omit [DecidableEq N] in
theorem Inv.lt_counter_of_unused (hinv : Inv s) {e : (ℕ × N) × ℕ}
    (he : e ∈ Lru.entries s.cache.unused) : e.2 < s.counter := by
  by_contra h
  exact (hinv.fresh e.2 (by omega)).2.2 e he rfl

omit [DecidableEq N] in
/-- A change of the cache alone that keeps the keys, takes no handle and makes no dentry held, and
only takes entries out of the tiers. -/
theorem Inv.of_cache (hinv : Inv s) {c : Cache.Sys (ℕ × N) ℕ C} (hc : Cache.Inv c)
    (hkey : c.key = s.cache.key) (hrefs : ∀ j, s.cache.refs j ≤ c.refs j)
    (hheld : ∀ j, 0 < c.refs j → 0 < s.cache.refs j)
    (hused : ∀ k j, c.used k = some j → s.cache.used k = some j)
    (hunused : ∀ e ∈ Lru.entries c.unused, e ∈ Lru.entries s.cache.unused) :
    Inv { s with cache := c } where
  cache := hc
  synced j hj := by
    simp only [Sys.cacheKey, hkey]
    exact hinv.synced j (hheld j hj)
  used_parent k j hj := hinv.used_parent k j (hused k j hj)
  parented j hj := (hinv.parented j hj).imp_left fun h => lt_of_lt_of_le h (hrefs j)
  handles_le p := (hinv.handles_le p).trans (hrefs p)
  pending j hj := Nat.eq_zero_of_not_pos fun h => by
    have := hinv.pending j hj
    have := hheld j h
    omega
  fresh j hj := by
    obtain ⟨hr, hpar, hun⟩ := hinv.fresh j hj
    refine ⟨Nat.eq_zero_of_not_pos fun h => ?_, hpar, fun e he => hun e (hunused e he)⟩
    have := hheld j h
    omega

omit [DecidableEq N] in
theorem Inv.hold (hinv : Inv s) (hi : 0 < s.cache.refs i) :
    Inv { s with cache := s.cache.hold i } := by
  refine hinv.of_cache (hinv.cache.hold hi) rfl (fun j => ?_) (fun j hj => ?_)
    (fun _ _ h => h) fun _ h => h
  · simp only [Cache.Sys.hold, update_apply]
    split_ifs with h <;> simp [h]
  · by_cases hji : j = i
    · subst hji
      exact hi
    · simpa [Cache.Sys.hold, update_of_ne hji] using hj

/-- A drop keeps the invariant: at the last handle, the dentry's release is pending. -/
theorem Inv.drop (hinv : Inv s) (hh : Holds s i) : Inv (drop s i) := by
  have hi := hh.refs_pos
  have hsc : s.cache.strongCount i = s.cache.refs i := hinv.cache.strongCount_eq hi
  have hlt := hinv.lt_counter hi
  have hhi := hh
  unfold Holds at hhi
  rw [drop_eq (hinv.synced i hi)]
  refine ⟨hinv.cache.drop hi, fun j hj => ?_, fun k j hj => ?_, fun j hj => ?_, fun r => ?_,
    fun j hj => ?_, fun j hj => ?_⟩
  · -- the keys and the parents stay
    simp only [Cache.refs_drop] at hj
    simp only [Sys.cacheKey, Cache.key_drop]
    apply hinv.synced j
    by_cases hji : j = i
    · subst hji
      exact hi
    · simpa [update_of_ne hji] using hj
  · exact hinv.used_parent k j (Cache.used_drop hj)
  · dsimp only
    rcases hinv.parented j hj with h | h
    · by_cases hji : j = i
      · subst hji
        by_cases h1 : s.cache.refs j = 1
        · right
          simp [hsc, h1]
        · left
          simp only [Cache.refs_drop, update_self]
          omega
      · left
        simpa [Cache.refs_drop, update_of_ne hji] using h
    · right
      split_ifs <;> simp [h]
  · show handles s r ≤ (Cache.drop s.cache i).refs r
    rw [Cache.refs_drop]
    by_cases hri : r = i
    · subst hri
      simp only [update_self]
      omega
    · simpa [update_of_ne hri] using hinv.handles_le r
  · -- the dentry released is the one dropped, at its last handle
    dsimp only at hj ⊢
    rw [Cache.refs_drop]
    have hold : ∀ j ∈ s.releasing, update s.cache.refs i (s.cache.refs i - 1) j = 0 := by
      intro j hj
      have := hinv.pending j hj
      have hji : j ≠ i := by
        rintro rfl
        omega
      simpa [update_of_ne hji] using this
    split_ifs at hj with h1
    · rcases List.mem_cons.1 hj with rfl | hj
      · simp only [update_self]
        omega
      · exact hold j hj
    · exact hold j hj
  · change s.counter ≤ j at hj
    obtain ⟨hr, hpar, hun⟩ := hinv.fresh j hj
    have hji : j ≠ i := by omega
    refine ⟨by simpa [Cache.refs_drop, update_of_ne hji] using hr, hpar, fun e he => ?_⟩
    rcases Cache.mem_unused_drop he with he | rfl
    · exact hun e he
    · exact Ne.symm hji

omit [DecidableEq N] in
/-- The release of a dentry clears its parent first. -/
theorem Inv.unparent (hinv : Inv s) (hr : i ∈ s.releasing) :
    Inv { s.updateParent i none with releasing := s.releasing.erase i } := by
  have hi0 := hinv.pending i hr
  refine ⟨hinv.cache, fun j hj => ?_, fun k j hj => ?_, fun j hj => ?_, fun r => ?_,
    fun j hj => hinv.pending j (List.mem_of_mem_erase hj), fun j hj => ?_⟩
  · -- a dentry held is not the one released
    have hji : j ≠ i := by
      rintro rfl
      have : 0 < s.cache.refs j := hj
      omega
    simp only [Sys.cacheKey, Sys.updateParent, update_of_ne hji]
    exact hinv.synced j hj
  · have hji : j ≠ i := by
      rintro rfl
      have := hinv.cache.used_held k _ hj
      omega
    simpa only [Sys.updateParent, update_of_ne hji] using hinv.used_parent k j hj
  · have hji : j ≠ i := by
      rintro rfl
      simp [Sys.updateParent] at hj
    simp only [Sys.updateParent, update_of_ne hji] at hj
    exact (hinv.parented j hj).imp_right (List.mem_erase_of_ne hji).2
  · exact (Nat.add_le_add_right (kids_unparent_le s i r) _).trans (hinv.handles_le r)
  · obtain ⟨hr', hpar, hun⟩ := hinv.fresh j hj
    refine ⟨hr', ?_, hun⟩
    simp only [Sys.updateParent, update_apply, hpar]
    split_ifs <;> rfl

omit [DecidableEq N] in
/-- Once the parent of a dentry is cleared, the parent has a handle more than its children and its
mount hold: the dentry's own. -/
theorem Inv.holds_unparent (hinv : Inv s) (hp : s.parent i = some p) :
    Holds { s.updateParent i none with releasing := s.releasing.erase i } p := by
  have hk := kids_updateParent (hinv.lt_counter_of_parent (i := i) (by simp [hp])) none p
  have hle := hinv.handles_le p
  simp only [hp, if_true, reduceCtorEq, if_false] at hk
  unfold Holds handles at *
  change kids (s.updateParent i none) p + _ < s.cache.refs p
  omega

theorem Inv.release (hinv : Inv s) (hr : i ∈ s.releasing) : Inv (release s i) := by
  cases hp : s.parent i with
  | none =>
    rw [release_of_none hp]
    exact hinv.unparent hr
  | some p =>
    rw [release_of_parent hp]
    exact (hinv.unparent hr).drop (hinv.holds_unparent hp)

omit [DecidableEq N] in
/-- A dentry of the unused tier whose release ran has no parent. -/
theorem Inv.parent_of_unused (hinv : Inv s) (hq : s.releasing = []) {e : (ℕ × N) × ℕ}
    (he : e ∈ Lru.entries s.cache.unused) : s.parent e.2 = none := by
  by_contra h
  rcases hinv.parented e.2 h with h | h
  · have := (hinv.cache.unused_idle e he).1
    omega
  · simp [hq] at h

/-- A lookup that takes a dentry out of the unused tier: the dentry, which has no parent, takes
the caller's clone of the directory's handle as its parent, which gives it its key back. -/
theorem Inv.adopt (hinv : Inv s) (hq : s.releasing = []) (hp : Holds s p) {name : N} {e : ℕ}
    (hk : s.cache.used (makeKey (some p) name) = none)
    (hpop : (Lru.pop s.cache.unused (makeKey (some p) name)).1 = some e) :
    Inv ({ s with cache := (Cache.get (s.cache.hold p) (makeKey (some p) name)).2 }.updateParent
      e (some p)) := by
  have hp0 := hp.refs_pos
  have hc := (hinv.cache.hold hp0).get (makeKey (some p) name)
  rw [Cache.get_of_unused (s := s.cache.hold p) hk hpop] at hc ⊢
  have hek := Lru.pop_eq_some_iff.1 hpop
  have hkey : s.cache.key e = makeKey (some p) name := hinv.cache.unused_key _ hek
  have he0 : s.cache.refs e = 0 := (hinv.cache.unused_idle _ hek).1
  have hpe : s.parent e = none := hinv.parent_of_unused hq hek
  have hlt : e < s.counter := hinv.lt_counter_of_unused hek
  have hep : e ≠ p := by
    rintro rfl
    omega
  -- the handles: the clone of the directory's, and the dentry's own
  have hrefs : ∀ j, j ≠ e → update (s.cache.hold p).refs e ((s.cache.hold p).refs e + 1) j =
      s.cache.refs j + if j = p then 1 else 0 := by
    intro j hje
    rw [update_of_ne hje]
    simp only [Cache.Sys.hold, update_apply]
    split_ifs with h <;> simp [h]
  refine ⟨hc, fun j hj => ?_, fun k j hj => ?_, fun j hj => ?_, fun r => ?_, fun j hj => ?_,
    fun j hj => ?_⟩
  · dsimp only [Sys.updateParent, Sys.cacheKey] at hj ⊢
    by_cases hje : j = e
    · subst hje
      rw [update_self]
      change s.cache.key j = makeKey (some p) (s.cache.key j).2
      rw [hkey]
      rfl
    · have hj' : 0 < s.cache.refs j := by
        rw [hrefs j hje] at hj
        split_ifs at hj with hjp
        · subst hjp
          exact hp0
        · omega
      rw [update_of_ne hje]
      exact hinv.synced j hj'
  · dsimp only [Sys.updateParent] at hj ⊢
    by_cases hk' : k = makeKey (some p) name
    · subst hk'
      simp only [update_self, Option.some_inj] at hj
      subst hj
      simp
    · simp only [update_of_ne hk'] at hj
      by_cases hje : j = e
      · subst hje
        simp
      · simpa [update_of_ne hje] using hinv.used_parent k j hj
  · dsimp only [Sys.updateParent] at hj ⊢
    left
    by_cases hje : j = e
    · subst hje
      simp
    · rw [update_of_ne hje] at hj
      rw [hrefs j hje]
      rcases hinv.parented j hj with h | h
      · omega
      · simp [hq] at h
  · have hk := kids_updateParent hlt (some p) r
    rw [hpe] at hk
    simp only [reduceCtorEq, if_false, Option.some_inj] at hk
    have hle := hinv.handles_le r
    unfold handles at hle ⊢
    change kids (s.updateParent e (some p)) r + _ ≤
      update (s.cache.hold p).refs e ((s.cache.hold p).refs e + 1) r
    by_cases hre : r = e
    · -- the dentry adopted had no handle, so no child
      subst hre
      rw [update_self]
      rw [he0] at hle
      split_ifs at hk hle ⊢ <;> omega
    · rw [hrefs r hre]
      split_ifs at hk hle ⊢ <;> omega
  · have hj' : j ∈ s.releasing := hj
    simp [hq] at hj'
  · change s.counter ≤ j at hj
    obtain ⟨hr, hpar, hun⟩ := hinv.fresh j hj
    have hje : j ≠ e := by omega
    have hjp : j ≠ p := by
      have := hinv.lt_counter hp0
      omega
    refine ⟨?_, ?_, fun x hx => hun x (Lru.mem_pop hx)⟩
    · change update (s.cache.hold p).refs e ((s.cache.hold p).refs e + 1) j = 0
      rw [hrefs j hje, if_neg hjp, hr]
    · simp only [Sys.updateParent, update_of_ne hje, hpar]

/-- A lookup keeps the invariant: the caller's clone of the directory's handle goes to the dentry
found without a parent, or is dropped, which is not the last handle. -/
theorem Inv.get (hinv : Inv s) (hq : s.releasing = []) (hp : Holds s p) (name : N) :
    Inv (get s p name).2 := by
  have hp0 := hp.refs_pos
  have ht := hinv.hold hp0
  cases hk : s.cache.used (makeKey (some p) name) with
  | some e =>
    by_cases hsc : 0 < (s.cache.hold p).strongCount e
    · -- a dentry in use, which has a parent
      have hget : Cache.get (s.cache.hold p) (makeKey (some p) name) =
          (some e, (s.cache.hold p).hold e) := by
        rw [Cache.get_of_used (s := s.cache.hold p) hk, if_pos hsc]
      rw [get_eq_of_some hget, if_neg (hinv.used_parent _ e hk)]
      have he0 : 0 < (s.cache.hold p).refs e := by
        have := hinv.cache.used_held _ e hk
        simp only [Cache.Sys.hold, update_apply]
        split_ifs <;> omega
      exact (ht.hold he0).drop
        (hp.clone (by simp [Cache.Sys.hold, update_apply]; split_ifs <;> omega))
    · have hget : Cache.get (s.cache.hold p) (makeKey (some p) name) = (none, s.cache.hold p) := by
        rw [Cache.get_of_used (s := s.cache.hold p) hk, if_neg hsc]
      rw [get_eq_of_none hget]
      exact ht.drop (hp.clone (by simp [Cache.Sys.hold]))
  | none =>
    cases hpop : (Lru.pop s.cache.unused (makeKey (some p) name)).1 with
    | some e =>
      have hget := Cache.get_of_unused (s := s.cache.hold p) hk hpop
      have hadopt := hinv.adopt hq hp hk hpop
      rw [hget] at hadopt
      rw [get_eq_of_some hget, if_pos (hinv.parent_of_unused hq (Lru.pop_eq_some_iff.1 hpop))]
      exact hadopt
    | none =>
      have hget := Cache.get_of_miss (s := s.cache.hold p) hk hpop
      have hc := (hinv.cache.hold hp0).get (makeKey (some p) name)
      rw [hget] at hc
      rw [get_eq_of_none hget]
      exact (ht.of_cache hc rfl (fun _ => le_rfl) (fun _ h => h) (fun _ _ h => h)
        fun _ h => Lru.mem_pop h).drop (hp.clone (by simp [Cache.Sys.hold]))

/-- After a lookup the caller still holds the directory, and no release is pending that was not. -/
theorem get_holds (hp : Holds s p) (name : N) :
    (get s p name).2.releasing = s.releasing ∧ Holds (get s p name).2 p := by
  have hle := Cache.refs_le_get (s.cache.hold p) (makeKey (some p) name) p
  have hhp := hp
  unfold Holds at hhp
  -- the clone dropped is not the last handle, and the directory keeps its children
  have hdrop : ∀ c : Cache.Sys (ℕ × N) ℕ C, s.cache.refs p + 1 ≤ c.refs p →
      (drop { s with cache := c } p).releasing = s.releasing ∧
        Holds (drop { s with cache := c } p) p := by
    intro c hc
    refine ⟨releasing_drop (show 1 < c.refs p by omega), ?_⟩
    unfold Holds
    rw [refs_drop, update_self]
    change handles s p < c.refs p - 1
    omega
  rcases hr : Cache.get (s.cache.hold p) (makeKey (some p) name) with ⟨_ | e, c⟩
  all_goals
    rw [hr] at hle
    simp only [Cache.Sys.hold, update_self] at hle
  · rw [get_eq_of_none hr]
    exact hdrop c hle
  · rw [get_eq_of_some hr]
    split_ifs
    · refine ⟨rfl, ?_⟩
      unfold Holds handles
      have := kids_updateParent_le { s with cache := c } e (some p) p
      unfold handles at hhp
      change kids (Sys.updateParent { s with cache := c } e (some p)) p + _ < c.refs p
      change _ ≤ kids s p + 1 at this
      omega
    · exact hdrop c hle

/-- `make_item` of the dentry of the next marker under the directory and name keeps the
invariant. -/
theorem Inv.make (hinv : Inv s) (hq : s.releasing = []) (hp : Holds s p) (name : N) :
    Inv (Sys.updateParent
      { s with
        cache := Cache.makeItem (s.cache.hold p) s.counter (makeKey (some p) name)
        counter := s.counter + 1 }
      s.counter (some p)) := by
  obtain ⟨hn0, hpn, hun⟩ := hinv.fresh s.counter le_rfl
  have hp0 := hp.refs_pos
  have hpc : p < s.counter := hinv.lt_counter hp0
  have hsc : (s.cache.hold p).strongCount s.counter = 0 := by
    have hnot : s.counter ∉ (Lru.entries s.cache.unused).map Prod.snd := by
      intro h
      obtain ⟨e, he, hes⟩ := List.mem_map.1 h
      exact hun e he hes
    simp only [Cache.Sys.strongCount, Cache.Sys.hold, update_of_ne hpc.ne', hn0, zero_add]
    exact List.count_eq_zero_of_not_mem hnot
  have hc := (hinv.cache.hold hp0).makeItem (k := makeKey (some p) name) hsc
  -- the handles: the new dentry's own, and its handle of the directory
  have hrefs : ∀ j, j ≠ s.counter →
      update (s.cache.hold p).refs s.counter 1 j = s.cache.refs j + if j = p then 1 else 0 := by
    intro j hjn
    rw [update_of_ne hjn]
    simp only [Cache.Sys.hold, update_apply]
    split_ifs with h <;> simp [h]
  refine ⟨hc, fun j hj => ?_, fun k j hj => ?_, fun j hj => ?_, fun r => ?_, fun j hj => ?_,
    fun j hj => ?_⟩
  · dsimp only [Cache.makeItem, Cache.insert, Sys.updateParent, Sys.cacheKey] at hj ⊢
    by_cases hjn : j = s.counter
    · subst hjn
      simp [makeKey]
    · have hj' : 0 < s.cache.refs j := by
        rw [hrefs j hjn] at hj
        split_ifs at hj with hjp
        · subst hjp
          exact hp0
        · omega
      rw [update_of_ne hjn, update_of_ne hjn]
      exact hinv.synced j hj'
  · dsimp only [Cache.makeItem, Cache.insert, Sys.updateParent] at hj ⊢
    by_cases hk' : k = makeKey (some p) name
    · subst hk'
      simp only [update_self, Option.some_inj] at hj
      subst hj
      simp
    · simp only [update_of_ne hk'] at hj
      have hjn : j ≠ s.counter := (hinv.lt_counter (hinv.cache.used_held k j hj)).ne
      simpa [update_of_ne hjn] using hinv.used_parent k j hj
  · dsimp only [Cache.makeItem, Cache.insert, Sys.updateParent] at hj ⊢
    left
    by_cases hjn : j = s.counter
    · subst hjn
      simp
    · rw [update_of_ne hjn] at hj
      rw [hrefs j hjn]
      rcases hinv.parented j hj with h | h
      · omega
      · simp [hq] at h
  · -- the directory has a child more, and a handle more
    have hk := kids_updateParent (s := { s with
      cache := Cache.makeItem (s.cache.hold p) s.counter (makeKey (some p) name)
      counter := s.counter + 1 }) (Nat.lt_succ_self _) (some p) r
    rw [kids_succ hpn] at hk
    simp only [hpn, reduceCtorEq, if_false, Option.some_inj] at hk
    have hle := hinv.handles_le r
    unfold handles at hle ⊢
    change _ + _ ≤ update (s.cache.hold p).refs s.counter 1 r
    by_cases hrn : r = s.counter
    · -- the new dentry has no child
      subst hrn
      rw [update_self]
      rw [hn0] at hle
      split_ifs at hk hle ⊢ <;> omega
    · rw [hrefs r hrn]
      split_ifs at hk hle ⊢ <;> omega
  · have hj' : j ∈ s.releasing := hj
    simp [hq] at hj'
  · change s.counter + 1 ≤ j at hj
    obtain ⟨hr, hpar, hun'⟩ := hinv.fresh j (by omega)
    have hjn : j ≠ s.counter := by omega
    have hjp : j ≠ p := by omega
    refine ⟨?_, ?_, hun'⟩
    · change update (s.cache.hold p).refs s.counter 1 j = 0
      rw [hrefs j hjn, if_neg hjp, hr]
    · simp only [Sys.updateParent, update_of_ne hjn, hpar]

theorem Inv.new (hinv : Inv s) (hq : s.releasing = []) (hp : Holds s p) (name : N) :
    Inv (new s p name).2 := by
  have hg := hinv.get hq hp name
  obtain ⟨hrel, hh⟩ := get_holds hp name
  rcases hr : Dirent.get s p name with ⟨_ | e, t⟩
  · rw [hr] at hg hrel hh
    simp only [Dirent.new, hr]
    exact hg.make (hrel.trans hq) hh name
  · rw [hr] at hg
    simpa only [Dirent.new, hr] using hg

theorem Inv.dropFromCache (hinv : Inv s) (i : ℕ) : Inv (dropFromCache s i) :=
  hinv.of_cache
    (hinv.cache.step (show Cache.step s.cache (.remove (s.cacheKey i)) = some _ from rfl))
    (Cache.key_remove _ _) (fun j => by rw [Cache.refs_remove])
    (fun j h => by rwa [Cache.refs_remove] at h) (fun _ _ h => Cache.used_remove h)
    fun _ h => Cache.mem_unused_remove h

theorem Inv.step (hinv : Inv s) {o : Op N} (hseq : Sequential s o) {t : Sys N C}
    (h : step s o = some t) : Inv t := by
  have hq : o.isRelease = false → s.releasing = [] := fun ho => hseq.resolve_left (by simp [ho])
  cases o with
  | get p name =>
    simp only [Dirent.step] at h
    split_ifs at h with hp
    cases h
    exact hinv.get (hq rfl) hp name
  | new p name =>
    simp only [Dirent.step] at h
    split_ifs at h with hp
    cases h
    exact hinv.new (hq rfl) hp name
  | clone i =>
    simp only [Dirent.step] at h
    split_ifs at h with hi
    cases h
    exact hinv.hold hi.refs_pos
  | drop i =>
    simp only [Dirent.step] at h
    split_ifs at h with hi
    cases h
    exact hinv.drop hi
  | release i =>
    simp only [Dirent.step] at h
    split_ifs at h with hi
    cases h
    exact hinv.release hi
  | dropFromCache i =>
    simp only [Dirent.step] at h
    split_ifs at h with hi
    cases h
    exact hinv.dropFromCache i

/-- The invariant holds in every run from `init` whose releases run before the next call. -/
theorem Inv.of_run {rootName : N} {cap : ℕ} {hcap : 0 < cap} {sched : List (Op N)} {s : Sys N C}
    (h : run Dirent.step (Dirent.init rootName cap hcap) sched = some s)
    (hseq : Guarded Dirent.step Sequential (Dirent.init rootName cap hcap : Sys N C) sched) :
    Inv s :=
  run_inv (fun _ _ _ (hc : Inv _) ho hs => hc.step ho hs) sched _ _ (Inv.init rootName cap hcap)
    hseq h

/-- A drop of one of several handles only takes the handle. -/
theorem Inv.drop_of_held (hinv : Inv s) (hi : 1 < s.cache.refs i) :
    Dirent.drop s i =
      { s with cache := { s.cache with refs := update s.cache.refs i (s.cache.refs i - 1) } } := by
  have hi0 : 0 < s.cache.refs i := by omega
  have hsc := hinv.cache.strongCount_eq hi0
  rw [drop_eq (hinv.synced i hi0), Cache.drop_of_held (by rw [hsc]; exact hi), hsc,
    if_neg (Nat.ne_of_gt hi)]

/-- The last handle of a dentry whose `cache_key()` has an entry: the entry leaves `used`, the
dentry goes to the unused tier under the key, and its release is pending. -/
theorem Inv.drop_of_moved (hinv : Inv s) (hi : s.cache.refs i = 1) {j : ℕ}
    (hj : s.cache.used (s.cacheKey i) = some j) :
    Dirent.drop s i = { s with
      cache := { s.cache with
        used := update s.cache.used (s.cacheKey i) none
        unused := Lru.put s.cache.unused (s.cacheKey i) i
        isUsed := update s.cache.isUsed i false
        refs := update s.cache.refs i 0 }
      releasing := i :: s.releasing } := by
  have hi0 : 0 < s.cache.refs i := by omega
  have hsync := hinv.synced i hi0
  have hsc : s.cache.strongCount i = 1 := by rw [hinv.cache.strongCount_eq hi0, hi]
  rw [drop_eq hsync, Cache.drop_of_moved hsc (hinv.cache.held_used i hi0) (hsync ▸ hj), hsc,
    if_pos rfl, hi, hsync]

/-! ## Lookups -/

/-- A lookup of a key that `used` gives to a dentry in use returns the dentry. -/
theorem get_fst_of_used {name : N} {x : ℕ} (hk : s.cache.used (makeKey (some p) name) = some x)
    (hx : 0 < s.cache.refs x) : (Dirent.get s p name).1 = some x := by
  have hsc : 0 < (s.cache.hold p).strongCount x := by
    simp only [Cache.Sys.strongCount, Cache.Sys.hold, update_apply]
    split_ifs <;> omega
  exact get_fst_of_some (by rw [Cache.get_of_used (s := s.cache.hold p) hk, if_pos hsc])

/-- A lookup that finds nothing changes no handle and no key: the clone of the directory's handle
is dropped again. -/
theorem Inv.get_none (hinv : Inv s) (hp : Holds s p) {name : N}
    (h : (Dirent.get s p name).1 = none) :
    (Dirent.get s p name).2.cache.refs = s.cache.refs ∧
      (Dirent.get s p name).2.cache.key = s.cache.key := by
  have ht := hinv.hold hp.refs_pos
  have hback : ∀ {c : Cache.Sys (ℕ × N) ℕ C}, Inv { s with cache := c } →
      c.refs = (s.cache.hold p).refs → c.key = s.cache.key →
      (Dirent.drop { s with cache := c } p).cache.refs = s.cache.refs ∧
        (Dirent.drop { s with cache := c } p).cache.key = s.cache.key := by
    intro c hc hr hkey
    have h1 : 1 < c.refs p := by
      rw [hr]
      simpa [Cache.Sys.hold] using hp.refs_pos
    rw [hc.drop_of_held h1]
    refine ⟨?_, hkey⟩
    change update c.refs p (c.refs p - 1) = s.cache.refs
    rw [hr]
    simp [Cache.Sys.hold]
  cases hk : s.cache.used (makeKey (some p) name) with
  | some e =>
    by_cases hsc : 0 < (s.cache.hold p).strongCount e
    · rw [get_fst_of_some (by rw [Cache.get_of_used (s := s.cache.hold p) hk, if_pos hsc])] at h
      cases h
    · rw [get_eq_of_none (by rw [Cache.get_of_used (s := s.cache.hold p) hk, if_neg hsc])]
      exact hback ht rfl rfl
  | none =>
    cases hpop : (Lru.pop s.cache.unused (makeKey (some p) name)).1 with
    | some e =>
      rw [get_fst_of_some (Cache.get_of_unused (s := s.cache.hold p) hk hpop)] at h
      cases h
    | none =>
      have hget := Cache.get_of_miss (s := s.cache.hold p) hk hpop
      have hc := (hinv.cache.hold hp.refs_pos).get (makeKey (some p) name)
      rw [hget] at hc
      rw [get_eq_of_none hget]
      exact hback (ht.of_cache hc rfl (fun _ => le_rfl) (fun _ h => h) (fun _ _ h => h)
        fun _ h => Lru.mem_pop h) rfl rfl

/-- Every dentry in use other than the root is in `used` under its key, and the root has no
parent: what the runs without `drop_from_cache` keep. -/
structure Cached (s : Sys N C) : Prop where
  held : ∀ x, 0 < s.cache.refs x → x ≠ 0 → s.cache.used (s.cache.key x) = some x
  root : s.parent 0 = none

omit [DecidableEq N] in
theorem Cached.init (rootName : N) (cap : ℕ) (hcap : 0 < cap) :
    Cached (Dirent.init rootName cap hcap : Sys N C) where
  held x hx hx0 := by simp [Dirent.init, hx0] at hx
  root := rfl

omit [DecidableEq N] [Lru C (ℕ × N) ℕ] in
theorem Cached.hold (hc : Cached s) (hi : 0 < s.cache.refs i) :
    Cached { s with cache := s.cache.hold i } where
  held x hx hx0 := by
    refine hc.held x ?_ hx0
    by_cases hxi : x = i
    · subst hxi
      exact hi
    · simpa [Cache.Sys.hold, update_of_ne hxi] using hx
  root := hc.root

/-- A drop keeps the dentries in use in `used`: at the last handle, the entry that goes is the
dentry's own. -/
theorem Cached.drop (hc : Cached s) (hinv : Inv s) (hh : Holds s i) :
    Cached (Dirent.drop s i) := by
  have hi := hh.refs_pos
  by_cases h1 : 1 < s.cache.refs i
  · rw [hinv.drop_of_held h1]
    refine ⟨fun x hx hx0 => hc.held x ?_ hx0, hc.root⟩
    by_cases hxi : x = i
    · subst hxi
      exact hi
    · simpa [update_of_ne hxi] using hx
  · have hi1 : s.cache.refs i = 1 := by omega
    -- the mount's handle of the root never goes
    have hi0 : i ≠ 0 := by
      rintro rfl
      unfold Holds handles at hh
      simp only [if_true] at hh
      omega
    have hown := hc.held i hi hi0
    rw [hinv.synced i hi] at hown
    rw [hinv.drop_of_moved hi1 hown]
    refine ⟨fun x hx hx0 => ?_, hc.root⟩
    have hxi : x ≠ i := by
      rintro rfl
      simp at hx
    dsimp only at hx ⊢
    rw [update_of_ne hxi] at hx
    have hx' := hc.held x hx hx0
    have hkx : s.cache.key x ≠ s.cacheKey i := by
      intro hk
      rw [hk, hown] at hx'
      exact hxi (Option.some_inj.1 hx').symm
    rw [update_of_ne hkx]
    exact hx'

theorem Cached.release (hc : Cached s) (hinv : Inv s) (hr : i ∈ s.releasing) :
    Cached (Dirent.release s i) := by
  have hcu : Cached { s.updateParent i none with releasing := s.releasing.erase i } := by
    refine ⟨hc.held, ?_⟩
    simp only [Sys.updateParent, update_apply, hc.root]
    split_ifs <;> rfl
  cases hp : s.parent i with
  | none =>
    rw [release_of_none hp]
    exact hcu
  | some p =>
    rw [release_of_parent hp]
    exact hcu.drop (hinv.unparent hr) (hinv.holds_unparent hp)

/-- The dentry a lookup takes out of the unused tier goes to `used` under its key, where no
dentry in use was. -/
theorem Cached.adopt (hc : Cached s) (hinv : Inv s) (hp : Holds s p) {name : N} {e : ℕ}
    (hk : s.cache.used (makeKey (some p) name) = none)
    (hpop : (Lru.pop s.cache.unused (makeKey (some p) name)).1 = some e) :
    Cached ({ s with cache := (Cache.get (s.cache.hold p) (makeKey (some p) name)).2 }.updateParent
      e (some p)) := by
  rw [Cache.get_of_unused (s := s.cache.hold p) hk hpop]
  have hek := Lru.pop_eq_some_iff.1 hpop
  have hkey : s.cache.key e = makeKey (some p) name := hinv.cache.unused_key _ hek
  have he0 : s.cache.refs e = 0 := (hinv.cache.unused_idle _ hek).1
  -- the root, held by its mount, is not in the unused tier
  have he00 : e ≠ 0 := by
    rintro rfl
    have := hinv.handles_le 0
    unfold handles at this
    simp only [if_true] at this
    omega
  refine ⟨fun x hx hx0 => ?_, ?_⟩
  · dsimp only [Sys.updateParent] at hx ⊢
    by_cases hxe : x = e
    · subst hxe
      change update s.cache.used (makeKey (some p) name) (some x) (s.cache.key x) = some x
      rw [hkey, update_self]
    · have hx' : 0 < s.cache.refs x := by
        rw [update_of_ne hxe] at hx
        simp only [Cache.Sys.hold, update_apply] at hx
        split_ifs at hx with hxp
        · subst hxp
          exact hp.refs_pos
        · exact hx
      have hu := hc.held x hx' hx0
      have hkx : s.cache.key x ≠ makeKey (some p) name := by
        intro h
        rw [h, hk] at hu
        cases hu
      change update s.cache.used (makeKey (some p) name) (some e) (s.cache.key x) = some x
      rw [update_of_ne hkx]
      exact hu
  · simp only [Sys.updateParent, update_of_ne he00.symm]
    exact hc.root

theorem Cached.get (hc : Cached s) (hinv : Inv s) (hq : s.releasing = []) (hp : Holds s p)
    (name : N) : Cached (Dirent.get s p name).2 := by
  have hp0 := hp.refs_pos
  have ht := hinv.hold hp0
  have hct := hc.hold hp0
  cases hk : s.cache.used (makeKey (some p) name) with
  | some e =>
    by_cases hsc : 0 < (s.cache.hold p).strongCount e
    · rw [get_eq_of_some (by rw [Cache.get_of_used (s := s.cache.hold p) hk, if_pos hsc]),
        if_neg (hinv.used_parent _ e hk)]
      have he0 : 0 < (s.cache.hold p).refs e := by
        have := hinv.cache.used_held _ e hk
        simp only [Cache.Sys.hold, update_apply]
        split_ifs <;> omega
      exact (hct.hold he0).drop (ht.hold he0)
        (hp.clone (by simp [Cache.Sys.hold, update_apply]; split_ifs <;> omega))
    · rw [get_eq_of_none (by rw [Cache.get_of_used (s := s.cache.hold p) hk, if_neg hsc])]
      exact hct.drop ht (hp.clone (by simp [Cache.Sys.hold]))
  | none =>
    cases hpop : (Lru.pop s.cache.unused (makeKey (some p) name)).1 with
    | some e =>
      have hget := Cache.get_of_unused (s := s.cache.hold p) hk hpop
      have hadopt := hc.adopt hinv hp hk hpop
      rw [hget] at hadopt
      rw [get_eq_of_some hget, if_pos (hinv.parent_of_unused hq (Lru.pop_eq_some_iff.1 hpop))]
      exact hadopt
    | none =>
      have hget := Cache.get_of_miss (s := s.cache.hold p) hk hpop
      have hci := (hinv.cache.hold hp0).get (makeKey (some p) name)
      rw [hget] at hci
      rw [get_eq_of_none hget]
      have hti := ht.of_cache hci rfl (fun _ => le_rfl) (fun _ h => h) (fun _ _ h => h)
        fun _ h => Lru.mem_pop h
      exact Cached.drop ⟨hct.held, hct.root⟩ hti (hp.clone (by simp [Cache.Sys.hold]))

/-- `make_item` of a dentry under a key no dentry in use has. -/
theorem Cached.make (hc : Cached s) (hinv : Inv s) (hp : Holds s p) {name : N}
    (hk : ∀ x, 0 < s.cache.refs x → x ≠ 0 → s.cache.key x ≠ makeKey (some p) name) :
    Cached (Sys.updateParent
      { s with
        cache := Cache.makeItem (s.cache.hold p) s.counter (makeKey (some p) name)
        counter := s.counter + 1 }
      s.counter (some p)) := by
  obtain ⟨hn0, -, -⟩ := hinv.fresh s.counter le_rfl
  -- the root is held, so the next marker is not its
  have hn : s.counter ≠ 0 := by
    intro h0
    have := hinv.handles_le 0
    unfold handles at this
    rw [← h0, hn0] at this
    simp at this
  refine ⟨fun x hx hx0 => ?_, ?_⟩
  · dsimp only [Cache.makeItem, Cache.insert, Sys.updateParent] at hx ⊢
    by_cases hxn : x = s.counter
    · subst hxn
      simp
    · rw [update_of_ne hxn] at hx
      have hx' : 0 < s.cache.refs x := by
        simp only [Cache.Sys.hold, update_apply] at hx
        split_ifs at hx with hxp
        · subst hxp
          exact hp.refs_pos
        · exact hx
      rw [update_of_ne hxn]
      change update s.cache.used (makeKey (some p) name) (some s.counter) (s.cache.key x) = some x
      rw [update_of_ne (hk x hx' hx0)]
      exact hc.held x hx' hx0
  · simp only [Sys.updateParent, update_of_ne hn.symm]
    exact hc.root

theorem Cached.new (hc : Cached s) (hinv : Inv s) (hq : s.releasing = []) (hp : Holds s p)
    (name : N) : Cached (Dirent.new s p name).2 := by
  have hg := hinv.get hq hp name
  have hcg := hc.get hinv hq hp name
  obtain ⟨hrel, hh⟩ := get_holds hp name
  rcases hr : Dirent.get s p name with ⟨_ | e, t⟩
  · -- the lookup found no dentry in use under the key, so none is
    have hnone : (Dirent.get s p name).1 = none := by rw [hr]
    obtain ⟨hrefs, hkeys⟩ := hinv.get_none hp hnone
    rw [hr] at hrefs hkeys hg hcg hh
    have hk : ∀ x, 0 < t.cache.refs x → x ≠ 0 → t.cache.key x ≠ makeKey (some p) name := by
      intro x hx hx0 hkx
      rw [hrefs] at hx
      rw [hkeys] at hkx
      have := get_fst_of_used (hkx ▸ hc.held x hx hx0) hx
      rw [hnone] at this
      cases this
    simp only [Dirent.new, hr]
    exact hcg.make hg hh hk
  · rw [hr] at hcg
    simpa only [Dirent.new, hr] using hcg

theorem Cached.step (hc : Cached s) (hinv : Inv s) {o : Op N} (hseq : Sequential s o)
    (hrm : o.isRemove = false) {t : Sys N C} (h : step s o = some t) : Cached t := by
  have hq : o.isRelease = false → s.releasing = [] := fun ho => hseq.resolve_left (by simp [ho])
  cases o with
  | get p name =>
    simp only [Dirent.step] at h
    split_ifs at h with hp
    cases h
    exact hc.get hinv (hq rfl) hp name
  | new p name =>
    simp only [Dirent.step] at h
    split_ifs at h with hp
    cases h
    exact hc.new hinv (hq rfl) hp name
  | clone i =>
    simp only [Dirent.step] at h
    split_ifs at h with hi
    cases h
    exact hc.hold hi.refs_pos
  | drop i =>
    simp only [Dirent.step] at h
    split_ifs at h with hi
    cases h
    exact hc.drop hinv hi
  | release i =>
    simp only [Dirent.step] at h
    split_ifs at h with hi
    cases h
    exact hc.release hinv hi
  | dropFromCache i => cases hrm

/-- The invariant and `Cached` hold in every run from `init` whose releases run before the next
call and that makes no `drop_from_cache`. -/
theorem Cached.of_run {rootName : N} {cap : ℕ} {hcap : 0 < cap} {sched : List (Op N)}
    {s : Sys N C} (h : run Dirent.step (Dirent.init rootName cap hcap) sched = some s)
    (hseq : Guarded Dirent.step (fun t o => Sequential t o ∧ o.isRemove = false)
      (Dirent.init rootName cap hcap : Sys N C) sched) : Inv s ∧ Cached s :=
  run_inv (fun _ _ _ (hc : Inv _ ∧ Cached _) ho hs =>
      ⟨hc.1.step ho.1 hs, hc.2.step hc.1 ho.1 ho.2 hs⟩) sched _ _
    ⟨Inv.init rootName cap hcap, Cached.init rootName cap hcap⟩ hseq h

/-- In every run from `init` whose releases run before the next call and that makes no
`drop_from_cache`, the lookup of the name of a dentry in use in its parent returns the dentry. -/
theorem lookup_finds_child (rootName : N) (cap : ℕ) (hcap : 0 < cap) (sched : List (Op N))
    {s : Sys N C} (h : run step (init rootName cap hcap) sched = some s)
    (hseq : Guarded step (fun t o => Sequential t o ∧ o.isRemove = false)
      (init rootName cap hcap : Sys N C) sched)
    {p x : ℕ} (hx : 0 < s.cache.refs x) (hpx : s.parent x = some p) :
    (get s p (s.cache.key x).2).1 = some x := by
  obtain ⟨hinv, hc⟩ := Cached.of_run h hseq
  have hx0 : x ≠ 0 := by
    rintro rfl
    rw [hc.root] at hpx
    cases hpx
  -- the key the dentry is cached under is that of its parent and its name
  have hkey : makeKey (some p) (s.cache.key x).2 = s.cache.key x := by
    have := hinv.synced x hx
    simp only [Sys.cacheKey, hpx] at this
    exact this.symm
  exact get_fst_of_used (hkey ▸ hc.held x hx hx0) hx

/-- A directory made in the root, a file made in it and released: the lookup of the directory's
name in the root returns it. -/
theorem lookup_finds_child_directory :
    ∃ s : Sys ℕ (LruCache (ℕ × ℕ) ℕ),
      run step (init 0 2 (by decide)) [.new 0 5, .new 1 6, .drop 2, .release 2] = some s ∧
      (get s 0 (s.cache.key 1).2).1 = some 1 :=
  ⟨_, rfl, lookup_finds_child 0 2 (by decide) [.new 0 5, .new 1 6, .drop 2, .release 2] rfl
    (by decide) (by decide) rfl⟩

/-! ## An unlinked dentry returned -/

/-- In every run from `init` whose releases run before the next call: when the last handle of a
dentry goes while `used` names another dentry at its key (its own entry was removed by
`drop_from_cache`, and the other made since), the dentry goes to the unused tier under the key and
the other loses its entry though it is still held; once the release has dropped the handle of the
directory, the lookup of the name in the directory returns the old dentry. After `unlink` of a
file and the creation of another of the same name, the last `close` of the unlinked file makes the
lookup of the name return its dentry. -/
theorem unlinked_dentry_returned (rootName : N) (cap : ℕ) (hcap : 0 < cap)
    (sched : List (Op N)) {s t : Sys N C} (h : run step (init rootName cap hcap) sched = some s)
    (hseq : Guarded step Sequential (init rootName cap hcap : Sys N C) sched)
    (hq : s.releasing = []) {a b p : ℕ} (ha : s.cache.refs a = 1) (hpa : s.parent a = some p)
    (hp : Holds s p) (hb : s.cache.used (s.cacheKey a) = some b) (hab : a ≠ b)
    (hd : step s (.drop a) = some t) :
    ∃ u, step t (.release a) = some u ∧ u.releasing = [] ∧ Holds u p ∧
      u.cache.used (s.cacheKey a) = none ∧ 0 < u.cache.refs b ∧
      (get u p (s.cache.key a).2).1 = some a := by
  have hinv := Inv.of_run h hseq
  have haa : Holds s a := by
    by_contra hn
    simp [step, hn] at hd
  simp only [step, if_pos haa, Option.some_inj] at hd
  subst hd
  have hinv₁ := hinv.drop haa
  have ht := hinv.drop_of_moved ha hb
  have hmem : a ∈ (Dirent.drop s a).releasing := by
    rw [ht]
    exact List.mem_cons_self
  -- the release clears the parent and drops the handle of the directory, not its last
  have hpa' : a ≠ p := by
    rintro rfl
    have hk := kids_updateParent (hinv.lt_counter (i := a) (by omega)) none a
    simp only [hpa, if_true, reduceCtorEq, if_false] at hk
    unfold Holds handles at haa
    omega
  have hkids := kids_updateParent (hinv.lt_counter (i := a) (by omega)) none p
  simp only [hpa, if_true, reduceCtorEq, if_false] at hkids
  have hp2 : 1 < s.cache.refs p := by
    unfold Holds handles at hp
    omega
  have hinvu := hinv₁.unparent hmem
  have hrefs : 1 < (Dirent.drop s a).cache.refs p := by
    rw [ht]
    change 1 < update s.cache.refs a 0 p
    rw [update_of_ne (Ne.symm hpa')]
    exact hp2
  refine ⟨_, by rw [step, if_pos hmem], ?_⟩
  rw [release_of_parent (s := Dirent.drop s a) hpa, hinvu.drop_of_held hrefs]
  rw [ht]
  refine ⟨by simp [hq], ?_, ?_, ?_, ?_⟩
  · unfold Holds handles at hp ⊢
    dsimp only [Sys.updateParent]
    rw [update_self, update_of_ne (Ne.symm hpa')]
    change kids (s.updateParent a none) p + _ < _
    omega
  · simp [Sys.updateParent]
  · -- the other dentry keeps its handles, one fewer if it is the directory
    have hb0 := hinv.cache.used_held _ b hb
    dsimp only [Sys.updateParent]
    simp only [update_apply, if_neg (Ne.symm hab)]
    split_ifs <;> omega
  · -- the lookup finds no entry in `used` and takes the old dentry out of the unused tier
    have hkey : makeKey (some p) (s.cache.key a).2 = s.cacheKey a := by
      rw [Sys.cacheKey, hpa]
    refine get_fst_of_some (Cache.get_of_unused (i := a) ?_ ?_)
    · simp [Cache.Sys.hold, Sys.updateParent, hkey]
    · simpa [Cache.Sys.hold, Sys.updateParent, hkey] using Lru.pop_put

/-- A file made in the root and held open, unlinked, and made again; then the open file closed. -/
theorem unlinked_dentry_returned_reopened :
    ∃ s t : Sys ℕ (LruCache (ℕ × ℕ) ℕ),
      run step (init 0 2 (by decide)) [.new 0 5, .dropFromCache 1, .new 0 5] = some s ∧
      step s (.drop 1) = some t ∧
      ∃ u, step t (.release 1) = some u ∧ u.releasing = [] ∧ Holds u 0 ∧
        u.cache.used (s.cacheKey 1) = none ∧ 0 < u.cache.refs 2 ∧
        (get u 0 (s.cache.key 1).2).1 = some 1 :=
  ⟨_, _, rfl, rfl, unlinked_dentry_returned 0 2 (by decide) [.new 0 5, .dropFromCache 1, .new 0 5]
    rfl (by decide) rfl rfl rfl (by decide) rfl (by decide) rfl⟩

/-! ## A lookup before `notify_unused` -/

/-- The race of a lookup with the hook of a last drop, on the root `0`: the directory `1` of the
root and its child `2`, both named by their markers, and the root's child `3` of the child's name.
The last handle of `2` goes, and before its `notify_unused` runs a lookup in `1` takes `2` back,
still with its parent; the hook then clears the parent of `2`, in use, whose `cache_key()` is now
the key of the root's child `3`. The next drop of `2` takes the entry of `3` out of `used` and
files `2` under it, so that with `3` still the root's child in use, the lookup of its name in the
root returns `2`, the dentry of `1`'s child. -/
theorem lookup_race_aliases :
    ∃ s : Sys ℕ (LruCache (ℕ × ℕ) ℕ),
      run step (init 0 4 (by decide))
        [.new 0 1, .new 1 2, .new 0 2, .drop 2, .get 1 2, .release 2, .drop 2, .release 2] =
        some s ∧
      s.releasing = [] ∧ Holds s 0 ∧ 0 < s.cache.refs 3 ∧ s.parent 3 = some 0 ∧
      (s.cache.key 3).2 = 2 ∧ (get s 0 2).1 = some 2 :=
  ⟨_, rfl, rfl, by decide, by decide, rfl, rfl, rfl⟩

end Cykusz.Fs.Dirent
