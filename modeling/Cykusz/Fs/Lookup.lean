import Mathlib
import Cykusz.Fs.Vfs

/-!
# Path lookup

`lookup_by_path_from` walks a path's components from a directory entry. `..` climbs to the first
parent whose filesystem is alive; a name is looked up in the current directory, and a symbolic
link found there is read and looked up in turn, one level deeper, from the root if its target is
absolute and from the directory that holds the link otherwise. After each component a mount point
is replaced by the root mounted on it last. The recursion gives up past depth 40.

The depth bounds how deeply links nest, not how many are followed: each level may name several
links, and each of those expands its own. In a tower of directories whose link at each level names
the link of the level below twice, looking up the top link follows `2 ^ (k + 1) - 1` links for a
tower of height `k` (`lookup_follows_exponentially`), where a bound of 40 links in all would stop.

The walk returns, with its outcome, the number of links it followed: the source keeps no such
count, and it is there to state the bound. The filesystem is given by the answers it gives a
lookup. Link targets are given split at `/` (`Path`), node types and targets are read without I/O
errors, and the `Create` mode is not modelled.
-/

namespace Cykusz.Fs

/-- A path split at `/`, and whether it starts with one. -/
structure Path where
  absolute : Bool
  parts : List String
deriving DecidableEq, Repr

/-- `Path::components`: the parts without the empty ones and `.`. -/
def Path.components (p : Path) : List String := p.parts.filter fun e => e ≠ "" ∧ e ≠ "."

/-- An entry's file type, with a link's target as `read_link` reads it. -/
inductive Node
  | dir
  | file
  | symlink (target : Path)
deriving DecidableEq, Repr

/-- The entries a lookup sees. `lookup` is `dirent::get` through the cache, else the inode's
`lookup`; `valid` is `is_valid`, the entry's filesystem being alive; `mountRoot` is the root of
the mount that `find_mount` gives for a mount point. Parents lead up the tree: `height` decreases
along them. -/
structure DirTree where
  node : ℕ → Node
  lookup : ℕ → String → Except FsError ℕ
  parent : ℕ → Option ℕ
  valid : ℕ → Bool
  isMountpoint : ℕ → Bool
  mountRoot : ℕ → Option ℕ
  root : ℕ
  height : ℕ → ℕ
  parent_height : ∀ e p, parent e = some p → height p < height e

/-- How a lookup ends. -/
inductive Outcome
  | found (entry : ℕ)
  | failed (e : FsError)
  /-- the `..` loop never ends -/
  | spins
  /-- `panic!("No mountpoint?")` -/
  | panics
deriving DecidableEq, Repr

namespace DirTree

/-- The `..` loop: up to the parent until an entry whose filesystem is alive; at a root that is not
alive it never ends. -/
def climb (tree : DirTree) (cur : ℕ) : Outcome :=
  match _h : tree.parent cur with
  | some p => if tree.valid p then .found p else tree.climb p
  | none => if tree.valid cur then .found cur else .spins
termination_by tree.height cur
decreasing_by exact tree.parent_height cur p _h

/-- The check after a component: a mount point is replaced by the root mounted on it last. -/
def crossMount (tree : DirTree) (cur : ℕ) : Outcome :=
  if tree.isMountpoint cur then
    match tree.mountRoot cur with
    | some r => .found r
    | none => .panics
  else .found cur

mutual

/-- `lookup_by_path_from` of the components `path`, from `cur`, at nesting `depth`. -/
def lookupByPathFrom (tree : DirTree) (path : List String) (cur : ℕ) (getSymlinkEntry : Bool)
    (depth : ℕ) : Outcome × ℕ :=
  if h : depth > 40 then (.failed .entryNotFound, 0)
  else tree.walk path.length getSymlinkEntry depth (by omega) 0 path cur 0
termination_by (41 - depth, path.length + 1)

/-- The loop over the components, the `idx`-th first, of a path of `len` components; `n` links
followed so far. -/
def walk (tree : DirTree) (len : ℕ) (getSymlinkEntry : Bool) (depth : ℕ) (hd : depth ≤ 40)
    (idx : ℕ) : List String → ℕ → ℕ → Outcome × ℕ
  | [], cur, n => (.found cur, n)
  | name :: rest, cur, n =>
    match tree.component len getSymlinkEntry depth hd idx name cur n with
    | (.found c, n) =>
      match tree.crossMount c with
      | .found c => tree.walk len getSymlinkEntry depth hd (idx + 1) rest c n
      | o => (o, n)
    | r => r
termination_by l => (41 - depth, l.length)

/-- One component: `.`, `..`, or a name, whose link is followed unless it is the last component
of a top-level lookup that asks for the link itself. -/
def component (tree : DirTree) (len : ℕ) (getSymlinkEntry : Bool) (depth : ℕ) (_hd : depth ≤ 40)
    (idx : ℕ) (name : String) (cur n : ℕ) : Outcome × ℕ :=
  if name = "." then (.found cur, n)
  else if name = ".." then (tree.climb cur, n)
  else
    match tree.lookup cur name with
    | .error e => (.failed e, n)
    | .ok res =>
      match tree.node res with
      | .symlink target =>
        if depth > 0 ∨ getSymlinkEntry = false ∨ idx < len - 1 then
          let start := if target.absolute then tree.root else cur
          let (o, m) := tree.lookupByPathFrom target.components start getSymlinkEntry (depth + 1)
          (o, n + 1 + m)
        else (.found res, n)
      | _ => (.found res, n)
termination_by (41 - depth, 0)

end

section Walk

variable {tree : DirTree} {len : ℕ} {gse : Bool} {depth : ℕ} {hd : depth ≤ 40} {idx : ℕ}

theorem lookupByPathFrom_of_le (path : List String) (cur : ℕ) (h : depth ≤ 40) :
    tree.lookupByPathFrom path cur gse depth = tree.walk path.length gse depth h 0 path cur 0 := by
  rw [lookupByPathFrom, dif_neg (by omega)]

theorem walk_nil (cur n : ℕ) : tree.walk len gse depth hd idx [] cur n = (.found cur, n) := by
  rw [walk]

/-- A component that ends at an entry that is no mount point hands it on to the next one. -/
theorem walk_cons_of_found {name : String} {rest : List String} {cur n c m : ℕ}
    (hc : tree.component len gse depth hd idx name cur n = (.found c, m))
    (hm : tree.isMountpoint c = false) :
    tree.walk len gse depth hd idx (name :: rest) cur n =
      tree.walk len gse depth hd (idx + 1) rest c m := by
  rw [walk, hc]
  simp [crossMount, hm]

theorem component_dotdot (cur n : ℕ) :
    tree.component len gse depth hd idx ".." cur n = (tree.climb cur, n) := by
  rw [component]
  simp

theorem component_of_dir {name : String} {cur res n : ℕ} (hdot : name ≠ ".") (hdd : name ≠ "..")
    (hl : tree.lookup cur name = .ok res) (hn : tree.node res = .dir) :
    tree.component len gse depth hd idx name cur n = (.found res, n) := by
  rw [component]
  simp [hdot, hdd, hl, hn]

theorem component_of_link {name : String} {cur res n : ℕ} {target : Path} (hdot : name ≠ ".")
    (hdd : name ≠ "..") (hl : tree.lookup cur name = .ok res) (hn : tree.node res = .symlink target)
    (hfollow : depth > 0 ∨ gse = false ∨ idx < len - 1) :
    tree.component len gse depth hd idx name cur n =
      let r := tree.lookupByPathFrom target.components
        (if target.absolute then tree.root else cur) gse (depth + 1)
      (r.1, n + 1 + r.2) := by
  rw [component]
  simp [hdot, hdd, hl, hn, hfollow]

theorem climb_of_valid {cur p : ℕ} (hp : tree.parent cur = some p) (hv : tree.valid p = true) :
    tree.climb cur = .found p := by
  rw [climb]
  split
  · next q hq =>
    rw [hp, Option.some.injEq] at hq
    subst hq
    simp [hv]
  · next hq => simp [hp] at hq

end Walk

/-! ## A tower of links -/

/-- The target of the link at level `j` of `tower`: `.` at level 0, and above it `s/x/../s/x/..`,
the link of the level below twice. -/
def towerLink (j : ℕ) : Path :=
  if j = 0 then ⟨false, ["."]⟩ else ⟨false, ["s", "x", "..", "s", "x", ".."]⟩

/-- A tower of directories `0, 2, …, 2 * k`: level `j` at `2 * j` holds its link `x` at
`2 * j + 1` and, from level 1 up, the level below as `s`. -/
def tower (k : ℕ) : DirTree where
  node e := if e % 2 = 0 then .dir else .symlink (towerLink (e / 2))
  lookup e name :=
    if e % 2 = 0 ∧ e ≤ 2 * k then
      if name = "x" then .ok (e + 1)
      else if name = "s" ∧ 2 ≤ e then .ok (e - 2)
      else .error .entryNotFound
    else .error .notDir
  parent e := if e % 2 = 1 then some (e - 1) else if e < 2 * k then some (e + 2) else none
  valid _ := true
  isMountpoint _ := false
  mountRoot _ := none
  root := 2 * k
  height e := 2 * (k + 1 - e / 2) + e % 2
  parent_height e p h := by
    split_ifs at h with h₁ h₂ <;> simp only [Option.some.injEq] at h <;> omega

variable {k j : ℕ}

theorem towerLink_absolute (j : ℕ) : (towerLink j).absolute = false := by
  unfold towerLink
  split <;> rfl

theorem tower_lookup_x (h : j ≤ k) : (tower k).lookup (2 * j) "x" = .ok (2 * j + 1) := by
  simp [tower, h]

theorem tower_lookup_s (h : j < k) : (tower k).lookup (2 * (j + 1)) "s" = .ok (2 * j) := by
  simp only [tower]
  rw [if_pos (by omega), if_neg (by decide), if_pos ⟨trivial, by omega⟩]
  congr 1

theorem tower_node_dir (j : ℕ) : (tower k).node (2 * j) = .dir := by
  simp [tower]

theorem tower_node_link (j : ℕ) : (tower k).node (2 * j + 1) = .symlink (towerLink j) := by
  simp only [tower]
  rw [if_neg (by omega), show (2 * j + 1) / 2 = j by omega]

theorem tower_parent (h : j < k) : (tower k).parent (2 * j) = some (2 * (j + 1)) := by
  simp only [tower]
  rw [if_neg (by omega), if_pos (by omega)]
  congr 1

/-- `s/x/..` from level `j + 1`: down to level `j`, through its link, and back up. -/
theorem walk_down_link_up {gse : Bool} {depth len idx : ℕ} {hd : depth ≤ 40} (hj : j < k)
    (hdepth : 0 < depth) {c : ℕ}
    (hlink : (tower k).lookupByPathFrom (towerLink j).components (2 * j) gse (depth + 1) =
      (.found (2 * j), c)) (rest : List String) (n : ℕ) :
    (tower k).walk len gse depth hd idx ("s" :: "x" :: ".." :: rest) (2 * (j + 1)) n =
      (tower k).walk len gse depth hd (idx + 3) rest (2 * (j + 1)) (n + 1 + c) := by
  have hs : (tower k).component len gse depth hd idx "s" (2 * (j + 1)) n = (.found (2 * j), n) :=
    component_of_dir (by decide) (by decide) (tower_lookup_s hj) (tower_node_dir j)
  have hx : (tower k).component len gse depth hd (idx + 1) "x" (2 * j) n =
      (.found (2 * j), n + 1 + c) := by
    rw [component_of_link (by decide) (by decide) (tower_lookup_x hj.le) (tower_node_link j)
      (Or.inl hdepth)]
    simp only [towerLink_absolute, Bool.false_eq_true, if_false, hlink]
  have hdd : (tower k).component len gse depth hd (idx + 2) ".." (2 * j) (n + 1 + c) =
      (.found (2 * (j + 1)), n + 1 + c) := by
    rw [component_dotdot, climb_of_valid (tower_parent hj) rfl]
  rw [walk_cons_of_found hs rfl, walk_cons_of_found hx rfl, walk_cons_of_found hdd rfl]

/-- The target of the link at level `j` leads back to level `j` and follows `2 ^ (j + 1) - 2`
links, at any depth that leaves the `j` levels below room: by induction on the level, each target
above level 0 walks `s/x/..` twice. -/
theorem lookup_towerLink (gse : Bool) : ∀ j, j ≤ k → ∀ depth, 0 < depth → depth + j ≤ 40 →
    (tower k).lookupByPathFrom (towerLink j).components (2 * j) gse depth =
      (.found (2 * j), 2 ^ (j + 1) - 2)
  | 0, _, depth, _, hdepth => by
    have hcomp : (towerLink 0).components = [] := by decide
    rw [lookupByPathFrom_of_le _ _ (by omega), hcomp, walk_nil]
    rfl
  | j + 1, hj, depth, hpos, hdepth => by
    have hlink := lookup_towerLink gse j (by omega) (depth + 1) (by omega) (by omega)
    have hcomp : (towerLink (j + 1)).components = ["s", "x", "..", "s", "x", ".."] := rfl
    have hpow : 2 ≤ 2 ^ (j + 1) := Nat.le_self_pow (by omega) 2
    rw [lookupByPathFrom_of_le _ _ (by omega), hcomp, walk_down_link_up (by omega) hpos hlink,
      walk_down_link_up (by omega) hpos hlink, walk_nil, pow_succ]
    congr 2
    omega

/-- Looking up the link at the top of a tower of height `k` follows `2 ^ (k + 1) - 1` links and
succeeds, for every `k` the depth limit allows. -/
theorem lookup_follows_exponentially (k : ℕ) (hk : k ≤ 39) :
    (tower k).lookupByPathFrom ["x"] (2 * k) false 0 = (.found (2 * k), 2 ^ (k + 1) - 1) := by
  have hlink := lookup_towerLink false k le_rfl 1 (by omega) (by omega)
  have hx : (tower k).component 1 false 0 (by omega) 0 "x" (2 * k) 0 =
      (.found (2 * k), 0 + 1 + (2 ^ (k + 1) - 2)) := by
    rw [component_of_link (by decide) (by decide) (tower_lookup_x le_rfl) (tower_node_link k)
      (Or.inr (Or.inl rfl))]
    simp only [towerLink_absolute, Bool.false_eq_true, if_false, hlink]
  have hpow : 2 ≤ 2 ^ (k + 1) := Nat.le_self_pow (by omega) 2
  rw [lookupByPathFrom_of_le _ _ (by omega), List.length_singleton, walk_cons_of_found hx rfl,
    walk_nil]
  congr 2
  omega

/-- A tower of height 5: 63 links followed, and the lookup succeeds. -/
theorem lookup_follows_exponentially_five :
    (tower 5).lookupByPathFrom ["x"] 10 false 0 = (.found 10, 63) :=
  lookup_follows_exponentially 5 (by decide)

end DirTree

end Cykusz.Fs
