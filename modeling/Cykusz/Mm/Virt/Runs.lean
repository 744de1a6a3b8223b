import Mathlib
import Cykusz.Mm.Virt.Fork

/-!
# Runs of a `P4Table`, with `duplicate` along them

The 4 KiB operations write the root's entries only in `map_*`, where `alloc_next_level` gives the
entry of the page's root index `USER` exactly in the lower half. So no operation puts a user entry
in the kernel half (`exec_kernelHalf`), and `duplicate` (`duplicate_spec`) applies at every point
of a run: the refinement of `Refine` is carried over every run together with that, and ends with
what `duplicate` does from the state reached (`pageTable_refines`).
-/

namespace Cykusz.Virt

namespace Mem

variable {A : Type} [FrameAlloc A]

open Entry

variable {m m' : Mem A} {root t t' x : ℕ} {i j : Fin 512} {u w : Bool}

theorem user_and_not_flagMask : user &&& ~~~flagMask = 0 := by decide

theorem user_and_not_lowFlags : user &&& ~~~lowFlags = 0 := by decide

theorem contains_linkFlags_user (u : Bool) : (linkFlags u).contains user = u := by
  cases u <;> decide

theorem IsUser.contains_user {e : Entry} (he : IsUser e) : e.contains user = true := by
  cases hu : e.contains user
  · have hno := contains_or_eq_false (y := present) hu
    rw [IsUser, dupFlags, BitVec.or_comm] at he
    rw [he] at hno
    cases hno
  · rfl

theorem not_isUser_of_contains_user {e : Entry} (h : e.contains user = false) : ¬IsUser e :=
  fun he => absurd he.contains_user (by rw [h]; decide)

/-! ## What each write does to entries elsewhere -/

/-- `alloc_next_level` writes the entry it walks through and the frame it takes. -/
theorem allocNextLevel_entry_of_ne (h : m.allocNextLevel t i u = some (w, t', m'))
    (hx : ¬(x = t ∧ j = i)) (hxf : x ∉ m.free) : m'.entry x j = m.entry x j := by
  obtain ⟨-, ⟨-, -, rfl⟩ | ⟨-, -, f, m₀, ha, rfl⟩⟩ := allocNextLevel_cases h
  · rw [entry_modifyEntry, if_neg hx]
  · obtain ⟨-, htab, -, -⟩ := allocate_eq_some ha
    have hxf' : x ≠ f := fun e => hxf (e ▸ mem_free_of_allocate ha)
    rw [entry_modifyEntry, if_neg hx, entry_setFrame, if_neg hx, entry_clearFrame, if_neg hxf']
    simp [entry, htab]

/-- `alloc_next_level` gives the entry it walks through `USER` as its caller asks. -/
theorem allocNextLevel_contains_user (h : m.allocNextLevel t i u = some (w, t', m')) :
    (m'.entry t i).contains user = u := by
  obtain ⟨-, ⟨-, -, rfl⟩ | ⟨-, -, f, m₀, -, rfl⟩⟩ := allocNextLevel_cases h <;>
  · rw [entry_modifyEntry, if_pos ⟨rfl, rfl⟩, contains_setFlags user_and_not_flagMask,
      contains_linkFlags_user]

omit [FrameAlloc A] in
/-- The count `map_*` adds when a flag says so writes only the entry it counts in. -/
theorem incEntryCount_if_entry_of_ne {b : Bool} (hx : ¬(x = t ∧ j = i)) :
    (if b then m.incEntryCount t i else m).entry x j = m.entry x j := by
  split_ifs
  · rw [incEntryCount, entry_modifyEntry, if_neg hx]
  · rfl

omit [FrameAlloc A] in
theorem incEntryCount_if_contains_user {b : Bool} :
    ((if b then m.incEntryCount t i else m).entry t i).contains user =
      (m.entry t i).contains user := by
  split_ifs
  · rw [incEntryCount, entry_modifyEntry, if_pos ⟨rfl, rfl⟩, Entry.incEntryCount,
      contains_setEntryCount user_and_not_lowFlags]
  · rfl

/-- A write of a page's entry that writes no other table but frames it takes from the
allocator. -/
def LeafLocal (leaf : Mem A → ℕ → Fin 512 → Option (Bool × Mem A)) : Prop :=
  ∀ (m m' : Mem A) t i inc x j, leaf m t i = some (inc, m') → x ≠ t → x ∉ m.free →
    m'.entry x j = m.entry x j

theorem setFrameFlags_entry_of_ne {fr : ℕ} {fl : Entry} (hx : x ≠ t) :
    (m.setFrameFlags t i fr fl).entry x j = m.entry x j := by
  rw [entry_setFrameFlags, if_neg fun h => hx h.1]

theorem setL1_leafLocal {fr : ℕ} : LeafLocal fun (m : Mem A) t i => some (m.setL1 t i fr) := by
  intro m m' t i inc x j h hx _
  obtain rfl := congrArg Prod.snd (Option.some_injective _ h)
  unfold setL1
  split_ifs
  · exact setFrameFlags_entry_of_ne hx
  · rfl

theorem setFlagsL1_leafLocal {fr : ℕ} {fl : Entry} :
    LeafLocal fun (m : Mem A) t i => some (m.setFlagsL1 t i fr fl) := by
  intro m m' t i inc x j h hx _
  obtain rfl := congrArg Prod.snd (Option.some_injective _ h)
  exact setFrameFlags_entry_of_ne hx

theorem allocSetFlags_leafLocal {fl : Entry} :
    LeafLocal fun (m : Mem A) t i => m.allocSetFlags t i fl := by
  intro m m' t i inc x j h hx hxf
  dsimp only at h
  unfold allocSetFlags at h
  split_ifs at h
  · simp only [Option.bind_eq_bind, Option.bind_eq_some_iff, Option.pure_def,
      Option.some.injEq, Prod.mk.injEq] at h
    obtain ⟨⟨f, m₀⟩, ha, -, rfl⟩ := h
    obtain ⟨-, htab, -, -⟩ := allocate_eq_some ha
    have hxf' : x ≠ f := fun e => hxf (e ▸ mem_free_of_allocate ha)
    rw [setFrameFlags_entry_of_ne hx, entry_clearFrame, if_neg hxf']
    simp [entry, htab]
  · obtain rfl := congrArg Prod.snd (Option.some_injective _ h)
    exact setFrameFlags_entry_of_ne hx

/-! ## The root's entries over `map_*` -/

/-- `map_*` writes of the root only the entry of the page's root index, which keeps the `USER` that
`alloc_next_level` gave it: set exactly in the lower half. -/
theorem mapWith_entry_root {leaf : Mem A → ℕ → Fin 512 → Option (Bool × Mem A)} {virt : ℕ}
    (hwf : m.Wf root) (hl : LeafLocal leaf) (h : m.mapWith leaf root virt = some m') :
    (∀ j, j ≠ (vpnOf (pageNumber virt)).1 → m'.entry root j = m.entry root j) ∧
      (m'.entry root (vpnOf (pageNumber virt)).1).contains user =
        decide ((vpnOf (pageNumber virt)).1.val < 256) := by
  obtain ⟨w₄, l3, m₁, w₃, l2, m₂, w₂, l1, m₃, inc, m₄, h1, h2, h3, h4, rfl⟩ := mapWith_cases h
  generalize vpnOf (pageNumber virt) = q₀ at h1 h2 h3 h4 ⊢
  obtain ⟨a, b, c, e⟩ := q₀
  dsimp only at h1 h2 h3 h4 ⊢
  -- the three tables of the path, each below the root and so another table than the root
  have L1 := allocNextLevel_spec (p := []) hwf.shape hwf.frames hwf.counted (by simp) walk_nil
    rfl h1
  have hw₁ : m₁.walk root [a] = some l3 := by rw [L1.walk [a] (by simp)]; simp
  have L2 := allocNextLevel_spec (p := [a]) L1.shape L1.frames L1.counted (by simp) hw₁
    (by simp) h2
  have hw₂ : m₂.walk root [a, b] = some l2 := by rw [L2.walk [a, b] (by simp)]; simp
  have L3 := allocNextLevel_spec (p := [a, b]) L2.shape L2.frames L2.counted (by simp) hw₂
    (by simp) h3
  have hw₃ : m₃.walk root [a, b, c] = some l1 := by rw [L3.walk [a, b, c] (by simp)]; simp
  have h3ne : l3 ≠ root := fun e => by
    have := L1.shape.inj [a] [] root (by simp) (by simp) (e ▸ hw₁) walk_nil
    simp at this
  have h2ne : l2 ≠ root := fun e => by
    have := L2.shape.inj [a, b] [] root (by simp) (by simp) (e ▸ hw₂) walk_nil
    simp at this
  have h1ne : l1 ≠ root := fun e => by
    have := L3.shape.inj [a, b, c] [] root (by simp) (by simp) (e ▸ hw₃) walk_nil
    simp at this
  have hr₀ : root ∉ m.free := fun hr => hwf.not_isTable_of_free hr ⟨[], by simp, walk_nil⟩
  have hr₁ : root ∉ m₁.free := fun hr => hr₀ (L1.free_sub _ hr)
  have hr₂ : root ∉ m₂.free := fun hr => hr₁ (L2.free_sub _ hr)
  have hr₃ : root ∉ m₃.free := fun hr => hr₂ (L3.free_sub _ hr)
  -- after the first link, the root's entries stay until the last count
  have hkeep : ∀ j, m₄.entry root j = m₁.entry root j := fun j => by
    rw [hl m₃ m₄ l1 e inc root j h4 h1ne.symm hr₃,
      allocNextLevel_entry_of_ne h3 (fun h => h2ne h.1.symm) hr₂,
      allocNextLevel_entry_of_ne h2 (fun h => h3ne h.1.symm) hr₁]
  have hl2 : ∀ j, ¬(root = l2 ∧ j = c) := fun _ h => h2ne h.1.symm
  have hl3 : ∀ j, ¬(root = l3 ∧ j = b) := fun _ h => h3ne h.1.symm
  constructor
  · intro j hj
    have hne : ¬(root = root ∧ j = a) := fun h => hj h.2
    rw [incEntryCount_if_entry_of_ne hne, incEntryCount_if_entry_of_ne (hl3 j),
      incEntryCount_if_entry_of_ne (hl2 j), hkeep j, allocNextLevel_entry_of_ne h1 hne hr₀]
  · rw [incEntryCount_if_contains_user, incEntryCount_if_entry_of_ne (hl3 a),
      incEntryCount_if_entry_of_ne (hl2 a), hkeep a, allocNextLevel_contains_user h1]

/-! ## The kernel half over every operation -/

omit [FrameAlloc A] in
theorem kernelHalf_of_entry_root (hk : m.KernelHalf root)
    (h : ∀ j, m'.entry root j = m.entry root j) : m'.KernelHalf root := fun i hi => by
  rw [h i]
  exact hk i hi

theorem mapWith_kernelHalf {leaf : Mem A → ℕ → Fin 512 → Option (Bool × Mem A)} {virt : ℕ}
    (hwf : m.Wf root) (hl : LeafLocal leaf) (hk : m.KernelHalf root)
    (h : m.mapWith leaf root virt = some m') : m'.KernelHalf root := by
  obtain ⟨hne, huser⟩ := mapWith_entry_root hwf hl h
  intro i hi
  by_cases hia : i = (vpnOf (pageNumber virt)).1
  · subst hia
    apply not_isUser_of_contains_user
    rw [huser, decide_eq_false_iff_not]
    omega
  · rw [hne i hia]
    exact hk i hi

omit [FrameAlloc A] in
/-- `change_entry` writes a page's entry, in a table below the root. -/
theorem changeEntry_entry_root (hs : m.Shape root) (addr : ℕ) (fn : Entry → Entry) (j : Fin 512) :
    (m.changeEntry root addr fn).2.entry root j = m.entry root j := by
  rw [changeEntry_eq hs]
  cases hw : m.walk root (vpnOf (pageNumber addr)).path with
  | none => rfl
  | some t =>
    dsimp only
    split_ifs
    · -- the page's table sits at a position of length three, so it is not the root
      have htr : t ≠ root := fun e => by
        have := hs.inj _ [] root (by simp [Vpn.path_length]) (by simp) (e ▸ hw) walk_nil
        simp [Vpn.path] at this
      rw [entry_modifyEntry, if_neg fun h => htr h.1.symm]
    · rfl

/-- No operation puts a user entry in the kernel half. -/
theorem exec_kernelHalf {op : PtOp} (hwf : m.Wf root) (hk : m.KernelHalf root)
    (h : m.exec root op = some m') : m'.KernelHalf root := by
  cases op with
  | mapTo virt phys => exact mapWith_kernelHalf hwf setL1_leafLocal hk h
  | mapToFlags virt phys flags => exact mapWith_kernelHalf hwf setFlagsL1_leafLocal hk h
  | mapFlags virt flags => exact mapWith_kernelHalf hwf allocSetFlags_leafLocal hk h
  | updateFlags virt flags =>
    obtain rfl := (Option.some_injective _ h).symm
    exact kernelHalf_of_entry_root hk (changeEntry_entry_root hwf.shape virt _)
  | insertFlags virt flags =>
    obtain rfl := (Option.some_injective _ h).symm
    exact kernelHalf_of_entry_root hk (changeEntry_entry_root hwf.shape virt _)
  | removeFlags virt flags =>
    obtain rfl := (Option.some_injective _ h).symm
    exact kernelHalf_of_entry_root hk (changeEntry_entry_root hwf.shape virt _)
  | unmap virt => exact kernelHalf_of_entry_root hk (unmap_entry_root hwf.shape h)

/-! ## Runs -/

/-- A new `P4Table`'s root is zero, so its kernel half holds no user entry. -/
theorem newTable_kernelHalf (h : m.newTable = some (root, m')) : m'.KernelHalf root := by
  simp only [newTable, Option.bind_eq_bind, Option.bind_eq_some_iff, Option.pure_def,
    Option.some.injEq, Prod.mk.injEq] at h
  obtain ⟨⟨f, m₀⟩, -, rfl, rfl⟩ := h
  intro i _
  rw [entry_of_tables_eq (tables_refTable f), entry_clearFrame, if_pos rfl]
  decide

/-- The operations keep the kernel half free of user entries along with the invariant. -/
theorem exec_simulates_kernelHalf (root : ℕ) :
    Simulation.Simulates (fun (m : Mem A) op => m.exec root op) (fun (m : Mem A) op => m.OpOk op)
      AddrSpace.Step (fun (m : Mem A) => m.Wf root ∧ m.KernelHalf root)
      (fun (m : Mem A) => m.view root) where
  inv_step m op m' hi hok h :=
    ⟨(exec_simulates root).inv_step m op m' hi.1 hok h, exec_kernelHalf hi.1 hi.2 h⟩
  abs_step m op m' hi hok h := (exec_simulates root).abs_step m op m' hi.1 hok h

/-- The tables of a `P4Table` refine its address space: every run of 4 KiB operations from a
tree with the invariant and no user entry in its kernel half, on arguments their callers promise,
is matched by a run of abstract steps and keeps both; at its end `to_phys` and `get_flags` read
the abstract translation, and `duplicate` keeps both in the old table, clears `WRITABLE` in its
user pages, and makes a copy of them, without `WRITABLE`, and of the kernel half. -/
theorem pageTable_refines {ops : List PtOp} (hwf : m.Wf root) (hk : m.KernelHalf root)
    (hok : Simulation.Guarded (fun (m : Mem A) op => m.exec root op) (fun (m : Mem A) op => m.OpOk op)
      m ops)
    (h : Simulation.run (fun (m : Mem A) op => m.exec root op) m ops = some m') :
    Simulation.Runs AddrSpace.Step (m.view root) ops (m'.view root) ∧ m'.Wf root ∧
      m'.KernelHalf root ∧ (∀ v, m'.toPhys root v = (m'.view root).translate v) ∧
      (∀ v, (m'.getFlags root v).getD 0 =
        ((m'.view root) (vpnOf (pageNumber v))).elim 0 fun t => pageEntry t.frame t.flags) ∧
      ∀ new m'', m'.duplicate root = some (new, m'') →
        m''.Wf root ∧ m''.KernelHalf root ∧
        m''.view root = (m'.view root).protect (m'.isUserPage root) ∧
        m''.view new = (m'.view root).fork (m'.isUserPage root) := by
  obtain ⟨⟨hwf', hk'⟩, hruns⟩ := (exec_simulates_kernelHalf root).run_runs ops m m' ⟨hwf, hk⟩ hok h
  exact ⟨hruns, hwf', hk', toPhys_eq_translate hwf', getFlags_eq_view hwf',
    fun _ _ hd => duplicate_spec hwf' hk' hd⟩

theorem bootMem_frames : bootMem.Frames fun _ => 0 where
  free_fit f hf := by
    rw [FreeList.mem_def] at hf
    unfold Fits
    revert f
    decide
  free_unused _ _ := rfl
  used_fit _ h := absurd rfl h
  uses _ _ _ := Nat.zero_le _

/-- The new `P4Table` of `bootMem`. -/
def bootNew : Mem FreeList := (bootMem.newTable.getD (0, bootMem)).2

theorem bootMem_newTable : bootMem.newTable = some (0x1000, bootNew) := rfl

/-- A user page mapped and unmapped in the new table of `bootMem`. -/
def bootOps : List PtOp := [.mapToFlags 0 0xA000 userRW, .unmap 0]

def bootRun : Option (Mem FreeList) :=
  Simulation.run (fun (m : Mem FreeList) op => m.exec 0x1000 op) bootNew bootOps

theorem pageTable_refines_bootRun :
    bootNew.Wf 0x1000 ∧ bootNew.KernelHalf 0x1000 ∧ bootRun = some (bootRun.getD bootNew) ∧
      Simulation.Runs AddrSpace.Step (bootNew.view 0x1000) bootOps
        ((bootRun.getD bootNew).view 0x1000) := by
  have hwf : bootNew.Wf 0x1000 := (newTable_spec bootMem_frames bootMem_newTable).1
  have hk : bootNew.KernelHalf 0x1000 := newTable_kernelHalf bootMem_newTable
  have hrun : bootRun = some (bootRun.getD bootNew) := by
    obtain ⟨m', hm'⟩ := Option.isSome_iff_exists.1 (show bootRun.isSome = true by decide +kernel)
    rw [hm']
    rfl
  have hok : Simulation.Guarded (fun (m : Mem FreeList) op => m.exec 0x1000 op)
      (fun (m : Mem FreeList) op => m.OpOk op) bootNew bootOps :=
    ⟨⟨by decide, by decide⟩, fun _ _ => ⟨trivial, fun _ _ => trivial⟩⟩
  exact ⟨hwf, hk, hrun, (pageTable_refines hwf hk hok hrun).1⟩

end Mem

end Cykusz.Virt
