import Mathlib
import Cykusz.Syscall.Defs

/-!
# Sessions and process groups

`Sessions` maps a session id to its `Session`, which maps a group id to its `Group`, which holds
the pids of its processes. Every task keeps its own `gid` and `sid`, which `Group::new`,
`add_process` and `Session::new` set. A group and a session are named after their leader: a
process leads its group when its pid is its gid, and its session when its pid is its sid.

`set_pgid` of a process that leads a group of its own and moves to another group of its session
takes it out of its group and never drops the group it emptied. The session then holds an empty
group under the process's pid, and a later `set_pgid(0, 0)` that makes the process a group again
finds that pid taken: it returns `EPERM` after it has moved the process to a new group and set
its gid (`set_pgid_keeps_empty_group`).

The maps are association lists; a change made through a shared `Arc` is an `insert` of the new
value under the same key. All the tasks are process leaders, as the ones the sessions hold are;
`GROUPS`, the global weak map of groups, is not modelled.
-/

namespace Cykusz.Kernel.ProcessGroups

open Cykusz.Syscall Cykusz.Syscall.SyscallError

/-- The fields of a task that the sessions read and write. -/
structure TaskIds where
  gid : ℕ
  sid : ℕ
  parent : Option ℕ
deriving DecidableEq, Repr, Inhabited

/-- The tasks by pid. -/
abbrev Tasks := ℕ → Option TaskIds

namespace Tasks

/-- The fields of task `pid`; the functions below are called on tasks that exist. -/
def get (tasks : Tasks) (pid : ℕ) : TaskIds := (tasks pid).getD default

def setGid (tasks : Tasks) (pid v : ℕ) : Tasks :=
  Function.update tasks pid ((tasks pid).map fun t => { t with gid := v })

def setSid (tasks : Tasks) (pid v : ℕ) : Tasks :=
  Function.update tasks pid ((tasks pid).map fun t => { t with sid := v })

def isGroupLeader (tasks : Tasks) (pid : ℕ) : Prop := (tasks.get pid).gid = pid

def isSessionLeader (tasks : Tasks) (pid : ℕ) : Prop := pid = (tasks.get pid).sid

instance (tasks : Tasks) (pid : ℕ) : Decidable (tasks.isGroupLeader pid) :=
  inferInstanceAs (Decidable (_ = _))

instance (tasks : Tasks) (pid : ℕ) : Decidable (tasks.isSessionLeader pid) :=
  inferInstanceAs (Decidable (_ = _))

variable {tasks : Tasks} {pid q v : ℕ}

@[simp] theorem setGid_self {t : TaskIds} (h : tasks pid = some t) :
    tasks.setGid pid v pid = some { t with gid := v } := by
  simp [setGid, h]

@[simp] theorem setGid_ne (h : q ≠ pid) : tasks.setGid pid v q = tasks q := by
  simp [setGid, h]

theorem get_of_eq {t : TaskIds} (h : tasks pid = some t) : tasks.get pid = t := by
  simp [get, h]

end Tasks

/-- `Group`: its id and the pids of its processes. -/
structure Group where
  id : ℕ
  processes : Finset ℕ
deriving DecidableEq

namespace Group

/-- `Group::new`: a group of the leader alone, named after it; the leader's gid becomes its pid. -/
def new (tasks : Tasks) (leader : ℕ) : Tasks × Group :=
  (tasks.setGid leader leader, ⟨leader, {leader}⟩)

/-- `Group::remove_process`: the number of processes left, or `ESRCH`. -/
def removeProcess (g : Group) (pid : ℕ) : Group × SyscallResult :=
  if pid ∈ g.processes then
    (⟨g.id, g.processes.erase pid⟩, .ok (g.processes.erase pid).card)
  else (g, .error ESRCH)

/-- `Group::add_process`: a process not in the group joins it and takes its id as gid. -/
def addProcess (g : Group) (tasks : Tasks) (pid : ℕ) : Group × Tasks × SyscallResult :=
  if pid ∉ g.processes then (⟨g.id, insert pid g.processes⟩, tasks.setGid pid g.id, .ok 0)
  else (g, tasks, .error EPERM)

/-- `Group::register_process`: the process joins, its gid untouched. -/
def registerProcess (g : Group) (pid : ℕ) : Group := ⟨g.id, insert pid g.processes⟩

theorem removeProcess_of_mem {g : Group} {pid : ℕ} (h : pid ∈ g.processes) :
    g.removeProcess pid = (⟨g.id, g.processes.erase pid⟩, .ok (g.processes.erase pid).card) := by
  simp [removeProcess, h]

theorem addProcess_of_not_mem {g : Group} {tasks : Tasks} {pid : ℕ} (h : pid ∉ g.processes) :
    g.addProcess tasks pid = (⟨g.id, insert pid g.processes⟩, tasks.setGid pid g.id, .ok 0) := by
  simp [addProcess, h]
end Group

/-- `Session`: its id and its groups by id. -/
structure Session where
  id : ℕ
  groups : AList fun _ : ℕ => Group

namespace Session

/-- `Session::new`: a session of the leader's new group; the leader's sid becomes its pid. -/
def new (tasks : Tasks) (leader : ℕ) : Session × Tasks :=
  let tasks := tasks.setSid leader leader
  let (tasks, g) := Group.new tasks leader
  (⟨leader, (∅ : AList fun _ : ℕ => Group).insert leader g⟩, tasks)

/-- `Session::remove_process`: the process leaves the group of its gid, a group left empty is
dropped, and the number of groups left is returned. -/
def removeProcess (s : Session) (tasks : Tasks) (pid : ℕ) : Session × SyscallResult :=
  let gid := (tasks.get pid).gid
  match s.groups.lookup gid with
  | some g =>
    match g.removeProcess pid with
    | (g, .ok num) =>
      let groups := s.groups.insert gid g
      let groups := if num = 0 then groups.erase gid else groups
      (⟨s.id, groups⟩, .ok groups.keys.length)
    | (_, .error _) => (s, .error ESRCH)
  | none => (s, .error ESRCH)

/-- `Session::move_to_group`: to a new group of the process's own (group 0, or its pid when no
group has that id), or to another group of the session. The process leaves its group first, and
the group is kept even when it is left empty. -/
def moveToGroup (s : Session) (tasks : Tasks) (pid group : ℕ) :
    Session × Tasks × SyscallResult :=
  let gid := (tasks.get pid).gid
  match s.groups.lookup gid with
  | none => (s, tasks, .error EPERM)
  | some src =>
    let dst := if group ≠ 0 then s.groups.lookup group else none
    if group = 0 ∨ (dst = none ∧ group = pid) then
      match src.removeProcess pid with
      | (_, .error e) => (s, tasks, .error e)
      | (src, .ok _) =>
        let groups := s.groups.insert gid src
        let (tasks, g) := Group.new tasks pid
        let taken := (groups.lookup pid).isSome
        (⟨s.id, groups.insert pid g⟩, tasks, if taken then .error EPERM else .ok 0)
    else if dst.isSome then
      match src.removeProcess pid with
      | (_, .error e) => (s, tasks, .error e)
      | (src, .ok _) =>
        let groups := s.groups.insert gid src
        -- the target is read after the removal: it is the same `Arc` when `group` is the gid
        match groups.lookup group with
        | some dst =>
          let (dst, tasks, r) := dst.addProcess tasks pid
          (⟨s.id, groups.insert group dst⟩, tasks, r)
        | none => (⟨s.id, groups⟩, tasks, .error EPERM)
    else (s, tasks, .error EPERM)

/-- `Session::register_task`; `none` is one of its assertions. -/
def registerTask (s : Session) (tasks : Tasks) (pid : ℕ) : Option (Session × Tasks) :=
  let gid := (tasks.get pid).gid
  match s.groups.lookup gid with
  | some g =>
    if tasks.isGroupLeader pid then none
    else some (⟨s.id, s.groups.insert gid (g.registerProcess pid)⟩, tasks)
  | none =>
    if tasks.isGroupLeader pid then
      let (tasks, g) := Group.new tasks pid
      some (⟨s.id, s.groups.insert gid g⟩, tasks)
    else none

variable {s : Session} {tasks : Tasks} {pid : ℕ} {src : Group}

/-- To another group of the session: the process leaves its group, which stays however few it
leaves, and joins the other. -/
theorem moveToGroup_of_dst {group : ℕ} {dst : Group}
    (hsrc : s.groups.lookup (tasks.get pid).gid = some src) (hmem : pid ∈ src.processes)
    (hg : group ≠ 0) (hne : group ≠ (tasks.get pid).gid)
    (hdst : s.groups.lookup group = some dst) (hnot : pid ∉ dst.processes) :
    s.moveToGroup tasks pid group =
      (⟨s.id, (s.groups.insert (tasks.get pid).gid ⟨src.id, src.processes.erase pid⟩).insert group
        ⟨dst.id, insert pid dst.processes⟩⟩, tasks.setGid pid dst.id, .ok 0) := by
  have hlook :
      (s.groups.insert (tasks.get pid).gid ⟨src.id, src.processes.erase pid⟩).lookup group =
        some dst := by
    rw [AList.lookup_insert_ne hne, hdst]
  simp [moveToGroup, hsrc, hg, hdst, Group.removeProcess_of_mem hmem, hlook,
    Group.addProcess_of_not_mem hnot]

/-- To a new group of its own: the process leaves its group, and a group of it alone is inserted
under its pid, which is an error if a group had that id. -/
theorem moveToGroup_zero (hsrc : s.groups.lookup (tasks.get pid).gid = some src)
    (hmem : pid ∈ src.processes) :
    s.moveToGroup tasks pid 0 =
      let groups := s.groups.insert (tasks.get pid).gid ⟨src.id, src.processes.erase pid⟩
      (⟨s.id, groups.insert pid ⟨pid, {pid}⟩⟩, tasks.setGid pid pid,
        if (groups.lookup pid).isSome then .error EPERM else .ok 0) := by
  simp [moveToGroup, hsrc, Group.removeProcess_of_mem hmem, Group.new]
end Session

/-- `Sessions`, with the gid and sid of every task. -/
structure Sessions where
  sessions : AList fun _ : ℕ => Session
  tasks : Tasks

namespace Sessions

/-- `Sessions::remove_process`: the process leaves its session, a session left without groups
is dropped, and the number of sessions left is returned. -/
def removeProcess (st : Sessions) (pid : ℕ) : Sessions × SyscallResult :=
  let sid := (st.tasks.get pid).sid
  match st.sessions.lookup sid with
  | some s =>
    match s.removeProcess st.tasks pid with
    | (s, .ok num) =>
      let sessions := st.sessions.insert sid s
      let sessions := if num = 0 then sessions.erase sid else sessions
      ({ st with sessions }, .ok sessions.keys.length)
    | (_, .error _) => (st, .error ESRCH)
  | none => (st, .error ESRCH)

def createSession (st : Sessions) (pid : ℕ) : Sessions :=
  let (s, tasks) := Session.new st.tasks pid
  { sessions := st.sessions.insert pid s, tasks }

/-- `Sessions::move_to_group`: nothing to do for the process's own group, or for group 0 of a
group leader. -/
def moveToGroup (st : Sessions) (pid group : ℕ) : Sessions × SyscallResult :=
  if group = (st.tasks.get pid).gid ∨ (group = 0 ∧ st.tasks.isGroupLeader pid) then (st, .ok 0)
  else
    let sid := (st.tasks.get pid).sid
    match st.sessions.lookup sid with
    | none => (st, .error ESRCH)
    | some s =>
      let (s, tasks, r) := s.moveToGroup st.tasks pid group
      ({ sessions := st.sessions.insert sid s, tasks }, r)

/-- `Sessions::register_process` of a process leader; `none` is one of its assertions. -/
def registerProcess (st : Sessions) (pid : ℕ) : Option Sessions :=
  let sid := (st.tasks.get pid).sid
  match st.sessions.lookup sid with
  | some s =>
    if st.tasks.isSessionLeader pid then none
    else (s.registerTask st.tasks pid).map fun (s, tasks) =>
      { sessions := st.sessions.insert sid s, tasks }
  | none => if st.tasks.isSessionLeader pid then some (st.createSession pid) else none

/-- `Sessions::set_sid` of a process leader. -/
def setSid (st : Sessions) (pid : ℕ) : Sessions × SyscallResult :=
  if st.tasks.isGroupLeader pid then (st, .error EPERM)
  else
    match st.removeProcess pid with
    | (st, .error e) => (st, .error e)
    | (st, .ok _) => (st.createSession pid, .ok 0)

/-- The process `set_pgid(pid, _)` acts on, for the process leader `caller`: the caller itself,
or a child of the caller. -/
def pgidTarget (st : Sessions) (caller pid : ℕ) : Except SyscallError ℕ :=
  if pid = 0 ∨ pid = caller then .ok caller
  else
    match st.tasks pid with
    | some t =>
      match t.parent with
      | some parent => if parent ≠ caller then .error ESRCH else .ok pid
      | none => .error EPERM
    | none => .error ESRCH

/-- `Sessions::set_pgid` called by the process leader `caller`. -/
def setPgid (st : Sessions) (caller pid gid : ℕ) : Sessions × SyscallResult :=
  match st.pgidTarget caller pid with
  | .error e => (st, .error e)
  | .ok process =>
    if st.tasks.isSessionLeader process then (st, .error EPERM)
    else if (st.tasks.get caller).sid ≠ (st.tasks.get process).sid then (st, .error EPERM)
    else st.moveToGroup process gid

variable {st : Sessions} {p : ℕ}

theorem setPgid_self (hsl : ¬ st.tasks.isSessionLeader p) (gid : ℕ) :
    st.setPgid p 0 gid = st.moveToGroup p gid := by
  simp [setPgid, pgidTarget, hsl]

theorem moveToGroup_of_session {gid : ℕ} {s : Session} (hgid : gid ≠ (st.tasks.get p).gid)
    (hzero : ¬ (gid = 0 ∧ st.tasks.isGroupLeader p))
    (hs : st.sessions.lookup (st.tasks.get p).sid = some s) :
    st.moveToGroup p gid =
      ({ sessions := st.sessions.insert (st.tasks.get p).sid (s.moveToGroup st.tasks p gid).1,
         tasks := (s.moveToGroup st.tasks p gid).2.1 }, (s.moveToGroup st.tasks p gid).2.2) := by
  simp only [moveToGroup, hgid, hzero, or_self, if_false, hs]
end Sessions

/-- A process alone in its own group that moves to another group of its session leaves its group
empty in the session. Its `set_pgid(0, 0)` then finds its pid taken by that group: it returns
`EPERM`, but only after it has taken the process out of its group and set its gid. -/
theorem set_pgid_keeps_empty_group (st : Sessions) (p : ℕ) (t : TaskIds) (s : Session) (g : ℕ)
    (dst : Group) (hp : st.tasks p = some t) (hlead : t.gid = p) (hsl : t.sid ≠ p)
    (hs : st.sessions.lookup t.sid = some s) (hown : s.groups.lookup p = some ⟨p, {p}⟩)
    (hg : g ≠ 0) (hgp : g ≠ p) (hdst : s.groups.lookup g = some dst) (hid : dst.id = g)
    (hnot : p ∉ dst.processes) :
    ∃ st₁ st₂ s₁, st.setPgid p 0 g = (st₁, .ok 0) ∧
      st₁.sessions.lookup t.sid = some s₁ ∧ s₁.groups.lookup p = some ⟨p, ∅⟩ ∧
      st₁.tasks p = some { t with gid := g } ∧
      st₁.setPgid p 0 0 = (st₂, .error EPERM) ∧ st₂.tasks p = some { t with gid := p } := by
  have hget : st.tasks.get p = t := Tasks.get_of_eq hp
  have hsl' : ¬ st.tasks.isSessionLeader p := by
    rw [Tasks.isSessionLeader, hget]
    exact fun h => hsl h.symm
  have hgid : g ≠ (st.tasks.get p).gid := by rw [hget, hlead]; exact hgp
  have hs' : st.sessions.lookup (st.tasks.get p).sid = some s := by rw [hget]; exact hs
  have hsrc : s.groups.lookup (st.tasks.get p).gid = some ⟨p, {p}⟩ := by
    rw [hget, hlead]
    exact hown
  -- the first call moves `p` to `g` and leaves its own group empty
  set s₁ : Session := ⟨s.id, (s.groups.insert p ⟨p, ∅⟩).insert g ⟨g, insert p dst.processes⟩⟩
    with hs₁
  set st₁ : Sessions := ⟨st.sessions.insert t.sid s₁, st.tasks.setGid p g⟩ with hst₁
  have hcall₁ : st.setPgid p 0 g = (st₁, .ok 0) := by
    rw [Sessions.setPgid_self hsl', Sessions.moveToGroup_of_session hgid (fun h => hg h.1) hs',
      Session.moveToGroup_of_dst hsrc (Finset.mem_singleton_self p) hg hgid hdst hnot]
    simp [hget, hlead, hid, hs₁, hst₁]
  have hp₁ : st₁.tasks p = some { t with gid := g } := by simp [hst₁, hp]
  have hget₁ : st₁.tasks.get p = { t with gid := g } := Tasks.get_of_eq hp₁
  have hlook₁ : s₁.groups.lookup p = some ⟨p, ∅⟩ := by
    rw [hs₁, AList.lookup_insert_ne hgp.symm, AList.lookup_insert]
  -- the second call finds the empty group under `p`'s pid
  have hsl₁ : ¬ st₁.tasks.isSessionLeader p := by
    rw [Tasks.isSessionLeader, hget₁]
    exact fun h => hsl h.symm
  have hzero₁ : (0 : ℕ) ≠ (st₁.tasks.get p).gid := by rw [hget₁]; exact hg.symm
  have hlead₁ : ¬ ((0 : ℕ) = 0 ∧ st₁.tasks.isGroupLeader p) := by
    rw [Tasks.isGroupLeader, hget₁]
    exact fun h => hgp h.2
  have hs₁' : st₁.sessions.lookup (st₁.tasks.get p).sid = some s₁ := by
    rw [hget₁, hst₁]
    exact AList.lookup_insert _
  have hsrc₁ : s₁.groups.lookup (st₁.tasks.get p).gid = some ⟨g, insert p dst.processes⟩ := by
    rw [hget₁, hs₁]
    exact AList.lookup_insert _
  have htaken : ((s₁.groups.insert g ⟨g, (insert p dst.processes).erase p⟩).lookup p).isSome := by
    rw [AList.lookup_insert_ne hgp.symm, hlook₁]
    rfl
  -- the second call moves `p` and sets its gid before it finds the pid taken
  have hcall₂ : st₁.setPgid p 0 0 =
      (⟨st₁.sessions.insert t.sid ⟨s₁.id, (s₁.groups.insert g
          ⟨g, (insert p dst.processes).erase p⟩).insert p ⟨p, {p}⟩⟩, st₁.tasks.setGid p p⟩,
        .error EPERM) := by
    rw [Sessions.setPgid_self hsl₁, Sessions.moveToGroup_of_session hzero₁ hlead₁ hs₁',
      Session.moveToGroup_zero hsrc₁ (Finset.mem_insert_self p _)]
    simp only [hget₁, htaken, if_true]
  refine ⟨st₁, _, s₁, hcall₁, AList.lookup_insert _, hlook₁, hp₁, hcall₂, ?_⟩
  simp [hp₁]

/-- Session 1 of its leader 1 holds the group of 1 and 3, and process 2 alone in its own group. -/
def shell : Sessions where
  sessions := (∅ : AList fun _ : ℕ => Session).insert 1
    ⟨1, ((∅ : AList fun _ : ℕ => Group).insert 1 ⟨1, {1, 3}⟩).insert 2 ⟨2, {2}⟩⟩
  tasks := fun pid =>
    if pid = 1 then some ⟨1, 1, none⟩
    else if pid = 2 then some ⟨2, 1, some 1⟩
    else if pid = 3 then some ⟨1, 1, some 1⟩
    else none

/-- Process 2 joins group 1, then asks for a group of its own again. -/
theorem set_pgid_keeps_empty_group_shell :
    ∃ st₁ st₂ s₁, shell.setPgid 2 0 1 = (st₁, .ok 0) ∧
      st₁.sessions.lookup 1 = some s₁ ∧ s₁.groups.lookup 2 = some ⟨2, ∅⟩ ∧
      st₁.tasks 2 = some ⟨1, 1, some 1⟩ ∧
      st₁.setPgid 2 0 0 = (st₂, .error EPERM) ∧ st₂.tasks 2 = some ⟨2, 1, some 1⟩ :=
  set_pgid_keeps_empty_group shell 2 ⟨2, 1, some 1⟩
    ⟨1, ((∅ : AList fun _ : ℕ => Group).insert 1 ⟨1, {1, 3}⟩).insert 2 ⟨2, {2}⟩⟩ 1 ⟨1, {1, 3}⟩
    rfl rfl (by decide) rfl rfl (by decide) (by decide) rfl rfl (by decide)

end Cykusz.Kernel.ProcessGroups
