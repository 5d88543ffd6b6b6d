/-
  Icarius.Process.List

  The doubly linked list of processes that starts at `processes`, over any order
  of `process_spawn`, `process_kspawn`, `process_set_curr` and `process_exit`.

  `_process_list_insert` asks whether there is a current process where it would
  have to ask whether the list is empty.  `process_exit` of the current process
  clears `curr_process` and leaves the others in the list, so the next process to
  be created starts a list of its own and the others are no longer in it.
-/

import Icarius.Lib.Links
import Icarius.Process.Spawn
import Mathlib.Data.List.Nodup

namespace Icarius

open Icarius.Lib

namespace Machine

variable {s s' : Machine} {self : Nat}

/-! ## Kernel threads -/

/-- `task_kcreate`; the pointer is 0 when it fails. -/
def taskKcreate (s : Machine) (parent : Nat) : Except Stop (Nat × Machine) := do
  if (s.procs parent).taskCount ≥ processMaxThread then .ok (0, s)
  else
    let (task, k) ← s.kernel.kzalloc taskSize
    let s := s.setKernel k
    if task = 0 then .ok (0, s)
    else
      let (stack, k) ← s.kernel.kzalloc kernelStackSize
      let s := s.setKernel k
      if stack = 0 then .ok (0, s)
      else
        .ok (task, { s with
          tasks := fun t =>
            if t = task then ⟨stack + kernelStackSize, stack, parent⟩ else s.tasks t })

/-- `process_kspawn`; the pointer is 0 when it fails.  `kernelDir` is the address of
    `kernel_directory`. -/
def processKspawn (s : Machine) (kernelDir : Nat) : Except Stop (Nat × Machine) := do
  let (self, s) ← s.processAlloc .kernelThread
  if self = 0 then .ok (0, s)
  else
    let s := s.setProc self { s.procs self with pageDir := kernelDir }
    if (s.procs self).taskCount ≥ processMaxThread then
      .ok (0, s.setKernel (s.kernel.kfree self))
    else
      let (task, s) ← s.taskKcreate self
      if task = 0 then .ok (0, s.setKernel (s.kernel.kfree self))
      else
        let proc := s.procs self
        let s := s.setProc self
          { proc with
            tasks := fun i => if i = proc.taskCount then task else proc.tasks i
            taskCount := proc.taskCount + 1 }
        .ok (self, s.processListInsert self)

/-- `process_set_curr` -/
def processSetCurr (s : Machine) (self : Nat) : Machine :=
  if self = 0 then s else { s with currProcess := self }

/-! ## What the list functions see

The rest of a spawn or an exit works on the heap, the page tables and the new
object.  It leaves the two variables and the links of all other processes alone. -/

/-- From `s` to `s'` the list variables and the links of the processes other than
    `p` stay as they are. -/
structure KeepsLinks (p : Nat) (s s' : Machine) : Prop where
  processes : s'.processes = s.processes
  currProcess : s'.currProcess = s.currProcess
  prev : ∀ q, q ≠ p → (s'.procs q).prev = (s.procs q).prev
  next : ∀ q, q ≠ p → (s'.procs q).next = (s.procs q).next

theorem KeepsLinks.refl (self : Nat) (s : Machine) : KeepsLinks self s s :=
  ⟨rfl, rfl, fun _ _ => rfl, fun _ _ => rfl⟩

theorem KeepsLinks.trans {s₁ s₂ s₃ : Machine} (h₁ : KeepsLinks self s₁ s₂)
    (h₂ : KeepsLinks self s₂ s₃) : KeepsLinks self s₁ s₃ :=
  ⟨h₂.processes.trans h₁.processes, h₂.currProcess.trans h₁.currProcess,
    fun q hq => (h₂.prev q hq).trans (h₁.prev q hq),
    fun q hq => (h₂.next q hq).trans (h₁.next q hq)⟩

/-- Work in the kernel alone. -/
theorem KeepsLinks.of_procs_eq (hprocs : s'.procs = s.procs)
    (hprocesses : s'.processes = s.processes) (hcurr : s'.currProcess = s.currProcess) :
    KeepsLinks self s s' :=
  ⟨hprocesses, hcurr, fun q _ => by rw [hprocs], fun q _ => by rw [hprocs]⟩

theorem KeepsLinks.setKernel (self : Nat) (s : Machine) (k : Kernel) :
    KeepsLinks self s (s.setKernel k) := .of_procs_eq rfl rfl rfl

theorem KeepsLinks.setProc (s : Machine) (self : Nat) (proc : Process) :
    KeepsLinks self s (s.setProc self proc) :=
  ⟨rfl, rfl, fun _ hq => by simp only [Machine.setProc, if_neg hq],
    fun _ hq => by simp only [Machine.setProc, if_neg hq]⟩

/-! ## What a spawn comes to -/

/-- From `s` to `s'` the process `p` has been worked on.  It keeps its identifier, and the
    other processes, the list variables and the counter stay as they are. -/
structure Builds (p : Nat) (s s' : Machine) : Prop where
  processes : s'.processes = s.processes
  currProcess : s'.currProcess = s.currProcess
  nextPid : s'.nextPid = s.nextPid
  pid : (s'.procs p).pid = (s.procs p).pid
  others : ∀ q, q ≠ p → s'.procs q = s.procs q

namespace Builds

theorem refl (p : Nat) (s : Machine) : Builds p s s := ⟨rfl, rfl, rfl, rfl, fun _ _ => rfl⟩

theorem trans {p : Nat} {s₁ s₂ s₃ : Machine} (h₁ : Builds p s₁ s₂) (h₂ : Builds p s₂ s₃) :
    Builds p s₁ s₃ :=
  ⟨h₂.processes.trans h₁.processes, h₂.currProcess.trans h₁.currProcess,
    h₂.nextPid.trans h₁.nextPid, h₂.pid.trans h₁.pid,
    fun q hq => (h₂.others q hq).trans (h₁.others q hq)⟩

/-- Work on the kernel and the tasks. -/
theorem rest (p : Nat) (s : Machine) (k : Kernel) (tasks : Nat → Task) (stale : Mem) :
    Builds p s { s with kernel := k, tasks := tasks, stale := stale } :=
  ⟨rfl, rfl, rfl, rfl, fun _ _ => rfl⟩

theorem setKernel (p : Nat) (s : Machine) (k : Kernel) : Builds p s (s.setKernel k) :=
  rest p s k s.tasks s.stale

theorem setProc (s : Machine) (p : Nat) {proc : Process} (h : proc.pid = (s.procs p).pid) :
    Builds p s (s.setProc p proc) := by
  refine ⟨rfl, rfl, rfl, ?_, fun q hq => ?_⟩
  · simp only [Machine.setProc, if_true, h]
  · simp only [Machine.setProc, if_neg hq]

theorem keepsLinks {p : Nat} (h : Builds p s s') : KeepsLinks p s s' :=
  ⟨h.processes, h.currProcess, fun q hq => by rw [h.others q hq], fun q hq => by rw [h.others q hq]⟩

end Builds

theorem createSpace_builds (h : s.createSpace self = .ok s') : Builds self s s' := by
  obtain ⟨⟨d, k⟩, -, h⟩ := exists_of_bind h
  obtain rfl := Except.ok.inj h
  exact (Builds.setKernel self s _).trans (.setProc _ _ rfl)

theorem underDir_builds {ptr : Nat} {code : Kernel → Except Stop Kernel}
    (h : s.underDir ptr code = .ok s') : Builds self s s' := by
  simp only [underDir] at h
  split at h
  · cases h
  · simp only [Except.ok.injEq] at h
    rw [← h]
    exact .rest self s _ _ _

theorem taskCreate_builds {parent task : Nat} {file : Program}
    (h : s.taskCreate parent file = .ok (task, s')) : Builds self s s' := by
  cases taskCreate_returns h with
  | full hmax => exact .refl self s
  | noTask k htask => exact .setKernel self s k
  | noDir ptr k htask hdir => exact .setKernel self s k
  | created _ k _ htask hne hdir hunder =>
      exact (Builds.rest self s _ _ _).trans (underDir_builds hunder)

theorem taskKcreate_builds {parent task : Nat}
    (h : s.taskKcreate parent = .ok (task, s')) : Builds self s s' := by
  unfold taskKcreate at h
  split at h
  · obtain ⟨-, rfl⟩ := Prod.mk.inj (Except.ok.inj h)
    exact .refl self s
  obtain ⟨⟨t, k⟩, -, h⟩ := exists_of_bind h
  dsimp only at h
  split at h
  · obtain ⟨-, rfl⟩ := Prod.mk.inj (Except.ok.inj h)
    exact .setKernel self s k
  obtain ⟨⟨stack, k'⟩, -, h⟩ := exists_of_bind h
  dsimp only at h
  split at h
  · obtain ⟨-, rfl⟩ := Prod.mk.inj (Except.ok.inj h)
    exact .rest self s _ _ _
  · obtain ⟨-, rfl⟩ := Prod.mk.inj (Except.ok.inj h)
    exact .rest self s _ _ _

/-- Behind `_process_alloc` a spawn has no process, or builds it and gives it up or inserts
    it into the list. -/
def SpawnEnds (s : Machine) (filetype : ProcessFiletype) (self : Nat) (s' : Machine) : Prop :=
  ∃ p s₁, s.processAlloc filetype = .ok (p, s₁) ∧
    (p = 0 ∧ self = 0 ∧ s' = s₁ ∨
      p ≠ 0 ∧ ∃ m, Builds p s₁ m ∧ (self = 0 ∧ s' = m ∨ self = p ∧ s' = m.processListInsert p))

theorem processSpawn_ends {file : Program} (h : s.processSpawn file = .ok (self, s')) :
    s.SpawnEnds .binary self s' := by
  cases processSpawn_returns h with
  | noProcess _ halloc => exact ⟨0, s', halloc, .inl ⟨rfl, rfl, rfl⟩⟩
  | full p s₁ halloc hne hmax =>
      exact ⟨p, s₁, halloc, .inr ⟨hne, _, .setKernel p s₁ _, .inl ⟨rfl, rfl⟩⟩⟩
  | noTask p s₁ s₂ s₃ halloc hne hcreate htask =>
      have hbuilt := (createSpace_builds hcreate).trans (taskCreate_builds htask)
      exact ⟨p, s₁, halloc, .inr ⟨hne, _, hbuilt.trans (.setKernel p s₃ _), .inl ⟨rfl, rfl⟩⟩⟩
  | spawned _ task s₁ s₂ s₃ k proc halloc hne hcreate htask htaskNe hcalls hpid hdir =>
      have hbuilt := (createSpace_builds hcreate).trans (taskCreate_builds htask)
      exact ⟨self, s₁, halloc, .inr ⟨hne, _,
        hbuilt.trans ((Builds.setKernel self s₃ k).trans (.setProc _ _ hpid)), .inr ⟨rfl, rfl⟩⟩⟩

theorem processKspawn_ends {kernelDir : Nat} (h : s.processKspawn kernelDir = .ok (self, s')) :
    s.SpawnEnds .kernelThread self s' := by
  obtain ⟨⟨p, s₁⟩, halloc, h⟩ := exists_of_bind h
  refine ⟨p, s₁, halloc, ?_⟩
  dsimp only at h
  split at h
  · rename_i hzero
    obtain ⟨rfl, rfl⟩ := Prod.mk.inj (Except.ok.inj h)
    exact .inl ⟨hzero, rfl, rfl⟩
  rename_i hne
  refine .inr ⟨hne, ?_⟩
  have hdir : Builds p s₁ (s₁.setProc p { s₁.procs p with pageDir := kernelDir }) :=
    .setProc s₁ p rfl
  split at h
  · obtain ⟨rfl, rfl⟩ := Prod.mk.inj (Except.ok.inj h)
    exact ⟨_, hdir.trans (.setKernel p _ _), .inl ⟨rfl, rfl⟩⟩
  obtain ⟨⟨task, s₂⟩, htask, h⟩ := exists_of_bind h
  have hbuilt := hdir.trans (taskKcreate_builds htask)
  dsimp only at h
  split at h
  · obtain ⟨rfl, rfl⟩ := Prod.mk.inj (Except.ok.inj h)
    exact ⟨_, hbuilt.trans (.setKernel p _ _), .inl ⟨rfl, rfl⟩⟩
  obtain ⟨rfl, rfl⟩ := Prod.mk.inj (Except.ok.inj h)
  refine ⟨_, ?_, .inr ⟨rfl, rfl⟩⟩
  exact hbuilt.trans (.setProc _ _ rfl)

/-- A spawn with a process is an insertion into the list it found. -/
theorem SpawnEnds.insert {filetype : ProcessFiletype} (h : s.SpawnEnds filetype self s')
    (hself : self ≠ 0) : ∃ m, KeepsLinks self s m ∧ s' = m.processListInsert self := by
  obtain ⟨p, s₁, halloc, ⟨-, hzero, -⟩ | ⟨hne, m, hbuilt, ⟨hzero, -⟩ | ⟨rfl, hinsert⟩⟩⟩ := h
  · exact absurd hzero hself
  · exact absurd hzero hself
  · refine ⟨m, ?_, hinsert⟩
    cases processAlloc_returns halloc with
    | failed => exact absurd rfl hself
    | allocated _ k k' proc =>
        have halloc' : KeepsLinks self s ((s.setKernel k').setProc self proc) :=
          (KeepsLinks.setKernel self s k').trans (.setProc _ _ _)
        have hcounted : KeepsLinks self ((s.setKernel k').setProc self proc)
            { (s.setKernel k').setProc self proc with nextPid := s.nextPid + 1 } :=
          .of_procs_eq rfl rfl rfl
        exact (halloc'.trans hcounted).trans hbuilt.keepsLinks

/-- `process_exit` is a removal from the list, and work on the kernel. -/
theorem processExit_remove (h : s.processExit self = .ok s') :
    ∃ k, s' = (s.processListRemove self).setKernel k := by
  simp only [processExit] at h
  split at h
  · cases h
  · simp only [Except.ok.injEq] at h
    exact ⟨_, h.symm⟩

/-! ## The links after an operation -/

theorem next_setProc (s : Machine) (p : Nat) (proc : Process) (q : Nat) :
    ((s.setProc p proc).procs q).next = if q = p then proc.next else (s.procs q).next := by
  simp only [setProc]
  split <;> rfl

theorem prev_setProc (s : Machine) (p : Nat) (proc : Process) (q : Nat) :
    ((s.setProc p proc).procs q).prev = if q = p then proc.prev else (s.procs q).prev := by
  simp only [setProc]
  split <;> rfl

/-- `p->next = v`, unless `p` is null. -/
def linkNext (s : Machine) (p v : Nat) : Machine :=
  if p ≠ 0 then s.setProc p { s.procs p with next := v } else s

/-- `p->prev = v`, unless `p` is null. -/
def linkPrev (s : Machine) (p v : Nat) : Machine :=
  if p ≠ 0 then s.setProc p { s.procs p with prev := v } else s

theorem linkNext_next (s : Machine) (p v q : Nat) :
    ((s.linkNext p v).procs q).next = if q = p ∧ q ≠ 0 then v else (s.procs q).next := by
  unfold linkNext
  split
  · rename_i hp
    rw [next_setProc]
    by_cases hq : q = p
    · rw [if_pos hq, if_pos ⟨hq, hq ▸ hp⟩]
    · rw [if_neg hq, if_neg fun h => hq h.1]
  · rename_i hp
    rw [if_neg fun h : q = p ∧ q ≠ 0 => hp (h.1 ▸ h.2)]

theorem linkNext_prev (s : Machine) (p v q : Nat) :
    ((s.linkNext p v).procs q).prev = (s.procs q).prev := by
  unfold linkNext
  split
  · rw [prev_setProc]
    split
    · rename_i hq
      rw [hq]
    · rfl
  · rfl

theorem linkPrev_prev (s : Machine) (p v q : Nat) :
    ((s.linkPrev p v).procs q).prev = if q = p ∧ q ≠ 0 then v else (s.procs q).prev := by
  unfold linkPrev
  split
  · rename_i hp
    rw [prev_setProc]
    by_cases hq : q = p
    · rw [if_pos hq, if_pos ⟨hq, hq ▸ hp⟩]
    · rw [if_neg hq, if_neg fun h => hq h.1]
  · rename_i hp
    rw [if_neg fun h : q = p ∧ q ≠ 0 => hp (h.1 ▸ h.2)]

theorem linkPrev_next (s : Machine) (p v q : Nat) :
    ((s.linkPrev p v).procs q).next = (s.procs q).next := by
  unfold linkPrev
  split
  · rw [next_setProc]
    split
    · rename_i hq
      rw [hq]
    · rfl
  · rfl

theorem linkNext_processes (s : Machine) (p v : Nat) :
    (s.linkNext p v).processes = s.processes := by
  unfold linkNext
  split <;> rfl

theorem linkPrev_processes (s : Machine) (p v : Nat) :
    (s.linkPrev p v).processes = s.processes := by
  unfold linkPrev
  split <;> rfl

/-- With a current process, `_process_list_insert` puts the new one in front. -/
theorem processListInsert_of_curr (hcurr : s.currProcess ≠ 0) :
    s.processListInsert self =
      { (s.setProc self { s.procs self with prev := 0, next := s.processes }).linkPrev
          s.processes self with processes := self } := by
  simp only [processListInsert, if_neg hcurr]
  rfl

/-- Without one, the new process is current and the whole list. -/
theorem processListInsert_of_not_curr (hcurr : s.currProcess = 0) :
    s.processListInsert self =
      { s.setProc self { s.procs self with prev := 0, next := 0 } with
        currProcess := self, processes := self } := by
  simp only [processListInsert, if_pos hcurr]

/-- The list part of `process_exit` links the two neighbours. -/
theorem processListRemove_links :
    (∀ q, ((s.processListRemove self).procs q).next =
      if q = (s.procs self).prev ∧ q ≠ 0 then (s.procs self).next else (s.procs q).next) ∧
    (∀ q, ((s.processListRemove self).procs q).prev =
      if q = (s.procs self).next ∧ q ≠ 0 then (s.procs self).prev else (s.procs q).prev) ∧
    (s.processListRemove self).processes =
      if s.processes = self then (s.procs self).next else s.processes := by
  obtain ⟨m, hm⟩ : ∃ m, m = (s.linkNext (s.procs self).prev (s.procs self).next).linkPrev
      (s.procs self).next (s.procs self).prev := ⟨_, rfl⟩
  have hremove : (s.processListRemove self).procs = m.procs ∧
      (s.processListRemove self).processes =
        if m.processes = self then (s.procs self).next else m.processes := by
    obtain ⟨m₁, hm₁⟩ : ∃ m₁, m₁ = if m.processes = self
      then { m with processes := (s.procs self).next } else m := ⟨_, rfl⟩
    have heq : s.processListRemove self =
        if m₁.currProcess = self then { m₁ with currProcess := 0 } else m₁ := by
      rw [hm₁, hm]
      rfl
    rw [heq, hm₁]
    split <;> split <;> exact ⟨rfl, rfl⟩
  rw [hremove.1, hremove.2, hm, linkPrev_processes, linkNext_processes]
  refine ⟨fun q => ?_, fun q => ?_, rfl⟩
  · rw [linkPrev_next, linkNext_next]
  · rw [linkPrev_prev, linkNext_prev]

end Machine

/-! ## Runs -/

/-- A machine and its live processes, user processes and kernel threads. -/
structure Processes where
  machine : Machine
  live : List Nat

/-- What happens to the list.  `m` is the machine a spawn has made when it comes to
    its insertion, or what any other code makes of the machine (a spawn that fails
    is other code); `k` is the kernel after the rest of an exit. -/
inductive ListEvent
  | spawn (self : Nat) (m : Machine)
  | kspawn (self : Nat) (m : Machine)
  | setCurr (self : Nat)
  | exit (self : Nat) (k : Kernel)
  | other (m : Machine)

namespace Processes

variable {s s' : Processes} {self : Nat}

/-- The list variables and the links of the live processes are those of `s`. -/
def keepsLive (s : Processes) (m : Machine) : Prop :=
  m.processes = s.machine.processes ∧ m.currProcess = s.machine.currProcess ∧
    ∀ q ∈ s.live, (m.procs q).prev = (s.machine.procs q).prev ∧
      (m.procs q).next = (s.machine.procs q).next

instance (s : Processes) (m : Machine) : Decidable (s.keepsLive m) :=
  inferInstanceAs (Decidable (_ ∧ _ ∧ ∀ q ∈ s.live, _ ∧ _))

/-- The new process is at an address of its own. -/
def insertsNew (s : Processes) (self : Nat) (m : Machine) : Prop :=
  self ≠ 0 ∧ self ∉ s.live ∧ s.keepsLive m

instance (s : Processes) (self : Nat) (m : Machine) : Decidable (s.insertsNew self m) :=
  inferInstanceAs (Decidable (_ ∧ _ ∧ _))

/-- One event. -/
def step (s : Processes) : ListEvent → Option Processes
  | .spawn self m | .kspawn self m =>
      if s.insertsNew self m then some ⟨m.processListInsert self, self :: s.live⟩ else none
  | .setCurr self =>
      if self ∈ s.live then some ⟨s.machine.processSetCurr self, s.live⟩ else none
  | .exit self k =>
      if self ∈ s.live then
        some ⟨(s.machine.processListRemove self).setKernel k, s.live.erase self⟩
      else none
  | .other m => if s.keepsLive m then some ⟨m, s.live⟩ else none

theorem keepsLive_of_keepsLinks {m : Machine} (h : Machine.KeepsLinks self s.machine m)
    (hfresh : self ∉ s.live) : s.keepsLive m := by
  refine ⟨h.processes, h.currProcess, fun q hq => ?_⟩
  have hne : q ≠ self := fun heq => hfresh (heq ▸ hq)
  exact ⟨h.prev q hne, h.next q hne⟩

/-- A `process_spawn` that returns a process is a `spawn` event. -/
theorem step_of_processSpawn {file : Program} {m' : Machine}
    (h : s.machine.processSpawn file = .ok (self, m')) (hself : self ≠ 0)
    (hfresh : self ∉ s.live) : ∃ m, s.step (.spawn self m) = some ⟨m', self :: s.live⟩ := by
  obtain ⟨m, hm, rfl⟩ := (Machine.processSpawn_ends h).insert hself
  exact ⟨m, if_pos ⟨hself, hfresh, keepsLive_of_keepsLinks hm hfresh⟩⟩

/-- A `process_kspawn` that returns a process is a `kspawn` event. -/
theorem step_of_processKspawn {kernelDir : Nat} {m' : Machine}
    (h : s.machine.processKspawn kernelDir = .ok (self, m')) (hself : self ≠ 0)
    (hfresh : self ∉ s.live) : ∃ m, s.step (.kspawn self m) = some ⟨m', self :: s.live⟩ := by
  obtain ⟨m, hm, rfl⟩ := (Machine.processKspawn_ends h).insert hself
  exact ⟨m, if_pos ⟨hself, hfresh, keepsLive_of_keepsLinks hm hfresh⟩⟩

/-- A `process_exit` that returns is an `exit` event. -/
theorem step_of_processExit {m' : Machine} (h : s.machine.processExit self = .ok m')
    (hlive : self ∈ s.live) :
    ∃ k, s.step (.exit self k) = some ⟨m', s.live.erase self⟩ := by
  obtain ⟨k, rfl⟩ := Machine.processExit_remove h
  exact ⟨k, if_pos hlive⟩

/-- The `next` links. -/
def next (s : Processes) (p : Nat) : Nat := (s.machine.procs p).next

/-- The `prev` links. -/
def prev (s : Processes) (p : Nat) : Nat := (s.machine.procs p).prev

/-- The list that starts at `processes`: the processes `l`, each linked to the one
    behind and the one before it, with null pointers at both ends. -/
structure ListIs (s : Processes) (l : List Nat) : Prop where
  head : s.machine.processes = l.headD 0
  links : Linked s.next s.prev 0 l 0
  ne_zero : 0 ∉ l

/-- The list holds each live process once and no other. -/
def Listed (s : Processes) : Prop := ∃ l, s.ListIs l ∧ l.Nodup ∧ ∀ p, p ∈ l ↔ p ∈ s.live

/-- The list, and no live process recorded twice. -/
structure Inv (s : Processes) (l : List Nat) : Prop extends ListIs s l where
  nodup : l.Nodup
  perm : l.Perm s.live

theorem Inv.listed {l : List Nat} (h : s.Inv l) : s.Listed :=
  ⟨l, h.toListIs, h.nodup, fun _ => h.perm.mem_iff⟩

/-- The links of the listed processes are all that counts. -/
theorem Inv.of_keepsLive {l : List Nat} {m : Machine} (h : s.Inv l) (hkeeps : s.keepsLive m) :
    Inv ⟨m, s.live⟩ l := by
  obtain ⟨hprocesses, -, hlinks⟩ := hkeeps
  have hlive : ∀ q ∈ l, q ∈ s.live := fun q => h.perm.mem_iff.mp
  refine ⟨⟨hprocesses.trans h.head, h.links.congr (fun q hq => ?_) (fun q hq => ?_), h.ne_zero⟩,
    h.nodup, h.perm⟩
  · exact (hlinks q (hlive q hq)).2
  · exact (hlinks q (hlive q hq)).1

/-- An insertion while there is a current process goes to the front. -/
theorem Inv.insert {l : List Nat} (h : s.Inv l) (hself : self ≠ 0) (hfresh : self ∉ s.live)
    (hcurr : s.machine.currProcess ≠ 0) :
    Inv ⟨s.machine.processListInsert self, self :: s.live⟩ (self :: l) := by
  have hnot : self ∉ l := fun hin => hfresh (h.perm.mem_iff.mp hin)
  rw [Machine.processListInsert_of_curr hcurr]
  refine ⟨⟨rfl, ?_, ?_⟩, List.nodup_cons.mpr ⟨hnot, h.nodup⟩, h.perm.cons self⟩
  · have hne : s.machine.processes ≠ self ∨ s.machine.processes = 0 := by
      rw [h.head]
      cases l with
      | nil => exact .inr rfl
      | cons a l => exact .inl fun heq => hnot (heq ▸ List.mem_cons_self)
    refine linked_cons.mpr ⟨?_, ?_, h.links.enter (fun q hq => ?_) (fun q hq => ?_) fun q hq => ?_⟩
    · show ((Machine.linkPrev _ _ _).procs self).prev = 0
      rw [Machine.linkPrev_prev, Machine.prev_setProc, if_pos rfl, if_neg]
      rintro ⟨heq, -⟩
      exact hne.elim (fun h => h heq.symm) (fun h => hself (heq.trans h))
    · show ((Machine.linkPrev _ _ _).procs self).next = l.headD 0
      rw [Machine.linkPrev_next, Machine.next_setProc, if_pos rfl]
      exact h.head
    · have hq' : q ≠ self := fun heq => hnot (heq ▸ hq)
      show ((Machine.linkPrev _ _ _).procs q).next = _
      rw [Machine.linkPrev_next, Machine.next_setProc, if_neg hq']
      rfl
    · show ((Machine.linkPrev _ _ _).procs q).prev = self
      cases l with
      | nil => cases hq
      | cons a l =>
          have hqa : q = a := (Option.some.inj hq).symm
          have ha : a ≠ 0 := fun h0 => h.ne_zero (h0 ▸ List.mem_cons_self)
          rw [Machine.linkPrev_prev, if_pos ⟨by rw [hqa, h.head]; rfl, hqa ▸ ha⟩]
    · have hql : q ∈ l := List.mem_of_mem_tail hq
      have hq' : q ≠ self := fun heq => hnot (heq ▸ hql)
      show ((Machine.linkPrev _ _ _).procs q).prev = _
      rw [Machine.linkPrev_prev, Machine.prev_setProc, if_neg hq', if_neg]
      · rfl
      · rintro ⟨heq, -⟩
        -- the head of the list is not in its tail
        cases l with
        | nil => cases hql
        | cons a l =>
            have hqa : q = a := heq.trans h.head
            exact (List.nodup_cons.mp h.nodup).1 (hqa ▸ hq)
  · intro h0
    rcases List.mem_cons.mp h0 with heq | hin
    · exact hself heq.symm
    · exact h.ne_zero hin

/-- An insertion without a current process starts a new list. -/
theorem inv_first (hself : self ≠ 0) (hlive : s.live = [])
    (hcurr : s.machine.currProcess = 0) :
    Inv ⟨s.machine.processListInsert self, self :: s.live⟩ [self] := by
  rw [Machine.processListInsert_of_not_curr hcurr, hlive]
  refine ⟨⟨rfl, linked_cons.mpr ⟨?_, ?_, trivial⟩, ?_⟩, List.nodup_singleton _, .refl _⟩
  · show ((Machine.setProc _ _ _).procs self).prev = 0
    rw [Machine.prev_setProc, if_pos rfl]
  · show ((Machine.setProc _ _ _).procs self).next = 0
    rw [Machine.next_setProc, if_pos rfl]
  · rw [List.mem_singleton]
    exact hself.symm

/-- An exit links the two neighbours of the process. -/
theorem Inv.remove {l : List Nat} (h : s.Inv l) (hlive : self ∈ s.live) (k : Kernel) :
    Inv ⟨(s.machine.processListRemove self).setKernel k, s.live.erase self⟩ (l.erase self) := by
  obtain ⟨hnext, hprev, hprocesses⟩ :=
    Machine.processListRemove_links (s := s.machine)
  obtain ⟨l₁, l₂, rfl⟩ := List.append_of_mem (h.perm.mem_iff.mpr hlive)
  have hself₁ : self ∉ l₁ := fun hin =>
    (List.nodup_append.mp h.nodup).2.2 self hin self List.mem_cons_self rfl
  have herase : (l₁ ++ self :: l₂).erase self = l₁ ++ l₂ := by
    rw [List.erase_append_right _ hself₁, List.erase_cons_head]
  have hzero : ∀ q ∈ l₁ ++ self :: l₂, q ≠ 0 := fun q hq h0 => h.ne_zero (h0 ▸ hq)
  rw [herase]
  refine ⟨⟨?_, ?_, fun h0 => ?_⟩, herase ▸ h.nodup.erase self, herase ▸ h.perm.erase self⟩
  · show (s.machine.processListRemove self).processes = _
    rw [hprocesses, h.head]
    cases l₁ with
    | nil =>
        have hlinks := h.links
        rw [List.nil_append, linked_cons] at hlinks
        rw [if_pos (by rfl)]
        exact hlinks.2.1
    | cons a l₁ =>
        have hne : ((a :: l₁) ++ self :: l₂).headD 0 ≠ self := fun heq =>
          hself₁ (heq ▸ List.mem_cons_self)
        rw [if_neg hne]
        rfl
  · refine h.links.unlink h.nodup h.ne_zero h.ne_zero (fun q hq => ?_) (fun q hq => ?_)
    · refine (hnext q).trans ?_
      simp only [hzero q hq, ne_eq, not_false_eq_true, and_true]
      rfl
    · refine (hprev q).trans ?_
      simp only [hzero q hq, ne_eq, not_false_eq_true, and_true]
      rfl
  · refine hzero 0 ?_ rfl
    rw [← herase] at h0
    exact List.mem_of_mem_erase h0

/-- At boot there is no process. -/
def boot (m : Machine) : Processes := ⟨{ m with processes := 0, currProcess := 0 }, []⟩

theorem inv_boot (m : Machine) : (boot m).Inv [] :=
  ⟨⟨rfl, trivial, List.not_mem_nil⟩, List.nodup_nil, .refl _⟩

/-- An insertion finds a current process, or no process at all. -/
def hasCurrent (s : Processes) : ListEvent → Prop
  | .spawn _ _ | .kspawn _ _ => s.machine.currProcess ≠ 0 ∨ s.live = []
  | _ => True

theorem Inv.insertNew {l : List Nat} {m : Machine} (h : s.Inv l)
    (hcurr : s.machine.currProcess ≠ 0 ∨ s.live = []) (hnew : s.insertsNew self m) :
    ∃ l', Inv ⟨m.processListInsert self, self :: s.live⟩ l' := by
  obtain ⟨hself, hfresh, hkeeps⟩ := hnew
  have hm := h.of_keepsLive hkeeps
  by_cases hzero : m.currProcess = 0
  · have hlive : s.live = [] := hcurr.resolve_left fun hne => hne (hkeeps.2.1 ▸ hzero)
    exact ⟨[self], inv_first (s := ⟨m, s.live⟩) hself hlive hzero⟩
  · exact ⟨self :: l, hm.insert hself hfresh hzero⟩

theorem Inv.step {e : ListEvent} {l : List Nat} (h : s.Inv l) (hcurr : s.hasCurrent e)
    (hstep : s.step e = some s') : ∃ l', s'.Inv l' := by
  cases e with
  | spawn self m =>
      simp only [Processes.step] at hstep
      split at hstep
      · rename_i hnew
        exact Option.some.inj hstep ▸ h.insertNew hcurr hnew
      · cases hstep
  | kspawn self m =>
      simp only [Processes.step] at hstep
      split at hstep
      · rename_i hnew
        exact Option.some.inj hstep ▸ h.insertNew hcurr hnew
      · cases hstep
  | setCurr self =>
      simp only [Processes.step] at hstep
      split at hstep
      · have hprocs : (s.machine.processSetCurr self).procs = s.machine.procs ∧
            (s.machine.processSetCurr self).processes = s.machine.processes := by
          unfold Machine.processSetCurr
          split <;> exact ⟨rfl, rfl⟩
        rw [← Option.some.inj hstep]
        refine ⟨l, ⟨hprocs.2.trans h.head, h.links.congr (fun q _ => ?_) (fun q _ => ?_), h.ne_zero⟩,
          h.nodup, h.perm⟩
        · exact congrArg Process.next (congrFun hprocs.1 q)
        · exact congrArg Process.prev (congrFun hprocs.1 q)
      · cases hstep
  | exit self k =>
      simp only [Processes.step] at hstep
      split at hstep
      · rename_i hlive
        exact ⟨_, Option.some.inj hstep ▸ h.remove hlive k⟩
      · cases hstep
  | other m =>
      simp only [Processes.step] at hstep
      split at hstep
      · rename_i hkeeps
        exact ⟨l, Option.some.inj hstep ▸ h.of_keepsLive hkeeps⟩
      · cases hstep

/-- The list is right in every run whose insertions find a current process, or no
    process at all. -/
theorem listed_of_hasCurrent {m : Machine} {es : List ListEvent}
    (hrun : Runs step hasCurrent (boot m) es s) : s.Listed := by
  obtain ⟨l, h⟩ := hrun.invariant (fun s => ∃ l, s.Inv l) ⟨[], inv_boot m⟩
    fun _ _ _ ⟨_, h⟩ hcurr hstep => h.step hcurr hstep
  exact h.listed

instance (s : Processes) : DecidablePred s.hasCurrent
  | .spawn _ _ => inferInstanceAs (Decidable (_ ∨ _))
  | .kspawn _ _ => inferInstanceAs (Decidable (_ ∨ _))
  | .setCurr _ => inferInstanceAs (Decidable True)
  | .exit _ _ => inferInstanceAs (Decidable True)
  | .other _ => inferInstanceAs (Decidable True)

/-- The boot sequence: the idle thread, current, and the shell. -/
def bootProcesses : List ListEvent :=
  [.kspawn 1 Machine.coldMachine, .setCurr 1, .spawn 2 (Machine.coldMachine.processListInsert 1)]

theorem listed_bootProcesses : ∃ s, Runs step hasCurrent (boot Machine.coldMachine) bootProcesses s ∧
    s.Listed := by
  have hsome : (exec step hasCurrent (boot Machine.coldMachine) bootProcesses).isSome = true := by
    decide +kernel
  obtain ⟨s, hs⟩ := Option.isSome_iff_exists.mp hsome
  exact ⟨s, runs_of_exec hs, listed_of_hasCurrent (runs_of_exec hs)⟩

/-- The shell, switched to, exits and is spawned again: `_sys_exit` on the shell. -/
def shellExits : List ListEvent :=
  let m := (Machine.coldMachine.processListInsert 1).processListInsert 2
  bootProcesses ++ [.setCurr 2, .exit 2 Machine.coldMachine.kernel,
    .spawn 3 (((m.processSetCurr 2).processListRemove 2).setKernel Machine.coldMachine.kernel)]

/-- The idle thread is no longer in the list after the shell has been spawned again. -/
theorem exists_not_listed : ¬ ∀ (m : Machine) (es : List ListEvent) (s : Processes),
    Runs step always (boot m) es s → s.Listed := by
  intro h
  have hlost : ∃ s ∈ exec step always (boot Machine.coldMachine) shellExits,
      s.machine.processes = 3 ∧ s.next 3 = 0 ∧ 1 ∈ s.live := by
    decide +kernel
  obtain ⟨s, hs, hhead, hnext, hidle⟩ := hlost
  obtain ⟨l, hl, -, hmem⟩ := h _ shellExits s (runs_of_exec hs)
  have hin : 1 ∈ l := (hmem 1).mpr hidle
  -- the list is the new shell alone
  cases l with
  | nil => cases hin
  | cons a l =>
      have ha : a = 3 := hl.head.symm.trans hhead
      obtain ⟨-, htail, -⟩ := linked_cons.mp hl.links
      rw [ha, hnext] at htail
      cases l with
      | nil =>
          rw [ha, List.mem_singleton] at hin
          cases hin
      | cons b l =>
          have hb : b = 0 := htail.symm
          exact hl.ne_zero (hb ▸ List.mem_cons_of_mem _ List.mem_cons_self)

end Processes

end Icarius
