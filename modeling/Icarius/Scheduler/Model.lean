/-
  Icarius.Scheduler.Model

  The scheduler and everything that moves a task between its three places: the
  round-robin ready queue (`scheduler/rr.c`), the wait queue
  (`scheduler/wq.c`), the task states (`process/task.c`), the process table
  entries they hang off (`process/process.c`), the two blocking system calls
  (`syscall.c`) and the timer and keyboard interrupt handlers
  (`arch/x86/idt.c`).

  All handlers run behind interrupt gates, so one event is one step.  Tasks and
  processes are heap objects: a pointer is a `Nat`, the object it points to is
  the value of the map `tasks` or `procs` there.  Memory that `kfree` gave back
  keeps its contents until the address is handed out again.

  Saved registers, page directories and stacks play no part in where a task is
  kept and are left out here.
-/

import Icarius.Ds.Fifo
import Icarius.Lib.Run

namespace Icarius.Scheduler

open Icarius.Lib

/-- `task_t*` -/
abbrev TaskPtr := Nat

/-- `process_t*` -/
abbrev ProcPtr := Nat

/-- `task_state_t` -/
inductive TaskState
  | ready
  | run
  | block
  | terminate
  deriving DecidableEq, Repr

/-- `wait_reason_t` -/
inductive WaitReason
  | none
  | keyboard
  | noUse
  deriving DecidableEq, Repr

/-- `task_t`, the fields the scheduler looks at. -/
structure Task where
  parent : ProcPtr
  state : TaskState
  waitingOn : WaitReason

/-- `process_t`, the fields the scheduler and the keyboard path look at. -/
structure Process where
  filename : List Char
  tasks : Nat → Option TaskPtr
  taskCount : UInt8
  keyboardBuffer : Fifo

/-- `_ready_queue` with its indices -/
abbrev ReadyQueue := Ring (Option TaskPtr) rrMax

/-- `_wait_queue` with its indices -/
abbrev WaitQueue := Ring (Option TaskPtr) waitMax

/-- The static variables of the modules above and the objects they point to. -/
structure Sched where
  tasks : TaskPtr → Task
  procs : ProcPtr → Process
  readyQueue : ReadyQueue
  waitQueue : WaitQueue
  /-- `curr_task` -/
  currTask : Option TaskPtr
  /-- `curr_process` -/
  currProcess : Option ProcPtr
  /-- `_foreground_process` -/
  foreground : Option ProcPtr
  /-- Processes spawned and not yet exited. -/
  live : List ProcPtr
  /-- History: every task created so far. -/
  created : List TaskPtr
  /-- History: every task that has exited. -/
  exited : List TaskPtr

namespace Sched

/-! ## Object updates -/

/-- Overwrite the task object behind `t`. -/
def setTask (s : Sched) (t : TaskPtr) (v : Task) : Sched :=
  { s with tasks := fun x => if x = t then v else s.tasks x }

/-- Overwrite the process object behind `p`. -/
def setProc (s : Sched) (p : ProcPtr) (v : Process) : Sched :=
  { s with procs := fun x => if x = p then v else s.procs x }

/-- `t->state = st` -/
def setState (s : Sched) (t : TaskPtr) (st : TaskState) : Sched :=
  s.setTask t { s.tasks t with state := st }

/-- Replace the ready queue. -/
def setReady (s : Sched) (q : ReadyQueue) : Sched := { s with readyQueue := q }

/-- Replace the wait queue. -/
def setWait (s : Sched) (q : WaitQueue) : Sched := { s with waitQueue := q }

/-! A task update is visible in the task map only. -/

@[simp] theorem setTask_tasks_self (s : Sched) (t : TaskPtr) (v : Task) :
    (s.setTask t v).tasks t = v := by simp [setTask]

theorem setTask_tasks_ne (s : Sched) {t x : TaskPtr} (v : Task) (h : x ≠ t) :
    (s.setTask t v).tasks x = s.tasks x := by simp [setTask, h]

@[simp] theorem setTask_procs (s : Sched) (t : TaskPtr) (v : Task) :
    (s.setTask t v).procs = s.procs := rfl

@[simp] theorem setTask_readyQueue (s : Sched) (t : TaskPtr) (v : Task) :
    (s.setTask t v).readyQueue = s.readyQueue := rfl

@[simp] theorem setTask_waitQueue (s : Sched) (t : TaskPtr) (v : Task) :
    (s.setTask t v).waitQueue = s.waitQueue := rfl

@[simp] theorem setTask_currTask (s : Sched) (t : TaskPtr) (v : Task) :
    (s.setTask t v).currTask = s.currTask := rfl

@[simp] theorem setTask_created (s : Sched) (t : TaskPtr) (v : Task) :
    (s.setTask t v).created = s.created := rfl

@[simp] theorem setTask_exited (s : Sched) (t : TaskPtr) (v : Task) :
    (s.setTask t v).exited = s.exited := rfl

@[simp] theorem setReady_tasks (s : Sched) (q : ReadyQueue) :
    (s.setReady q).tasks = s.tasks := rfl

@[simp] theorem setReady_procs (s : Sched) (q : ReadyQueue) :
    (s.setReady q).procs = s.procs := rfl

@[simp] theorem setReady_readyQueue (s : Sched) (q : ReadyQueue) :
    (s.setReady q).readyQueue = q := rfl

@[simp] theorem setReady_waitQueue (s : Sched) (q : ReadyQueue) :
    (s.setReady q).waitQueue = s.waitQueue := rfl

@[simp] theorem setReady_currTask (s : Sched) (q : ReadyQueue) :
    (s.setReady q).currTask = s.currTask := rfl

@[simp] theorem setReady_created (s : Sched) (q : ReadyQueue) :
    (s.setReady q).created = s.created := rfl

@[simp] theorem setReady_exited (s : Sched) (q : ReadyQueue) :
    (s.setReady q).exited = s.exited := rfl

@[simp] theorem setWait_tasks (s : Sched) (q : WaitQueue) :
    (s.setWait q).tasks = s.tasks := rfl

@[simp] theorem setWait_procs (s : Sched) (q : WaitQueue) :
    (s.setWait q).procs = s.procs := rfl

@[simp] theorem setWait_readyQueue (s : Sched) (q : WaitQueue) :
    (s.setWait q).readyQueue = s.readyQueue := rfl

@[simp] theorem setWait_waitQueue (s : Sched) (q : WaitQueue) :
    (s.setWait q).waitQueue = q := rfl

@[simp] theorem setWait_currTask (s : Sched) (q : WaitQueue) :
    (s.setWait q).currTask = s.currTask := rfl

@[simp] theorem setWait_created (s : Sched) (q : WaitQueue) :
    (s.setWait q).created = s.created := rfl

@[simp] theorem setWait_exited (s : Sched) (q : WaitQueue) :
    (s.setWait q).exited = s.exited := rfl

/-! ## task.c -/

/-- `task_set_block` -/
def taskSetBlock (s : Sched) (t : TaskPtr) : Sched := s.setState t .block

/-- `task_block_on` -/
def taskBlockOn (s : Sched) (t : TaskPtr) (reason : WaitReason) : Sched :=
  s.setTask t { s.tasks t with waitingOn := reason }

/-- `task_set_unblock` -/
def taskSetUnblock (s : Sched) (t : TaskPtr) : Sched :=
  if (s.tasks t).state = .block then
    s.setTask t { s.tasks t with waitingOn := .none, state := .ready }
  else s

/-- `task_set_curr` -/
def taskSetCurr (s : Sched) (t : Option TaskPtr) : Sched :=
  match t with
  | none => s
  | some t => { s with currTask := some t }

/-- `task_exit`: one thread fewer, and its slot in the thread table is cleared. -/
def taskExit (s : Sched) (t : TaskPtr) : Sched :=
  let parent := (s.tasks t).parent
  let proc := s.procs parent
  let slot := (List.range processMaxThread).find? fun i => proc.tasks i == some t
  s.setProc parent
    { proc with
      taskCount := proc.taskCount - 1
      tasks := fun i => if some i = slot then none else proc.tasks i }

/-- `task_switch`: the context switch itself (`asm_enter_task`) leaves for the
    task's own code and does not return here. -/
def taskSwitch (s : Sched) (next : TaskPtr) : Sched :=
  let s := s.setState next .run
  { s with currTask := some next, currProcess := some (s.tasks next).parent }

/-! ## rr.c -/

/-- `_rr_enqueue` -/
def rrEnqueue (s : Sched) (t : TaskPtr) : Sched :=
  if h : s.readyQueue.count < rrMax then
    if (s.tasks t).state = .ready then
      s.setReady (s.readyQueue.push (some t) h)
    else s
  else s

/-- `_rr_dequeue`: the task removed, and the state without it. -/
def rrDequeue (s : Sched) : Option (TaskPtr × Sched) :=
  if h : 0 < s.readyQueue.count then
    match s.readyQueue.front with
    | none => none
    | some t => some (t, s.setReady (s.readyQueue.pop none h))
  else none

/-- `rr_add`, the scheduler's `add_cb` -/
def rrAdd (s : Sched) (t : TaskPtr) : Sched := s.rrEnqueue t

/-- The end of `rr_yield`: take the next task and switch to it.  With an empty
    queue `task_switch` gets a null pointer and returns. -/
def rrSwitchNext (s : Sched) : Sched :=
  match s.rrDequeue with
  | none => s
  | some (next, s) => s.taskSwitch next

/-- The first lines of `rr_yield`: its local `curr`, and the state in which `curr->state` is
    read.  With no current task the code makes the current process's first task current, but
    goes on with its own null pointer.  A missing current process is dereferenced, which has
    no defined outcome. -/
def rrYieldCurr (s : Sched) : Option (Option TaskPtr × Sched) :=
  match s.currTask with
  | none =>
      match s.currProcess with
      | none => none
      | some p => some (none, s.taskSetCurr ((s.procs p).tasks 0))
  | some curr => some (some curr, s)

/-- The test of `curr->state` in `rr_yield`.  Whatever a null `curr` reads as a state,
    `_rr_enqueue` refuses it. -/
def rrYieldEnqueue (curr : Option TaskPtr) (s : Sched) : Sched :=
  match curr with
  | none => s
  | some curr =>
      if (s.tasks curr).state = .run then (s.setState curr .ready).rrEnqueue curr else s

/-- `rr_yield` up to `_rr_dequeue` -/
def rrRequeue (s : Sched) : Option Sched :=
  match s.rrYieldCurr with
  | none => none
  | some (curr, s) => some (s.rrYieldEnqueue curr)

/-- `rr_yield` -/
def rrYield (s : Sched) : Option Sched := s.rrRequeue.map rrSwitchNext

/-- What `rr_yield` can do before `_rr_dequeue`. -/
theorem rrRequeue_cases {s s₁ : Sched} (h : s.rrRequeue = some s₁) :
    (s.currTask = none ∧ ∃ p, s.currProcess = some p ∧
      s₁ = s.taskSetCurr ((s.procs p).tasks 0)) ∨
    (∃ curr, s.currTask = some curr ∧ (s.tasks curr).state = .run ∧
      s₁ = (s.setState curr .ready).rrEnqueue curr) ∨
    ∃ curr, s.currTask = some curr ∧ (s.tasks curr).state ≠ .run ∧ s₁ = s := by
  rw [rrRequeue, rrYieldCurr] at h
  cases hcurr : s.currTask with
  | none =>
      rw [hcurr] at h
      cases hproc : s.currProcess with
      | none =>
          rw [hproc] at h
          cases h
      | some p =>
          rw [hproc] at h
          exact .inl ⟨rfl, p, rfl, (Option.some.inj h).symm⟩
  | some curr =>
      rw [hcurr] at h
      have hs₁ : s.rrYieldEnqueue (some curr) = s₁ := Option.some.inj h
      rw [← hs₁, rrYieldEnqueue]
      by_cases hrun : (s.tasks curr).state = .run
      · exact .inr (.inl ⟨curr, rfl, hrun, if_pos hrun⟩)
      · exact .inr (.inr ⟨curr, rfl, hrun, if_neg hrun⟩)

/-- With a current task a yield comes to `_rr_dequeue`. -/
theorem rrRequeue_of_curr {s : Sched} {curr : TaskPtr} (h : s.currTask = some curr) :
    s.rrRequeue = some (s.rrYieldEnqueue (some curr)) := by
  rw [rrRequeue, rrYieldCurr, h]

/-! ## wq.c -/

/-- `_wq_enqueue` -/
def wqEnqueue (s : Sched) (t : TaskPtr) : Sched :=
  if h : s.waitQueue.count < waitMax then
    if (s.tasks t).state = .block then
      s.setWait (s.waitQueue.push (some t) h)
    else s
  else s

/-- `_wq_dequeue` -/
def wqDequeue (s : Sched) : Option (TaskPtr × Sched) :=
  if h : 0 < s.waitQueue.count then
    match s.waitQueue.front with
    | none => none
    | some t => some (t, s.setWait (s.waitQueue.pop none h))
  else none

/-- The loop of `wq_wakeup`, `i` rounds before its end.  A null task would be
    dereferenced. -/
def wqWakeupLoop (reason : WaitReason) : Nat → Sched → Option Sched
  | 0, s => some s
  | i + 1, s =>
      match s.wqDequeue with
      | none => none
      | some (t, s) =>
          if (s.tasks t).waitingOn = reason then
            wqWakeupLoop reason i ((s.taskSetUnblock t).rrAdd t)
          else wqWakeupLoop reason i (s.wqEnqueue t)

/-- `wq_wakeup` -/
def wqWakeup (s : Sched) (reason : WaitReason) : Option Sched :=
  wqWakeupLoop reason s.waitQueue.count s

/-! ## process.c and syscall.c -/

/-- New objects come from `kzalloc`: a process at an address no live process
    uses, a task at one no task ever had (tasks are never freed). -/
def Fresh (s : Sched) (p : ProcPtr) (t : TaskPtr) : Prop := p ∉ s.live ∧ t ∉ s.created

instance (s : Sched) (p : ProcPtr) (t : TaskPtr) : Decidable (s.Fresh p t) :=
  inferInstanceAs (Decidable (_ ∧ _))

/-- `process_spawn` or `process_kspawn` at fresh addresses `p` and `t`, followed
    by `add_cb` for the new process's only task.  `kzalloc` clears the task, so
    it starts as READY and waiting on nothing; `_process_list_insert` makes the
    process current when there is none. -/
def spawn (s : Sched) (p : ProcPtr) (t : TaskPtr) (file : List Char) : Sched :=
  let buffer := fifoInit (s.procs p).keyboardBuffer
  let s := s.setProc p
    { filename := file, tasks := fun i => if i = 0 then some t else none,
      taskCount := 1, keyboardBuffer := buffer }
  let s := s.setTask t { parent := p, state := .ready, waitingOn := .none }
  let s := { s with
    currProcess := s.currProcess.orElse fun _ => some p
    live := p :: s.live
    created := t :: s.created }
  s.rrAdd t

/-- `process_exit`, as far as it concerns scheduling. -/
def processExit (s : Sched) (p : ProcPtr) : Sched :=
  { s with
    currProcess := if s.currProcess = some p then none else s.currProcess
    live := s.live.filter fun x => x ≠ p }

/-- `"A:/BIN/ICARSH.BIN"` -/
def icarshPath : List Char := "A:/BIN/ICARSH.BIN".toList

/-- `_sys_exit` up to the respawn of the shell: the task `t` is terminated, and its process
    is freed with its last thread. -/
def sysExitTask (s : Sched) (t : TaskPtr) : Sched :=
  let parent := (s.tasks t).parent
  let s := s.taskExit t
  let s := if (s.procs parent).taskCount = 0 then s.processExit parent else s
  { s.setState t .terminate with exited := t :: s.exited }

/-- `_sys_exit` by the current task, up to `scheduler_schedule`.  The shell is respawned, at
    addresses `p'` and `t'` that are free by then: the process that has just been freed may
    be one of them. -/
def sysExitUntilYield (s : Sched) (p' : ProcPtr) (t' : TaskPtr) : Option Sched :=
  match s.currTask with
  | none => none
  | some t =>
      let filename := (s.procs (s.tasks t).parent).filename
      let s := s.sysExitTask t
      if filename = icarshPath then
        if s.Fresh p' t' then
          some { s.spawn p' t' icarshPath with foreground := some p' }
        else none
      else some s

/-- `_sys_exit`.  `scheduler_schedule` is not expected to return. -/
def sysExit (s : Sched) (p' : ProcPtr) (t' : TaskPtr) : Option Sched :=
  (s.sysExitUntilYield p' t').bind rrYield

/-- A terminated task is still current and in whatever queue it was in. -/
theorem sysExitTask_same (s : Sched) (t : TaskPtr) :
    (s.sysExitTask t).readyQueue = s.readyQueue ∧ (s.sysExitTask t).waitQueue = s.waitQueue ∧
      (s.sysExitTask t).currTask = s.currTask ∧ (s.sysExitTask t).created = s.created := by
  unfold sysExitTask
  dsimp only
  split <;> exact ⟨rfl, rfl, rfl, rfl⟩

/-- What `_sys_exit` can do before `scheduler_schedule`. -/
theorem sysExitUntilYield_cases {s s₁ : Sched} {p' : ProcPtr} {t' : TaskPtr}
    (h : s.sysExitUntilYield p' t' = some s₁) :
    ∃ t, s.currTask = some t ∧
      (((s.procs (s.tasks t).parent).filename ≠ icarshPath ∧ s₁ = s.sysExitTask t) ∨
        ((s.procs (s.tasks t).parent).filename = icarshPath ∧ (s.sysExitTask t).Fresh p' t' ∧
          s₁ = { (s.sysExitTask t).spawn p' t' icarshPath with foreground := some p' })) := by
  cases hcurr : s.currTask with
  | none =>
      rw [sysExitUntilYield, hcurr] at h
      cases h
  | some t =>
      rw [sysExitUntilYield, hcurr] at h
      dsimp only at h
      refine ⟨t, rfl, ?_⟩
      split at h
      · rename_i hshell
        split at h
        · rename_i hfresh
          exact .inr ⟨hshell, hfresh, (Option.some.inj h).symm⟩
        · cases h
      · rename_i hother
        exact .inl ⟨hother, (Option.some.inj h).symm⟩

/-- The `FD_STDIN` loop of `_sys_read` for `caller`, `n` bytes before its end:
    the bytes that reach the kernel buffer, and the state afterwards. -/
def sysReadLoop (caller : ProcPtr) : Nat → Sched → List UInt8 × Sched
  | 0, s => ([], s)
  | n + 1, s =>
      let proc := s.procs caller
      match fifoDequeue proc.keyboardBuffer with
      | (none, _) =>
          -- `fifo_is_empty`: block the caller's first task and leave the loop
          match proc.tasks 0 with
          | none => ([], s)
          | some t => ([], ((s.taskSetBlock t).taskBlockOn t .keyboard).wqEnqueue t)
      | (some b, fifo) =>
          let rest := sysReadLoop caller n (s.setProc caller { proc with keyboardBuffer := fifo })
          (b :: rest.1, rest.2)

/-- `_sys_read` on `FD_STDIN` by the current task. -/
def sysRead (s : Sched) (count : Nat) : Option (List UInt8 × Sched) :=
  match s.currTask with
  | none => none
  | some t => some (sysReadLoop (s.tasks t).parent count s)

/-! ## Interrupts -/

/-- `irq0_handler` -/
def irq0 (s : Sched) : Option Sched := s.rrYield

/-- `irq1_handler` -/
def irq1 (s : Sched) (scancode : UInt8) : Option Sched :=
  let s := match s.foreground with
    | none => s
    | some p =>
        let proc := s.procs p
        s.setProc p { proc with keyboardBuffer := (fifoEnqueue proc.keyboardBuffer scancode).2 }
  s.wqWakeup .keyboard

/-! ## The transition system -/

/-- What can happen between two instructions of a task. -/
inductive Event
  | spawn (p : ProcPtr) (t : TaskPtr) (file : List Char)
  | foreground (p : ProcPtr)
  | tick
  | read (count : Nat)
  | key (scancode : UInt8)
  | exit (p' : ProcPtr) (t' : TaskPtr)
  deriving DecidableEq

/-- One event. -/
def step (s : Sched) : Event → Option Sched
  | .spawn p t file => if s.Fresh p t then some (s.spawn p t file) else none
  | .foreground p => if p ∈ s.live then some { s with foreground := some p } else none
  | .tick => s.irq0
  | .read count => (s.sysRead count).map Prod.snd
  | .key scancode => s.irq1 scancode
  | .exit p' t' => s.sysExit p' t'

/-- After `scheduler_select`: both queues empty, no task, no process. -/
def boot (tasks : TaskPtr → Task) (procs : ProcPtr → Process) : Sched where
  tasks := tasks
  procs := procs
  readyQueue := Ring.empty (fun _ => none) (by decide)
  waitQueue := Ring.empty (fun _ => none) (by decide)
  currTask := none
  currProcess := none
  foreground := none
  live := []
  created := []
  exited := []

end Sched

end Icarius.Scheduler
