/-
  Icarius.Scheduler.NoTaskLost

  Where a task is kept.  The state field decides it: READY tasks are in the
  ready queue, the RUN task is the current one, BLOCK tasks are in the wait
  queue (`Placed`).  Every handler keeps this as long as no enqueue it makes
  meets a full ring (`Roomy`); the rings drop what does not fit, and nothing in
  the callers looks for that.

  `_sys_read` blocks a task and returns to it, so a task that reads in a loop is
  put in the wait queue once per call: eight reads of an empty keyboard buffer
  fill the queue, and the next task to block is lost.
-/

import Icarius.Scheduler.Model

namespace Icarius.Scheduler

open Icarius.Lib

namespace Sched

/-! ## Places -/

/-- The task has a cell in the ready queue. -/
def InReady (s : Sched) (t : TaskPtr) : Prop := some t ∈ s.readyQueue.contents

/-- The task has a cell in the wait queue. -/
def InWait (s : Sched) (t : TaskPtr) : Prop := some t ∈ s.waitQueue.contents

instance (s : Sched) (t : TaskPtr) : Decidable (s.InReady t) :=
  inferInstanceAs (Decidable (_ ∈ _))

instance (s : Sched) (t : TaskPtr) : Decidable (s.InWait t) :=
  inferInstanceAs (Decidable (_ ∈ _))

/-- Created and not terminated. -/
def Alive (s : Sched) (t : TaskPtr) : Prop := t ∈ s.created ∧ t ∉ s.exited

/-- The task is current, or ready in the ready queue, or blocked in the wait
    queue. -/
def NotLost (s : Sched) (t : TaskPtr) : Prop :=
  s.currTask = some t ∨ (s.InReady t ∧ (s.tasks t).state = .ready) ∨
    (s.InWait t ∧ (s.tasks t).state = .block)

instance (s : Sched) (t : TaskPtr) : Decidable (s.NotLost t) :=
  inferInstanceAs (Decidable (_ ∨ _ ∨ _))

/-- No created and not terminated task is lost. -/
def NoTaskLost (s : Sched) : Prop := ∀ t ∈ s.created, t ∉ s.exited → s.NotLost t

instance (s : Sched) : Decidable s.NoTaskLost :=
  inferInstanceAs (Decidable (∀ t ∈ s.created, t ∉ s.exited → s.NotLost t))

/-- The place that goes with each task state. -/
def Placed (s : Sched) (t : TaskPtr) : Prop :=
  match (s.tasks t).state with
  | .ready => s.InReady t
  | .run => s.currTask = some t
  | .block => s.InWait t
  | .terminate => False

/-- The scheduler invariant. -/
def AllPlaced (s : Sched) : Prop := ∀ t, s.Alive t → s.Placed t

theorem Placed.notLost {s : Sched} {t : TaskPtr} (h : s.Placed t) : s.NotLost t := by
  unfold Placed at h
  split at h
  · rename_i hst; exact .inr (.inl ⟨h, hst⟩)
  · exact .inl h
  · rename_i hst; exact .inr (.inr ⟨h, hst⟩)
  · exact h.elim

theorem AllPlaced.noTaskLost {s : Sched} (h : s.AllPlaced) : s.NoTaskLost :=
  fun t hc he => (h t ⟨hc, he⟩).notLost

/-! ## Moving a placement from one state to another -/

/-- A task whose object is unchanged keeps its place when the place that goes
    with its state keeps it. -/
theorem Placed.transfer {s s' : Sched} {t : TaskPtr} (h : s.Placed t)
    (htask : s'.tasks t = s.tasks t)
    (hready : (s.tasks t).state = .ready → s.InReady t → s'.InReady t)
    (hrun : (s.tasks t).state = .run → s.currTask = some t → s'.currTask = some t)
    (hblock : (s.tasks t).state = .block → s.InWait t → s'.InWait t) : s'.Placed t := by
  unfold Placed at h ⊢
  rw [htask]
  split at h
  · rename_i hst; exact hready hst h
  · rename_i hst; exact hrun hst h
  · rename_i hst; exact hblock hst h
  · exact h.elim

theorem placed_of_ready {s : Sched} {t : TaskPtr} (hst : (s.tasks t).state = .ready)
    (h : s.InReady t) : s.Placed t := by
  unfold Placed; rw [hst]; exact h

theorem placed_of_block {s : Sched} {t : TaskPtr} (hst : (s.tasks t).state = .block)
    (h : s.InWait t) : s.Placed t := by
  unfold Placed; rw [hst]; exact h

theorem placed_of_run {s : Sched} {t : TaskPtr} (hst : (s.tasks t).state = .run)
    (h : s.currTask = some t) : s.Placed t := by
  unfold Placed; rw [hst]; exact h

/-- Only the objects in `procs` and the process variables changed. -/
structure SameTasks (s s' : Sched) : Prop where
  tasks : s'.tasks = s.tasks
  readyQueue : s'.readyQueue = s.readyQueue
  waitQueue : s'.waitQueue = s.waitQueue
  currTask : s'.currTask = s.currTask
  created : s'.created = s.created
  exited : s'.exited = s.exited

theorem SameTasks.allPlaced {s s' : Sched} (h : SameTasks s s') (hs : s.AllPlaced) :
    s'.AllPlaced := by
  intro t ht
  have ht' : s.Alive t := by simpa only [Alive, h.created, h.exited] using ht
  refine (hs t ht').transfer (by rw [h.tasks]) ?_ ?_ ?_
  · simp only [InReady, h.readyQueue, imp_self, implies_true]
  · simp only [h.currTask, imp_self, implies_true]
  · simp only [InWait, h.waitQueue, imp_self, implies_true]

/-! ## Queue operations -/

/-- A task can be added to the ready queue, or is there already. -/
def ReadyRoom (s : Sched) (t : TaskPtr) : Prop := s.readyQueue.count < rrMax ∨ s.InReady t

/-- A task can be added to the wait queue, or is there already. -/
def WaitRoom (s : Sched) (t : TaskPtr) : Prop := s.waitQueue.count < waitMax ∨ s.InWait t

instance (s : Sched) (t : TaskPtr) : Decidable (s.ReadyRoom t) :=
  inferInstanceAs (Decidable (_ ∨ _))

instance (s : Sched) (t : TaskPtr) : Decidable (s.WaitRoom t) :=
  inferInstanceAs (Decidable (_ ∨ _))

@[simp] theorem rrEnqueue_tasks (s : Sched) (t : TaskPtr) :
    (s.rrEnqueue t).tasks = s.tasks := by
  unfold rrEnqueue; split <;> [split <;> rfl; rfl]

@[simp] theorem rrEnqueue_waitQueue (s : Sched) (t : TaskPtr) :
    (s.rrEnqueue t).waitQueue = s.waitQueue := by
  unfold rrEnqueue; split <;> [split <;> rfl; rfl]

@[simp] theorem rrEnqueue_currTask (s : Sched) (t : TaskPtr) :
    (s.rrEnqueue t).currTask = s.currTask := by
  unfold rrEnqueue; split <;> [split <;> rfl; rfl]

@[simp] theorem rrEnqueue_created (s : Sched) (t : TaskPtr) :
    (s.rrEnqueue t).created = s.created := by
  unfold rrEnqueue; split <;> [split <;> rfl; rfl]

@[simp] theorem rrEnqueue_exited (s : Sched) (t : TaskPtr) :
    (s.rrEnqueue t).exited = s.exited := by
  unfold rrEnqueue; split <;> [split <;> rfl; rfl]

@[simp] theorem rrEnqueue_procs (s : Sched) (t : TaskPtr) :
    (s.rrEnqueue t).procs = s.procs := by
  unfold rrEnqueue; split <;> [split <;> rfl; rfl]

@[simp] theorem rrEnqueue_currProcess (s : Sched) (t : TaskPtr) :
    (s.rrEnqueue t).currProcess = s.currProcess := by
  unfold rrEnqueue; split <;> [split <;> rfl; rfl]

/-- `_rr_enqueue` on a queue with room. -/
theorem rrEnqueue_of_room {s : Sched} {t : TaskPtr} (h : s.readyQueue.count < rrMax)
    (hst : (s.tasks t).state = .ready) :
    s.rrEnqueue t = s.setReady (s.readyQueue.push (some t) h) := by
  simp [rrEnqueue, h, hst]

@[simp] theorem wqEnqueue_tasks (s : Sched) (t : TaskPtr) :
    (s.wqEnqueue t).tasks = s.tasks := by
  unfold wqEnqueue; split <;> [split <;> rfl; rfl]

@[simp] theorem wqEnqueue_readyQueue (s : Sched) (t : TaskPtr) :
    (s.wqEnqueue t).readyQueue = s.readyQueue := by
  unfold wqEnqueue; split <;> [split <;> rfl; rfl]

@[simp] theorem wqEnqueue_currTask (s : Sched) (t : TaskPtr) :
    (s.wqEnqueue t).currTask = s.currTask := by
  unfold wqEnqueue; split <;> [split <;> rfl; rfl]

@[simp] theorem wqEnqueue_created (s : Sched) (t : TaskPtr) :
    (s.wqEnqueue t).created = s.created := by
  unfold wqEnqueue; split <;> [split <;> rfl; rfl]

@[simp] theorem wqEnqueue_exited (s : Sched) (t : TaskPtr) :
    (s.wqEnqueue t).exited = s.exited := by
  unfold wqEnqueue; split <;> [split <;> rfl; rfl]

@[simp] theorem wqEnqueue_procs (s : Sched) (t : TaskPtr) :
    (s.wqEnqueue t).procs = s.procs := by
  unfold wqEnqueue; split <;> [split <;> rfl; rfl]

@[simp] theorem wqEnqueue_currProcess (s : Sched) (t : TaskPtr) :
    (s.wqEnqueue t).currProcess = s.currProcess := by
  unfold wqEnqueue; split <;> [split <;> rfl; rfl]

theorem inWait_wqEnqueue {s : Sched} {t x : TaskPtr} (h : s.InWait x) :
    (s.wqEnqueue t).InWait x := by
  unfold wqEnqueue
  split
  · split
    · simp only [InWait, setWait_waitQueue, Ring.contents_push, List.mem_append]
      exact .inl h
    · exact h
  · exact h

theorem inReady_rrEnqueue {s : Sched} {t x : TaskPtr} (h : s.InReady x) :
    (s.rrEnqueue t).InReady x := by
  unfold rrEnqueue
  split
  · split
    · simp only [InReady, setReady_readyQueue, Ring.contents_push, List.mem_append]
      exact .inl h
    · exact h
  · exact h

theorem inReady_rrEnqueue_self {s : Sched} {t : TaskPtr} (hroom : s.ReadyRoom t)
    (hst : (s.tasks t).state = .ready) : (s.rrEnqueue t).InReady t := by
  rcases hroom with h | h
  · rw [rrEnqueue_of_room h hst]
    simp [InReady, Ring.contents_push]
  · exact inReady_rrEnqueue h

/-- `_rr_dequeue` splits the ready queue into its first task and the rest. -/
theorem rrDequeue_some {s s' : Sched} {t : TaskPtr} (h : s.rrDequeue = some (t, s')) :
    ∃ q : ReadyQueue, s.readyQueue.contents = some t :: q.contents ∧
      s' = s.setReady q := by
  unfold rrDequeue at h
  split at h
  · rename_i hpos
    split at h
    · cases h
    · rename_i u hfront
      simp only [Option.some.injEq, Prod.mk.injEq] at h
      obtain ⟨rfl, rfl⟩ := h
      refine ⟨s.readyQueue.pop none hpos, ?_, rfl⟩
      rw [Ring.contents_pop s.readyQueue none hpos, hfront]
  · cases h

/-- `_wq_dequeue` splits the wait queue into its first task and the rest. -/
theorem wqDequeue_some {s s' : Sched} {t : TaskPtr} (h : s.wqDequeue = some (t, s')) :
    ∃ q : WaitQueue, s.waitQueue.contents = some t :: q.contents ∧
      s' = s.setWait q := by
  unfold wqDequeue at h
  split at h
  · rename_i hpos
    split at h
    · cases h
    · rename_i u hfront
      simp only [Option.some.injEq, Prod.mk.injEq] at h
      obtain ⟨rfl, rfl⟩ := h
      refine ⟨s.waitQueue.pop none hpos, ?_, rfl⟩
      rw [Ring.contents_pop s.waitQueue none hpos, hfront]
  · cases h

/-- `_wq_enqueue` on a queue with room. -/
theorem wqEnqueue_of_room {s : Sched} {t : TaskPtr} (h : s.waitQueue.count < waitMax)
    (hst : (s.tasks t).state = .block) :
    s.wqEnqueue t = s.setWait (s.waitQueue.push (some t) h) := by
  simp [wqEnqueue, h, hst]

/-- `_wq_enqueue` refuses a task that is not BLOCK. -/
theorem wqEnqueue_of_not_block {s : Sched} {t : TaskPtr} (hst : (s.tasks t).state ≠ .block) :
    s.wqEnqueue t = s := by
  simp [wqEnqueue, hst]

/-! ## rr_yield -/

/-- Switching to the next ready task keeps every task placed, as long as no live
    task is left in state RUN behind. -/
theorem allPlaced_rrSwitchNext {s : Sched} (hs : s.AllPlaced)
    (hrun : ∀ t, s.Alive t → (s.tasks t).state ≠ .run) : s.rrSwitchNext.AllPlaced := by
  unfold rrSwitchNext
  split
  · exact hs
  · rename_i next s₁ hdeq
    obtain ⟨q, hcontents, rfl⟩ := rrDequeue_some hdeq
    intro t ht
    by_cases heq : t = next
    · subst heq
      exact placed_of_run (by simp [taskSwitch, setState]) rfl
    · refine (hs t ht).transfer ?_ ?_ ?_ (fun _ => id)
      · exact setTask_tasks_ne _ _ heq
      · intro _ hready
        have hrest : some t ∈ q.contents := by
          simpa only [InReady, hcontents, List.mem_cons, Option.some.injEq, heq, false_or]
            using hready
        exact hrest
      · exact fun hst _ => absurd hst (hrun t ht)

/-- What a timer tick needs: a running task that goes back to the queue fits. -/
def YieldRoom (s : Sched) : Prop :=
  ∀ t ∈ s.currTask, (s.tasks t).state = .run → s.ReadyRoom t

/-- With every task placed, a live RUN task is the current one. -/
theorem AllPlaced.run_eq {s : Sched} (hs : s.AllPlaced) {t : TaskPtr} (ht : s.Alive t)
    (hst : (s.tasks t).state = .run) : s.currTask = some t := by
  have hplaced := hs t ht
  simpa only [Placed, hst] using hplaced

theorem allPlaced_rrYield {s s' : Sched} (hs : s.AllPlaced) (hroom : s.YieldRoom)
    (h : s.rrYield = some s') : s'.AllPlaced := by
  obtain ⟨s₁, hrequeue, rfl⟩ := Option.map_eq_some_iff.mp h
  obtain ⟨hcurr, p, -, rfl⟩ | ⟨curr, hcurr, hst, rfl⟩ | ⟨curr, hcurr, hst, rfl⟩ :=
    rrRequeue_cases hrequeue
  · -- without a current task none is RUN, so no task is taken from its place
    have hnorun : ∀ t, s.Alive t → (s.tasks t).state ≠ .run := by
      intro t ht hst
      have := hs.run_eq ht hst
      simp [hcurr] at this
    unfold taskSetCurr
    split
    · exact allPlaced_rrSwitchNext hs hnorun
    · refine allPlaced_rrSwitchNext (fun t ht => ?_) hnorun
      exact (hs t ht).transfer rfl (fun _ => id)
        (fun hst _ => absurd hst (hnorun t ht)) (fun _ => id)
  · have hready : ((s.setState curr .ready).tasks curr).state = .ready := by simp [setState]
    have hother : ∀ t, t ≠ curr → (s.setState curr .ready).tasks t = s.tasks t :=
      fun t ht => setTask_tasks_ne s _ ht
    refine allPlaced_rrSwitchNext (fun t ht => ?_) (fun t ht hst' => ?_)
    · -- `curr` goes from RUN to the ready queue, the others stay where they are
      have ht' : s.Alive t := by simpa [Alive, setState] using ht
      by_cases heq : t = curr
      · subst heq
        exact placed_of_ready (by simpa using hready)
          (inReady_rrEnqueue_self (hroom t hcurr hst) hready)
      · refine (hs t ht').transfer ?_ (fun _ hr => inReady_rrEnqueue hr) ?_ ?_
        · rw [rrEnqueue_tasks, hother t heq]
        · exact fun _ hc => by simpa [setState] using hc
        · exact fun _ hw => by simpa [InWait, setState] using hw
    · -- A live RUN task would be `curr`, which is READY now.
      have ht' : s.Alive t := by simpa [Alive, setState] using ht
      rw [rrEnqueue_tasks] at hst'
      by_cases heq : t = curr
      · rw [heq, hready] at hst'; cases hst'
      · rw [hother t heq] at hst'
        have hrun := hs.run_eq ht' hst'
        rw [hcurr, Option.some.injEq] at hrun
        exact heq hrun.symm
  · -- a current task that is not RUN has its place already
    refine allPlaced_rrSwitchNext hs fun t ht hst' => ?_
    have hrun := hs.run_eq ht hst'
    rw [hcurr, Option.some.injEq] at hrun
    exact hst (hrun ▸ hst')

/-! ## wq_wakeup -/

/-- The `k`-th cell of the wait queue holds a task that `wq_wakeup` adds to the
    ready queue: it waits on `reason`, and it is READY already, or it is BLOCK
    and no earlier cell holds it as well. -/
def wokenAt (s : Sched) (reason : WaitReason) (k : Nat) : Bool :=
  match s.waitQueue.contents[k]? with
  | some (some t) =>
      (s.tasks t).waitingOn == reason &&
        ((s.tasks t).state == .ready ||
          ((s.tasks t).state == .block && !(s.waitQueue.contents.take k).contains (some t)))
  | _ => false

/-- How many of the first `k` cells `wq_wakeup` adds to the ready queue. -/
def wokenBefore (s : Sched) (reason : WaitReason) (k : Nat) : Nat :=
  (List.range k).countP (s.wokenAt reason)

/-- Every blocked task that waits on `reason` finds the ready queue with a cell
    to spare when its turn comes, or is in there already. -/
def WakeRoom (s : Sched) (reason : WaitReason) : Prop :=
  ∀ k < s.waitQueue.count, ∀ t ∈ s.waitQueue.contents[k]?.join,
    (s.tasks t).state = .block → s.wokenAt reason k = true →
      s.readyQueue.count + s.wokenBefore reason k < rrMax ∨ s.InReady t

/-- Unblocking changes the task itself and nothing else. -/
theorem taskSetUnblock_same (s : Sched) (t : TaskPtr) :
    (s.taskSetUnblock t).readyQueue = s.readyQueue ∧
      (s.taskSetUnblock t).waitQueue = s.waitQueue := by
  unfold taskSetUnblock
  split <;> exact ⟨rfl, rfl⟩

theorem taskSetUnblock_tasks_self (s : Sched) (t : TaskPtr) :
    (s.taskSetUnblock t).tasks t =
      if (s.tasks t).state = .block
      then { s.tasks t with waitingOn := .none, state := .ready } else s.tasks t := by
  unfold taskSetUnblock
  split
  · exact setTask_tasks_self _ _ _
  · rfl

/-- After `task_set_unblock` a task is READY if it was READY or BLOCK. -/
theorem taskSetUnblock_ready_iff (s : Sched) (t : TaskPtr) :
    ((s.taskSetUnblock t).tasks t).state = .ready ↔
      (s.tasks t).state = .ready ∨ (s.tasks t).state = .block := by
  rw [taskSetUnblock_tasks_self]
  split
  · rename_i hst
    simp [hst]
  · rename_i hst
    simp [hst]

theorem taskSetUnblock_tasks_ne (s : Sched) {t x : TaskPtr} (h : x ≠ t) :
    (s.taskSetUnblock t).tasks x = s.tasks x := by
  unfold taskSetUnblock
  split
  · exact setTask_tasks_ne _ _ h
  · rfl

/-- A wait-queue cell of `t` may go once `t` is not placed there. -/
theorem allPlaced_dropWait {s : Sched} {t : TaskPtr} {q : WaitQueue} (hs : s.AllPlaced)
    (hcontents : s.waitQueue.contents = some t :: q.contents)
    (hst : (s.tasks t).state ≠ .block) : (s.setWait q).AllPlaced := by
  intro x hx
  refine (hs x hx).transfer rfl (fun _ => id) (fun _ => id) fun hblock hw => ?_
  have hne : x ≠ t := fun heq => hst (heq ▸ hblock)
  simpa only [InWait, setWait_waitQueue, hcontents, List.mem_cons, Option.some.injEq, hne,
    false_or] using hw

/-- Waking the task at the front of the wait queue. -/
theorem allPlaced_wake {s : Sched} {t : TaskPtr} {q : WaitQueue} (hs : s.AllPlaced)
    (hcontents : s.waitQueue.contents = some t :: q.contents)
    (hroom : (s.tasks t).state = .block → s.ReadyRoom t) :
    (((s.setWait q).taskSetUnblock t).rrAdd t).AllPlaced := by
  unfold rrAdd taskSetUnblock
  split
  · rename_i hst
    intro x hx
    by_cases heq : x = t
    · subst heq
      exact placed_of_ready (by simp) (inReady_rrEnqueue_self (hroom hst) (by simp))
    · have hx' : s.Alive x := by simpa [Alive] using hx
      refine (hs x hx').transfer ?_ (fun _ hr => inReady_rrEnqueue hr) ?_ ?_
      · rw [rrEnqueue_tasks, setTask_tasks_ne _ _ heq, setWait_tasks]
      · exact fun _ hc => by simpa using hc
      · intro _ hw
        simp only [InWait, rrEnqueue_waitQueue, setTask_waitQueue, setWait_waitQueue]
        simpa only [InWait, hcontents, List.mem_cons, Option.some.injEq, heq, false_or] using hw
  · rename_i hst
    intro x hx
    have hx' : s.Alive x := by simpa [Alive] using hx
    refine (allPlaced_dropWait hs hcontents hst x hx').transfer (by simp)
      (fun _ hr => inReady_rrEnqueue hr) ?_ ?_
    · exact fun _ hc => by simpa using hc
    · exact fun _ hw => by simpa [InWait] using hw

/-- Putting the task at the front of the wait queue back at its end. -/
theorem allPlaced_requeue {s : Sched} {t : TaskPtr} {q : WaitQueue} (hs : s.AllPlaced)
    (hcontents : s.waitQueue.contents = some t :: q.contents) :
    ((s.setWait q).wqEnqueue t).AllPlaced := by
  by_cases hst : (s.tasks t).state = .block
  · have hroom : q.count < waitMax := by
      have hlen := congrArg List.length hcontents
      have hle := s.waitQueue.count_le
      simp only [Ring.contents_length, List.length_cons] at hlen
      omega
    rw [wqEnqueue_of_room (s := s.setWait q) hroom hst]
    intro x hx
    refine (hs x hx).transfer rfl (fun _ => id) (fun _ => id) fun _ hw => ?_
    simp only [InWait, hcontents, setWait_waitQueue, List.mem_cons, Ring.contents_push,
      List.mem_append, List.not_mem_nil, or_false] at hw ⊢
    exact hw.symm
  · rw [wqEnqueue_of_not_block (s := s.setWait q) hst]
    exact allPlaced_dropWait hs hcontents hst

/-- `_rr_enqueue` adds at most one cell, and only for a READY task. -/
theorem rrEnqueue_count_le (s : Sched) (t : TaskPtr) :
    (s.rrEnqueue t).readyQueue.count
      ≤ s.readyQueue.count + if (s.tasks t).state = .ready then 1 else 0 := by
  unfold rrEnqueue
  split
  · split <;> simp
  · exact Nat.le_add_right _ _

/-- `wq_wakeup` on the wait queue of `s₀`, after `k` rounds.  A task woken in one
    of them is READY and waits on nothing; all others are as they were. -/
structure WakeAt (s₀ : Sched) (reason : WaitReason) (k : Nat) (s : Sched) : Prop where
  placed : s.AllPlaced
  cells : ∃ extra, s.waitQueue.contents = s₀.waitQueue.contents.drop k ++ extra
  tasks : ∀ x, s.tasks x =
    if some x ∈ s₀.waitQueue.contents.take k ∧ (s₀.tasks x).waitingOn = reason ∧
        (s₀.tasks x).state = .block
    then { s₀.tasks x with waitingOn := .none, state := .ready } else s₀.tasks x
  count : s.readyQueue.count ≤ s₀.readyQueue.count + s₀.wokenBefore reason k
  ready : ∀ x, s₀.InReady x → s.InReady x

theorem WakeAt.zero {s₀ : Sched} (reason : WaitReason) (h : s₀.AllPlaced) :
    WakeAt s₀ reason 0 s₀ where
  placed := h
  cells := ⟨[], by simp⟩
  tasks := by simp
  count := Nat.le_add_right _ _
  ready := fun _ => id

section WakeRound

variable {s₀ s : Sched} {reason : WaitReason} {k : Nat} {t : TaskPtr} {q : WaitQueue}

/-- The front cell of round `k` is the `k`-th cell of the wait queue at the start. -/
theorem WakeAt.front (h : WakeAt s₀ reason k s) (hk : k < s₀.waitQueue.count)
    (hcontents : s.waitQueue.contents = some t :: q.contents) :
    s₀.waitQueue.contents[k]? = some (some t) ∧
      ∃ extra, q.contents = s₀.waitQueue.contents.drop (k + 1) ++ extra := by
  obtain ⟨extra, hextra⟩ := h.cells
  have hlen : k < s₀.waitQueue.contents.length := by simpa using hk
  rw [hcontents, List.drop_eq_getElem_cons hlen, List.cons_append, List.cons.injEq] at hextra
  exact ⟨by rw [List.getElem?_eq_getElem hlen, ← hextra.1], extra, hextra.2⟩

/-- A task that still waits on `reason` has not been woken. -/
theorem WakeAt.tasks_eq (h : WakeAt s₀ reason k s) (hreason : reason ≠ .none)
    (hwaiting : (s.tasks t).waitingOn = reason) : s.tasks t = s₀.tasks t := by
  have htask := h.tasks t
  split at htask
  · rw [htask] at hwaiting
    exact absurd hwaiting.symm hreason
  · exact htask

/-- The task met in round `k` counts as woken there. -/
theorem WakeAt.wokenAt (h : WakeAt s₀ reason k s) (hreason : reason ≠ .none)
    (hfront : s₀.waitQueue.contents[k]? = some (some t))
    (hwaiting : (s.tasks t).waitingOn = reason)
    (hst : (s.tasks t).state = .ready ∨ (s.tasks t).state = .block) :
    s₀.wokenAt reason k = true := by
  have heq := h.tasks_eq hreason hwaiting
  have htask := h.tasks t
  rw [heq] at hwaiting hst htask
  rcases hst with hst | hst
  · simp [Sched.wokenAt, hfront, hwaiting, hst]
  · have hnot : some t ∉ s₀.waitQueue.contents.take k := by
      intro hmem
      rw [if_pos ⟨hmem, hwaiting, hst⟩] at htask
      have := congrArg Task.state htask
      rw [hst] at this
      cases this
    simp [Sched.wokenAt, hfront, hwaiting, hst, hnot]

theorem mem_take_succ_iff {l : List (Option TaskPtr)} (hfront : l[k]? = some (some t))
    (x : TaskPtr) : some x ∈ l.take (k + 1) ↔ some x ∈ l.take k ∨ x = t := by
  rw [List.take_add_one, hfront]
  simp [eq_comm]

/-- One round that wakes the front task. -/
theorem WakeAt.wake (h : WakeAt s₀ reason k s) (hreason : reason ≠ .none)
    (hk : k < s₀.waitQueue.count) (hroom : s₀.WakeRoom reason)
    (hcontents : s.waitQueue.contents = some t :: q.contents)
    (hwaiting : (s.tasks t).waitingOn = reason) :
    WakeAt s₀ reason (k + 1) (((s.setWait q).taskSetUnblock t).rrAdd t) := by
  obtain ⟨hfront, hcells⟩ := h.front hk hcontents
  have heq := h.tasks_eq hreason hwaiting
  have hsame := taskSetUnblock_same (s.setWait q) t
  refine ⟨?_, ?_, fun x => ?_, ?_, fun x hx => ?_⟩
  · refine allPlaced_wake h.placed hcontents fun hst => ?_
    have hwoken := h.wokenAt hreason hfront hwaiting (.inr hst)
    refine (hroom k hk t (by simp [hfront]) (heq ▸ hst) hwoken).imp (fun hlt => ?_) (h.ready t)
    have hcount := h.count
    omega
  · simpa [rrAdd, hsame.2] using hcells
  · simp only [rrAdd, rrEnqueue_tasks, mem_take_succ_iff hfront]
    by_cases hx : x = t
    · subst hx
      simp only [taskSetUnblock_tasks_self, setWait_tasks, heq, or_true, true_and]
      rw [heq] at hwaiting
      simp [hwaiting]
    · simp only [taskSetUnblock_tasks_ne _ hx, setWait_tasks, hx, or_false, h.tasks x]
  · have hcount := rrEnqueue_count_le ((s.setWait q).taskSetUnblock t) t
    have hold := h.count
    rw [hsame.1, setWait_readyQueue] at hcount
    have hone : (if (((s.setWait q).taskSetUnblock t).tasks t).state = .ready then 1 else 0)
        ≤ if s₀.wokenAt reason k = true then 1 else 0 := by
      split
      · rename_i hst
        rw [h.wokenAt hreason hfront hwaiting ((taskSetUnblock_ready_iff (s.setWait q) t).mp hst),
          if_pos rfl]
      · exact Nat.zero_le _
    simp only [rrAdd, wokenBefore, List.range_succ, List.countP_append, List.countP_singleton]
    simp only [wokenBefore] at hold
    omega
  · refine inReady_rrEnqueue ?_
    rw [InReady, hsame.1]
    exact h.ready x hx

/-- One round that puts the front task back. -/
theorem WakeAt.requeue (h : WakeAt s₀ reason k s) (hk : k < s₀.waitQueue.count)
    (hcontents : s.waitQueue.contents = some t :: q.contents)
    (hwaiting : (s.tasks t).waitingOn ≠ reason) :
    WakeAt s₀ reason (k + 1) ((s.setWait q).wqEnqueue t) := by
  obtain ⟨hfront, extra, hextra⟩ := h.front hk hcontents
  refine ⟨allPlaced_requeue h.placed hcontents, ?_, fun x => ?_, ?_, fun x hx => ?_⟩
  · unfold wqEnqueue
    split
    · split
      · refine ⟨extra ++ [some t], ?_⟩
        rw [setWait_waitQueue, Ring.contents_push, ← List.append_assoc, ← hextra]
        rfl
      · exact ⟨extra, hextra⟩
    · exact ⟨extra, hextra⟩
  · simp only [wqEnqueue_tasks, setWait_tasks, mem_take_succ_iff hfront]
    by_cases hx : x = t
    · subst hx
      -- A task of an earlier round was woken there or does not qualify.
      have htask := h.tasks x
      by_cases hqual : (s₀.tasks x).waitingOn = reason ∧ (s₀.tasks x).state = .block
      · have hmem : some x ∈ s₀.waitQueue.contents.take k := by
          by_contra hnot
          rw [if_neg (fun hand => hnot hand.1)] at htask
          exact hwaiting (htask ▸ hqual.1)
        rw [htask, if_pos ⟨hmem, hqual⟩, if_pos ⟨.inl hmem, hqual⟩]
      · rw [htask, if_neg (fun hand => hqual hand.2), if_neg (fun hand => hqual hand.2)]
    · simp only [hx, or_false, h.tasks x]
  · have hold := h.count
    simp only [wqEnqueue_readyQueue, setWait_readyQueue, wokenBefore, List.range_succ,
      List.countP_append]
    simp only [wokenBefore] at hold
    omega
  · simpa [InReady] using h.ready x hx

end WakeRound

/-- What a whole `wq_wakeup` has done to the tasks. -/
theorem wakeAt_wqWakeup {reason : WaitReason} (hreason : reason ≠ .none) {s s' : Sched}
    (hs : s.AllPlaced) (hroom : s.WakeRoom reason) (h : s.wqWakeup reason = some s') :
    WakeAt s reason s.waitQueue.count s' := by
  -- Induction on the rounds left; `k` counts the rounds done.
  have hloop : ∀ i k s₁, k + i = s.waitQueue.count → WakeAt s reason k s₁ →
      wqWakeupLoop reason i s₁ = some s' → WakeAt s reason s.waitQueue.count s' := by
    intro i
    induction i with
    | zero =>
        intro k s₁ hk hat hend
        obtain rfl := Option.some.inj hend
        obtain rfl : k = s.waitQueue.count := hk
        exact hat
    | succ i ih =>
        intro k s₁ hk hat hrounds
        have hlt : k < s.waitQueue.count := by omega
        unfold wqWakeupLoop at hrounds
        split at hrounds
        · cases hrounds
        · rename_i t s₂ hdeq
          obtain ⟨q, hcontents, rfl⟩ := wqDequeue_some hdeq
          split at hrounds
          · rename_i hwaiting
            exact ih (k + 1) _ (by omega) (hat.wake hreason hlt hroom hcontents hwaiting) hrounds
          · rename_i hwaiting
            exact ih (k + 1) _ (by omega) (hat.requeue hlt hcontents hwaiting) hrounds
  exact hloop s.waitQueue.count 0 s (Nat.zero_add _) (WakeAt.zero reason hs) h

/-- `wq_wakeup` keeps every task placed when all it wakes fit. -/
theorem allPlaced_wqWakeup {reason : WaitReason} (hreason : reason ≠ .none) {s s' : Sched}
    (hs : s.AllPlaced) (hroom : s.WakeRoom reason) (h : s.wqWakeup reason = some s') :
    s'.AllPlaced :=
  (wakeAt_wqWakeup hreason hs hroom h).placed

/-! ## Blocking reads -/

/-- A read that empties the keyboard buffer finds a cell in the wait queue for the
    task it blocks. -/
def ReadRoom (s : Sched) (caller : ProcPtr) (count : Nat) : Prop :=
  (s.procs caller).keyboardBuffer.count < count →
    ∀ t ∈ (s.procs caller).tasks 0, s.WaitRoom t

/-- Blocking a task that fits in the wait queue. -/
theorem allPlaced_block {s : Sched} {t : TaskPtr} (hs : s.AllPlaced) (hroom : s.WaitRoom t) :
    (((s.taskSetBlock t).taskBlockOn t .keyboard).wqEnqueue t).AllPlaced := by
  set b := (s.taskSetBlock t).taskBlockOn t .keyboard with hb
  have hself : (b.tasks t).state = .block := by simp [hb, taskBlockOn, taskSetBlock, setState]
  have hother : ∀ x, x ≠ t → b.tasks x = s.tasks x := by
    intro x hx
    rw [hb, taskBlockOn, setTask_tasks_ne _ _ hx, taskSetBlock, setState, setTask_tasks_ne _ _ hx]
  have hwait : b.waitQueue = s.waitQueue := rfl
  intro x hx
  have hx' : s.Alive x := by simpa [Alive, hb, taskBlockOn, taskSetBlock, setState] using hx
  by_cases heq : x = t
  · subst heq
    refine placed_of_block (by simpa using hself) ?_
    rcases hroom with hlt | hin
    · rw [← hwait] at hlt
      rw [wqEnqueue_of_room hlt hself]
      simp only [InWait, setWait_waitQueue, Ring.contents_push]
      exact List.mem_append_right _ List.mem_cons_self
    · exact inWait_wqEnqueue (s := b) hin
  · refine (hs x hx').transfer (by rw [wqEnqueue_tasks, hother x heq]) ?_ ?_ ?_
    · intro _ hr
      rw [InReady, wqEnqueue_readyQueue]
      exact hr
    · intro _ hc
      rw [wqEnqueue_currTask]
      exact hc
    · exact fun _ hw => inWait_wqEnqueue (s := b) hw

theorem sameTasks_setProc (s : Sched) (p : ProcPtr) (v : Process) : SameTasks s (s.setProc p v) :=
  ⟨rfl, rfl, rfl, rfl, rfl, rfl⟩

theorem allPlaced_sysReadLoop {caller : ProcPtr} {n : Nat} {s : Sched} (hs : s.AllPlaced)
    (hroom : s.ReadRoom caller n) : (sysReadLoop caller n s).2.AllPlaced := by
  induction n generalizing s with
  | zero => exact hs
  | succ n ih =>
      unfold sysReadLoop
      simp only
      split
      · rename_i hempty
        split
        · exact hs
        · rename_i t ht
          refine allPlaced_block hs (hroom ?_ t ht)
          unfold fifoDequeue at hempty
          split at hempty
          · cases hempty
          · omega
      · rename_i b fifo hbyte
        unfold fifoDequeue at hbyte
        split at hbyte
        · simp only [Prod.mk.injEq] at hbyte
          obtain ⟨-, rfl⟩ := hbyte
          refine ih ((sameTasks_setProc s caller _).allPlaced hs) fun hlt t ht => ?_
          simp only [setProc, if_true, Ring.pop_count] at hlt ht
          exact hroom (by omega) t ht
        · cases hbyte

/-! ## Creation and exit -/

/-- Adding a new task to a ready queue with room. -/
theorem allPlaced_spawn {s : Sched} {p : ProcPtr} {t : TaskPtr} {file : List Char}
    (hs : s.AllPlaced) (hroom : s.readyQueue.count < rrMax) : (s.spawn p t file).AllPlaced := by
  unfold spawn rrAdd
  simp only
  intro x hx
  by_cases heq : x = t
  · subst heq
    refine placed_of_ready (by simp) (inReady_rrEnqueue_self (.inl hroom) (by simp))
  · have hx' : s.Alive x := by simpa [Alive, setProc, heq] using hx
    refine (hs x hx').transfer ?_ (fun _ hr => inReady_rrEnqueue hr) ?_ ?_
    · rw [rrEnqueue_tasks]
      exact setTask_tasks_ne _ _ heq
    · intro _ hc
      rw [rrEnqueue_currTask]
      exact hc
    · intro _ hw
      rw [InWait, rrEnqueue_waitQueue]
      exact hw

/-- The state in which `_sys_exit` has terminated `t`. -/
theorem allPlaced_terminate {s : Sched} {t : TaskPtr} (hs : s.AllPlaced) :
    AllPlaced { s.setState t .terminate with exited := t :: s.exited } := by
  intro x hx
  have hne : x ≠ t := by
    rintro rfl
    exact hx.2 (by simp)
  have hx' : s.Alive x := ⟨hx.1, fun hmem => hx.2 (by simp [hmem])⟩
  exact (hs x hx').transfer (setTask_tasks_ne _ _ hne) (fun _ => id) (fun _ => id) (fun _ => id)

theorem sameTasks_processExit (s : Sched) (p : ProcPtr) : SameTasks s (s.processExit p) :=
  ⟨rfl, rfl, rfl, rfl, rfl, rfl⟩

theorem allPlaced_sysExitTask {s : Sched} {t : TaskPtr} (hs : s.AllPlaced) :
    (s.sysExitTask t).AllPlaced := by
  have hexit : (s.taskExit t).AllPlaced := (sameTasks_setProc s _ _).allPlaced hs
  unfold sysExitTask
  dsimp only
  split
  · exact allPlaced_terminate ((sameTasks_processExit _ _).allPlaced hexit)
  · exact allPlaced_terminate hexit

theorem sysExitTask_state (s : Sched) (t : TaskPtr) :
    ((s.sysExitTask t).tasks t).state = .terminate := by
  simp only [sysExitTask, setState, setTask_tasks_self]

/-- The shell that takes the place of an exiting shell fits in the ready queue. -/
def ExitRoom (s : Sched) : Prop :=
  ∀ t ∈ s.currTask, (s.procs (s.tasks t).parent).filename = icarshPath →
    s.readyQueue.count < rrMax

theorem allPlaced_sysExit {s s' : Sched} {p' : ProcPtr} {t' : TaskPtr} (hs : s.AllPlaced)
    (hroom : s.ExitRoom) (h : s.sysExit p' t' = some s') : s'.AllPlaced := by
  obtain ⟨s₁, hexit, hyield⟩ := Option.bind_eq_some_iff.mp h
  obtain ⟨t, ht, hcase⟩ := sysExitUntilYield_cases hexit
  have hplaced : (s.sysExitTask t).AllPlaced := allPlaced_sysExitTask hs
  obtain ⟨hready, -, hcurr, -⟩ := sysExitTask_same s t
  have hstate := sysExitTask_state s t
  rw [ht] at hcurr
  -- the terminated task is still current, but its state is not RUN
  rcases hcase with ⟨-, rfl⟩ | ⟨hshell, hfresh, rfl⟩
  · refine allPlaced_rrYield hplaced (fun x hx hrun => ?_) hyield
    obtain rfl : t = x := Option.some.inj (hcurr.symm.trans hx)
    rw [hstate] at hrun
    cases hrun
  · have hspawn : ((s.sysExitTask t).spawn p' t' icarshPath).AllPlaced :=
      allPlaced_spawn hplaced (by rw [hready]; exact hroom t ht hshell)
    refine allPlaced_rrYield
      (s := { (s.sysExitTask t).spawn p' t' icarshPath with foreground := some p' })
      (SameTasks.allPlaced ⟨rfl, rfl, rfl, rfl, rfl, rfl⟩ hspawn) (fun x hx hrun => ?_) hyield
    have hx' : t = x := by
      simp only [spawn, rrAdd, rrEnqueue_currTask] at hx
      rw [setTask_currTask] at hx
      exact Option.some.inj (hcurr.symm.trans hx)
    subst hx'
    simp only [spawn, rrAdd, rrEnqueue_tasks] at hrun
    by_cases heq : t = t'
    · subst heq
      simp at hrun
    · rw [setTask_tasks_ne _ _ heq] at hrun
      exact absurd (hstate.symm.trans hrun) (by decide)

/-! ## Whole runs -/

/-- The step makes no enqueue that meets a full ring, unless the ring holds the
    task already. -/
def Roomy (s : Sched) : Event → Prop
  | .spawn _ _ _ => s.readyQueue.count < rrMax
  | .foreground _ => True
  | .tick => s.YieldRoom
  | .read count => ∀ t ∈ s.currTask, s.ReadRoom (s.tasks t).parent count
  | .key _ => s.WakeRoom .keyboard
  | .exit _ _ => s.ExitRoom

instance (s : Sched) : DecidablePred s.Roomy
  | .spawn _ _ _ => inferInstanceAs (Decidable (_ < _))
  | .foreground _ => inferInstanceAs (Decidable True)
  | .tick => inferInstanceAs (Decidable (∀ t ∈ s.currTask, _ → _))
  | .read _ => inferInstanceAs (Decidable (∀ t ∈ s.currTask, _ → ∀ t ∈ _, _))
  | .key _ => inferInstanceAs (Decidable (∀ k < _, ∀ t ∈ _, _ → _ → _))
  | .exit _ _ => inferInstanceAs (Decidable (∀ t ∈ s.currTask, _ → _))

/-- One step with room keeps every task placed. -/
theorem allPlaced_step {s s' : Sched} {e : Event} (hs : s.AllPlaced) (hroom : s.Roomy e)
    (h : s.step e = some s') : s'.AllPlaced := by
  cases e with
  | spawn p t file =>
      simp only [step] at h
      split at h
      · exact Option.some.inj h ▸ allPlaced_spawn hs hroom
      · cases h
  | foreground p =>
      simp only [step] at h
      split at h
      · exact Option.some.inj h ▸ SameTasks.allPlaced ⟨rfl, rfl, rfl, rfl, rfl, rfl⟩ hs
      · cases h
  | tick => exact allPlaced_rrYield hs hroom h
  | read count =>
      simp only [step, sysRead] at h
      split at h
      · cases h
      · rename_i t ht
        simp only [Option.map_some, Option.some.injEq] at h
        exact h ▸ allPlaced_sysReadLoop hs (hroom t ht)
  | key scancode =>
      simp only [step, irq1] at h
      split at h
      · exact allPlaced_wqWakeup (by decide) hs hroom h
      · refine allPlaced_wqWakeup (by decide) ((sameTasks_setProc s _ _).allPlaced hs) ?_ h
        exact hroom
  | exit p' t' => exact allPlaced_sysExit hs hroom h

theorem allPlaced_boot (tasks : TaskPtr → Task) (procs : ProcPtr → Process) :
    (boot tasks procs).AllPlaced := by
  intro t ht
  exact absurd ht.1 (by simp [boot])

/-- No task is lost in a run that never enqueues into a full ring. -/
theorem noTaskLost_of_roomy (tasks : TaskPtr → Task) (procs : ProcPtr → Process)
    (es : List Event) (s : Sched) (hrun : Runs step Roomy (boot tasks procs) es s) :
    s.NoTaskLost :=
  (hrun.invariant AllPlaced (allPlaced_boot tasks procs)
    fun _ _ _ hs hroom h => allPlaced_step hs hroom h).noTaskLost

/-- The scheduler at boot, over cleared memory. -/
def coldBoot : Sched :=
  boot (fun _ => ⟨0, .ready, .none⟩)
    fun _ => ⟨[], fun _ => none, 0, Ring.empty (fun _ => 0) fifoBufferSize_pos⟩

/-- Two processes take turns; the second reads, is woken by a key, is switched to
    again and exits, and its process comes up again where it was freed. -/
def turns : List Event :=
  [.spawn 1 1 "KIDLE".toList, .spawn 2 2 icarshPath, .foreground 2, .tick, .tick,
    .read 1, .tick, .key 30, .tick, .exit 2 3]

theorem noTaskLost_of_turns : ∃ s, exec step Roomy coldBoot turns = some s ∧ s.NoTaskLost := by
  have hsome : (exec step Roomy coldBoot turns).isSome = true := by decide +kernel
  obtain ⟨s, hs⟩ := Option.isSome_iff_exists.mp hsome
  exact ⟨s, hs, noTaskLost_of_roomy _ _ turns s (runs_of_exec hs)⟩

/-- The shell asks for a key eight times while none is there, which fills the wait
    queue with the shell's task.  The third process then blocks on its own read,
    is dropped by `_wq_enqueue`, and is switched away from. -/
def pollingShell : List Event :=
  [.spawn 1 1 "KIDLE".toList, .spawn 2 2 icarshPath, .spawn 3 3 "A:/BIN/LS.BIN".toList,
    .tick, .tick, .read 1, .read 1, .read 1, .read 1, .read 1, .read 1, .read 1, .read 1,
    .tick, .read 1, .tick]

/-- Without the condition a task can be lost. -/
theorem exists_task_lost : ¬ ∀ (tasks : TaskPtr → Task) (procs : ProcPtr → Process)
    (es : List Event) (s : Sched), Runs step always (boot tasks procs) es s → s.NoTaskLost := by
  intro h
  have hlost : ∃ s ∈ exec step always coldBoot pollingShell, ¬ s.NoTaskLost := by
    decide +kernel
  obtain ⟨s, hs, hlost⟩ := hlost
  exact hlost (h _ _ pollingShell s (runs_of_exec hs))

end Sched

end Icarius.Scheduler
