/-
  Icarius.Scheduler.Discipline

  What the two queues hold.  An enqueue looks at the state of the task it is given
  and never at what the ring holds, and a later handler may change the state of a
  task that is queued already.  Timer ticks, key presses and spawns keep the
  queues in order all the same.  A read of an empty keyboard buffer does not: it
  blocks its task and returns to it, so the task may read again while it is in the
  wait queue, or in the ready queue after a key press has woken it.
-/

import Icarius.Scheduler.NoTaskLost
import Mathlib.Data.List.Nodup

namespace Icarius.Scheduler

open Icarius.Lib

namespace Sched

variable {s s' : Sched} {t : TaskPtr}

/-! ## The discipline -/

/-- No task occurs twice in a queue, the ready queue holds READY tasks and the
    wait queue BLOCK tasks. -/
structure QueueDiscipline (s : Sched) : Prop where
  waitNodup : s.waitQueue.contents.Nodup
  readyNodup : s.readyQueue.contents.Nodup
  ready : ∀ t, s.InReady t → (s.tasks t).state = .ready
  wait : ∀ t, s.InWait t → (s.tasks t).state = .block

/-- A process the handlers may look at: the current one, and the parent of any
    task. -/
def Reaches (s : Sched) (p : ProcPtr) : Prop :=
  s.currProcess = some p ∨ ∃ t ∈ s.created, (s.tasks t).parent = p

/-- A task the handlers may be given: queued, current, or the first task of a
    process they look at. -/
def Known (s : Sched) (t : TaskPtr) : Prop :=
  s.InReady t ∨ s.InWait t ∨ s.currTask = some t ∨
    ∃ p, s.Reaches p ∧ (s.procs p).tasks 0 = some t

/-- The discipline, and that handlers only ever see created tasks: what a spawn
    gets from `kzalloc` is in no queue. -/
structure Disciplined (s : Sched) : Prop extends QueueDiscipline s where
  known : ∀ t, s.Known t → t ∈ s.created

theorem QueueDiscipline.not_inWait (h : s.QueueDiscipline) (ht : s.InReady t) : ¬ s.InWait t := by
  intro hw
  have hstate := h.ready t ht
  rw [h.wait t hw] at hstate
  cases hstate

theorem QueueDiscipline.not_inReady (h : s.QueueDiscipline) (ht : s.InWait t) : ¬ s.InReady t :=
  fun hr => h.not_inWait hr ht

/-! ## Queue operations -/

/-- A task object may be overwritten by one whose state goes with the queues the
    task is in. -/
theorem QueueDiscipline.setTask (h : s.QueueDiscipline) {v : Task}
    (hr : s.InReady t → v.state = .ready) (hw : s.InWait t → v.state = .block) :
    (s.setTask t v).QueueDiscipline := by
  refine ⟨h.waitNodup, h.readyNodup, fun x hx => ?_, fun x hx => ?_⟩
  · by_cases hxt : x = t
    · subst hxt
      rw [setTask_tasks_self]
      exact hr hx
    · rw [setTask_tasks_ne _ _ hxt]
      exact h.ready x hx
  · by_cases hxt : x = t
    · subst hxt
      rw [setTask_tasks_self]
      exact hw hx
    · rw [setTask_tasks_ne _ _ hxt]
      exact h.wait x hx

/-- `_rr_enqueue` of a task that is not in the ready queue. -/
theorem QueueDiscipline.rrEnqueue (h : s.QueueDiscipline) (hr : ¬ s.InReady t) :
    (s.rrEnqueue t).QueueDiscipline := by
  unfold Sched.rrEnqueue
  split
  · split
    · rename_i hcount hstate
      refine ⟨h.waitNodup, ?_, fun x hx => ?_, h.wait⟩
      · rw [setReady_readyQueue, Ring.contents_push, ← List.concat_eq_append]
        exact h.readyNodup.concat hr
      · rw [InReady, setReady_readyQueue, Ring.contents_push, List.mem_append,
          List.mem_singleton, Option.some.injEq] at hx
        rcases hx with hx | rfl
        · exact h.ready x hx
        · exact hstate
    · exact h
  · exact h

/-- `_wq_enqueue` of a task that is not in the wait queue, or does not fit there. -/
theorem QueueDiscipline.wqEnqueue (h : s.QueueDiscipline)
    (hw : s.InWait t → waitMax ≤ s.waitQueue.count) : (s.wqEnqueue t).QueueDiscipline := by
  unfold Sched.wqEnqueue
  split
  · split
    · rename_i hcount hstate
      refine ⟨?_, h.readyNodup, h.ready, fun x hx => ?_⟩
      · have hnot : ¬ s.InWait t := fun hin => Nat.not_lt.mpr (hw hin) hcount
        rw [setWait_waitQueue, Ring.contents_push, ← List.concat_eq_append]
        exact h.waitNodup.concat hnot
      · rw [InWait, setWait_waitQueue, Ring.contents_push, List.mem_append,
          List.mem_singleton, Option.some.injEq] at hx
        rcases hx with hx | rfl
        · exact h.wait x hx
        · exact hstate
    · exact h
  · exact h

/-- Taking the first task out of the ready queue. -/
theorem QueueDiscipline.popReady {q : ReadyQueue} (h : s.QueueDiscipline)
    (hcontents : s.readyQueue.contents = some t :: q.contents) :
    (s.setReady q).QueueDiscipline ∧ ¬ (s.setReady q).InReady t ∧ ¬ (s.setReady q).InWait t := by
  have hnodup := h.readyNodup
  rw [hcontents, List.nodup_cons] at hnodup
  have hin : s.InReady t := by
    rw [InReady, hcontents]
    exact List.mem_cons_self
  refine ⟨⟨h.waitNodup, hnodup.2, fun x hx => h.ready x ?_, h.wait⟩, hnodup.1, h.not_inWait hin⟩
  rw [InReady, hcontents]
  exact List.mem_cons_of_mem _ hx

/-- Taking the first task out of the wait queue. -/
theorem QueueDiscipline.popWait {q : WaitQueue} (h : s.QueueDiscipline)
    (hcontents : s.waitQueue.contents = some t :: q.contents) :
    (s.setWait q).QueueDiscipline ∧ ¬ (s.setWait q).InReady t ∧ ¬ (s.setWait q).InWait t := by
  have hnodup := h.waitNodup
  rw [hcontents, List.nodup_cons] at hnodup
  have hin : s.InWait t := by
    rw [InWait, hcontents]
    exact List.mem_cons_self
  refine ⟨⟨hnodup.2, h.readyNodup, h.ready, fun x hx => h.wait x ?_⟩, h.not_inReady hin, hnodup.1⟩
  rw [InWait, hcontents]
  exact List.mem_cons_of_mem _ hx

theorem inReady_of_rrEnqueue {x : TaskPtr} (h : (s.rrEnqueue t).InReady x) :
    s.InReady x ∨ x = t := by
  unfold rrEnqueue at h
  split at h
  · split at h
    · rw [InReady, setReady_readyQueue, Ring.contents_push, List.mem_append,
        List.mem_singleton, Option.some.injEq] at h
      exact h
    · exact .inl h
  · exact .inl h

theorem inWait_of_wqEnqueue {x : TaskPtr} (h : (s.wqEnqueue t).InWait x) :
    s.InWait x ∨ x = t := by
  unfold wqEnqueue at h
  split at h
  · split at h
    · rw [InWait, setWait_waitQueue, Ring.contents_push, List.mem_append,
        List.mem_singleton, Option.some.injEq] at h
      exact h
    · exact .inl h
  · exact .inl h

/-! ## Who is known -/

theorem Disciplined.ofReady (h : s.Disciplined) (ht : s.InReady t) : t ∈ s.created :=
  h.known t (.inl ht)

theorem Disciplined.ofWait (h : s.Disciplined) (ht : s.InWait t) : t ∈ s.created :=
  h.known t (.inr (.inl ht))

theorem Disciplined.ofCurr (h : s.Disciplined) (ht : s.currTask = some t) : t ∈ s.created :=
  h.known t (.inr (.inr (.inl ht)))

theorem Disciplined.ofFirst (h : s.Disciplined) {p : ProcPtr} (hp : s.Reaches p)
    (ht : (s.procs p).tasks 0 = some t) : t ∈ s.created :=
  h.known t (.inr (.inr (.inr ⟨p, hp, ht⟩)))

/-- A handler that keeps the queues in order and only moves created tasks around
    keeps the discipline. -/
theorem Disciplined.of_moved (h : s.Disciplined) (hqueues : s'.QueueDiscipline)
    (hcreated : s'.created = s.created)
    (hparent : ∀ x, (s'.tasks x).parent = (s.tasks x).parent)
    (hfirst : ∀ p x, (s'.procs p).tasks 0 = some x → (s.procs p).tasks 0 = some x)
    (hproc : ∀ p, s'.currProcess = some p → s.Reaches p)
    (hcurr : ∀ x, s'.currTask = some x → x ∈ s.created)
    (hready : ∀ x, s'.InReady x → x ∈ s.created) (hwait : ∀ x, s'.InWait x → x ∈ s.created) :
    s'.Disciplined := by
  refine ⟨hqueues, fun x hx => ?_⟩
  rw [hcreated]
  rcases hx with hx | hx | hx | ⟨p, hp, hx⟩
  · exact hready x hx
  · exact hwait x hx
  · exact hcurr x hx
  · refine h.ofFirst ?_ (hfirst p x hx)
    rcases hp with hp | ⟨y, hy, hp⟩
    · exact hproc p hp
    · rw [hcreated] at hy
      rw [hparent] at hp
      exact .inr ⟨y, hy, hp⟩

/-- Giving a task another state. -/
theorem Disciplined.setTask (h : s.Disciplined) {v : Task} (hv : v.parent = (s.tasks t).parent)
    (hr : s.InReady t → v.state = .ready) (hw : s.InWait t → v.state = .block) :
    (s.setTask t v).Disciplined := by
  refine h.of_moved (h.toQueueDiscipline.setTask hr hw) rfl (fun x => ?_) (fun _ _ => id)
    (fun _ => .inl) (fun _ => h.ofCurr) (fun _ => h.ofReady) (fun _ => h.ofWait)
  by_cases hxt : x = t
  · subst hxt
    rw [setTask_tasks_self, hv]
  · rw [setTask_tasks_ne _ _ hxt]

theorem Disciplined.rrEnqueue (h : s.Disciplined) (ht : t ∈ s.created) (hr : ¬ s.InReady t) :
    (s.rrEnqueue t).Disciplined := by
  refine h.of_moved (h.toQueueDiscipline.rrEnqueue hr) (rrEnqueue_created s t) (fun x => ?_)
    (fun p x hx => ?_) (fun p hp => ?_) (fun x hx => ?_) (fun x hx => ?_) (fun x hx => ?_)
  · rw [rrEnqueue_tasks]
  · rwa [rrEnqueue_procs] at hx
  · rw [rrEnqueue_currProcess] at hp
    exact .inl hp
  · rw [rrEnqueue_currTask] at hx
    exact h.ofCurr hx
  · rcases inReady_of_rrEnqueue hx with hx | rfl
    · exact h.ofReady hx
    · exact ht
  · rw [InWait, rrEnqueue_waitQueue] at hx
    exact h.ofWait hx

theorem Disciplined.wqEnqueue (h : s.Disciplined) (ht : t ∈ s.created)
    (hw : s.InWait t → waitMax ≤ s.waitQueue.count) : (s.wqEnqueue t).Disciplined := by
  refine h.of_moved (h.toQueueDiscipline.wqEnqueue hw) (wqEnqueue_created s t) (fun x => ?_)
    (fun p x hx => ?_) (fun p hp => ?_) (fun x hx => ?_) (fun x hx => ?_) (fun x hx => ?_)
  · rw [wqEnqueue_tasks]
  · rwa [wqEnqueue_procs] at hx
  · rw [wqEnqueue_currProcess] at hp
    exact .inl hp
  · rw [wqEnqueue_currTask] at hx
    exact h.ofCurr hx
  · rw [InReady, wqEnqueue_readyQueue] at hx
    exact h.ofReady hx
  · rcases inWait_of_wqEnqueue hx with hx | rfl
    · exact h.ofWait hx
    · exact ht

/-! ## rr_yield -/

theorem Disciplined.rrSwitchNext (h : s.Disciplined) : s.rrSwitchNext.Disciplined := by
  unfold Sched.rrSwitchNext
  split
  · exact h
  · rename_i next s₁ hdequeue
    obtain ⟨q, hcontents, rfl⟩ := rrDequeue_some hdequeue
    obtain ⟨hq, hnr, hnw⟩ := h.popReady hcontents
    have hnext : next ∈ s.created := by
      refine h.ofReady ?_
      rw [InReady, hcontents]
      exact List.mem_cons_self
    have hparent : ∀ x, (((s.setReady q).taskSwitch next).tasks x).parent = (s.tasks x).parent := by
      intro x
      by_cases hx : x = next
      · subst hx
        simp only [taskSwitch, setState, setTask_tasks_self, setReady_tasks]
      · exact congrArg Task.parent (setTask_tasks_ne _ _ hx)
    have hset := hq.setTask (v := { s.tasks next with state := .run })
      (fun hin => absurd hin hnr) (fun hin => absurd hin hnw)
    refine h.of_moved ⟨hset.waitNodup, hset.readyNodup, hset.ready, hset.wait⟩ rfl hparent
      (fun _ _ => id) (fun p hp => ?_) (fun x hx => ?_) (fun x hx => h.ofReady ?_)
      (fun _ => h.ofWait)
    · -- the current process is now the parent of the task switched to
      have hp' : some (((s.setReady q).taskSwitch next).tasks next).parent = some p := hp
      rw [hparent, Option.some.injEq] at hp'
      exact .inr ⟨next, hnext, hp'⟩
    · have hx' : some next = some x := hx
      exact Option.some.inj hx' ▸ hnext
    · rw [InReady, hcontents]
      exact List.mem_cons_of_mem _ hx

theorem Disciplined.rrYield (h : s.Disciplined) (hyield : s.rrYield = some s') :
    s'.Disciplined := by
  obtain ⟨s₁, hrequeue, rfl⟩ := Option.map_eq_some_iff.mp hyield
  obtain ⟨-, p, hp, rfl⟩ | ⟨curr, hcurr, hrun, rfl⟩ | ⟨-, -, -, rfl⟩ := rrRequeue_cases hrequeue
  · refine Disciplined.rrSwitchNext ?_
    unfold taskSetCurr
    split
    · exact h
    · rename_i t ht
      refine h.of_moved ⟨h.waitNodup, h.readyNodup, h.ready, h.wait⟩ rfl (fun _ => rfl)
        (fun _ _ => id) (fun _ => .inl) (fun x hx => ?_) (fun _ => h.ofReady) (fun _ => h.ofWait)
      have hx' : some t = some x := hx
      exact h.ofFirst (.inl hp) (Option.some.inj hx' ▸ ht)
  · -- a running task is in no queue
    have hnr : ¬ s.InReady curr := by
      intro hin
      rw [h.ready curr hin] at hrun
      cases hrun
    have hnw : ¬ s.InWait curr := by
      intro hin
      rw [h.wait curr hin] at hrun
      cases hrun
    have hset := h.setTask (t := curr) (v := { s.tasks curr with state := .ready }) rfl
      (fun _ => rfl) (fun hin => absurd hin hnw)
    exact (hset.rrEnqueue (h.ofCurr hcurr) hnr).rrSwitchNext
  · exact h.rrSwitchNext

/-! ## wq_wakeup -/

/-- Taking a task out of the wait queue. -/
theorem Disciplined.popWait {q : WaitQueue} (h : s.Disciplined)
    (hcontents : s.waitQueue.contents = some t :: q.contents) :
    (s.setWait q).Disciplined ∧ t ∈ s.created ∧ ¬ (s.setWait q).InReady t ∧
      ¬ (s.setWait q).InWait t := by
  obtain ⟨hq, hnr, hnw⟩ := h.toQueueDiscipline.popWait hcontents
  have hmem : ∀ x, some x ∈ some t :: q.contents → x ∈ s.created := by
    intro x hx
    refine h.ofWait ?_
    rw [InWait, hcontents]
    exact hx
  refine ⟨?_, hmem t List.mem_cons_self, hnr, hnw⟩
  exact h.of_moved hq rfl (fun _ => rfl) (fun _ _ => id) (fun _ => .inl) (fun _ => h.ofCurr)
    (fun _ => h.ofReady) (fun x hx => hmem x (List.mem_cons_of_mem _ hx))

theorem Disciplined.taskSetUnblock (h : s.Disciplined) (hr : ¬ s.InReady t) (hw : ¬ s.InWait t) :
    (s.taskSetUnblock t).Disciplined := by
  unfold Sched.taskSetUnblock
  split
  · exact h.setTask rfl (fun hin => absurd hin hr) (fun hin => absurd hin hw)
  · exact h

/-- The rounds of `wq_wakeup`: a task taken out of the wait queue goes to one of
    the queues again, or to none. -/
theorem Disciplined.wqWakeupLoop {reason : WaitReason} {i : Nat} (h : s.Disciplined)
    (hloop : wqWakeupLoop reason i s = some s') : s'.Disciplined := by
  induction i generalizing s with
  | zero =>
      rw [Sched.wqWakeupLoop, Option.some.injEq] at hloop
      exact hloop ▸ h
  | succ i ih =>
      unfold Sched.wqWakeupLoop at hloop
      split at hloop
      · cases hloop
      · rename_i t s₁ hdequeue
        obtain ⟨q, hcontents, rfl⟩ := wqDequeue_some hdequeue
        obtain ⟨hpop, ht, hnr, hnw⟩ := h.popWait hcontents
        split at hloop
        · have hsame := taskSetUnblock_same (s.setWait q) t
          have hunblock := hpop.taskSetUnblock hnr hnw
          refine ih (hunblock.rrEnqueue ?_ ?_) hloop
          · unfold Sched.taskSetUnblock
            split <;> exact ht
          · rw [InReady, hsame.1]
            exact hnr
        · exact ih (hpop.wqEnqueue ht fun hin => absurd hin hnw) hloop

/-! ## Blocking reads -/

/-- A read that empties the keyboard buffer blocks a task that is not in the ready
    queue, and not in the wait queue either unless that queue is full. -/
def ReadOnce (s : Sched) (caller : ProcPtr) (count : Nat) : Prop :=
  (s.procs caller).keyboardBuffer.count < count →
    ∀ t ∈ (s.procs caller).tasks 0,
      ¬ s.InReady t ∧ (s.InWait t → waitMax ≤ s.waitQueue.count)

/-- Overwriting a process that keeps its first task or loses it. -/
theorem Disciplined.setProc (h : s.Disciplined) {p : ProcPtr} {v : Process}
    (hv : ∀ x, v.tasks 0 = some x → (s.procs p).tasks 0 = some x) : (s.setProc p v).Disciplined := by
  refine h.of_moved ⟨h.waitNodup, h.readyNodup, h.ready, h.wait⟩ rfl (fun _ => rfl)
    (fun q x hx => ?_) (fun _ => .inl) (fun _ => h.ofCurr) (fun _ => h.ofReady) (fun _ => h.ofWait)
  simp only [Sched.setProc] at hx
  split at hx
  · rename_i hqp
    exact hqp ▸ hv x hx
  · exact hx

theorem Disciplined.block (h : s.Disciplined) (ht : t ∈ s.created) (hr : ¬ s.InReady t)
    (hw : s.InWait t → waitMax ≤ s.waitQueue.count) :
    (((s.taskSetBlock t).taskBlockOn t .keyboard).wqEnqueue t).Disciplined := by
  have hblock : (s.taskSetBlock t).Disciplined :=
    h.setTask rfl (fun hin => absurd hin hr) (fun _ => rfl)
  have hself : ((s.taskSetBlock t).tasks t).state = .block := by
    simp only [taskSetBlock, setState, setTask_tasks_self]
  have hon : ((s.taskSetBlock t).taskBlockOn t .keyboard).Disciplined :=
    hblock.setTask rfl (fun hin => absurd hin hr) (fun _ => hself)
  exact hon.wqEnqueue ht hw

theorem Disciplined.sysReadLoop {caller : ProcPtr} {n : Nat} (h : s.Disciplined)
    (hcaller : s.Reaches caller) (honce : s.ReadOnce caller n) :
    (sysReadLoop caller n s).2.Disciplined := by
  induction n generalizing s with
  | zero => exact h
  | succ n ih =>
      unfold Sched.sysReadLoop
      simp only
      split
      · rename_i hempty
        split
        · exact h
        · rename_i t ht
          have hcount : (s.procs caller).keyboardBuffer.count < n + 1 := by
            unfold fifoDequeue at hempty
            split at hempty
            · cases hempty
            · omega
          obtain ⟨hr, hw⟩ := honce hcount t ht
          exact h.block (h.ofFirst hcaller ht) hr hw
      · rename_i b fifo hbyte
        unfold fifoDequeue at hbyte
        split at hbyte
        · simp only [Prod.mk.injEq] at hbyte
          obtain ⟨-, rfl⟩ := hbyte
          refine ih (h.setProc fun _ hx => hx) hcaller fun hlt t ht => ?_
          simp only [Sched.setProc, if_true, Ring.pop_count] at hlt ht
          exact honce (by omega) t ht
        · cases hbyte

/-! ## Creation and exit -/

/-- A spawned task is new, so it is in no queue yet. -/
theorem Disciplined.spawn {p : ProcPtr} (file : List Char) (h : s.Disciplined)
    (hfresh : t ∉ s.created) : (s.spawn p t file).Disciplined := by
  have hr : ¬ s.InReady t := fun hin => hfresh (h.ofReady hin)
  have hw : ¬ s.InWait t := fun hin => hfresh (h.ofWait hin)
  have hset := h.toQueueDiscipline.setTask (v := { parent := p, state := .ready, waitingOn := .none })
    (fun hin => absurd hin hr) (fun hin => absurd hin hw)
  unfold Sched.spawn rrAdd
  refine Disciplined.rrEnqueue ⟨⟨hset.waitNodup, hset.readyNodup, hset.ready, hset.wait⟩, ?_⟩
    List.mem_cons_self hr
  rintro x (hx | hx | hx | ⟨q, hq, hx⟩)
  · exact List.mem_cons_of_mem _ (h.ofReady hx)
  · exact List.mem_cons_of_mem _ (h.ofWait hx)
  · exact List.mem_cons_of_mem _ (h.ofCurr hx)
  · simp only [Sched.setProc, Sched.setTask] at hx
    by_cases hqp : q = p
    · rw [if_pos hqp] at hx
      have htx : some t = some x := hx
      rw [← Option.some.inj htx]
      exact List.mem_cons_self
    · rw [if_neg hqp] at hx
      refine List.mem_cons_of_mem _ (h.ofFirst ?_ hx)
      rcases hq with hq | ⟨y, hy, hq⟩
      · rcases hcurr : s.currProcess with _ | r
        · simp only [Sched.setProc, Sched.setTask, hcurr] at hq
          exact absurd (Option.some.inj hq).symm hqp
        · simp only [Sched.setProc, Sched.setTask, hcurr] at hq
          exact .inl (hcurr.trans hq)
      · simp only [Sched.setProc, Sched.setTask] at hq
        split at hq
        · exact absurd hq.symm hqp
        · rename_i hyt
          exact .inr ⟨y, (List.mem_cons.mp hy).resolve_left hyt, hq⟩

theorem Disciplined.taskExit (h : s.Disciplined) : (s.taskExit t).Disciplined := by
  refine h.setProc fun x hx => ?_
  simp only at hx
  split at hx
  · cases hx
  · exact hx

theorem Disciplined.processExit {p : ProcPtr} (h : s.Disciplined) :
    (s.processExit p).Disciplined := by
  refine h.of_moved ⟨h.waitNodup, h.readyNodup, h.ready, h.wait⟩ rfl (fun _ => rfl)
    (fun _ _ => id) (fun q hq => ?_) (fun _ => h.ofCurr) (fun _ => h.ofReady) (fun _ => h.ofWait)
  simp only [Sched.processExit] at hq
  split at hq
  · cases hq
  · exact .inl hq

/-- The task that exits is in no queue. -/
def ExitsUnqueued (s : Sched) : Prop := ∀ t ∈ s.currTask, ¬ s.InReady t ∧ ¬ s.InWait t

theorem Disciplined.sysExitTask (h : s.Disciplined) (hr : ¬ s.InReady t) (hw : ¬ s.InWait t) :
    (s.sysExitTask t).Disciplined := by
  -- marking a task that is in no queue
  have hset : ∀ {s₂ : Sched}, s₂.Disciplined → s₂.readyQueue = s.readyQueue →
      s₂.waitQueue = s.waitQueue →
      Disciplined { s₂.setState t .terminate with exited := t :: s₂.exited } := by
    intro s₂ h₂ hready hwait
    have hset : (s₂.setState t .terminate).Disciplined :=
      h₂.setTask rfl (fun hin => absurd (show s.InReady t by rw [InReady, ← hready]; exact hin) hr)
        (fun hin => absurd (show s.InWait t by rw [InWait, ← hwait]; exact hin) hw)
    exact ⟨⟨hset.waitNodup, hset.readyNodup, hset.ready, hset.wait⟩, hset.known⟩
  unfold Sched.sysExitTask
  dsimp only
  split
  · exact hset h.taskExit.processExit rfl rfl
  · exact hset h.taskExit rfl rfl

theorem Disciplined.sysExit {p' : ProcPtr} {t' : TaskPtr} (h : s.Disciplined)
    (hexit : s.ExitsUnqueued) (hstep : s.sysExit p' t' = some s') : s'.Disciplined := by
  obtain ⟨s₁, huntil, hyield⟩ := Option.bind_eq_some_iff.mp hstep
  obtain ⟨t, ht, hcase⟩ := sysExitUntilYield_cases huntil
  obtain ⟨hr, hw⟩ := hexit t ht
  have hended : (s.sysExitTask t).Disciplined := h.sysExitTask hr hw
  rcases hcase with ⟨-, rfl⟩ | ⟨-, hfresh, rfl⟩
  · exact hended.rrYield hyield
  · have hspawn := hended.spawn (p := p') (t := t') icarshPath hfresh.2
    refine Disciplined.rrYield ?_ hyield
    exact ⟨⟨hspawn.waitNodup, hspawn.readyNodup, hspawn.ready, hspawn.wait⟩, hspawn.known⟩

/-! ## Whole runs -/

/-- The step leaves queued tasks alone: a read blocks, and an exit ends, no task
    that is in a queue. -/
def Orderly (s : Sched) : Event → Prop
  | .read count => ∀ t ∈ s.currTask, s.ReadOnce (s.tasks t).parent count
  | .exit _ _ => s.ExitsUnqueued
  | _ => True

instance (s : Sched) : DecidablePred s.Orderly
  | .spawn _ _ _ => inferInstanceAs (Decidable True)
  | .foreground _ => inferInstanceAs (Decidable True)
  | .tick => inferInstanceAs (Decidable True)
  | .read _ => inferInstanceAs (Decidable (∀ t ∈ s.currTask, _ → ∀ t ∈ _, _ ∧ (_ → _)))
  | .key _ => inferInstanceAs (Decidable True)
  | .exit _ _ => inferInstanceAs (Decidable (∀ t ∈ s.currTask, _ ∧ _))

theorem Disciplined.step {e : Event} (h : s.Disciplined) (horderly : s.Orderly e)
    (hstep : s.step e = some s') : s'.Disciplined := by
  cases e with
  | spawn p t file =>
      simp only [Sched.step] at hstep
      split at hstep
      · rename_i hfresh
        exact Option.some.inj hstep ▸ h.spawn _ hfresh.2
      · cases hstep
  | foreground p =>
      simp only [Sched.step] at hstep
      split at hstep
      · rw [← Option.some.inj hstep]
        exact ⟨⟨h.waitNodup, h.readyNodup, h.ready, h.wait⟩, h.known⟩
      · cases hstep
  | tick => exact h.rrYield hstep
  | read count =>
      simp only [Sched.step, sysRead] at hstep
      split at hstep
      · cases hstep
      · rename_i t ht
        simp only [Option.map_some, Option.some.injEq] at hstep
        exact hstep ▸ h.sysReadLoop (.inr ⟨t, h.ofCurr ht, rfl⟩) (horderly t ht)
  | key scancode =>
      simp only [Sched.step, irq1] at hstep
      split at hstep
      · exact h.wqWakeupLoop hstep
      · refine Disciplined.wqWakeupLoop ?_ hstep
        exact h.setProc fun _ hx => hx
  | exit p' t' => exact h.sysExit horderly hstep

theorem disciplined_boot (tasks : TaskPtr → Task) (procs : ProcPtr → Process) :
    (boot tasks procs).Disciplined := by
  refine ⟨⟨List.nodup_nil, List.nodup_nil, fun t ht => ?_, fun t ht => ?_⟩, fun t ht => ?_⟩
  · exact absurd ht List.not_mem_nil
  · exact absurd ht List.not_mem_nil
  · rcases ht with ht | ht | ht | ⟨p, hp, -⟩
    · exact absurd ht List.not_mem_nil
    · exact absurd ht List.not_mem_nil
    · cases ht
    · rcases hp with hp | ⟨y, hy, -⟩
      · cases hp
      · exact absurd hy List.not_mem_nil

/-- The queues stay in order in a run that never blocks or ends a queued task. -/
theorem queueDiscipline_of_orderly (tasks : TaskPtr → Task) (procs : ProcPtr → Process)
    (es : List Event) (s : Sched) (hrun : Runs step Orderly (boot tasks procs) es s) :
    s.QueueDiscipline :=
  (hrun.invariant Disciplined (disciplined_boot tasks procs)
    fun _ _ _ h horderly hstep => h.step horderly hstep).toQueueDiscipline

theorem queueDiscipline_of_turns : ∃ s, exec step Orderly coldBoot turns = some s ∧
    s.QueueDiscipline := by
  have hsome : (exec step Orderly coldBoot turns).isSome = true := by decide +kernel
  obtain ⟨s, hs⟩ := Option.isSome_iff_exists.mp hsome
  exact ⟨s, hs, queueDiscipline_of_orderly _ _ turns s (runs_of_exec hs)⟩

/-- The shell reads twice before the next tick, with no key pressed. -/
def impatientShell : List Event :=
  [.spawn 1 1 "KIDLE".toList, .spawn 2 2 icarshPath, .tick, .tick, .read 1, .read 1]

/-- Without the condition a task gets into the wait queue twice. -/
theorem exists_queued_twice : ¬ ∀ (tasks : TaskPtr → Task) (procs : ProcPtr → Process)
    (es : List Event) (s : Sched), Runs step always (boot tasks procs) es s →
      s.QueueDiscipline := by
  intro h
  have htwice : ∃ s ∈ exec step always coldBoot impatientShell, ¬ s.waitQueue.contents.Nodup := by
    decide +kernel
  obtain ⟨s, hs, htwice⟩ := htwice
  exact htwice (h _ _ impatientShell s (runs_of_exec hs)).waitNodup

end Sched

end Icarius.Scheduler
