/-
  Icarius.Scheduler.Dispatch

  What `rr_yield` looks at and what it ends with.  It asks for the current task once and
  reads the state behind that pointer; where there is no current task it makes one current,
  but goes on with the null pointer it has.  There is none at the first timer tick, and there
  is one ever after.  The ready queue holds no null pointer in any run, so a yield that finds
  the queue not empty dispatches the task in front.
-/

import Icarius.Scheduler.NoTaskLost

namespace Icarius.Scheduler

open Icarius.Lib

namespace Sched

/-! ## A yield -/

/-- A yield from this state reads no null task.  Where it comes to `_rr_dequeue` with tasks in
    the queue, the front one is no null pointer, and is current and RUN when the yield ends.
    The queue has not become shorter until then. -/
def YieldSafe (s : Sched) : Prop :=
  (∃ curr s₀, s.rrYieldCurr = some (some curr, s₀)) ∧ ∃ s₁, s.rrRequeue = some s₁ ∧
    s.readyQueue.count ≤ s₁.readyQueue.count ∧
    (0 < s₁.readyQueue.count → ∃ next s₂, s₁.readyQueue.front = some next ∧
      s.rrYield = some s₂ ∧ s₂.currTask = some next ∧ (s₂.tasks next).state = .run)

/-- The state in which the event calls `rr_yield`, if it does -/
def yieldsIn (s : Sched) : Event → Option Sched
  | .tick => some s
  | .exit p' t' => s.sysExitUntilYield p' t'
  | _ => none

/-! ## What the handlers leave alone -/

/-- The current task and process are the same, no process has lost its first task, and no
    null pointer has come into the ready queue. -/
structure Keeps (s s' : Sched) : Prop where
  currTask : s'.currTask = s.currTask
  currProcess : s'.currProcess = s.currProcess
  live : s'.live = s.live
  first : ∀ p, (s'.procs p).tasks 0 = (s.procs p).tasks 0
  ready : none ∉ s.readyQueue.contents → none ∉ s'.readyQueue.contents

section Keeps

variable {s s' s'' : Sched} {t : TaskPtr}

theorem Keeps.refl (s : Sched) : Keeps s s := ⟨rfl, rfl, rfl, fun _ => rfl, id⟩

theorem Keeps.trans (h : Keeps s s') (h' : Keeps s' s'') : Keeps s s'' :=
  ⟨h'.currTask.trans h.currTask, h'.currProcess.trans h.currProcess, h'.live.trans h.live,
    fun p => (h'.first p).trans (h.first p), fun hready => h'.ready (h.ready hready)⟩

theorem keeps_setTask (s : Sched) (t : TaskPtr) (v : Task) : Keeps s (s.setTask t v) :=
  ⟨rfl, rfl, rfl, fun _ => rfl, id⟩

theorem keeps_setWait (s : Sched) (q : WaitQueue) : Keeps s (s.setWait q) :=
  ⟨rfl, rfl, rfl, fun _ => rfl, id⟩

theorem keeps_setProc (s : Sched) (p : ProcPtr) {v : Process} (hv : v.tasks = (s.procs p).tasks) :
    Keeps s (s.setProc p v) := by
  refine ⟨rfl, rfl, rfl, fun q => ?_, id⟩
  simp only [setProc]
  split
  · next heq => rw [heq, hv]
  · rfl

theorem not_mem_rrEnqueue (h : none ∉ s.readyQueue.contents) :
    none ∉ (s.rrEnqueue t).readyQueue.contents := by
  unfold rrEnqueue
  split
  · split
    · rw [setReady_readyQueue, Ring.contents_push]
      simpa using h
    · exact h
  · exact h

theorem keeps_rrEnqueue (s : Sched) (t : TaskPtr) : Keeps s (s.rrEnqueue t) := by
  refine ⟨rrEnqueue_currTask s t, rrEnqueue_currProcess s t, ?_, fun p => ?_, not_mem_rrEnqueue⟩
  · unfold rrEnqueue
    split <;> [split <;> rfl; rfl]
  · rw [rrEnqueue_procs]

theorem keeps_wqEnqueue (s : Sched) (t : TaskPtr) : Keeps s (s.wqEnqueue t) := by
  refine ⟨wqEnqueue_currTask s t, wqEnqueue_currProcess s t, ?_, fun p => ?_, ?_⟩
  · unfold wqEnqueue
    split <;> [split <;> rfl; rfl]
  · rw [wqEnqueue_procs]
  · rw [wqEnqueue_readyQueue]
    exact id

theorem keeps_taskSetUnblock (s : Sched) (t : TaskPtr) : Keeps s (s.taskSetUnblock t) := by
  unfold taskSetUnblock
  split
  · exact keeps_setTask s _ _
  · exact .refl s

theorem keeps_wqWakeupLoop {reason : WaitReason} {i : Nat} (h : wqWakeupLoop reason i s = some s') :
    Keeps s s' := by
  induction i generalizing s with
  | zero => exact Option.some.inj h ▸ .refl s
  | succ i ih =>
      unfold wqWakeupLoop at h
      split at h
      · cases h
      · rename_i t s₁ hdeq
        obtain ⟨q, -, rfl⟩ := wqDequeue_some hdeq
        have hwait := keeps_setWait s q
        split at h
        · exact ((hwait.trans (keeps_taskSetUnblock _ t)).trans (keeps_rrEnqueue _ t)).trans (ih h)
        · exact (hwait.trans (keeps_wqEnqueue _ t)).trans (ih h)

theorem keeps_sysReadLoop (caller : ProcPtr) (n : Nat) (s : Sched) :
    Keeps s (sysReadLoop caller n s).2 := by
  induction n generalizing s with
  | zero => exact .refl s
  | succ n ih =>
      unfold sysReadLoop
      dsimp only
      split
      · split
        · exact .refl s
        · exact ((keeps_setTask s _ _).trans (keeps_setTask _ _ _)).trans (keeps_wqEnqueue _ _)
      · rename_i b fifo hbyte
        have hproc : Keeps s (s.setProc caller { s.procs caller with keyboardBuffer := fifo }) :=
          keeps_setProc s caller rfl
        exact hproc.trans (ih _)

end Keeps

/-! ## Whole runs -/

/-- There has been a tick exactly when there is a current task, the ready queue holds no null
    pointer, and until the first tick the current process has a first task to make current. -/
structure Dispatching (s : Sched) (ticked : Prop) : Prop where
  ready : none ∉ s.readyQueue.contents
  curr : s.currTask ≠ none ↔ ticked
  first : s.currTask = none → ∀ p ∈ s.currProcess, p ∈ s.live ∧ (s.procs p).tasks 0 ≠ none

section Runs

variable {s s' s₁ : Sched} {t : TaskPtr} {ticked : Prop}

theorem Dispatching.keeps (h : s.Dispatching ticked) (hkeeps : Keeps s s') :
    s'.Dispatching ticked := by
  refine ⟨hkeeps.ready h.ready, by rw [hkeeps.currTask]; exact h.curr, fun hnone p hp => ?_⟩
  rw [hkeeps.currTask] at hnone
  rw [hkeeps.currProcess] at hp
  rw [hkeeps.live, hkeeps.first]
  exact h.first hnone p hp

/-- Before the first tick a spawn changes the current process only where there is none. -/
theorem Dispatching.spawn {p : ProcPtr} (file : List Char) (h : s.Dispatching ticked)
    (hfresh : p ∉ s.live) : (s.spawn p t file).Dispatching ticked := by
  refine ⟨not_mem_rrEnqueue h.ready, ?_, fun hnone q hq => ?_⟩
  · rw [Sched.spawn, rrAdd, rrEnqueue_currTask]
    exact h.curr
  · have hlive : (s.spawn p t file).live = p :: s.live := (keeps_rrEnqueue _ t).live
    have hprocs : ((s.spawn p t file).procs q).tasks 0
        = if q = p then some t else (s.procs q).tasks 0 := by
      refine ((keeps_rrEnqueue _ t).first q).trans ?_
      simp only [setTask, setProc]
      split <;> rfl
    have hcurr : (s.spawn p t file).currProcess = s.currProcess.orElse fun _ => some p :=
      (keeps_rrEnqueue _ t).currProcess
    have hnone' : s.currTask = none := by
      rw [Sched.spawn, rrAdd, rrEnqueue_currTask] at hnone
      exact hnone
    rw [hcurr] at hq
    rw [hlive, hprocs]
    cases hproc : s.currProcess with
    | none =>
        rw [hproc] at hq
        obtain rfl : p = q := Option.some.inj hq
        rw [if_pos rfl]
        exact ⟨List.mem_cons_self, Option.some_ne_none t⟩
    | some r =>
        rw [hproc] at hq
        obtain rfl : r = q := Option.some.inj hq
        obtain ⟨hmem, htask⟩ := h.first hnone' r hproc
        rw [if_neg fun heq : r = p => hfresh (heq ▸ hmem)]
        exact ⟨List.mem_cons_of_mem _ hmem, htask⟩

/-- The end of a yield dispatches the task in front of the queue, if there is one. -/
theorem rrSwitchNext_spec (hready : none ∉ s.readyQueue.contents) :
    (0 < s.readyQueue.count → ∃ next, s.readyQueue.front = some next ∧
      s.rrSwitchNext.currTask = some next ∧ (s.rrSwitchNext.tasks next).state = .run) ∧
    none ∉ s.rrSwitchNext.readyQueue.contents ∧
    (s.currTask ≠ none → s.rrSwitchNext.currTask ≠ none) := by
  -- an empty queue leaves the current task as it is
  by_cases hpos : 0 < s.readyQueue.count
  · have hcontents := Ring.contents_pop s.readyQueue none hpos
    rw [hcontents] at hready
    obtain ⟨next, hnext⟩ : ∃ next, s.readyQueue.front = some next :=
      Option.ne_none_iff_exists'.mp fun heq => hready (heq ▸ List.mem_cons_self)
    have hswitch : s.rrSwitchNext = (s.setReady (s.readyQueue.pop none hpos)).taskSwitch next := by
      simp only [rrSwitchNext, rrDequeue, dif_pos hpos, hnext]
    rw [hswitch]
    refine ⟨fun _ => ⟨next, hnext, rfl, ?_⟩, fun hmem => hready (List.mem_cons_of_mem _ hmem),
      fun _ => Option.some_ne_none next⟩
    exact congrArg Task.state (setTask_tasks_self _ next _)
  · have hswitch : s.rrSwitchNext = s := by
      simp only [rrSwitchNext, rrDequeue, dif_neg hpos]
    rw [hswitch]
    exact ⟨fun h => absurd h hpos, hready, id⟩

/-- A yield with a current task comes to the end of the yield with the same one, and with
    nothing lost from the queue. -/
theorem exists_rrRequeue (h : s.currTask ≠ none) :
    ∃ s₁, s.rrRequeue = some s₁ ∧ Keeps s s₁ ∧ s.readyQueue.count ≤ s₁.readyQueue.count := by
  obtain ⟨curr, hcurr⟩ := Option.ne_none_iff_exists'.mp h
  refine ⟨_, rrRequeue_of_curr hcurr, ?_⟩
  rw [rrYieldEnqueue]
  split
  · refine ⟨(keeps_setTask s curr _).trans (keeps_rrEnqueue _ curr), ?_⟩
    unfold rrEnqueue
    split
    · split
      · exact Nat.le_succ _
      · exact Nat.le_refl _
    · exact Nat.le_refl _
  · exact ⟨.refl s, Nat.le_refl _⟩

/-- The pointer whose state a yield reads is null if and only if there is no current task. -/
theorem exists_rrYieldCurr_iff :
    (∃ curr s₀, s.rrYieldCurr = some (some curr, s₀)) ↔ s.currTask ≠ none := by
  rw [rrYieldCurr]
  cases hcurr : s.currTask with
  | none =>
      refine ⟨?_, fun h => absurd rfl h⟩
      cases hproc : s.currProcess with
      | none => rintro ⟨_, _, ⟨⟩⟩
      | some p => rintro ⟨_, _, ⟨⟩⟩
  | some curr => exact ⟨fun _ => Option.some_ne_none curr, fun _ => ⟨curr, s, rfl⟩⟩

/-- A yield is safe if and only if there is a current task. -/
theorem yieldSafe_iff_currTask (hready : none ∉ s.readyQueue.contents) :
    s.YieldSafe ↔ s.currTask ≠ none := by
  refine ⟨fun h => exists_rrYieldCurr_iff.mp h.1, fun h => ⟨exists_rrYieldCurr_iff.mpr h, ?_⟩⟩
  obtain ⟨s₁, hrequeue, hkeeps, hcount⟩ := exists_rrRequeue h
  refine ⟨s₁, hrequeue, hcount, fun hpos => ?_⟩
  obtain ⟨next, hnext, hcurr, hrun⟩ := (rrSwitchNext_spec (hkeeps.ready hready)).1 hpos
  exact ⟨next, _, hnext, by rw [rrYield, hrequeue]; rfl, hcurr, hrun⟩

/-- After a yield there is a current task. -/
theorem Dispatching.rrYield (h : s.Dispatching ticked) (hyield : s.rrYield = some s') :
    s'.Dispatching True := by
  obtain ⟨s₁, hrequeue, rfl⟩ := Option.map_eq_some_iff.mp hyield
  have hs₁ : none ∉ s₁.readyQueue.contents ∧ s₁.currTask ≠ none := by
    by_cases hnone : s.currTask = none
    · obtain ⟨-, p, hproc, rfl⟩ | ⟨curr, hcurr, -⟩ | ⟨curr, hcurr, -⟩ := rrRequeue_cases hrequeue
      · -- the first task of the current process is made current
        obtain ⟨t, ht⟩ := Option.ne_none_iff_exists'.mp (h.first hnone p hproc).2
        rw [ht]
        exact ⟨h.ready, Option.some_ne_none t⟩
      · exact absurd (hnone.symm.trans hcurr) (Option.some_ne_none curr).symm
      · exact absurd (hnone.symm.trans hcurr) (Option.some_ne_none curr).symm
    · obtain ⟨s₂, hsome, hkeeps, -⟩ := exists_rrRequeue hnone
      obtain rfl : s₂ = s₁ := Option.some.inj (hsome.symm.trans hrequeue)
      exact ⟨hkeeps.ready h.ready, by rw [hkeeps.currTask]; exact hnone⟩
  obtain ⟨hready, hcurr⟩ := hs₁
  obtain ⟨-, hready', hcurr'⟩ := rrSwitchNext_spec hready
  exact ⟨hready', ⟨fun _ => trivial, fun _ => hcurr' hcurr⟩,
    fun hnone => absurd hnone (hcurr' hcurr)⟩

/-- The state in which a task that exits calls `rr_yield` -/
theorem Dispatching.sysExitUntilYield {p' : ProcPtr} {t' : TaskPtr} (h : s.Dispatching ticked)
    (hexit : s.sysExitUntilYield p' t' = some s₁) : s₁.Dispatching ticked ∧ s₁.currTask ≠ none := by
  obtain ⟨t, ht, hcase⟩ := sysExitUntilYield_cases hexit
  obtain ⟨hqueue, -, hcurr, -⟩ := sysExitTask_same s t
  have hready : none ∉ (s.sysExitTask t).readyQueue.contents := hqueue ▸ h.ready
  have hsame : s₁.currTask = s.currTask ∧ none ∉ s₁.readyQueue.contents := by
    rcases hcase with ⟨-, rfl⟩ | ⟨-, -, rfl⟩
    · exact ⟨hcurr, hready⟩
    · refine ⟨Eq.trans ?_ hcurr, not_mem_rrEnqueue hready⟩
      simp only [Sched.spawn, rrAdd, rrEnqueue_currTask]
      rfl
  have hne : s₁.currTask ≠ none := by
    rw [hsame.1, ht]
    exact Option.some_ne_none t
  exact ⟨⟨hsame.2, by rw [hsame.1]; exact h.curr, fun hnone => absurd hnone hne⟩, hne⟩

theorem Dispatching.step {e : Event} (h : s.Dispatching ticked) (hstep : s.step e = some s') :
    s'.Dispatching (ticked ∨ e = .tick) := by
  -- an event that keeps `ticked` as it is
  have hother : e ≠ .tick → s'.Dispatching ticked → s'.Dispatching (ticked ∨ e = .tick) := by
    intro hne h'
    exact ⟨h'.ready, h'.curr.trans ⟨.inl, fun hor => hor.resolve_right hne⟩, h'.first⟩
  cases e with
  | spawn p t file =>
      simp only [Sched.step] at hstep
      split at hstep
      · rename_i hfresh
        exact hother (by rintro ⟨⟩) (Option.some.inj hstep ▸ h.spawn file hfresh.1)
      · cases hstep
  | foreground p =>
      simp only [Sched.step] at hstep
      split at hstep
      · exact hother (by rintro ⟨⟩) (Option.some.inj hstep ▸ h.keeps ⟨rfl, rfl, rfl, fun _ => rfl, id⟩)
      · cases hstep
  | tick =>
      have hyield := h.rrYield hstep
      exact ⟨hyield.ready, ⟨fun _ => .inr rfl, fun _ => hyield.curr.mpr trivial⟩, hyield.first⟩
  | read count =>
      simp only [Sched.step, sysRead] at hstep
      split at hstep
      · cases hstep
      · simp only [Option.map_some, Option.some.injEq] at hstep
        exact hother (by rintro ⟨⟩) (hstep ▸ h.keeps (keeps_sysReadLoop _ count s))
  | key scancode =>
      simp only [Sched.step, irq1] at hstep
      split at hstep
      · exact hother (by rintro ⟨⟩) (h.keeps (keeps_wqWakeupLoop hstep))
      · refine hother (by rintro ⟨⟩) (h.keeps (Keeps.trans ?_ (keeps_wqWakeupLoop hstep)))
        exact keeps_setProc s _ rfl
  | exit p' t' =>
      obtain ⟨s₁, hexit, hyield⟩ := Option.bind_eq_some_iff.mp hstep
      obtain ⟨h₁, hcurr⟩ := h.sysExitUntilYield hexit
      have hticked := h₁.curr.mp hcurr
      have h' := h₁.rrYield hyield
      exact ⟨h'.ready, ⟨fun _ => .inl hticked, fun _ => h'.curr.mpr trivial⟩, h'.first⟩

theorem dispatching_of_run {tasks : TaskPtr → Task} {procs : ProcPtr → Process} {es : List Event}
    (hrun : Runs step always (boot tasks procs) es s) : s.Dispatching (Event.tick ∈ es) := by
  induction hrun with
  | nil => exact ⟨List.not_mem_nil, ⟨fun h => absurd rfl h, fun h => absurd h List.not_mem_nil⟩,
      fun _ _ hp => absurd hp (Option.not_mem_none _)⟩
  | @snoc es s s' e _ _ hstep ih =>
      have h' := ih.step hstep
      exact ⟨h'.ready, by rw [h'.curr, List.mem_append, List.mem_singleton, eq_comm (a := e)],
        h'.first⟩

/-- In every run from boot, a call of `rr_yield` is safe if and only if a timer tick has come
    before it. -/
theorem yieldSafe_iff_ticked (tasks : TaskPtr → Task) (procs : ProcPtr → Process)
    (es : List Event) (s : Sched) (hrun : Runs step always (boot tasks procs) es s) (e : Event)
    (s₁ : Sched) (hyield : s.yieldsIn e = some s₁) : s₁.YieldSafe ↔ Event.tick ∈ es := by
  have h := dispatching_of_run hrun
  have h₁ : s₁.Dispatching (Event.tick ∈ es) := by
    -- no other event comes to `rr_yield`
    cases e with
    | tick => exact Option.some.inj hyield ▸ h
    | exit p' t' => exact (h.sysExitUntilYield hyield).1
    | spawn | foreground | read | key => cases hyield
  rw [yieldSafe_iff_currTask h₁.ready, h₁.curr]

theorem yieldSafe_iff_ticked_turns : ∃ s, exec step always coldBoot turns = some s ∧
    (s.YieldSafe ↔ Event.tick ∈ turns) := by
  have hsome : (exec step always coldBoot turns).isSome = true := by decide +kernel
  obtain ⟨s, hs⟩ := Option.isSome_iff_exists.mp hsome
  exact ⟨s, hs, yieldSafe_iff_ticked _ _ turns s (runs_of_exec hs) .tick s rfl⟩

/-- What `_bootstrap` does; the next event is the first timer tick. -/
def bootstrap : List Event :=
  [.spawn 1 1 "KIDLE".toList, .spawn 2 2 icarshPath, .foreground 2]

/-- The first yield reads the state of a null task. -/
theorem exists_null_read : ¬ ∀ (tasks : TaskPtr → Task) (procs : ProcPtr → Process)
    (es : List Event) (s : Sched), Runs step always (boot tasks procs) es s →
      ∀ e s₁, s.yieldsIn e = some s₁ → s₁.YieldSafe := by
  intro hall
  have hnull : ∃ s ∈ exec step always coldBoot bootstrap, s.currTask = none := by
    decide +kernel
  obtain ⟨s, hs, hnull⟩ := hnull
  exact exists_rrYieldCurr_iff.mp (hall _ _ bootstrap s (runs_of_exec hs) .tick s rfl).1 hnull

end Runs

end Sched

end Icarius.Scheduler
