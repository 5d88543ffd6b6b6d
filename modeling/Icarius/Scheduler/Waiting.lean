/-
  Icarius.Scheduler.Waiting

  How long a READY task waits for the processor.  Whatever comes into the ready queue comes
  in behind, and only a yield takes anything out, the task in front.  So the yields alone
  decide when a queued task runs: the task with `i` others in front of it becomes current at
  the yield after the next `i`, whatever interrupts and system calls come in between.
-/

import Icarius.Scheduler.Dispatch
import Icarius.Scheduler.RoundRobin

namespace Icarius.Scheduler

open Icarius.Lib

namespace Sched

/-- The handlers of these events end in `rr_yield`. -/
def Event.yields : Event → Bool
  | .tick => true
  | .exit _ _ => true
  | _ => false

/-! ## What comes in comes in behind -/

/-- The ready queue has only grown at its end. -/
def Behind (s s' : Sched) : Prop := s.readyQueue.contents <+: s'.readyQueue.contents

section Behind

variable {s s' s'' : Sched} {t : TaskPtr}

theorem behind_of_eq (h : s'.readyQueue = s.readyQueue) : Behind s s' := by
  unfold Behind
  rw [h]

theorem Behind.trans (h : Behind s s') (h' : Behind s' s'') : Behind s s'' :=
  List.IsPrefix.trans h h'

theorem behind_rrEnqueue (s : Sched) (t : TaskPtr) : Behind s (s.rrEnqueue t) := by
  unfold rrEnqueue
  split
  · split
    · show _ <+: (s.readyQueue.push (some t) _).contents
      rw [Ring.contents_push]
      exact List.prefix_append _ _
    · exact behind_of_eq rfl
  · exact behind_of_eq rfl

theorem behind_enqueue (h : s'.readyQueue = s.readyQueue) : Behind s (s'.rrEnqueue t) :=
  (behind_of_eq h).trans (behind_rrEnqueue s' t)

theorem behind_wqWakeupLoop {reason : WaitReason} {i : Nat}
    (h : wqWakeupLoop reason i s = some s') : Behind s s' := by
  induction i generalizing s with
  | zero => exact behind_of_eq (congrArg readyQueue (Option.some.inj h).symm)
  | succ i ih =>
      unfold wqWakeupLoop at h
      split at h
      · cases h
      · rename_i t s₁ hdeq
        obtain ⟨q, -, rfl⟩ := wqDequeue_some hdeq
        split at h
        · -- the task is woken and added
          exact (behind_enqueue (taskSetUnblock_same (s.setWait q) t).1).trans (ih h)
        · -- the task goes back to the wait queue
          refine Behind.trans (behind_of_eq ?_) (ih h)
          rw [wqEnqueue_readyQueue, setWait_readyQueue]

theorem behind_sysReadLoop (caller : ProcPtr) (n : Nat) (s : Sched) :
    Behind s (sysReadLoop caller n s).2 := by
  induction n generalizing s with
  | zero => exact behind_of_eq rfl
  | succ n ih =>
      unfold sysReadLoop
      dsimp only
      split
      · split
        · exact behind_of_eq rfl
        · apply behind_of_eq
          rw [wqEnqueue_readyQueue]
          rfl
      · rename_i b fifo hbyte
        have hproc : Behind s (s.setProc caller { s.procs caller with keyboardBuffer := fifo }) :=
          behind_of_eq rfl
        exact hproc.trans (ih _)

theorem behind_spawn (s : Sched) (p : ProcPtr) (t : TaskPtr) (file : List Char) :
    Behind s (s.spawn p t file) :=
  behind_enqueue (t := t) rfl

/-- `rr_yield` up to `_rr_dequeue` -/
theorem behind_rrRequeue (h : s.rrRequeue = some s') : Behind s s' := by
  obtain ⟨-, p, -, rfl⟩ | ⟨curr, -, -, rfl⟩ | ⟨-, -, -, rfl⟩ := rrRequeue_cases h
  · apply behind_of_eq
    unfold taskSetCurr
    split <;> rfl
  · exact behind_enqueue rfl
  · exact behind_of_eq rfl

/-- `_sys_exit` up to `scheduler_schedule` -/
theorem behind_sysExitUntilYield {p' : ProcPtr} {t' : TaskPtr}
    (h : s.sysExitUntilYield p' t' = some s') : Behind s s' := by
  obtain ⟨t, -, hcase⟩ := sysExitUntilYield_cases h
  have hended : Behind s (s.sysExitTask t) := behind_of_eq (sysExitTask_same s t).1
  rcases hcase with ⟨-, rfl⟩ | ⟨-, -, rfl⟩
  · exact hended
  · -- the shell's new task is added as well
    exact hended.trans (behind_enqueue (t := t') rfl)

/-- An event that does not yield takes nothing out of the queue. -/
theorem behind_step {e : Event} (he : e.yields = false) (hstep : s.step e = some s') :
    Behind s s' := by
  cases e with
  | spawn p t file =>
      simp only [step] at hstep
      split at hstep
      · exact Option.some.inj hstep ▸ behind_spawn s p t file
      · cases hstep
  | foreground p =>
      simp only [step] at hstep
      split at hstep
      · exact Option.some.inj hstep ▸ behind_of_eq rfl
      · cases hstep
  | read count =>
      simp only [step, sysRead] at hstep
      split at hstep
      · cases hstep
      · rw [Option.map_some] at hstep
        exact Option.some.inj hstep ▸ behind_sysReadLoop _ count s
  | key scancode =>
      simp only [step, irq1] at hstep
      split at hstep
      · exact behind_wqWakeupLoop hstep
      · rename_i p hp
        have hproc : ∀ v, Behind s (s.setProc p v) := fun v => behind_of_eq rfl
        exact (hproc _).trans (behind_wqWakeupLoop hstep)
  | tick | exit => cases he

/-- A yield comes to `_rr_dequeue` with what was in the queue still in front. -/
theorem exists_before_switch {e : Event} (he : e.yields = true) (hstep : s.step e = some s') :
    ∃ s₁, Behind s s₁ ∧ s' = s₁.rrSwitchNext := by
  -- from the call of `rr_yield` on
  have hyield : ∀ {s : Sched}, s.rrYield = some s' →
      ∃ s₁, Behind s s₁ ∧ s' = s₁.rrSwitchNext := by
    intro s h
    obtain ⟨s₁, hrequeue, hswitch⟩ := Option.map_eq_some_iff.mp h
    exact ⟨s₁, behind_rrRequeue hrequeue, hswitch.symm⟩
  cases e with
  | tick => exact hyield hstep
  | exit p' t' =>
      obtain ⟨s₁, hexit, h⟩ := Option.bind_eq_some_iff.mp hstep
      obtain ⟨s₂, hbehind, hswitch⟩ := hyield h
      exact ⟨s₂, (behind_sysExitUntilYield hexit).trans hbehind, hswitch⟩
  | spawn | foreground | read | key => cases he

end Behind

/-! ## The place of a task in the queue -/

/-- The task `t` is in the ready queue with `i` others in front of it. -/
def QueuedAt (s : Sched) (t : TaskPtr) (i : Nat) : Prop :=
  s.readyQueue.contents[i]? = some (some t)

section Place

variable {s s' : Sched} {t : TaskPtr} {i : Nat} {e : Event}

theorem QueuedAt.lt (h : s.QueuedAt t i) : i < rrMax := by
  have hlt := (List.getElem?_eq_some_iff.mp h).1
  rw [Ring.contents_length] at hlt
  exact Nat.lt_of_lt_of_le hlt s.readyQueue.count_le

theorem QueuedAt.behind (h : s.QueuedAt t i) (hbehind : Behind s s') : s'.QueuedAt t i := by
  obtain ⟨more, hmore⟩ := hbehind
  have hlt := (List.getElem?_eq_some_iff.mp h).1
  unfold QueuedAt
  rw [← hmore, List.getElem?_append_left hlt]
  exact h

/-- The end of a yield takes the front task and moves the others up by one. -/
theorem switch_of_contents {next : TaskPtr} {rest : List (Option TaskPtr)}
    (h : s.readyQueue.contents = some next :: rest) :
    s.rrSwitchNext.readyQueue.contents = rest ∧ s.rrSwitchNext.currTask = some next ∧
      (s.rrSwitchNext.tasks next).state = .run := by
  obtain ⟨q, hdequeue, hq⟩ := rrDequeue_of_contents h
  rw [rrSwitchNext, hdequeue]
  exact ⟨hq, rfl, congrArg Task.state (setTask_tasks_self _ next _)⟩

/-- The task in front is the one that a yield dispatches. -/
theorem QueuedAt.served (h : s.QueuedAt t 0) (he : e.yields = true)
    (hstep : s.step e = some s') : s'.currTask = some t ∧ (s'.tasks t).state = .run := by
  obtain ⟨s₁, hbehind, rfl⟩ := exists_before_switch he hstep
  have hfront : s₁.readyQueue.contents.head? = some (some t) := by
    rw [List.head?_eq_getElem?]
    exact h.behind hbehind
  obtain ⟨rest, hrest⟩ := List.head?_eq_some_iff.mp hfront
  exact (switch_of_contents hrest).2

/-- Every other task moves up by one at a yield. -/
theorem QueuedAt.moves (h : s.QueuedAt t (i + 1)) (hready : none ∉ s.readyQueue.contents)
    (he : e.yields = true) (hstep : s.step e = some s') : s'.QueuedAt t i := by
  obtain ⟨s₁, hbehind, rfl⟩ := exists_before_switch he hstep
  -- there is a task in front, and it is no null pointer
  obtain ⟨front, rest, hcontents⟩ : ∃ front rest, s.readyQueue.contents = front :: rest := by
    cases hq : s.readyQueue.contents with
    | nil =>
        rw [QueuedAt, hq] at h
        cases h
    | cons front rest => exact ⟨front, rest, rfl⟩
  obtain ⟨next, rfl⟩ : ∃ next, front = some next := by
    rw [hcontents] at hready
    exact Option.ne_none_iff_exists'.mp fun heq => hready (heq ▸ List.mem_cons_self)
  obtain ⟨more, hmore⟩ := hbehind
  rw [hcontents, List.cons_append] at hmore
  show s₁.rrSwitchNext.readyQueue.contents[i]? = some (some t)
  rw [(switch_of_contents hmore.symm).1]
  rw [QueuedAt, hcontents, List.getElem?_cons_succ] at h
  have hlt := (List.getElem?_eq_some_iff.mp h).1
  rw [List.getElem?_append_left hlt]
  exact h

end Place

/-! ## Whole runs -/

section Runs

variable {s s' : Sched} {t : TaskPtr} {i : Nat} {es : List Event}

/-- No null pointer comes into the ready queue of a run. -/
theorem ready_of_run (hready : none ∉ s.readyQueue.contents ∧ ∃ ticked, s.Dispatching ticked)
    (hrun : Runs step always s es s') :
    none ∉ s'.readyQueue.contents ∧ ∃ ticked, s'.Dispatching ticked :=
  hrun.invariant (fun s => none ∉ s.readyQueue.contents ∧ ∃ ticked, s.Dispatching ticked) hready
    fun _ _ _ hinv _ hstep => by
      obtain ⟨-, ticked, h⟩ := hinv
      exact ⟨(h.step hstep).ready, _, h.step hstep⟩

/-- After `k` yields, `k ≤ i`, the task has moved up by `k`. -/
theorem QueuedAt.after {ticked : Prop} (h : s.QueuedAt t i) (hdisp : s.Dispatching ticked)
    (hrun : Runs step always s es s') (hle : es.countP Event.yields ≤ i) :
    s'.QueuedAt t (i - es.countP Event.yields) := by
  induction hrun with
  | nil => exact h
  | @snoc es s₁ s₂ e hrun _ hstep ih =>
      rw [List.countP_append, List.countP_singleton] at hle ⊢
      cases he : e.yields with
      | false =>
          rw [he] at hle
          exact (ih hle).behind (behind_step he hstep)
      | true =>
          rw [he, if_pos rfl] at hle
          have h₁ := ih (by omega)
          obtain ⟨k, hk⟩ : ∃ k, i - es.countP Event.yields = k + 1 :=
            ⟨i - es.countP Event.yields - 1, by omega⟩
          rw [hk] at h₁
          have hready := (ready_of_run ⟨hdisp.ready, ticked, hdisp⟩ hrun).1
          have h₂ := h₁.moves hready he hstep
          have hplace : i - (es.countP Event.yields + 1) = k := by omega
          rw [if_pos rfl, hplace]
          exact h₂

/-- A run with more than `i` yields, cut in two at the yield after the first `i`. -/
theorem exists_yield (es : List Event) (h : i < es.countP Event.yields) :
    ∃ es₁ e es₂, es = es₁ ++ e :: es₂ ∧ e.yields = true ∧ es₁.countP Event.yields = i := by
  induction es generalizing i with
  | nil => exact absurd h (Nat.not_lt_zero i)
  | cons e es ih =>
      cases he : e.yields with
      | false =>
          rw [List.countP_cons_of_neg (by simp [he])] at h
          obtain ⟨es₁, e', es₂, rfl, he', hcount⟩ := ih h
          refine ⟨e :: es₁, e', es₂, rfl, he', ?_⟩
          rw [List.countP_cons_of_neg (by simp [he]), hcount]
      | true =>
          rw [List.countP_cons_of_pos he] at h
          cases i with
          | zero => exact ⟨[], e, es, rfl, he, rfl⟩
          | succ i =>
              obtain ⟨es₁, e', es₂, rfl, he', hcount⟩ := ih (Nat.lt_of_succ_lt_succ h)
              refine ⟨e :: es₁, e', es₂, rfl, he', ?_⟩
              rw [List.countP_cons_of_pos he, hcount]

/-- A task with `i` others in front of it becomes current at the yield after the next `i`. -/
theorem QueuedAt.dispatched {ticked : Prop} (h : s.QueuedAt t i) (hdisp : s.Dispatching ticked)
    (hrun : Runs step always s es s') (hyields : i < es.countP Event.yields) :
    ∃ es₁ e es₂ s₁ s₂, es = es₁ ++ e :: es₂ ∧ es₁.countP Event.yields = i ∧
      Runs step always s es₁ s₁ ∧ s₁.step e = some s₂ ∧
      s₂.currTask = some t ∧ (s₂.tasks t).state = .run := by
  obtain ⟨es₁, e, es₂, rfl, he, hcount⟩ := exists_yield es hyields
  obtain ⟨s₁, hrun₁, hrest⟩ := hrun.of_append
  obtain ⟨-, s₂, hstep, -⟩ := hrest.of_cons
  have hfront := h.after hdisp hrun₁ (Nat.le_of_eq hcount)
  rw [hcount, Nat.sub_self] at hfront
  exact ⟨es₁, e, es₂, s₁, s₂, rfl, hcount, hrun₁, hstep, hfront.served he hstep⟩

/-- No starvation: in every run from boot, a task of the ready queue with `i` others in front
    of it keeps its turn whatever happens.  After `k ≤ i` yields `i - k` tasks are in front of
    it, the yield after that makes it current and RUN, and `i` is below `RR_MAX`. -/
theorem bounded_waiting (tasks : TaskPtr → Task) (procs : ProcPtr → Process)
    (es : List Event) (s : Sched) (hrun : Runs step always (boot tasks procs) es s)
    (t : TaskPtr) (i : Nat) (hqueued : s.readyQueue.contents[i]? = some (some t)) :
    i < rrMax ∧ ∀ (es' : List Event) (s' : Sched), Runs step always s es' s' →
      (es'.countP Event.yields ≤ i →
        s'.readyQueue.contents[i - es'.countP Event.yields]? = some (some t)) ∧
      (i < es'.countP Event.yields →
        ∃ es₁ e es₂ s₁ s₂, es' = es₁ ++ e :: es₂ ∧ es₁.countP Event.yields = i ∧
          Runs step always s es₁ s₁ ∧ s₁.step e = some s₂ ∧
          s₂.currTask = some t ∧ (s₂.tasks t).state = .run) := by
  have hdisp := dispatching_of_run hrun
  have hplace : s.QueuedAt t i := hqueued
  refine ⟨hplace.lt, fun es' s' hrun' => ⟨fun hle => ?_, fun hlt => ?_⟩⟩
  · exact hplace.after hdisp hrun' hle
  · exact hplace.dispatched hdisp hrun' hlt

/-- The shell stands behind the idle task at boot.  A key comes in between the two ticks. -/
theorem bounded_waiting_shell : ∃ s ∈ exec step always coldBoot bootstrap,
    1 < rrMax ∧ ∃ es₁ e es₂ s₁ s₂, [Event.tick, .key 30, .tick] = es₁ ++ e :: es₂ ∧
      es₁.countP Event.yields = 1 ∧ Runs step always s es₁ s₁ ∧ s₁.step e = some s₂ ∧
      s₂.currTask = some 2 ∧ (s₂.tasks 2).state = .run := by
  have hplace : ∃ s ∈ exec step always coldBoot bootstrap,
      s.readyQueue.contents[1]? = some (some 2) ∧
        (exec step always s [.tick, .key 30, .tick]).isSome = true := by
    decide +kernel
  obtain ⟨s, hs, hqueued, hsome⟩ := hplace
  obtain ⟨s', hs'⟩ := Option.isSome_iff_exists.mp hsome
  obtain ⟨hlt, hturn⟩ := bounded_waiting _ _ bootstrap s (runs_of_exec hs) 2 1 hqueued
  exact ⟨s, hs, hlt, (hturn _ s' (runs_of_exec hs')).2 (Nat.lt_succ_self 1)⟩

/-! ## From a key press to the reader -/

/-- A wakeup creates no task and ends none. -/
theorem history_wqWakeupLoop {reason : WaitReason} {k : Nat}
    (h : wqWakeupLoop reason k s = some s') :
    s'.created = s.created ∧ s'.exited = s.exited := by
  induction k generalizing s with
  | zero => exact Option.some.inj h ▸ ⟨rfl, rfl⟩
  | succ k ih =>
      unfold wqWakeupLoop at h
      split at h
      · cases h
      · rename_i t s₁ hdeq
        obtain ⟨q, -, rfl⟩ := wqDequeue_some hdeq
        have hunblock : ((s.setWait q).taskSetUnblock t).created = s.created ∧
            ((s.setWait q).taskSetUnblock t).exited = s.exited := by
          unfold taskSetUnblock
          split <;> exact ⟨rfl, rfl⟩
        split at h
        · obtain ⟨hcreated, hexited⟩ := ih h
          rw [rrAdd, rrEnqueue_created] at hcreated
          rw [rrAdd, rrEnqueue_exited] at hexited
          exact ⟨hcreated.trans hunblock.1, hexited.trans hunblock.2⟩
        · obtain ⟨hcreated, hexited⟩ := ih h
          rw [wqEnqueue_created] at hcreated
          rw [wqEnqueue_exited] at hexited
          exact ⟨hcreated, hexited⟩

/-- A live task that waits for the keyboard is in the ready queue after a key press. -/
theorem inReady_of_key (hs : s.AllPlaced) (halive : s.Alive t) (hblock : (s.tasks t).state = .block)
    (hkeyboard : (s.tasks t).waitingOn = .keyboard) {b : UInt8} (hroom : s.Roomy (.key b))
    (hkey : s.step (.key b) = some s') : (s'.tasks t).state = .ready ∧ s'.InReady t := by
  -- the handler puts the byte away and then wakes
  obtain ⟨s₀, hsame, hwake⟩ : ∃ s₀, SameTasks s s₀ ∧ s₀.wqWakeup .keyboard = some s' := by
    simp only [step, irq1] at hkey
    split at hkey
    · exact ⟨s, ⟨rfl, rfl, rfl, rfl, rfl, rfl⟩, hkey⟩
    · exact ⟨_, sameTasks_setProc s _ _, hkey⟩
  have hplaced := hsame.allPlaced hs
  have hroom₀ : s₀.WakeRoom .keyboard := by
    have hroom' : s.WakeRoom .keyboard := hroom
    unfold WakeRoom wokenBefore wokenAt InReady at hroom' ⊢
    rw [hsame.tasks, hsame.waitQueue, hsame.readyQueue]
    exact hroom'
  have hat := wakeAt_wqWakeup (by rintro ⟨⟩) hplaced hroom₀ hwake
  have halive₀ : s₀.Alive t := by
    unfold Alive
    rw [hsame.created, hsame.exited]
    exact halive
  have hwait : s₀.InWait t := by
    have hplace := hplaced t halive₀
    unfold Placed at hplace
    rw [hsame.tasks, hblock] at hplace
    exact hplace
  have hready : (s'.tasks t).state = .ready := by
    have htask := hat.tasks t
    rw [← Ring.contents_length, List.take_length, hsame.tasks,
      if_pos ⟨hwait, hkeyboard, hblock⟩] at htask
    rw [htask]
  refine ⟨hready, ?_⟩
  have halive' : s'.Alive t := by
    obtain ⟨hcreated, hexited⟩ := history_wqWakeupLoop hwake
    unfold Alive
    rw [hcreated, hexited]
    exact halive₀
  have hplace := hat.placed t halive'
  unfold Placed at hplace
  rw [hready] at hplace
  exact hplace

/-- A task that waits for the keyboard in a run without a full queue is READY after the next
    key press, and current within `RR_MAX` yields of it, whatever else comes in between. -/
theorem reader_runs_after_key (tasks : TaskPtr → Task) (procs : ProcPtr → Process)
    (es : List Event) (s : Sched) (hrun : Runs step Roomy (boot tasks procs) es s)
    (t : TaskPtr) (hcreated : t ∈ s.created) (hexited : t ∉ s.exited)
    (hblock : (s.tasks t).state = .block) (hkeyboard : (s.tasks t).waitingOn = .keyboard)
    (b : UInt8) (hroom : s.Roomy (.key b)) (s₁ : Sched) (hkey : s.step (.key b) = some s₁) :
    (s₁.tasks t).state = .ready ∧ ∀ (es' : List Event) (s' : Sched),
      Runs step always s₁ es' s' → rrMax ≤ es'.countP Event.yields →
        ∃ es₁ e es₂ s₂ s₃, es' = es₁ ++ e :: es₂ ∧ Runs step always s₁ es₁ s₂ ∧
          s₂.step e = some s₃ ∧ s₃.currTask = some t ∧ (s₃.tasks t).state = .run := by
  have hplaced := hrun.invariant AllPlaced (allPlaced_boot tasks procs)
    fun _ _ _ hs hok hstep => allPlaced_step hs hok hstep
  obtain ⟨hready, hqueue⟩ :=
    inReady_of_key hplaced ⟨hcreated, hexited⟩ hblock hkeyboard hroom hkey
  refine ⟨hready, fun es' s' hrun' hyields => ?_⟩
  have hdisp := (dispatching_of_run (hrun.mono fun _ _ _ => trivial)).step hkey
  obtain ⟨i, hi⟩ := List.mem_iff_getElem?.mp hqueue
  have hplace : s₁.QueuedAt t i := hi
  obtain ⟨es₁, e, es₂, s₂, s₃, hes, -, hrun₁, hstep, hcurr, hstate⟩ :=
    hplace.dispatched hdisp hrun' (Nat.lt_of_lt_of_le hplace.lt hyields)
  exact ⟨es₁, e, es₂, s₂, s₃, hes, hrun₁, hstep, hcurr, hstate⟩

/-- The shell has read an empty keyboard buffer and been switched away from. -/
def blockedShell : List Event := bootstrap ++ [.tick, .tick, .read 1, .tick]

/-- A key press, and the shell runs again. -/
theorem reader_runs_after_key_shell : ∃ s ∈ exec step Roomy coldBoot blockedShell,
    ∃ s₁ ∈ s.step (.key 30), (s₁.tasks 2).state = .ready ∧
      ∃ es₁ e es₂ s₂ s₃, List.replicate rrMax Event.tick = es₁ ++ e :: es₂ ∧
        Runs step always s₁ es₁ s₂ ∧ s₂.step e = some s₃ ∧ s₃.currTask = some 2 ∧
        (s₃.tasks 2).state = .run := by
  have hblocked : ∃ s ∈ exec step Roomy coldBoot blockedShell,
      2 ∈ s.created ∧ 2 ∉ s.exited ∧ (s.tasks 2).state = .block ∧
        (s.tasks 2).waitingOn = .keyboard ∧ s.Roomy (.key 30) ∧
        ∃ s₁ ∈ s.step (.key 30),
          (exec step always s₁ (List.replicate rrMax Event.tick)).isSome = true := by
    decide +kernel
  obtain ⟨s, hs, hcreated, hexited, hblock, hkeyboard, hroom, s₁, hkey, hsome⟩ := hblocked
  obtain ⟨s', hs'⟩ := Option.isSome_iff_exists.mp hsome
  obtain ⟨hready, hruns⟩ := reader_runs_after_key _ _ blockedShell s (runs_of_exec hs) 2
    hcreated hexited hblock hkeyboard 30 hroom s₁ hkey
  exact ⟨s, hs, s₁, hkey, hready, hruns _ s' (runs_of_exec hs') (Nat.le_refl rrMax)⟩

end Runs

end Sched

end Icarius.Scheduler
