/-
  Icarius.Scheduler.Wakeup

  `wq_wakeup` goes once around the wait queue: every task is taken from the front, the
  ones that wait on the reason go to the ready queue, the others back to the end.  A
  round over distinct blocked tasks parts the queue in two, both in their old order.
-/

import Icarius.Scheduler.NoTaskLost

namespace Icarius.Scheduler

open Icarius.Lib

namespace Sched

/-- The task as `task_set_unblock` leaves it -/
def unblocked (t : Task) : Task := { t with waitingOn := .none, state := .ready }

/-- From `s` to `s'` the tasks of `queue` that wait on `reason` have become READY and stand
    behind the ready queue, and nothing has happened to any other task. -/
structure Wakes (s s' : Sched) (reason : WaitReason) (queue : List TaskPtr) : Prop where
  ready : s'.readyQueue.contents = s.readyQueue.contents
    ++ (queue.filter fun t => (s.tasks t).waitingOn = reason).map some
  woken : ∀ t ∈ queue, (s.tasks t).waitingOn = reason → s'.tasks t = unblocked (s.tasks t)
  others : ∀ t, ¬ (t ∈ queue ∧ (s.tasks t).waitingOn = reason) → s'.tasks t = s.tasks t

section Round

variable {s : Sched} {reason : WaitReason} {t : TaskPtr} {rest : List (Option TaskPtr)}

/-- The front of the wait queue is taken off. -/
theorem wqDequeue_of_contents (h : s.waitQueue.contents = some t :: rest) :
    ∃ q : WaitQueue, s.wqDequeue = some (t, s.setWait q) ∧ q.contents = rest := by
  have hpos : 0 < s.waitQueue.count := by
    rw [← Ring.contents_length, h]
    exact Nat.succ_pos _
  have hpop := Ring.contents_pop s.waitQueue none hpos
  rw [h] at hpop
  obtain ⟨hfront, hrest⟩ := List.cons.inj hpop
  refine ⟨s.waitQueue.pop none hpos, ?_, hrest.symm⟩
  unfold wqDequeue
  rw [dif_pos hpos, ← hfront]

/-- A blocked task that is woken goes to the end of the ready queue. -/
theorem wake_of_block (hblock : (s.tasks t).state = .block) (hroom : s.readyQueue.count < rrMax) :
    ((s.taskSetUnblock t).rrAdd t).readyQueue.contents = s.readyQueue.contents ++ [some t] ∧
      ((s.taskSetUnblock t).rrAdd t).waitQueue = s.waitQueue ∧
      ((s.taskSetUnblock t).rrAdd t).tasks t = unblocked (s.tasks t) ∧
      ∀ x, x ≠ t → ((s.taskSetUnblock t).rrAdd t).tasks x = s.tasks x := by
  obtain ⟨hready, hwait⟩ := s.taskSetUnblock_same t
  have hst := (s.taskSetUnblock_ready_iff t).mpr (.inr hblock)
  have hroom' : (s.taskSetUnblock t).readyQueue.count < rrMax := by rwa [hready]
  refine ⟨?_, ?_, ?_, fun x hx => ?_⟩
  · rw [rrAdd, rrEnqueue_of_room hroom' hst, setReady_readyQueue, Ring.contents_push, hready]
  · rw [rrAdd, rrEnqueue_waitQueue, hwait]
  · rw [rrAdd, rrEnqueue_tasks, taskSetUnblock_tasks_self, if_pos hblock]
    rfl
  · rw [rrAdd, rrEnqueue_tasks, taskSetUnblock_tasks_ne s hx]

end Round

/-- The loop, with `queue` still to be looked at and `kept` put back behind it. -/
theorem wqWakeupLoop_parts {reason : WaitReason} {queue : List TaskPtr} (kept : List TaskPtr)
    (s : Sched) (hwait : s.waitQueue.contents = (queue ++ kept).map some) (hnodup : queue.Nodup)
    (hblock : ∀ t ∈ queue, (s.tasks t).state = .block)
    (hroom : s.readyQueue.count + (queue.filter fun t => (s.tasks t).waitingOn = reason).length
      ≤ rrMax) :
    ∃ s', wqWakeupLoop reason queue.length s = some s' ∧ Wakes s s' reason queue ∧
      s'.waitQueue.contents
        = (kept ++ queue.filter fun t => (s.tasks t).waitingOn ≠ reason).map some := by
  induction queue generalizing kept s with
  | nil =>
      refine ⟨s, rfl, ⟨?_, nofun, fun _ _ => rfl⟩, ?_⟩
      · rw [List.filter_nil, List.map_nil, List.append_nil]
      · rw [hwait, List.filter_nil, List.nil_append, List.append_nil]
  -- the task `t` is taken from the front of the wait queue
  | cons t queue ih =>
      obtain ⟨hnew, hnodup'⟩ := List.nodup_cons.mp hnodup
      have hne : ∀ x ∈ queue, x ≠ t := fun x hx heq => hnew (heq ▸ hx)
      obtain ⟨q, hdequeue, hq⟩ := wqDequeue_of_contents hwait
      rw [List.length_cons, wqWakeupLoop, hdequeue]
      by_cases hreason : (s.tasks t).waitingOn = reason
      · -- the task waits on the reason
        simp only [setWait_tasks, hreason, if_true]
        rw [List.filter_cons_of_pos (by simpa using hreason), List.length_cons] at hroom
        obtain ⟨hready, hsame, hwoken, hothers⟩ :=
          wake_of_block (s := s.setWait q) (t := t) (hblock t List.mem_cons_self)
            (show s.readyQueue.count < rrMax by omega)
        generalize ((s.setWait q).taskSetUnblock t).rrAdd t = s₁ at hready hsame hwoken hothers ⊢
        simp only [setWait_readyQueue, setWait_waitQueue, setWait_tasks] at hready hsame hwoken hothers
        -- nobody behind `t` is touched by its wakeup
        have hfilter : ∀ p : Task → Bool,
            queue.filter (fun x => p (s₁.tasks x)) = queue.filter fun x => p (s.tasks x) := fun p =>
          List.filter_congr fun x hx => by rw [hothers x (hne x hx)]
        have hcount : s₁.readyQueue.count = s.readyQueue.count + 1 := by
          rw [← Ring.contents_length, hready, List.length_append, Ring.contents_length]
          rfl
        have hmatch := hfilter fun v => decide (v.waitingOn = reason)
        have hother := hfilter fun v => decide (v.waitingOn ≠ reason)
        obtain ⟨s', hloop, hwakes, hcontents⟩ := ih kept s₁ (hsame ▸ hq) hnodup'
          (fun x hx => by rw [hothers x (hne x hx)]; exact hblock x (List.mem_cons_of_mem t hx))
          (by rw [hmatch, hcount]; omega)
        refine ⟨s', hloop, ⟨?_, fun x hx hx' => ?_, fun x hx => ?_⟩, ?_⟩
        · rw [hwakes.ready, hready, hmatch, List.filter_cons_of_pos (by simpa using hreason),
            List.map_cons, List.append_assoc, List.singleton_append]
        · rcases List.mem_cons.mp hx with rfl | hmem
          · -- it is not in the rest of the queue any more
            rw [hwakes.others x (fun h => hnew h.1), hwoken]
          · have hsame' := hothers x (hne x hmem)
            rw [hwakes.woken x hmem (hsame'.symm ▸ hx'), hsame']
        · have hxt : x ≠ t := fun heq => hx ⟨heq ▸ List.mem_cons_self, heq ▸ hreason⟩
          rw [hwakes.others x, hothers x hxt]
          rintro ⟨hmem, hx'⟩
          rw [hothers x hxt] at hx'
          exact hx ⟨List.mem_cons_of_mem t hmem, hx'⟩
        · rw [hcontents, hother, List.filter_cons_of_neg (by simpa using hreason)]
      · -- the task goes back to the end
        simp only [setWait_tasks, hreason, if_false]
        rw [List.filter_cons_of_neg (by simpa using hreason)] at hroom
        have hcount : q.count < waitMax := by
          have hle := s.waitQueue.count_le
          have hlen : s.waitQueue.count = (queue ++ kept).length + 1 := by
            rw [← Ring.contents_length, hwait, List.length_map, List.cons_append, List.length_cons]
          have hlen' : q.count = (queue ++ kept).length := by
            rw [← Ring.contents_length, hq]
            exact List.length_map some
          omega
        have henqueue : (s.setWait q).wqEnqueue t = s.setWait (q.push (some t) hcount) :=
          wqEnqueue_of_room (s := s.setWait q) hcount (hblock t List.mem_cons_self)
        rw [henqueue]
        obtain ⟨s', hloop, hwakes, hcontents⟩ := ih (kept ++ [t])
          (s.setWait (q.push (some t) hcount))
          (by
            rw [setWait_waitQueue, Ring.contents_push, hq, ← List.append_assoc, List.map_append]
            rfl)
          hnodup' (fun x hx => hblock x (List.mem_cons_of_mem t hx)) hroom
        refine ⟨s', hloop, ⟨?_, fun x hx hx' => ?_, fun x hx => ?_⟩, ?_⟩
        · rw [hwakes.ready, List.filter_cons_of_neg (by simpa using hreason)]
          rfl
        · rcases List.mem_cons.mp hx with rfl | hmem
          · exact absurd hx' hreason
          · exact hwakes.woken x hmem hx'
        · exact hwakes.others x fun h => hx ⟨List.mem_cons_of_mem t h.1, h.2⟩
        · rw [hcontents, List.filter_cons_of_pos (by simpa using hreason), List.append_assoc,
            List.singleton_append]
          rfl

/-- `wq_wakeup` parts a wait queue of distinct blocked tasks: the tasks with another reason
    stay in it, in their order, and the ones that wait on `reason` stand in theirs behind
    the ready queue, READY and waiting on nothing.  No other task is changed. -/
theorem wqWakeup_partitions {s : Sched} {queue : List TaskPtr} (reason : WaitReason)
    (hwait : s.waitQueue.contents = queue.map some) (hnodup : queue.Nodup)
    (hblock : ∀ t ∈ queue, (s.tasks t).state = .block)
    (hroom : s.readyQueue.count + (queue.filter fun t => (s.tasks t).waitingOn = reason).length
      ≤ rrMax) :
    ∃ s', s.wqWakeup reason = some s' ∧
      s'.waitQueue.contents
        = (queue.filter fun t => (s.tasks t).waitingOn ≠ reason).map some ∧
      s'.readyQueue.contents = s.readyQueue.contents
        ++ (queue.filter fun t => (s.tasks t).waitingOn = reason).map some ∧
      (∀ t ∈ queue, (s.tasks t).waitingOn = reason → s'.tasks t = unblocked (s.tasks t)) ∧
      ∀ t, ¬ (t ∈ queue ∧ (s.tasks t).waitingOn = reason) → s'.tasks t = s.tasks t := by
  have hcount : s.waitQueue.count = queue.length := by
    rw [← Ring.contents_length, hwait, List.length_map]
  obtain ⟨s', hloop, hwakes, hcontents⟩ :=
    wqWakeupLoop_parts [] s (by rw [List.append_nil]; exact hwait) hnodup hblock hroom
  refine ⟨s', ?_, hcontents, hwakes.ready, hwakes.woken, hwakes.others⟩
  rw [wqWakeup, hcount]
  exact hloop

/-- Two blocked tasks across the border of the ring: task 1 waits for the keyboard and is
    in the last cell, task 2 waits for something else and is in the first. -/
def twoBlocked : Sched :=
  (boot (fun t => { parent := 0, state := .block, waitingOn := if t = 1 then .keyboard else .noUse })
    fun _ => { filename := [], tasks := fun _ => none, taskCount := 0,
               keyboardBuffer := Ring.empty (fun _ => 0) fifoBufferSize_pos }).setWait
    { cells := fun i => if i = waitMax - 1 then some 1 else if i = 0 then some 2 else none
      head := 1
      tail := waitMax - 1
      count := 2
      tail_lt := by decide
      count_le := by decide
      head_eq := by decide }

/-- A key wakes the first of them. -/
theorem wqWakeup_partitions_key :
    ∃ s', twoBlocked.wqWakeup .keyboard = some s' ∧ s'.waitQueue.contents = [some 2] ∧
      s'.readyQueue.contents = [some 1] ∧ (s'.tasks 1).state = .ready ∧
      s'.tasks 2 = twoBlocked.tasks 2 := by
  have hmatch : ([1, 2].filter fun t => (twoBlocked.tasks t).waitingOn = .keyboard) = [1] := by
    decide
  have hother : ([1, 2].filter fun t => (twoBlocked.tasks t).waitingOn ≠ .keyboard) = [2] := by
    decide
  obtain ⟨s', hs', hwait, hready, hwoken, hothers⟩ :=
    @wqWakeup_partitions twoBlocked [1, 2] .keyboard (by decide) (by decide) (fun _ _ => rfl)
      (by rw [hmatch]; decide)
  rw [hother] at hwait
  rw [hmatch] at hready
  refine ⟨s', hs', hwait, hready, ?_, hothers 2 (by decide)⟩
  rw [hwoken 1 (by decide) rfl]
  rfl

end Sched

end Icarius.Scheduler
