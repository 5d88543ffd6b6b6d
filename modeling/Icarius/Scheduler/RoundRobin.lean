/-
  Icarius.Scheduler.RoundRobin

  Consecutive calls of `rr_yield` with nothing in between.  The current task and
  the ready queue behind it form one sequence; a yield moves its first task to
  its end.  The ring of the ready queue enters only through what it holds, so
  the position of its indices plays no part.
-/

import Icarius.Scheduler.NoTaskLost
import Mathlib.Data.List.Rotate

namespace Icarius.Scheduler

open Icarius.Lib

namespace Sched

/-! ## One yield -/

/-- The tasks `ts` take turns: the first is current and running, the others are in
    the ready queue in this order and READY, and the queue has room for one more. -/
structure TakeTurns (s : Sched) (ts : List TaskPtr) : Prop where
  order : s.currTask :: s.readyQueue.contents = ts.map some
  states : ∀ t ∈ ts, (s.tasks t).state = if s.currTask = some t then .run else .ready
  nodup : ts.Nodup
  room : ts.length ≤ rrMax

/-- `_rr_dequeue` on a queue with a task at its front. -/
theorem rrDequeue_of_contents {s : Sched} {t : TaskPtr} {l : List (Option TaskPtr)}
    (h : s.readyQueue.contents = some t :: l) :
    ∃ q : ReadyQueue, s.rrDequeue = some (t, s.setReady q) ∧ q.contents = l := by
  have hlength := congrArg List.length h
  rw [Ring.contents_length, List.length_cons] at hlength
  have hpos : 0 < s.readyQueue.count := by omega
  have hpop := Ring.contents_pop s.readyQueue none hpos
  rw [h, List.cons.injEq] at hpop
  refine ⟨s.readyQueue.pop none hpos, ?_, hpop.2.symm⟩
  rw [rrDequeue, dif_pos hpos]
  simp only [← hpop.1]

/-- `task_switch` to a task with the others waiting behind it. -/
theorem TakeTurns.of_switch {s : Sched} {t : TaskPtr} {l : List TaskPtr}
    (hqueue : s.readyQueue.contents = l.map some) (hready : ∀ x ∈ l, (s.tasks x).state = .ready)
    (hnodup : (t :: l).Nodup) (hroom : (t :: l).length ≤ rrMax) :
    (s.taskSwitch t).TakeTurns (t :: l) := by
  have hcurr : (s.taskSwitch t).currTask = some t := rfl
  refine ⟨?_, fun x hx => ?_, hnodup, hroom⟩
  · rw [hcurr, List.map_cons, ← hqueue]
    rfl
  · rw [hcurr]
    by_cases hxt : x = t
    · subst hxt
      rw [if_pos rfl]
      simp only [taskSwitch, setState, setTask_tasks_self]
    · have hxl : x ∈ l := (List.mem_cons.mp hx).resolve_left hxt
      rw [if_neg fun heq => hxt (Option.some.inj heq).symm, ← hready x hxl]
      exact congrArg Task.state (setTask_tasks_ne _ _ hxt)

theorem rotate_one (t : TaskPtr) (l : List TaskPtr) : (t :: l).rotate 1 = l ++ [t] := by
  rw [List.rotate_cons_succ, List.rotate_zero]

/-- One `rr_yield`: the first task goes to the end of the sequence. -/
theorem TakeTurns.yield {s : Sched} {ts : List TaskPtr} (h : s.TakeTurns ts) :
    ∃ s', s.rrYield = some s' ∧ s'.TakeTurns (ts.rotate 1) := by
  obtain ⟨curr, rest, rfl⟩ : ∃ curr rest, ts = curr :: rest := by
    cases ts with
    | nil => exact absurd h.order (by simp)
    | cons curr rest => exact ⟨curr, rest, rfl⟩
  have horder := h.order
  rw [List.map_cons, List.cons.injEq] at horder
  obtain ⟨hcurr, hqueue⟩ := horder
  have hrun : (s.tasks curr).state = .run := by
    rw [h.states curr List.mem_cons_self, if_pos hcurr]
  obtain ⟨hnotin, hrest⟩ := List.nodup_cons.mp h.nodup
  have hready : ∀ t ∈ rest, (s.tasks t).state = .ready := by
    intro t ht
    rw [h.states t (List.mem_cons_of_mem _ ht), hcurr, if_neg]
    rintro heq
    exact hnotin (Option.some.inj heq ▸ ht)
  -- the running task goes to the end of the queue, which has a free cell
  have hcount : s.readyQueue.count < rrMax := by
    have hlength := congrArg List.length hqueue
    have hroom := h.room
    rw [Ring.contents_length, List.length_map] at hlength
    rw [List.length_cons] at hroom
    omega
  have hroom' : (s.setState curr .ready).readyQueue.count < rrMax := hcount
  have hself : ((s.setState curr .ready).tasks curr).state = .ready := by
    simp only [setState, setTask_tasks_self]
  have henqueue := rrEnqueue_of_room hroom' hself
  generalize hs₁ : (s.setState curr .ready).rrEnqueue curr = s₁ at henqueue
  have hqueue₁ : s₁.readyQueue.contents = (rest ++ [curr]).map some := by
    rw [henqueue, setReady_readyQueue, Ring.contents_push, List.map_append, ← hqueue]
    rfl
  have hready₁ : ∀ t ∈ rest ++ [curr], (s₁.tasks t).state = .ready := by
    intro t ht
    rw [henqueue, setReady_tasks]
    by_cases heq : t = curr
    · rw [heq, hself]
    · have hmem : t ∈ rest := by simpa [heq] using ht
      rw [← hready t hmem]
      exact congrArg Task.state (setTask_tasks_ne _ _ heq)
  have hnodup₁ : (rest ++ [curr]).Nodup := by
    rw [← rotate_one]
    exact List.nodup_rotate.mpr h.nodup
  have hlength₁ : (rest ++ [curr]).length ≤ rrMax := by
    have hroom := h.room
    simp only [List.length_append, List.length_cons] at hroom ⊢
    exact hroom
  have hyield : s.rrYield = some s₁.rrSwitchNext := by
    rw [rrYield, rrRequeue_of_curr hcurr, rrYieldEnqueue, if_pos hrun, hs₁]
    rfl
  -- the first task of the queue is taken out and switched to
  rw [rotate_one]
  obtain ⟨next, l, hnext⟩ : ∃ next l, rest ++ [curr] = next :: l := by
    cases rest with
    | nil => exact ⟨curr, [], rfl⟩
    | cons next l => exact ⟨next, l ++ [curr], rfl⟩
  rw [hnext] at hqueue₁ hready₁ hnodup₁ hlength₁ ⊢
  obtain ⟨q, hdequeue, hq⟩ := rrDequeue_of_contents hqueue₁
  refine ⟨_, hyield, ?_⟩
  rw [rrSwitchNext, hdequeue]
  exact .of_switch hq (fun t ht => hready₁ t (List.mem_cons_of_mem _ ht)) hnodup₁ hlength₁

/-! ## Any number of yields -/

/-- `k` calls of `rr_yield` in a row. -/
def yields : Nat → Sched → Option Sched
  | 0, s => some s
  | k + 1, s => s.rrYield.bind (yields k)

/-- The tasks that `k` calls of `rr_yield` in a row make current. -/
def dispatched : Nat → Sched → List TaskPtr
  | 0, _ => []
  | k + 1, s =>
      match s.rrYield with
      | none => []
      | some s => s.currTask.toList ++ dispatched k s

/-- `k` yields rotate the sequence `k` times. -/
theorem TakeTurns.yields {s : Sched} {ts : List TaskPtr} (h : s.TakeTurns ts) (k : Nat) :
    ∃ s', yields k s = some s' ∧ s'.TakeTurns (ts.rotate k) := by
  induction k generalizing s ts with
  | zero =>
      refine ⟨s, rfl, ?_⟩
      rwa [List.rotate_zero]
  | succ k ih =>
      obtain ⟨s₁, hyield, h₁⟩ := h.yield
      obtain ⟨s', hyields, h'⟩ := ih h₁
      refine ⟨s', ?_, ?_⟩
      · rw [Sched.yields, hyield]
        exact hyields
      · rwa [List.rotate_rotate, Nat.add_comm] at h'

/-- Up to one full turn, the tasks are dispatched in the order of the queue, and
    the task that was running comes last. -/
theorem TakeTurns.dispatched {s : Sched} {ts : List TaskPtr} (h : s.TakeTurns ts) {k : Nat}
    (hk : k ≤ ts.length) : dispatched k s = (ts.rotate 1).take k := by
  induction k generalizing s ts with
  | zero => rfl
  | succ k ih =>
      obtain ⟨s₁, hyield, h₁⟩ := h.yield
      have hlength : (ts.rotate 1).length = ts.length := List.length_rotate ..
      obtain ⟨next, l, hnext⟩ : ∃ next l, ts.rotate 1 = next :: l := by
        cases hts : ts.rotate 1 with
        | nil =>
            rw [hts, List.length_nil] at hlength
            omega
        | cons next l => exact ⟨next, l, rfl⟩
      rw [hnext] at h₁ hlength
      have hcurr : s₁.currTask = some next := (List.cons.inj h₁.order).1
      have hrest := ih h₁ (by omega)
      have hl : k ≤ l.length := by
        rw [List.length_cons] at hlength
        omega
      rw [rotate_one, List.take_append_of_le_length hl] at hrest
      rw [hnext, List.take_succ_cons, ← hrest, Sched.dispatched, hyield]
      simp only [hcurr, Option.toList_some, List.singleton_append]

/-- Round-robin order.  After `k` yields the current task and the queue are the
    `k`-fold left rotation of the sequence at the start, only the current task is
    running, and the next turn of all tasks dispatches each of them once. -/
theorem round_robin {s : Sched} {ts : List TaskPtr} (h : s.TakeTurns ts) (k : Nat) :
    ∃ s', yields k s = some s' ∧
      s'.currTask :: s'.readyQueue.contents = (ts.rotate k).map some ∧
      (∀ t ∈ ts, (s'.tasks t).state = .run ↔ s'.currTask = some t) ∧
      (dispatched ts.length s').Perm ts := by
  obtain ⟨s', hyields, h'⟩ := h.yields k
  refine ⟨s', hyields, h'.order, fun t ht => ?_, ?_⟩
  · rw [h'.states t (List.mem_rotate.mpr ht)]
    split
    · rename_i hcurr
      exact ⟨fun _ => hcurr, fun _ => rfl⟩
    · rename_i hcurr
      exact ⟨fun heq => TaskState.noConfusion heq, fun heq => absurd heq hcurr⟩
  · have hlength : ((ts.rotate k).rotate 1).length = ts.length := by
      rw [List.length_rotate, List.length_rotate]
    rw [h'.dispatched (by rw [List.length_rotate]), ← hlength, List.take_length]
    exact (List.rotate_perm _ 1).trans (List.rotate_perm ts k)

/-- Three tasks on a ring whose indices are about to wrap around. -/
def threeTurns : Sched :=
  { boot (fun t => ⟨0, if t = 1 then .run else .ready, .none⟩)
      fun _ => ⟨[], fun _ => none, 0, Ring.empty (fun _ => 0) fifoBufferSize_pos⟩ with
    currTask := some 1
    readyQueue :=
      { cells := fun i => if i = rrMax - 1 then some 2 else if i = 0 then some 3 else none
        head := 1
        tail := rrMax - 1
        count := 2
        tail_lt := by decide
        count_le := by decide
        head_eq := by decide } }

theorem round_robin_threeTurns : ∃ s', yields 4 threeTurns = some s' ∧
    s'.currTask :: s'.readyQueue.contents = ([1, 2, 3].rotate 4).map some ∧
    (∀ t ∈ [1, 2, 3], (s'.tasks t).state = .run ↔ s'.currTask = some t) ∧
    (dispatched 3 s').Perm [1, 2, 3] :=
  round_robin (s := threeTurns)
    ⟨by decide, by decide, by decide, by decide⟩ 4

end Sched

end Icarius.Scheduler
