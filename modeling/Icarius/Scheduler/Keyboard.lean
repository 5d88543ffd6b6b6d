/-
  Icarius.Scheduler.Keyboard

  The way of a scancode: the keyboard interrupt puts it into the buffer of the foreground
  process, and `_sys_read` takes it out again for the process that calls.  Next to the
  scheduler runs a log of what each process was sent and what it has read since it was
  spawned.  The log decides nothing: every run has exactly one.
-/

import Icarius.Scheduler.Dispatch

namespace Icarius.Scheduler

open Icarius.Lib

/-- One process's part of the log. -/
structure Keys where
  /-- Scancodes that came in while the process was in the foreground. -/
  pressed : List UInt8 := []
  /-- How many of them met a full buffer. -/
  lost : Nat := 0
  /-- Bytes that its reads have returned. -/
  delivered : List UInt8 := []

/-- The scheduler with its log. -/
structure KeyLog where
  sched : Sched
  keys : ProcPtr → Keys

namespace Sched

/-- The current task belongs to the shell, so that its exit spawns the shell again. -/
def ExitsShell (s : Sched) : Prop :=
  ∃ t ∈ s.currTask, (s.procs (s.tasks t).parent).filename = icarshPath

instance (s : Sched) : Decidable s.ExitsShell := inferInstanceAs (Decidable (∃ t ∈ _, _))

end Sched

namespace KeyLog

open Sched

/-- The log of `p` after a scancode for it. -/
def keysPressed (keys : Keys) (accepted : Bool) (b : UInt8) : Keys :=
  { keys with
    pressed := keys.pressed ++ [b]
    lost := if accepted then keys.lost else keys.lost + 1 }

/-- The log of `p` after an event in the state `l.sched`. -/
def keysAfter (l : KeyLog) (p : ProcPtr) : Event → Keys
  | .spawn q _ _ => if p = q then {} else l.keys p
  | .foreground _ | .tick => l.keys p
  | .read count =>
      match l.sched.currTask with
      | none => l.keys p
      | some t =>
          if p = (l.sched.tasks t).parent then
            { l.keys p with
              delivered := (l.keys p).delivered ++ (sysReadLoop p count l.sched).1 }
          else l.keys p
  | .key b =>
      if l.sched.foreground = some p then
        keysPressed (l.keys p) (fifoEnqueue (l.sched.procs p).keyboardBuffer b).1 b
      else l.keys p
  | .exit q _ => if p = q ∧ l.sched.ExitsShell then {} else l.keys p

/-- One event, with its trace in the log. -/
def step (l : KeyLog) (e : Event) : Option KeyLog :=
  (l.sched.step e).map fun s => ⟨s, fun p => l.keysAfter p e⟩

/-- Nothing has been sent or read at boot. -/
def boot (tasks : TaskPtr → Task) (procs : ProcPtr → Process) : KeyLog :=
  ⟨Sched.boot tasks procs, fun _ => {}⟩

/-- Every run of the scheduler is a run with a log. -/
theorem exists_log {s₀ s : Sched} {es : List Event} (keys : ProcPtr → Keys)
    (hrun : Runs Sched.step always s₀ es s) :
    ∃ l : KeyLog, Runs step always ⟨s₀, keys⟩ es l ∧ l.sched = s := by
  induction hrun with
  | nil => exact ⟨⟨s₀, keys⟩, .nil, rfl⟩
  | @snoc es s₁ s₂ e _ _ hstep ih =>
      obtain ⟨l, hlog, rfl⟩ := ih
      refine ⟨⟨s₂, fun p => l.keysAfter p e⟩, hlog.snoc trivial ?_, rfl⟩
      rw [step, hstep]
      rfl

end KeyLog

namespace Sched

/-! ## What an event does to the keyboard buffers -/

/-- No buffer has changed, and no process has come in. -/
structure SameBuffers (s s' : Sched) : Prop where
  buffer : ∀ p, (s'.procs p).keyboardBuffer = (s.procs p).keyboardBuffer
  live : ∀ p ∈ s'.live, p ∈ s.live

section SameBuffers

variable {s s' s'' : Sched} {t : TaskPtr} {p : ProcPtr}

theorem SameBuffers.refl (s : Sched) : SameBuffers s s := ⟨fun _ => rfl, fun _ => id⟩

theorem SameBuffers.trans (h : SameBuffers s s') (h' : SameBuffers s' s'') :
    SameBuffers s s'' :=
  ⟨fun p => (h'.buffer p).trans (h.buffer p), fun p hp => h.live p (h'.live p hp)⟩

theorem sameBuffers_of_procs (hprocs : s'.procs = s.procs) (hlive : s'.live = s.live) :
    SameBuffers s s' :=
  ⟨fun p => by rw [hprocs], fun p hp => hlive ▸ hp⟩

theorem sameBuffers_rrEnqueue (s : Sched) (t : TaskPtr) : SameBuffers s (s.rrEnqueue t) :=
  sameBuffers_of_procs (rrEnqueue_procs s t) (keeps_rrEnqueue s t).live

theorem sameBuffers_wqEnqueue (s : Sched) (t : TaskPtr) : SameBuffers s (s.wqEnqueue t) :=
  sameBuffers_of_procs (wqEnqueue_procs s t) (keeps_wqEnqueue s t).live

theorem sameBuffers_rrSwitchNext (s : Sched) : SameBuffers s s.rrSwitchNext := by
  unfold rrSwitchNext
  split
  · exact .refl s
  · rename_i next s₁ hdeq
    obtain ⟨q, -, rfl⟩ := rrDequeue_some hdeq
    exact sameBuffers_of_procs rfl rfl

theorem sameBuffers_rrYield (h : s.rrYield = some s') : SameBuffers s s' := by
  obtain ⟨s₁, hrequeue, rfl⟩ := Option.map_eq_some_iff.mp h
  refine SameBuffers.trans ?_ (sameBuffers_rrSwitchNext s₁)
  obtain ⟨-, p, -, rfl⟩ | ⟨curr, -, -, rfl⟩ | ⟨-, -, -, rfl⟩ := rrRequeue_cases hrequeue
  · unfold taskSetCurr
    split <;> exact sameBuffers_of_procs rfl rfl
  · have hstate : SameBuffers s (s.setState curr .ready) := sameBuffers_of_procs rfl rfl
    exact hstate.trans (sameBuffers_rrEnqueue _ curr)
  · exact .refl _

theorem sameBuffers_wqWakeupLoop {reason : WaitReason} {i : Nat}
    (h : wqWakeupLoop reason i s = some s') : SameBuffers s s' := by
  induction i generalizing s with
  | zero => exact Option.some.inj h ▸ .refl s
  | succ i ih =>
      unfold wqWakeupLoop at h
      split at h
      · cases h
      · rename_i t s₁ hdeq
        obtain ⟨q, -, rfl⟩ := wqDequeue_some hdeq
        have hwait : SameBuffers s (s.setWait q) := sameBuffers_of_procs rfl rfl
        split at h
        · have hunblock : SameBuffers (s.setWait q) ((s.setWait q).taskSetUnblock t) := by
            unfold taskSetUnblock
            split <;> exact sameBuffers_of_procs rfl rfl
          exact ((hwait.trans hunblock).trans (sameBuffers_rrEnqueue _ t)).trans (ih h)
        · exact (hwait.trans (sameBuffers_wqEnqueue _ t)).trans (ih h)

/-- The exit of a task takes its process out of the list, if anything. -/
theorem sameBuffers_taskExit (s : Sched) (t : TaskPtr) : SameBuffers s (s.taskExit t) := by
  refine ⟨fun p => ?_, fun _ => id⟩
  unfold taskExit setProc
  dsimp only
  split
  · rename_i heq
    rw [heq]
  · rfl

theorem sameBuffers_processExit (s : Sched) (p : ProcPtr) : SameBuffers s (s.processExit p) :=
  ⟨fun _ => rfl, fun _ hx => (List.mem_filter.mp hx).1⟩

theorem sameBuffers_sysExitTask (s : Sched) (t : TaskPtr) : SameBuffers s (s.sysExitTask t) := by
  -- the marks of the task itself touch no process
  have hmark : ∀ s₂ : Sched,
      SameBuffers s₂ { s₂.setState t .terminate with exited := t :: s₂.exited } :=
    fun _ => sameBuffers_of_procs rfl rfl
  unfold sysExitTask
  dsimp only
  split
  · exact ((sameBuffers_taskExit s t).trans (sameBuffers_processExit _ _)).trans (hmark _)
  · exact (sameBuffers_taskExit s t).trans (hmark _)

/-- A spawned process starts with an empty buffer; no other buffer changes. -/
theorem spawn_buffers (s : Sched) (p : ProcPtr) (t : TaskPtr) (file : List Char) :
    ((s.spawn p t file).procs p).keyboardBuffer.contents = [] ∧
      (∀ q, q ≠ p → ((s.spawn p t file).procs q).keyboardBuffer = (s.procs q).keyboardBuffer) ∧
      (s.spawn p t file).live = p :: s.live := by
  refine ⟨?_, fun q hq => ?_, (keeps_rrEnqueue _ t).live⟩
  · rw [spawn, rrAdd, rrEnqueue_procs]
    simp only [setTask_procs, setProc, if_pos]
    rfl
  · rw [spawn, rrAdd, rrEnqueue_procs]
    simp only [setTask_procs, setProc, if_neg hq]

/-- The loop of `_sys_read` returns the oldest bytes of the caller's buffer, `n` of them or
    all there are, and leaves the others in it. -/
theorem sysReadLoop_buffers (caller : ProcPtr) (n : Nat) (s : Sched) :
    (s.procs caller).keyboardBuffer.contents = (sysReadLoop caller n s).1
        ++ ((sysReadLoop caller n s).2.procs caller).keyboardBuffer.contents ∧
      (∀ p, p ≠ caller →
        ((sysReadLoop caller n s).2.procs p).keyboardBuffer = (s.procs p).keyboardBuffer) := by
  induction n generalizing s with
  | zero => exact ⟨rfl, fun _ _ => rfl⟩
  | succ n ih =>
      unfold sysReadLoop
      by_cases hpos : 0 < (s.procs caller).keyboardBuffer.count
      · -- a byte is taken out, and the loop goes on
        have hbyte : fifoDequeue (s.procs caller).keyboardBuffer
            = (some (s.procs caller).keyboardBuffer.front,
                (s.procs caller).keyboardBuffer.pop (s.procs caller).keyboardBuffer.front hpos) := by
          rw [fifoDequeue, dif_pos hpos]
        have hpop := Ring.contents_pop (s.procs caller).keyboardBuffer
          (s.procs caller).keyboardBuffer.front hpos
        simp only [hbyte]
        obtain ⟨hcaller, hothers⟩ := ih (s.setProc caller
          { s.procs caller with
            keyboardBuffer := (s.procs caller).keyboardBuffer.pop
              (s.procs caller).keyboardBuffer.front hpos })
        refine ⟨?_, fun p hp => ?_⟩
        · rw [hpop, List.cons_append, ← hcaller]
          simp [setProc]
        · rw [hothers p hp]
          simp [setProc, hp]
      · -- the buffer is empty: the caller blocks
        have hempty : fifoDequeue (s.procs caller).keyboardBuffer
            = (none, (s.procs caller).keyboardBuffer) := by
          rw [fifoDequeue, dif_neg hpos]
        simp only [hempty]
        split
        · exact ⟨rfl, fun _ _ => rfl⟩
        · rw [wqEnqueue_procs]
          exact ⟨rfl, fun _ _ => rfl⟩

end SameBuffers

end Sched

namespace KeyLog

open Sched

/-! ## The invariant -/

/-- A live process has read the oldest bytes that came in for it, the next ones are in its
    buffer, and what is missing was refused by a full buffer. -/
structure Delivers (keys : Keys) (buffer : Fifo) : Prop where
  order : (keys.delivered ++ buffer.contents).Sublist keys.pressed
  total : keys.delivered.length + buffer.count + keys.lost = keys.pressed.length

/-- The invariant of a run. -/
def Inv (l : KeyLog) : Prop :=
  ∀ p ∈ l.sched.live, Delivers (l.keys p) (l.sched.procs p).keyboardBuffer

section Steps

variable {l l' : KeyLog} {s : Sched} {keys : Keys} {buffer : Fifo} {p : ProcPtr}

theorem Delivers.empty (h : buffer.contents = []) : Delivers {} buffer := by
  have hcount : buffer.count = 0 := by rw [← Ring.contents_length, h, List.length_nil]
  exact ⟨by rw [h]; exact List.Sublist.slnil, by rw [hcount]; rfl⟩

/-- A scancode comes in. -/
theorem Delivers.press (h : Delivers keys buffer) (b : UInt8) :
    Delivers (keysPressed keys (fifoEnqueue buffer b).1 b) (fifoEnqueue buffer b).2 := by
  have htotal := h.total
  by_cases hroom : buffer.count < fifoBufferSize
  · rw [fifoEnqueue, dif_pos hroom]
    refine ⟨?_, ?_⟩
    · show (keys.delivered ++ (buffer.push b hroom).contents).Sublist (keys.pressed ++ [b])
      rw [Ring.contents_push, ← List.append_assoc]
      exact h.order.append (List.Sublist.refl [b])
    · show keys.delivered.length + (buffer.count + 1) + keys.lost = (keys.pressed ++ [b]).length
      rw [List.length_append, List.length_singleton]
      omega
  · rw [fifoEnqueue, dif_neg hroom]
    refine ⟨?_, ?_⟩
    · show (keys.delivered ++ buffer.contents).Sublist (keys.pressed ++ [b])
      exact h.order.trans (List.sublist_append_left keys.pressed [b])
    · show keys.delivered.length + buffer.count + (keys.lost + 1) = (keys.pressed ++ [b]).length
      rw [List.length_append, List.length_singleton]
      omega

/-- A read takes bytes out. -/
theorem Delivers.read {buffer' : Fifo} {bytes : List UInt8} (h : Delivers keys buffer)
    (hbytes : buffer.contents = bytes ++ buffer'.contents) :
    Delivers { keys with delivered := keys.delivered ++ bytes } buffer' := by
  have hcount : buffer.count = bytes.length + buffer'.count := by
    rw [← Ring.contents_length, hbytes, List.length_append, Ring.contents_length]
  have htotal := h.total
  refine ⟨?_, ?_⟩
  · show (keys.delivered ++ bytes ++ buffer'.contents).Sublist keys.pressed
    rw [List.append_assoc, ← hbytes]
    exact h.order
  · show (keys.delivered ++ bytes).length + buffer'.count + keys.lost = keys.pressed.length
    rw [List.length_append]
    omega

/-- An event that leaves the buffers and the log alone. -/
theorem Inv.same (h : l.Inv) (hsame : SameBuffers l.sched s) : Inv ⟨s, l.keys⟩ := by
  intro p hp
  rw [hsame.buffer p]
  exact h p (hsame.live p hp)

/-- A process comes in, under an address whose log starts afresh. -/
theorem Inv.spawn {keys' : ProcPtr → Keys} (h : Inv ⟨s, keys'⟩) (q : ProcPtr) (t : TaskPtr)
    (file : List Char) : Inv ⟨s.spawn q t file, fun p => if p = q then {} else keys' p⟩ := by
  obtain ⟨hempty, hothers, hlive⟩ := spawn_buffers s q t file
  intro p hp
  dsimp only at hp ⊢
  split
  · rename_i heq
    exact .empty (heq ▸ hempty)
  · rename_i hne
    rw [hothers p hne]
    rw [hlive] at hp
    exact h p (List.mem_of_ne_of_mem hne hp)

/-- The exit of the current task up to `scheduler_schedule`. -/
theorem Inv.exit {q : ProcPtr} {t : TaskPtr} (h : l.Inv)
    (hexit : l.sched.sysExitUntilYield q t = some s) :
    Inv ⟨s, fun p => l.keysAfter p (.exit q t)⟩ := by
  obtain ⟨curr, hcurr, hcase⟩ := sysExitUntilYield_cases hexit
  have hinv : Inv ⟨l.sched.sysExitTask curr, l.keys⟩ := h.same (sameBuffers_sysExitTask _ curr)
  have hshell : l.sched.ExitsShell
      ↔ (l.sched.procs (l.sched.tasks curr).parent).filename = icarshPath := by
    unfold ExitsShell
    rw [hcurr]
    refine ⟨?_, fun h => ⟨curr, rfl, h⟩⟩
    rintro ⟨_, ht, h⟩
    exact Option.some.inj ht ▸ h
  intro p hp
  dsimp only [keysAfter] at hp ⊢
  rcases hcase with ⟨hother, rfl⟩ | ⟨hicarsh, -, rfl⟩
  · rw [if_neg fun hand => hother (hshell.mp hand.2)]
    exact hinv p hp
  · -- the shell comes up again
    have hspawn := hinv.spawn q t icarshPath p hp
    simpa only [hshell.mpr hicarsh, and_true] using hspawn

/-- What a read returns is taken from the buffer of the process that reads. -/
theorem Inv.sysRead {count : Nat} (h : l.Inv)
    (hread : (l.sched.sysRead count).map Prod.snd = some s) :
    Inv ⟨s, fun p => l.keysAfter p (.read count)⟩ := by
  simp only [Sched.sysRead] at hread
  cases hcurr : l.sched.currTask with
  | none =>
      rw [hcurr] at hread
      cases hread
  | some t =>
      simp only [hcurr, Option.map_some, Option.some.injEq] at hread
      subst hread
      obtain ⟨hcaller, hothers⟩ := sysReadLoop_buffers (l.sched.tasks t).parent count l.sched
      have hlive := (keeps_sysReadLoop (l.sched.tasks t).parent count l.sched).live
      intro p hp
      dsimp only at hp ⊢
      rw [hlive] at hp
      simp only [keysAfter, hcurr]
      split
      · rename_i heq
        subst heq
        exact (h _ hp).read hcaller
      · rename_i hne
        rw [hothers p hne]
        exact h p hp

/-- A scancode goes to the buffer of the process in the foreground, if there is one. -/
theorem Inv.irq1 {b : UInt8} (h : l.Inv) (hirq : l.sched.irq1 b = some s) :
    Inv ⟨s, fun p => l.keysAfter p (.key b)⟩ := by
  simp only [Sched.irq1] at hirq
  cases hfore : l.sched.foreground with
  | none =>
      rw [hfore] at hirq
      have hsame := h.same (sameBuffers_wqWakeupLoop hirq)
      simpa only [Inv, keysAfter, hfore, reduceCtorEq, if_false] using hsame
  | some q =>
      simp only [hfore] at hirq
      -- the byte goes to `q` first, then the readers are woken
      have hwake := sameBuffers_wqWakeupLoop hirq
      intro p hp
      have hlive : p ∈ l.sched.live := hwake.live p hp
      dsimp only at hp ⊢
      rw [hwake.buffer p]
      simp only [keysAfter, hfore, setProc]
      by_cases heq : q = p
      · subst heq
        rw [if_pos rfl, if_pos rfl]
        exact (h q hlive).press b
      · rw [if_neg fun hsome => heq (Option.some.inj hsome), if_neg (Ne.symm heq)]
        exact h p hlive

/-- Every event keeps the invariant. -/
theorem Inv.step {e : Event} (h : l.Inv) (hstep : l.step e = some l') : l'.Inv := by
  obtain ⟨s, hsched, rfl⟩ := Option.map_eq_some_iff.mp hstep
  cases e with
  | spawn q t file =>
      simp only [Sched.step] at hsched
      split at hsched
      · exact Option.some.inj hsched ▸ h.spawn q t file
      · cases hsched
  | foreground q =>
      simp only [Sched.step] at hsched
      split at hsched
      · exact Option.some.inj hsched ▸ h.same (sameBuffers_of_procs rfl rfl)
      · cases hsched
  | tick => exact h.same (sameBuffers_rrYield hsched)
  | read count => exact h.sysRead hsched
  | key b => exact h.irq1 hsched
  | exit q t =>
      obtain ⟨s₁, hexit, hyield⟩ := Option.bind_eq_some_iff.mp hsched
      exact (h.exit hexit).same (sameBuffers_rrYield hyield)

end Steps

/-- No scancode gets to another process, is read twice or overtakes another: in every run from
    boot and for every live process, what its reads have returned and what waits in its buffer,
    one behind the other, is a subsequence of the scancodes that came in while it was in the
    foreground.  Only those are missing that met a full buffer, and without one nothing is. -/
theorem keyboard_delivers (tasks : TaskPtr → Task) (procs : ProcPtr → Process)
    (es : List Event) (s : Sched) (hrun : Runs Sched.step always (Sched.boot tasks procs) es s) :
    ∃ l : KeyLog, Runs step always (boot tasks procs) es l ∧ l.sched = s ∧
      ∀ p ∈ s.live,
        ((l.keys p).delivered ++ (s.procs p).keyboardBuffer.contents).Sublist (l.keys p).pressed ∧
        (l.keys p).delivered.length + (s.procs p).keyboardBuffer.count + (l.keys p).lost
          = (l.keys p).pressed.length ∧
        ((l.keys p).lost = 0 →
          (l.keys p).pressed = (l.keys p).delivered ++ (s.procs p).keyboardBuffer.contents) := by
  obtain ⟨l, hlog, rfl⟩ := exists_log (fun _ => {}) hrun
  have hinv : l.Inv := hlog.invariant Inv (fun p hp => absurd hp List.not_mem_nil)
    fun _ _ _ hinv _ hstep => hinv.step hstep
  refine ⟨l, hlog, rfl, fun p hp => ?_⟩
  obtain ⟨horder, htotal⟩ := hinv p hp
  refine ⟨horder, htotal, fun hlost => ?_⟩
  -- a subsequence of the full length is the whole sequence
  symm
  apply horder.eq_of_length
  rw [List.length_append, Ring.contents_length]
  omega

/-- The shell is sent one key more than its buffer holds and reads two of them; the idle
    process comes to the foreground for one key; the shell exits, comes up again where it was
    freed, and is sent a key there. -/
def keysForTwo : List Event :=
  bootstrap ++ [.tick, .tick] ++ List.replicate (fifoBufferSize + 1) (.key 30)
    ++ [.read 2, .foreground 1, .key 31, .exit 2 3, .key 48]

theorem keyboard_delivers_shell : ∃ s ∈ exec Sched.step always coldBoot keysForTwo,
    1 ∈ s.live ∧ 2 ∈ s.live ∧ ∃ l : KeyLog, l.sched = s ∧
      ((l.keys 1).delivered ++ (s.procs 1).keyboardBuffer.contents).Sublist (l.keys 1).pressed ∧
      ((l.keys 2).delivered ++ (s.procs 2).keyboardBuffer.contents).Sublist (l.keys 2).pressed := by
  have hsome : ∃ s ∈ exec Sched.step always coldBoot keysForTwo, 1 ∈ s.live ∧ 2 ∈ s.live := by
    decide +kernel
  obtain ⟨s, hs, hidle, hshell⟩ := hsome
  obtain ⟨l, -, hl, hkeys⟩ := keyboard_delivers _ _ _ s (runs_of_exec hs)
  exact ⟨s, hs, hidle, hshell, l, hl, (hkeys 1 hidle).1, (hkeys 2 hshell).1⟩

end KeyLog

end Icarius.Scheduler
