/-
  Icarius.Process.Stacks

  The stacks of the threads of a process: 256 KiB each, below `USER_STACK_END`, sixteen in
  one page of 4 MiB.  `task_create` maps the page anew for every thread, and with it moves
  the stacks of the threads there are to another frame.
-/

import Icarius.Memory.PageRange
import Icarius.Process.Spawn

namespace Icarius

open Icarius.Lib

namespace Machine

open Kernel

/-- `stack_top` of the thread with number `j` -/
def stackTop (j : Nat) : Nat := userStackEnd - j * (userStackSize / processMaxThread)

/-- `stack_bottom` of the thread with number `j` -/
def stackBottom (j : Nat) : Nat := stackTop j - userStackSize / processMaxThread + 1

/-- The page all the stacks are in -/
def stackPage : Nat := 767

/-- The stacks of the first `n` threads are mapped. -/
def StacksMapped (s : Machine) (p n : Nat) : Prop :=
  ∀ j < n, ∀ a, stackBottom j ≤ a → a ≤ stackTop j →
    entryPresent (s.procDir p (pdIndex a)) = true

/-- From `s` to `s'` the first `n` stacks of a process stay in the frames they are in, and
    the next one is mapped. -/
structure KeepsStacks (s s' : Machine) (p n : Nat) : Prop where
  kept : ∀ j < n, ∀ a, stackBottom j ≤ a → a ≤ stackTop j →
    entryPresent (s'.procDir p (pdIndex a)) = true ∧
      entryFrame (s'.procDir p (pdIndex a)) = entryFrame (s.procDir p (pdIndex a))
  mapped : ∀ a, stackBottom n ≤ a → a ≤ stackTop n →
    entryPresent (s'.procDir p (pdIndex a)) = true

/-- No other frame is put behind the stacks: `kzalloc` has no task object, or leaves no
    frame to be had, or the next frame is the one the stacks are in. -/
def StacksStay (s : Machine) (p : Nat) : Prop :=
  ∀ ptr k, s.kernel.kzalloc taskSize = .ok (ptr, k) → ptr = 0 ∨ (pfaAlloc k.pfa).1 = 0 ∨
    (pfaAlloc k.pfa).1 = entryFrame (s.procDir p stackPage) * pageSize

/-! ## The stack page -/

section Stacks

variable {s s' : Machine} {p task j a : Nat} {file : Program}

/-- Every stack is in the stack page. -/
theorem pdIndex_stack (hj : j < processMaxThread) (hlo : stackBottom j ≤ a) (hhi : a ≤ stackTop j) :
    pdIndex a = stackPage := by
  simp only [stackBottom, stackTop, userStackEnd, userStackSize, processMaxThread, pageSize,
    pdIndex, Nat.shiftRight_eq_div_pow, stackPage] at *
  omega

/-- There is a byte in every stack. -/
theorem stackBottom_le (hj : j < processMaxThread) : stackBottom j ≤ stackTop j := by
  simp only [stackBottom, stackTop, userStackEnd, userStackSize, processMaxThread, pageSize] at *
  omega

/-- Mapping a stack is one round of `page_map_between`. -/
theorem pageMapBetween_stackOf (k : Kernel) {dir : Nat} (hd : dir ≠ 0) (hj : j < processMaxThread) :
    (k.pageMapBetween dir (stackBottom j) (stackTop j) userFlags).dirAt dir
      = if (pfaAlloc k.pfa).1 = 0 then k.dirAt dir
        else (k.dirAt dir).set stackPage (pageEntry (pfaAlloc k.pfa).1 userFlags) := by
  have hbounds : stackBottom j < stackTop j ∧ stackTop j ≤ 0xFFC00000 ∧
      mapRounds (stackBottom j) (stackTop j) = 1 ∧
      pdIndex (stackBottom j / 4096 * 4096) = stackPage := by
    simp only [stackBottom, stackTop, userStackEnd, userStackSize, processMaxThread, pageSize,
      mapRounds, pdIndex, Nat.shiftRight_eq_div_pow, stackPage] at *
    omega
  rw [pageMapBetween_eq userFlags hd hbounds.1 hbounds.2.1, hbounds.2.2.1]
  rcases halloc : pfaAlloc k.pfa with ⟨addr, pfa⟩
  simp only [Kernel.pageMapLoop, halloc]
  split
  · rfl
  · show (if spaceFrame dir = spaceFrame dir then _ else _) = _
    rw [if_pos rfl, ← hbounds.2.2.2]
    rfl

/-! ## What task_create leaves -/

/-- A call that returns: the task object, the stack, and a loader that leaves the page
    tables alone. -/
theorem taskCreate_cases (hmax : (s.procs p).taskCount < processMaxThread)
    (hdir : (s.procs p).pageDir ≠ 0) (hcall : s.taskCreate p file = .ok (task, s')) :
    s'.procs = s.procs ∧ ∃ ptr k, s.kernel.kzalloc taskSize = .ok (ptr, k) ∧
      k.dirs = s.kernel.dirs ∧
      s'.kernel.dirs = (if ptr = 0 then k else k.pageMapBetween (s.procs p).pageDir
        (stackBottom (s.procs p).taskCount) (stackTop (s.procs p).taskCount) userFlags).dirs := by
  cases taskCreate_returns hcall with
  | full hfull => exact absurd hmax (Nat.not_lt.mpr hfull)
  | noTask k htask => exact ⟨rfl, 0, k, htask, (Kernel.kzalloc_grew htask).dirs_eq, rfl⟩
  | noDir ptr k htask hnone => exact absurd hnone hdir
  | created _ k _ htask hptr _ hunder =>
      have hdirs := (Kernel.kzalloc_grew htask).dirs_eq
      simp only [underDir] at hunder
      split at hunder
      · cases hunder
      · -- what the loader leaves is the heap's business
        rename_i k' hload
        have hsame := (loadBinaryIntoTask_grew hload).dirs_eq
        cases hunder
        refine ⟨rfl, task, k, htask, hdirs, ?_⟩
        rw [if_neg hptr]
        exact hsame

/-- The directory of the process afterwards: the stack page has another frame, unless
    there was none. -/
theorem procDir_taskCreate (hmax : (s.procs p).taskCount < processMaxThread)
    (hdir : (s.procs p).pageDir ≠ 0) (hcall : s.taskCreate p file = .ok (task, s')) :
    ∃ ptr k, s.kernel.kzalloc taskSize = .ok (ptr, k) ∧
      s'.procDir p = if ptr = 0 ∨ (pfaAlloc k.pfa).1 = 0 then s.procDir p
        else (s.procDir p).set stackPage (pageEntry (pfaAlloc k.pfa).1 userFlags) := by
  obtain ⟨hprocs, ptr, k, htask, hsame, hdirs⟩ := taskCreate_cases hmax hdir hcall
  have hbefore : k.dirAt (s.procs p).pageDir = s.procDir p := by
    rw [Kernel.dirAt, hsame]
    rfl
  refine ⟨ptr, k, htask, ?_⟩
  rw [procDir, hprocs, Kernel.dirAt, hdirs, ← hbefore]
  by_cases hptr : ptr = 0
  · rw [if_pos hptr, if_pos (.inl hptr)]
    rfl
  · rw [if_neg hptr]
    have hstack := pageMapBetween_stackOf k hdir hmax
    rw [Kernel.dirAt] at hstack
    rw [hstack]
    by_cases hnone : (pfaAlloc k.pfa).1 = 0
    · rw [if_pos hnone, if_pos (.inr hnone)]
    · rw [if_neg hnone, if_neg (not_or.mpr ⟨hptr, hnone⟩)]

/-- The entry of a frame that was handed out -/
theorem entryFrame_alloc {pfa : Pfa} (h : (pfaAlloc pfa).1 ≠ 0) :
    entryFrame (pageEntry (pfaAlloc pfa).1 userFlags) * pageSize = (pfaAlloc pfa).1 ∧
      entryPresent (pageEntry (pfaAlloc pfa).1 userFlags) = true := by
  rcases halloc : pfaAlloc pfa with ⟨addr, pfa'⟩
  rw [halloc] at h
  obtain ⟨f, hlt, -, -, rfl, -⟩ := pfaAlloc_spec halloc h
  exact ⟨congrArg (· * pageSize) (entryFrame_frameEntry hlt userFlags), entryPresent_frameEntry f userFlags⟩

end Stacks

/-! ## A second thread -/

theorem setDirAt_kernelDirectory (k : Kernel) (ptr : Nat) (dir : Dir) :
    (k.setDirAt ptr dir).kernelDirectory = k.kernelDirectory := rfl

theorem pageMapLoop_kernelDirectory (dir flags n virtAddr : Nat) (k : Kernel) :
    (Kernel.pageMapLoop dir flags n virtAddr k).kernelDirectory = k.kernelDirectory := by
  induction n generalizing virtAddr k with
  | zero => rfl
  | succ n ih =>
      unfold Kernel.pageMapLoop
      simp only
      split
      · rfl
      · rw [ih, setDirAt_kernelDirectory]

/-- Mapping pages concerns one directory and the bitmap. -/
theorem pageMapBetween_rest (k : Kernel) (dir virtStart virtEnd flags : Nat) :
    (k.pageMapBetween dir virtStart virtEnd flags).heap = k.heap ∧
      (k.pageMapBetween dir virtStart virtEnd flags).mem = k.mem ∧
      (k.pageMapBetween dir virtStart virtEnd flags).kernelDirectory = k.kernelDirectory := by
  unfold Kernel.pageMapBetween
  simp only
  split
  · exact ⟨rfl, rfl, rfl⟩
  · rw [(pageMapLoop_same _ _ _ _ _).1, (pageMapLoop_same _ _ _ _ _).2,
      pageMapLoop_kernelDirectory]
    exact ⟨rfl, rfl, rfl⟩

/-- With a heap that is not half full and a fresh copy of the kernel half, the call
    returns. -/
theorem taskCreate_oneThread (s : Machine) (p : Nat) (file : Program)
    (hmax : (s.procs p).taskCount < processMaxThread) (hdir : (s.procs p).pageDir ≠ 0)
    (hone : s.kernel.OnePage 2)
    (hupper : ∀ i, 768 ≤ i → s.procDir p i = copyKernelHalf s.kernel.kernelDirectory i)
    (hcode : entryPresent (s.procDir p 0) = true) (hfile : Program.Plain file) :
    ∃ task k s', s.taskCreate p file = .ok (task, s') ∧
      s.kernel.kzalloc taskSize = .ok (task, k) ∧ task ≠ 0 ∧ k.pfa = s.kernel.pfa := by
  obtain ⟨task, k₁, htask, htaskNe, -, hone₁, hsame₁⟩ :=
    hone.kzalloc taskSize (by decide) (by decide)
  obtain ⟨k₂, hk₂⟩ : ∃ k₂, k₂ = k₁.pageMapBetween (s.procs p).pageDir
      (stackBottom (s.procs p).taskCount) (stackTop (s.procs p).taskCount) userFlags := ⟨_, rfl⟩
  -- the task object comes from a page the heap has, so no directory changes for it
  have hbefore : k₁.dirAt (s.procs p).pageDir = s.procDir p := by
    rw [Kernel.dirAt, hsame₁.dirs]
    rfl
  -- of the directory, only the page of the stacks may be new
  have hentry : ∀ i, i ≠ stackPage → k₂.dirAt (s.procs p).pageDir i = s.procDir p i := by
    intro i hi
    rw [hk₂, pageMapBetween_stackOf k₁ hdir hmax, hbefore]
    split
    · rfl
    · exact Dir.set_ne _ _ hi
  obtain ⟨hheap, hmem, hkd⟩ := pageMapBetween_rest k₁ (s.procs p).pageDir
    (stackBottom (s.procs p).taskCount) (stackTop (s.procs p).taskCount) userFlags
  rw [← hk₂] at hheap hmem hkd
  obtain ⟨k₃, hload, -, -⟩ := loadBinaryIntoTask_isOk
    (k := { k₂ with cr3 := some (v2p (s.procs p).pageDir / pageSize) })
    (k₂.dirAt (s.procs p).pageDir) hfile ((hone₁.of_eq hmem hheap).of_eq rfl rfl) (by decide)
    (by rw [hentry 0 (by decide)]; exact hcode)
  obtain ⟨s₂, hs₂⟩ : ∃ s₂ : Machine, s₂ = { s with
    kernel := k₂
    tasks := fun t => if t = task then
      ⟨stackTop (s.procs p).taskCount, stackBottom (s.procs p).taskCount, p⟩ else s.tasks t } :=
    ⟨_, rfl⟩
  have hkernel : s₂.kernel = k₂ := by rw [hs₂]
  have hsees : ∀ a, s₂.sees (s₂.kernel.dirAt (s.procs p).pageDir) a := sees_of_upper fun i hi => by
    rw [hkernel, hkd, hsame₁.kernelDirectory, hentry i (by rw [stackPage]; omega)]
    exact hupper i hi
  rw [← hkernel] at hload
  obtain ⟨s₃, hunder, -⟩ := underDir_of_sees hsees hload
  refine ⟨task, k₁, s₃, ?_, htask, htaskNe, hsame₁.pfa⟩
  simp only [taskCreate, ok_bind, htask]
  rw [if_neg (Nat.not_le.mpr hmax)]
  simp only [setKernel, htaskNe, if_false, hdir]
  rw [hs₂] at hunder
  rw [hk₂] at hunder
  simp only [stackTop, stackBottom] at hunder
  rw [hunder, ok_bind]

/-- The machine with a process of one thread: its directory in frame 20, its code in frame
    21, its stack in frame 22 -/
def oneThread (s : Machine) : Machine := { s with
  kernel := { s.kernel with
    pfa := pfaSet (pfaSet (pfaSet s.kernel.pfa 20) 21) 22
    dirs := fun _ i =>
      if i = 0 then frameEntry 21 userFlags
      else if i = stackPage then frameEntry 22 userFlags
      else copyKernelHalf s.kernel.kernelDirectory i }
  procs := fun _ => ⟨1, fun _ => 0, p2v (20 * pageSize), 1, .binary, 100, 0, 0, 0⟩ }

theorem procDir_oneThread (s : Machine) (p : Nat) :
    s.oneThread.procDir p stackPage = frameEntry 22 userFlags := by
  show (if stackPage = 0 then frameEntry 21 userFlags
    else if stackPage = stackPage then frameEntry 22 userFlags
    else copyKernelHalf s.kernel.kernelDirectory stackPage) = _
  rw [if_neg (by decide), if_pos rfl]

theorem stacksMapped_oneThread (s : Machine) (p : Nat) : s.oneThread.StacksMapped p 1 := by
  intro j hj a hlo hhi
  rw [pdIndex_stack (Nat.lt_of_lt_of_le hj (by decide)) hlo hhi, procDir_oneThread]
  decide

/-- The frames of the process are used, and the next one is frame 13. -/
theorem pfaAlloc_oneThread {s : Machine} (hpfa : s.kernel.pfa = (pfaAlloc coldMachine.kernel.pfa).2) :
    (pfaAlloc s.oneThread.kernel.pfa).1 = 13 * pageSize := by
  show (pfaAlloc (pfaSet (pfaSet (pfaSet s.kernel.pfa 20) 21) 22)).1 = _
  rw [hpfa]
  decide +kernel

/-- A second thread of that process is created. -/
theorem exists_second_thread : ∃ (s : Machine) (task : Nat) (k : Kernel) (s' : Machine),
    (s.procs 0).taskCount = 1 ∧ (s.procs 0).pageDir ≠ 0 ∧ s.StacksMapped 0 1 ∧
      s.taskCreate 0 coldProgram = .ok (task, s') ∧ s.kernel.kzalloc taskSize = .ok (task, k) ∧
      task ≠ 0 ∧ (pfaAlloc k.pfa).1 = 13 * pageSize ∧
      entryFrame (s.procDir 0 stackPage) = 22 := by
  obtain ⟨p, s₁, -, -, hone, hpfa, -⟩ :=
    processAlloc_isOk coldMachine_boot (coldMachine_supplies.mono (by decide))
  have hdir : (s₁.oneThread.procs 0).pageDir ≠ 0 := by
    show p2v (20 * pageSize) ≠ 0
    decide
  obtain ⟨task, k, s', hcall, htask, hne, hk⟩ := taskCreate_oneThread s₁.oneThread 0
    coldProgram (by show 1 < processMaxThread; decide) hdir (hone.of_eq rfl rfl)
    (fun i hi => by
      show (if i = 0 then _ else if i = stackPage then _ else _) = _
      rw [if_neg (by omega), if_neg (by rw [stackPage]; omega)]
      rfl)
    (by show entryPresent (frameEntry 21 userFlags) = true; decide)
    ⟨rfl, rfl, rfl, by decide, by decide⟩
  refine ⟨s₁.oneThread, task, k, s', rfl, hdir, stacksMapped_oneThread s₁ 0, hcall, htask, hne, ?_, ?_⟩
  · rw [hk]
    exact pfaAlloc_oneThread hpfa
  · rw [procDir_oneThread]
    decide

/-! ## The stacks of the others -/

/-- A new thread leaves the stacks of the others alone exactly when no other frame is put
    behind the stack page. -/
theorem keepsStacks_iff {s s' : Machine} {p task : Nat} {file : Program}
    (hpos : 1 ≤ (s.procs p).taskCount) (hmax : (s.procs p).taskCount < processMaxThread)
    (hdir : (s.procs p).pageDir ≠ 0) (hmapped : s.StacksMapped p (s.procs p).taskCount)
    (hcall : s.taskCreate p file = .ok (task, s')) :
    KeepsStacks s s' p (s.procs p).taskCount ↔ s.StacksStay p := by
  obtain ⟨ptr, k, htask, hprocDir⟩ := procDir_taskCreate hmax hdir hcall
  have hzero : 0 < processMaxThread := Nat.lt_of_lt_of_le hpos (Nat.le_of_lt hmax)
  have hpresent : entryPresent (s.procDir p stackPage) = true := by
    have hbyte := hmapped 0 hpos (stackTop 0) (stackBottom_le hzero) (Nat.le_refl _)
    rwa [pdIndex_stack hzero (stackBottom_le hzero) (Nat.le_refl _)] at hbyte
  have hstay : s.StacksStay p ↔ ptr = 0 ∨ (pfaAlloc k.pfa).1 = 0 ∨
      (pfaAlloc k.pfa).1 = entryFrame (s.procDir p stackPage) * pageSize := by
    constructor
    · exact fun h => h ptr k htask
    · intro h ptr' k' htask'
      rw [htask] at htask'
      obtain ⟨rfl, rfl⟩ := Prod.mk.inj (Except.ok.inj htask')
      exact h
  -- all that counts is the entry of the stack page
  have hkeeps : KeepsStacks s s' p (s.procs p).taskCount ↔
      entryPresent (s'.procDir p stackPage) = true ∧
        entryFrame (s'.procDir p stackPage) = entryFrame (s.procDir p stackPage) := by
    constructor
    · intro h
      have hbyte := h.kept 0 hpos (stackTop 0) (stackBottom_le hzero) (Nat.le_refl _)
      rwa [pdIndex_stack hzero (stackBottom_le hzero) (Nat.le_refl _)] at hbyte
    · intro h
      refine ⟨fun j hj a hlo hhi => ?_, fun a hlo hhi => ?_⟩
      · rw [pdIndex_stack (Nat.lt_trans hj hmax) hlo hhi]
        exact h
      · rw [pdIndex_stack hmax hlo hhi]
        exact h.1
  rw [hkeeps, hstay, hprocDir]
  by_cases hnone : ptr = 0 ∨ (pfaAlloc k.pfa).1 = 0
  · rw [if_pos hnone]
    exact ⟨fun _ => hnone.elim .inl fun h => .inr (.inl h), fun _ => ⟨hpresent, rfl⟩⟩
  · obtain ⟨hptr, haddr⟩ := not_or.mp hnone
    obtain ⟨hframe, hentry⟩ := entryFrame_alloc haddr
    rw [if_neg hnone, Dir.set_self]
    constructor
    · rintro ⟨-, hsame⟩
      rw [hsame] at hframe
      exact .inr (.inr hframe.symm)
    · rintro (h | h | h)
      · exact absurd h hptr
      · exact absurd h haddr
      · refine ⟨hentry, Nat.eq_of_mul_eq_mul_right (Nat.pos_of_ne_zero pageSize_ne_zero) ?_⟩
        rw [hframe, h]

/-- A second thread, in these terms -/
theorem keepsStacks_iff_second : ∃ (s s' : Machine) (task : Nat),
    s.taskCreate 0 coldProgram = .ok (task, s') ∧ (KeepsStacks s s' 0 1 ↔ s.StacksStay 0) := by
  obtain ⟨s, task, k, s', hcount, hdir, hmapped, hcall, -⟩ := exists_second_thread
  have hiff := keepsStacks_iff (Nat.le_of_eq hcount.symm) (by rw [hcount]; decide) hdir
    (hcount.symm ▸ hmapped) hcall
  rw [hcount] at hiff
  exact ⟨s, s', task, hcall, hiff⟩

/-- The stack of the first thread is in another frame from then on. -/
theorem exists_stack_moved :
    ¬ ∀ (s s' : Machine) (p task : Nat) (file : Program), 1 ≤ (s.procs p).taskCount →
      (s.procs p).taskCount < processMaxThread → (s.procs p).pageDir ≠ 0 →
      s.StacksMapped p (s.procs p).taskCount → s.taskCreate p file = .ok (task, s') →
      KeepsStacks s s' p (s.procs p).taskCount := by
  intro hall
  obtain ⟨s, task, k, s', hcount, hdir, hmapped, hcall, htask, hne, haddr, hframe⟩ :=
    exists_second_thread
  have hmax : (s.procs 0).taskCount < processMaxThread := by
    rw [hcount]
    decide
  have hkeeps := hall s s' 0 task coldProgram (Nat.le_of_eq hcount.symm) hmax hdir
    (hcount.symm ▸ hmapped) hcall
  have hbyte := (hkeeps.kept 0 (by rw [hcount]; decide) (stackTop 0) (by decide)
    (Nat.le_refl _)).2
  rw [pdIndex_stack (by decide) (by decide) (Nat.le_refl _), hframe] at hbyte
  obtain ⟨ptr, k', htask', hprocDir⟩ := procDir_taskCreate hmax hdir hcall
  rw [htask] at htask'
  obtain ⟨rfl, rfl⟩ := Prod.mk.inj (Except.ok.inj htask')
  rw [hprocDir, if_neg, Dir.set_self, haddr] at hbyte
  · exact absurd hbyte (by decide)
  · rw [not_or, haddr]
    exact ⟨hne, by decide⟩

end Machine

end Icarius
