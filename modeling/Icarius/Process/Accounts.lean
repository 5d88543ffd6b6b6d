/-
  Icarius.Process.Accounts

  What `process_spawn` and `process_exit` do to the frames.  One ledger follows
  the machine through every run: a spawn takes free frames for the heap and for
  the new process, an exit gives back what the process had, and a call of the
  heap only takes.  Isolation of the address spaces and the balance of the bitmap
  are read off the ledger.
-/

import Icarius.Memory.Frames
import Icarius.Process.Model

namespace Icarius

open Icarius.Lib

namespace Kernel

/-! ## Heap calls -/

theorem heapCall_grew {s s' : Kernel} {c : HeapCall} (h : s.heapCall c = .ok s') : Grew s s' := by
  cases c with
  | kmalloc size =>
      simp only [heapCall] at h
      split at h
      · cases h
      · rename_i hcall
        cases h
        exact kmalloc_grew hcall
  | kfree ptr =>
      cases h
      exact (kfree_sameTables s ptr).grew
  | store addr byte =>
      cases h
      exact (SameTables.setMem s _).grew

theorem heapCalls_grew {s s' : Kernel} {cs : List HeapCall} (h : s.heapCalls cs = .ok s') :
    Grew s s' := by
  induction cs generalizing s with
  | nil =>
      cases h
      exact .rfl
  | cons c cs ih =>
      simp only [heapCalls] at h
      split at h
      · cases h
      · rename_i hcall
        exact (heapCall_grew hcall).trans (ih h)

/-- A request that passes the guard of `_malloc` gets a block. -/
theorem mallocLoop_ne_zero {n fuel ptr : Nat} {s s' : Kernel}
    (h : mallocLoop n fuel s = .ok (ptr, s')) : ptr ≠ 0 := by
  obtain ⟨s₁, start, -, htake⟩ := mallocLoop_takes h
  obtain ⟨_, _, -, hptr, -⟩ := takeRun_ok htake
  simp only [heapBlockSize] at hptr
  omega

theorem kzalloc_ne_zero {s s' : Kernel} {size ptr : Nat}
    (hguard : (s.heap.nextAddr + totalSizeWithHeader size) % 2 ^ 32 ≤ kernelHeapMax)
    (h : s.kzalloc size = .ok (ptr, s')) : ptr ≠ 0 := by
  obtain ⟨s₁, hcall, -⟩ := kzalloc_ok h
  obtain ⟨hrefused, -⟩ | ⟨-, s₂, -, hloop⟩ := kmalloc_ok hcall
  · exact absurd hguard (Nat.not_le.mpr hrefused)
  · exact mallocLoop_ne_zero hloop

end Kernel

/-! ## Upper halves -/

/-- From `k` to `k'` no directory of a process changed in its kernel half, and
    the kernel directory only by growth of the heap. -/
structure UpperSame (k k' : Kernel) : Prop where
  le : k.heap.nextAddr ≤ k'.heap.nextAddr
  kernelDirectory : k'.heap.nextAddr = k.heap.nextAddr →
    k'.kernelDirectory = k.kernelDirectory
  upper : ∀ d i, 768 ≤ i → k'.dirAt d i = k.dirAt d i

theorem UpperSame.trans {k k₁ k₂ : Kernel} (h : UpperSame k k₁) (h' : UpperSame k₁ k₂) :
    UpperSame k k₂ where
  le := Nat.le_trans h.le h'.le
  kernelDirectory hnext := by
    have hle := h.le
    have hle' := h'.le
    rw [h'.kernelDirectory (by omega), h.kernelDirectory (by omega)]
  upper d i hi := (h'.upper d i hi).trans (h.upper d i hi)

theorem Kernel.SameTables.upperSame {k k' : Kernel} (h : Kernel.SameTables k k') :
    UpperSame k k' where
  le := Nat.le_of_eq h.nextAddr.symm
  kernelDirectory _ := h.kernelDirectory
  upper d i _ := by
    rw [Kernel.dirAt, h.dirs]
    rfl

theorem Kernel.Grew.dirs_eq {k k' : Kernel} (h : Kernel.Grew k k') : k'.dirs = k.dirs := by
  refine h.preserves (fun s => s.dirs = k.dirs) (Eq.refl _) ?_ ?_
  · intro s s' hs hsame
    exact hsame.dirs.trans hs
  · intro s s' hs hpage _
    exact hpage.mapped.dirs.trans hs

theorem Kernel.Grew.upperSame {k k' : Kernel} (h : Kernel.Grew k k') : UpperSame k k' where
  le := h.nextAddr_le
  kernelDirectory hnext := (h.sameTables hnext).kernelDirectory
  upper d i _ := by
    rw [Kernel.dirAt, h.dirs_eq]
    rfl

theorem MapsOnly.upperSame {k k' : Kernel} {d lo n : Nat} (h : MapsOnly k k' d lo n)
    (hlow : lo + n ≤ 768) : UpperSame k k' where
  le := by rw [h.heap]
  kernelDirectory _ := h.kernelDirectory
  upper e i hi := by
    by_cases heq : spaceFrame e = spaceFrame d
    · have hentry := h.entries i (.inr (by omega))
      rw [Kernel.dirAt, Kernel.dirAt] at hentry ⊢
      rw [spaceFrame, spaceFrame] at heq
      rw [heq]
      exact hentry
    · rw [h.dirAt_ne heq]

namespace Machine

/-! ## process_exit -/

/-- The sweep empties the present entries it meets and clears their frames. -/
theorem exitSweep_spec (n i : Nat) (dir : Dir) (pfa : Pfa) :
    (∀ j, ¬ (i ≤ j ∧ j < i + n) → (exitSweep n i dir pfa).1 j = dir j) ∧
    (∀ f, pfaTest (exitSweep n i dir pfa).2 f = true ↔
      pfaTest pfa f = true ∧ ¬ Maps dir (fun j => i ≤ j ∧ j < i + n) f) := by
  -- over the entries that are left; a present one loses its frame, and its entry with it
  induction n generalizing i dir pfa with
  | zero =>
      refine ⟨fun _ _ => rfl, fun f => ⟨fun h => ⟨h, ?_⟩, fun h => h.1⟩⟩
      rintro ⟨j, ⟨hlo, hhi⟩, -⟩
      omega
  | succ n ih =>
      unfold exitSweep
      split
      · rename_i hpresent
        obtain ⟨hdir, hpfa⟩ := ih (i + 1) (pageUnmapDir dir (i * pageSize))
          (pfaClear pfa (pageGetPhysAddr dir (i * pageSize) / pageSize))
        have hunmap : pageUnmapDir dir (i * pageSize) = dir.set i 0 := by
          rw [pageUnmapDir, pdIndex_mul_pageSize]
        refine ⟨fun j hj => ?_, fun f => ?_⟩
        · rw [hdir j (by omega), hunmap, Dir.set_ne _ _ (by omega)]
        · rw [hpfa, physAddr_frame hpresent, hunmap]
          -- a frame the range maps is the one of this entry, or one the later entries map
          have hmaps : Maps dir (fun j => i ≤ j ∧ j < i + (n + 1)) f ↔
              f = entryFrame (dir i) ∨
                Maps (dir.set i 0) (fun j => i + 1 ≤ j ∧ j < i + 1 + n) f := by
            constructor
            · rintro ⟨j, ⟨hlo, hhi⟩, hj, hframe⟩
              by_cases hji : j = i
              · exact .inl (hji ▸ hframe.symm)
              · exact .inr ⟨j, by omega, by rwa [Dir.set_ne _ _ hji],
                  by rwa [Dir.set_ne _ _ hji]⟩
            · rintro (rfl | ⟨j, ⟨hlo, hhi⟩, hj, hframe⟩)
              · exact ⟨i, by omega, hpresent, rfl⟩
              · rw [Dir.set_ne _ _ (by omega)] at hj hframe
                exact ⟨j, by omega, hj, hframe⟩
          rw [hmaps, not_or, ← and_assoc]
          refine and_congr_left fun _ => ?_
          -- the frame may be mapped once more: it is free in either case
          by_cases hf : f = entryFrame (dir i)
          · simp [hf]
          · rw [pfaTest_pfaClear_ne _ hf]
            simp [hf]
      · rename_i habsent
        obtain ⟨hdir, hpfa⟩ := ih (i + 1) dir pfa
        refine ⟨fun j hj => hdir j (by omega), fun f => ?_⟩
        rw [hpfa]
        refine and_congr_right fun _ => not_congr ⟨?_, ?_⟩
        · rintro ⟨j, ⟨hlo, hhi⟩, hj⟩
          exact ⟨j, by omega, hj⟩
        · rintro ⟨j, ⟨hlo, hhi⟩, hj⟩
          refine ⟨j, ?_, hj⟩
          by_cases hji : j = i
          · exact absurd (hji ▸ hj.1) habsent
          · omega

end Machine

open Machine in
/-- Everything an exiting process had is free again. -/
theorem Accounts.releaseSpace {k k' : Kernel} {users : List Nat} {dirOf : Nat → Nat} {l : Ledger}
    {p : Nat} (h : Accounts k users dirOf l) (hbelow : k.heap.nextAddr ≤ kernelHeapMax)
    (hnodup : users.Nodup) (hp : p ∈ users)
    (hcall : Machine.releaseSpace k (dirOf p) = .ok k') :
    Accounts k' (users.erase p) dirOf (l.release p) ∧
      k'.kernelDirectory = k.kernelDirectory.set (pdIndex (dirOf p)) 0 ∧
      (∀ g, g ≠ spaceFrame (dirOf p) → k'.dirs g = k.dirs g) ∧ k'.heap = k.heap := by
  unfold Machine.releaseSpace at hcall
  rcases hsweep : exitSweep 768 0 (k.dirAt (dirOf p)) k.pfa with ⟨dir, pfa⟩
  obtain ⟨-, hpfa⟩ := exitSweep_spec 768 0 (k.dirAt (dirOf p)) k.pfa
  rw [hsweep] at hcall hpfa
  have hspace := h.space p hp
  have hlt := h.lt (f := spaceFrame (dirOf p)) (by
    rw [(hspace.dir _).mpr rfl]
    exact Owner.noConfusion)
  simp only [Kernel.updateCurrentDir, Kernel.setDirAt, h.cr3, Except.ok.injEq] at hcall
  subst hcall
  have hdirs : ∀ g, g ≠ spaceFrame (dirOf p) →
      (if g = v2p (dirOf p) / pageSize then dir else k.dirs g) = k.dirs g :=
    fun g hg => if_neg hg
  -- who is not `p` keeps what it has
  have hrelease : ∀ {o g}, o ≠ .free → o ≠ .dir p → o ≠ .page p →
      (l.release p g = o ↔ l g = o) := Ledger.release_eq_iff
  have hmem : ∀ q, q ∈ users.erase p ↔ q ≠ p ∧ q ∈ users := fun q => hnodup.mem_erase_iff
  refine ⟨⟨fun f hf => ?_, fun f hf => ?_, fun f hf => ?_, fun q hq => ?_, fun f q hq => ?_, ?_,
    h.nextAddr, h.aligned, rfl⟩, rfl, hdirs, rfl⟩
  · -- the bitmap: swept frames, then the frame of the directory
    have hpage : Maps (k.dirAt (dirOf p)) (fun j => 0 ≤ j ∧ j < 0 + 768) f ↔ l f = .page p := by
      rw [← hspace.pages.maps_iff f]
      simp [Maps]
    have hbit : pfaTest (pfaClear pfa (spaceFrame (dirOf p))) f = true ↔
        f ≠ spaceFrame (dirOf p) ∧ pfaTest pfa f = true := by
      by_cases heq : f = spaceFrame (dirOf p)
      · rw [heq]
        simp
      · rw [pfaTest_pfaClear_ne _ heq]
        simp [heq]
    have hdir := hspace.dir f
    have hused := h.bitmap f hf
    have hswept := hpfa f
    rw [hpage] at hswept
    show pfaTest (pfaClear pfa (spaceFrame (dirOf p))) f = true ↔ _
    rw [hbit, hswept, hused, Ledger.release]
    -- the frames of `p` are free now, the others as before
    by_cases hown : l f = .dir p ∨ l f = .page p
    · rw [if_pos hown]
      refine ⟨fun hall => ?_, fun hne => absurd rfl hne⟩
      exact absurd hown (not_or.mpr ⟨fun hd => hall.1 (hdir.mp hd), hall.2.2⟩)
    · rw [if_neg hown]
      refine ⟨fun hall => hall.2.1, fun hne => ?_⟩
      exact ⟨fun hd => hown (.inl (hdir.mpr hd)), hne, fun hpg => hown (.inr hpg)⟩
  · have hfree := h.range f hf
    rw [Ledger.release, if_neg (by simp [hfree]), hfree]
  · rw [hrelease (by simp) (by simp) (by simp)]
    exact h.boot f hf
  · -- the other address spaces: their directories are not in the frame that was written
    obtain ⟨hqp, hq⟩ := (hmem q).mp hq
    refine (h.space q hq).congr (fun f => hrelease (by simp) (by simpa using hqp) (by simp))
      (fun f => hrelease (by simp) (by simp) (by simpa using hqp)) (hdirs _ fun heq => ?_)
    have hown := ((h.space q hq).dir _).mpr rfl
    have heq' : spaceFrame (dirOf q) = spaceFrame (dirOf p) := heq
    rw [heq', (hspace.dir _).mpr rfl, Owner.dir.injEq] at hown
    exact hqp hown.symm
  · -- nothing is left to `p`, so every owner is still in the list
    have hqp : q ≠ p := by
      rintro rfl
      unfold Ledger.release at hq
      split at hq
      · rcases hq with hq | hq <;> cases hq
      · rename_i hnot
        exact hnot hq
    rw [hrelease (by simp) (by simpa using hqp) (by simp),
      hrelease (by simp) (by simp) (by simpa using hqp)] at hq
    exact (hmem q).mpr ⟨hqp, h.owner f q hq⟩
  · -- the slot that is emptied maps the directory, not a page of the heap
    have hout := h.slot_not_heapIndex hbelow hlt (by
      rw [(hspace.dir _).mpr rfl]
      exact Owner.noConfusion)
    refine h.heap.congr (fun f => hrelease (by simp) (by simp) (by simp)) fun i hi => ?_
    refine Dir.set_ne _ _ fun heq => hout ?_
    rw [← hspace.slot, ← heq]
    exact hi

namespace Machine

/-! ## process_spawn -/

/-- The directory of every process. -/
def dirOf (s : Machine) (p : Nat) : Nat := (s.procs p).pageDir

variable {s s' : Machine} {self : Nat}

theorem loadBinaryIntoTask_grew {dir : Dir} {file : Program} {k k' : Kernel}
    (h : loadBinaryIntoTask dir file k = .ok k') : Kernel.Grew k k' := by
  obtain ⟨k₁, hopen, h⟩ := exists_of_bind h
  obtain ⟨⟨buf, k₂⟩, hbuf, h⟩ := exists_of_bind h
  obtain ⟨k₃, hread, h⟩ := exists_of_bind h
  have hcalls := (Kernel.heapCalls_grew hopen).trans
    ((Kernel.kzalloc_grew hbuf).trans (Kernel.heapCalls_grew hread))
  split at h
  · cases h
    exact hcalls.trans (Kernel.kfree_sameTables k₃ buf).grew
  · cases h

/-- Under the directory of a process no page table changes. -/
theorem underDir_spec {ptr : Nat} {code : Kernel → Except Stop Kernel}
    (hcr3 : s.kernel.cr3 = none) (hcode : ∀ k k', code k = .ok k' → Kernel.Grew k k')
    (h : s.underDir ptr code = .ok s') :
    Kernel.SameTables s.kernel s'.kernel ∧ s'.users = s.users ∧ s'.procs = s.procs := by
  simp only [underDir] at h
  split at h
  · cases h
  · rename_i k hk
    have hsame := (hcode _ _ hk).sameTables_of_cr3 (Option.some_ne_none _)
    cases h
    exact ⟨⟨hsame.pfa, hsame.kernelDirectory, hsame.dirs, hcr3.symm, hsame.nextAddr⟩, rfl, rfl⟩

/-! How the calls return, one case for each way through the source. -/

/-- `_process_alloc` has no process, or it sets up a new one. -/
inductive ProcessAllocates (s : Machine) (filetype : ProcessFiletype) : Nat → Machine → Prop
  | failed (k : Kernel) (hself : s.kernel.kzalloc processSize = .ok (0, k)) :
      ProcessAllocates s filetype 0 (s.setKernel k)
  | allocated (self : Nat) (k k' : Kernel) (proc : Process) (hne : self ≠ 0)
      (hself : s.kernel.kzalloc processSize = .ok (self, k))
      (hbuffer : k.kzalloc fifoSize = .ok (proc.keyboardBuffer, k'))
      (hpid : proc.pid = s.nextPid) (hcount : proc.taskCount = 0) :
      ProcessAllocates s filetype self
        { (s.setKernel k').setProc self proc with nextPid := s.nextPid + 1 }

theorem processAlloc_returns {filetype : ProcessFiletype}
    (h : s.processAlloc filetype = .ok (self, s')) : s.ProcessAllocates filetype self s' := by
  obtain ⟨⟨ptr, k⟩, hself, h⟩ := exists_of_bind h
  dsimp only at h
  split at h
  · rename_i hzero
    obtain ⟨rfl, rfl⟩ := Prod.mk.inj (Except.ok.inj h)
    exact .failed k (hzero ▸ hself)
  · rename_i hne
    obtain ⟨⟨buf, k'⟩, hbuffer, h⟩ := exists_of_bind h
    obtain ⟨rfl, rfl⟩ := Prod.mk.inj (Except.ok.inj h)
    exact .allocated ptr k k' _ hne hself hbuffer rfl rfl

/-- The machine `task_create` loads the program in: the task at `task` is set up and its
    stack is mapped. -/
def withStack (s : Machine) (k : Kernel) (parent task : Nat) : Machine :=
  let dir := (s.procs parent).pageDir
  let offset := (s.procs parent).taskCount * (userStackSize / processMaxThread)
  let stackTop := userStackEnd - offset
  let stackBottom := stackTop - userStackSize / processMaxThread + 1
  { s with
    kernel := k.pageMapBetween dir stackBottom stackTop userFlags
    tasks := fun t => if t = task then ⟨stackTop, stackBottom, parent⟩ else s.tasks t }

/-- `task_create` refuses, or it has no memory, or the process has no directory, or it
    loads the program. -/
inductive TaskCreates (s : Machine) (parent : Nat) (file : Program) : Nat → Machine → Prop
  | full (hmax : processMaxThread ≤ (s.procs parent).taskCount) : TaskCreates s parent file 0 s
  | noTask (k : Kernel) (htask : s.kernel.kzalloc taskSize = .ok (0, k)) :
      TaskCreates s parent file 0 (s.setKernel k)
  | noDir (task : Nat) (k : Kernel) (htask : s.kernel.kzalloc taskSize = .ok (task, k))
      (hdir : (s.procs parent).pageDir = 0) : TaskCreates s parent file 0 (s.setKernel k)
  | created (task : Nat) (k : Kernel) (s₁ : Machine)
      (htask : s.kernel.kzalloc taskSize = .ok (task, k)) (hne : task ≠ 0)
      (hdir : (s.procs parent).pageDir ≠ 0)
      (hunder : (s.withStack k parent task).underDir (s.procs parent).pageDir
        (loadBinaryIntoTask ((s.withStack k parent task).kernel.dirAt (s.procs parent).pageDir)
          file) = .ok s₁) :
      TaskCreates s parent file task s₁

theorem taskCreate_returns {parent task : Nat} {file : Program}
    (h : s.taskCreate parent file = .ok (task, s')) : s.TaskCreates parent file task s' := by
  unfold taskCreate at h
  split at h
  · rename_i hmax
    obtain ⟨rfl, rfl⟩ := Prod.mk.inj (Except.ok.inj h)
    exact .full hmax
  obtain ⟨⟨ptr, k⟩, htask, h⟩ := exists_of_bind h
  dsimp only at h
  split at h
  · rename_i hzero
    obtain ⟨rfl, rfl⟩ := Prod.mk.inj (Except.ok.inj h)
    exact .noTask k (hzero ▸ htask)
  rename_i hne
  split at h
  · rename_i hdir
    obtain ⟨rfl, rfl⟩ := Prod.mk.inj (Except.ok.inj h)
    exact .noDir ptr k htask hdir
  rename_i hdir
  obtain ⟨s₁, hunder, h⟩ := exists_of_bind h
  obtain ⟨rfl, rfl⟩ := Prod.mk.inj (Except.ok.inj h)
  exact .created ptr k s₁ htask hne hdir hunder

/-- `process_spawn` has no process, or gives one up, or inserts it into the list. -/
inductive ProcessSpawns (s : Machine) (file : Program) : Nat → Machine → Prop
  | noProcess (s₁ : Machine) (halloc : s.processAlloc .binary = .ok (0, s₁)) :
      ProcessSpawns s file 0 s₁
  | full (p : Nat) (s₁ : Machine) (halloc : s.processAlloc .binary = .ok (p, s₁)) (hne : p ≠ 0)
      (hmax : processMaxThread ≤ (s₁.procs p).taskCount) :
      ProcessSpawns s file 0 (s₁.setKernel (s₁.kernel.kfree p))
  | noTask (p : Nat) (s₁ s₂ s₃ : Machine) (halloc : s.processAlloc .binary = .ok (p, s₁))
      (hne : p ≠ 0) (hcreate : s₁.createSpace p = .ok s₂)
      (htask : s₂.taskCreate p file = .ok (0, s₃)) :
      ProcessSpawns s file 0 (s₃.setKernel (s₃.kernel.kfree p))
  | spawned (p task : Nat) (s₁ s₂ s₃ : Machine) (k : Kernel) (proc : Process)
      (halloc : s.processAlloc .binary = .ok (p, s₁)) (hne : p ≠ 0)
      (hcreate : s₁.createSpace p = .ok s₂) (htask : s₂.taskCreate p file = .ok (task, s₃))
      (htaskNe : task ≠ 0) (hcalls : s₃.kernel.heapCalls file.sizeCalls = .ok k)
      (hpid : proc.pid = (s₃.procs p).pid) (hdir : proc.pageDir = (s₃.procs p).pageDir) :
      ProcessSpawns s file p (((s₃.setKernel k).setProc p proc).processListInsert p)

theorem processSpawn_returns {file : Program} (h : s.processSpawn file = .ok (self, s')) :
    s.ProcessSpawns file self s' := by
  obtain ⟨⟨p, s₁⟩, halloc, h⟩ := exists_of_bind h
  dsimp only at h
  split at h
  · rename_i hzero
    obtain ⟨rfl, rfl⟩ := Prod.mk.inj (Except.ok.inj h)
    exact .noProcess s₁ (hzero ▸ halloc)
  rename_i hne
  split at h
  · rename_i hmax
    obtain ⟨rfl, rfl⟩ := Prod.mk.inj (Except.ok.inj h)
    exact .full p s₁ halloc hne hmax
  obtain ⟨s₂, hcreate, h⟩ := exists_of_bind h
  obtain ⟨⟨task, s₃⟩, htask, h⟩ := exists_of_bind h
  dsimp only at h
  split at h
  · rename_i hzero
    obtain ⟨rfl, rfl⟩ := Prod.mk.inj (Except.ok.inj h)
    exact .noTask p s₁ s₂ s₃ halloc hne hcreate (hzero ▸ htask)
  rename_i htaskNe
  obtain ⟨k, hcalls, h⟩ := exists_of_bind h
  obtain ⟨rfl, rfl⟩ := Prod.mk.inj (Except.ok.inj h)
  exact .spawned p task s₁ s₂ s₃ k _ halloc hne hcreate htask htaskNe hcalls rfl rfl

theorem processAlloc_spec {filetype : ProcessFiletype}
    (h : s.processAlloc filetype = .ok (self, s')) :
    Kernel.Grew s.kernel s'.kernel ∧ s'.users = s.users ∧
      (∀ q, self = 0 ∨ q ≠ self → s'.procs q = s.procs q) ∧
      (self ≠ 0 → (s'.procs self).taskCount = 0) := by
  cases processAlloc_returns h with
  | failed k hself =>
      exact ⟨Kernel.kzalloc_grew hself, rfl, fun _ _ => rfl, fun hne => absurd rfl hne⟩
  | allocated _ k k' proc hne hself hbuffer hpid hcount =>
      have hgrew := (Kernel.kzalloc_grew hself).trans (Kernel.kzalloc_grew hbuffer)
      refine ⟨hgrew, rfl, fun q hq => if_neg (hq.resolve_left hne), fun _ => ?_⟩
      show (if self = self then proc else _ : Process).taskCount = 0
      rw [if_pos rfl, hcount]

theorem pageMapBetween_code (k : Kernel) {dir : Nat} (h : dir ≠ 0) :
    k.pageMapBetween dir userCodeStart userBssEnd userFlags
      = Kernel.pageMapLoop dir userFlags 2 0 k := by
  rw [Kernel.pageMapBetween, if_neg h]
  rfl

theorem pageMapBetween_heap (k : Kernel) {dir : Nat} (h : dir ≠ 0) :
    k.pageMapBetween dir userHeapStart userHeapEnd userFlags
      = Kernel.pageMapLoop dir userFlags 1 userHeapStart k := by
  rw [Kernel.pageMapBetween, if_neg h]
  rfl

theorem pageMapBetween_stack (k : Kernel) {dir : Nat} (h : dir ≠ 0) :
    k.pageMapBetween dir (userStackEnd - 0 - userStackSize / processMaxThread + 1)
        (userStackEnd - 0) userFlags
      = Kernel.pageMapLoop dir userFlags 1 0xBFFC0000 k := by
  rw [Kernel.pageMapBetween, if_neg h]
  rfl

/-- The address space of a new process: a directory that copies the kernel half,
    with the code, data and heap pages in its first three entries. -/
structure CreatedSpace (k k' : Kernel) (users : List Nat) (dirOf : Nat → Nat) (l : Ledger)
    (p d : Nat) : Prop where
  ne_zero : d ≠ 0
  accounts : ∃ l', Took p l l' ∧
    Accounts k' (p :: users) (fun q => if q = p then d else dirOf q) l'
  empty : ∀ i, 3 ≤ i → i < 768 → k'.dirAt d i = 0
  heap : k'.heap = k.heap
  slot : k'.kernelDirectory = k.kernelDirectory.set (pdIndex d)
    (frameEntry (spaceFrame d) userFlags)
  upper : ∀ i, 768 ≤ i → k'.dirAt d i = Kernel.copyKernelHalf k'.kernelDirectory i
  others : ∀ q ∈ users, ∀ i, 768 ≤ i → k'.dirAt (dirOf q) i = k.dirAt (dirOf q) i

theorem createSpace_spec {l : Ledger} {users : List Nat} {dirOf : Nat → Nat}
    (h : Accounts s.kernel users dirOf l) (hbelow : s.kernel.heap.nextAddr ≤ kernelHeapMax)
    (hself : self ∉ users) (hframe : (pfaAlloc s.kernel.pfa).1 ≠ 256 * pageSize)
    (hcall : s.createSpace self = .ok s') :
    s'.users = s.users ∧ (∀ q, q ≠ self → s'.procs q = s.procs q) ∧
      (s'.procs self).taskCount = (s.procs self).taskCount ∧
      ((s'.dirOf self = 0 ∧ Kernel.SameTables s.kernel s'.kernel) ∨
        CreatedSpace s.kernel s'.kernel users dirOf l self (s'.dirOf self)) := by
  obtain ⟨⟨d, k₁⟩, hdir, hcall⟩ := exists_of_bind hcall
  obtain rfl := Except.ok.inj hcall
  have hdirOf : (setProc (s.setKernel ((k₁.pageMapBetween d userCodeStart userBssEnd
      userFlags).pageMapBetween d userHeapStart userHeapEnd userFlags)) self
      { s.procs self with pageDir := d }).dirOf self = d := by
    show (if self = self then _ else _ : Process).pageDir = d
    rw [if_pos rfl]
  refine ⟨rfl, fun q hq => if_neg hq, ?_, ?_⟩
  · show (if self = self then _ else _ : Process).taskCount = _
    rw [if_pos rfl]
  rw [hdirOf]
  rcases h.pageCreateDir hbelow hself hdir with
    ⟨rfl, rfl⟩ | ⟨f, hfree, hsf, haddr, hheap, hne, hacc, hcopy, hkd, hothers⟩
  · -- no frame for the directory, and nothing is mapped under the null pointer
    refine .inl ⟨rfl, ?_⟩
    rw [Kernel.pageMapBetween, if_pos rfl, Kernel.pageMapBetween, if_pos rfl]
    exact .rfl
  · right
    have hd : d ≠ 0 := hne fun heq => hframe (heq ▸ haddr)
    rw [pageMapBetween_heap _ hd, pageMapBetween_code _ hd]
    set dirOf' : Nat → Nat := fun q => if q = self then d else dirOf q with hdirOf'
    have hself' : dirOf' self = d := if_pos rfl
    have hempty : ∀ i, i < 768 → k₁.dirAt d i = 0 := fun i hi => by
      rw [hcopy]
      exact copyKernelHalf_of_lt _ hi
    -- two pages from 0 on, one page behind them, all in the user half
    have hzero : pdIndex 0 = 0 := rfl
    have htwo : pdIndex userHeapStart = 2 := rfl
    have hcode : pdIndex 0 + 2 ≤ 768 := by omega
    have hheap' : pdIndex userHeapStart + 1 ≤ 768 := by omega
    obtain ⟨honly₂, l₂, hacc₂, htook₂⟩ := hacc.pageMapLoop List.mem_cons_self hcode
      fun i _ hi => by
        rw [hself']
        exact hempty i (by omega)
    rw [hself'] at honly₂ hacc₂
    generalize Kernel.pageMapLoop d userFlags 2 0 k₁ = k₂ at honly₂ hacc₂ ⊢
    obtain ⟨honly₃, l₃, hacc₃, htook₃⟩ := hacc₂.pageMapLoop List.mem_cons_self hheap'
      fun i hlo hi => by
        rw [hself', honly₂.entries i (by omega)]
        exact hempty i (by omega)
    rw [hself'] at honly₃ hacc₃
    generalize Kernel.pageMapLoop d userFlags 1 userHeapStart k₂ = k₃ at honly₃ hacc₃ ⊢
    have hupper := (honly₂.upperSame (by decide)).trans (honly₃.upperSame (by decide))
    have hlt : f < maxFrames := by
      have hown := ((hacc.space self List.mem_cons_self).dir f).mpr (by rw [hself', hsf])
      exact hacc.lt (by rw [hown]; exact Owner.noConfusion)
    refine ⟨hd, ⟨l₃, ?_, hacc₃⟩, fun i hlo hhi => ?_, ?_, ?_, fun i hi => ?_, fun q hq i hi => ?_⟩
    · exact ((Took.give hfree (.inr (.inl rfl))).trans htook₂).trans htook₃
    · show k₃.dirAt d i = 0
      rw [honly₃.entries i (by omega), honly₂.entries i (by omega)]
      exact hempty i hhi
    · show k₃.heap = _
      rw [honly₃.heap, honly₂.heap, hheap]
    · show k₃.kernelDirectory = _
      have hslot := (hacc.space self List.mem_cons_self).slot
      rw [hself', hsf] at hslot
      rw [honly₃.kernelDirectory, honly₂.kernelDirectory, hkd, hsf, ← hslot]
    · show k₃.dirAt d i = Kernel.copyKernelHalf k₃.kernelDirectory i
      rw [hupper.upper d i hi, honly₃.kernelDirectory, honly₂.kernelDirectory, hcopy]
    · show k₃.dirAt (dirOf q) i = _
      rw [hupper.upper _ i hi, hothers q hq]

/-- The first task of a process: its stack is mapped, its file loaded. -/
theorem taskCreate_spec {l : Ledger} {users : List Nat} {dirOf : Nat → Nat} {file : Program}
    {task : Nat} (h : Accounts s.kernel users dirOf l) (hself : self ∈ users)
    (hdir : (s.procs self).pageDir = dirOf self) (hne : dirOf self ≠ 0)
    (hcount : (s.procs self).taskCount = 0)
    (hempty : ∀ i, 3 ≤ i → i < 768 → s.kernel.dirAt (dirOf self) i = 0)
    (hbelow : s.kernel.heap.nextAddr ≤ kernelHeapMax)
    (hcall : s.taskCreate self file = .ok (task, s')) :
    task ≠ 0 ∧ s'.users = s.users ∧ s'.procs = s.procs ∧ UpperSame s.kernel s'.kernel ∧
      ∃ l', Took self l l' ∧ Accounts s'.kernel users dirOf l' := by
  have hguard : (s.kernel.heap.nextAddr + Kernel.totalSizeWithHeader taskSize) % 2 ^ 32
      ≤ kernelHeapMax := by
    have hsize : Kernel.totalSizeWithHeader taskSize = 88 := by decide
    have haligned := h.aligned
    simp only [kernelHeapMax, pageSize] at hbelow haligned ⊢
    omega
  cases taskCreate_returns hcall with
  | full hmax =>
      rw [hcount] at hmax
      exact absurd hmax (by decide)
  | noTask k htask => exact absurd rfl (Kernel.kzalloc_ne_zero hguard htask)
  | noDir ptr k htask hnone => exact absurd (hdir.symm.trans hnone) hne
  | created _ k₁ _ htask hptr hsome hunder =>
  have hgrew := Kernel.kzalloc_grew htask
  obtain ⟨l₁, hacc₁, htook₁⟩ := h.grew hgrew self
  simp only [withStack, hdir, hcount, Nat.zero_mul] at hunder
  rw [pageMapBetween_stack _ hne] at hunder
  have hstack : pdIndex 0xBFFC0000 = 767 := rfl
  have hlow : pdIndex 0xBFFC0000 + 1 ≤ 768 := by omega
  have hempty₁ : ∀ i, pdIndex 0xBFFC0000 ≤ i → i < pdIndex 0xBFFC0000 + 1 →
      k₁.dirAt (dirOf self) i = 0 := fun i hlo hhi => by
    rw [Kernel.dirAt, hgrew.dirs_eq]
    exact hempty i (by omega) (by omega)
  obtain ⟨honly, l₂, hacc₂, htook₂⟩ := hacc₁.pageMapLoop hself hlow hempty₁
  generalize Kernel.pageMapLoop (dirOf self) userFlags 1 0xBFFC0000 k₁ = k₂ at honly hacc₂ hunder
  obtain ⟨hsame, husers, hprocs⟩ := underDir_spec hacc₂.cr3
    (fun _ _ hload => loadBinaryIntoTask_grew hload) hunder
  exact ⟨hptr, husers, hprocs,
    hgrew.upperSame.trans ((honly.upperSame hlow).trans hsame.upperSame), l₂,
    htook₁.trans htook₂, hacc₂.same hsame⟩

/-! The end of the heap moves up only, whatever the page tables hold. -/

theorem pageMapLoop_same (dir flags n virtAddr : Nat) (k : Kernel) :
    (Kernel.pageMapLoop dir flags n virtAddr k).heap = k.heap ∧
      (Kernel.pageMapLoop dir flags n virtAddr k).mem = k.mem := by
  induction n generalizing virtAddr k with
  | zero => exact ⟨rfl, rfl⟩
  | succ n ih =>
      unfold Kernel.pageMapLoop
      simp only
      split
      · exact ⟨rfl, rfl⟩
      · obtain ⟨hheap, hmem⟩ := ih (virtAddr + pageSize) _
        rw [hheap, hmem, Kernel.setDirAt_heap, Kernel.setDirAt_mem]
        exact ⟨rfl, rfl⟩

theorem pageMapBetween_same (dir virtStart virtEnd flags : Nat) (k : Kernel) :
    (k.pageMapBetween dir virtStart virtEnd flags).heap = k.heap := by
  unfold Kernel.pageMapBetween
  simp only
  split
  · rfl
  · rw [(pageMapLoop_same _ _ _ _ _).1]

theorem updateCurrentDir_heap {k k' : Kernel} {f : Dir → Dir}
    (h : k.updateCurrentDir f = .ok k') : k'.heap = k.heap := by
  unfold Kernel.updateCurrentDir at h
  split at h
  · cases h
    rfl
  · cases h

theorem pageCreateDir_heap {k k' : Kernel} {flags d : Nat}
    (h : k.pageCreateDir flags = .ok (d, k')) : k'.heap = k.heap := by
  unfold Kernel.pageCreateDir at h
  simp only at h
  split at h
  · cases h
    rfl
  split at h
  · cases h
    rfl
  split at h
  · cases h
  rename_i k₁ hupdate
  simp only [Except.ok.injEq, Prod.mk.injEq] at h
  obtain ⟨-, rfl⟩ := h
  rw [Kernel.setDirAt_heap, updateCurrentDir_heap hupdate]

theorem createSpace_heap (h : s.createSpace self = .ok s') :
    s'.kernel.heap = s.kernel.heap := by
  obtain ⟨⟨d, k⟩, hdir, h⟩ := exists_of_bind h
  cases h
  show ((k.pageMapBetween _ _ _ _).pageMapBetween _ _ _ _).heap = _
  rw [pageMapBetween_same, pageMapBetween_same, pageCreateDir_heap hdir]

theorem taskCreate_le {file : Program} {task : Nat} (h : s.taskCreate self file = .ok (task, s')) :
    s.kernel.heap.nextAddr ≤ s'.kernel.heap.nextAddr := by
  cases taskCreate_returns h with
  | full hmax => exact Nat.le_refl _
  | noTask k htask => exact (Kernel.kzalloc_grew htask).nextAddr_le
  | noDir ptr k htask hdir => exact (Kernel.kzalloc_grew htask).nextAddr_le
  | created _ k _ htask hne hdir hunder =>
      simp only [underDir] at hunder
      split at hunder
      · cases hunder
      rename_i k₂ hload
      have hgrew := (loadBinaryIntoTask_grew hload).nextAddr_le
      cases hunder
      refine Nat.le_trans (Kernel.kzalloc_grew htask).nextAddr_le
        (Nat.le_trans (Nat.le_of_eq ?_) hgrew)
      show _ = (k.pageMapBetween _ _ _ _).heap.nextAddr
      rw [pageMapBetween_same]

/-- Without a directory `task_create` fails. -/
theorem taskCreate_noDir {file : Program} {task : Nat} (hdir : (s.procs self).pageDir = 0)
    (hcount : (s.procs self).taskCount = 0) (h : s.taskCreate self file = .ok (task, s')) :
    task = 0 ∧ Kernel.Grew s.kernel s'.kernel ∧ s'.users = s.users ∧ s'.procs = s.procs := by
  cases taskCreate_returns h with
  | full hmax =>
      rw [hcount] at hmax
      exact absurd hmax (by decide)
  | noTask k htask => exact ⟨rfl, Kernel.kzalloc_grew htask, rfl, rfl⟩
  | noDir ptr k htask _ => exact ⟨rfl, Kernel.kzalloc_grew htask, rfl, rfl⟩
  | created _ k _ htask _ hsome _ => exact absurd hdir hsome

/-! The list of processes has nothing to do with the address spaces. -/

theorem dirOf_setProc {p : Nat} {proc : Process} (h : proc.pageDir = (s.procs p).pageDir) :
    (s.setProc p proc).dirOf = s.dirOf := by
  funext q
  show (if q = p then proc else s.procs q).pageDir = _
  split
  · rename_i heq
    rw [h, heq]
    rfl
  · rfl

theorem processListInsert_same (s : Machine) (p : Nat) :
    (s.processListInsert p).dirOf = s.dirOf ∧ (s.processListInsert p).kernel = s.kernel ∧
      (s.processListInsert p).users = s.users := by
  unfold processListInsert
  simp only
  split
  · exact ⟨dirOf_setProc rfl, rfl, rfl⟩
  · have hnew : (s.setProc p { s.procs p with prev := 0, next := s.processes }).dirOf = s.dirOf :=
      dirOf_setProc rfl
    split
    · refine ⟨?_, rfl, rfl⟩
      rw [← hnew]
      exact dirOf_setProc rfl
    · exact ⟨hnew, rfl, rfl⟩

theorem processListRemove_same (s : Machine) (p : Nat) :
    (s.processListRemove p).dirOf = s.dirOf ∧ (s.processListRemove p).kernel = s.kernel ∧
      (s.processListRemove p).users = s.users := by
  unfold processListRemove
  simp only
  set s₁ := if (s.procs p).prev ≠ 0 then
    s.setProc (s.procs p).prev { s.procs (s.procs p).prev with next := (s.procs p).next } else s
    with hs₁
  have h₁ : s₁.dirOf = s.dirOf ∧ s₁.kernel = s.kernel ∧ s₁.users = s.users := by
    rw [hs₁]
    split
    · exact ⟨dirOf_setProc rfl, rfl, rfl⟩
    · exact ⟨rfl, rfl, rfl⟩
  set s₂ := if (s.procs p).next ≠ 0 then
    s₁.setProc (s.procs p).next { s₁.procs (s.procs p).next with prev := (s.procs p).prev } else s₁
    with hs₂
  have h₂ : s₂.dirOf = s.dirOf ∧ s₂.kernel = s.kernel ∧ s₂.users = s.users := by
    rw [hs₂]
    split
    · refine ⟨?_, h₁.2.1, h₁.2.2⟩
      rw [← h₁.1]
      exact dirOf_setProc rfl
    · exact h₁
  split <;> split <;> exact h₂

/-- How a spawn ends: without a process, when memory ran out before there was an
    address space, or with a new one. -/
inductive Spawned (s : Machine) (l : Ledger) (self : Nat) (s' : Machine) : Prop
  | failed (hself : self = 0) (hgrew : Kernel.Grew s.kernel s'.kernel)
  | created (s₁ : Machine) (k₂ : Kernel) (l₁ l' : Ledger) (hne : self ≠ 0) (hnew : self ∉ s.users)
      (halloc : s.processAlloc .binary = .ok (self, s₁)) (hgrew : Kernel.Grew s.kernel s₁.kernel)
      (haccounts₁ : Accounts s₁.kernel s.users s.dirOf l₁)
      (hspace : CreatedSpace s₁.kernel k₂ s.users s.dirOf l₁ self (s'.dirOf self))
      (hupper : UpperSame k₂ s'.kernel) (htook : Took self l l')
      (haccounts : Accounts s'.kernel (self :: s.users) s'.dirOf l')

/-- The process gets an address space and a task in it, or, for want of memory, no task. -/
theorem spawnTask_spec {l : Ledger} {users : List Nat} {dirOf : Nat → Nat} {file : Program}
    {p task : Nat} {s₁ s₂ s₃ : Machine} (h : Accounts s₁.kernel users dirOf l) (hnew : p ∉ users)
    (hframe : (pfaAlloc s₁.kernel.pfa).1 ≠ 256 * pageSize) (hcount : (s₁.procs p).taskCount = 0)
    (hcreate : s₁.createSpace p = .ok s₂) (htask : s₂.taskCreate p file = .ok (task, s₃))
    (hbelow : s₃.kernel.heap.nextAddr ≤ kernelHeapMax) :
    s₃.users = s₁.users ∧ (∀ q, q ≠ p → s₃.procs q = s₁.procs q) ∧
      (task = 0 ∧ Kernel.Grew s₁.kernel s₃.kernel ∨
        task ≠ 0 ∧ CreatedSpace s₁.kernel s₂.kernel users dirOf l p (s₃.dirOf p) ∧
          UpperSame s₂.kernel s₃.kernel ∧ ∃ l', Took p l l' ∧
            Accounts s₃.kernel (p :: users) (fun q => if q = p then s₃.dirOf p else dirOf q) l') := by
  -- the heap is still in its window where the space is created
  have hbelow₂ : s₂.kernel.heap.nextAddr ≤ kernelHeapMax := Nat.le_trans (taskCreate_le htask) hbelow
  have hbelow₁ : s₁.kernel.heap.nextAddr ≤ kernelHeapMax := createSpace_heap hcreate ▸ hbelow₂
  obtain ⟨husers₂, hprocs₂, hcount₂, ⟨hdir, hsame⟩ | hspace⟩ :=
    createSpace_spec h hbelow₁ hnew hframe hcreate
  · obtain ⟨rfl, hgrew, husers₃, hprocs₃⟩ := taskCreate_noDir hdir (hcount₂.trans hcount) htask
    refine ⟨husers₃.trans husers₂, fun q hq => ?_, .inl ⟨rfl, hsame.grew.trans hgrew⟩⟩
    rw [hprocs₃, hprocs₂ q hq]
  · obtain ⟨l₂, htook₂, hacc₂⟩ := hspace.accounts
    generalize hdirOf : (fun q => if q = p then s₂.dirOf p else dirOf q) = dirOf' at hacc₂
    have hself : dirOf' p = s₂.dirOf p := by
      rw [← hdirOf]
      exact if_pos rfl
    obtain ⟨htaskNe, husers₃, hprocs₃, hupper, l₃, htook₃, hacc₃⟩ := taskCreate_spec hacc₂
      List.mem_cons_self hself.symm (by rw [hself]; exact hspace.ne_zero) (hcount₂.trans hcount)
      (by rw [hself]; exact hspace.empty) hbelow₂ htask
    have hdir : s₃.dirOf p = s₂.dirOf p := by
      rw [Machine.dirOf, hprocs₃]
      rfl
    refine ⟨husers₃.trans husers₂, fun q hq => ?_, .inr ⟨htaskNe, ?_, hupper, l₃, ?_, ?_⟩⟩
    · rw [hprocs₃, hprocs₂ q hq]
    · rw [hdir]
      exact hspace
    · exact htook₂.trans htook₃
    · rw [hdir, hdirOf]
      exact hacc₃

theorem processSpawn_spec {l : Ledger} {file : Program}
    (h : Accounts s.kernel s.users s.dirOf l) (hfresh : s.reusesLive = false)
    (hframe : ∀ p s₁, s.processAlloc .binary = .ok (p, s₁) →
      (pfaAlloc s₁.kernel.pfa).1 ≠ 256 * pageSize)
    (hbelow : s'.kernel.heap.nextAddr ≤ kernelHeapMax)
    (hcall : s.processSpawn file = .ok (self, s')) :
    s'.users = s.users ∧ (∀ q ∈ s.users, s'.dirOf q = s.dirOf q) ∧ s.Spawned l self s' := by
  -- the process is new, and whoever was there keeps its directory
  have hstart : ∀ {p s₁}, s.processAlloc .binary = .ok (p, s₁) →
      p ∉ s.users ∧ ∀ q ∈ s.users, s₁.procs q = s.procs q := by
    intro p s₁ halloc
    have hnew : p ∉ s.users := by
      unfold reusesLive at hfresh
      rw [halloc] at hfresh
      exact fun hp => Bool.false_ne_true (hfresh.symm.trans (List.contains_iff_mem.mpr hp))
    obtain ⟨-, -, hprocs, -⟩ := processAlloc_spec halloc
    exact ⟨hnew, fun q hq => hprocs q (.inr fun heq => hnew (heq ▸ hq))⟩
  cases processSpawn_returns hcall with
  | noProcess _ halloc =>
      obtain ⟨hgrew, husers, -, -⟩ := processAlloc_spec halloc
      exact ⟨husers, fun q hq => congrArg Process.pageDir ((hstart halloc).2 q hq),
        .failed rfl hgrew⟩
  | full p s₁ halloc hne hmax =>
      obtain ⟨-, -, -, hcount⟩ := processAlloc_spec halloc
      rw [hcount hne] at hmax
      exact absurd hmax (by decide)
  | noTask p s₁ s₂ s₃ halloc hne hcreate htask =>
      obtain ⟨hgrew, husers, -, hcount⟩ := processAlloc_spec halloc
      obtain ⟨hnew, hold⟩ := hstart halloc
      have hfree := (Kernel.kfree_sameTables s₃.kernel p).grew
      obtain ⟨l₁, hacc₁, -⟩ := h.grew hgrew p
      obtain ⟨husers₃, hprocs₃, ⟨-, hgrew₃⟩ | ⟨hsome, -⟩⟩ := spawnTask_spec hacc₁ hnew
        (hframe p s₁ halloc) (hcount hne) hcreate htask (Nat.le_trans hfree.nextAddr_le hbelow)
      · refine ⟨husers₃.trans husers, fun q hq => ?_,
          .failed rfl (hgrew.trans (hgrew₃.trans hfree))⟩
        show (s₃.procs q).pageDir = (s.procs q).pageDir
        rw [hprocs₃ q fun heq => hnew (heq ▸ hq), hold q hq]
      · exact absurd rfl hsome
  | spawned _ task s₁ s₂ s₃ k proc halloc hne hcreate htask htaskNe hcalls hpid hdir =>
      obtain ⟨hgrew, husers, -, hcount⟩ := processAlloc_spec halloc
      obtain ⟨hnew, hold⟩ := hstart halloc
      have hgrew₄ := Kernel.heapCalls_grew hcalls
      -- the list of processes has nothing to do with kernel and directories
      obtain ⟨hdirOf, hkernel, husers₄⟩ :=
        processListInsert_same ((s₃.setKernel k).setProc self proc) self
      have hdirs := hdirOf.trans (dirOf_setProc (s := s₃.setKernel k) hdir)
      rw [hkernel] at hbelow
      obtain ⟨l₁, hacc₁, htook₁⟩ := h.grew hgrew self
      obtain ⟨husers₃, hprocs₃, ⟨hnone, -⟩ | ⟨-, hspace, hupper, l₃, htook₃, hacc₃⟩⟩ :=
        spawnTask_spec hacc₁ hnew (hframe self s₁ halloc) (hcount hne) hcreate htask
          (Nat.le_trans hgrew₄.nextAddr_le hbelow)
      · exact absurd hnone htaskNe
      obtain ⟨l₄, hacc₄, htook₄⟩ := hacc₃.grew hgrew₄ self
      have hothers : ∀ q ∈ s.users, s₃.dirOf q = s.dirOf q := by
        intro q hq
        show (s₃.procs q).pageDir = (s.procs q).pageDir
        rw [hprocs₃ q fun heq => hnew (heq ▸ hq), hold q hq]
      have hsame : (s₃.setKernel k).dirOf = s₃.dirOf := rfl
      rw [hsame] at hdirs
      refine ⟨husers₄.trans (husers₃.trans husers), fun q hq => ?_,
        .created s₁ s₂.kernel l₁ l₄ hne hnew halloc hgrew hacc₁ ?_ ?_ ?_ ?_⟩
      · rw [hdirs, hothers q hq]
      · rw [hdirs]
        exact hspace
      · rw [hkernel]
        exact hupper.trans hgrew₄.upperSame
      · exact (htook₁.trans htook₃).trans htook₄
      · rw [hkernel]
        refine hacc₄.congr_dirOf fun q hq => ?_
        rw [hdirs]
        split
        · rename_i heq
          rw [heq]
        · rename_i hqp
          exact hothers q ((List.mem_cons.mp hq).resolve_left hqp)

end Machine

end Icarius
