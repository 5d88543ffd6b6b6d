/-
  Icarius.Process.Lifetime

  What a process takes from the kernel heap and from the descriptor table between
  `process_spawn` and the exit of its only task, and what is given back.

  The address space is made of frames, not of heap objects, and is left out here.
-/

import Icarius.Fs.OpenFiles

namespace Icarius

open Icarius.Lib

/-! ## Spawn and exit -/

/-- `process_t`, as far as it names heap objects: its pointer, `keyboard_buffer` and
    `tasks` -/
structure HeapProcess where
  self : Nat
  filename : List UInt8
  keyboardBuffer : Nat
  tasks : List Nat
  size : Nat

/-- `PROCESS_MAX_FILENAME` -/
def processMaxFilename : Nat := 128

/-- `"r"` -/
def modeR : List UInt8 := [114]

namespace Files

/-- `_load_binary_into_task` -/
def loadBinaryIntoTask (fs : Option Fat16Header) (fuel : Nat) (self : Files)
    (file : List UInt8) : Except OpenFault Files := do
  let (fd, self) ← self.vfsFopen fs fuel file modeR
  let (_, stSize) ← self.vfsFstat fs fuel fd.toInt
  let (buf, heap) := self.heap.alloc
  let (bytesRead, self) ← { self with heap := heap }.vfsFread fs stSize fd.toInt
  -- `memcpy` takes an error for a size
  if userHeapEnd + 1 < userCodeStart + bytesRead.toNat then .error .pageFault
  else .ok { self with heap := self.heap.free buf }

/-- `_process_get_filesize` -/
def processGetFilesize (fs : Option Fat16Header) (fuel : Nat) (self : Files)
    (filename : List UInt8) : Except OpenFault (Nat × Files) := do
  let (fd, self) ← self.vfsFopen fs fuel filename modeR
  if IsError fd then .ok (0, self)
  else
    let (res, stSize) ← self.vfsFstat fs fuel fd.toInt
    if IsError res then .ok (0, (self.vfsFclose fd.toInt).2)
    else .ok (stSize, (self.vfsFclose fd.toInt).2)

/-- `task_create`, on a process that has no task yet -/
def taskCreate (fs : Option Fat16Header) (fuel : Nat) (self : Files) (file : List UInt8) :
    Except OpenFault (Nat × Files) := do
  let (task, heap) := self.heap.alloc
  let self ← { self with heap := heap }.loadBinaryIntoTask fs fuel file
  .ok (task, self)

/-- `process_spawn` -/
def processSpawn (fs : Option Fat16Header) (fuel : Nat) (self : Files) (filepath : List UInt8) :
    Except OpenFault (HeapProcess × Files) := do
  let (proc, heap) := self.heap.alloc
  let (keyboardBuffer, heap) := heap.alloc
  let filename := filepath.take (processMaxFilename - 1)
  let (task, self) ← { self with heap := heap }.taskCreate fs fuel filename
  let (size, self) ← self.processGetFilesize fs fuel filename
  .ok (⟨proc, filename, keyboardBuffer, [task], size⟩, self)

/-- `task_exit`: the task is taken out of its process, and not freed. -/
def taskExit (proc : HeapProcess) (task : Nat) : HeapProcess :=
  { proc with tasks := proc.tasks.erase task }

/-- `process_exit` -/
def processExit (self : Files) (proc : HeapProcess) : Files :=
  { self with heap := (self.heap.free proc.keyboardBuffer).free proc.self }

/-- `_sys_exit` of a task, up to the respawn of the shell -/
def sysExit (self : Files) (proc : HeapProcess) (task : Nat) : Files :=
  let proc := taskExit proc task
  if proc.tasks.length = 0 then self.processExit proc else self

/-! ## Balance -/

/-- The descriptors that are open -/
def opened (s : Files) : Set Nat := {i | ∃ d, s.fdescriptors i = some d ∧ d.freed = false}

/-- The exit of the only task leaves the live allocations as they were before the spawn,
    and the open descriptors. -/
def Balanced (s : Files) (proc : HeapProcess) (s' : Files) : Prop :=
  ∀ task, proc.tasks = [task] →
    (sysExit s' proc task).heap.live = s.heap.live ∧ (sysExit s' proc task).opened = s.opened

/-! ## What is left behind -/

/-- The table keeps its descriptors. -/
def KeepsFds (s s' : Files) : Prop :=
  ∀ i d, s.fdescriptors i = some d → s'.fdescriptors i = some d

/-- The number of a descriptor that is in a slot -/
theorem toInt_slot {slot : Nat} (h : slot < fdSlots) :
    (BitVec.ofNat 32 (slot + 1)).toInt = slot + 1 := by
  have hslots : fdSlots = 512 := rfl
  rw [BitVec.toInt_eq_toNat_of_lt]
  · rw [BitVec.toNat_ofNat, Nat.mod_eq_of_lt (by omega)]
    rfl
  · rw [BitVec.toNat_ofNat, Nat.mod_eq_of_lt (by omega)]
    omega

/-- The loader comes back with a descriptor that it has opened and not closed. -/
theorem loadBinaryIntoTask_ok {fs : Option Fat16Header} {fuel : Nat} {s s' : Files}
    {file : List UInt8} (h : s.loadBinaryIntoTask fs fuel file = .ok s') :
    (∃ t, s.heap.Adds t s'.heap) ∧
      ∃ slot d, s.fdescriptors slot = none ∧ s'.fdescriptors slot = some d ∧ d.freed = false := by
  obtain ⟨⟨fd, s₁⟩, hopen, h⟩ := exists_of_bind h
  obtain ⟨t, hadds, hslot⟩ := vfsFopen_ok hopen
  obtain ⟨stat, -, h⟩ := exists_of_bind h
  obtain ⟨⟨bytesRead, s₂⟩, hread, h⟩ := exists_of_bind h
  obtain ⟨hheap, hmiss, hkeeps⟩ := vfsFread_ok hread
  dsimp only at h
  split at h
  · cases h
  rename_i hcopied
  have hsize : ¬ userHeapEnd + 1 < userCodeStart + bytesRead.toNat := hcopied
  obtain rfl := Except.ok.inj h
  refine ⟨?_, ?_⟩
  · -- the buffer of the program is freed again
    have hbuf := (hadds.trans s₁.heap.adds_alloc).frees [s₁.heap.alloc.1] (by
      intro p hp
      rw [List.mem_singleton.mp hp]
      exact Finset.mem_union_right _ (Finset.mem_singleton_self _))
    have hfreed : s₁.heap.alloc.2.frees [s₁.heap.alloc.1] = s₂.heap.free s₁.heap.alloc.1 := by
      rw [hheap]
      rfl
    rw [hfreed] at hbuf
    exact ⟨_, hbuf⟩
  · -- the read of the program was no error, so the open was none
    have hfd : s₁.getFd fd.toInt ≠ none := by
      intro hnone
      have hneg := hmiss hnone
      have hbig : 2 ^ 31 ≤ bytesRead.toNat := by
        rw [IsError, BitVec.toInt_neg_iff] at hneg
        omega
      have hroom : userHeapEnd + 1 < 2 ^ 31 := by decide
      omega
    rcases hslot with ⟨herr, -⟩ | ⟨slot, d, hlt, hnone, -, hfresh, -, hfds⟩
    · apply absurd _ hfd
      have hneg : fd.toInt ≤ 0 := Int.le_of_lt herr
      exact if_pos (.inl hneg)
    · have hthere : s₁.fdescriptors slot = some d := by
        rw [hfds]
        exact if_pos rfl
      obtain ⟨d', hd', hsame⟩ := hkeeps slot d hthere
      exact ⟨slot, d', hnone, hd', hsame.trans hfresh⟩

/-- The size of the file is looked up through a descriptor of its own. -/
theorem processGetFilesize_ok {fs : Option Fat16Header} {fuel : Nat} {s s' : Files}
    {filename : List UInt8} {size : Nat}
    (h : s.processGetFilesize fs fuel filename = .ok (size, s')) :
    (∃ t, s.heap.Adds t s'.heap) ∧ KeepsFds s s' := by
  obtain ⟨⟨fd, s₁⟩, hopen, h⟩ := exists_of_bind h
  obtain ⟨t, hadds, hslot⟩ := vfsFopen_ok hopen
  dsimp only at h
  -- an open that failed has no descriptor to be closed
  rcases hslot with ⟨herr, hfds⟩ | ⟨slot, d, hlt, hnone, rfl, -, hptrs, hfds⟩
  · rw [if_pos herr] at h
    obtain ⟨-, rfl⟩ := Prod.mk.inj (Except.ok.inj h)
    refine ⟨⟨t, hadds⟩, fun i d hd => ?_⟩
    rw [hfds]
    exact hd
  · rw [if_neg (not_isError_slot hlt)] at h
    have hclosed := vfsFclose_adds (BitVec.ofNat 32 (slot + 1)).toInt hadds (by
      intro slot' d' hget p hp
      obtain ⟨hslot', -, hd'⟩ := getFd_eq_some hget
      rw [toInt_slot hlt] at hslot'
      obtain rfl : slot' = slot := by omega
      rw [hfds] at hd'
      have hsame : some d = some d' := (if_pos rfl).symm.trans hd'
      obtain rfl := Option.some.inj hsame
      exact hptrs p hp)
    have hkept : KeepsFds s (s₁.vfsFclose (BitVec.ofNat 32 (slot + 1)).toInt).2 := by
      intro i d' hd'
      have hi : i ≠ slot := by
        rintro rfl
        rw [hnone] at hd'
        cases hd'
      rw [hclosed.2 i, hfds]
      · exact (if_neg hi).trans hd'
      · rw [toInt_slot hlt]
        omega
    obtain ⟨⟨res, stSize⟩, -, h⟩ := exists_of_bind h
    dsimp only at h
    split at h
    · obtain ⟨-, rfl⟩ := Prod.mk.inj (Except.ok.inj h)
      exact ⟨hclosed.1, hkept⟩
    · obtain ⟨-, rfl⟩ := Prod.mk.inj (Except.ok.inj h)
      exact ⟨hclosed.1, hkept⟩

/-- What a spawn comes back with: a task that was not live before, and a descriptor that
    was not open. -/
theorem processSpawn_ok {fs : Option Fat16Header} {fuel : Nat} {s s' : Files}
    {filepath : List UInt8} {proc : HeapProcess}
    (h : s.processSpawn fs fuel filepath = .ok (proc, s')) :
    ∃ task, proc.tasks = [task] ∧ task ∉ s.heap.live ∧ task ∈ s'.heap.live ∧
      task ≠ proc.self ∧ task ≠ proc.keyboardBuffer ∧
      ∃ slot, s.fdescriptors slot = none ∧ slot ∈ s'.opened := by
  obtain ⟨⟨task, s₁⟩, hcreate, h⟩ := exists_of_bind h
  obtain ⟨s₁', hload, hcreate⟩ := exists_of_bind hcreate
  obtain ⟨rfl, rfl⟩ := Prod.mk.inj (Except.ok.inj hcreate)
  obtain ⟨⟨t₁, hadds₁⟩, slot, d, hnone, hd, hfresh⟩ := loadBinaryIntoTask_ok hload
  obtain ⟨⟨size, s₂⟩, hsize, h⟩ := exists_of_bind h
  obtain ⟨⟨t₂, hadds₂⟩, hkeeps⟩ := processGetFilesize_ok hsize
  obtain ⟨rfl, rfl⟩ := Prod.mk.inj (Except.ok.inj h)
  refine ⟨s.heap.next + 2, rfl, ?_, ?_, ?_, ?_, slot, hnone, d, hkeeps slot d hd, hfresh⟩
  · intro hlive
    have hlt := s.heap.lt_next _ hlive
    omega
  · rw [(hadds₁.trans hadds₂).live]
    exact Finset.mem_union_left _ (Finset.mem_insert_self _ _)
  · show s.heap.next + 2 ≠ s.heap.next
    omega
  · show s.heap.next + 2 ≠ s.heap.next + 1
    omega

/-- What is still there when the only task has exited -/
theorem sysExit_leaves {fs : Option Fat16Header} {fuel : Nat} {s s' : Files}
    {filepath : List UInt8} {proc : HeapProcess}
    (h : s.processSpawn fs fuel filepath = .ok (proc, s')) :
    ∃ task, proc.tasks = [task] ∧ task ∉ s.heap.live ∧
      task ∈ (sysExit s' proc task).heap.live ∧
      ∃ slot, s.fdescriptors slot = none ∧ slot ∈ (sysExit s' proc task).opened := by
  obtain ⟨task, htasks, hnew, hlive, hself, hbuffer, slot, hnone, hopened⟩ := processSpawn_ok h
  have hexit : sysExit s' proc task = s'.processExit { proc with tasks := [] } := by
    simp only [sysExit, taskExit, htasks, List.erase_cons_head, List.length_nil, if_true]
  refine ⟨task, htasks, hnew, ?_, slot, hnone, ?_⟩
  · rw [hexit]
    exact Finset.mem_erase.mpr ⟨hself, Finset.mem_erase.mpr ⟨hbuffer, hlive⟩⟩
  · rw [hexit]
    exact hopened

/-- No process is balanced: its task stays allocated, and the descriptor its program was
    read through stays open. -/
theorem unbalanced {fs : Option Fat16Header} {fuel : Nat} {s s' : Files}
    {filepath : List UInt8} {proc : HeapProcess}
    (h : s.processSpawn fs fuel filepath = .ok (proc, s')) :
    ∃ task, proc.tasks = [task] ∧ (sysExit s' proc task).heap.live ≠ s.heap.live ∧
      (sysExit s' proc task).opened ≠ s.opened := by
  obtain ⟨task, htasks, hnew, hlive, slot, hnone, hopened⟩ := sysExit_leaves h
  refine ⟨task, htasks, ?_, ?_⟩
  · intro hsame
    rw [hsame] at hlive
    exact hnew hlive
  · intro hsame
    rw [hsame] at hopened
    obtain ⟨d, hd, -⟩ := hopened
    rw [hnone] at hd
    cases hd

/-- A volume with a program of one byte, `A:/P` -/
def programDisk : Mem :=
  let header := [0xEB, 0x3C, 0x90] ++ List.replicate 8 0 ++
    [0, 2, 1, 1, 0, 2, 16, 0, 0x17, 0x10, 0xF8, 16, 0]
  let disk := Mem.write (fun _ => 0) partitionOffset header
  let disk := disk.write 0x100204 [0xFF, 0xFF]
  disk.write 0x104200 (80 :: List.replicate 10 32 ++ [attrArchive] ++ List.replicate 14 0 ++
    [2, 0, 1, 0, 0, 0])

/-- A machine with this volume, before the first open -/
def programFiles : Files := ⟨⟨programDisk, fun _ => 0⟩, .empty, fun _ => none⟩

/-- `"A:/P"` -/
def programPath : List UInt8 := [65, 58, 47, 80]

/-- The spawn of `A:/P` -/
def programRun : Except OpenFault (HeapProcess × Files) :=
  programFiles.processSpawn (fat16Resolve programFiles.dev) 2 programPath

/-- The spawn of `A:/P` comes back. -/
theorem programRun_isOk : programRun.toOption.isSome = true := by
  decide +kernel

theorem programRun_eq : ∃ proc s', programFiles.processSpawn (fat16Resolve programFiles.dev) 2
    programPath = .ok (proc, s') := by
  have hsome := programRun_isOk
  cases hrun : programRun with
  | error fault =>
      rw [hrun] at hsome
      cases hsome
  | ok r => exact ⟨r.1, r.2, hrun⟩

theorem unbalanced_program : ∃ proc s' task,
    programFiles.processSpawn (fat16Resolve programFiles.dev) 2 programPath = .ok (proc, s') ∧
      proc.tasks = [task] ∧ (sysExit s' proc task).heap.live ≠ programFiles.heap.live ∧
      (sysExit s' proc task).opened ≠ programFiles.opened := by
  obtain ⟨proc, s', hrun⟩ := programRun_eq
  obtain ⟨task, hleft⟩ := unbalanced hrun
  exact ⟨proc, s', task, hrun, hleft⟩

/-- `A:/P` leaves its task behind. -/
theorem exists_unbalanced : ¬ ∀ (fs : Option Fat16Header) (fuel : Nat) (s : Files)
    (filepath : List UInt8) (proc : HeapProcess) (s' : Files),
    s.processSpawn fs fuel filepath = .ok (proc, s') → Balanced s proc s' := by
  intro hall
  obtain ⟨proc, s', hrun⟩ := programRun_eq
  obtain ⟨task, htasks, hnew, hlive, -⟩ := sysExit_leaves hrun
  rw [(hall _ _ _ _ proc s' hrun task htasks).1] at hlive
  exact hnew hlive

end Files

end Icarius
