/-
  Icarius.Process.Model

  User processes and their address spaces: `process_spawn` and `process_exit`
  (`process/process.c`), `task_create` with its loader (`process/task.c`), and
  the kernel directory at boot (`boot/loader.asm`).

  A process or a task is a heap object: its pointer is the address `kzalloc`
  gave, the object itself is the value of `procs` or `tasks` there.  That two
  live objects have different addresses is what the heap guarantees; a run in
  which a corrupted heap hands out a live process again is not followed.

  The file system is outside of this part.  What it does for the loader is data
  of the event: the calls of the heap it makes, the size it reports and the
  number of bytes it reads.  Names, saved registers and command-line arguments
  play no part here.

  The loader runs under the new directory, which is a copy of the kernel half as
  it was when the process was created.  A heap page mapped after that is missing
  in the copy: where the kernel directory has the new frame, the copy still has
  the frame of the boot mapping.  `stale` holds the bytes of these frames.
-/

import Icarius.Memory.Heap
import Icarius.Lib.Run

namespace Icarius

open Icarius.Lib

/-! ## Objects -/

/-- `process_filetype_t` -/
inductive ProcessFiletype
  | elf
  | binary
  | kernelThread
  deriving DecidableEq, Repr

/-- `process_t` -/
structure Process where
  pid : UInt16
  tasks : Nat → Nat
  pageDir : Nat
  taskCount : Nat
  filetype : ProcessFiletype
  size : Nat
  keyboardBuffer : Nat
  prev : Nat
  next : Nat

/-- `task_t`, the fields set when it is created. -/
structure Task where
  stackTop : Nat
  stackBottom : Nat
  parent : Nat

/-- `sizeof(process_t)` -/
def processSize : Nat := 236

/-- `sizeof(task_t)` -/
def taskSize : Nat := 68

/-- `sizeof(fifo_t)` -/
def fifoSize : Nat := 131

/-- A call of the heap, or a store into the kernel's memory. -/
inductive HeapCall
  | kmalloc (size : Nat)
  | kfree (ptr : Nat)
  | store (addr : Nat) (byte : UInt8)

/-- What the file system does for the loader. -/
structure Program where
  /-- Heap calls of `vfs_fopen` and `vfs_fstat`. -/
  openCalls : List HeapCall
  /-- `st_size` -/
  stSize : Nat
  /-- Heap calls of `vfs_fread`, and the bytes it stores. -/
  readCalls : List HeapCall
  /-- The result of `vfs_fread`. -/
  bytesRead : Nat
  /-- Heap calls of `_process_get_filesize`. -/
  sizeCalls : List HeapCall

/-- The kernel and its processes. -/
structure Machine where
  kernel : Kernel
  /-- The bytes of the frames of the boot mapping, where the kernel directory
      maps another frame by now. -/
  stale : Mem
  procs : Nat → Process
  tasks : Nat → Task
  processes : Nat
  currProcess : Nat
  nextPid : UInt16
  /-- The user processes that were spawned and have not exited. -/
  users : List Nat

/-! ## Heap calls -/

namespace Kernel

/-- One call of the heap, its result dropped. -/
def heapCall (s : Kernel) : HeapCall → Except Stop Kernel
  | .kmalloc size =>
      match s.kmalloc size with
      | .error e => .error e
      | .ok (_, s) => .ok s
  | .kfree ptr => .ok (s.kfree ptr)
  | .store addr byte => .ok (s.setMem fun x => if x = addr then byte else s.mem x)

/-- Calls of the heap in a row. -/
def heapCalls (s : Kernel) : List HeapCall → Except Stop Kernel
  | [] => .ok s
  | c :: cs =>
      match s.heapCall c with
      | .error e => .error e
      | .ok s => s.heapCalls cs

end Kernel

namespace Machine

/-- Replace the kernel. -/
def setKernel (s : Machine) (k : Kernel) : Machine := { s with kernel := k }

/-- Overwrite a process. -/
def setProc (s : Machine) (p : Nat) (proc : Process) : Machine :=
  { s with procs := fun q => if q = p then proc else s.procs q }

/-- The directory of a process. -/
def procDir (s : Machine) (p : Nat) : Dir := s.kernel.dirAt (s.procs p).pageDir

/-! ## task.c -/

/-- Under the directory `dir` the address `a` leads to the frame it leads to under
    the kernel directory. -/
def sees (s : Machine) (dir : Dir) (a : Nat) : Prop :=
  let i := pdIndex (a % 2 ^ 32)
  i < 768 ∨ (entryPresent (s.kernel.kernelDirectory i) = true →
    entryFrame (dir i) = entryFrame (s.kernel.kernelDirectory i))

instance (s : Machine) (dir : Dir) (a : Nat) : Decidable (s.sees dir a) := by
  unfold sees
  infer_instance

/-- Run kernel code under the directory at `ptr`, from `task_restore_dir` to
    `page_restore_kernel_dir`. -/
def underDir (s : Machine) (ptr : Nat) (code : Kernel → Except Stop Kernel) :
    Except Stop Machine :=
  let dir := s.kernel.dirAt ptr
  let seen := fun a => if s.sees dir a then s.kernel.mem a else s.stale a
  match code { s.kernel with mem := seen, cr3 := some (v2p ptr / pageSize) } with
  | .error e => .error e
  | .ok k =>
      .ok { s with
        kernel := (k.setMem fun a => if s.sees dir a then k.mem a else s.kernel.mem a)
          |>.pageRestoreKernelDir
        stale := fun a => if s.sees dir a then s.stale a else k.mem a }

/-- The pages of `memcpy(USER_CODE_START, buf, bytes_read)` are mapped. -/
def codeMapped (dir : Dir) (bytesRead : Nat) : Bool :=
  (List.range ((bytesRead + (pageSize - 1)) / pageSize)).all fun i =>
    entryPresent (dir (pdIndex userCodeStart + i))

/-- `_load_binary_into_task` under the directory `dir` -/
def loadBinaryIntoTask (dir : Dir) (file : Program) (k : Kernel) : Except Stop Kernel := do
  let k ← k.heapCalls file.openCalls
  let (buf, k) ← k.kzalloc file.stSize
  let k ← k.heapCalls file.readCalls
  if codeMapped dir file.bytesRead then .ok (k.kfree buf) else .error .pageFault

/-- `task_create`; the pointer is 0 when it fails. -/
def taskCreate (s : Machine) (parent : Nat) (file : Program) : Except Stop (Nat × Machine) := do
  if (s.procs parent).taskCount ≥ processMaxThread then .ok (0, s)
  else
    let (task, k) ← s.kernel.kzalloc taskSize
    let s := s.setKernel k
    if task = 0 then .ok (0, s)
    else if (s.procs parent).pageDir = 0 then .ok (0, s)
    else
      let dir := (s.procs parent).pageDir
      let offset := (s.procs parent).taskCount * (userStackSize / processMaxThread)
      let stackTop := userStackEnd - offset
      let stackBottom := stackTop - userStackSize / processMaxThread + 1
      let s := { s with
        tasks := fun t => if t = task then ⟨stackTop, stackBottom, parent⟩ else s.tasks t }
      let s := s.setKernel (s.kernel.pageMapBetween dir stackBottom stackTop userFlags)
      let s ← s.underDir dir (loadBinaryIntoTask (s.kernel.dirAt dir) file)
      .ok (task, s)

/-! ## process.c -/

/-- `_process_alloc`; the pointer is 0 when it fails. -/
def processAlloc (s : Machine) (filetype : ProcessFiletype) : Except Stop (Nat × Machine) := do
  let (self, k) ← s.kernel.kzalloc processSize
  if self = 0 then .ok (0, s.setKernel k)
  else
    let (keyboardBuffer, k) ← k.kzalloc fifoSize
    let s := (s.setKernel k).setProc self
      { pid := s.nextPid
        tasks := fun _ => 0
        pageDir := 0
        taskCount := 0
        filetype := filetype
        size := 0
        keyboardBuffer := keyboardBuffer
        prev := 0
        next := 0 }
    .ok (self, { s with nextPid := s.nextPid + 1 })

/-- `_process_list_insert` -/
def processListInsert (s : Machine) (newProcess : Nat) : Machine :=
  let s :=
    if s.currProcess = 0 then
      let s := s.setProc newProcess { s.procs newProcess with prev := 0, next := 0 }
      { s with currProcess := newProcess }
    else
      let s := s.setProc newProcess { s.procs newProcess with prev := 0, next := s.processes }
      if s.processes ≠ 0 then
        s.setProc s.processes { s.procs s.processes with prev := newProcess }
      else s
  { s with processes := newProcess }

/-- The address space `process_spawn` gives a process: a directory, and behind its
    code, data and heap pages. -/
def createSpace (s : Machine) (self : Nat) : Except Stop Machine := do
  let (dir, k) ← s.kernel.pageCreateDir userFlags
  let k := k.pageMapBetween dir userCodeStart userBssEnd userFlags
  let k := k.pageMapBetween dir userHeapStart userHeapEnd userFlags
  .ok ((s.setKernel k).setProc self { s.procs self with pageDir := dir })

/-- `process_spawn`; the pointer is 0 when it fails. -/
def processSpawn (s : Machine) (file : Program) : Except Stop (Nat × Machine) := do
  let (self, s) ← s.processAlloc .binary
  if self = 0 then .ok (0, s)
  else if (s.procs self).taskCount ≥ processMaxThread then
    .ok (0, s.setKernel (s.kernel.kfree self))
  else
    let s ← s.createSpace self
    let (task, s) ← s.taskCreate self file
    if task = 0 then .ok (0, s.setKernel (s.kernel.kfree self))
    else
      let k ← s.kernel.heapCalls file.sizeCalls
      let proc := s.procs self
      let s := (s.setKernel k).setProc self
        { proc with
          size := file.stSize
          tasks := fun i => if i = proc.taskCount then task else proc.tasks i
          taskCount := proc.taskCount + 1 }
      .ok (self, s.processListInsert self)

/-- The list part of `process_exit`. -/
def processListRemove (s : Machine) (self : Nat) : Machine :=
  let proc := s.procs self
  let s := if proc.prev ≠ 0 then
      s.setProc proc.prev { s.procs proc.prev with next := proc.next } else s
  let s := if proc.next ≠ 0 then
      s.setProc proc.next { s.procs proc.next with prev := proc.prev } else s
  let s := if s.processes = self then { s with processes := proc.next } else s
  if s.currProcess = self then { s with currProcess := 0 } else s

/-- The sweep of `process_exit` over the user half, `n` entries before its end. -/
def exitSweep : Nat → Nat → Dir → Pfa → Dir × Pfa
  | 0, _, dir, pfa => (dir, pfa)
  | n + 1, i, dir, pfa =>
      if entryPresent (dir i) then
        let virtAddr := i * pageSize
        let physAddr := pageGetPhysAddr dir virtAddr
        exitSweep n (i + 1) (pageUnmapDir dir virtAddr) (pfaClear pfa (physAddr / pageSize))
      else exitSweep n (i + 1) dir pfa

/-- The part of `process_exit` that gives the frames back. -/
def releaseSpace (s : Kernel) (pageDir : Nat) : Except Stop Kernel :=
  let (dir, pfa) := exitSweep 768 0 (s.dirAt pageDir) s.pfa
  let s := { s with pfa := pfa }.setDirAt pageDir dir
  match s.updateCurrentDir fun dir => pageUnmapDir dir pageDir with
  | .error e => .error e
  | .ok s => .ok { s with pfa := pfaClear s.pfa (v2p pageDir / pageSize) }

/-- `process_exit` -/
def processExit (s : Machine) (self : Nat) : Except Stop Machine :=
  let proc := s.procs self
  let s := s.processListRemove self
  match releaseSpace s.kernel proc.pageDir with
  | .error e => .error e
  | .ok k => .ok (s.setKernel ((k.kfree proc.keyboardBuffer).kfree self))

/-! ## Runs -/

/-- What happens to the machine, all under the kernel directory. -/
inductive Event
  | spawn (file : Program)
  | exit (self : Nat)
  | heap (call : HeapCall)

/-- The heap hands out the address of a live process. -/
def reusesLive (s : Machine) : Bool :=
  match s.processAlloc .binary with
  | .ok (self, _) => s.users.contains self
  | .error _ => false

/-- One event; a call that panics or faults has no successor. -/
def step (s : Machine) : Event → Option Machine
  | .spawn file =>
      if s.reusesLive then none
      else
        match s.processSpawn file with
        | .error _ => none
        | .ok (self, s) => some (if self = 0 then s else { s with users := self :: s.users })
  | .exit self =>
      if self ∈ s.users then
        match s.processExit self with
        | .error _ => none
        | .ok s => some { s with users := s.users.erase self }
      else none
  | .heap call =>
      match s.kernel.heapCall call with
      | .error _ => none
      | .ok k => some (s.setKernel k)

/-! ## Boot -/

/-- `kernel_directory` of `boot/loader.asm`: the first page at its own address,
    the first twelve frames from `KERNEL_VIRTUAL_START` on, the framebuffer.
    `_remove_identity_mapping` leaves entry 0 as it is, since the physical address
    it looks up there is 0. -/
def bootDirectory : Dir := fun i =>
  if i = 0 then 0x83
  else if 768 ≤ i ∧ i < 780 then (i - 768) * pageSize ||| 0x83
  else if i = 896 then 0xFD000083
  else if i = 897 then 0xFD400083
  else 0

/-- The frames `_mark_kernel` marks. -/
def kernelFrame (f : Nat) : Prop :=
  kernelPhysBase / pageSize ≤ f ∧ f ≤ kernelPhysEnd / pageSize

/-- The frames `_mark_fb` marks. -/
def framebufferFrame (f : Nat) : Prop :=
  framebufferPhysBase / pageSize ≤ f ∧
    f ≤ (framebufferPhysBase + framebufferSize - 1) / pageSize

/-- A machine that has just booted: no user process yet, the heap empty, and the
    frames of the kernel and of the framebuffer marked used. -/
structure Boot (s : Machine) : Prop where
  kernelDirectory : s.kernel.kernelDirectory = bootDirectory
  heap : s.kernel.heap = ⟨kernelHeapStart, kernelHeapStart, kernelHeapMax, 0, 0, 0⟩
  cr3 : s.kernel.cr3 = none
  users : s.users = []
  kernel_used : ∀ f, kernelFrame f → pfaTest s.kernel.pfa f = true
  framebuffer_used : ∀ f, framebufferFrame f → pfaTest s.kernel.pfa f = true

end Machine

end Icarius
