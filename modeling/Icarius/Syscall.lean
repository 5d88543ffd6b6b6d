/-
  Icarius.Syscall

  The handlers of `src/x86/syscall.c` that take a pointer from a user process:
  `read`, `write`, `open` and `getdents`.  Of each the model keeps the order of its
  checks, what it returns, and the ranges it reads or writes through the pointer of
  the caller while the caller's page directory is loaded.  The kernel half of memory
  is mapped in that directory too, so only the checks keep a handler out of it.

  What a handler asks of the rest of the kernel (memory, the heap, the file system,
  the keyboard) is a parameter.
-/

import Icarius.Ds.Fifo
import Icarius.Fs.Vfs

namespace Icarius

/-! ## Frames, ranges, outcomes -/

/-- `EFAULT` -/
def efault : BitVec 32 := 14#32

/-- `FD_STDIN` -/
def fdStdin : Int := 0

/-- `FD_STDOUT` -/
def fdStdout : Int := 1

/-- `FD_STDERR` -/
def fdStderr : Int := 2

/-- `sizeof(struct dirent)` -/
def sizeofDirent : Nat := 268

/-- The registers of `interrupt_frame_t` the handlers read. -/
structure InterruptFrame where
  ebx : BitVec 32
  ecx : BitVec 32
  edx : BitVec 32

/-- A range of addresses; addresses wrap at 2^32. -/
structure UserRange where
  start : Nat
  len : Nat

/-- The range touches the address. -/
def UserRange.Touches (r : UserRange) (addr : Nat) : Prop :=
  ∃ i < r.len, addr = (r.start + i) % 2 ^ 32

/-- All of the range is below the kernel. -/
def UserRange.BelowKernel (r : UserRange) : Prop :=
  ∀ addr, r.Touches addr → addr < kernelVirtualStart

/-- What the handlers ask of the rest of the kernel. -/
structure SysEnv where
  /-- The byte at an address, with the directory of the caller. -/
  memory : Nat → UInt8
  /-- `kzalloc`: a pointer, or null. -/
  kzalloc : Nat → Nat
  /-- `task_get_curr()->parent` is not null. -/
  hasParent : Bool
  /-- The keyboard buffer of the caller. -/
  keyboard : Fifo
  vfsFread : Nat → Int → BitVec 32
  vfsReaddir : Int → BitVec 32
  vfsFopen : List UInt8 → List UInt8 → BitVec 32

/-- What a handler does: its result, or none when it never returns, and the ranges it
    reads or writes through the pointer of the caller. -/
structure SysOutcome where
  res : Option (BitVec 32)
  touched : List UserRange

/-- A result with nothing touched. -/
def SysOutcome.refused (res : BitVec 32) : SysOutcome := ⟨some res, []⟩

/-! ## The handlers -/

/-- The keyboard loop of `_sys_read`: `some i` for its return in the middle. -/
def readKeyboard : Nat → Nat → Fifo → Option Nat
  | 0, _, _ => none
  | n + 1, i, keyboard =>
      if fifoIsEmpty keyboard then none
      else
        match fifoDequeue keyboard with
        | (none, _) => some i
        | (some _, keyboard) => readKeyboard n (i + 1) keyboard

/-- `_sys_read` -/
def sysRead (env : SysEnv) (frame : InterruptFrame) : SysOutcome :=
  let fd := frame.ebx.toInt
  let count := frame.edx.toNat
  let userBuf := frame.ecx.toNat
  if userBuf = 0 ∨ count = 0 then .refused (-1)
  else if env.kzalloc count = 0 then .refused (-1)
  else if env.hasParent = false then .refused (-1)
  else if fd = fdStdin then
    match readKeyboard count 0 env.keyboard with
    | some i => .refused (BitVec.ofNat 32 i)
    | none => ⟨some 0, [⟨userBuf, count⟩]⟩
  else if fd = fdStdout ∨ fd = fdStderr then .refused (-1)
  else
    let nRead := env.vfsFread count fd
    ⟨some (if nRead.toInt < 0 then -1 else nRead), [⟨userBuf, count⟩]⟩

/-- `_sys_write`; what `vfs_fwrite` returns is not used. -/
def sysWrite (env : SysEnv) (frame : InterruptFrame) : SysOutcome :=
  let count := frame.edx.toNat
  let userBuf := frame.ecx.toNat
  if env.kzalloc count = 0 then .refused (-enomem)
  else ⟨some frame.edx, [⟨userBuf, count⟩]⟩

/-- `strlen`, as long as there is fuel. -/
def strlenLoop (memory : Nat → UInt8) (str : Nat) : Nat → Nat → Option Nat
  | 0, _ => none
  | fuel + 1, length =>
      if memory ((str + length) % 2 ^ 32) = 0 then some length
      else strlenLoop memory str fuel (length + 1)

/-- `strlen`: none when there is no NUL in all of memory. -/
def strlen (memory : Nat → UInt8) (str : Nat) : Option Nat :=
  strlenLoop memory str (2 ^ 32) 0

/-- The bytes `strlen` reads. -/
def strRange (memory : Nat → UInt8) (str : Nat) : UserRange :=
  match strlen memory str with
  | none => ⟨str, 2 ^ 32⟩
  | some count => ⟨str, count + 1⟩

/-- `_sys_open`: the length is taken before the pointer is looked at. -/
def sysOpen (env : SysEnv) (frame : InterruptFrame) : SysOutcome :=
  let userBuf := frame.ebx.toNat
  let read := strRange env.memory userBuf
  match strlen env.memory userBuf with
  | none => ⟨none, [read]⟩
  | some count =>
      if userBuf ≥ kernelVirtualStart then ⟨some (-efault), [read]⟩
      else if env.kzalloc ((count + 1) % 2 ^ 32) = 0 then ⟨some (-enomem), [read]⟩
      else
        let kernelBuf := (List.range count).map fun i => env.memory ((userBuf + i) % 2 ^ 32)
        let touched := [read, ⟨userBuf, count⟩]
        -- `READ` and `WRITE`
        if frame.ecx ≠ 0 ∧ frame.ecx ≠ 1 then ⟨some (-einval), touched⟩
        else
          let fd := env.vfsFopen kernelBuf (if frame.ecx = 0 then [114] else [119])
          ⟨some (if fd.toInt < 1 then -enoent else fd), touched⟩

/-- `_sys_getdents` -/
def sysGetdents (env : SysEnv) (frame : InterruptFrame) : SysOutcome :=
  let fd := frame.ebx.toInt
  let userBuf := frame.ecx.toNat
  let count := frame.edx.toNat
  if fd < 1 ∨ userBuf = 0 ∨ count < sizeofDirent then .refused (-einval)
  else if userBuf ≥ kernelVirtualStart then .refused (-efault)
  else if env.kzalloc ((count + 1) % 2 ^ 32) = 0 then .refused (-enomem)
  else if env.vfsReaddir fd ≠ 1 then ⟨some 0, [⟨userBuf, count⟩]⟩
  else ⟨some (BitVec.ofNat 32 sizeofDirent), [⟨userBuf, count⟩, ⟨userBuf, sizeofDirent⟩]⟩

/-- The calls with a pointer from the caller. -/
inductive UserCall where
  | read
  | write
  | open
  | getdents

/-- The handler of a call. -/
def UserCall.handler : UserCall → SysEnv → InterruptFrame → SysOutcome
  | .read => sysRead
  | .write => sysWrite
  | .open => sysOpen
  | .getdents => sysGetdents

/-- The range a caller names: a buffer with its length, or a string with its NUL. -/
def UserCall.range (call : UserCall) (env : SysEnv) (frame : InterruptFrame) : UserRange :=
  match call with
  | .open => strRange env.memory frame.ebx.toNat
  | _ => ⟨frame.ecx.toNat, frame.edx.toNat⟩

/-! ## Ranges below the kernel -/

/-- A handler stays out of the kernel: all it touches is below, and a range that is not
    is refused with an error before anything is touched. -/
def KernelSafe (call : UserCall) (env : SysEnv) (frame : InterruptFrame) : Prop :=
  (∀ r ∈ (call.handler env frame).touched, r.BelowKernel) ∧
    (¬ (call.range env frame).BelowKernel →
      ∃ res, call.handler env frame = .refused res ∧ IsError res)

/-- The calls a handler refuses for another reason, before it touches anything. -/
def UserCall.Refuses (call : UserCall) (env : SysEnv) (frame : InterruptFrame) : Prop :=
  match call with
  | .read => frame.ecx = 0 ∨ env.kzalloc frame.edx.toNat = 0 ∨ env.hasParent = false ∨
      frame.ebx.toInt = fdStdout ∨ frame.ebx.toInt = fdStderr
  | .write => env.kzalloc frame.edx.toNat = 0
  | .open => False
  | .getdents => frame.ebx.toInt < 1 ∨ frame.ecx = 0 ∨ frame.edx.toNat < sizeofDirent ∨
      frame.ecx.toNat ≥ kernelVirtualStart ∨ env.kzalloc ((frame.edx.toNat + 1) % 2 ^ 32) = 0

theorem UserRange.BelowKernel.mono {start len len' : Nat}
    (h : (UserRange.mk start len).BelowKernel) (hle : len' ≤ len) :
    (UserRange.mk start len').BelowKernel := by
  rintro addr ⟨i, hi, rfl⟩
  exact h _ ⟨i, Nat.lt_of_lt_of_le hi hle, rfl⟩

theorem belowKernel_empty (start : Nat) : (UserRange.mk start 0).BelowKernel := by
  rintro addr ⟨i, hi, -⟩
  exact absurd hi (Nat.not_lt_zero i)

/-- The keyboard loop never returns in the middle: a buffer that is not empty has a
    byte. -/
theorem readKeyboard_eq (n i : Nat) (keyboard : Fifo) : readKeyboard n i keyboard = none := by
  induction n generalizing i keyboard with
  | zero => rfl
  | succ n ih =>
      unfold readKeyboard
      by_cases hempty : fifoIsEmpty keyboard = true
      · rw [if_pos hempty]
      · have hpos : 0 < keyboard.count := by
          simp only [fifoIsEmpty, beq_iff_eq] at hempty
          omega
        rw [if_neg hempty, fifoDequeue, dif_pos hpos]
        exact ih _ _

/-- A handler that refuses, or touches the range of its caller and nothing else. -/
theorem kernelSafe_of_refused {call : UserCall} {env : SysEnv} {frame : InterruptFrame}
    {res : BitVec 32} (h : call.handler env frame = .refused res) (herr : IsError res) :
    KernelSafe call env frame := by
  refine ⟨fun r hr => ?_, fun _ => ⟨res, h, herr⟩⟩
  rw [h] at hr
  exact absurd hr List.not_mem_nil

theorem kernelSafe_iff_of_touched {call : UserCall} {env : SysEnv} {frame : InterruptFrame}
    {res : Option (BitVec 32)} {rest : List UserRange}
    (h : call.handler env frame = ⟨res, call.range env frame :: rest⟩)
    (hrest : (call.range env frame).BelowKernel → ∀ r ∈ rest, r.BelowKernel) :
    KernelSafe call env frame ↔ (call.range env frame).BelowKernel := by
  constructor
  · intro hsafe
    apply hsafe.1
    rw [h]
    exact List.mem_cons_self
  · intro hbelow
    refine ⟨fun r hr => ?_, fun hnot => absurd hbelow hnot⟩
    rw [h] at hr
    rcases List.mem_cons.mp hr with rfl | hr
    · exact hbelow
    · exact hrest hbelow r hr

theorem isError_neg_one : IsError (-1) := by decide

theorem kernelSafe_read (env : SysEnv) (frame : InterruptFrame) :
    KernelSafe .read env frame ↔
      (UserCall.range .read env frame).BelowKernel ∨ UserCall.Refuses .read env frame := by
  have hecx : frame.ecx.toNat = 0 ↔ frame.ecx = 0 := by
    rw [← BitVec.toNat_inj]
    rfl
  by_cases hrefuses : UserCall.Refuses .read env frame ∨ frame.edx.toNat = 0
  · have hrefused : UserCall.handler .read env frame = .refused (-1) := by
      show sysRead env frame = _
      unfold sysRead
      simp only [hecx]
      rcases hrefuses with (h | h | h | h | h) | h
      all_goals simp only [h, true_or, or_true, if_true, ite_self]
      · simp [fdStdin, fdStdout]
      · simp [fdStdin, fdStderr]
    refine ⟨fun _ => ?_, fun _ => kernelSafe_of_refused hrefused isError_neg_one⟩
    rcases hrefuses with h | h
    · exact .inr h
    · refine .inl ?_
      show (UserRange.mk frame.ecx.toNat frame.edx.toNat).BelowKernel
      rw [h]
      exact belowKernel_empty _
  · rw [not_or] at hrefuses
    obtain ⟨hrefuses, hcount⟩ := hrefuses
    have htouched : ∃ res, UserCall.handler .read env frame
        = ⟨res, [UserCall.range .read env frame]⟩ := by
      show ∃ res, sysRead env frame = _
      simp only [UserCall.Refuses, not_or] at hrefuses
      obtain ⟨hbuf, hkzalloc, hparent, hstdout, hstderr⟩ := hrefuses
      unfold sysRead
      simp only [hecx, hbuf, hcount, hkzalloc, hparent, hstdout, hstderr, or_self, if_false,
        readKeyboard_eq]
      by_cases hstdin : frame.ebx.toInt = fdStdin
      · exact ⟨_, if_pos hstdin⟩
      · exact ⟨_, if_neg hstdin⟩
    obtain ⟨res, htouched⟩ := htouched
    rw [kernelSafe_iff_of_touched htouched fun _ r hr => absurd hr List.not_mem_nil]
    exact (or_iff_left hrefuses).symm

theorem kernelSafe_write (env : SysEnv) (frame : InterruptFrame) :
    KernelSafe .write env frame ↔
      (UserCall.range .write env frame).BelowKernel ∨ UserCall.Refuses .write env frame := by
  by_cases hkzalloc : env.kzalloc frame.edx.toNat = 0
  · have hrefused : UserCall.handler .write env frame = .refused (-enomem) := by
      show sysWrite env frame = _
      simp only [sysWrite, hkzalloc, if_true]
    exact ⟨fun _ => .inr hkzalloc, fun _ => kernelSafe_of_refused hrefused (by decide)⟩
  · have htouched : UserCall.handler .write env frame
        = ⟨some frame.edx, [UserCall.range .write env frame]⟩ := by
      show sysWrite env frame = _
      simp only [sysWrite, hkzalloc, if_false]
      rfl
    rw [kernelSafe_iff_of_touched htouched fun _ r hr => absurd hr List.not_mem_nil]
    exact (or_iff_left hkzalloc).symm

/-- The string of `_sys_open` is always read first. -/
theorem sysOpen_touched (env : SysEnv) (frame : InterruptFrame) : ∃ res rest,
    sysOpen env frame = ⟨res, strRange env.memory frame.ebx.toNat :: rest⟩ ∧
      ((strRange env.memory frame.ebx.toNat).BelowKernel → ∀ r ∈ rest, r.BelowKernel) := by
  unfold sysOpen
  simp only
  cases hlen : strlen env.memory frame.ebx.toNat with
  | none => exact ⟨_, [], rfl, fun _ r hr => absurd hr List.not_mem_nil⟩
  | some count =>
      have hrange : strRange env.memory frame.ebx.toNat = ⟨frame.ebx.toNat, count + 1⟩ := by
        rw [strRange, hlen]
      have hcopied : (strRange env.memory frame.ebx.toNat).BelowKernel →
          ∀ r ∈ [(⟨frame.ebx.toNat, count⟩ : UserRange)], r.BelowKernel := by
        intro hbelow r hr
        rw [List.mem_singleton.mp hr]
        rw [hrange] at hbelow
        exact hbelow.mono (Nat.le_succ count)
      have hnone : (strRange env.memory frame.ebx.toNat).BelowKernel →
          ∀ r ∈ ([] : List UserRange), r.BelowKernel := fun _ r hr => absurd hr List.not_mem_nil
      simp only
      split
      · exact ⟨_, [], rfl, hnone⟩
      · split
        · exact ⟨_, [], rfl, hnone⟩
        · split
          · exact ⟨_, _, rfl, hcopied⟩
          · exact ⟨_, _, rfl, hcopied⟩

theorem kernelSafe_open (env : SysEnv) (frame : InterruptFrame) :
    KernelSafe .open env frame ↔
      (UserCall.range .open env frame).BelowKernel ∨ UserCall.Refuses .open env frame := by
  obtain ⟨res, rest, htouched, hrest⟩ := sysOpen_touched env frame
  have hcall : UserCall.handler .open env frame = ⟨res, UserCall.range .open env frame :: rest⟩ :=
    htouched
  rw [kernelSafe_iff_of_touched hcall hrest]
  exact (or_iff_left id).symm

theorem kernelSafe_getdents (env : SysEnv) (frame : InterruptFrame) :
    KernelSafe .getdents env frame ↔
      (UserCall.range .getdents env frame).BelowKernel ∨ UserCall.Refuses .getdents env frame := by
  have hecx : frame.ecx.toNat = 0 ↔ frame.ecx = 0 := by
    rw [← BitVec.toNat_inj]
    rfl
  -- a call with a reason to be refused touches nothing
  by_cases hrefuses : UserCall.Refuses .getdents env frame
  · have hrefused : ∃ res, UserCall.handler .getdents env frame = .refused res ∧ IsError res := by
      show ∃ res, sysGetdents env frame = _ ∧ _
      unfold sysGetdents
      simp only [hecx]
      -- the arguments are checked first, then the range, and then there may be no memory
      by_cases hargs : frame.ebx.toInt < 1 ∨ frame.ecx = 0 ∨ frame.edx.toNat < sizeofDirent
      · rw [if_pos hargs]
        exact ⟨_, rfl, by decide⟩
      · rw [if_neg hargs]
        rw [not_or, not_or] at hargs
        rcases hrefuses with h | h | h | h | h
        · exact absurd h hargs.1
        · exact absurd h hargs.2.1
        · exact absurd h hargs.2.2
        · rw [if_pos h]
          exact ⟨_, rfl, by decide⟩
        · by_cases hkernel : frame.ecx.toNat ≥ kernelVirtualStart
          · rw [if_pos hkernel]
            exact ⟨_, rfl, by decide⟩
          · rw [if_neg hkernel, if_pos h]
            exact ⟨_, rfl, by decide⟩
    obtain ⟨res, hrefused, herr⟩ := hrefused
    exact ⟨fun _ => .inr hrefuses, fun _ => kernelSafe_of_refused hrefused herr⟩
  · -- otherwise the buffer is touched as a whole, and the entry is a part of it
    have htouched : ∃ res rest, UserCall.handler .getdents env frame
        = ⟨res, UserCall.range .getdents env frame :: rest⟩ ∧
          ((UserCall.range .getdents env frame).BelowKernel → ∀ r ∈ rest, r.BelowKernel) := by
      show ∃ res rest, sysGetdents env frame = _ ∧ _
      simp only [UserCall.Refuses, not_or] at hrefuses
      obtain ⟨hfd, hbuf, hsize, hkernel, hkzalloc⟩ := hrefuses
      unfold sysGetdents
      simp only [hecx, hfd, hbuf, hsize, hkernel, hkzalloc, or_self, if_false]
      split
      · exact ⟨_, [], rfl, fun _ r hr => absurd hr List.not_mem_nil⟩
      · refine ⟨_, _, rfl, fun hbelow r hr => ?_⟩
        rw [List.mem_singleton.mp hr]
        exact UserRange.BelowKernel.mono hbelow (Nat.le_of_not_lt hsize)
    obtain ⟨res, rest, htouched, hrest⟩ := htouched
    rw [kernelSafe_iff_of_touched htouched hrest]
    exact (or_iff_left hrefuses).symm

/-- A call stays out of the kernel exactly when its range is below the kernel, or it is
    refused for another reason. -/
theorem kernelSafe_iff (call : UserCall) (env : SysEnv) (frame : InterruptFrame) :
    KernelSafe call env frame ↔
      (call.range env frame).BelowKernel ∨ call.Refuses env frame := by
  cases call with
  | read => exact kernelSafe_read env frame
  | write => exact kernelSafe_write env frame
  | «open» => exact kernelSafe_open env frame
  | getdents => exact kernelSafe_getdents env frame

/-- A kernel with memory to give and nothing to read. -/
def idleEnv : SysEnv :=
  ⟨fun _ => 0, fun _ => 0xC1000014, true, Lib.Ring.empty (fun _ => 0) fifoBufferSize_pos,
    fun _ _ => 0, fun _ => 0, fun _ _ => 0⟩

/-- `write(1, 0xC0000000, 1)` prints a byte of the kernel. -/
theorem exists_write_kernel : ¬ ∀ (call : UserCall) (env : SysEnv) (frame : InterruptFrame),
    KernelSafe call env frame := by
  intro hall
  have hbelow := (hall .write idleEnv ⟨1#32, 0xC0000000#32, 1#32⟩).1 ⟨0xC0000000, 1⟩
    List.mem_cons_self
  exact absurd (hbelow 0xC0000000 ⟨0, by decide, by decide⟩) (by decide)

end Icarius
