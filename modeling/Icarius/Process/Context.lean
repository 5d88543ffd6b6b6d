/-
  Icarius.Process.Context

  How the processor gets from one task to another: the entries of `src/arch/x86/idt.asm`,
  `task_save` and `task_switch` of `src/x86/process/task.c`, and `asm_enter_task` of
  `src/x86/process/task.asm`, instruction by instruction on the stack of the TSS.

  Every task goes on with the registers it was interrupted with, whatever the others have
  done meanwhile, but for two: the interrupt flag is set, and `ebp` points into the kernel's
  stack, because the last `pop` of `asm_task_restore_register` undoes the load of it.
-/

import Icarius.Config
import Icarius.Lib.Run
import Icarius.Lib.X86
import Mathlib.Logic.Function.Basic

namespace Icarius

open Icarius.Lib Icarius.Lib.X86

/-! ## The code -/

/-- `task_registers_t` -/
structure TaskRegisters where
  edi : BitVec 32
  esi : BitVec 32
  ebp : BitVec 32
  ebx : BitVec 32
  edx : BitVec 32
  ecx : BitVec 32
  eax : BitVec 32
  eip : BitVec 32
  cs : BitVec 32
  eflags : BitVec 32
  esp : BitVec 32
  ss : BitVec 32

/-- The words of a `task_registers_t` in memory -/
def TaskRegisters.words (r : TaskRegisters) : List (BitVec 32) :=
  [r.edi, r.esi, r.ebp, r.ebx, r.edx, r.ecx, r.eax, r.eip, r.cs, r.eflags, r.esp, r.ss]

/-- The words of an `interrupt_frame_t` that holds these registers -/
def TaskRegisters.frame (r : TaskRegisters) (reserved : BitVec 32) : List (BitVec 32) :=
  [r.edi, r.esi, r.ebp, reserved, r.ebx, r.edx, r.ecx, r.eax, r.eip, r.cs, r.eflags, r.esp, r.ss]

/-- The part of it that `pushad` pushes -/
def TaskRegisters.general (r : TaskRegisters) (reserved : BitVec 32) : List (BitVec 32) :=
  [r.edi, r.esi, r.ebp, reserved, r.ebx, r.edx, r.ecx, r.eax]

/-- The part of it that the processor pushes -/
def TaskRegisters.last (r : TaskRegisters) : List (BitVec 32) :=
  [r.eip, r.cs, r.eflags, r.esp, r.ss]

/-- `asm_task_restore_register` -/
def asmTaskRestoreRegister (ra : BitVec 32) : List Instr := [
  .push (.reg .ebp),
  .mov .ebp (.reg .esp),
  .mov .ebx (.mem .ebp 8),
  .mov .edi (.mem .ebx 0),
  .mov .esi (.mem .ebx 4),
  .mov .ebp (.mem .ebx 8),
  .mov .edx (.mem .ebx 16),
  .mov .ecx (.mem .ebx 20),
  .mov .eax (.mem .ebx 24),
  .mov .ebx (.mem .ebx 12),
  .pop .ebp,
  .ret ra]

/-- `asm_enter_task`; `ra` is the address behind its `call`. -/
def asmEnterTask (ra : BitVec 32) : List Instr := [
  .mov .ebp (.reg .esp),
  .mov .ebx (.mem .ebp 4),
  .push (.mem .ebx 44),
  .push (.mem .ebx 40),
  .mov .eax (.mem .ebx 36),
  .or .eax 0x200,
  .push (.reg .eax),
  .push (.mem .ebx 32),
  .push (.mem .ebx 28),
  .mov16 .eax (.mem .ebx 44),
  .movSeg .ds .eax,
  .movSeg .es .eax,
  .movSeg .fs .eax,
  .movSeg .gs .eax,
  .push (.mem .ebp 4),
  .call ra] ++ asmTaskRestoreRegister ra ++ [
  .add .esp 4,
  .iretd]

/-- `asm_irq0_timer`, and likewise `asm_irq1_keyboard`, up to the call of the handler -/
def asmIrqEntry (ra : BitVec 32) : List Instr := [.cli, .pushad, .push (.reg .esp), .call ra]

/-- `asm_irq0_timer` and `asm_irq1_keyboard` behind the call -/
def asmIrqReturn (ra : BitVec 32) : List Instr :=
  [.ret ra, .add .esp 4, .popad, .sti, .iretd]

/-- `asm_irq12_mouse` up to the call of its handler, which has no argument -/
def asmIrq12Entry (ra : BitVec 32) : List Instr := [.cli, .pushad, .call ra]

/-- `asm_irq12_mouse` behind the call -/
def asmIrq12Return (ra : BitVec 32) : List Instr := [.ret ra, .popad, .sti, .iretd]

/-- `asm_syscall` up to the call of `syscall_dispatch` -/
def asmSyscallEntry (ra : BitVec 32) : List Instr :=
  [.pushad, .push (.reg .esp), .push (.reg .eax), .call ra]

/-- `asm_syscall` behind the call -/
def asmSyscallReturn (ra : BitVec 32) : List Instr := [.ret ra, .add .esp 8, .popad, .iretd]

/-- `task_save`, with the frame at `frame` and `task->registers` at `regs` -/
def taskSave (m : Mem) (frame regs : Nat) : Mem :=
  let m := m.setWord regs (m.word frame)
  let m := m.setWord (regs + 4) (m.word (frame + 4))
  let m := m.setWord (regs + 8) (m.word (frame + 8))
  let m := m.setWord (regs + 12) (m.word (frame + 16))
  let m := m.setWord (regs + 16) (m.word (frame + 20))
  let m := m.setWord (regs + 20) (m.word (frame + 24))
  let m := m.setWord (regs + 24) (m.word (frame + 28))
  let m := m.setWord (regs + 28) (m.word (frame + 32))
  let m := m.setWord (regs + 32) (m.word (frame + 36))
  let m := m.setWord (regs + 36) (m.word (frame + 40))
  let m := m.setWord (regs + 40) (m.word (frame + 44))
  m.setWord (regs + 44) (m.word (frame + 48))

/-- `KERNEL_STACK_BOTTOM` -/
def kernelStackBottom : Nat := kernelHeapMax + 1

/-- `esp0` of the TSS, as `tss_init` sets it from `KERNEL_STACK_TOP` -/
def esp0 : BitVec 32 := BitVec.ofNat 32 (kernelStackBottom + kernelStackSize - 1) &&& ~~~3

/-- `GDT_KERNEL_DATA_SEGMENT`, which `tss_init` makes `ss0` -/
def gdtKernelDataSegment : BitVec 32 := 0x10

/-- `GDT_KERNEL_CODE_SEGMENT`, the segment of every gate -/
def gdtKernelCodeSegment : BitVec 32 := 0x08

/-- The data segment of ring 3, as `asm_restore_user_segment` loads it -/
def userDataSegment : BitVec 16 := 0x23

/-- The offset of `registers` in a `task_t` -/
def taskRegistersOffset : Nat := 8

/-! ## The machine -/

/-- The addresses of the entries, and the one behind their calls -/
structure Entries where
  irq0 : BitVec 32
  irq1 : BitVec 32
  irq12 : BitVec 32
  syscall : BitVec 32
  ra : BitVec 32

/-- The processor, and `curr_task`.  A task is the address of its `task_t`. -/
structure Switching where
  cpu : Cpu
  curr : Nat

/-- What can happen.  `left` is what compiled C code leaves in the registers and in the memory
    that it may use; `esp` is the stack pointer with which it comes to `asm_enter_task`. -/
inductive SwitchEvent where
  /-- The current task computes; `mem` is the memory behind that. -/
  | compute (regs : TaskRegisters) (mem : Mem)
  | key (left : Cpu)
  | mouse (left : Cpu)
  /-- A system call that returns `result` -/
  | syscall (result : BitVec 32) (left : Cpu)
  /-- A timer tick, at which the scheduler picks the task `next` -/
  | tick (next : Nat) (esp : BitVec 32) (left : Cpu)
  /-- `_sys_exit`, at the end of which the scheduler picks the task `next` -/
  | exit (next : Nat) (esp : BitVec 32) (left : Cpu)

namespace Switching

/-- The memory behind C code that began with the stack pointer `esp`: the stack from there on
    and the registers of the tasks are as in `m`, everything else as in `left`. -/
def keeping (tasks : List Nat) (esp : Nat) (m left : Mem) : Mem := fun a =>
  if (esp ≤ a ∧ a < kernelStackBottom + kernelStackSize) ∨
      ∃ t ∈ tasks, t + taskRegistersOffset ≤ a ∧ a < t + taskRegistersOffset + 48 then m a
  else left a

/-- C code that returns -/
def returned (before left : Cpu) (m : Mem) : Cpu :=
  { left with esp := before.esp, cs := before.cs, ss := before.ss, mem := m }

/-- C code that has called `asm_enter_task(&next->registers)` -/
def entering (before left : Cpu) (m : Mem) (next : Nat) (esp ra : BitVec 32) : Cpu :=
  { left with
    esp := esp, cs := before.cs, ss := before.ss
    mem := (m.setWord (esp.toNat + 4) (BitVec.ofNat 32 (next + taskRegistersOffset))).setWord
      esp.toNat ra }

/-- From an interrupt to the C code of its handler -/
def enter (cpu : Cpu) (handler : BitVec 32) (entry : List Instr) : Option Cpu :=
  Cpu.exec entry (cpu.interrupt gdtKernelDataSegment esp0 gdtKernelCodeSegment handler)

/-- The current task computes.  A user task cannot write to the kernel's memory; a kernel task
    leaves its stack alone, as `kidle` does. -/
def compute (cpu : Cpu) (regs : TaskRegisters) (mem : Mem) : Cpu :=
  let cpu := { cpu with
    edi := regs.edi, esi := regs.esi, ebp := regs.ebp, ebx := regs.ebx, edx := regs.edx
    ecx := regs.ecx, eax := regs.eax, eip := regs.eip, eflags := regs.eflags }
  if Cpu.ring cpu.cs = 0 then cpu
  else { cpu with
    esp := regs.esp, ss := regs.ss
    mem := fun a => if kernelVirtualStart ≤ a then cpu.mem a else mem a }

/-- One event -/
def step (tasks : List Nat) (entries : Entries) (s : Switching) : SwitchEvent → Option Switching
  | .compute regs mem => some { s with cpu := compute s.cpu regs mem }
  | .key left => do
      let before ← enter s.cpu entries.irq1 (asmIrqEntry entries.ra)
      let m := keeping tasks before.esp.toNat before.mem left.mem
      let cpu ← Cpu.exec (asmIrqReturn entries.ra) (returned before left m)
      some { s with cpu := cpu }
  | .mouse left => do
      let before ← enter s.cpu entries.irq12 (asmIrq12Entry entries.ra)
      let m := keeping tasks before.esp.toNat before.mem left.mem
      let cpu ← Cpu.exec (asmIrq12Return entries.ra) (returned before left m)
      some { s with cpu := cpu }
  | .syscall result left => do
      let before ← enter s.cpu entries.syscall (asmSyscallEntry entries.ra)
      let frame := before.esp.toNat + 12
      let saved := taskSave before.mem frame (s.curr + taskRegistersOffset)
      -- `frame->eax = handler(frame)`
      let m := (keeping tasks before.esp.toNat saved left.mem).setWord (frame + 28) result
      let segments := { left with
        ds := userDataSegment, es := userDataSegment, fs := userDataSegment
        gs := userDataSegment }
      let cpu ← Cpu.exec (asmSyscallReturn entries.ra) (returned before segments m)
      some { s with cpu := cpu }
  | .tick next esp left => do
      let before ← enter s.cpu entries.irq0 (asmIrqEntry entries.ra)
      let saved := taskSave before.mem (before.esp.toNat + 8) (s.curr + taskRegistersOffset)
      let m := keeping tasks before.esp.toNat saved left.mem
      let cpu ← Cpu.exec (asmEnterTask entries.ra) (entering before left m next esp entries.ra)
      some ⟨cpu, next⟩
  | .exit next esp left => do
      let before ← enter s.cpu entries.syscall (asmSyscallEntry entries.ra)
      let saved := taskSave before.mem (before.esp.toNat + 12) (s.curr + taskRegistersOffset)
      let m := keeping tasks before.esp.toNat saved left.mem
      let cpu ← Cpu.exec (asmEnterTask entries.ra) (entering before left m next esp entries.ra)
      some ⟨cpu, next⟩

/-- Where the frame of an interrupt ends: in ring 0 the processor goes on with the stack it
    has, and the last two words of the frame are not its own. -/
def frameEnd (cpu : Cpu) : Nat :=
  if Cpu.ring cpu.cs = 0 then cpu.esp.toNat + 8 else esp0.toNat

/-- The events that can happen: what is pushed finds room in the kernel's stack, the code that
    calls `asm_enter_task` is below the frame, and only user tasks make system calls. -/
def Admitted (tasks : List Nat) (s : Switching) : SwitchEvent → Prop
  | .compute _ _ => True
  | .key _ | .mouse _ => kernelStackBottom + 60 ≤ frameEnd s.cpu
  | .syscall _ _ => Cpu.ring s.cpu.cs ≠ 0
  | .tick next esp _ =>
      next ∈ tasks ∧ kernelStackBottom + 32 ≤ esp.toNat ∧ esp.toNat + 68 ≤ frameEnd s.cpu
  | .exit next esp _ =>
      Cpu.ring s.cpu.cs ≠ 0 ∧ next ∈ tasks ∧ kernelStackBottom + 32 ≤ esp.toNat ∧
        esp.toNat + 72 ≤ frameEnd s.cpu

end Switching

/-! ## Tasks -/

/-- What it is for: the registers of the current task, and those that the others go on with -/
structure Tasks where
  curr : Nat
  running : TaskRegisters
  saved : Nat → TaskRegisters

namespace Tasks

/-- The registers a task goes on with, entered with the stack pointer `esp` of the kernel -/
def resumed (r : TaskRegisters) (esp : BitVec 32) : TaskRegisters :=
  { r with ebp := esp, eflags := r.eflags ||| Cpu.interruptFlag }

/-- The current task gives way to `next`. -/
def switch (t : Tasks) (next : Nat) (esp : BitVec 32) : Tasks :=
  let saved := Function.update t.saved t.curr t.running
  ⟨next, resumed (saved next) esp, saved⟩

/-- The current task computes; a kernel task keeps its stack, and every task its ring. -/
def compute (t : Tasks) (regs : TaskRegisters) : Tasks :=
  let r := { regs with cs := t.running.cs }
  { t with
    running := if Cpu.ring t.running.cs = 0 then { r with esp := t.running.esp, ss := t.running.ss }
      else r }

def step (t : Tasks) : SwitchEvent → Tasks
  | .compute regs _ => t.compute regs
  | .key _ | .mouse _ => t
  | .syscall result _ => { t with running := { t.running with eax := result } }
  | .tick next esp _ | .exit next esp _ => t.switch next esp

end Tasks

/-! ## What an interrupt leaves -/

/-- The registers in the frame of an interrupt.  In ring 0 the last two words of the frame are
    the ones on top of the stack. -/
def interrupted (cpu : Cpu) : TaskRegisters where
  edi := cpu.edi
  esi := cpu.esi
  ebp := cpu.ebp
  ebx := cpu.ebx
  edx := cpu.edx
  ecx := cpu.ecx
  eax := cpu.eax
  eip := cpu.eip
  cs := cpu.cs
  eflags := cpu.eflags
  esp := if Cpu.ring cpu.cs = 0 then cpu.stack 0 else cpu.esp
  ss := if Cpu.ring cpu.cs = 0 then cpu.stack 1 else cpu.ss

namespace Switching

/-- `before` is the processor when the C code of a handler begins: the frame, with the
    registers of `cpu`, is `extra` words above the stack pointer. -/
structure Entered (cpu before : Cpu) (extra : List (BitVec 32)) : Prop where
  esp : before.esp.toNat + 4 * extra.length + 52 = frameEnd cpu
  words : ∃ reserved, before.mem.Words before.esp.toNat
    (extra ++ (interrupted cpu).frame reserved)
  outside : ∀ a, a < before.esp.toNat ∨ frameEnd cpu ≤ a → before.mem a = cpu.mem a
  cs : before.cs = gdtKernelCodeSegment

section Enter

variable {cpu before : Cpu} {handler ra : BitVec 32}

/-- The words `ws` are on the stack of an interrupt, up to the end of its frame. -/
structure Stacked (cpu c : Cpu) (ws : List (BitVec 32)) : Prop where
  esp : c.esp.toNat + 4 * ws.length = frameEnd cpu
  words : c.mem.Words c.esp.toNat ws
  outside : ∀ a, a < c.esp.toNat ∨ frameEnd cpu ≤ a → c.mem a = cpu.mem a

/-- An interrupt that has not changed the registers yet -/
structure Interrupted (cpu c : Cpu) (ws : List (BitVec 32)) : Prop extends Stacked cpu c ws where
  regs : [c.eax, c.ecx, c.edx, c.ebx, c.ebp, c.esi, c.edi]
    = [cpu.eax, cpu.ecx, cpu.edx, cpu.ebx, cpu.ebp, cpu.esi, cpu.edi]

theorem interrupted_interruptStack (cpu : Cpu) (hend : kernelStackBottom + 52 ≤ frameEnd cpu)
    (htop : frameEnd cpu < 2 ^ 32) : Interrupted cpu
      (cpu.interruptStack gdtKernelDataSegment esp0 gdtKernelCodeSegment)
      (interrupted cpu).last := by
  have hbottom : 0xC2C00000 = kernelStackBottom := rfl
  by_cases h0 : Cpu.ring cpu.cs = 0
  · -- on the stack of the kernel task
    have hsame : cpu.interruptStack gdtKernelDataSegment esp0 gdtKernelCodeSegment
        = cpu.pushes [cpu.eflags, cpu.cs, cpu.eip] := if_pos h0
    have hend' : frameEnd cpu = cpu.esp.toNat + 8 := if_pos h0
    have htwo : cpu.mem.Words cpu.esp.toNat [(interrupted cpu).esp, (interrupted cpu).ss] := by
      have hesp : (interrupted cpu).esp = cpu.stack 0 := if_pos h0
      have hss : (interrupted cpu).ss = cpu.stack 1 := if_pos h0
      rw [hesp, hss]
      exact Cpu.words_stack (by omega)
    have hpushed := cpu.pushed_pushes [cpu.eflags, cpu.cs, cpu.eip] (by
      show 12 ≤ _
      omega)
    rw [hsame]
    generalize cpu.pushes [cpu.eflags, cpu.cs, cpu.eip] = c at hpushed
    have hesp : c.esp.toNat + 12 = cpu.esp.toNat := hpushed.esp
    refine ⟨⟨?_, hpushed.stacked htwo, fun a ha => hpushed.frame a (by omega)⟩, ?_⟩
    · show c.esp.toNat + 20 = _
      omega
    · rw [hpushed.rest]
  · -- on the stack of the TSS
    have hsame : cpu.interruptStack gdtKernelDataSegment esp0 gdtKernelCodeSegment
        = Cpu.pushes { cpu with esp := esp0, ss := gdtKernelDataSegment }
            [cpu.ss, cpu.esp, cpu.eflags, cpu.cs, cpu.eip] := if_neg h0
    have hend' : frameEnd cpu = esp0.toNat := if_neg h0
    have hesp : (interrupted cpu).esp = cpu.esp := if_neg h0
    have hss : (interrupted cpu).ss = cpu.ss := if_neg h0
    have hpushed := Cpu.pushed_pushes { cpu with esp := esp0, ss := gdtKernelDataSegment }
      [cpu.ss, cpu.esp, cpu.eflags, cpu.cs, cpu.eip] (by
        show 20 ≤ esp0.toNat
        omega)
    rw [hsame]
    generalize Cpu.pushes { cpu with esp := esp0, ss := gdtKernelDataSegment }
      [cpu.ss, cpu.esp, cpu.eflags, cpu.cs, cpu.eip] = c at hpushed
    refine ⟨⟨?_, ?_, fun a ha => ?_⟩, ?_⟩
    · rw [hend']
      exact hpushed.esp
    · unfold TaskRegisters.last
      rw [hesp, hss]
      exact hpushed.words
    · rw [hend'] at ha
      exact hpushed.frame a ha
    · rw [hpushed.rest]

/-- More words on the stack -/
theorem Stacked.pushes {c : Cpu} {ws : List (BitVec 32)} (h : Stacked cpu c ws)
    (vs : List (BitVec 32)) (hroom : 4 * vs.length + 4 * ws.length ≤ frameEnd cpu) :
    Stacked cpu (c.pushes vs) (vs.reverse ++ ws) := by
  obtain ⟨hesp, hwords, houtside⟩ := h
  have hpushed := c.pushed_pushes vs (by omega)
  have hlow := hpushed.esp
  generalize c.pushes vs = d at hpushed hlow
  refine ⟨?_, hpushed.stacked hwords, fun a ha => ?_⟩
  · rw [List.length_append, List.length_reverse]
    omega
  · rw [hpushed.frame a (by omega), houtside a (by omega)]

/-- `pushad` of the registers that were interrupted -/
theorem Interrupted.pushad {c : Cpu} {ws : List (BitVec 32)} (h : Interrupted cpu c ws)
    (hroom : 32 + 4 * ws.length ≤ frameEnd cpu) :
    Stacked cpu c.pushad ((interrupted cpu).general c.esp ++ ws) := by
  have hregs := h.regs
  have hpushed := h.toStacked.pushes
    [c.eax, c.ecx, c.edx, c.ebx, c.esp, c.ebp, c.esi, c.edi] hroom
  simp only [List.cons.injEq] at hregs
  obtain ⟨heax, hecx, hedx, hebx, hebp, hesi, hedi, -⟩ := hregs
  rw [heax, hecx, hedx, hebx, hebp, hesi, hedi] at hpushed
  show Stacked cpu (c.pushes _) _
  rw [heax, hecx, hedx, hebx, hebp, hesi, hedi]
  exact hpushed

theorem cs_pushes (c : Cpu) (vs : List (BitVec 32)) : (c.pushes vs).cs = c.cs := by
  induction vs generalizing c with
  | nil => rfl
  | cons v vs ih => exact ih (c.push v)

/-- `pushad` completes the frame, and the words pushed behind it are on top of it. -/
theorem Interrupted.entered {c : Cpu} (h : Interrupted cpu c (interrupted cpu).last)
    (hcs : c.cs = gdtKernelCodeSegment) (extra : List (BitVec 32))
    (hend : kernelStackBottom + 52 + 4 * extra.length ≤ frameEnd cpu) :
    Entered cpu (c.pushad.pushes extra.reverse) extra := by
  have hframe := h.pushad (by
    show 32 + 20 ≤ _
    omega)
  obtain ⟨hesp, hwords, houtside⟩ := hframe.pushes extra.reverse (by
    show 4 * extra.reverse.length + 52 ≤ _
    rw [List.length_reverse]
    omega)
  rw [List.reverse_reverse] at hesp hwords
  refine ⟨?_, ⟨c.esp, hwords⟩, houtside, ?_⟩
  · rw [List.length_append] at hesp
    rw [← hesp, Nat.mul_add, ← Nat.add_assoc]
    rfl
  · rw [cs_pushes]
    exact (cs_pushes c _).trans hcs

theorem esp0_lt : esp0.toNat < 2 ^ 32 - 8 := by decide

theorem kernelStackBottom_lt_esp0 : kernelStackBottom + 0x7FFC = esp0.toNat := by decide

/-- The stacks of kernel tasks are in the kernel's. -/
def StackIn (cpu : Cpu) : Prop := frameEnd cpu ≤ esp0.toNat

/-- An interrupt comes to its entry with the stack of the interrupt, in the kernel's segment. -/
theorem exists_interrupt (cpu : Cpu) (handler : BitVec 32)
    (hend : kernelStackBottom + 52 ≤ frameEnd cpu) (hin : StackIn cpu) :
    ∃ c, cpu.interrupt gdtKernelDataSegment esp0 gdtKernelCodeSegment handler = c ∧
      Interrupted cpu c (interrupted cpu).last ∧ c.cs = gdtKernelCodeSegment := by
  have hlt := esp0_lt
  unfold StackIn at hin
  obtain ⟨⟨hesp, hwords, houtside⟩, hregs⟩ := interrupted_interruptStack cpu hend (by omega)
  exact ⟨_, rfl, ⟨⟨hesp, hwords, houtside⟩, hregs⟩, rfl⟩

theorem Interrupted.cli {c : Cpu} {ws : List (BitVec 32)} (h : Interrupted cpu c ws) :
    Interrupted cpu c.cli ws :=
  ⟨⟨h.esp, h.words, h.outside⟩, h.regs⟩

/-- `asm_irq0_timer` and `asm_irq1_keyboard` up to the call -/
theorem enter_irq (handler ra : BitVec 32) (hend : kernelStackBottom + 60 ≤ frameEnd cpu)
    (hin : StackIn cpu) : ∃ before frame,
      enter cpu handler (asmIrqEntry ra) = some before ∧ Entered cpu before [ra, frame] := by
  obtain ⟨c, hc, h, hcs⟩ := exists_interrupt cpu handler (by omega) hin
  have hcode : enter cpu handler (asmIrqEntry ra)
      = some (c.cli.pushad.pushes [c.cli.pushad.esp, ra]) := by
    unfold enter
    rw [hc]
    rfl
  exact ⟨_, _, hcode, h.cli.entered hcs [ra, c.cli.pushad.esp] hend⟩

/-- `asm_irq12_mouse` up to the call -/
theorem enter_irq12 (handler ra : BitVec 32) (hend : kernelStackBottom + 60 ≤ frameEnd cpu)
    (hin : StackIn cpu) : ∃ before,
      enter cpu handler (asmIrq12Entry ra) = some before ∧ Entered cpu before [ra] := by
  obtain ⟨c, hc, h, hcs⟩ := exists_interrupt cpu handler (by omega) hin
  have hcode : enter cpu handler (asmIrq12Entry ra) = some (c.cli.pushad.pushes [ra]) := by
    unfold enter
    rw [hc]
    rfl
  refine ⟨_, hcode, h.cli.entered hcs [ra] ?_⟩
  show kernelStackBottom + 52 + 4 ≤ _
  omega

/-- `asm_syscall` up to the call -/
theorem enter_syscall (handler ra : BitVec 32) (hring : Cpu.ring cpu.cs ≠ 0) :
    ∃ before number frame, enter cpu handler (asmSyscallEntry ra) = some before ∧
      Entered cpu before [ra, number, frame] := by
  have hstack := kernelStackBottom_lt_esp0
  have hend : frameEnd cpu = esp0.toNat := if_neg hring
  obtain ⟨c, hc, h, hcs⟩ := exists_interrupt cpu handler (by omega) (Nat.le_of_eq hend)
  have hcode : enter cpu handler (asmSyscallEntry ra)
      = some (c.pushad.pushes [c.pushad.esp, c.pushad.eax, ra]) := by
    unfold enter
    rw [hc]
    rfl
  refine ⟨_, _, _, hcode, h.entered hcs [ra, c.pushad.eax, c.pushad.esp] ?_⟩
  show kernelStackBottom + 52 + 12 ≤ _
  omega

/-- The memory that `task_save` leaves: the registers of the frame, and nothing else is new. -/
theorem taskSave_spec (m : Mem) {frame : Nat} (regs : Nat) {r : TaskRegisters}
    {reserved : BitVec 32} (hframe : m.Words frame (r.frame reserved))
    (hbelow : regs + 48 ≤ frame) :
    (taskSave m frame regs).Words regs r.words ∧
      ∀ a, a < regs ∨ regs + 48 ≤ a → taskSave m frame regs a = m a := by
  obtain ⟨hedi, hesi, hebp, -, hebx, hedx, hecx, heax, heip, hcs, heflags, hesp, hss, -⟩ := hframe
  constructor
  · -- no store is in the frame
    unfold taskSave
    simp (disch := omega) only [Mem.word_setWord_of_disjoint]
    rw [hedi, hesi, hebp, hebx, hedx, hecx, heax, heip, hcs, heflags, hesp, hss]
    simp (disch := omega) only [TaskRegisters.words, Mem.Words, Nat.add_assoc,
      Mem.word_setWord_self, Mem.word_setWord_of_disjoint, Nat.reduceAdd, and_self]
  · intro a ha
    unfold taskSave Mem.setWord
    rcases ha with ha | ha
    · simp (disch := omega) only [Mem.store_of_lt]
    · simp (disch := omega) only [Mem.store_of_ge]

/-- `iretd` from the kernel, with the last words of a frame on top of the stack: the registers
    are those of the frame, whatever its ring is. -/
theorem iret_spec {c : Cpu} {eip cs eflags esp ss : BitVec 32}
    (hwords : c.mem.Words c.esp.toNat [eip, cs, eflags, esp, ss])
    (hroom : c.esp.toNat + 20 < 2 ^ 32) (hcs : Cpu.ring c.cs = 0) :
    interrupted c.iret
        = ⟨c.edi, c.esi, c.ebp, c.ebx, c.edx, c.ecx, c.eax, eip, cs, eflags, esp, ss⟩ ∧
      c.iret.mem = c.mem ∧ (Cpu.ring c.iret.cs = 0 → frameEnd c.iret = c.esp.toNat + 20) := by
  have heip : c.stack 0 = eip := Cpu.stack_of_words hwords hroom 0 rfl
  have hnewcs : c.stack 1 = cs := Cpu.stack_of_words hwords hroom 1 rfl
  have heflags : c.stack 2 = eflags := Cpu.stack_of_words hwords hroom 2 rfl
  have hesp : c.stack 3 = esp := Cpu.stack_of_words hwords hroom 3 rfl
  have hss : c.stack 4 = ss := Cpu.stack_of_words hwords hroom 4 rfl
  unfold Cpu.iret
  rw [heip, hnewcs, heflags, hcs, hesp, hss]
  by_cases h0 : Cpu.ring cs = 0
  · -- the stack goes on behind the frame's own words
    have hesp' : (c.esp + 12).toNat = c.esp.toNat + 12 :=
      Cpu.toNat_add_disp (show c.esp.toNat + 12 < 2 ^ 32 by omega)
    have htop : c.mem.Words (c.esp + 12).toNat [esp, ss] := by
      rw [hesp']
      exact hwords.2.2.2
    have hroom' : (c.esp + 12).toNat + 8 < 2 ^ 32 := by omega
    rw [if_pos h0]
    unfold interrupted frameEnd
    dsimp only
    rw [if_pos h0, if_pos h0, if_pos h0]
    refine ⟨?_, rfl, fun _ => by omega⟩
    rw [Cpu.stack_of_words htop hroom' 0 (v := esp) rfl,
      Cpu.stack_of_words htop hroom' 1 (v := ss) rfl]
  · -- `esp` and `ss` are taken from the frame
    rw [if_neg h0]
    unfold interrupted
    dsimp only
    rw [if_neg h0, if_neg h0]
    exact ⟨rfl, rfl, fun hring => absurd hring h0⟩

/-- The registers of a task that are to be loaded, read through `ebx` -/
theorem value_regs {c : Cpu} {regs v disp : BitVec 32} {r : TaskRegisters} (hebx : c.ebx = regs)
    (hregs : c.mem.Words regs.toNat r.words) (hroom : regs.toNat + 48 < 2 ^ 32) (i : Nat)
    (hdisp : disp.toNat = 4 * i) (hi : r.words[i]? = some v) : c.value (.mem .ebx disp) = v := by
  have hlt : i < 12 := (List.getElem?_eq_some_iff.mp hi).1
  show c.mem.word (c.ebx + disp).toNat = v
  rw [hebx, Cpu.toNat_add_disp (by omega), hdisp]
  exact hregs.get hi

/-- `asm_task_restore_register` loads all registers but `ebp`. -/
theorem exec_restoreRegister {d : Cpu} {regs ra : BitVec 32} {r : TaskRegisters}
    (hstack : d.mem.Words d.esp.toNat [ra, regs]) (hregs : d.mem.Words regs.toNat r.words)
    (hbelow : regs.toNat + 52 ≤ d.esp.toNat) (hroom : d.esp.toNat + 8 < 2 ^ 32) :
    Cpu.exec (asmTaskRestoreRegister ra) d = some { d with
      edi := r.edi, esi := r.esi, edx := r.edx, ecx := r.ecx, eax := r.eax, ebx := r.ebx
      esp := d.esp + 4, mem := (d.push d.ebp).mem } := by
  -- the processor when `ebp` has been saved
  obtain ⟨e, he⟩ : ∃ e, e = d.push d.ebp := ⟨_, rfl⟩
  have hpushed : d.Pushed [d.ebp] e := by
    rw [he]
    exact d.pushed_pushes [d.ebp] (by
      show 4 ≤ _
      omega)
  have hesp : e.esp.toNat + 4 = d.esp.toNat := hpushed.esp
  have hwords : e.mem.Words e.esp.toNat [d.ebp, ra, regs] := hpushed.stacked hstack
  have hread : e.mem.Words regs.toNat r.words :=
    hregs.congr (hpushed.agree (.inl (by
      show regs.toNat + 48 ≤ _
      omega)))
  have hframe : e.mem.word (e.esp + 8).toNat = regs :=
    Cpu.stack_of_words hwords (by
      show e.esp.toNat + 12 < _
      omega) 2 rfl
  -- `pop` and `ret` take the two words in front of the argument
  have hback : e.esp + 4 = d.esp := by
    apply BitVec.eq_of_toNat_eq
    rw [Cpu.toNat_add_disp (show e.esp.toNat + 4 < 2 ^ 32 by omega)]
    exact hesp
  have htop : e.stack 0 = d.ebp := Cpu.stack_of_words hwords (by
    show e.esp.toNat + 12 < _
    omega) 0 rfl
  have hra : ({ e with esp := e.esp + 4 } : Cpu).stack 0 = ra := by
    have hnext : ({ e with esp := e.esp + 4 } : Cpu).mem.Words (e.esp + 4).toNat [ra, regs] := by
      rw [hback, ← hesp]
      exact hwords.2
    refine Cpu.stack_of_words hnext ?_ 0 rfl
    show (e.esp + 4).toNat + 8 < _
    rw [hback]
    exact hroom
  -- every load reads the registers through `ebx`, which is loaded last
  have hload := fun (c : Cpu) (v disp : BitVec 32) (hebx : c.ebx = regs) (hmem : c.mem = e.mem) =>
    (fun i => value_regs hebx (hmem ▸ hread) (by omega) i :
      ∀ i, disp.toNat = 4 * i → r.words[i]? = some v → c.value (.mem .ebx disp) = v)
  unfold asmTaskRestoreRegister
  refine Cpu.exec_push_of (v := d.ebp) rfl ?_
  rw [← he]
  refine Cpu.exec_mov_of (v := e.esp) rfl ?_
  refine Cpu.exec_mov_of (v := regs) hframe ?_
  refine Cpu.exec_mov_of (v := r.edi) (hload _ _ _ rfl rfl 0 rfl rfl) ?_
  refine Cpu.exec_mov_of (v := r.esi) (hload _ _ _ rfl rfl 1 rfl rfl) ?_
  refine Cpu.exec_mov_of (v := r.ebp) (hload _ _ _ rfl rfl 2 rfl rfl) ?_
  refine Cpu.exec_mov_of (v := r.edx) (hload _ _ _ rfl rfl 4 rfl rfl) ?_
  refine Cpu.exec_mov_of (v := r.ecx) (hload _ _ _ rfl rfl 5 rfl rfl) ?_
  refine Cpu.exec_mov_of (v := r.eax) (hload _ _ _ rfl rfl 6 rfl rfl) ?_
  refine Cpu.exec_mov_of (v := r.ebx) (hload _ _ _ rfl rfl 3 rfl rfl) ?_
  refine Cpu.exec_pop_of (v := d.ebp) htop ?_
  refine Cpu.exec_ret_of hra ?_
  rw [he] at hback ⊢
  show some _ = some _
  rw [← hback]
  rfl

/-- The processor goes on with the registers `r` after an interrupt whose frame ended at
    `last`, and the memory is `m`. -/
structure Continues (cpu : Cpu) (r : TaskRegisters) (last : Nat) (m : Mem) : Prop where
  regs : interrupted cpu = r
  mem : cpu.mem = m
  frameEnd : Cpu.ring cpu.cs = 0 → frameEnd cpu = last

/-- The segment registers are loaded through `ax`. -/
theorem exec_loadSegments (c : Cpu) (o : Operand) (is : List Instr) : ∃ ax s,
    Cpu.exec (.mov16 .eax o :: .movSeg .ds .eax :: .movSeg .es .eax :: .movSeg .fs .eax ::
      .movSeg .gs .eax :: is) c
      = Cpu.exec is { c with eax := ax, ds := s, es := s, fs := s, gs := s } := ⟨_, _, rfl⟩

/-- `asm_enter_task` up to `asm_task_restore_register`: it pushes a frame for `iretd`, with
    interrupts enabled in `eflags`, the registers to be loaded and the return address. -/
theorem exec_enterTask_frame {c : Cpu} {regs : BitVec 32} (ra : BitVec 32) {r : TaskRegisters}
    (harg : c.mem.word (c.esp.toNat + 4) = regs) (hregs : c.mem.Words regs.toNat r.words)
    (hbelow : regs.toNat + 80 ≤ c.esp.toNat) (hroom : c.esp.toNat + 8 < 2 ^ 32) :
    ∃ ax seg, Cpu.exec (asmEnterTask ra) c
      = Cpu.exec (asmTaskRestoreRegister ra ++ [.add .esp 4, .iretd])
          (({ c with
              ebp := c.esp, ebx := regs, eax := ax, ds := seg, es := seg, fs := seg
              gs := seg } : Cpu).pushes
            [r.ss, r.esp, r.eflags ||| 0x200, r.cs, r.eip, regs, ra]) := by
  -- pushing moves neither the registers of the task nor the argument
  have hload : ∀ (d : Cpu) (pre : List (BitVec 32)) (v disp : BitVec 32), d.esp = c.esp →
      d.mem = c.mem → d.ebx = regs → pre.length < 8 → ∀ i, disp.toNat = 4 * i →
      r.words[i]? = some v → (d.pushes pre).value (.mem .ebx disp) = v := by
    intro d pre v disp hesp hmem hebx hpre i hdisp hi
    have hpushed := d.pushed_pushes pre (by rw [hesp]; omega)
    have hlow := hpushed.esp
    rw [hesp] at hlow
    refine value_regs (?_ : _ = regs) ?_ (by omega) i hdisp hi
    · rw [hpushed.rest]
      exact hebx
    · refine (hmem ▸ hregs : d.mem.Words _ _).congr (hpushed.agree (.inl ?_))
      show regs.toNat + 48 ≤ _
      omega
  have harg' : ∀ (d : Cpu) (pre : List (BitVec 32)), d.esp = c.esp → d.mem = c.mem →
      d.ebp = c.esp → pre.length < 8 → (d.pushes pre).value (.mem .ebp 4) = regs := by
    intro d pre hesp hmem hebp hpre
    have hpushed := d.pushed_pushes pre (by rw [hesp]; omega)
    have haddr : ((d.pushes pre).ebp + 4).toNat = c.esp.toNat + 4 := by
      rw [hpushed.rest]
      show (d.ebp + 4).toNat = _
      rw [hebp]
      exact Cpu.toNat_add_disp (show c.esp.toNat + 4 < 2 ^ 32 by omega)
    show (d.pushes pre).mem.word ((d.pushes pre).ebp + 4).toNat = regs
    rw [haddr, ← harg, ← hmem]
    refine Mem.word_congr (hpushed.agree (.inr ?_))
    rw [hesp]
    exact Nat.le_add_right _ 4
  have harg0 : c.mem.word (c.esp + 4).toNat = regs := by
    rw [Cpu.toNat_add_disp (show c.esp.toNat + 4 < 2 ^ 32 by omega)]
    exact harg
  let c1 : Cpu := { c with ebp := c.esp, ebx := regs }
  let c2 : Cpu := { c1 with eax := r.eflags ||| 0x200 }
  -- the five words of the frame, `ss` first; `eflags` goes through `eax`
  have hframe : Cpu.exec (asmEnterTask ra) c = Cpu.exec (.mov16 .eax (.mem .ebx 44) ::
      .movSeg .ds .eax :: .movSeg .es .eax :: .movSeg .fs .eax :: .movSeg .gs .eax ::
      .push (.mem .ebp 4) :: .call ra :: (asmTaskRestoreRegister ra ++ [.add .esp 4, .iretd]))
      (c2.pushes [r.ss, r.esp, r.eflags ||| 0x200, r.cs, r.eip]) := by
    unfold asmEnterTask
    simp only [List.cons_append, List.nil_append]
    refine Cpu.exec_mov_of (v := c.esp) rfl ?_
    refine Cpu.exec_mov_of (v := regs) harg0 ?_
    refine Cpu.exec_push_of (v := r.ss) (hload c1 [] _ 44 rfl rfl rfl (by decide) 11 rfl rfl) ?_
    refine Cpu.exec_push_of (v := r.esp)
      (hload c1 [r.ss] _ 40 rfl rfl rfl (by simp) 10 rfl rfl) ?_
    refine Cpu.exec_mov_of (v := r.eflags)
      (hload c1 [r.ss, r.esp] _ 36 rfl rfl rfl (by simp) 9 rfl rfl) ?_
    refine Cpu.exec_cons_of rfl ?_
    show Cpu.exec _ (c2.pushes [r.ss, r.esp]) = _
    refine Cpu.exec_push_of (v := r.eflags ||| 0x200) rfl ?_
    refine Cpu.exec_push_of (v := r.cs)
      (hload c2 [r.ss, r.esp, r.eflags ||| 0x200] _ 32 rfl rfl rfl (by simp) 8 rfl rfl) ?_
    refine Cpu.exec_push_of (v := r.eip)
      (hload c2 [r.ss, r.esp, r.eflags ||| 0x200, r.cs] _ 28 rfl rfl rfl (by simp) 7 rfl rfl) ?_
    rfl
  obtain ⟨ax, seg, hsegments⟩ := exec_loadSegments
    (c2.pushes [r.ss, r.esp, r.eflags ||| 0x200, r.cs, r.eip]) (.mem .ebx 44)
    (.push (.mem .ebp 4) :: .call ra :: (asmTaskRestoreRegister ra ++ [.add .esp 4, .iretd]))
  -- the processor before the words were pushed
  let c3 : Cpu := { c2 with eax := ax, ds := seg, es := seg, fs := seg, gs := seg }
  refine ⟨ax, seg, ?_⟩
  rw [hframe, hsegments]
  show Cpu.exec _ (c3.pushes [r.ss, r.esp, r.eflags ||| 0x200, r.cs, r.eip]) = _
  refine Cpu.exec_push_of (v := regs) (harg' c3 [r.ss, r.esp, r.eflags ||| 0x200, r.cs, r.eip]
    rfl rfl rfl (by simp)) ?_
  exact Cpu.exec_cons_of rfl rfl

/-- `asm_enter_task` goes on with the registers of a task.  `ebp` is the stack pointer of the
    kernel, which `asm_task_restore_register` has saved and restores. -/
theorem exec_enterTask {c : Cpu} {regs ra : BitVec 32} {r : TaskRegisters}
    (harg : c.mem.word (c.esp.toNat + 4) = regs) (hregs : c.mem.Words regs.toNat r.words)
    (hbelow : regs.toNat + 80 ≤ c.esp.toNat) (hroom : c.esp.toNat + 8 < 2 ^ 32)
    (hcs : c.cs = gdtKernelCodeSegment) :
    ∃ cpu m, Cpu.exec (asmEnterTask ra) c = some cpu ∧
      Continues cpu (Tasks.resumed r c.esp) c.esp.toNat m ∧
      ∀ a, a + 32 < c.esp.toNat ∨ c.esp.toNat ≤ a → m a = c.mem a := by
  -- the seven words on the stack when `asm_task_restore_register` begins
  obtain ⟨words, hw⟩ : ∃ words, words =
      [r.ss, r.esp, r.eflags ||| 0x200, r.cs, r.eip, regs, ra] := ⟨_, rfl⟩
  have hlen : words.length = 7 := by rw [hw]; rfl
  obtain ⟨ax, seg, hcall⟩ := exec_enterTask_frame ra harg hregs hbelow hroom
  -- the processor before the words were pushed
  let c3 : Cpu := { c with
    ebp := c.esp, ebx := regs, eax := ax, ds := seg, es := seg, fs := seg, gs := seg }
  replace hcall : Cpu.exec (asmEnterTask ra) c
      = Cpu.exec (asmTaskRestoreRegister ra ++ [.add .esp 4, .iretd]) (c3.pushes words) := by
    rw [hcall, hw]
  have hpushed := c3.pushed_pushes words (by
    rw [hlen]
    show 28 ≤ c.esp.toNat
    omega)
  obtain ⟨d, hd⟩ : ∃ d, d = c3.pushes words := ⟨_, rfl⟩
  rw [← hd] at hpushed hcall
  have hesp : d.esp.toNat + 28 = c.esp.toNat := by
    have hlow := hpushed.esp
    rw [hlen] at hlow
    exact hlow
  have hwords : d.mem.Words d.esp.toNat
      [ra, regs, r.eip, r.cs, r.eflags ||| 0x200, r.esp, r.ss] := by
    have hall := hpushed.words
    rw [hw] at hall
    exact hall
  have hrest := hpushed.rest
  have hread : d.mem.Words regs.toNat r.words := by
    refine hregs.congr (hpushed.agree (.inl ?_))
    show regs.toNat + 48 ≤ _
    omega
  have hrestore := exec_restoreRegister (d := d) ⟨hwords.1, hwords.2.1, trivial⟩ hread
    (by omega) (by omega)
  have htop := d.pushed_pushes [d.ebp] (by
    show 4 ≤ _
    omega)
  have htopesp : (d.pushes [d.ebp]).esp.toNat + 4 = d.esp.toNat := htop.esp
  -- the processor before `iretd`
  obtain ⟨f, hf⟩ : ∃ f : Cpu, f = { d with
      edi := r.edi, esi := r.esi, edx := r.edx, ecx := r.ecx, eax := r.eax, ebx := r.ebx
      esp := d.esp + 4 + 4, mem := (d.pushes [d.ebp]).mem } := ⟨_, rfl⟩
  have hfesp : f.esp.toNat = d.esp.toNat + 8 := by
    have h4 : (d.esp + 4).toNat = d.esp.toNat + 4 :=
      Cpu.toNat_add_disp (show d.esp.toNat + 4 < 2 ^ 32 by omega)
    rw [hf]
    show (d.esp + 4 + 4).toNat = _
    rw [Cpu.toNat_add_disp (show (d.esp + 4).toNat + 4 < 2 ^ 32 by omega), h4]
    rfl
  have hfmem : f.mem = (d.pushes [d.ebp]).mem := by rw [hf]
  have hfwords : f.mem.Words f.esp.toNat [r.eip, r.cs, r.eflags ||| 0x200, r.esp, r.ss] := by
    rw [hfesp, hfmem]
    refine hwords.2.2.congr (htop.agree (.inr ?_))
    omega
  have hfcs : Cpu.ring f.cs = 0 := by
    have hcs' : f.cs = c.cs := by
      rw [hf, hrest]
    rw [hcs', hcs]
    rfl
  have hfebp : f.ebp = c.esp := by
    rw [hf, hrest]
  obtain ⟨hregs', hmem', hend'⟩ := iret_spec hfwords (by omega) hfcs
  refine ⟨f.iret, f.mem, ?_, ⟨?_, hmem', fun hring => ?_⟩, fun a ha => ?_⟩
  · rw [hcall, Cpu.exec_append_of hrestore, hf]
    rfl
  · rw [hregs', hfebp, hf]
    rfl
  · rw [hend' hring]
    omega
  · rw [hfmem, htop.frame a (by omega), hpushed.frame a (by
      show a < d.esp.toNat ∨ c.esp.toNat ≤ a
      omega)]

/-- `popad` takes the registers from the stack, and what is behind them is on top then. -/
theorem popad_spec {d : Cpu} {r : TaskRegisters} {reserved : BitVec 32} {ws : List (BitVec 32)}
    (hwords : d.mem.Words d.esp.toNat (r.general reserved ++ ws))
    (hroom : d.esp.toNat + 32 + 4 * ws.length < 2 ^ 32) :
    d.popad = { d with
        edi := r.edi, esi := r.esi, ebp := r.ebp, ebx := r.ebx, edx := r.edx, ecx := r.ecx
        eax := r.eax, esp := d.esp + 32 } ∧
      (d.esp + 32).toNat = d.esp.toNat + 32 ∧ d.mem.Words (d.esp + 32).toNat ws := by
  have hall : d.esp.toNat + 4 * (r.general reserved ++ ws).length < 2 ^ 32 := by
    rw [List.length_append, Nat.mul_add, ← Nat.add_assoc]
    exact hroom
  have hedi : d.stack 0 = r.edi := Cpu.stack_of_words hwords hall 0 rfl
  have hesi : d.stack 1 = r.esi := Cpu.stack_of_words hwords hall 1 rfl
  have hebp : d.stack 2 = r.ebp := Cpu.stack_of_words hwords hall 2 rfl
  have hebx : d.stack 4 = r.ebx := Cpu.stack_of_words hwords hall 4 rfl
  have hedx : d.stack 5 = r.edx := Cpu.stack_of_words hwords hall 5 rfl
  have hecx : d.stack 6 = r.ecx := Cpu.stack_of_words hwords hall 6 rfl
  have heax : d.stack 7 = r.eax := Cpu.stack_of_words hwords hall 7 rfl
  have hesp : (d.esp + 32).toNat = d.esp.toNat + 32 :=
    Cpu.toNat_add_disp (show d.esp.toNat + 32 < 2 ^ 32 by omega)
  refine ⟨?_, hesp, ?_⟩
  · unfold Cpu.popad
    rw [hedi, hesi, hebp, hebx, hedx, hecx, heax]
  · rw [hesp]
    exact (Mem.words_append.mp hwords).2

/-- Behind the words that the entry has pushed, `popad` and `iretd` take the registers from the
    frame. -/
theorem continues_popad {c : Cpu} {r : TaskRegisters} {reserved e : BitVec 32}
    (extra : List (BitVec 32)) (hwords : c.mem.Words c.esp.toNat (extra ++ r.frame reserved))
    (hroom : c.esp.toNat + 4 * extra.length + 52 < 2 ^ 32) (hcs : c.cs = gdtKernelCodeSegment)
    (he : e.toNat = c.esp.toNat + 4 * extra.length) (f : BitVec 32) :
    Continues (Cpu.iret { Cpu.popad { c with esp := e } with eflags := f }) r
      (c.esp.toNat + 4 * extra.length + 52) c.mem := by
  obtain ⟨d, hd⟩ : ∃ d : Cpu, d = { c with esp := e } := ⟨_, rfl⟩
  have hdesp : d.esp.toNat = c.esp.toNat + 4 * extra.length := by
    rw [hd]
    exact he
  have hframe : d.mem.Words d.esp.toNat (r.general reserved ++ r.last) := by
    rw [hdesp, hd]
    exact (Mem.words_append.mp hwords).2
  obtain ⟨hpopad, hesp, hlast⟩ := popad_spec hframe (by
    show d.esp.toNat + 32 + 20 < _
    omega)
  rw [← hd, hpopad]
  -- the processor before `iretd`
  obtain ⟨g, hg⟩ : ∃ g : Cpu, g = { d with
      edi := r.edi, esi := r.esi, ebp := r.ebp, ebx := r.ebx, edx := r.edx, ecx := r.ecx
      eax := r.eax, esp := d.esp + 32, eflags := f } := ⟨_, rfl⟩
  have hgesp : g.esp.toNat = d.esp.toNat + 32 := by
    rw [hg]
    exact hesp
  have htop : g.mem.Words g.esp.toNat r.last := by
    rw [hg]
    exact hlast
  have hring : Cpu.ring g.cs = 0 := by
    rw [hg, hd]
    show Cpu.ring c.cs = 0
    rw [hcs]
    rfl
  obtain ⟨hregs, hmem, hend⟩ := iret_spec htop (by omega) hring
  rw [← hg]
  refine ⟨?_, ?_, fun hring => ?_⟩
  · rw [hregs, hg]
  · rw [hmem, hg, hd]
  · rw [hend hring]
    omega

/-- The end of `asm_irq0_timer` and of `asm_irq1_keyboard` -/
theorem exec_irqReturn {c : Cpu} {r : TaskRegisters} {frame reserved : BitVec 32}
    (hwords : c.mem.Words c.esp.toNat ([ra, frame] ++ r.frame reserved))
    (hroom : c.esp.toNat + 60 < 2 ^ 32) (hcs : c.cs = gdtKernelCodeSegment) :
    ∃ cpu, Cpu.exec (asmIrqReturn ra) c = some cpu ∧
      Continues cpu r (c.esp.toNat + 60) c.mem := by
  have hra : c.stack 0 = ra := Cpu.stack_of_words hwords hroom 0 rfl
  have hesp : (c.esp + 4 + 4).toNat = c.esp.toNat + 8 := by
    rw [BitVec.add_assoc]
    exact Cpu.toNat_add_disp (show c.esp.toNat + 8 < 2 ^ 32 by omega)
  have hcontinues := continues_popad [ra, frame] hwords hroom hcs hesp
    ((Cpu.popad { c with esp := c.esp + 4 + 4 }).eflags ||| Cpu.interruptFlag)
  exact ⟨_, Cpu.exec_ret_of hra rfl, hcontinues⟩

/-- The end of `asm_irq12_mouse` -/
theorem exec_irq12Return {c : Cpu} {r : TaskRegisters} {reserved : BitVec 32}
    (hwords : c.mem.Words c.esp.toNat ([ra] ++ r.frame reserved))
    (hroom : c.esp.toNat + 56 < 2 ^ 32) (hcs : c.cs = gdtKernelCodeSegment) :
    ∃ cpu, Cpu.exec (asmIrq12Return ra) c = some cpu ∧
      Continues cpu r (c.esp.toNat + 56) c.mem := by
  have hra : c.stack 0 = ra := Cpu.stack_of_words hwords hroom 0 rfl
  have hesp : (c.esp + 4).toNat = c.esp.toNat + 4 :=
    Cpu.toNat_add_disp (show c.esp.toNat + 4 < 2 ^ 32 by omega)
  have hcontinues := continues_popad [ra] hwords hroom hcs hesp
    ((Cpu.popad { c with esp := c.esp + 4 }).eflags ||| Cpu.interruptFlag)
  exact ⟨_, Cpu.exec_ret_of hra rfl, hcontinues⟩

/-- The end of `asm_syscall` -/
theorem exec_syscallReturn {c : Cpu} {r : TaskRegisters} {number frame reserved : BitVec 32}
    (hwords : c.mem.Words c.esp.toNat ([ra, number, frame] ++ r.frame reserved))
    (hroom : c.esp.toNat + 64 < 2 ^ 32) (hcs : c.cs = gdtKernelCodeSegment) :
    ∃ cpu, Cpu.exec (asmSyscallReturn ra) c = some cpu ∧
      Continues cpu r (c.esp.toNat + 64) c.mem := by
  have hra : c.stack 0 = ra := Cpu.stack_of_words hwords hroom 0 rfl
  have hesp : (c.esp + 4 + 8).toNat = c.esp.toNat + 12 := by
    rw [BitVec.add_assoc]
    exact Cpu.toNat_add_disp (show c.esp.toNat + 12 < 2 ^ 32 by omega)
  have hcontinues := continues_popad [ra, number, frame] hwords hroom hcs hesp
    (Cpu.popad { c with esp := c.esp + 4 + 8 }).eflags
  exact ⟨_, Cpu.exec_ret_of hra rfl, hcontinues⟩

end Enter

/-! ## One step -/

/-- Where the tasks are: in the kernel's memory below its stack, and apart from each other -/
structure Placed (tasks : List Nat) : Prop where
  inside : ∀ t ∈ tasks, kernelVirtualStart ≤ t ∧
    t + taskRegistersOffset + 48 ≤ kernelStackBottom
  apart : ∀ t ∈ tasks, ∀ u ∈ tasks, t ≠ u →
    t + taskRegistersOffset + 48 ≤ u + taskRegistersOffset ∨
      u + taskRegistersOffset + 48 ≤ t + taskRegistersOffset

/-- The tasks, in the processor and in memory -/
structure Shows (tasks : List Nat) (s : Switching) (t : Tasks) : Prop where
  curr : t.curr = s.curr
  known : s.curr ∈ tasks
  running : interrupted s.cpu = t.running
  stack : StackIn s.cpu
  saved : ∀ u ∈ tasks, u ≠ s.curr →
    s.cpu.mem.Words (u + taskRegistersOffset) (t.saved u).words

section Step

variable {tasks : List Nat} {s s' : Switching} {t : Tasks} {cpu before left : Cpu}
  {extra : List (BitVec 32)}

/-- The registers of the tasks in two memories -/
def AgreeTasks (tasks : List Nat) (m m' : Mem) : Prop :=
  ∀ u ∈ tasks, Agree m m' (u + taskRegistersOffset) 48

theorem agree_keeping_stack (tasks : List Nat) (m left : Mem) {esp a n : Nat} (hle : esp ≤ a)
    (hend : a + n ≤ kernelStackBottom + kernelStackSize) :
    Agree m (keeping tasks esp m left) a n :=
  fun x hx hlt => if_pos (.inl ⟨by omega, by omega⟩)

theorem agreeTasks_keeping (tasks : List Nat) (esp : Nat) (m left : Mem) :
    AgreeTasks tasks m (keeping tasks esp m left) :=
  fun u hu _ hle hlt => if_pos (.inr ⟨u, hu, hle, hlt⟩)

theorem AgreeTasks.words {m m' : Mem} (h : AgreeTasks tasks m m') {u : Nat} (hu : u ∈ tasks)
    {r : TaskRegisters} (hwords : m.Words (u + taskRegistersOffset) r.words) :
    m'.Words (u + taskRegistersOffset) r.words := hwords.congr (h u hu)

theorem AgreeTasks.trans {m m' m'' : Mem} (h : AgreeTasks tasks m m')
    (h' : AgreeTasks tasks m' m'') : AgreeTasks tasks m m'' := by
  intro u hu x hle hlt
  rw [h' u hu x hle hlt, h u hu x hle hlt]

/-- What is above the bottom of the kernel's stack is no task's. -/
theorem agreeTasks_of_below (hplaced : Placed tasks) {m m' : Mem}
    (h : ∀ a, a < kernelStackBottom → m' a = m a) : AgreeTasks tasks m m' := by
  intro u hu x _ hlt
  have hin := (hplaced.inside u hu).2
  exact h x (by omega)

theorem Continues.stackIn {r : TaskRegisters} {last : Nat} {m : Mem}
    (h : Continues cpu r last m) (hlast : last ≤ esp0.toNat) : StackIn cpu := by
  unfold StackIn
  by_cases h0 : Cpu.ring cpu.cs = 0
  · rw [h.frameEnd h0]
    exact hlast
  · exact Nat.le_of_eq (if_neg h0)

theorem Entered.bottom_le (h : Entered cpu before extra)
    (hend : kernelStackBottom + 52 + 4 * extra.length ≤ frameEnd cpu) :
    kernelStackBottom ≤ before.esp.toNat := by
  have hesp := h.esp
  omega

/-- Up to the C code no task's registers change. -/
theorem Entered.agreeTasks (h : Entered cpu before extra) (hplaced : Placed tasks)
    (hend : kernelStackBottom + 52 + 4 * extra.length ≤ frameEnd cpu) :
    AgreeTasks tasks cpu.mem before.mem :=
  agreeTasks_of_below hplaced fun a ha =>
    h.outside a (.inl (Nat.lt_of_lt_of_le ha (h.bottom_le hend)))

/-- What C code that returns leaves of the words on its stack -/
theorem Entered.words_keeping (h : Entered cpu before extra) (tasks : List Nat)
    (hin : StackIn cpu) (left : Mem) {m : Mem}
    (hm : Agree before.mem m before.esp.toNat (4 * extra.length + 52)) :
    ∃ reserved, (keeping tasks before.esp.toNat m left).Words before.esp.toNat
      (extra ++ (interrupted cpu).frame reserved) := by
  obtain ⟨reserved, hwords⟩ := h.words
  have hesp := h.esp
  have hstack := kernelStackBottom_lt_esp0
  have hsize : kernelStackSize = 0x8000 := rfl
  have hlen : (extra ++ (interrupted cpu).frame reserved).length = extra.length + 13 :=
    List.length_append
  unfold StackIn at hin
  refine ⟨reserved, (hwords.congr ?_).congr (agree_keeping_stack tasks m left (Nat.le_refl _) ?_)⟩
  · rw [hlen]
    exact hm
  · omega

theorem Continues.frameEnd_eq {r : TaskRegisters} {last : Nat} {m : Mem}
    (h : Continues cpu r last m) :
    Switching.frameEnd cpu = if Cpu.ring r.cs = 0 then last else esp0.toNat := by
  have hcs : cpu.cs = r.cs := congrArg TaskRegisters.cs h.regs
  by_cases h0 : Cpu.ring cpu.cs = 0
  · rw [h.frameEnd h0, if_pos (hcs ▸ h0)]
  · rw [if_neg (hcs ▸ h0)]
    exact if_neg h0

/-- Where the frame of the next interrupt ends -/
def frameEndAfter (s : Switching) (r : TaskRegisters) : SwitchEvent → Nat
  | .tick _ esp _ | .exit _ esp _ => if Cpu.ring r.cs = 0 then esp.toNat else esp0.toNat
  | _ => frameEnd s.cpu

/-- The current task goes on with the registers `r`. -/
theorem Shows.of_continues (h : Shows tasks s t) {r : TaskRegisters} {m : Mem}
    (hcontinues : Continues cpu r (frameEnd s.cpu) m) (hcs : r.cs = t.running.cs)
    (hm : ∀ u ∈ tasks, u ≠ s.curr → Agree s.cpu.mem m (u + taskRegistersOffset) 48) :
    Shows tasks { s with cpu := cpu } { t with running := r } ∧
      frameEnd cpu = frameEnd s.cpu := by
  refine ⟨⟨h.curr, h.known, hcontinues.regs, hcontinues.stackIn h.stack, fun u hu hne => ?_⟩, ?_⟩
  · have hsaved := h.saved u hu hne
    rw [← hcontinues.mem] at hm
    exact hsaved.congr (hm u hu hne)
  · have hrunning : s.cpu.cs = t.running.cs := congrArg TaskRegisters.cs h.running
    rw [hcontinues.frameEnd_eq, hcs, ← hrunning]
    by_cases h0 : Cpu.ring s.cpu.cs = 0
    · exact if_pos h0
    · rw [if_neg h0]
      exact (if_neg h0).symm

/-- An interrupt whose handler returns changes no register of any task. -/
theorem Shows.returns (h : Shows tasks s t) (hplaced : Placed tasks)
    (hentered : Entered s.cpu before extra)
    (hend : kernelStackBottom + 52 + 4 * extra.length ≤ frameEnd s.cpu) {left : Mem}
    (hcontinues : Continues cpu (interrupted s.cpu) (frameEnd s.cpu)
      (keeping tasks before.esp.toNat before.mem left)) :
    Shows tasks { s with cpu := cpu } t ∧ frameEnd cpu = frameEnd s.cpu := by
  have hagree := (hentered.agreeTasks hplaced hend).trans
    (agreeTasks_keeping tasks before.esp.toNat before.mem left)
  have hreturned := h.of_continues hcontinues (by rw [h.running]) fun u hu _ => hagree u hu
  rw [h.running] at hreturned
  exact hreturned

/-- A key -/
theorem Shows.key (h : Shows tasks s t) (hplaced : Placed tasks) (entries : Entries) (left : Cpu)
    (hend : kernelStackBottom + 60 ≤ frameEnd s.cpu) :
    ∃ s', step tasks entries s (.key left) = some s' ∧ Shows tasks s' t ∧
      frameEnd s'.cpu = frameEnd s.cpu := by
  obtain ⟨before, frame, henter, hentered⟩ := enter_irq entries.irq1 entries.ra hend h.stack
  have hesp : before.esp.toNat + 60 = frameEnd s.cpu := hentered.esp
  have hlt := esp0_lt
  have hin : frameEnd s.cpu ≤ esp0.toNat := h.stack
  -- the C code returns to the wrapper with its words still on the stack
  obtain ⟨reserved, hwords⟩ := hentered.words_keeping tasks h.stack left.mem
    fun _ _ _ => rfl
  obtain ⟨cpu, hreturn, hcontinues⟩ := exec_irqReturn
    (c := returned before left (keeping tasks before.esp.toNat before.mem left.mem)) hwords (by
      show before.esp.toNat + 60 < _
      omega) hentered.cs
  refine ⟨{ s with cpu := cpu }, ?_, h.returns hplaced hentered hend (hesp ▸ hcontinues)⟩
  unfold step
  rw [henter]
  show (Cpu.exec _ _).bind _ = _
  rw [hreturn]
  rfl

/-- The mouse, whose handler has no argument -/
theorem Shows.mouse (h : Shows tasks s t) (hplaced : Placed tasks) (entries : Entries) (left : Cpu)
    (hend : kernelStackBottom + 60 ≤ frameEnd s.cpu) :
    ∃ s', step tasks entries s (.mouse left) = some s' ∧ Shows tasks s' t ∧
      frameEnd s'.cpu = frameEnd s.cpu := by
  obtain ⟨before, henter, hentered⟩ := enter_irq12 entries.irq12 entries.ra hend h.stack
  have hesp : before.esp.toNat + 56 = frameEnd s.cpu := hentered.esp
  have hlt := esp0_lt
  have hin : frameEnd s.cpu ≤ esp0.toNat := h.stack
  have hroom : kernelStackBottom + 52 + 4 * 1 ≤ frameEnd s.cpu := by omega
  obtain ⟨reserved, hwords⟩ := hentered.words_keeping tasks h.stack left.mem
    fun _ _ _ => rfl
  obtain ⟨cpu, hreturn, hcontinues⟩ := exec_irq12Return
    (c := returned before left (keeping tasks before.esp.toNat before.mem left.mem)) hwords (by
      show before.esp.toNat + 56 < _
      omega) hentered.cs
  refine ⟨{ s with cpu := cpu }, ?_, h.returns hplaced hentered hroom (hesp ▸ hcontinues)⟩
  unfold step
  rw [henter]
  show (Cpu.exec _ _).bind _ = _
  rw [hreturn]
  rfl

/-- `task_save` writes the registers of the current task only. -/
theorem agree_taskSave (hplaced : Placed tasks) {m : Mem} {frame curr u : Nat}
    (hcurr : curr ∈ tasks) (hu : u ∈ tasks) (hne : u ≠ curr)
    (hsave : ∀ a, a < curr + taskRegistersOffset ∨ curr + taskRegistersOffset + 48 ≤ a →
      taskSave m frame (curr + taskRegistersOffset) a = m a) :
    Agree m (taskSave m frame (curr + taskRegistersOffset)) (u + taskRegistersOffset) 48 := by
  have hapart := hplaced.apart u hu curr hcurr hne
  intro x hle hlt
  exact hsave x (by omega)

/-- What `task_save` does when the C code of a handler begins -/
theorem Entered.taskSave (h : Entered cpu before extra) (hplaced : Placed tasks) {curr : Nat}
    (hcurr : curr ∈ tasks) (hend : kernelStackBottom + 52 + 4 * extra.length ≤ frameEnd cpu)
    {m : Mem} (hm : m = taskSave before.mem (before.esp.toNat + 4 * extra.length)
      (curr + taskRegistersOffset)) :
    m.Words (curr + taskRegistersOffset) (interrupted cpu).words ∧
      (∀ u ∈ tasks, u ≠ curr → Agree cpu.mem m (u + taskRegistersOffset) 48) ∧
      ∀ a, kernelStackBottom ≤ a → m a = before.mem a := by
  obtain ⟨reserved, hwords⟩ := h.words
  have hbottom := h.bottom_le hend
  have hin := (hplaced.inside curr hcurr).2
  obtain ⟨hsaved, hrest⟩ := taskSave_spec before.mem (curr + taskRegistersOffset)
    (Mem.words_append.mp hwords).2 (by omega)
  subst hm
  refine ⟨hsaved, fun u hu hne => ?_, fun a ha => hrest a (.inr (by omega))⟩
  have hagree := agree_taskSave hplaced hcurr hu hne hrest
  intro x hle hlt
  rw [hagree x hle hlt]
  exact h.agreeTasks hplaced hend u hu x hle hlt

/-- A system call changes `eax` of its task. -/
theorem Shows.syscall (h : Shows tasks s t) (hplaced : Placed tasks) (entries : Entries)
    (result : BitVec 32) (left : Cpu) (hring : Cpu.ring s.cpu.cs ≠ 0) :
    ∃ s', step tasks entries s (.syscall result left) = some s' ∧
      Shows tasks s' { t with running := { t.running with eax := result } } ∧
      frameEnd s'.cpu = frameEnd s.cpu := by
  obtain ⟨before, number, frame, henter, hentered⟩ :=
    enter_syscall entries.syscall entries.ra hring
  have hstack := kernelStackBottom_lt_esp0
  have hlast : frameEnd s.cpu = esp0.toNat := if_neg hring
  have hesp : before.esp.toNat + 64 = frameEnd s.cpu := hentered.esp
  have hlt := esp0_lt
  have hroom : kernelStackBottom + 52 + 4 * 3 ≤ frameEnd s.cpu := by omega
  have hbottom := hentered.bottom_le hroom
  obtain ⟨saved, hsave⟩ : ∃ m, m = taskSave before.mem (before.esp.toNat + 12)
    (s.curr + taskRegistersOffset) := ⟨_, rfl⟩
  obtain ⟨-, hothers, habove⟩ := hentered.taskSave hplaced h.known hroom hsave
  obtain ⟨reserved, hwords⟩ := hentered.words_keeping tasks h.stack left.mem
    (m := saved) fun x hle _ => habove x (Nat.le_trans hbottom hle)
  -- what is in the memory when the handler has returned
  obtain ⟨kept, hkept⟩ : ∃ m, m = keeping tasks before.esp.toNat saved left.mem := ⟨_, rfl⟩
  rw [← hkept] at hwords
  -- `eax` is the word 10 above the stack pointer
  have hresult : (kept.setWord (before.esp.toNat + 12 + 28) result).Words before.esp.toNat
      ([entries.ra, number, frame] ++
        ({ interrupted s.cpu with eax := result } : TaskRegisters).frame reserved) := by
    rw [Nat.add_assoc]
    exact hwords.set result 10 (by simp [TaskRegisters.frame])
  obtain ⟨segments, hsegments⟩ : ∃ c : Cpu, c = { left with
      ds := userDataSegment, es := userDataSegment, fs := userDataSegment
      gs := userDataSegment } := ⟨_, rfl⟩
  obtain ⟨cpu, hreturn, hcontinues⟩ := exec_syscallReturn
    (c := returned before segments (kept.setWord (before.esp.toNat + 12 + 28) result)) hresult (by
      show before.esp.toNat + 64 < _
      omega) hentered.cs
  have hcontinues' : Continues cpu { interrupted s.cpu with eax := result } (frameEnd s.cpu)
      (kept.setWord (before.esp.toNat + 12 + 28) result) := hesp ▸ hcontinues
  obtain ⟨hshows, hframe⟩ := h.of_continues hcontinues' (by rw [h.running]) fun u hu hne => by
    have hin := (hplaced.inside u hu).2
    have hstore : Agree kept (kept.setWord (before.esp.toNat + 12 + 28) result)
      (u + taskRegistersOffset) 48 := Mem.agree_setWord kept result (.inl (by omega))
    intro x hle hlt
    rw [hstore x hle hlt, hkept,
      agreeTasks_keeping tasks before.esp.toNat saved left.mem u hu x hle hlt]
    exact hothers u hu hne x hle hlt
  refine ⟨{ s with cpu := cpu }, ?_, ?_, hframe⟩
  · unfold step
    rw [henter]
    show (Cpu.exec _ (returned before _ ((keeping tasks _ (taskSave before.mem
      (before.esp.toNat + 12) _) left.mem).setWord _ result))).bind _ = _
    rw [← hsave, ← hkept, ← hsegments, hreturn]
    rfl
  · rw [h.running] at hshows
    exact hshows

theorem switch_saved (t : Tasks) (next : Nat) (esp : BitVec 32) :
    (t.switch next esp).saved = Function.update t.saved t.curr t.running := rfl

/-- Whatever the C code of a handler leaves, the registers of every task are saved when
    `asm_enter_task` begins: those of the task that was interrupted by `task_save`, the others
    before. -/
theorem Shows.allSaved (h : Shows tasks s t) (hplaced : Placed tasks)
    (hentered : Entered s.cpu before extra)
    (hend : kernelStackBottom + 52 + 4 * extra.length ≤ frameEnd s.cpu) (next : Nat)
    (esp : BitVec 32) {left m e : Mem}
    (hm : m = keeping tasks before.esp.toNat (Icarius.taskSave before.mem
      (before.esp.toNat + 4 * extra.length) (s.curr + taskRegistersOffset)) left)
    (he : AgreeTasks tasks m e) {u : Nat} (hu : u ∈ tasks) :
    e.Words (u + taskRegistersOffset) ((t.switch next esp).saved u).words := by
  obtain ⟨saved, hsave⟩ : ∃ m, m = Icarius.taskSave before.mem
    (before.esp.toNat + 4 * extra.length) (s.curr + taskRegistersOffset) := ⟨_, rfl⟩
  obtain ⟨hcurr, hothers, -⟩ := hentered.taskSave hplaced h.known hend hsave
  rw [← hsave] at hm
  refine he.words hu ?_
  rw [hm]
  refine (agreeTasks_keeping tasks before.esp.toNat saved left).words hu ?_
  rw [switch_saved]
  by_cases hne : u = s.curr
  · rw [hne, ← h.curr, Function.update_self, ← h.running, h.curr]
    exact hcurr
  · rw [Function.update_of_ne (h.curr ▸ hne)]
    exact (h.saved u hu hne).congr (hothers u hu hne)

/-- A task that is switched to goes on with the registers that were saved for it. -/
theorem Shows.switch (h : Shows tasks s t) (hplaced : Placed tasks)
    (hentered : Entered s.cpu before extra)
    (hend : kernelStackBottom + 52 + 4 * extra.length ≤ frameEnd s.cpu) {next : Nat}
    (hnext : next ∈ tasks) {esp : BitVec 32} (hlow : kernelStackBottom + 32 ≤ esp.toNat)
    (hhigh : esp.toNat + 8 ≤ before.esp.toNat) (ra : BitVec 32) (left : Cpu) {m : Mem}
    (hm : m = keeping tasks before.esp.toNat (Icarius.taskSave before.mem
      (before.esp.toNat + 4 * extra.length) (s.curr + taskRegistersOffset)) left.mem) :
    ∃ cpu, Cpu.exec (asmEnterTask ra) (entering before left m next esp ra) = some cpu ∧
      Shows tasks ⟨cpu, next⟩ (t.switch next esp) ∧
      frameEnd cpu = if Cpu.ring (t.switch next esp).running.cs = 0 then esp.toNat
        else esp0.toNat := by
  have hin := hplaced.inside next hnext
  have hesp := hentered.esp
  have hlast : frameEnd s.cpu ≤ esp0.toNat := h.stack
  have hbottom : 0xC2C00000 = kernelStackBottom := rfl
  -- the memory in which `asm_enter_task` begins
  obtain ⟨regs, hregs⟩ : ∃ r, r = BitVec.ofNat 32 (next + taskRegistersOffset) := ⟨_, rfl⟩
  have haddr : regs.toNat = next + taskRegistersOffset := by
    rw [hregs, BitVec.toNat_ofNat]
    exact Nat.mod_eq_of_lt (by omega)
  obtain ⟨e, he⟩ : ∃ e, e = (m.setWord (esp.toNat + 4) regs).setWord esp.toNat ra := ⟨_, rfl⟩
  have hcall : AgreeTasks tasks m e := by
    refine agreeTasks_of_below hplaced fun a ha => ?_
    rw [he]
    unfold Mem.setWord
    rw [Mem.store_of_lt _ (by omega), Mem.store_of_lt _ (by omega)]
  have harg : e.word (esp.toNat + 4) = regs := by
    rw [he, Mem.word_setWord_of_disjoint _ _ (by omega)]
    exact Mem.word_setWord_self _ _ _
  have hall : ∀ u ∈ tasks,
      e.Words (u + taskRegistersOffset) ((t.switch next esp).saved u).words :=
    fun u hu => h.allSaved hplaced hentered hend next esp hm hcall hu
  obtain ⟨c, hc⟩ : ∃ c, c = entering before left m next esp ra := ⟨_, rfl⟩
  have hcmem : c.mem = e := by
    rw [hc, he, hregs]
    rfl
  have hcesp : c.esp = esp := by rw [hc]; rfl
  have hccs : c.cs = gdtKernelCodeSegment := by
    rw [hc]
    exact hentered.cs
  have hcarg : c.mem.word (c.esp.toNat + 4) = regs := by
    rw [hcmem, hcesp]
    exact harg
  have hcregs : c.mem.Words regs.toNat ((t.switch next esp).saved next).words := by
    rw [hcmem, haddr]
    exact hall next hnext
  obtain ⟨cpu, m', hexec, hcontinues, hframe⟩ := exec_enterTask hcarg hcregs
    (by rw [haddr, hcesp]; omega) (by rw [hcesp]; omega) hccs
  rw [hcesp] at hcontinues hframe
  rw [← hc]
  refine ⟨cpu, hexec, ⟨rfl, hnext, hcontinues.regs, hcontinues.stackIn (by omega), ?_⟩,
    hcontinues.frameEnd_eq⟩
  intro u hu _
  have hagree : AgreeTasks tasks c.mem m' :=
    agreeTasks_of_below hplaced fun a ha => hframe a (.inl (by omega))
  show cpu.mem.Words _ _
  rw [hcontinues.mem]
  rw [hcmem] at hagree
  exact hagree.words hu (hall u hu)

/-- A timer tick -/
theorem Shows.tick (h : Shows tasks s t) (hplaced : Placed tasks) (entries : Entries)
    {next : Nat} {esp : BitVec 32} (left : Cpu) (hnext : next ∈ tasks)
    (hlow : kernelStackBottom + 32 ≤ esp.toNat) (hhigh : esp.toNat + 68 ≤ frameEnd s.cpu) :
    ∃ s', step tasks entries s (.tick next esp left) = some s' ∧
      Shows tasks s' (t.switch next esp) ∧ frameEnd s'.cpu =
        if Cpu.ring (t.switch next esp).running.cs = 0 then esp.toNat else esp0.toNat := by
  obtain ⟨before, frame, henter, hentered⟩ :=
    enter_irq entries.irq0 entries.ra (by omega) h.stack
  have hesp : before.esp.toNat + 60 = frameEnd s.cpu := hentered.esp
  obtain ⟨m, hm⟩ : ∃ m, m = keeping tasks before.esp.toNat (Icarius.taskSave before.mem
    (before.esp.toNat + 8) (s.curr + taskRegistersOffset)) left.mem := ⟨_, rfl⟩
  obtain ⟨cpu, hexec, hshows, hframe⟩ := h.switch hplaced hentered (by
    show kernelStackBottom + 52 + 8 ≤ _
    omega) hnext hlow (by omega) entries.ra left hm
  refine ⟨⟨cpu, next⟩, ?_, hshows, hframe⟩
  have hstep : step tasks entries s (.tick next esp left) =
      (enter s.cpu entries.irq0 (asmIrqEntry entries.ra)).bind fun before =>
        (Cpu.exec (asmEnterTask entries.ra) (entering before left (keeping tasks
          before.esp.toNat (Icarius.taskSave before.mem (before.esp.toNat + 8)
            (s.curr + taskRegistersOffset)) left.mem) next esp entries.ra)).bind
          fun cpu => some ⟨cpu, next⟩ := rfl
  rw [hstep, henter, Option.bind_some, ← hm, hexec, Option.bind_some]

/-- The end of a process -/
theorem Shows.exit (h : Shows tasks s t) (hplaced : Placed tasks) (entries : Entries)
    {next : Nat} {esp : BitVec 32} (left : Cpu) (hring : Cpu.ring s.cpu.cs ≠ 0)
    (hnext : next ∈ tasks) (hlow : kernelStackBottom + 32 ≤ esp.toNat)
    (hhigh : esp.toNat + 72 ≤ frameEnd s.cpu) :
    ∃ s', step tasks entries s (.exit next esp left) = some s' ∧
      Shows tasks s' (t.switch next esp) ∧ frameEnd s'.cpu =
        if Cpu.ring (t.switch next esp).running.cs = 0 then esp.toNat else esp0.toNat := by
  obtain ⟨before, number, frame, henter, hentered⟩ :=
    enter_syscall entries.syscall entries.ra hring
  have hesp : before.esp.toNat + 64 = frameEnd s.cpu := hentered.esp
  obtain ⟨m, hm⟩ : ∃ m, m = keeping tasks before.esp.toNat (Icarius.taskSave before.mem
    (before.esp.toNat + 12) (s.curr + taskRegistersOffset)) left.mem := ⟨_, rfl⟩
  obtain ⟨cpu, hexec, hshows, hframe⟩ := h.switch hplaced hentered (by
    show kernelStackBottom + 52 + 12 ≤ _
    omega) hnext hlow (by omega) entries.ra left hm
  refine ⟨⟨cpu, next⟩, ?_, hshows, hframe⟩
  have hstep : step tasks entries s (.exit next esp left) =
      (enter s.cpu entries.syscall (asmSyscallEntry entries.ra)).bind fun before =>
        (Cpu.exec (asmEnterTask entries.ra) (entering before left (keeping tasks
          before.esp.toNat (Icarius.taskSave before.mem (before.esp.toNat + 12)
            (s.curr + taskRegistersOffset)) left.mem) next esp entries.ra)).bind
          fun cpu => some ⟨cpu, next⟩ := rfl
  rw [hstep, henter, Option.bind_some, ← hm, hexec, Option.bind_some]

/-- The current task computes: its own registers change, and memory that is not the kernel's. -/
theorem Shows.compute (h : Shows tasks s t) (hplaced : Placed tasks) (entries : Entries)
    (regs : TaskRegisters) (mem : Mem) :
    ∃ s', step tasks entries s (.compute regs mem) = some s' ∧
      Shows tasks s' (t.compute regs) ∧ frameEnd s'.cpu = frameEnd s.cpu := by
  refine ⟨_, rfl, ?_⟩
  have hcs : s.cpu.cs = t.running.cs := congrArg TaskRegisters.cs h.running
  obtain ⟨hesp, hss⟩ : (interrupted s.cpu).esp = t.running.esp ∧
      (interrupted s.cpu).ss = t.running.ss := by
    rw [h.running]
    exact ⟨rfl, rfl⟩
  unfold Switching.compute Tasks.compute
  by_cases h0 : Cpu.ring s.cpu.cs = 0
  · -- on the stack it has had
    have h0' : Cpu.ring t.running.cs = 0 := hcs ▸ h0
    rw [← hesp, ← hss]
    unfold interrupted
    dsimp only
    rw [if_pos h0, if_pos h0', if_pos h0, if_pos h0]
    refine ⟨⟨h.curr, h.known, ?_, ?_, h.saved⟩, ?_⟩
    · unfold interrupted
      dsimp only
      rw [if_pos h0, if_pos h0, hcs]
      rfl
    · have hin := h.stack
      unfold StackIn frameEnd at hin ⊢
      dsimp only
      rw [if_pos h0] at hin ⊢
      exact hin
    · unfold frameEnd
      dsimp only
  · -- in ring 3 the task has all registers to itself
    have h0' : Cpu.ring t.running.cs ≠ 0 := hcs ▸ h0
    dsimp only
    rw [if_neg h0, if_neg h0']
    refine ⟨⟨h.curr, h.known, ?_, ?_, fun u hu hne => ?_⟩, ?_⟩
    · unfold interrupted
      dsimp only
      rw [if_neg h0, if_neg h0, hcs]
    · unfold StackIn frameEnd
      dsimp only
      rw [if_neg h0]
    · -- the tasks are in the kernel's memory
      have hin := (hplaced.inside u hu).1
      exact (h.saved u hu hne).congr fun x hle _ => if_pos (by omega)
    · unfold frameEnd
      dsimp only
      rw [if_neg h0, if_neg h0]

/-- No admitted event gets stuck, and each does to the tasks what it should. -/
theorem Shows.step (h : Shows tasks s t) (hplaced : Placed tasks) (entries : Entries)
    {e : SwitchEvent} (hok : Admitted tasks s e) :
    ∃ s', Switching.step tasks entries s e = some s' ∧ Shows tasks s' (t.step e) ∧
      frameEnd s'.cpu = frameEndAfter s (t.step e).running e := by
  cases e with
  | compute regs mem => exact h.compute hplaced entries regs mem
  | key left => exact h.key hplaced entries left hok
  | mouse left => exact h.mouse hplaced entries left hok
  | syscall result left => exact h.syscall hplaced entries result left hok
  | tick next esp left =>
      obtain ⟨hnext, hlow, hhigh⟩ := hok
      exact h.tick hplaced entries left hnext hlow hhigh
  | exit next esp left =>
      obtain ⟨hring, hnext, hlow, hhigh⟩ := hok
      exact h.exit hplaced entries left hring hnext hlow hhigh

end Step

/-! ## Runs -/

/-- The idle task as `task_kcreate` leaves it -/
def idleRegisters : TaskRegisters where
  edi := 0
  esi := 0
  ebp := 0xC0018000
  ebx := 0
  edx := 0
  ecx := 0
  eax := 0
  eip := 0xC0101000
  cs := gdtKernelCodeSegment
  eflags := 0x202
  esp := 0xC0018000
  ss := gdtKernelDataSegment

section Run

variable {tasks : List Nat} {entries : Entries} {s₀ s s' : Switching} {t₀ t : Tasks}
  {es : List SwitchEvent} {e : SwitchEvent}

theorem Shows.runs (h : Shows tasks s₀ t₀) (hplaced : Placed tasks)
    (hrun : Runs (Switching.step tasks entries) (Admitted tasks) s₀ es s) :
    Shows tasks s (es.foldl Tasks.step t₀) := by
  induction hrun with
  | nil => exact h
  | @snoc es s s' e _ hok hstep ih =>
      obtain ⟨s'', hstep', hshows, -⟩ := ih.step hplaced entries hok
      obtain rfl : s' = s'' := Option.some.inj (hstep.symm.trans hstep')
      rw [List.foldl_append]
      exact hshows

/-- The idle task, saved, and the shell, which runs -/
def idleAndShell : Switching where
  cpu := {
    edi := 0, esi := 0, ebp := 0xBFFFFF00, esp := 0xBFFFFEF0, ebx := 1, edx := 2, ecx := 3
    eax := 4, eip := 0x400123, cs := 0x1B, eflags := 0x202, ss := 0x23
    ds := userDataSegment, es := userDataSegment, fs := userDataSegment, gs := userDataSegment
    mem := Mem.setWords (fun _ => 0) (0xC0001000 + taskRegistersOffset) idleRegisters.words }
  curr := 0xC0002000

/-- Some addresses for the entries -/
def entriesSomewhere : Entries where
  irq0 := 0xC0100010
  irq1 := 0xC0100030
  irq12 := 0xC0100050
  syscall := 0xC0100070
  ra := 0xC0100018

/-- What these two are -/
def idleAndShellTasks : Tasks := ⟨0xC0002000, interrupted idleAndShell.cpu, fun _ => idleRegisters⟩

theorem placed_idleAndShell : Placed [0xC0001000, 0xC0002000] := ⟨by decide, by decide⟩

theorem shows_idleAndShell :
    Shows [0xC0001000, 0xC0002000] idleAndShell idleAndShellTasks := by
  have hstack : frameEnd idleAndShell.cpu ≤ esp0.toNat := by decide
  refine ⟨rfl, by decide, rfl, hstack, fun u hu hne => ?_⟩
  obtain rfl : u = 0xC0001000 := by
    rcases List.mem_cons.mp hu with hidle | hshell
    · exact hidle
    · exact absurd (List.mem_singleton.mp hshell) hne
  exact Mem.words_setWords _ _ _

/-- A tick at which the shell gives way to the idle task -/
theorem admitted_idleAndShell : Admitted [0xC0001000, 0xC0002000] idleAndShell
    (.tick 0xC0001000 0xC2C07000 idleAndShell.cpu) := by
  refine ⟨by decide, by decide, ?_⟩
  decide

end Run

end Switching

/-- The task that an event switches to, and the stack pointer of the kernel meanwhile -/
def SwitchEvent.switches : SwitchEvent → Option (Nat × BitVec 32)
  | .tick next esp _ | .exit next esp _ => some (next, esp)
  | _ => none

namespace Tasks

variable {t : Tasks} {a : Nat} {r : TaskRegisters} {e : SwitchEvent} {es : List SwitchEvent}

/-- The registers of `a` are put away. -/
def Away (t : Tasks) (a : Nat) (r : TaskRegisters) : Prop := t.curr ≠ a ∧ t.saved a = r

theorem step_of_switches {next : Nat} {esp : BitVec 32} (h : e.switches = some (next, esp)) :
    t.step e = t.switch next esp := by
  cases e <;> cases h <;> rfl

theorem step_away (h : t.Away a r) (he : ∀ esp, e.switches ≠ some (a, esp)) :
    (t.step e).Away a r := by
  obtain ⟨hne, hr⟩ := h
  cases hswitches : e.switches with
  | none =>
      -- the current task stays
      cases e with
      | compute regs mem => exact ⟨hne, hr⟩
      | key left => exact ⟨hne, hr⟩
      | mouse left => exact ⟨hne, hr⟩
      | syscall result left => exact ⟨hne, hr⟩
      | tick next esp left => cases hswitches
      | exit next esp left => cases hswitches
  | some target =>
      obtain ⟨next, esp⟩ := target
      rw [step_of_switches hswitches]
      refine ⟨fun heq => he esp ?_, ?_⟩
      · rw [hswitches, show next = a from heq]
      · show Function.update t.saved t.curr t.running a = r
        rw [Function.update_of_ne (Ne.symm hne)]
        exact hr

theorem foldl_away (h : t.Away a r) (hes : ∀ e ∈ es, ∀ esp, e.switches ≠ some (a, esp)) :
    (es.foldl step t).Away a r := by
  induction es generalizing t with
  | nil => exact h
  | cons e es ih =>
      have he := step_away h (hes e List.mem_cons_self)
      exact ih he fun e' he' => hes e' (List.mem_cons_of_mem e he')

theorem switch_away {next : Nat} (hne : next ≠ t.curr) (esp : BitVec 32) :
    (t.switch next esp).Away t.curr t.running :=
  ⟨hne, Function.update_self _ _ _⟩

theorem Away.switch_back (h : t.Away a r) (esp : BitVec 32) :
    (t.switch a esp).running = resumed r esp := by
  show resumed (Function.update t.saved t.curr t.running a) esp = _
  rw [Function.update_of_ne (Ne.symm h.1), h.2]

end Tasks

namespace Switching

section Runs

variable {tasks : List Nat} {entries : Entries} {s₀ s s' : Switching} {t₀ : Tasks}
  {before es : List SwitchEvent} {leave back : SwitchEvent} {next : Nat} {esp esp' : BitVec 32}

theorem frameEndAfter_of_none {e : SwitchEvent} {r : TaskRegisters} (h : e.switches = none) :
    frameEndAfter s r e = frameEnd s.cpu := by
  cases e with
  | compute regs mem => rfl
  | key left => rfl
  | mouse left => rfl
  | syscall result left => rfl
  | tick next esp left => cases h
  | exit next esp left => cases h

theorem frameEndAfter_of_switches {e : SwitchEvent} {r : TaskRegisters}
    (h : e.switches = some (next, esp)) (hring : Cpu.ring r.cs = 0) :
    frameEndAfter s r e = esp.toNat := by
  cases e <;> cases h <;> exact if_pos hring

theorem admitted_of_switches {e : SwitchEvent} (h : e.switches = some (next, esp))
    (hok : Admitted tasks s e) : kernelStackBottom + 32 ≤ esp.toNat ∧
      esp.toNat + 68 ≤ frameEnd s.cpu := by
  cases e <;> cases h
  · exact hok.2
  · obtain ⟨-, -, hlow, hhigh⟩ := hok
    exact ⟨hlow, by omega⟩

/-- All tasks are kernel tasks. -/
def AllKernel (tasks : List Nat) (t : Tasks) : Prop :=
  Cpu.ring t.running.cs = 0 ∧ ∀ u ∈ tasks, Cpu.ring (t.saved u).cs = 0

/-- The number of task switches -/
def switchesIn (es : List SwitchEvent) : Nat := es.countP fun e => e.switches.isSome

theorem AllKernel.switch {t : Tasks} (h : AllKernel tasks t) {u : Nat} (hu : u ∈ tasks)
    (esp : BitVec 32) : AllKernel tasks (t.switch u esp) := by
  have hsaved : ∀ v ∈ tasks, Cpu.ring ((t.switch u esp).saved v).cs = 0 := by
    intro v hv
    rw [switch_saved]
    by_cases hcurr : v = t.curr
    · rw [hcurr, Function.update_self]
      exact h.1
    · rw [Function.update_of_ne hcurr]
      exact h.2 v hv
  exact ⟨hsaved u hu, hsaved⟩

theorem AllKernel.step {t : Tasks} {e : SwitchEvent} (h : AllKernel tasks t)
    (hshows : Shows tasks s t) (hok : Admitted tasks s e) : AllKernel tasks (t.step e) := by
  have hcs : s.cpu.cs = t.running.cs := congrArg TaskRegisters.cs hshows.running
  cases e with
  | compute regs mem =>
      refine ⟨?_, h.2⟩
      show Cpu.ring (t.compute regs).running.cs = 0
      unfold Tasks.compute
      dsimp only
      rw [if_pos h.1]
      exact h.1
  | key left => exact h
  | mouse left => exact h
  | syscall result left => exact ⟨h.1, h.2⟩
  | tick next esp left => exact h.switch hok.1 esp
  | exit next esp left => exact absurd (hcs ▸ h.1) hok.1

theorem switchesIn_of_none {e : SwitchEvent} (h : e.switches = none) : switchesIn [e] = 0 := by
  unfold switchesIn
  rw [List.countP_singleton, h]
  rfl

theorem switchesIn_le_one (e : SwitchEvent) : switchesIn [e] ≤ 1 := List.countP_le_length

/-- The stack below a frame is never given back while kernel tasks alone take turns. -/
theorem AllKernel.runs (h : AllKernel tasks t₀) (hplaced : Placed tasks)
    (hstart : Shows tasks s₀ t₀)
    (hrun : Runs (Switching.step tasks entries) (Admitted tasks) s₀ es s) :
    AllKernel tasks (es.foldl Tasks.step t₀) ∧
      frameEnd s.cpu + 68 * switchesIn es ≤ frameEnd s₀.cpu ∧
      (0 < switchesIn es → kernelStackBottom + 32 ≤ frameEnd s.cpu) := by
  induction hrun with
  | nil => exact ⟨h, Nat.le_refl _, fun hpos => absurd hpos (Nat.lt_irrefl 0)⟩
  | @snoc es s s' e hrun hok hstep ih =>
      obtain ⟨hkernel, hsunk, hlow⟩ := ih
      have hshows := hstart.runs hplaced hrun
      obtain ⟨s'', hstep', hshows', hend⟩ := hshows.step hplaced entries hok
      obtain rfl : s' = s'' := Option.some.inj (hstep.symm.trans hstep')
      have hnext := hkernel.step hshows hok
      have hcount : switchesIn (es ++ [e]) = switchesIn es + switchesIn [e] :=
        List.countP_append
      rw [List.foldl_append, hcount]
      refine ⟨hnext, ?_⟩
      cases hswitches : e.switches with
      | none =>
          rw [frameEndAfter_of_none hswitches] at hend
          rw [hend, switchesIn_of_none hswitches]
          exact ⟨hsunk, hlow⟩
      | some target =>
          -- the frame stays where it is, above the new stack pointer
          obtain ⟨next, esp⟩ := target
          obtain ⟨hbottom, htop⟩ := admitted_of_switches hswitches hok
          have hone := switchesIn_le_one e
          rw [frameEndAfter_of_switches hswitches hnext.1] at hend
          rw [hend]
          exact ⟨by omega, fun _ => hbottom⟩

/-- While kernel tasks alone take turns, as the idle task does with itself, at most 481 task
    switches fit into the kernel's stack: each leaves 68 bytes or more that no later one gives
    back. -/
theorem kernel_stack_sinks (hplaced : Placed tasks) (hstart : Shows tasks s₀ t₀)
    (hkernel : AllKernel tasks t₀)
    (hrun : Runs (Switching.step tasks entries) (Admitted tasks) s₀ es s) :
    frameEnd s.cpu + 68 * switchesIn es ≤ frameEnd s₀.cpu ∧ switchesIn es ≤ 481 := by
  obtain ⟨-, hsunk, hlow⟩ := hkernel.runs hplaced hstart hrun
  refine ⟨hsunk, ?_⟩
  rcases Nat.eq_zero_or_pos (switchesIn es) with hzero | hpos
  · omega
  · have hend := hlow hpos
    have hin : frameEnd s₀.cpu ≤ esp0.toNat := hstart.stack
    have hstack := kernelStackBottom_lt_esp0
    omega

theorem kernel_stack_sinks_idle : ∃ s : Switching,
    frameEnd s.cpu + 68 * 1 ≤ 0xC2C07008 := by
  let idle : Switching := ⟨{ idleAndShell.cpu with esp := 0xC2C07000, cs := 0x08 }, 0xC0001000⟩
  have hplaced : Placed [0xC0001000] := ⟨by decide, by decide⟩
  have hstart : Shows [0xC0001000] idle
      ⟨0xC0001000, interrupted idle.cpu, fun _ => idleRegisters⟩ := by
    have hstack : frameEnd idle.cpu ≤ esp0.toNat := by decide
    exact ⟨rfl, List.mem_singleton_self _, rfl, hstack,
      fun u hu hne => absurd (List.mem_singleton.mp hu) hne⟩
  have hkernel : AllKernel [0xC0001000]
      ⟨0xC0001000, interrupted idle.cpu, fun _ => idleRegisters⟩ := by
    have hring : Cpu.ring idleRegisters.cs = 0 := by decide
    have hrunning : Cpu.ring idle.cpu.cs = 0 := by decide
    exact ⟨hrunning, fun _ _ => hring⟩
  have hok : Admitted [0xC0001000] idle (.tick 0xC0001000 0xC2C06000 idle.cpu) := by
    refine ⟨List.mem_singleton_self _, by decide, ?_⟩
    decide
  obtain ⟨s, hstep, -, -⟩ := hstart.step hplaced entriesSomewhere hok
  have hsunk := (kernel_stack_sinks hplaced hstart hkernel (.snoc .nil hok hstep)).1
  have hone : switchesIn [.tick 0xC0001000 0xC2C06000 idle.cpu] = 1 := rfl
  have hend : frameEnd idle.cpu = 0xC2C07008 := by decide
  rw [List.nil_append, hone, hend] at hsunk
  exact ⟨s, hsunk⟩

end Runs

end Switching

end Icarius
