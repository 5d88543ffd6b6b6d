/-
  Icarius.Kernel.Faults

  The exceptions of the processor: the wrappers of `src/arch/x86/idt.asm`, and what the handlers
  of `src/arch/x86/idt.c` decide on.

  `interrupt_frame_t` has no room for an error code.  Of an exception that has one the handler
  therefore sees a frame that is a word too low: what it takes for `cs` is `eip`.  The test for
  the ring in the page fault handler is a test of two bits of the address of the instruction,
  and the wrapper of the general protection fault, which leaves the error code on the stack,
  returns to it where the processor lets the address of the instruction pass for a segment.
-/

import Icarius.Process.Context

namespace Icarius

open Icarius.Lib Icarius.Lib.X86

namespace Switching

/-! ## The code -/

/-- `GDT_USER_CODE_SEGMENT` -/
def gdtUserCodeSegment : BitVec 32 := 0x18

/-- The access bytes of the segments that `gdt_init` sets -/
def gdtEntries : List (BitVec 8) := [0x00, 0x9A, 0x92, 0xFA, 0xF2, 0x89]

/-- The entries of `interrupt_messages` that are used, those up to 14 -/
def interruptMessages : List String := [
  "Division by Zero (INT 0)\n",
  "Debug Exception (INT 1)\n",
  "Non-Maskable Interrupt (NMI - INT 2)\n",
  "Breakpoint Exception (INT 3)\n",
  "Overflow (INT 4)\n",
  "BOUND Range Exceeded (INT 5)\n",
  "Invalid Opcode (INT 6)\n",
  "Device Not Available (INT 7)\n",
  "Double Fault (INT 8)\n",
  "Coprocessor Segment Overrun (INT 9)\n",
  "Invalid TSS (INT 10)\n",
  "Segment Not Present (INT 11)\n",
  "Stack-Segment Fault (INT 12)\n",
  "General Protection Fault (INT 13)\n",
  "Page Fault (INT 14)\n"]

/-- `frame->cs` -/
def frameCs (m : Mem) (frame : BitVec 32) : BitVec 32 := m.word (frame + 36).toNat

/-- `isr_0_handler`: the message it panics with, or none when it returns -/
def isr0Handler (isrNum : Nat) (m : Mem) (frame : BitVec 32) : Option String :=
  if frameCs m frame = gdtKernelCodeSegment then interruptMessages[isrNum]?
  else if frameCs m frame = gdtUserCodeSegment then none
  else interruptMessages[isrNum]?

/-- `isr_1_handler`, which decides as `isr_0_handler` does -/
def isr1Handler : Nat → Mem → BitVec 32 → Option String := isr0Handler

/-- `isr_2_handler`; `status` is read from port 0x61. -/
def isr2Handler (status : BitVec 8) (isrNum : Nat) (m : Mem) (frame : BitVec 32) :
    Option String :=
  (isr0Handler isrNum m frame).or
    (if status &&& 0x80 = 0 then none else some " - Critical Memory Error - Halting System!\n")

/-- `isr_6_handler`, which decides as `isr_0_handler` does -/
def isr6Handler : Nat → Mem → BitVec 32 → Option String := isr0Handler

/-- `isr_8_handler` -/
def isr8Handler : Option String := interruptMessages[8]?

/-- `isr_12_handler` -/
def isr12Handler : Option String := interruptMessages[12]?

/-- `isr_13_handler` -/
def isr13Handler : Option String := none

/-- `isr_14_handler` -/
def isr14Handler (m : Mem) (frame : BitVec 32) : Option String :=
  if frameCs m frame &&& 3 = 3 then some "[CRITICAL] System Halted!" else none

/-- `isr_default_handler` -/
def isrDefaultHandler : Option String := none

/-- `asm_isr0_wrapper`, and likewise those of 1, 2 and 6, up to the call: `n` is the number.
    So is `asm_interrupt_default`, with 0xDEAD. -/
def asmIsrEntry (n ra : BitVec 32) : List Instr :=
  [.cli, .pushad, .push (.reg .esp), .push (.imm n), .call ra]

/-- `asm_isr8_wrapper`, `asm_isr12_wrapper` and `asm_isr13_wrapper` up to the call -/
def asmIsrErrorEntry (ra : BitVec 32) : List Instr :=
  [.cli, .pushad, .push (.reg .esp), .mov .eax (.mem .esp 36), .push (.reg .eax), .call ra]

/-- `asm_isr14_wrapper` up to the call; `cr2` is the address that faulted. -/
def asmIsr14Entry (cr2 ra : BitVec 32) : List Instr :=
  [.cli, .pushad, .push (.reg .esp), .mov .eax (.mem .esp 36), .push (.reg .eax),
    .mov .eax (.imm cr2), .push (.reg .eax), .call ra]

/-- The wrappers behind their calls, but for that of 14 -/
def asmIsrReturn (ra : BitVec 32) : List Instr := [.ret ra, .add .esp 8, .popad, .sti, .iretd]

/-- `asm_isr14_wrapper` behind the call -/
def asmIsr14Return (ra : BitVec 32) : List Instr :=
  [.ret ra, .add .esp 12, .popad, .add .esp 4, .sti, .iretd]

/-! ## Exceptions -/

/-- An exception, by the handler that `idt_init` has set for it -/
inductive Exception where
  | isr0
  | isr1
  | isr2 (status : BitVec 8)
  | isr6
  | isr8 (error : BitVec 32)
  | isr12 (error : BitVec 32)
  | isr13 (error : BitVec 32)
  | isr14 (error cr2 : BitVec 32)
  /-- All others; some of them have an error code. -/
  | other (error : Option (BitVec 32))

namespace Exception

/-- What the processor pushes behind the rest -/
def error : Exception → Option (BitVec 32)
  | isr0 | isr1 | isr2 _ | isr6 => none
  | isr8 error | isr12 error | isr13 error | isr14 error _ => some error
  | other error => error

def entry (ra : BitVec 32) : Exception → List Instr
  | isr0 => asmIsrEntry 0 ra
  | isr1 => asmIsrEntry 1 ra
  | isr2 _ => asmIsrEntry 2 ra
  | isr6 => asmIsrEntry 6 ra
  | isr8 _ | isr12 _ | isr13 _ => asmIsrErrorEntry ra
  | isr14 _ cr2 => asmIsr14Entry cr2 ra
  | other _ => asmIsrEntry 0xDEAD ra

def exit (ra : BitVec 32) : Exception → List Instr
  | isr14 _ _ => asmIsr14Return ra
  | _ => asmIsrReturn ra

/-- The handler, with its arguments from the stack: above the return address the number or the
    error code, and then the frame -/
def panics (cpu : Cpu) : Exception → Option String
  | isr0 => isr0Handler (cpu.stack 1).toNat cpu.mem (cpu.stack 2)
  | isr1 => isr1Handler (cpu.stack 1).toNat cpu.mem (cpu.stack 2)
  | isr2 status => isr2Handler status (cpu.stack 1).toNat cpu.mem (cpu.stack 2)
  | isr6 => isr6Handler (cpu.stack 1).toNat cpu.mem (cpu.stack 2)
  | isr8 _ => isr8Handler
  | isr12 _ => isr12Handler
  | isr13 _ => isr13Handler
  | isr14 _ _ => isr14Handler cpu.mem (cpu.stack 3)
  | other _ => isrDefaultHandler

end Exception

/-- How an exception ends: `panic` halts the machine. -/
inductive Outcome where
  | halted (message : String)
  | goesOn (cpu : Cpu)

/-- An exception of the code that runs; `left` is what the handler leaves. -/
def raise (entries : Entries) (handler : BitVec 32) (cpu : Cpu) (e : Exception) (left : Cpu) :
    Option Outcome := do
  let before ← Cpu.exec (e.entry entries.ra)
    (cpu.fault gdtKernelDataSegment esp0 gdtKernelCodeSegment handler e.error)
  match e.panics before with
  | some message => some (.halted message)
  | none => do
      let m := keeping [] before.esp.toNat before.mem left.mem
      let after ← Cpu.exec (e.exit entries.ra) (returned before left m)
      some (.goesOn after)

/-- The processor at the `iretd` behind the handler of an exception that does not panic -/
def atReturn (entries : Entries) (handler : BitVec 32) (cpu : Cpu) (e : Exception) (left : Cpu) :
    Option Cpu := do
  let before ← Cpu.exec (e.entry entries.ra)
    (cpu.fault gdtKernelDataSegment esp0 gdtKernelCodeSegment handler e.error)
  match e.panics before with
  | some _ => none
  | none =>
      let m := keeping [] before.esp.toNat before.mem left.mem
      Cpu.exec (e.exit entries.ra).dropLast (returned before left m)

/-! ## What the handlers see -/

/-- `before` is the processor when a handler begins: `args` are on top of the stack, the last of
    them the address of the frame behind them. -/
structure Raised (cpu before : Cpu) (args : List (BitVec 32)) (frame : BitVec 32)
    (error : Option (BitVec 32)) : Prop where
  stacked : ∃ reserved, Stacked cpu before
    (args ++ ((interrupted cpu).general reserved ++ (error.toList ++ (interrupted cpu).last)))
  frame_eq : frame.toNat = before.esp.toNat + 4 * args.length
  cs : before.cs = gdtKernelCodeSegment

section Raise

variable {cpu before : Cpu} {args : List (BitVec 32)} {frame handler ra : BitVec 32}
  {error : Option (BitVec 32)}

/-- An exception comes to its wrapper with the error code on top of the stack. -/
theorem exists_fault (cpu : Cpu) (handler : BitVec 32) (error : Option (BitVec 32))
    (hend : kernelStackBottom + 72 ≤ frameEnd cpu) (hin : StackIn cpu) :
    ∃ c, cpu.fault gdtKernelDataSegment esp0 gdtKernelCodeSegment handler error = c ∧
      Interrupted cpu c (error.toList ++ (interrupted cpu).last) ∧ c.cs = gdtKernelCodeSegment := by
  obtain ⟨c, hc, hinterrupted, hcs⟩ := exists_interrupt cpu handler (by omega) hin
  cases error with
  | none => exact ⟨c, hc, hinterrupted, hcs⟩
  | some error =>
      have hstacked := hinterrupted.toStacked.pushes [error] (by
        show 4 + 20 ≤ _
        omega)
      refine ⟨c.push error, ?_, ⟨hstacked, hinterrupted.regs⟩, hcs⟩
      show (cpu.interrupt _ _ _ _).push error = _
      rw [hc]

/-- `cli` and `pushad`: the frame that the handler is given begins here. -/
theorem exists_pushad {c : Cpu} (h : Interrupted cpu c (error.toList ++ (interrupted cpu).last))
    (hcs : c.cs = gdtKernelCodeSegment) (hend : kernelStackBottom + 72 ≤ frameEnd cpu) :
    ∃ d reserved, c.cli.pushad = d ∧ Stacked cpu d ((interrupted cpu).general reserved ++
      (error.toList ++ (interrupted cpu).last)) ∧ d.cs = gdtKernelCodeSegment := by
  have hlen : (error.toList ++ (interrupted cpu).last).length ≤ 6 := by
    cases error <;> exact Nat.le_of_ble_eq_true rfl
  exact ⟨_, _, rfl, h.cli.pushad (by omega), (cs_pushes c.cli _).trans hcs⟩

/-- The words pushed behind the frame -/
theorem raised_of_pushes {d : Cpu} {reserved : BitVec 32} (hframe : d.esp = frame)
    (hd : Stacked cpu d ((interrupted cpu).general reserved ++
      (error.toList ++ (interrupted cpu).last)))
    (hcs : d.cs = gdtKernelCodeSegment) (args : List (BitVec 32))
    (hroom : 4 * args.length + 56 ≤ frameEnd cpu) {before : Cpu}
    (hesp : before.esp = (d.pushes args.reverse).esp)
    (hmem : before.mem = (d.pushes args.reverse).mem) (hbefore : before.cs = d.cs) :
    Raised cpu before args frame error := by
  have hlen : ((interrupted cpu).general reserved ++
      (error.toList ++ (interrupted cpu).last)).length ≤ 14 := by
    cases error <;> exact Nat.le_of_ble_eq_true rfl
  have hstacked := hd.pushes args.reverse (by
    rw [List.length_reverse]
    omega)
  have htop := hd.esp
  have hlow := hstacked.esp
  rw [List.reverse_reverse] at hstacked hlow
  rw [← hesp, List.length_append] at hlow
  refine ⟨⟨reserved, ⟨?_, ?_, ?_⟩⟩, ?_, hbefore.trans hcs⟩
  · rw [List.length_append]
    exact hlow
  · rw [hesp, hmem]
    exact hstacked.words
  · rw [hesp, hmem]
    exact hstacked.outside
  · rw [← hframe]
    omega

/-- The wrappers of exceptions without an error code -/
theorem enter_isr (n handler ra : BitVec 32) (error : Option (BitVec 32))
    (hend : kernelStackBottom + 72 ≤ frameEnd cpu) (hin : StackIn cpu) :
    ∃ before frame, Cpu.exec (asmIsrEntry n ra)
        (cpu.fault gdtKernelDataSegment esp0 gdtKernelCodeSegment handler error) = some before ∧
      Raised cpu before [ra, n, frame] frame error := by
  obtain ⟨c, hc, hinterrupted, hcs⟩ := exists_fault cpu handler error hend hin
  obtain ⟨d, reserved, hd, hstacked, hdcs⟩ := exists_pushad hinterrupted hcs hend
  have hcode : Cpu.exec (asmIsrEntry n ra) c
      = some (c.cli.pushad.pushes [c.cli.pushad.esp, n, ra]) := rfl
  rw [hc, hcode, hd]
  exact ⟨_, d.esp, rfl, raised_of_pushes rfl hstacked hdcs [ra, n, d.esp] (by
    show 12 + 56 ≤ _
    omega) rfl rfl (cs_pushes d _)⟩

/-- The error code is where the wrappers read it. -/
theorem error_read {d : Cpu} {reserved error : BitVec 32}
    (hd : Stacked cpu d ((interrupted cpu).general reserved ++
      ([error] ++ (interrupted cpu).last)))
    (hend : kernelStackBottom + 72 ≤ frameEnd cpu) (hin : StackIn cpu) :
    (d.push d.esp).value (.mem .esp 36) = error := by
  have hlt := esp0_lt
  unfold StackIn at hin
  obtain ⟨hesp, hwords, -⟩ := hd.pushes [d.esp] (by
    show 4 + 56 ≤ _
    omega)
  have hesp' : (d.push d.esp).esp.toNat + 60 = frameEnd cpu := hesp
  exact Cpu.stack_of_words hwords (by
    show (d.push d.esp).esp.toNat + 60 < _
    omega) 9 rfl

/-- The wrappers of 8, 12 and 13 -/
theorem enter_isrError (error handler ra : BitVec 32)
    (hend : kernelStackBottom + 72 ≤ frameEnd cpu) (hin : StackIn cpu) :
    ∃ before frame, Cpu.exec (asmIsrErrorEntry ra)
        (cpu.fault gdtKernelDataSegment esp0 gdtKernelCodeSegment handler (some error))
        = some before ∧ Raised cpu before [ra, error, frame] frame (some error) := by
  obtain ⟨c, hc, hinterrupted, hcs⟩ := exists_fault cpu handler (some error) hend hin
  obtain ⟨d, reserved, hd, hstacked, hdcs⟩ := exists_pushad hinterrupted hcs hend
  have hread := error_read hstacked hend hin
  have hcode : Cpu.exec (asmIsrErrorEntry ra) c
      = some (({ d.push d.esp with eax := error } : Cpu).pushes [error, ra]) := by
    rw [← hd] at hread ⊢
    unfold asmIsrErrorEntry
    refine Cpu.exec_cons_of rfl ?_
    refine Cpu.exec_cons_of rfl ?_
    refine Cpu.exec_push_of (v := c.cli.pushad.esp) rfl ?_
    refine Cpu.exec_mov_of (v := error) hread ?_
    rfl
  rw [hc, hcode]
  exact ⟨_, d.esp, rfl, raised_of_pushes rfl hstacked hdcs [ra, error, d.esp] (by
    show 12 + 56 ≤ _
    omega) rfl rfl (cs_pushes _ _)⟩

/-- The wrapper of 14 -/
theorem enter_isr14 (error cr2 handler ra : BitVec 32)
    (hend : kernelStackBottom + 72 ≤ frameEnd cpu) (hin : StackIn cpu) :
    ∃ before frame, Cpu.exec (asmIsr14Entry cr2 ra)
        (cpu.fault gdtKernelDataSegment esp0 gdtKernelCodeSegment handler (some error))
        = some before ∧ Raised cpu before [ra, cr2, error, frame] frame (some error) := by
  obtain ⟨c, hc, hinterrupted, hcs⟩ := exists_fault cpu handler (some error) hend hin
  obtain ⟨d, reserved, hd, hstacked, hdcs⟩ := exists_pushad hinterrupted hcs hend
  have hread := error_read hstacked hend hin
  have hcode : Cpu.exec (asmIsr14Entry cr2 ra) c
      = some (({ ({ d.push d.esp with eax := error } : Cpu).push error with
          eax := cr2 } : Cpu).pushes [cr2, ra]) := by
    rw [← hd] at hread ⊢
    unfold asmIsr14Entry
    refine Cpu.exec_cons_of rfl ?_
    refine Cpu.exec_cons_of rfl ?_
    refine Cpu.exec_push_of (v := c.cli.pushad.esp) rfl ?_
    refine Cpu.exec_mov_of (v := error) hread ?_
    rfl
  rw [hc, hcode]
  exact ⟨_, d.esp, rfl, raised_of_pushes rfl hstacked hdcs [ra, cr2, error, d.esp] (by
    show 16 + 56 ≤ _
    omega) rfl rfl (cs_pushes _ _)⟩

/-- The frame a handler is given, word by word -/
theorem Raised.frame_words (h : Raised cpu before args frame error) :
    ∃ reserved, before.mem.Words frame.toNat
      ((interrupted cpu).general reserved ++ (error.toList ++ (interrupted cpu).last)) := by
  obtain ⟨⟨reserved, hstacked⟩, hframe, -⟩ := h
  rw [hframe]
  exact ⟨reserved, (Mem.words_append.mp hstacked.words).2⟩

theorem Raised.toNat_frame_add (h : Raised cpu before args frame error) (hin : StackIn cpu) :
    (frame + 36).toNat = frame.toNat + 4 * 9 := by
  have hlt := esp0_lt
  unfold StackIn at hin
  obtain ⟨⟨reserved, hstacked⟩, hframe, -⟩ := h
  have hesp := hstacked.esp
  rw [List.length_append, List.length_append, List.length_append] at hesp
  have hlast : (interrupted cpu).last.length = 5 := rfl
  have hgeneral : ((interrupted cpu).general reserved).length = 8 := rfl
  exact Cpu.toNat_add_disp (show frame.toNat + 36 < 2 ^ 32 by omega)

/-- Without an error code a handler finds `cs` where it looks for it ... -/
theorem Raised.frameCs_none (h : Raised cpu before args frame none) (hin : StackIn cpu) :
    frameCs before.mem frame = cpu.cs := by
  obtain ⟨reserved, hwords⟩ := h.frame_words
  unfold frameCs
  rw [h.toNat_frame_add hin]
  exact hwords.get (i := 9) rfl

/-- ... and with one it finds `eip`. -/
theorem Raised.frameCs_some {code : BitVec 32} (h : Raised cpu before args frame (some code))
    (hin : StackIn cpu) : frameCs before.mem frame = cpu.eip := by
  obtain ⟨reserved, hwords⟩ := h.frame_words
  unfold frameCs
  rw [h.toNat_frame_add hin]
  exact hwords.get (i := 9) rfl

/-- One of the arguments of a handler -/
theorem Raised.stack_arg (h : Raised cpu before args frame error) (hin : StackIn cpu) (i : Nat)
    {v : BitVec 32} (hi : args[i]? = some v) : before.stack i = v := by
  have hlt := esp0_lt
  unfold StackIn at hin
  obtain ⟨⟨reserved, hstacked⟩, -, -⟩ := h
  have hesp := hstacked.esp
  have hlen := (List.getElem?_eq_some_iff.mp hi).1
  refine Cpu.stack_of_words hstacked.words (by omega) i ?_
  rw [List.getElem?_append_left hlen]
  exact hi

/-- What a handler that returns leaves on the stack -/
theorem Raised.words_keeping (h : Raised cpu before args frame error) (hin : StackIn cpu)
    (left : Mem) : ∃ reserved, (keeping [] before.esp.toNat before.mem left).Words
      before.esp.toNat (args ++ ((interrupted cpu).general reserved ++
        (error.toList ++ (interrupted cpu).last))) := by
  have hstack := kernelStackBottom_lt_esp0
  have hsize : kernelStackSize = 0x8000 := rfl
  unfold StackIn at hin
  obtain ⟨⟨reserved, hstacked⟩, -, -⟩ := h
  have hesp := hstacked.esp
  refine ⟨reserved, hstacked.words.congr (agree_keeping_stack [] _ left (Nat.le_refl _) ?_)⟩
  omega

/-! ## How exceptions end -/

/-- The wrappers but that of 14 come to their `iretd` with the words behind the registers on
    top of the stack. -/
theorem exec_isrReturn {c : Cpu} {r : TaskRegisters} {n reserved : BitVec 32}
    (hwords : c.mem.Words c.esp.toNat ([ra, n, frame] ++ r.frame reserved))
    (hroom : c.esp.toNat + 64 < 2 ^ 32) (hcs : c.cs = gdtKernelCodeSegment) :
    ∃ g, Cpu.exec (asmIsrReturn ra).dropLast c = some g ∧ Cpu.ring g.cs = 0 ∧
      g.mem.Words g.esp.toNat r.last ∧ g.esp.toNat + 20 < 2 ^ 32 ∧ interrupted g.iret = r := by
  have hra : c.stack 0 = ra := Cpu.stack_of_words hwords hroom 0 rfl
  have hesp : (c.esp + 4 + 8).toNat = c.esp.toNat + 12 := by
    rw [BitVec.add_assoc]
    exact Cpu.toNat_add_disp (show c.esp.toNat + 12 < 2 ^ 32 by omega)
  obtain ⟨d, hd⟩ : ∃ d : Cpu, d = { c with esp := c.esp + 4 + 8 } := ⟨_, rfl⟩
  have hdesp : d.esp.toNat = c.esp.toNat + 12 := by
    rw [hd]
    exact hesp
  have hdwords : d.mem.Words d.esp.toNat (r.general reserved ++ r.last) := by
    rw [hdesp, hd]
    exact (Mem.words_append.mp hwords).2
  obtain ⟨hpopad, hpopped, hlast⟩ := popad_spec hdwords (by
    show d.esp.toNat + 32 + 20 < _
    omega)
  -- the processor before `iretd`
  obtain ⟨g, hg⟩ : ∃ g : Cpu, g = { d with
      edi := r.edi, esi := r.esi, ebp := r.ebp, ebx := r.ebx, edx := r.edx, ecx := r.ecx
      eax := r.eax, esp := d.esp + 32, eflags := d.eflags ||| Cpu.interruptFlag } := ⟨_, rfl⟩
  have hgesp : g.esp.toNat = d.esp.toNat + 32 := by
    rw [hg]
    exact hpopped
  have htop : g.mem.Words g.esp.toNat r.last := by
    rw [hg]
    exact hlast
  have hring : Cpu.ring g.cs = 0 := by
    rw [hg, hd]
    show Cpu.ring c.cs = 0
    rw [hcs]
    rfl
  have hcode : Cpu.exec (asmIsrReturn ra).dropLast c = some g := by
    refine Cpu.exec_ret_of hra ?_
    refine Cpu.exec_cons_of rfl ?_
    show Cpu.exec _ { c with esp := c.esp + 4 + 8 } = _
    rw [← hd]
    refine Cpu.exec_cons_of rfl ?_
    rw [hpopad, hg]
    rfl
  refine ⟨g, hcode, hring, htop, by omega, ?_⟩
  rw [(iret_spec htop (by omega) hring).1, hg]

/-- The wrapper of 14 takes the error code from the stack. -/
theorem exec_isr14Return {c : Cpu} {r : TaskRegisters} {cr2 code reserved : BitVec 32}
    (hwords : c.mem.Words c.esp.toNat
      ([ra, cr2, code, frame] ++ (r.general reserved ++ ([code] ++ r.last))))
    (hroom : c.esp.toNat + 72 < 2 ^ 32) (hcs : c.cs = gdtKernelCodeSegment) :
    ∃ cpu, Cpu.exec (asmIsr14Return ra) c = some cpu ∧ interrupted cpu = r := by
  have hra : c.stack 0 = ra := Cpu.stack_of_words hwords hroom 0 rfl
  have hesp : (c.esp + 4 + 12).toNat = c.esp.toNat + 16 := by
    rw [BitVec.add_assoc]
    exact Cpu.toNat_add_disp (show c.esp.toNat + 16 < 2 ^ 32 by omega)
  obtain ⟨d, hd⟩ : ∃ d : Cpu, d = { c with esp := c.esp + 4 + 12 } := ⟨_, rfl⟩
  have hdwords : d.mem.Words d.esp.toNat (r.general reserved ++ ([code] ++ r.last)) := by
    rw [hd]
    show c.mem.Words (c.esp + 4 + 12).toNat _
    rw [hesp]
    exact (Mem.words_append.mp hwords).2
  have hdesp : d.esp.toNat = c.esp.toNat + 16 := by
    rw [hd]
    exact hesp
  obtain ⟨hpopad, hpopped, hbehind⟩ := popad_spec hdwords (by
    show d.esp.toNat + 32 + 24 < _
    omega)
  -- the processor before `iretd`
  obtain ⟨g, hg⟩ : ∃ g : Cpu, g = { d with
      edi := r.edi, esi := r.esi, ebp := r.ebp, ebx := r.ebx, edx := r.edx, ecx := r.ecx
      eax := r.eax, esp := d.esp + 32 + 4, eflags := d.eflags ||| Cpu.interruptFlag } := ⟨_, rfl⟩
  have hcode : Cpu.exec (asmIsr14Return ra) c = some g.iret := by
    refine Cpu.exec_ret_of hra ?_
    refine Cpu.exec_cons_of rfl ?_
    show Cpu.exec _ { c with esp := c.esp + 4 + 12 } = _
    rw [← hd]
    refine Cpu.exec_cons_of rfl ?_
    rw [hpopad, hg]
    rfl
  have hgesp : g.esp.toNat = d.esp.toNat + 36 := by
    rw [hg]
    show (d.esp + 32 + 4).toNat = _
    rw [Cpu.toNat_add_disp (show (d.esp + 32).toNat + 4 < 2 ^ 32 by omega), hpopped]
    rfl
  have htop : g.mem.Words g.esp.toNat r.last := by
    rw [hgesp, hg]
    rw [hpopped] at hbehind
    exact hbehind.2
  have hring : Cpu.ring g.cs = 0 := by
    rw [hg, hd]
    show Cpu.ring c.cs = 0
    rw [hcs]
    rfl
  obtain ⟨hregs, -, -⟩ := iret_spec htop (by omega) hring
  refine ⟨g.iret, hcode, ?_⟩
  rw [hregs, hg]

section Outcome

variable {entries : Entries} {e : Exception} {left cpu' : Cpu} {message : String}

theorem raise_halted (hentry : Cpu.exec (e.entry entries.ra)
      (cpu.fault gdtKernelDataSegment esp0 gdtKernelCodeSegment handler e.error) = some before)
    (hpanics : e.panics before = some message) :
    raise entries handler cpu e left = some (.halted message) := by
  unfold raise
  rw [hentry]
  show (match e.panics before with
    | some message => some (Outcome.halted message)
    | none => _) = _
  rw [hpanics]

theorem raise_goesOn (hentry : Cpu.exec (e.entry entries.ra)
      (cpu.fault gdtKernelDataSegment esp0 gdtKernelCodeSegment handler e.error) = some before)
    (hpanics : e.panics before = none)
    (hexit : Cpu.exec (e.exit entries.ra)
      (returned before left (keeping [] before.esp.toNat before.mem left.mem)) = some cpu') :
    raise entries handler cpu e left = some (.goesOn cpu') := by
  unfold raise
  rw [hentry]
  show (match e.panics before with
    | some message => some (Outcome.halted message)
    | none => (Cpu.exec (e.exit entries.ra) (returned before left
        (keeping [] before.esp.toNat before.mem left.mem))).bind
          fun after => some (.goesOn after)) = _
  rw [hpanics, hexit]
  rfl

end Outcome

end Raise

/-- A page fault halts the machine exactly when the two lowest bits of the address of the
    instruction are set, whichever ring it is in; otherwise the instruction is tried again, with
    all registers as they were. -/
theorem page_fault_outcome (entries : Entries) (handler error cr2 : BitVec 32) (cpu left : Cpu)
    (hend : kernelStackBottom + 72 ≤ frameEnd cpu) (hin : StackIn cpu) :
    (cpu.eip &&& 3 = 3 → raise entries handler cpu (.isr14 error cr2) left
        = some (.halted "[CRITICAL] System Halted!")) ∧
      (cpu.eip &&& 3 ≠ 3 → ∃ cpu', raise entries handler cpu (.isr14 error cr2) left
        = some (.goesOn cpu') ∧ interrupted cpu' = interrupted cpu) := by
  obtain ⟨before, frame, hentry, hraised⟩ := enter_isr14 error cr2 handler entries.ra hend hin
  have hframe : before.stack 3 = frame := hraised.stack_arg hin 3 rfl
  -- the error code is in front of them, so `eip` is where the handler looks for `cs`
  have hpanics : (Exception.isr14 error cr2).panics before
      = if cpu.eip &&& 3 = 3 then some "[CRITICAL] System Halted!" else none := by
    show isr14Handler before.mem (before.stack 3) = _
    unfold isr14Handler
    rw [hframe, hraised.frameCs_some hin]
  refine ⟨fun heip => raise_halted hentry (hpanics.trans (if_pos heip)), fun heip => ?_⟩
  obtain ⟨reserved, hwords⟩ := hraised.words_keeping hin left.mem
  obtain ⟨⟨_, hstacked⟩, -, hcs⟩ := hraised
  have hesp : before.esp.toNat + 72 = frameEnd cpu := hstacked.esp
  have hlt := esp0_lt
  unfold StackIn at hin
  obtain ⟨cpu', hexit, hregs⟩ := exec_isr14Return
    (c := returned before left (keeping [] before.esp.toNat before.mem left.mem)) hwords (by
      show before.esp.toNat + 72 < _
      omega) hcs
  exact ⟨cpu', raise_goesOn hentry (hpanics.trans (if_neg heip)) hexit, hregs⟩

theorem page_fault_outcome_shell : raise entriesSomewhere 0xC0100090 idleAndShell.cpu
    (.isr14 7 0xC0000001) idleAndShell.cpu = some (.halted "[CRITICAL] System Halted!") := by
  have hend : kernelStackBottom + 72 ≤ frameEnd idleAndShell.cpu := by decide
  have heip : idleAndShell.cpu.eip &&& 3 = 3 := by decide
  exact (page_fault_outcome entriesSomewhere 0xC0100090 7 0xC0000001 idleAndShell.cpu
    idleAndShell.cpu hend shows_idleAndShell.stack).1 heip

/-! ## The error code that is left -/

/-- A selector names one of the five segments of the kernel's table, or none. -/
theorem descriptor_gdtEntries (selector : Nat) :
    Cpu.descriptor gdtEntries selector = none ∧
        (selector / 4 % 2 = 1 ∨ selector / 8 = 0 ∨ 6 ≤ selector / 8) ∨
      selector / 4 % 2 = 0 ∧ ∃ i ∈ [1, 2, 3, 4, 5], selector / 8 = i ∧
        Cpu.descriptor gdtEntries selector = gdtEntries[i]? := by
  unfold Cpu.descriptor
  by_cases hnone : selector / 4 = 0 ∨ selector / 4 % 2 = 1
  · exact .inl ⟨if_pos hnone, by omega⟩
  · rw [if_neg hnone]
    by_cases hlt : selector / 8 < 6
    · refine .inr ⟨by omega, selector / 8, ?_, rfl, rfl⟩
      simp only [List.mem_cons, List.not_mem_nil, or_false]
      omega
    · exact .inl ⟨List.getElem?_eq_none (Nat.le_of_not_lt hlt), by omega⟩

/-- The kernel's code returns to two of the segments of its table: to its own, and to the code of
    ring 3. -/
theorem loadsCs_gdtEntries (selector : Nat) :
    Cpu.loadsCs gdtEntries 0 selector = true ↔ selector = 0x08 ∨ selector = 0x1B := by
  unfold Cpu.loadsCs
  obtain ⟨hnone, hselector⟩ | ⟨htable, i, hi, hselector, hentry⟩ := descriptor_gdtEntries selector
  · rw [hnone]
    refine iff_of_false Bool.false_ne_true ?_
    omega
  · rw [hentry]
    simp only [List.mem_cons, List.not_mem_nil, or_false] at hi
    obtain rfl | rfl | rfl | rfl | rfl := hi
    all_goals
      simp [gdtEntries, Cpu.level]
      omega

/-- In ring 3 the stack is in the data segment of ring 3. -/
theorem loadsSs_gdtEntries (selector : Nat) :
    Cpu.loadsSs gdtEntries 3 selector = true ↔ selector = 0x23 := by
  unfold Cpu.loadsSs
  obtain ⟨hnone, hselector⟩ | ⟨htable, i, hi, hselector, hentry⟩ := descriptor_gdtEntries selector
  · rw [hnone]
    refine iff_of_false Bool.false_ne_true ?_
    omega
  · rw [hentry]
    simp only [List.mem_cons, List.not_mem_nil, or_false] at hi
    obtain rfl | rfl | rfl | rfl | rfl := hi
    all_goals
      simp [gdtEntries, Cpu.level]
      omega

/-- What passes the checks of an `iretd` in the kernel -/
theorem iretLoads_gdtEntries {c : Cpu} (hring : Cpu.ring c.cs = 0)
    (hflags : c.stack 2 &&& Cpu.vmFlag = 0) :
    c.iretLoads gdtEntries = true ↔
      c.selectorAt 1 = 0x08 ∨ c.selectorAt 1 = 0x1B ∧ c.selectorAt 4 = 0x23 := by
  unfold Cpu.iretLoads
  have hcpl : (Cpu.ring c.cs).toNat = 0 := congrArg BitVec.toNat hring
  simp only [hcpl, hflags, decide_true, Bool.true_and, Bool.and_eq_true, Bool.or_eq_true,
    decide_eq_true_eq, loadsCs_gdtEntries]
  constructor
  · rintro ⟨h | h, hss⟩
    · exact .inl h
    · rw [h] at hss
      exact .inr ⟨h, (loadsSs_gdtEntries _).mp (hss.resolve_left (by decide))⟩
  · rintro (h | ⟨h, hss⟩)
    · rw [h]
      exact ⟨.inl rfl, .inl rfl⟩
    · rw [h]
      exact ⟨.inr rfl, .inr ((loadsSs_gdtEntries _).mpr hss)⟩

/-- The registers that are loaded when an error code is taken for the first word behind the
    general registers -/
def shifted (r : TaskRegisters) (error : BitVec 32) : TaskRegisters :=
  { r with eip := error, cs := r.eip, eflags := r.cs, esp := r.eflags, ss := r.esp }

/-- The address of the instruction is a selector of the code segment of a ring, and where that is
    ring 3 the stack pointer is one of its data segment. -/
def LooksLikeSegments (r : TaskRegisters) : Prop :=
  r.eip.toNat % 2 ^ 16 = 0x08 ∨ r.eip.toNat % 2 ^ 16 = 0x1B ∧ r.esp.toNat % 2 ^ 16 = 0x23

/-- The exceptions whose handlers panic, and the message each does it with -/
def Exception.number : Exception → Option Nat
  | .isr0 => some 0
  | .isr1 => some 1
  | .isr2 _ => some 2
  | .isr6 => some 6
  | .isr8 _ => some 8
  | .isr12 _ => some 12
  | _ => none

/-- In the segments that tasks run in, the kernel's and the one of ring 3, the code for faults of
    user tasks is never reached: `GDT_USER_CODE_SEGMENT` is not what `cs` is in ring 3. -/
theorem isr0Handler_of_task {m : Mem} {frame : BitVec 32} (isrNum : Nat)
    (hcs : frameCs m frame = gdtKernelCodeSegment ∨ frameCs m frame = gdtUserCodeSegment ||| 3) :
    isr0Handler isrNum m frame = interruptMessages[isrNum]? := by
  unfold isr0Handler
  rcases hcs with hkernel | huser
  · exact if_pos hkernel
  · rw [huser, if_neg (by decide), if_neg (by decide)]

/-- A division by zero, a debug exception, an NMI, an invalid opcode, a double fault and a stack
    fault halt the machine, those of user tasks, too. -/
theorem exceptions_halt (entries : Entries) (handler : BitVec 32) (cpu left : Cpu)
    (e : Exception) (n : Nat) (he : e.number = some n)
    (hcs : cpu.cs = gdtKernelCodeSegment ∨ cpu.cs = gdtUserCodeSegment ||| 3)
    (hend : kernelStackBottom + 72 ≤ frameEnd cpu) (hin : StackIn cpu) :
    ∃ message, interruptMessages[n]? = some message ∧
      raise entries handler cpu e left = some (.halted message) := by
  have hisr : ∀ k : BitVec 32, ∃ before, Cpu.exec (asmIsrEntry k entries.ra)
      (cpu.fault gdtKernelDataSegment esp0 gdtKernelCodeSegment handler none) = some before ∧
      isr0Handler (before.stack 1).toNat before.mem (before.stack 2)
        = interruptMessages[k.toNat]? := by
    intro k
    obtain ⟨before, frame, hentry, hraised⟩ := enter_isr k handler entries.ra none hend hin
    have hn : before.stack 1 = k := hraised.stack_arg hin 1 rfl
    have hframe : before.stack 2 = frame := hraised.stack_arg hin 2 rfl
    refine ⟨before, hentry, ?_⟩
    rw [hn, hframe]
    exact isr0Handler_of_task k.toNat (by rwa [hraised.frameCs_none hin])
  cases e with
  | isr0 =>
      obtain rfl : 0 = n := Option.some.inj he
      obtain ⟨before, hentry, hpanics⟩ := hisr 0
      exact ⟨_, rfl, raise_halted hentry hpanics⟩
  | isr1 =>
      obtain rfl : 1 = n := Option.some.inj he
      obtain ⟨before, hentry, hpanics⟩ := hisr 1
      exact ⟨_, rfl, raise_halted hentry hpanics⟩
  | isr2 status =>
      obtain rfl : 2 = n := Option.some.inj he
      obtain ⟨before, hentry, hpanics⟩ := hisr 2
      refine ⟨_, rfl, raise_halted hentry ?_⟩
      -- the status is read behind the test of the segment only
      show (isr0Handler _ _ _).or _ = _
      rw [hpanics]
      rfl
  | isr6 =>
      obtain rfl : 6 = n := Option.some.inj he
      obtain ⟨before, hentry, hpanics⟩ := hisr 6
      exact ⟨_, rfl, raise_halted hentry hpanics⟩
  | isr8 error =>
      obtain rfl : 8 = n := Option.some.inj he
      obtain ⟨before, frame, hentry, -⟩ := enter_isrError error handler entries.ra hend hin
      exact ⟨_, rfl, raise_halted hentry rfl⟩
  | isr12 error =>
      obtain rfl : 12 = n := Option.some.inj he
      obtain ⟨before, frame, hentry, -⟩ := enter_isrError error handler entries.ra hend hin
      exact ⟨_, rfl, raise_halted hentry rfl⟩
  | isr13 error => cases he
  | isr14 error cr2 => cases he
  | other error => cases he

theorem exceptions_halt_shell : ∃ message, raise entriesSomewhere 0xC0100090 idleAndShell.cpu
    .isr0 idleAndShell.cpu = some (.halted message) := by
  have hend : kernelStackBottom + 72 ≤ frameEnd idleAndShell.cpu := by decide
  have hcs : idleAndShell.cpu.cs = gdtUserCodeSegment ||| 3 := by decide
  obtain ⟨message, -, hraise⟩ := exceptions_halt entriesSomewhere 0xC0100090 idleAndShell.cpu
    idleAndShell.cpu .isr0 0 rfl (.inr hcs) hend shows_idleAndShell.stack
  exact ⟨message, hraise⟩

end Switching

end Icarius
