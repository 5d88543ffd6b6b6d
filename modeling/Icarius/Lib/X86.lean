/-
  Icarius.Lib.X86

  A part of the 32-bit x86: the registers, the stack, and the instructions that interrupt
  entries, context switches and their returns are made of.  Code is a list of instructions
  without a jump; a `call` and the `ret` behind it are in one list.  Memory is read and
  written in words of 32 bits.

  The arithmetic flags are left out: no instruction here reads them, and `iretd` loads the
  flags anew.
-/

import Icarius.Lib.Bytes

namespace Icarius.Lib

/-! ## Words in memory -/

namespace Mem

/-- The word at `a` -/
def word (m : Mem) (a : Nat) : BitVec 32 := BitVec.ofNat 32 (m.load 4 a)

/-- Store a word at `a`. -/
def setWord (m : Mem) (a : Nat) (v : BitVec 32) : Mem := m.store 4 a v.toNat

/-- The words `ws` are in the memory from `a` on. -/
def Words (m : Mem) (a : Nat) : List (BitVec 32) → Prop
  | [] => True
  | w :: ws => m.word a = w ∧ Words m (a + 4) ws

/-- Store words from `a` on. -/
def setWords (m : Mem) (a : Nat) : List (BitVec 32) → Mem
  | [] => m
  | w :: ws => (setWords m (a + 4) ws).setWord a w

section Words

variable {m m' : Mem} {a b : Nat} {v : BitVec 32} {ws ws' : List (BitVec 32)}

theorem word_congr (h : Agree m m' a 4) : m'.word a = m.word a :=
  congrArg (BitVec.ofNat 32) (load_congr h)

theorem word_setWord_self (m : Mem) (a : Nat) (v : BitVec 32) : (m.setWord a v).word a = v := by
  have hlt : v.toNat < 256 ^ 4 := v.isLt
  unfold word setWord
  rw [load_store_self, Nat.mod_eq_of_lt hlt]
  exact BitVec.ofNat_toNat 32 v ▸ BitVec.setWidth_eq v

theorem agree_setWord (m : Mem) {n : Nat} (v : BitVec 32) (h : b + n ≤ a ∨ a + 4 ≤ b) :
    Agree m (m.setWord a v) b n := agree_store m h

theorem word_setWord_of_disjoint (m : Mem) (v : BitVec 32) (h : b + 4 ≤ a ∨ a + 4 ≤ b) :
    (m.setWord a v).word b = m.word b := word_congr (agree_setWord m v h)

theorem Words.congr (h : m.Words a ws) (hagree : Agree m m' a (4 * ws.length)) :
    m'.Words a ws := by
  induction ws generalizing a with
  | nil => trivial
  | cons w ws ih =>
      obtain ⟨hw, hws⟩ := h
      have hlen : (w :: ws).length = ws.length + 1 := rfl
      refine ⟨?_, ih hws fun x hle hlt => hagree x (by omega) (by omega)⟩
      rw [← hw]
      exact word_congr fun x hle hlt => hagree x hle (by omega)

/-- Words stay when another word is stored outside of them. -/
theorem Words.setWord (h : m.Words a ws) (v : BitVec 32)
    (hdisj : a + 4 * ws.length ≤ b ∨ b + 4 ≤ a) : (m.setWord b v).Words a ws :=
  h.congr (agree_setWord m v hdisj)

/-- A word in front of others -/
theorem Words.push (h : m.Words (a + 4) ws) (v : BitVec 32) :
    (m.setWord a v).Words a (v :: ws) :=
  ⟨word_setWord_self m a v, h.setWord v (.inr (Nat.le_refl _))⟩

theorem words_setWords (m : Mem) (a : Nat) (ws : List (BitVec 32)) :
    (m.setWords a ws).Words a ws := by
  induction ws generalizing a with
  | nil => trivial
  | cons w ws ih => exact (ih (a + 4)).push w

theorem words_append : m.Words a (ws ++ ws') ↔ m.Words a ws ∧ m.Words (a + 4 * ws.length) ws' := by
  induction ws generalizing a with
  | nil => exact (true_and _).symm ▸ Iff.rfl
  | cons w ws ih =>
      have hnext : a + 4 * (w :: ws).length = a + 4 + 4 * ws.length := by
        rw [List.length_cons]
        omega
      show m.word a = w ∧ m.Words (a + 4) (ws ++ ws') ↔ _
      rw [hnext, ih, ← and_assoc]
      rfl

/-- One of the words -/
theorem Words.get (h : m.Words a ws) {i : Nat} (hi : ws[i]? = some v) : m.word (a + 4 * i) = v := by
  induction ws generalizing a i with
  | nil => cases hi
  | cons w ws ih =>
      cases i with
      | zero =>
          obtain rfl : w = v := Option.some.inj hi
          exact h.1
      | succ i =>
          have hnext := ih h.2 hi
          have haddr : a + 4 * (i + 1) = a + 4 + 4 * i := by omega
          rw [haddr]
          exact hnext

/-- One of the words is stored anew. -/
theorem Words.set (h : m.Words a ws) (v : BitVec 32) (i : Nat) :
    i < ws.length → (m.setWord (a + 4 * i) v).Words a (ws.set i v) := by
  induction ws generalizing a i with
  | nil => exact fun hi => absurd hi (Nat.not_lt_zero i)
  | cons w ws ih =>
      intro hi
      have hlen : (w :: ws).length = ws.length + 1 := rfl
      cases i with
      | zero => exact h.2.push v
      | succ i =>
          have haddr : a + 4 * (i + 1) = a + 4 + 4 * i := by omega
          rw [haddr]
          refine ⟨?_, ih h.2 i (by omega)⟩
          rw [← h.1]
          exact word_setWord_of_disjoint m v (.inl (by omega))

end Words

end Mem

/-! ## The processor -/

namespace X86

/-- The general-purpose registers -/
inductive Reg where
  | edi | esi | ebp | esp | ebx | edx | ecx | eax

/-- The segment registers that the code here loads -/
inductive Seg where
  | ds | es | fs | gs

structure Cpu where
  edi : BitVec 32
  esi : BitVec 32
  ebp : BitVec 32
  esp : BitVec 32
  ebx : BitVec 32
  edx : BitVec 32
  ecx : BitVec 32
  eax : BitVec 32
  eip : BitVec 32
  cs : BitVec 32
  eflags : BitVec 32
  ss : BitVec 32
  ds : BitVec 16
  es : BitVec 16
  fs : BitVec 16
  gs : BitVec 16
  mem : Mem

/-- What an instruction reads -/
inductive Operand where
  | reg (r : Reg)
  | mem (base : Reg) (disp : BitVec 32)
  | imm (v : BitVec 32)

inductive Instr where
  | cli
  | sti
  | pushad
  | popad
  | iretd
  | push (o : Operand)
  | pop (r : Reg)
  | mov (r : Reg) (o : Operand)
  /-- A move to the low half of a register -/
  | mov16 (r : Reg) (o : Operand)
  | movSeg (s : Seg) (r : Reg)
  | or (r : Reg) (imm : BitVec 32)
  | add (r : Reg) (imm : BitVec 32)
  /-- A call whose return address is `ra` -/
  | call (ra : BitVec 32)
  /-- The return to `ra` -/
  | ret (ra : BitVec 32)

namespace Cpu

def get (cpu : Cpu) : Reg → BitVec 32
  | .edi => cpu.edi
  | .esi => cpu.esi
  | .ebp => cpu.ebp
  | .esp => cpu.esp
  | .ebx => cpu.ebx
  | .edx => cpu.edx
  | .ecx => cpu.ecx
  | .eax => cpu.eax

def set (cpu : Cpu) (v : BitVec 32) : Reg → Cpu
  | .edi => { cpu with edi := v }
  | .esi => { cpu with esi := v }
  | .ebp => { cpu with ebp := v }
  | .esp => { cpu with esp := v }
  | .ebx => { cpu with ebx := v }
  | .edx => { cpu with edx := v }
  | .ecx => { cpu with ecx := v }
  | .eax => { cpu with eax := v }

def setSeg (cpu : Cpu) (v : BitVec 16) : Seg → Cpu
  | .ds => { cpu with ds := v }
  | .es => { cpu with es := v }
  | .fs => { cpu with fs := v }
  | .gs => { cpu with gs := v }

def value (cpu : Cpu) : Operand → BitVec 32
  | .reg r => cpu.get r
  | .mem base disp => cpu.mem.word (cpu.get base + disp).toNat
  | .imm v => v

/-- A word onto the stack -/
def push (cpu : Cpu) (v : BitVec 32) : Cpu :=
  { cpu with esp := cpu.esp - 4, mem := cpu.mem.setWord (cpu.esp - 4).toNat v }

/-- Words onto the stack, one after the other -/
def pushes (cpu : Cpu) (vs : List (BitVec 32)) : Cpu := vs.foldl push cpu

/-- The word `i` places above the top of the stack -/
def stack (cpu : Cpu) (i : Nat) : BitVec 32 :=
  cpu.mem.word (cpu.esp + BitVec.ofNat 32 (4 * i)).toNat

/-- The privilege level of a code segment -/
def ring (cs : BitVec 32) : BitVec 32 := cs &&& 3

/-- `IF`, the flag that lets interrupts in -/
def interruptFlag : BitVec 32 := 0x200

def cli (cpu : Cpu) : Cpu := { cpu with eflags := cpu.eflags &&& ~~~interruptFlag }

/-- `pushad`: `esp` as it was before -/
def pushad (cpu : Cpu) : Cpu :=
  cpu.pushes [cpu.eax, cpu.ecx, cpu.edx, cpu.ebx, cpu.esp, cpu.ebp, cpu.esi, cpu.edi]

/-- `popad`: the `esp` of `pushad` is skipped. -/
def popad (cpu : Cpu) : Cpu :=
  { cpu with
    edi := cpu.stack 0, esi := cpu.stack 1, ebp := cpu.stack 2, ebx := cpu.stack 4
    edx := cpu.stack 5, ecx := cpu.stack 6, eax := cpu.stack 7, esp := cpu.esp + 32 }

/-- `iretd`, when it faults at nothing: to an outer ring the stack pointer is taken from the
    stack, too. -/
def iret (cpu : Cpu) : Cpu :=
  let back := { cpu with eip := cpu.stack 0, cs := cpu.stack 1, eflags := cpu.stack 2 }
  if ring (cpu.stack 1) = ring cpu.cs then { back with esp := cpu.esp + 12 }
  else { back with esp := cpu.stack 3, ss := cpu.stack 4 }

/-- The access byte of the segment that a selector names, of those in the table: the null
    selector and the selectors of a local table name none. -/
def descriptor (gdt : List (BitVec 8)) (selector : Nat) : Option (BitVec 8) :=
  if selector / 4 = 0 ∨ selector / 4 % 2 = 1 then none else gdt[selector / 8]?

/-- The privilege level of a segment -/
def level (access : BitVec 8) : Nat := access.toNat / 32 % 4

/-- A selector for `cs` that a return of code in the ring `cpl` may load: of a present code
    segment, not further inside, and of the level of the segment unless that conforms. -/
def loadsCs (gdt : List (BitVec 8)) (cpl selector : Nat) : Bool :=
  match descriptor gdt selector with
  | none => false
  | some access =>
      access &&& 0x98 = 0x98 && cpl ≤ selector % 4 &&
        if access &&& 4 = 0 then level access = selector % 4 else level access ≤ selector % 4

/-- A selector for `ss` in the ring `rpl`: of a present data segment of this level that is
    writable -/
def loadsSs (gdt : List (BitVec 8)) (rpl selector : Nat) : Bool :=
  match descriptor gdt selector with
  | none => false
  | some access => access &&& 0x9A = 0x92 && selector % 4 = rpl && level access = rpl

/-- The lower half of the word `i` places above the top of the stack -/
def selectorAt (cpu : Cpu) (i : Nat) : Nat := (cpu.stack i).toNat % 2 ^ 16

/-- `VM`, the flag with which `iretd` leaves protected mode -/
def vmFlag : BitVec 32 := 0x20000

/-- The selectors that `iretd` is about to load pass its checks, in segments that have no
    limit. -/
def iretLoads (cpu : Cpu) (gdt : List (BitVec 8)) : Bool :=
  let cpl := (ring cpu.cs).toNat
  let rpl := cpu.selectorAt 1 % 4
  cpu.stack 2 &&& vmFlag = 0 && loadsCs gdt cpl (cpu.selectorAt 1) &&
    (rpl = cpl || loadsSs gdt rpl (cpu.selectorAt 4))

/-- `iretd` with its checks; without a processor it is another fault. -/
def iretChecked (cpu : Cpu) (gdt : List (BitVec 8)) : Option Cpu :=
  if cpu.iretLoads gdt then some cpu.iret else none

def step (cpu : Cpu) : Instr → Option Cpu
  | .cli => some cpu.cli
  | .sti => some { cpu with eflags := cpu.eflags ||| interruptFlag }
  | .pushad => some cpu.pushad
  | .popad => some cpu.popad
  | .iretd => some cpu.iret
  | .push o => some (cpu.push (cpu.value o))
  | .pop r => some ({ cpu with esp := cpu.esp + 4 }.set (cpu.stack 0) r)
  | .mov r o => some (cpu.set (cpu.value o) r)
  | .mov16 r o => some (cpu.set ((cpu.get r).extractLsb' 16 16 ++ (cpu.value o).setWidth 16) r)
  | .movSeg s r => some (cpu.setSeg ((cpu.get r).setWidth 16) s)
  | .or r imm => some (cpu.set (cpu.get r ||| imm) r)
  | .add r imm => some (cpu.set (cpu.get r + imm) r)
  | .call ra => some (cpu.push ra)
  | .ret ra => if cpu.stack 0 = ra then some { cpu with esp := cpu.esp + 4 } else none

/-- A list of instructions -/
def exec : List Instr → Cpu → Option Cpu
  | [], cpu => some cpu
  | i :: is, cpu => (cpu.step i).bind (exec is)

/-- The stack at the beginning of an interrupt: from an outer ring the processor changes to
    the stack of the TSS and keeps the old one on it. -/
def interruptStack (cpu : Cpu) (ss0 esp0 kernelCs : BitVec 32) : Cpu :=
  if ring cpu.cs = ring kernelCs then cpu.pushes [cpu.eflags, cpu.cs, cpu.eip]
  else { cpu with esp := esp0, ss := ss0 }.pushes [cpu.ss, cpu.esp, cpu.eflags, cpu.cs, cpu.eip]

/-- An interrupt or an `int`, through an interrupt gate to `handler` -/
def interrupt (cpu : Cpu) (ss0 esp0 kernelCs handler : BitVec 32) : Cpu :=
  { cpu.interruptStack ss0 esp0 kernelCs with
    eip := handler, cs := kernelCs, eflags := cpu.eflags &&& ~~~interruptFlag }

/-- A fault: some have an error code, which the processor pushes behind the rest. -/
def fault (cpu : Cpu) (ss0 esp0 kernelCs handler : BitVec 32) : Option (BitVec 32) → Cpu
  | none => cpu.interrupt ss0 esp0 kernelCs handler
  | some error => (cpu.interrupt ss0 esp0 kernelCs handler).push error

/-! ## Rules -/

section Rules

variable {cpu cpu' : Cpu} {v : BitVec 32} {vs ws : List (BitVec 32)} {is is' : List Instr}

theorem exec_append : exec (is ++ is') cpu = (exec is cpu).bind (exec is') := by
  induction is generalizing cpu with
  | nil => rfl
  | cons i is ih =>
      show (cpu.step i).bind (exec (is ++ is')) = ((cpu.step i).bind (exec is)).bind (exec is')
      rw [Option.bind_assoc]
      congr 1
      funext cpu'
      exact ih

theorem exec_cons_of {i : Instr} {fin : Option Cpu} (hstep : cpu.step i = some cpu')
    (h : exec is cpu' = fin) : exec (i :: is) cpu = fin := by
  show (cpu.step i).bind (exec is) = fin
  rw [hstep]
  exact h

/-- A move of a known value, and what comes behind it -/
theorem exec_mov_of {r : Reg} {o : Operand} {fin : Option Cpu} (hv : cpu.value o = v)
    (h : exec is (cpu.set v r) = fin) : exec (.mov r o :: is) cpu = fin := by
  rw [← h, ← hv]
  rfl

theorem exec_push_of {o : Operand} {fin : Option Cpu} (hv : cpu.value o = v)
    (h : exec is (cpu.push v) = fin) : exec (.push o :: is) cpu = fin := by
  rw [← h, ← hv]
  rfl

theorem exec_pop_of {r : Reg} {fin : Option Cpu} (hv : cpu.stack 0 = v)
    (h : exec is ({ cpu with esp := cpu.esp + 4 }.set v r) = fin) :
    exec (.pop r :: is) cpu = fin := by
  rw [← h, ← hv]
  rfl

theorem exec_ret_of {ra : BitVec 32} {fin : Option Cpu} (hra : cpu.stack 0 = ra)
    (h : exec is { cpu with esp := cpu.esp + 4 } = fin) : exec (.ret ra :: is) cpu = fin := by
  have hstep : cpu.step (.ret ra) = some { cpu with esp := cpu.esp + 4 } := if_pos hra
  show (cpu.step (.ret ra)).bind (exec is) = fin
  rw [hstep]
  exact h

theorem exec_append_of (h : exec is cpu = some cpu') :
    exec (is ++ is') cpu = exec is' cpu' := by
  rw [exec_append, h]
  rfl

/-- What `vs` pushed in turn leaves of the processor `cpu`: the stack pointer is lower by a
    word for each, nothing at or above the old one is changed, nor any other register. -/
structure Pushed (cpu : Cpu) (vs : List (BitVec 32)) (cpu' : Cpu) : Prop where
  esp : cpu'.esp.toNat + 4 * vs.length = cpu.esp.toNat
  words : cpu'.mem.Words cpu'.esp.toNat vs.reverse
  frame : ∀ a, a < cpu'.esp.toNat ∨ cpu.esp.toNat ≤ a → cpu'.mem a = cpu.mem a
  rest : cpu' = { cpu with esp := cpu'.esp, mem := cpu'.mem }

theorem toNat_push_esp (cpu : Cpu) (h : 4 ≤ cpu.esp.toNat) (v : BitVec 32) :
    (cpu.push v).esp.toNat + 4 = cpu.esp.toNat := by
  have hsub : (cpu.esp - 4).toNat = cpu.esp.toNat - 4 := BitVec.toNat_sub_of_le h
  show (cpu.esp - 4).toNat + 4 = _
  omega

/-- Pushing, where there is room -/
theorem pushed_pushes (cpu : Cpu) (vs : List (BitVec 32)) (h : 4 * vs.length ≤ cpu.esp.toNat) :
    cpu.Pushed vs (cpu.pushes vs) := by
  induction vs generalizing cpu with
  | nil => exact ⟨rfl, trivial, fun _ _ => rfl, rfl⟩
  | cons v vs ih =>
      rw [List.length_cons] at h
      have hesp := cpu.toNat_push_esp (by omega) v
      obtain ⟨hend, hwords, hframe, hrest⟩ := ih (cpu.push v) (by omega)
      have hmem : (cpu.push v).mem = cpu.mem.setWord (cpu.push v).esp.toNat v := rfl
      have hsame : cpu.pushes (v :: vs) = (cpu.push v).pushes vs := rfl
      rw [hsame]
      refine ⟨?_, ?_, fun a ha => ?_, hrest⟩
      · rw [List.length_cons]
        omega
      · -- the first word is the highest
        rw [List.reverse_cons, Mem.words_append, List.length_reverse, hend]
        refine ⟨hwords, ?_, trivial⟩
        rw [Mem.word_congr fun x hle _ => hframe x (.inr hle), hmem]
        exact Mem.word_setWord_self _ _ v
      · rw [hframe a (by omega), hmem]
        unfold Mem.setWord
        rcases ha with ha | ha
        · exact Mem.store_of_lt _ (by omega)
        · exact Mem.store_of_ge _ (by omega)

theorem Pushed.agree (h : cpu.Pushed vs cpu') {a n : Nat}
    (hout : a + n ≤ cpu'.esp.toNat ∨ cpu.esp.toNat ≤ a) : Agree cpu.mem cpu'.mem a n := by
  intro x hle hlt
  exact h.frame x (by omega)

/-- Words pushed on top of others -/
theorem Pushed.stacked (h : cpu.Pushed vs cpu') (hws : cpu.mem.Words cpu.esp.toNat ws) :
    cpu'.mem.Words cpu'.esp.toNat (vs.reverse ++ ws) := by
  rw [Mem.words_append, List.length_reverse, h.esp]
  exact ⟨h.words, hws.congr (h.agree (.inr (Nat.le_refl _)))⟩

theorem toNat_add_disp {r disp : BitVec 32} (h : r.toNat + disp.toNat < 2 ^ 32) :
    (r + disp).toNat = r.toNat + disp.toNat := by
  rw [BitVec.toNat_add]
  exact Nat.mod_eq_of_lt h

/-- The words on the stack, read one by one -/
theorem stack_of_words (h : cpu.mem.Words cpu.esp.toNat ws)
    (hroom : cpu.esp.toNat + 4 * ws.length < 2 ^ 32) (i : Nat) (hi : ws[i]? = some v) :
    cpu.stack i = v := by
  have hlt : i < ws.length := (List.getElem?_eq_some_iff.mp hi).1
  have hdisp : (BitVec.ofNat 32 (4 * i)).toNat = 4 * i := by
    rw [BitVec.toNat_ofNat]
    exact Nat.mod_eq_of_lt (by omega)
  unfold stack
  rw [toNat_add_disp (by omega), hdisp]
  exact h.get hi

/-- The two words on top of the stack -/
theorem words_stack (h : cpu.esp.toNat + 4 < 2 ^ 32) :
    cpu.mem.Words cpu.esp.toNat [cpu.stack 0, cpu.stack 1] := by
  have hzero : (cpu.esp + BitVec.ofNat 32 (4 * 0)).toNat = cpu.esp.toNat :=
    congrArg BitVec.toNat (BitVec.add_zero cpu.esp)
  have hone : (cpu.esp + BitVec.ofNat 32 (4 * 1)).toNat = cpu.esp.toNat + 4 :=
    toNat_add_disp (show cpu.esp.toNat + (BitVec.ofNat 32 (4 * 1)).toNat < 2 ^ 32 from h)
  refine ⟨?_, ?_, trivial⟩
  · exact congrArg cpu.mem.word hzero.symm
  · exact congrArg cpu.mem.word hone.symm

end Rules

end Cpu

end X86

end Icarius.Lib
