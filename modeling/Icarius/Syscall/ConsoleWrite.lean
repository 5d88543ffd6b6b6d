/-
  Icarius.Syscall.ConsoleWrite

  `_sys_write` to the console, on the machine with its heap: the bytes are copied under the
  directory of the task into a buffer of the kernel's heap, and `kprintf("%s")` draws them from
  there on the display.

  A write gets lost when the heap refuses the buffer, and there are lines of the kernel on the
  screen when the heap grows for it.  On a heap that serves a chunk as it is there is neither,
  and the heap is laid out as before when the call returns.
-/

import Icarius.Kernel.Kprintf
import Icarius.Memory.HeapServe
import Icarius.Process.Model
import Icarius.Syscall.Transfer
import Mathlib.Data.List.TakeWhile

namespace Icarius

open Icarius.Lib Layout

/-! ## The copy under the directory of a task -/

/-- The page tables are all that counts for what a directory sees. -/
theorem Machine.sees_setKernel {s : Machine} {k : Kernel} {ptr a : Nat}
    (hsame : Kernel.SameTables s.kernel k) (hseen : s.sees (s.kernel.dirAt ptr) a) :
    (s.setKernel k).sees (k.dirAt ptr) a := by
  unfold Machine.sees Kernel.dirAt at hseen ⊢
  show _ ∨ (entryPresent (k.kernelDirectory _) = true →
    entryFrame (k.dirs _ _) = entryFrame (k.kernelDirectory _))
  rw [hsame.kernelDirectory, hsame.dirs]
  exact hseen

/-- A store under a directory that sees what the kernel directory does is one to the kernel's
    memory. -/
theorem Machine.underDir_write {s : Machine} {ptr a : Nat} {bytes : List UInt8}
    (hcr3 : s.kernel.cr3 = none)
    (hseen : ∀ i < bytes.length, s.sees (s.kernel.dirAt ptr) (a + i)) :
    s.underDir ptr (fun k => .ok (k.setMem (k.mem.write a bytes)))
      = .ok (s.setKernel (s.kernel.setMem (s.kernel.mem.write a bytes))) := by
  obtain ⟨dir, hdir⟩ : ∃ dir, dir = s.kernel.dirAt ptr := ⟨_, rfl⟩
  rw [← hdir] at hseen
  obtain ⟨seen, hview⟩ : ∃ seen : Mem,
      seen = fun x => if s.sees dir x then s.kernel.mem x else s.stale x := ⟨_, rfl⟩
  -- an address is one of the copy, or nothing is written to it
  have hcases : ∀ x, (∃ i, ∃ hi : i < bytes.length, s.sees dir x ∧
      ∀ m : Mem, m.write a bytes x = bytes[i]) ∨ ∀ m : Mem, m.write a bytes x = m x := by
    intro x
    by_cases hlt : x < a
    · exact .inr fun m => Mem.write_of_lt hlt
    · by_cases hge : a + bytes.length ≤ x
      · exact .inr fun m => Mem.write_of_ge hge
      · obtain ⟨i, rfl⟩ : ∃ i, x = a + i := ⟨x - a, by omega⟩
        have hi : i < bytes.length := by omega
        exact .inl ⟨i, hi, hseen i hi, fun m => Mem.write_add hi⟩
  have hmem : (fun x => if s.sees dir x then seen.write a bytes x else s.kernel.mem x)
      = s.kernel.mem.write a bytes := by
    funext x
    obtain ⟨i, hi, hx, hbyte⟩ | hkeep := hcases x
    · rw [if_pos hx, hbyte, hbyte]
    · rw [hkeep, hkeep, hview]
      by_cases hx : s.sees dir x
      · rw [if_pos hx]
        exact if_pos hx
      · exact if_neg hx
  have hstale : (fun x => if s.sees dir x then s.stale x else seen.write a bytes x)
      = s.stale := by
    funext x
    by_cases hx : s.sees dir x
    · exact if_pos hx
    · obtain ⟨i, hi, hin, hbyte⟩ | hkeep := hcases x
      · exact absurd hin hx
      · rw [if_neg hx, hkeep, hview]
        exact if_neg hx
  unfold Machine.underDir
  simp only [← hdir, ← hview, Kernel.setMem_mem, hmem, hstale]
  rw [Machine.setKernel, Kernel.setMem, Kernel.pageRestoreKernelDir]
  simp only [Kernel.setMem, hcr3]

/-! ## The machine and its display -/

/-- The machine, and what it knows of its display -/
structure KernelConsole where
  machine : Machine
  display : Vbe

namespace KernelConsole

def kernel (self : KernelConsole) : Kernel := self.machine.kernel

/-- What `kprintf` works on -/
def console (self : KernelConsole) : VbeConsole := ⟨self.display, self.kernel.mem⟩

def setKernel (self : KernelConsole) (k : Kernel) : KernelConsole :=
  { self with machine := self.machine.setKernel k }

/-- What `kprintf` has drawn -/
def setConsole (self : KernelConsole) (console : VbeConsole) : KernelConsole :=
  { self.setKernel (self.kernel.setMem console.mem) with display := console.display }

end KernelConsole

/-- The addresses that `kmalloc` hands out -/
def InKernelHeap (a : Nat) : Prop := kernelHeapStart ≤ a ∧ a ≤ kernelHeapMax

/-- What a write to the console finds: the glyphs, the parts of a double, the local buffer of
    `vkprintf`, the addresses of `"%s"` and of the two lines that the heap may print, and the
    directory of the task.  The window of the heap is apart from the pixels, the buffer and the
    format. -/
structure WriteEnv (display : Vbe) where
  asciiBitmap : Nat → Nat → UInt8
  parts : UInt64 → FloatParts
  buffer : Nat
  fmt : Nat
  /-- `"[ERROR] Memory Allocation failed for Size: %d\n"` -/
  failedFmt : Nat
  /-- `"[DEBUG] Heap is growing eating Frame %d\n"` -/
  growingFmt : Nat
  pageDir : Nat
  display_apart : ∀ a, InKernelHeap a → VbeConsole.Outside display a
  buffer_apart : ∀ i < 64, VbeConsole.Outside display (buffer + i) ∧ ¬ InKernelHeap (buffer + i)
  fmt_apart : ∀ i ≤ 2, VbeConsole.Kept display buffer (fmt + i) ∧ ¬ InKernelHeap (fmt + i)

/-- The characters of a write: `kprintf("%s")` ends at the first NUL. -/
def printed (text : List UInt8) : List UInt8 := text.takeWhile (· ≠ 0)

/-- The frames of the next `n` pages of the heap -/
def eatenFrames : Nat → Pfa → List Nat
  | 0, _ => []
  | n + 1, pfa => (pfaAlloc pfa).1 / pageSize :: eatenFrames n (pfaAlloc pfa).2

/-- The bytes of a chunk that are left behind its header -/
def chunkPayload : Nat := kernelHeapChunkSize - heapBlockSize

namespace WriteEnv

variable {display : Vbe}

/-! ## syscall.c -/

/-- `kprintf`, in `fuel` rounds at most -/
def kprintf (env : WriteEnv display) (self : KernelConsole) (fuel fmt : Nat)
    (args : List KernelArg) : Option KernelConsole := do
  let console ← self.console.vkprintf env.asciiBitmap env.parts env.buffer fuel fmt args
  return self.setConsole console

/-- `kzalloc`, with the line of every page that it maps, and the line when it fails.  The lines
    have less than 64 characters. -/
def kzalloc (env : WriteEnv display) (self : KernelConsole) (size : Nat) :
    Option (Nat × KernelConsole) := do
  let (ptr, k) ← (self.kernel.kzalloc size).toOption
  let pages := (k.heap.nextAddr - self.kernel.heap.nextAddr) / pageSize
  let self ← (eatenFrames pages self.kernel.pfa).foldlM
    (fun self frame => env.kprintf self 64 env.growingFmt [.int (BitVec.ofNat 32 frame)])
    (self.setKernel k)
  if ptr = 0 then
    let self ← env.kprintf self 64 env.failedFmt [.int (BitVec.ofNat 32 size)]
    return (0, self)
  else return (ptr, self)

/-- `_sys_write` of some bytes to `FD_STDOUT` or `FD_STDERR`; without a buffer it returns
    `-ENOMEM` -/
def sysWrite (env : WriteEnv display) (self : KernelConsole) (text : List UInt8) :
    Option KernelConsole := do
  let (kernelBuf, self) ← env.kzalloc self text.length
  if kernelBuf = 0 then return self
  else
    -- `memcpy` under the directory of the task, and a NUL behind the last byte
    let machine ← (self.machine.underDir env.pageDir fun k =>
      .ok (k.setMem (k.mem.write kernelBuf (text ++ [0])))).toOption
    let self ← env.kprintf { self with machine := machine } (text.length + 3) env.fmt
      [.string kernelBuf]
    return self.setKernel (self.kernel.kfree kernelBuf)

/-! ## A write on the screen -/

/-- The heap serves a chunk as it is, and the task sees all of the heap. -/
structure HeapReady (env : WriteEnv display) (L : Layout) (machine : Machine) : Prop where
  serves : machine.kernel.Serves L
  cr3 : machine.kernel.cr3 = none
  seen : ∀ a, kernelHeapStart ≤ a → a < machine.kernel.heap.nextAddr →
    machine.sees (machine.kernel.dirAt env.pageDir) a

/-- The console shows the screen of text, `"%s"` is where it belongs, and the heap has room. -/
structure Shows (env : WriteEnv display) (h : display.Mode) (L : Layout) (s : KernelConsole)
    (t : TextScreen) : Prop where
  screen : s.console.Shows env.asciiBitmap h t
  fmt : ∀ i ≤ 2, s.kernel.mem (env.fmt + i) = [(37 : UInt8), 115].getD i 0
  heap : env.HeapReady L s.machine

section Write

variable {env : WriteEnv display} {h : display.Mode} {L : Layout} {self : KernelConsole}
  {machine : Machine} {t : TextScreen} {text : List UInt8}

theorem getD_printed (text : List UInt8) {i : Nat} (hi : i ≤ (printed text).length) :
    (text ++ [0]).getD i 0 = (printed text).getD i 0 := by
  induction text generalizing i with
  | nil =>
      obtain rfl : i = 0 := Nat.le_zero.mp hi
      rfl
  | cons b text ih =>
      by_cases hnul : b = 0
      · have hprinted : printed (b :: text) = [] := by
          unfold printed
          rw [List.takeWhile_cons_of_neg (by simpa using hnul)]
        rw [hprinted] at hi ⊢
        obtain rfl : i = 0 := Nat.le_zero.mp hi
        exact hnul
      · have hprinted : printed (b :: text) = b :: printed text :=
          List.takeWhile_cons_of_pos (by simpa using hnul)
        rw [hprinted] at hi ⊢
        cases i with
        | zero => rfl
        | succ i => exact ih (Nat.le_of_succ_le_succ hi)

/-- The kernel's copy of the bytes, up to the first NUL or the one behind them -/
theorem stringAt_copy {kept : Nat → Prop} (m : Mem) {kernelBuf : Nat} (text : List UInt8)
    (hkept : ∀ i ≤ text.length, kept (kernelBuf + i)) :
    StringAt kept (m.write kernelBuf (text ++ [0])) kernelBuf (printed text) := by
  have hle : (printed text).length ≤ text.length := (List.takeWhile_prefix _).length_le
  refine ⟨fun i hi => hkept i (Nat.le_trans hi hle), fun i hi => ?_⟩
  have hlt : i < (text ++ [0]).length := by
    rw [List.length_append, List.length_singleton]
    omega
  rw [Mem.write_add hlt, List.getElem_eq_getD 0]
  exact getD_printed text hi

/-- The chunks are in the window. -/
theorem HeapReady.inKernelHeap (hready : env.HeapReady L machine) {a : Nat}
    (hlo : kernelHeapStart ≤ a) (hhi : a < machine.kernel.heap.nextAddr) : InKernelHeap a := by
  have hroom := hready.serves.room
  simp only [kernelHeapChunkSize] at hroom
  exact ⟨hlo, by omega⟩

/-- `vkprintf` reads the copy, and neither the display nor its own buffer is in its way. -/
theorem stringAt_kernelBuf (env : WriteEnv display) (m : Mem) {kernelBuf : Nat}
    (hin : ∀ i ≤ text.length, InKernelHeap (kernelBuf + i)) :
    StringAt (VbeConsole.Kept display env.buffer) (m.write kernelBuf (text ++ [0])) kernelBuf
      (printed text) := by
  refine stringAt_copy m text fun i hi => ⟨env.display_apart _ (hin i hi), ?_⟩
  by_contra hlocal
  have hout := (env.buffer_apart (kernelBuf + i - env.buffer) (by omega)).2
  rw [Nat.add_sub_cancel' (by omega)] at hout
  exact hout (hin i hi)

/-- `kprintf("%s")` draws the text. -/
theorem kprintf_string {kernelBuf : Nat} {console : VbeConsole}
    (hscreen : console.Shows env.asciiBitmap h t)
    (hfmt : ∀ i ≤ 2, console.mem (env.fmt + i) = [(37 : UInt8), 115].getD i 0)
    (hstring : StringAt (VbeConsole.Kept display env.buffer) console.mem kernelBuf
      (printed text)) :
    ∃ drawn, console.vkprintf env.asciiBitmap env.parts env.buffer (text.length + 3) env.fmt
        [.string kernelBuf] = some drawn ∧
      drawn.Shows env.asciiBitmap h (t.puts (printed text)) ∧
      ∀ a, VbeConsole.Kept display env.buffer a → drawn.mem a = console.mem a := by
  have hnul : 0 ∉ printed text := fun hmem => by
    have hne := List.mem_takeWhile_imp hmem
    exact absurd rfl (of_decide_eq_true hne)
  have hexp : Expands env.parts (VbeConsole.Kept display env.buffer) console.mem [37, 115]
      [.string kernelBuf] (printed text ++ []) := .s hnul hstring (.nil [])
  have hat : StringAt (VbeConsole.Kept display env.buffer) console.mem env.fmt [37, 115] :=
    ⟨fun i hi => (env.fmt_apart i hi).1, hfmt⟩
  obtain ⟨drawn, hdrawn, hshows, hsame⟩ := VbeConsole.prints_of_expands
    (fun i hi => (env.buffer_apart i hi).1) hexp hscreen (fun _ _ => rfl) hat
  rw [List.append_nil] at hdrawn hshows
  -- the format and the text are shorter than the fuel
  have hle : (printed text).length ≤ text.length := (List.takeWhile_prefix _).length_le
  refine ⟨drawn, hdrawn (text.length + 3) ?_, hshows, hsame⟩
  show 2 + (printed text).length < text.length + 3
  omega

/-- What drawing keeps includes the heap. -/
theorem kept_of_inKernelHeap (env : WriteEnv display) {a : Nat} (ha : InKernelHeap a) :
    VbeConsole.Kept display env.buffer a := by
  refine ⟨env.display_apart a ha, ?_⟩
  by_contra hlocal
  have hout := (env.buffer_apart (a - env.buffer) (by omega)).2
  rw [Nat.add_sub_cancel' (by omega)] at hout
  exact hout ha

/-- The page tables and the layout are all that counts. -/
theorem HeapReady.setKernel (hready : env.HeapReady L machine) {k : Kernel}
    (hinv : Kernel.HeapInv k L) (hsame : Kernel.SameTables machine.kernel k) :
    env.HeapReady L (machine.setKernel k) := by
  refine ⟨hready.serves.of_inv hinv, hsame.cr3.trans hready.cr3, fun a hlo hhi => ?_⟩
  exact Machine.sees_setKernel hsame (hready.seen a hlo (hsame.nextAddr ▸ hhi))

/-- The buffer for a write: a chunk of the heap, which does not grow for it. -/
theorem kzalloc_spec (hready : env.HeapReady L self.machine) {size : Nat}
    (hfits : size < chunkPayload) : ∃ pre post m, L = pre ++ freeBlk :: post ∧ post ≠ [] ∧
      env.kzalloc self size = some (kernelHeapStart + 4096 * chunks pre + heapBlockSize,
        self.setKernel ((self.kernel.setMem m).count 1)) ∧
      Kernel.HeapInv ((self.kernel.setMem m).count 1) (pre ++ usedBlk 1 :: post) ∧
      ∀ a, ¬ InKernelHeap a → m a = self.kernel.mem a := by
  have hsize : size + heapBlockSize ≤ kernelHeapChunkSize := by
    simp only [chunkPayload, kernelHeapChunkSize, heapBlockSize] at hfits ⊢
    omega
  obtain ⟨pre, post, m, hL, hpost, hcall, hinv, hframe⟩ := hready.serves.kzalloc hsize
  refine ⟨pre, post, m, hL, hpost, ?_, hinv, fun a ha => hframe a ?_⟩
  · have hne : kernelHeapStart + 4096 * chunks pre + heapBlockSize ≠ 0 := by
      simp only [heapBlockSize]
      omega
    have hcall' : self.kernel.kzalloc size = .ok (kernelHeapStart + 4096 * chunks pre
      + heapBlockSize, (self.kernel.setMem m).count 1) := hcall
    have hpages : (((self.kernel.setMem m).count 1).heap.nextAddr
        - self.kernel.heap.nextAddr) / pageSize = 0 := by
      show (self.kernel.heap.nextAddr - self.kernel.heap.nextAddr) / pageSize = 0
      rw [Nat.sub_self, Nat.zero_div]
    unfold kzalloc
    simp only [hcall', Except.toOption, Option.bind_eq_bind, Option.bind_some, hpages, eatenFrames,
      List.foldlM_nil, Option.pure_def, if_neg hne]
  · by_contra hin
    exact ha (hready.inKernelHeap (by omega) (by omega))

/-- The copy of a write, in a chunk of the heap of `k` -/
structure Copied (env : WriteEnv display) (machine : Machine) (pre post : Layout)
    (text : List UInt8) (kernelBuf : Nat) (k : Kernel) : Prop where
  place : kernelHeapStart + 4096 * chunks pre + heapBlockSize = kernelBuf
  behind : post ≠ []
  inv : Kernel.HeapInv k (pre ++ usedBlk 1 :: post)
  tables : Kernel.SameTables machine.kernel k
  outside : ∀ a, ¬ InKernelHeap a → k.mem a = machine.kernel.mem a
  string : StringAt (VbeConsole.Kept display env.buffer) k.mem kernelBuf (printed text)

/-- The bytes come into a chunk of their own, with their NUL. -/
theorem exists_copied (hready : env.HeapReady L self.machine) (hfits : text.length < chunkPayload) :
    ∃ pre post kernelBuf k₀ k, L = pre ++ freeBlk :: post ∧
      env.kzalloc self text.length = some (kernelBuf, self.setKernel k₀) ∧
      (self.setKernel k₀).machine.underDir env.pageDir (fun k =>
        .ok (k.setMem (k.mem.write kernelBuf (text ++ [0])))) = .ok (self.machine.setKernel k) ∧
      env.Copied self.machine pre post text kernelBuf k := by
  obtain ⟨pre, post, m, hL, hpost, hkzalloc, hinv, houtside⟩ := kzalloc_spec hready hfits
  obtain ⟨k₀, hk₀⟩ : ∃ k₀, k₀ = (self.kernel.setMem m).count 1 := ⟨_, rfl⟩
  obtain ⟨kernelBuf, hbuf⟩ : ∃ kernelBuf,
      kernelHeapStart + 4096 * chunks pre + heapBlockSize = kernelBuf := ⟨_, rfl⟩
  rw [← hk₀] at hkzalloc hinv
  rw [hbuf] at hkzalloc
  have htables : Kernel.SameTables self.machine.kernel k₀ := hk₀ ▸ ⟨rfl, rfl, rfl, rfl, rfl⟩
  have hplace : kernelBuf = kernelHeapStart + 4096 * chunks pre + 20 := hbuf.symm
  have hlast := hinv.chunk_lt hpost
  have hshort : text.length < 4076 := hfits
  have hlen : (text ++ [0]).length = text.length + 1 := by
    rw [List.length_append, List.length_singleton]
  -- `kzalloc` was asked for one byte less, the NUL is in the chunk all the same
  have hinside : ∀ i ≤ text.length, kernelHeapStart ≤ kernelBuf + i ∧
      kernelBuf + i < self.machine.kernel.heap.nextAddr := by
    intro i hi
    rw [← htables.nextAddr]
    omega
  have hin : ∀ i ≤ text.length, InKernelHeap (kernelBuf + i) := fun i hi =>
    hready.inKernelHeap (hinside i hi).1 (hinside i hi).2
  have hkeep : ∀ a, a < kernelBuf ∨ kernelBuf + (text.length + 1) ≤ a →
      k₀.mem.write kernelBuf (text ++ [0]) a = k₀.mem a := fun a ha =>
    Mem.agree_write _ (b := a) (n := 1) (by omega) a (Nat.le_refl a) (Nat.lt_succ_self a)
  refine ⟨pre, post, kernelBuf, k₀, k₀.setMem (k₀.mem.write kernelBuf (text ++ [0])), hL, hkzalloc,
    ?_, hbuf, hpost, ?_, htables.trans (.setMem _ _), fun a ha => ?_,
    stringAt_kernelBuf env k₀.mem hin⟩
  · -- the directory of the task maps every page of the heap
    refine Machine.underDir_write (htables.cr3.trans hready.cr3) fun i hi => ?_
    have hplaced := hinside i (by omega)
    exact Machine.sees_setKernel htables (hready.seen _ hplaced.1 hplaced.2)
  · refine hinv.setMem (Kernel.mem_usedAddrs_middle pre post) fun x hx => hkeep x ?_
    dsimp only at hx
    omega
  · -- the copy is in the window
    have hsame : k₀.mem.write kernelBuf (text ++ [0]) a = k₀.mem a := by
      refine hkeep a ?_
      by_contra hover
      refine ha ?_
      rw [← Nat.add_sub_cancel' (show kernelBuf ≤ a by omega)]
      exact hin _ (by omega)
    rw [Kernel.setMem_mem, hsame, hk₀]
    exact houtside a ha

/-- The chunk is given back after something has been drawn. -/
theorem Copied.kfree {pre post : Layout} {kernelBuf : Nat} {k : Kernel}
    (hcopied : env.Copied machine pre post text kernelBuf k)
    (hready : env.HeapReady (pre ++ freeBlk :: post) machine) {m : Mem}
    (hkept : ∀ a, VbeConsole.Kept display env.buffer a → m a = k.mem a) :
    env.HeapReady (pre ++ freeBlk :: post) (machine.setKernel ((k.setMem m).kfree kernelBuf)) ∧
      ∀ a, ¬ InKernelHeap a → ((k.setMem m).kfree kernelBuf).mem a = m a := by
  have hnext := hcopied.tables.nextAddr
  have hdrawn : Kernel.HeapInv (k.setMem m) (pre ++ usedBlk 1 :: post) := by
    refine hcopied.inv.congr fun x hlo hhi => hkept x (kept_of_inKernelHeap env ?_)
    exact hready.inKernelHeap hlo (hnext ▸ hhi)
  have hfreed := hdrawn.kfree
  rw [List.append_assoc, hcopied.place] at hfreed
  refine ⟨hready.setKernel hfreed ((hcopied.tables.trans (.setMem _ _)).trans
    (Kernel.kfree_sameTables _ kernelBuf)), fun a ha => ?_⟩
  rw [← hcopied.place]
  refine hdrawn.kfree_apply hcopied.behind ?_
  rw [Kernel.setMem_heap, hnext]
  by_contra hover
  exact ha (hready.inKernelHeap (by omega) (by omega))

/-- A write to the console puts its characters on the screen, and the heap is laid out as
    before. -/
theorem sysWrite_spec (hshows : env.Shows h L self t) (hfits : text.length < chunkPayload) :
    ∃ next, env.sysWrite self text = some next ∧
      env.Shows h L next (t.puts (printed text)) := by
  obtain ⟨pre, post, kernelBuf, k₀, k, rfl, hkzalloc, hcopy, hcopied⟩ :=
    exists_copied hshows.heap hfits
  have hscreen : VbeConsole.Shows env.asciiBitmap h ⟨self.display, k.mem⟩ t :=
    hshows.screen.congr fun a hpixel =>
      hcopied.outside a fun hheap => hpixel (env.display_apart a hheap)
  have hfmt : ∀ i ≤ 2, k.mem (env.fmt + i) = [(37 : UInt8), 115].getD i 0 := fun i hi =>
    (hcopied.outside _ (env.fmt_apart i hi).2).trans (hshows.fmt i hi)
  obtain ⟨drawn, hdrawn, hdrawnShows, hkept⟩ := kprintf_string hscreen hfmt hcopied.string
  obtain ⟨hready, houtside⟩ := hcopied.kfree hshows.heap hkept
  have hne : kernelBuf ≠ 0 := by
    rw [← hcopied.place]
    simp only [heapBlockSize]
    omega
  refine ⟨⟨self.machine.setKernel ((k.setMem drawn.mem).kfree kernelBuf), drawn.display⟩, ?_,
    hdrawnShows.congr fun a hpixel =>
      houtside a fun hheap => hpixel (env.display_apart a hheap), fun i hi => ?_, hready⟩
  · have hprint : env.kprintf { self.setKernel k₀ with machine := self.machine.setKernel k }
        (text.length + 3) env.fmt [.string kernelBuf]
          = some ⟨self.machine.setKernel (k.setMem drawn.mem), drawn.display⟩ := by
      show (VbeConsole.vkprintf _ _ _ _ ⟨self.display, k.mem⟩ _ _).bind _ = _
      rw [hdrawn]
      rfl
    unfold sysWrite
    simp only [hkzalloc, Option.bind_eq_bind, Option.bind_some, if_neg hne, hcopy, Except.toOption,
      hprint]
    rfl
  · show ((k.setMem drawn.mem).kfree kernelBuf).mem _ = _
    rw [houtside _ (env.fmt_apart i hi).2]
    exact (hkept _ (env.fmt_apart i hi).1).trans (hfmt i hi)

/-- These are the characters that `sysWriteTransfer` counts as printed. -/
theorem printed_transfer {σ : Type} (transfer : TransferEnv σ) (frame : InterruptFrame)
    (hfd : frame.ebx.toInt = fdStdout ∨ frame.ebx.toInt = fdStderr)
    (hptr : transfer.kzalloc frame.edx.toNat ≠ 0) :
    ∃ done, sysWriteTransfer transfer frame = .ok done ∧ done.printed
      = printed (userBytes transfer.memory frame.ecx.toNat frame.edx.toNat) := by
  unfold sysWriteTransfer
  simp only [hptr, hfd, if_true, if_false]
  exact ⟨_, rfl, rfl⟩

/-- One write after the other -/
theorem sysWrites_spec {texts : List (List UInt8)} (hshows : env.Shows h L self t)
    (hfits : ∀ text ∈ texts, text.length < chunkPayload) :
    ∃ next, texts.foldlM env.sysWrite self = some next ∧
      env.Shows h L next (t.puts (texts.flatMap printed)) := by
  induction texts generalizing self t with
  | nil => exact ⟨self, rfl, hshows⟩
  | cons text texts ih =>
      obtain ⟨first, hfirst, hshows₁⟩ := sysWrite_spec hshows (hfits text List.mem_cons_self)
      obtain ⟨next, hnext, hshows₂⟩ := ih hshows₁ fun text' hmem =>
        hfits text' (List.mem_cons_of_mem text hmem)
      refine ⟨next, ?_, ?_⟩
      · rw [List.foldlM_cons, hfirst]
        exact hnext
      · rw [List.flatMap_cons, TextScreen.puts_append]
        exact hshows₂

end Write

end WriteEnv

end Icarius
