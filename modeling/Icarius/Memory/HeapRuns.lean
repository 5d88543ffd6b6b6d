/-
  Icarius.Memory.HeapRuns

  The kernel heap over whole runs.  A run starts at `heap_init` and allocates,
  frees and writes to what it was given; the history variable `live` holds the
  allocations not yet freed.  In every state reached the block chain tiles the
  mapped window, the counters are exact, and the live payloads are apart from
  each other and from every header.
-/

import Icarius.Lib.Run
import Icarius.Memory.HeapInv
import Mathlib.Algebra.GroupWithZero.Nat
import Mathlib.Data.List.Chain

namespace Icarius

open Icarius.Lib Layout

namespace Layout

/-- Address and span of every used block, the first block at `a`. -/
def usedAddrs : Nat → Layout → List (Nat × Nat)
  | _, [] => []
  | a, b :: L =>
      if b.free then usedAddrs (a + 4096 * b.span) L
      else (a, b.span) :: usedAddrs (a + 4096 * b.span) L

theorem usedAddrs_append (a : Nat) (L₁ L₂ : Layout) :
    usedAddrs a (L₁ ++ L₂) = usedAddrs a L₁ ++ usedAddrs (a + 4096 * chunks L₁) L₂ := by
  induction L₁ generalizing a with
  | nil => simp [usedAddrs, chunks]
  | cons b L₁ ih =>
      simp only [List.cons_append, usedAddrs, chunks, ih, Nat.mul_add, ← Nat.add_assoc]
      split <;> rfl

@[simp] theorem usedAddrs_replicate (a n : Nat) :
    usedAddrs a (List.replicate n freeBlk) = [] := by
  induction n generalizing a with
  | zero => rfl
  | succ n ih => simp only [List.replicate_succ, usedAddrs, freeBlk_free, if_true, ih]

theorem usedAddrs_cons_used (a n : Nat) (L : Layout) :
    usedAddrs a (usedBlk n :: L) = (a, n) :: usedAddrs (a + 4096 * n) L := rfl

theorem usedAddrs_ge {a : Nat} {L : Layout} {e : Nat × Nat} (h : e ∈ usedAddrs a L) :
    a ≤ e.1 := by
  induction L generalizing a with
  | nil => simp [usedAddrs] at h
  | cons b L ih =>
      unfold usedAddrs at h
      split at h
      · have := ih h
        omega
      · rcases List.mem_cons.mp h with rfl | h
        · exact Nat.le_refl _
        · have := ih h
          omega

/-- Used blocks lie one behind the other. -/
theorem usedAddrs_pairwise (a : Nat) (L : Layout) :
    (usedAddrs a L).Pairwise fun e f => e.1 + 4096 * e.2 ≤ f.1 := by
  induction L generalizing a with
  | nil => exact .nil
  | cons b L ih =>
      unfold usedAddrs
      split
      · exact ih _
      · exact .cons (fun f hf => usedAddrs_ge hf) (ih _)

/-- A used block of the layout, and what stands around it. -/
theorem exists_of_mem_usedAddrs {a : Nat} {L : Layout} {e : Nat × Nat} (h : e ∈ usedAddrs a L) :
    ∃ pre post, L = pre ++ usedBlk e.2 :: post ∧ e.1 = a + 4096 * chunks pre := by
  induction L generalizing a with
  | nil => simp [usedAddrs] at h
  | cons b L ih =>
      have hcons : ∀ {e : Nat × Nat}, e ∈ usedAddrs (a + 4096 * b.span) L →
          (e ∈ usedAddrs (a + 4096 * b.span) L → ∃ pre post, L = pre ++ usedBlk e.2 :: post ∧
            e.1 = a + 4096 * b.span + 4096 * chunks pre) →
          ∃ pre post, b :: L = pre ++ usedBlk e.2 :: post ∧ e.1 = a + 4096 * chunks pre := by
        intro e he hih
        obtain ⟨pre, post, hL, hpos⟩ := hih he
        refine ⟨b :: pre, post, by rw [hL]; rfl, ?_⟩
        simp only [chunks]
        omega
      unfold usedAddrs at h
      split at h
      · exact hcons h fun he => ih he
      · rename_i hused
        rcases List.mem_cons.mp h with rfl | h
        · refine ⟨[], L, ?_, rfl⟩
          cases b with
          | mk span free =>
              simp only [Bool.not_eq_true] at hused
              subst hused
              rfl
        · exact hcons h fun he => ih he

/-- No other header lies in a used block. -/
theorem addrs_outside {a y : Nat} {L : Layout} (hsound : Sound L) {e : Nat × Nat}
    (he : e ∈ usedAddrs a L) (hy : y ∈ addrs a L) : y ≤ e.1 ∨ e.1 + 4096 * e.2 ≤ y := by
  obtain ⟨pre, post, rfl, hpos⟩ := exists_of_mem_usedAddrs he
  rw [addrs_append, List.mem_append] at hy
  rcases hy with hy | hy
  · have := addrs_lt (sound_append.mp hsound).1 hy
    omega
  · rcases List.mem_cons.mp hy with rfl | hy
    · omega
    · have := addrs_ge hy
      simp only [usedBlk_span] at this
      omega

end Layout

namespace Kernel

/-! ## The run invariant -/

/-- No allocation can push the end of the heap past this address. -/
def heapLimit : Nat := 0xC3801000

/-- The invariant of the heap between two calls: beside `HeapOk`, the last block
    is free, so that no call takes it out of the chain. -/
structure HeapInv (s : Kernel) (L : Layout) : Prop where
  ok : HeapOk s L
  lastFree : ∀ b ∈ L.getLast?, b.free = true
  bound : s.heap.nextAddr ≤ heapLimit

/-- After `heap_init` the heap is empty. -/
theorem heapInv_heapInit {s : Kernel} (hfree : s.heap.freeChunks = 0)
    (hused : s.heap.usedChunks = 0) : HeapInv s.heapInit [] where
  ok := ⟨chain_nil _ _ _ _, (fun _ h => by cases h), rfl, rfl, rfl, hfree, hused⟩
  lastFree := by simp
  bound := (by decide : kernelHeapStart ≤ heapLimit)

theorem chunksNeeded_spec {size : Nat} (h : size < 2 ^ 29) :
    0 < chunksNeeded size ∧ size + 20 ≤ 4096 * chunksNeeded size ∧
      4096 * chunksNeeded size ≤ size + 20 + 4095 := by
  have htotal : totalSizeWithHeader size = size + 20 := by
    simp only [totalSizeWithHeader, heapBlockSize]
    omega
  simp only [chunksNeeded, htotal, kernelHeapChunkSize]
  omega

/-- The last block behind a new allocation is free. -/
theorem Allocated.lastFree {L : Layout} {n ptr g : Nat} {s' : Kernel} {pre post : Layout}
    (h : Allocated L n ptr s' g pre post) (hL : ∀ b ∈ L.getLast?, b.free = true) :
    ∀ b ∈ (pre ++ usedBlk n :: refill post).getLast?, b.free = true := by
  have hall : ∀ b ∈ (L ++ List.replicate g freeBlk).getLast?, b.free = true := by
    intro b hb
    rw [List.getLast?_append] at hb
    cases hrep : (List.replicate g freeBlk).getLast? with
    | none =>
        rw [hrep, Option.none_or] at hb
        exact hL b hb
    | some c =>
        rw [hrep, Option.some_or, Option.mem_some_iff] at hb
        rw [← hb, List.eq_of_mem_replicate (List.mem_of_getLast? hrep)]
        rfl
  have hrefill : ∀ b ∈ (refill post).getLast?, b.free = true := by
    unfold refill
    split
    · intro b hb
      rw [List.eq_of_mem_replicate (List.mem_of_getLast? hb)]
      rfl
    · rename_i hne
      intro b hb
      refine hall b ?_
      rw [h.split, List.getLast?_append, hb]
      rfl
  have hne : refill post ≠ [] := by
    unfold refill
    split
    · have := pageChunks_pos
      rw [ne_eq, List.replicate_eq_nil_iff]
      omega
    · assumption
  intro b hb
  refine hrefill b ?_
  obtain ⟨c, l, hcons⟩ := List.exists_cons_of_ne_nil hne
  rw [hcons] at hb ⊢
  rw [List.getLast?_append, List.getLast?_cons_cons] at hb
  rwa [List.getLast?_cons, Option.some_or, ← List.getLast?_cons] at hb

theorem growIfLow_error {s : Kernel} {e : Stop} (h : s.growIfLow = .error e) :
    e ≠ .unfinished := by
  unfold growIfLow at h
  simp only at h
  split at h
  · exact heapGrow_error h
  · split at h
    · exact heapGrow_error h
    · cases h

/-- The search starts on a heap with blocks, a page longer than before or not. -/
theorem HeapInv.growIfLow {s s₁ : Kernel} {L : Layout} (h : HeapInv s L)
    (hres : s.growIfLow = .ok s₁) : ∃ t, (t = 0 ∨ t = pageChunks) ∧
      HeapOk s₁ (L ++ List.replicate t freeBlk) ∧ L ++ List.replicate t freeBlk ≠ [] ∧
      s₁.heap.nextAddr = s.heap.nextAddr + 4096 * t := by
  have hpage : 4096 * pageChunks = 4194304 := by rw [pageChunks_eq]
  have hpagePos := pageChunks_pos
  have hbound := h.bound
  have hok := h.ok
  simp only [heapLimit] at hbound
  have hgrow : s.heapGrow = .ok s₁ → ∃ t, (t = 0 ∨ t = pageChunks) ∧
      HeapOk s₁ (L ++ List.replicate t freeBlk) ∧ L ++ List.replicate t freeBlk ≠ [] ∧
      s₁.heap.nextAddr = s.heap.nextAddr + 4096 * t := by
    intro hgrow
    have h₀ : HeapOk s (L ++ List.replicate 0 freeBlk) := by simpa using hok
    obtain ⟨h₁, hnext⟩ := h₀.heapGrow hgrow (by omega)
    rw [Nat.zero_add] at h₁
    refine ⟨pageChunks, .inr rfl, h₁, fun hnil => ?_, hnext⟩
    rw [List.append_eq_nil_iff, List.replicate_eq_nil_iff] at hnil
    omega
  unfold Kernel.growIfLow at hres
  simp only at hres
  split at hres
  · exact hgrow hres
  · rename_i htotal
    split at hres
    · exact hgrow hres
    · simp only [Except.ok.injEq] at hres
      subst hres
      refine ⟨0, .inl rfl, by simpa using hok, fun hnil => ?_, rfl⟩
      rw [List.replicate_zero, List.append_nil] at hnil
      subst hnil
      exact htotal (by rw [hok.freeChunks, hok.usedChunks]; rfl)

/-- The guard of `_malloc` leaves room for the pages it may map. -/
theorem malloc_room {s s₁ : Kernel} {n t size : Nat} (hle : 4096 * n ≤ size + 20 + 4095)
    (hguard : s.heap.nextAddr + (size + 20) ≤ kernelHeapMax)
    (hnext : s₁.heap.nextAddr = s.heap.nextAddr + 4096 * t) (ht : t = 0 ∨ t = pageChunks) :
    s₁.heap.nextAddr + (if t < n then 4096 * (n - t) + 4096 * pageChunks else 0)
      + 4096 * pageChunks ≤ heapLimit := by
  have hpage : 4096 * pageChunks ≤ 4194304 := by rw [pageChunks_eq]
  have hbytes : 4096 * t = 0 ∨ 4096 * t = 4096 * pageChunks := by
    rcases ht with rfl | rfl <;> simp
  simp only [heapLimit, kernelHeapMax] at hguard ⊢
  rw [hnext, Nat.mul_sub]
  generalize 4096 * pageChunks = page at hpage hbytes ⊢
  split <;> omega

/-- `_malloc`: nothing, or a run of the layout becomes a used block. -/
theorem HeapInv.kmalloc {s s' : Kernel} {L : Layout} {size ptr : Nat} (h : HeapInv s L)
    (hsize : size < 2 ^ 29) (hres : s.kmalloc size = .ok (ptr, s')) :
    ptr = 0 ∧ s' = s ∨ ∃ g pre post, Allocated L (chunksNeeded size) ptr s' g pre post ∧
      HeapInv s' (pre ++ usedBlk (chunksNeeded size) :: refill post) := by
  obtain ⟨hpos, -, hle⟩ := chunksNeeded_spec hsize
  have hbound := h.bound
  have htotal : totalSizeWithHeader size = size + 20 := by
    simp only [totalSizeWithHeader, heapBlockSize]
    omega
  obtain ⟨-, hptr, hsame⟩ | ⟨hguard, s₁, hlow, hsearch⟩ := kmalloc_ok hres
  · exact .inl ⟨hptr, hsame⟩
  · have hguard' : s.heap.nextAddr + (size + 20) ≤ kernelHeapMax := by
      rw [htotal] at hguard
      simp only [heapLimit] at hbound
      omega
    obtain ⟨t, ht, h₁, hne, hnext⟩ := h.growIfLow hlow
    obtain ⟨hloop, -⟩ := h₁.mallocLoop heapLimit hpos (by decide) hne
      (Nat.le_add_left _ t) (malloc_room hle hguard' hnext ht)
    obtain ⟨g, pre, post, halloc, hend⟩ := hloop ptr s' hsearch
    have halloc' : Allocated L (chunksNeeded size) ptr s' (t + g) pre post := by
      refine ⟨?_, halloc.ptr_eq, halloc.heapOk⟩
      rw [← halloc.split, List.append_assoc, List.replicate_append_replicate]
    exact .inr ⟨t + g, pre, post, halloc', halloc'.heapOk, halloc'.lastFree h.lastFree, hend⟩

/-- A call of `_malloc` that does not return ends in a panic or a page fault. -/
theorem HeapInv.kmalloc_error {s : Kernel} {L : Layout} {size : Nat} {e : Stop} (h : HeapInv s L)
    (hsize : size < 2 ^ 29) (hres : s.kmalloc size = .error e) : e ≠ .unfinished := by
  obtain ⟨hpos, -, hle⟩ := chunksNeeded_spec hsize
  have hbound := h.bound
  have htotal : totalSizeWithHeader size = size + 20 := by
    simp only [totalSizeWithHeader, heapBlockSize]
    omega
  unfold Kernel.kmalloc at hres
  split at hres
  · cases hres
  · rename_i hguard
    have hguard' : s.heap.nextAddr + (size + 20) ≤ kernelHeapMax := by
      rw [htotal] at hguard
      simp only [heapLimit] at hbound
      omega
    split at hres
    · rename_i hlow
      cases hres
      exact growIfLow_error hlow
    · rename_i s₁ hlow
      obtain ⟨t, ht, h₁, hne, hnext⟩ := h.growIfLow hlow
      obtain ⟨-, herror⟩ := h₁.mallocLoop heapLimit hpos (by decide) hne
        (Nat.le_add_left _ t) (malloc_room hle hguard' hnext ht)
      exact herror e hres

theorem heapFormat_pfa (s : Kernel) (n : Nat) : (s.heapFormat n).pfa = s.pfa := rfl

/-- `_heap_grow` under the kernel directory, with a frame to be had. -/
theorem heapGrow_isOk {s : Kernel} (hcr3 : s.cr3 = none) (hframe : (pfaAlloc s.pfa).1 ≠ 0) :
    ∃ s', s.heapGrow = .ok s' ∧ s'.pfa = (pfaAlloc s.pfa).2 := by
  rcases halloc : pfaAlloc s.pfa with ⟨addr, pfa⟩
  rw [halloc] at hframe
  unfold heapGrow pageMap updateCurrentDir
  rw [halloc]
  simp only [hframe, if_false, hcr3]
  refine ⟨_, rfl, ?_⟩
  rw [heapFormat_pfa]

/-- An empty heap grows. -/
theorem growIfLow_of_empty {s : Kernel} (h : s.heap.freeChunks + s.heap.usedChunks = 0) :
    s.growIfLow = s.heapGrow := by
  rw [growIfLow, if_pos h]

/-- Enough of the heap is free, so `_malloc` does not grow it first. -/
theorem growIfLow_of_room {k : Kernel} {pre : Layout} {m : Nat}
    (h : HeapOk k (pre ++ List.replicate m freeBlk)) (hused : ∀ b ∈ pre, b.free = false)
    (hroom : 4 * usedChunks pre ≤ m) (hm : 0 < m) : k.growIfLow = .ok k := by
  have hfree : k.heap.freeChunks = m := by
    rw [h.freeChunks, freeBlocks_append, freeBlocks_of_used hused, freeBlocks_replicate,
      Nat.zero_add]
  have husedChunks : k.heap.usedChunks = usedChunks pre := by
    rw [h.usedChunks, usedChunks_append, usedChunks_replicate, Nat.add_zero]
  rw [growIfLow, hfree, husedChunks]
  rw [if_neg (by omega), if_neg]
  rw [Nat.not_lt, Nat.le_div_iff_mul_le (by omega)]
  omega

/-- A request that finds a run with a block behind it changes no page table. -/
theorem kmalloc_fits (size : Nat) {s s₁ : Kernel} {pre post : Layout}
    (hguard : ¬ (s.heap.nextAddr + totalSizeWithHeader size) % 2 ^ 32 > kernelHeapMax)
    (hlow : s.growIfLow = .ok s₁) (hpos : 0 < chunksNeeded size)
    (h : HeapOk s₁ (pre ++ List.replicate (chunksNeeded size) freeBlk ++ post))
    (hrun : firstRun (chunksNeeded size)
      (pre ++ List.replicate (chunksNeeded size) freeBlk ++ post) = some pre.length)
    (hpost : post ≠ []) (hbound : s₁.heap.nextAddr ≤ 2 ^ 32) :
    ∃ m, s.kmalloc size = .ok (kernelHeapStart + 4096 * chunks pre + heapBlockSize,
        (s₁.setMem m).count (chunksNeeded size)) ∧
      HeapOk ((s₁.setMem m).count (chunksNeeded size))
        (pre ++ usedBlk (chunksNeeded size) :: post) := by
  obtain ⟨m, hcall, hok⟩ := h.takeRun_of_next hpos hpost hbound
  have hne : pre ++ List.replicate (chunksNeeded size) freeBlk ++ post ≠ [] := by
    simp [hpost]
  have htake : (pre ++ List.replicate (chunksNeeded size) freeBlk ++ post).take pre.length
      = pre := by
    rw [List.append_assoc, List.take_left]
  refine ⟨m, ?_, hok⟩
  rw [Kernel.kmalloc, if_neg hguard, hlow]
  simp only [h.mallocLoop_some hne hrun, htake]
  exact hcall

/-- `_free` of a used block. -/
theorem HeapInv.kfree {s : Kernel} {pre post : Layout} {n : Nat}
    (h : HeapInv s (pre ++ usedBlk n :: post)) :
    HeapInv (s.kfree (kernelHeapStart + 4096 * chunks pre + heapBlockSize))
      (pre ++ List.replicate n freeBlk ++ post) := by
  have hpost : post ≠ [] := by
    rintro rfl
    have hlast := h.lastFree (usedBlk n) (by simp)
    cases hlast
  have hbound := h.bound
  simp only [heapLimit] at hbound
  have hok := h.ok.kfree hpost (by omega)
  refine ⟨hok, fun b hb => h.lastFree b ?_, ?_⟩
  · obtain ⟨c, l, hcons⟩ := List.exists_cons_of_ne_nil hpost
    rw [hcons] at hb ⊢
    rw [List.getLast?_append, List.getLast?_cons, Option.some_or] at hb
    rw [List.getLast?_append, List.getLast?_cons_cons, List.getLast?_cons, Option.some_or]
    exact hb
  · have hnext := hok.nextAddr
    have hnext₀ := h.ok.nextAddr
    simp only [chunks_append, chunks_replicate, chunks, usedBlk_span] at hnext hnext₀
    simp only [heapLimit]
    omega

/-- Writing inside the payload of a used block. -/
theorem HeapOk.setMem {s : Kernel} {L : Layout} (h : HeapOk s L) {e : Nat × Nat}
    (he : e ∈ usedAddrs kernelHeapStart L) {m' : Mem}
    (hframe : ∀ x, x < e.1 + 20 ∨ e.1 + 4096 * e.2 ≤ x → m' x = s.mem x) :
    HeapOk (s.setMem m') L := by
  refine ⟨h.chain.congr fun x hx y h₁ h₂ => ?_, h.sound, h.startAddr, h.nextAddr, h.lastBlock,
    h.freeChunks, h.usedChunks⟩
  have := addrs_outside h.sound he hx
  exact hframe y (by omega)

theorem HeapInv.setMem {s : Kernel} {L : Layout} (h : HeapInv s L) {e : Nat × Nat}
    (he : e ∈ usedAddrs kernelHeapStart L) {m' : Mem}
    (hframe : ∀ x, x < e.1 + 20 ∨ e.1 + 4096 * e.2 ≤ x → m' x = s.mem x) :
    HeapInv (s.setMem m') L :=
  ⟨h.ok.setMem he hframe, h.lastFree, h.bound⟩

/-! ## Runs -/

/-- The kernel, and the allocations `(ptr, size)` not yet freed. -/
structure HeapState where
  kernel : Kernel
  live : List (Nat × Nat)

/-- A call, or a byte that the holder of an allocation writes to it. -/
inductive HeapEvent
  | kmalloc (size : Nat)
  | kzalloc (size : Nat)
  | kfree (ptr : Nat)
  | write (addr : Nat) (byte : UInt8)

/-- A result that is not null is live from now on. -/
def HeapState.allocated (s : HeapState) (size : Nat) : Nat × Kernel → HeapState
  | (ptr, kernel) =>
      if ptr = 0 then ⟨kernel, s.live⟩ else ⟨kernel, (ptr, size) :: s.live⟩

/-- One event.  Requests are below 512 MiB, only live pointers are freed, and
    holders write to their own payloads. -/
def heapStep (s : HeapState) : HeapEvent → Option HeapState
  | .kmalloc size =>
      if size < 2 ^ 29 then (s.kernel.kmalloc size).toOption.map (s.allocated size) else none
  | .kzalloc size =>
      if size < 2 ^ 29 then (s.kernel.kzalloc size).toOption.map (s.allocated size) else none
  | .kfree ptr =>
      if ptr ∈ s.live.map Prod.fst then
        some ⟨s.kernel.kfree ptr, s.live.eraseP fun e => e.1 == ptr⟩
      else none
  | .write addr byte =>
      if ∃ e ∈ s.live, e.1 ≤ addr ∧ addr < e.1 + e.2 then
        some { s with kernel := s.kernel.setMem fun x => if x = addr then byte else s.kernel.mem x }
      else none

theorem allocated_kernel (s : HeapState) (size ptr : Nat) (k : Kernel) :
    (s.allocated size (ptr, k)).kernel = k := by
  unfold HeapState.allocated
  by_cases hptr : ptr = 0
  · simp only [hptr, if_true]
  · simp only [hptr, if_false]

/-- What an event does when requests are below `bound`, with all that its step checks. -/
inductive HeapStep (bound : Nat) (s : HeapState) : HeapEvent → HeapState → Prop
  | kmalloc (size ptr : Nat) (k : Kernel) (hsize : size < bound)
      (hres : s.kernel.kmalloc size = .ok (ptr, k)) :
      HeapStep bound s (.kmalloc size) (s.allocated size (ptr, k))
  | kzalloc (size ptr : Nat) (k : Kernel) (hsize : size < bound)
      (hres : s.kernel.kzalloc size = .ok (ptr, k)) :
      HeapStep bound s (.kzalloc size) (s.allocated size (ptr, k))
  | kfree (ptr : Nat) (hlive : ptr ∈ s.live.map Prod.fst) :
      HeapStep bound s (.kfree ptr) ⟨s.kernel.kfree ptr, s.live.eraseP fun e => e.1 == ptr⟩
  | write (addr : Nat) (byte : UInt8) (e : Nat × Nat) (he : e ∈ s.live) (hlo : e.1 ≤ addr)
      (hhi : addr < e.1 + e.2) :
      HeapStep bound s (.write addr byte)
        { s with kernel := s.kernel.setMem fun x => if x = addr then byte else s.kernel.mem x }

/-- A request that is admitted and returns. -/
theorem exists_of_request {s s' : HeapState} {bound size : Nat}
    {call : Except Stop (Nat × Kernel)}
    (h : (if size < bound then call.toOption.map (s.allocated size) else none) = some s') :
    size < bound ∧ ∃ ptr k, call = .ok (ptr, k) ∧ s' = s.allocated size (ptr, k) := by
  split at h
  · rename_i hsize
    cases call with
    | error e => cases h
    | ok r => exact ⟨hsize, r.1, r.2, rfl, (Option.some.inj h).symm⟩
  · cases h

theorem heapStep_cases {s s' : HeapState} {ev : HeapEvent} (h : heapStep s ev = some s') :
    HeapStep (2 ^ 29) s ev s' := by
  cases ev with
  | kmalloc size =>
      obtain ⟨hsize, ptr, k, hres, rfl⟩ := exists_of_request h
      exact .kmalloc size ptr k hsize hres
  | kzalloc size =>
      obtain ⟨hsize, ptr, k, hres, rfl⟩ := exists_of_request h
      exact .kzalloc size ptr k hsize hres
  | kfree ptr =>
      simp only [heapStep] at h
      split at h
      · rename_i hlive
        exact Option.some.inj h ▸ .kfree ptr hlive
      · cases h
  | write addr byte =>
      simp only [heapStep] at h
      split at h
      · rename_i hlive
        obtain ⟨e, he, hlo, hhi⟩ := hlive
        exact Option.some.inj h ▸ .write addr byte e he hlo hhi
      · cases h

/-- The heap at boot: any memory contents, `heap_t` as `heap_init` leaves it. -/
def HeapState.boot (kernel : Kernel) : HeapState where
  kernel := { kernel with heap := ⟨0, 0, 0, 0, 0, 0⟩ }.heapInit
  live := []

/-- The used block of an allocation: where it starts and how many chunks it has. -/
def blockOf (e : Nat × Nat) : Nat × Nat := (e.1 - heapBlockSize, chunksNeeded e.2)

/-- The invariant of a run: the heap holds a layout whose used blocks are those of
    the live allocations. -/
structure RunInv (s : HeapState) (L : Layout) : Prop where
  heap : HeapInv s.kernel L
  used : (s.live.map blockOf).Perm (usedAddrs kernelHeapStart L)
  size_lt : ∀ e ∈ s.live, heapBlockSize < e.1 ∧ e.2 < 2 ^ 29

theorem runInv_boot (kernel : Kernel) : RunInv (.boot kernel) [] where
  heap := heapInv_heapInit rfl rfl
  used := List.Perm.refl _
  size_lt := by simp [HeapState.boot]

/-- A live payload and its block. -/
theorem RunInv.payload {s : HeapState} {L : Layout} (h : RunInv s L) {e : Nat × Nat}
    (he : e ∈ s.live) : blockOf e ∈ usedAddrs kernelHeapStart L ∧
      e.1 = (blockOf e).1 + 20 ∧ e.1 + e.2 ≤ (blockOf e).1 + 4096 * (blockOf e).2 := by
  obtain ⟨hpos, hsize⟩ := h.size_lt e he
  have hfits := (chunksNeeded_spec hsize).2.1
  simp only [heapBlockSize] at hpos
  refine ⟨h.used.subset (List.mem_map_of_mem he), ?_, ?_⟩
  · simp only [blockOf, heapBlockSize]
    omega
  · simp only [blockOf, heapBlockSize]
    omega

theorem RunInv.kmalloc {s : HeapState} {L : Layout} (h : RunInv s L) {size ptr : Nat}
    (hsize : size < 2 ^ 29) {k : Kernel} (hres : s.kernel.kmalloc size = .ok (ptr, k)) :
    ∃ L', RunInv (s.allocated size (ptr, k)) L' := by
  rcases h.heap.kmalloc hsize hres with ⟨rfl, rfl⟩ | ⟨g, pre, post, halloc, hinv⟩
  · exact ⟨L, h⟩
  · have hptr := halloc.ptr_eq
    have hheap : 0 < kernelHeapStart := by decide
    have hne : ptr ≠ 0 := by omega
    refine ⟨pre ++ usedBlk (chunksNeeded size) :: refill post, ?_⟩
    simp only [HeapState.allocated, hne, if_false]
    refine ⟨hinv, ?_, fun e he => ?_⟩
    · have hsplit := congrArg (usedAddrs kernelHeapStart) halloc.split
      have hpost : usedAddrs (kernelHeapStart + 4096 * chunks pre + 4096 * chunksNeeded size)
          (refill post)
          = usedAddrs (kernelHeapStart + 4096 * chunks pre + 4096 * chunksNeeded size) post := by
        unfold refill
        split
        · rename_i hnil
          rw [hnil, usedAddrs_replicate]
          rfl
        · rfl
      rw [usedAddrs_append, usedAddrs_replicate, List.append_nil, usedAddrs_append,
        usedAddrs_append, usedAddrs_replicate, List.append_nil, chunks_append, chunks_replicate,
        Nat.mul_add, ← Nat.add_assoc] at hsplit
      rw [usedAddrs_append, usedAddrs_cons_used, hpost]
      have hblock : blockOf (ptr, size)
          = (kernelHeapStart + 4096 * chunks pre, chunksNeeded size) := by
        simp only [blockOf, hptr, Nat.add_sub_cancel]
      rw [List.map_cons, hblock]
      refine (List.Perm.cons _ h.used).trans ?_
      rw [hsplit]
      exact List.perm_middle.symm
    · rcases List.mem_cons.mp he with rfl | he
      · exact ⟨by simp only [hptr]; omega, hsize⟩
      · exact h.size_lt e he

theorem RunInv.kfree {s : HeapState} {L : Layout} (h : RunInv s L) {ptr : Nat}
    (hptr : ptr ∈ s.live.map Prod.fst) :
    ∃ L', RunInv ⟨s.kernel.kfree ptr, s.live.eraseP fun e => e.1 == ptr⟩ L' := by
  obtain ⟨e₀, he₀, hfst₀⟩ := List.mem_map.mp hptr
  -- `eraseP` removes the first entry with this pointer.
  obtain ⟨e, l₁, l₂, -, hfst, hlive, herase⟩ :=
    List.exists_of_eraseP he₀ (p := fun e => e.1 == ptr) (by simpa using hfst₀)
  have hfst' : e.1 = ptr := by simpa using hfst
  have he : e ∈ s.live := by rw [hlive]; simp
  obtain ⟨hmem, haddr, -⟩ := h.payload he
  obtain ⟨pre, post, rfl, hpos⟩ := exists_of_mem_usedAddrs hmem
  have hcall : ptr = kernelHeapStart + 4096 * chunks pre + heapBlockSize := by
    simp only [heapBlockSize]
    omega
  refine ⟨pre ++ List.replicate (blockOf e).2 freeBlk ++ post, ?_, ?_, fun f hf => ?_⟩
  · rw [hcall]
    exact h.heap.kfree
  · have hused := h.used
    rw [hlive, List.map_append, List.map_cons, usedAddrs_append, usedAddrs_cons_used] at hused
    rw [herase, List.map_append, usedAddrs_append, usedAddrs_append, usedAddrs_replicate,
      List.append_nil, chunks_append, chunks_replicate, Nat.mul_add, ← Nat.add_assoc]
    have hcons : blockOf e = (kernelHeapStart + 4096 * chunks pre, (blockOf e).2) := by
      rw [← hpos]
    rw [← hcons] at hused
    exact ((List.perm_middle.symm.trans hused).trans List.perm_middle).cons_inv
  · exact h.size_lt f (List.mem_of_mem_eraseP hf)

theorem RunInv.setMem {s : HeapState} {L : Layout} (h : RunInv s L) {e : Nat × Nat}
    (he : e ∈ s.live) {m' : Mem}
    (hframe : ∀ x, x < e.1 ∨ e.1 + e.2 ≤ x → m' x = s.kernel.mem x) :
    RunInv { s with kernel := s.kernel.setMem m' } L := by
  obtain ⟨hmem, haddr, hfits⟩ := h.payload he
  exact ⟨h.heap.setMem hmem fun x hx => hframe x (by omega), h.used, h.size_lt⟩

/-- One event keeps the invariant. -/
theorem RunInv.step {s s' : HeapState} {L : Layout} (h : RunInv s L) {ev : HeapEvent}
    (hstep : heapStep s ev = some s') : ∃ L', RunInv s' L' := by
  cases heapStep_cases hstep with
  | kmalloc size ptr k hsize hres => exact h.kmalloc hsize hres
  | kzalloc size ptr k hsize hres =>
      obtain ⟨k₁, hcall, ⟨-, rfl⟩ | ⟨hptr, rfl⟩⟩ := kzalloc_ok hres
      · exact h.kmalloc hsize hcall
      · obtain ⟨L', h'⟩ := h.kmalloc hsize hcall
        simp only [HeapState.allocated, hptr, if_false] at h' ⊢
        have hlive : (ptr, size) ∈ (⟨k₁, (ptr, size) :: s.live⟩ : HeapState).live :=
          List.mem_cons_self
        refine ⟨L', h'.setMem hlive fun x hx => ?_⟩
        simp only [Mem.fill]
        rw [if_neg (by omega)]
  | kfree ptr hlive => exact h.kfree hlive
  | write addr byte e he hlo hhi =>
      refine ⟨L, h.setMem he fun x hx => ?_⟩
      rw [if_neg (by omega)]

/-! ## What holds in every state -/

/-- The blocks at `bs` tile the heap from its start to `next_addr`, linked both
    ways, and the counters of `heap_t` are exact. -/
structure ChainExact (s : Kernel) (bs : List Nat) : Prop where
  head : bs.head? = some s.heap.startAddr
  first : blkPrev s.mem s.heap.startAddr = 0
  succ : bs.IsChain fun a b =>
    b = a + 4096 * (heapBlock s.mem a).chunkSpan ∧ blkNext s.mem a = b ∧ blkPrev s.mem b = a
  last : ∀ b ∈ bs.getLast?, b = s.heap.lastBlock ∧ blkNext s.mem b = 0 ∧
    b + 4096 * (heapBlock s.mem b).chunkSpan = s.heap.nextAddr
  free_span : ∀ b ∈ bs, (heapBlock s.mem b).isFree = true → (heapBlock s.mem b).chunkSpan = 1
  free_chunks : s.heap.freeChunks = (bs.filter fun b => (heapBlock s.mem b).isFree).length
  used_chunks : s.heap.usedChunks
    = ((bs.filter fun b => !(heapBlock s.mem b).isFree).map fun b => (heapBlock s.mem b).chunkSpan).sum

section Exact

variable {m : Mem} {p a : Nat} {L : Layout}

/-- The links of a chain, between neighbours. -/
theorem isChain_of_chain (h : Chain m p a L 0) :
    (addrs a L).IsChain fun x y =>
      y = x + 4096 * (heapBlock m x).chunkSpan ∧ blkNext m x = y ∧ blkPrev m y = x := by
  induction L generalizing p a with
  | nil => exact .nil
  | cons b L ih =>
      obtain ⟨-, hspan, -, hnext, hL⟩ := chain_cons.mp h
      have htail := ih hL
      cases L with
      | nil => exact .singleton a
      | cons c L =>
          have hprev := (chain_cons.mp hL).2.2.1
          refine .cons_cons ⟨?_, hnext, hprev⟩ htail
          rw [hspan]

theorem getLast_of_chain (h : Chain m p a L 0) : ∀ x ∈ (addrs a L).getLast?,
    blkNext m x = 0 ∧ x + 4096 * (heapBlock m x).chunkSpan = a + 4096 * chunks L := by
  induction L generalizing p a with
  | nil => simp [addrs]
  | cons b L ih =>
      obtain ⟨-, hspan, -, hnext, hL⟩ := chain_cons.mp h
      intro x hx
      cases L with
      | nil =>
          have hxa : x = a := by simpa [addrs] using hx.symm
          subst hxa
          refine ⟨hnext, ?_⟩
          rw [hspan]
          rfl
      | cons c L =>
          have hlast := ih hL x (by simpa [addrs] using hx)
          rw [hlast.2]
          refine ⟨hlast.1, ?_⟩
          simp only [chunks, Nat.mul_add, Nat.add_assoc]

theorem free_span_of_headers (h : Headers m a L) (hsound : Sound L) : ∀ x ∈ addrs a L,
    (heapBlock m x).isFree = true → (heapBlock m x).chunkSpan = 1 := by
  induction L generalizing a with
  | nil => simp [addrs]
  | cons b L ih =>
      obtain ⟨hfree, hspan, hL⟩ := h
      intro x hx hx'
      rcases List.mem_cons.mp hx with rfl | hx
      · rw [hspan]
        exact (hsound b List.mem_cons_self).2 (hfree ▸ hx')
      · exact ih hL hsound.tail x hx hx'

theorem freeBlocks_of_headers (h : Headers m a L) :
    ((addrs a L).filter fun x => (heapBlock m x).isFree).length = freeBlocks L := by
  induction L generalizing a with
  | nil => rfl
  | cons b L ih =>
      obtain ⟨hfree, -, hL⟩ := h
      have htail := ih hL
      simp only [addrs, freeBlocks, List.filter_cons, hfree]
      split
      · rw [List.length_cons, htail, Nat.add_comm]
      · rw [htail, Nat.zero_add]

theorem usedChunks_of_headers (h : Headers m a L) :
    (((addrs a L).filter fun x => !(heapBlock m x).isFree).map
      fun x => (heapBlock m x).chunkSpan).sum = usedChunks L := by
  induction L generalizing a with
  | nil => rfl
  | cons b L ih =>
      obtain ⟨hfree, hspan, hL⟩ := h
      have htail := ih hL
      simp only [addrs, usedChunks, List.filter_cons, hfree]
      cases b.free with
      | true => simpa using htail
      | false => simp [htail, hspan]

end Exact

/-- A heap with blocks that holds a layout is exact. -/
theorem HeapOk.chainExact {s : Kernel} {L : Layout} (h : HeapOk s L) (hne : L ≠ []) :
    ChainExact s (addrs kernelHeapStart L) := by
  refine ⟨?_, ?_, isChain_of_chain h.chain, fun b hb => ?_,
    free_span_of_headers h.chain.headers h.sound, ?_, ?_⟩
  · rw [h.startAddr]
    cases L with
    | nil => exact absurd rfl hne
    | cons b L => rfl
  · rw [h.startAddr]
    cases L with
    | nil => exact absurd rfl hne
    | cons b L => exact (chain_cons.mp h.chain).2.2.1
  · obtain ⟨hnext, hend⟩ := getLast_of_chain h.chain b hb
    refine ⟨?_, hnext, hend.trans h.nextAddr.symm⟩
    rw [h.lastBlock, List.getLastD_eq_getLast?, hb]
    rfl
  · rw [h.freeChunks, freeBlocks_of_headers h.chain.headers]
  · rw [h.usedChunks, usedChunks_of_headers h.chain.headers]

/-- Payloads keep clear of each other and of the headers at `bs`. -/
structure PayloadsApart (live : List (Nat × Nat)) (bs : List Nat) : Prop where
  disjoint : live.Pairwise fun e f => e.1 + e.2 ≤ f.1 ∨ f.1 + f.2 ≤ e.1
  headers : ∀ e ∈ live, ∀ b ∈ bs, b + heapBlockSize ≤ e.1 ∨ e.1 + e.2 ≤ b

theorem RunInv.payloadsApart {s : HeapState} {L : Layout} (h : RunInv s L) :
    PayloadsApart s.live (addrs kernelHeapStart L) := by
  refine ⟨?_, fun e he b hb => ?_⟩
  · have hblocks : (s.live.map blockOf).Pairwise fun e f =>
        e.1 + 4096 * e.2 ≤ f.1 ∨ f.1 + 4096 * f.2 ≤ e.1 := by
      refine (h.used.pairwise_iff fun hxy => hxy.symm).mpr ?_
      exact (usedAddrs_pairwise _ _).imp fun hxy => .inl hxy
    rw [List.pairwise_map] at hblocks
    refine hblocks.imp_of_mem fun he hf hef => ?_
    have hpe := (h.payload he).2
    have hpf := (h.payload hf).2
    omega
  · obtain ⟨hmem, haddr, hfits⟩ := h.payload he
    have hout := addrs_outside h.heap.ok.sound hmem hb
    simp only [heapBlockSize]
    omega

/-- The kernel heap over whole runs: with a page mapped, the chain tiles the
    heap, the counters are exact and the live payloads are apart from each other
    and from all headers; and no request makes `_malloc` run into a loop bound. -/
theorem heap_exact (kernel : Kernel) (es : List HeapEvent) (s : HeapState)
    (hrun : Runs heapStep always (.boot kernel) es s) :
    (s.kernel.heap.startAddr < s.kernel.heap.nextAddr →
      ∃ bs, ChainExact s.kernel bs ∧ PayloadsApart s.live bs) ∧
    ∀ size < 2 ^ 29, s.kernel.kmalloc size ≠ .error .unfinished := by
  obtain ⟨L, h⟩ := hrun.invariant (fun s => ∃ L, RunInv s L) ⟨[], runInv_boot kernel⟩
    fun _ _ _ ⟨_, h⟩ _ hstep => h.step hstep
  refine ⟨fun hpage => ⟨_, h.heap.ok.chainExact ?_, h.payloadsApart⟩, fun size hsize hres => ?_⟩
  · rintro rfl
    have hnext := h.heap.ok.nextAddr
    rw [h.heap.ok.startAddr, hnext] at hpage
    exact absurd hpage (by simp [chunks])
  · exact h.heap.kmalloc_error hsize hres rfl

/-- A request that is served behind the used blocks of a heap -/
theorem kmalloc_behind (size : Nat) {s : Kernel} {pre : Layout} {m : Nat}
    (hguard : ¬ (s.heap.nextAddr + totalSizeWithHeader size) % 2 ^ 32 > kernelHeapMax)
    (hlow : s.growIfLow = .ok s) (hpos : 0 < chunksNeeded size)
    (h : HeapOk s (pre ++ List.replicate (chunksNeeded size + m) freeBlk)) (hm : 0 < m)
    (hused : ∀ b ∈ pre, b.free = false) (hbound : s.heap.nextAddr ≤ 2 ^ 32) :
    ∃ s', s.kmalloc size = .ok (kernelHeapStart + 4096 * chunks pre + heapBlockSize, s') ∧
      HeapOk s' (pre ++ usedBlk (chunksNeeded size) :: List.replicate m freeBlk) := by
  have hpost : List.replicate m freeBlk ≠ [] := by
    rw [ne_eq, List.replicate_eq_nil_iff]
    omega
  rw [← List.replicate_append_replicate, ← List.append_assoc] at h
  obtain ⟨mem, hcall, hok⟩ := kmalloc_fits size hguard hlow hpos h
    (firstRun_of_used hpos hused _) hpost hbound
  exact ⟨_, hcall, hok⟩

/-- The first request maps a page. -/
theorem kmalloc_first (size : Nat) {s : Kernel} {m : Nat}
    (hheap : s.heap = ⟨kernelHeapStart, kernelHeapStart, kernelHeapMax, 0, 0, 0⟩)
    (hcr3 : s.cr3 = none) (hframe : (pfaAlloc s.pfa).1 ≠ 0)
    (hguard : ¬ (s.heap.nextAddr + totalSizeWithHeader size) % 2 ^ 32 > kernelHeapMax)
    (hpos : 0 < chunksNeeded size) (hpage : pageChunks = chunksNeeded size + m) (hm : 0 < m) :
    ∃ s', s.kmalloc size = .ok (kernelHeapStart + heapBlockSize, s') ∧
      HeapOk s' (usedBlk (chunksNeeded size) :: List.replicate m freeBlk) := by
  have heq := pageChunks_eq
  have hstart : s.heap.nextAddr = kernelHeapStart := by rw [hheap]
  have hempty : HeapOk s ([] ++ List.replicate 0 freeBlk) := by
    refine ⟨chain_nil _ _ _ _, (fun _ hb => by cases hb), ?_, ?_, ?_, ?_, ?_⟩ <;> rw [hheap] <;> rfl
  obtain ⟨s₁, hgrow, -⟩ := heapGrow_isOk hcr3 hframe
  have hwindow : s.heap.nextAddr + 4096 * pageChunks ≤ 2 ^ 32 := by
    rw [hstart, heq]
    decide
  obtain ⟨hok, hnext⟩ := hempty.heapGrow hgrow hwindow
  have hlow : s.growIfLow = .ok s₁ := (growIfLow_of_empty (by rw [hheap]; rfl)).trans hgrow
  have hpost : List.replicate m freeBlk ≠ [] := by
    rw [ne_eq, List.replicate_eq_nil_iff]
    omega
  rw [Nat.zero_add, hpage, ← List.replicate_append_replicate, ← List.append_assoc] at hok
  obtain ⟨mem, hcall, hok'⟩ := kmalloc_fits size hguard hlow hpos hok
    (firstRun_of_used hpos (fun _ hb => absurd hb List.not_mem_nil) _) hpost (hnext ▸ hwindow)
  exact ⟨_, hcall, hok'⟩

/-- A machine whose first twelve frames are taken. -/
def coldKernel : Kernel where
  mem := fun _ => 0
  heap := ⟨0, 0, 0, 0, 0, 0⟩
  pfa := ⟨fun i => if i = 0 then 0xFFF#32 else 0#32⟩
  kernelDirectory := fun _ => 0
  dirs := fun _ _ => 0
  cr3 := none

/-- Three free chunks, a used one, and the rest of the page -/
def holeLayout : Layout :=
  List.replicate 3 freeBlk ++ usedBlk 1 :: List.replicate (pageChunks - 4) freeBlk

/-- Three chunks are taken, one behind them, and the three are given back. -/
theorem exists_hole : ∃ s₁ s₂ s₃ : HeapState,
    heapStep (.boot coldKernel) (.kmalloc 10000) = some s₁ ∧
      heapStep s₁ (.kmalloc 100) = some s₂ ∧
      heapStep s₂ (.kfree (kernelHeapStart + heapBlockSize)) = some s₃ ∧
      s₁.kernel.heap.nextAddr = kernelHeapStart + 4194304 ∧ HeapOk s₃.kernel holeLayout := by
  have heq := pageChunks_eq
  have hthree : chunksNeeded 10000 = 3 := by decide
  have hone : chunksNeeded 100 = 1 := by decide
  obtain ⟨m, hm⟩ : ∃ m, m = pageChunks - 4 := ⟨_, rfl⟩
  have hframe : (pfaAlloc (HeapState.boot coldKernel).kernel.pfa).1 ≠ 0 :=
    pfaAlloc_ne_zero (by decide) (show 12 < maxFrames by decide) (by decide)
  obtain ⟨k₁, hfirst, hok₁⟩ := kmalloc_first (m := m + 1) 10000
    (s := (HeapState.boot coldKernel).kernel) rfl rfl hframe (by decide) (by decide)
    (by omega) (by omega)
  rw [hthree] at hok₁
  have hnext₁ : k₁.heap.nextAddr = kernelHeapStart + 4194304 := by
    rw [hok₁.nextAddr, chunks, chunks_replicate, usedBlk_span]
    omega
  -- there is room behind the three
  have hsplit : usedBlk 3 :: List.replicate (m + 1) freeBlk
      = [usedBlk 3] ++ List.replicate (chunksNeeded 100 + m) freeBlk := by
    rw [hone, Nat.add_comm m 1]
    rfl
  rw [hsplit] at hok₁
  have hused : ∀ b ∈ [usedBlk 3], b.free = false := by
    intro b hb
    rw [List.mem_singleton.mp hb]
    rfl
  have hlow : k₁.growIfLow = .ok k₁ := by
    refine growIfLow_of_room hok₁ hused ?_ (by omega)
    show 4 * 3 ≤ _
    omega
  obtain ⟨k₂, hsecond, hok₂⟩ := kmalloc_behind 100 (by rw [hnext₁]; decide) hlow (by decide) hok₁
    (by omega) hused (by rw [hnext₁]; decide)
  rw [hone] at hok₂
  have hnext₂ : k₂.heap.nextAddr = kernelHeapStart + 4194304 := by
    rw [hok₂.nextAddr, chunks_append, chunks, chunks, chunks, chunks_replicate, usedBlk_span,
      usedBlk_span]
    omega
  have hfreed : HeapOk (k₂.kfree (kernelHeapStart + heapBlockSize)) holeLayout := by
    have hwhole : HeapOk k₂ ([] ++ usedBlk 3 :: (usedBlk 1 :: List.replicate m freeBlk)) := hok₂
    have hfree := hwhole.kfree (List.cons_ne_nil _ _) (by rw [hnext₂]; decide)
    rw [hm] at hfree
    exact hfree
  obtain ⟨first, hfirstPtr⟩ : ∃ first, first = kernelHeapStart + heapBlockSize := ⟨_, rfl⟩
  obtain ⟨second, hsecondPtr⟩ : ∃ second,
      second = kernelHeapStart + 4096 * chunks [usedBlk 3] + heapBlockSize := ⟨_, rfl⟩
  rw [← hfirstPtr] at hfirst hfreed ⊢
  rw [← hsecondPtr] at hsecond
  have hne : first ≠ 0 ∧ second ≠ 0 ∧ first ≠ second := by
    rw [hfirstPtr, hsecondPtr]
    decide
  refine ⟨⟨k₁, [(first, 10000)]⟩, ⟨k₂, [(second, 100), (first, 10000)]⟩,
    ⟨k₂.kfree first, [(second, 100)]⟩, ?_, ?_, ?_, hnext₁, hfreed⟩
  · have hlive : (HeapState.boot coldKernel).allocated 10000 (first, k₁)
        = ⟨k₁, [(first, 10000)]⟩ := if_neg hne.1
    simp only [heapStep, hfirst]
    exact congrArg some hlive
  · have hlive : HeapState.allocated ⟨k₁, [(first, 10000)]⟩ 100 (second, k₂)
        = ⟨k₂, [(second, 100), (first, 10000)]⟩ := if_neg hne.2.1
    simp only [heapStep, hsecond]
    exact congrArg some hlive
  · have hlive : first ∈ [(second, 100), (first, 10000)].map Prod.fst := by simp
    have herase : [(second, 100), (first, 10000)].eraseP (fun e => e.1 == first)
        = [(second, 100)] := by simp [hne.2.2.symm]
    rw [heapStep, if_pos hlive, herase]

theorem holeLayout_nextAddr {s : Kernel} (h : HeapOk s holeLayout) :
    s.heap.nextAddr = kernelHeapStart + 4194304 := by
  have heq := pageChunks_eq
  rw [h.nextAddr, holeLayout, chunks_append, chunks, chunks_replicate, chunks_replicate,
    usedBlk_span]
  omega

/-- A hole in front of a used chunk -/
theorem heap_exact_hole : ∃ s : HeapState,
    Runs heapStep always (.boot coldKernel)
      [.kmalloc 10000, .kmalloc 100, .kfree (kernelHeapStart + heapBlockSize)] s ∧
    ∃ bs, ChainExact s.kernel bs ∧ PayloadsApart s.live bs := by
  obtain ⟨s₁, s₂, s₃, hfirst, hsecond, hthird, -, hok⟩ := exists_hole
  have hrun : Runs heapStep always (.boot coldKernel)
      ([] ++ [.kmalloc 10000] ++ [.kmalloc 100] ++ [.kfree (kernelHeapStart + heapBlockSize)]) s₃ :=
    ((Runs.nil.snoc trivial hfirst).snoc trivial hsecond).snoc trivial hthird
  refine ⟨s₃, hrun, (heap_exact coldKernel _ _ hrun).1 ?_⟩
  rw [hok.startAddr, holeLayout_nextAddr hok]
  decide

end Kernel

end Icarius
