/-
  Icarius.Memory.HeapWindow

  How far the kernel heap grows.  `_malloc` compares `next_addr` and the size of a
  request with `KERNEL_HEAP_MAX` once, before it grows the heap as often as it has
  to.  The pages it maps make the run of free chunks at the end of the heap as long
  as the request, and one page is added when the request takes the last chunk.

  A heap with blocks has a free chunk at its end, so that the last page is never
  taken up to its end, and the check is enough.  An empty heap has none: a request
  for all 7168 chunks of the window maps an eighth page, over the kernel stack.
-/

import Icarius.Memory.Supply

namespace Icarius

open Icarius.Lib Layout

namespace Kernel

/-! ## How much one call grows the heap -/

/-- A run at the end of the layout is no shorter than the free chunks there. -/
theorem free_le_of_run_at_end {n t i : Nat} (hn : 0 < n) {L pre : Layout}
    (hrun : firstRun n (L ++ List.replicate t freeBlk) = some i) (hlen : pre.length = i)
    (hsplit : L ++ List.replicate t freeBlk = pre ++ List.replicate n freeBlk) : t ≤ n := by
  by_contra hlt
  have hlong : L ++ List.replicate t freeBlk
      = L ++ List.replicate n freeBlk ++ List.replicate (t - n) freeBlk := by
    rw [List.append_assoc, List.replicate_append_replicate]
    congr 2
    omega
  rw [hlong] at hrun
  have hle := firstRun_le hn hrun
  have hlength := congrArg List.length hsplit
  simp only [List.length_append, List.length_replicate] at hlength
  omega

/-- The end of the heap after a round that finds a run. -/
theorem HeapOk.found_nextAddr {n fuel t ptr i : Nat} (hn : 0 < n) {s s' : Kernel} {L : Layout}
    (h : HeapOk s (L ++ List.replicate t freeBlk)) (hne : L ++ List.replicate t freeBlk ≠ [])
    (hrun : firstRun n (L ++ List.replicate t freeBlk) = some i)
    (hbound : s.heap.nextAddr + 4194304 ≤ 2 ^ 32)
    (hres : Kernel.mallocLoop n (fuel + 1) s = .ok (ptr, s')) :
    s'.heap.nextAddr = s.heap.nextAddr ∨
      s'.heap.nextAddr = s.heap.nextAddr + 4194304 ∧ t ≤ n := by
  have hpage : 4096 * pageChunks = 4194304 := by rw [pageChunks_eq]
  obtain ⟨pre, post, hsplit, hlen, hround⟩ := h.mallocLoop_run hne hrun
  rw [hround] at hres
  have hstart := h.nextAddr
  rw [hsplit] at h hstart
  obtain ⟨-, hok⟩ := h.takeRun hn (by rw [hpage]; exact hbound) hres
  have hend := hok.nextAddr
  simp only [chunks_append, chunks_replicate, chunks, usedBlk_span] at hend hstart
  unfold refill at hend
  split at hend
  · rename_i hpost
    subst hpost
    rw [chunks_replicate] at hend
    rw [List.append_nil] at hsplit
    refine .inr ⟨?_, free_le_of_run_at_end hn hrun hlen hsplit⟩
    simp only [chunks] at hstart
    omega
  · exact .inl (by omega)

/-- The end of the heap after `_malloc` has found or made its run.  `t` chunks are
    free at the end of the layout before. -/
theorem HeapOk.mallocLoop_nextAddr {n fuel t ptr : Nat} (hn : 0 < n) {s s' : Kernel} {L : Layout}
    (h : HeapOk s (L ++ List.replicate t freeBlk)) (hne : L ++ List.replicate t freeBlk ≠ [])
    (hbound : s.heap.nextAddr + 4194304 ≤ 2 ^ 32)
    (hroom : t < n → s.heap.nextAddr + 4096 * n + 8388608 ≤ 2 ^ 32 + 4096 * t)
    (hres : Kernel.mallocLoop n (fuel + 1) s = .ok (ptr, s')) :
    s'.heap.nextAddr = s.heap.nextAddr ∨
      s'.heap.nextAddr + 4096 * t ≤ s.heap.nextAddr + 4096 * n + 4194304 := by
  have hpage : 4096 * pageChunks = 4194304 := by rw [pageChunks_eq]
  induction fuel generalizing s t with
  | zero =>
      cases hrun : firstRun n (L ++ List.replicate t freeBlk) with
      | some i =>
          rcases h.found_nextAddr hn hne hrun hbound hres with hsame | ⟨hgrown, hle⟩
          · exact .inl hsame
          · exact .inr (by omega)
      | none =>
          rw [h.mallocLoop_none hne hrun] at hres
          obtain ⟨s₁, -, hrest⟩ := exists_of_bind hres
          cases hrest
  | succ fuel ih =>
      cases hrun : firstRun n (L ++ List.replicate t freeBlk) with
      | some i =>
          rcases h.found_nextAddr hn hne hrun hbound hres with hsame | ⟨hgrown, hle⟩
          · exact .inl hsame
          · exact .inr (by omega)
      | none =>
          have hshort := lt_of_firstRun_none hn hrun
          rw [h.mallocLoop_none hne hrun] at hres
          obtain ⟨s₁, hgrow, hrest⟩ := exists_of_bind hres
          obtain ⟨h₁, hnext₁⟩ := h.heapGrow hgrow (by omega)
          have hne₁ := append_page_ne_nil L t
          have hmul : 4096 * (t + pageChunks) = 4096 * t + 4194304 := by
            rw [Nat.mul_add, hpage]
          rw [hpage] at hnext₁
          have hroom' := hroom hshort
          rcases ih h₁ hne₁ (by omega) (fun _ => by omega) hrest with hsame | hgrown
          · exact .inr (by omega)
          · exact .inr (by omega)

/-! ## The window -/

/-- The heap ends on a page boundary, and at most at `KERNEL_HEAP_MAX`. -/
def InWindow (s : Kernel) : Prop := ∃ k ≤ 7, s.heap.nextAddr = kernelHeapStart + 4194304 * k

/-- Growing keeps page boundaries. -/
theorem Grew.aligned {s s' : Kernel} (h : Grew s s')
    (hs : ∃ k, s.heap.nextAddr = kernelHeapStart + 4194304 * k) :
    ∃ k, s'.heap.nextAddr = kernelHeapStart + 4194304 * k := by
  refine h.preserves (fun s => ∃ k, s.heap.nextAddr = kernelHeapStart + 4194304 * k) hs
    (fun s₁ s₂ ⟨k, hk⟩ hsame => ⟨k, hsame.nextAddr.trans hk⟩) fun s₁ s₂ ⟨k, hk⟩ hpage _ => ?_
  refine ⟨k + 1, ?_⟩
  rw [hpage.nextAddr, hk, Nat.mul_succ, pageSize]
  omega

/-- The condition on a request: the sum `_malloc` compares with `KERNEL_HEAP_MAX` is
    below 2^32, and an empty heap is not asked for all the chunks of the window. -/
def requestFits (s : Kernel) (size : Nat) : Prop :=
  s.heap.nextAddr + (size + heapBlockSize) < 2 ^ 32 ∧
    (s.heap.nextAddr = kernelHeapStart →
      chunksNeeded size ≠ (kernelHeapMax + 1 - kernelHeapStart) / kernelHeapChunkSize)

/-- The last block of a heap with blocks is a free chunk. -/
theorem HeapInv.exists_last {s : Kernel} {L : Layout} (h : HeapInv s L) (hne : L ≠ []) :
    ∃ L₀, L = L₀ ++ List.replicate 1 freeBlk := by
  rcases List.eq_nil_or_concat L with rfl | ⟨L₀, b, rfl⟩
  · exact absurd rfl hne
  · rw [List.concat_eq_append] at h ⊢
    have hfree : b.free = true := h.lastFree b (by simp)
    have hspan : b.span = 1 := (h.ok.sound b (by simp)).2 hfree
    have hb : b = freeBlk := by
      cases b
      simp_all [freeBlk]
    exact ⟨L₀, by rw [hb]; rfl⟩

/-- The chunks free at the end of the heap when the search starts: one more than
    the new page, or the page alone. -/
theorem HeapInv.search_start {s s₁ : Kernel} {L : Layout} (h : HeapInv s L)
    (hlow : s.growIfLow = .ok s₁) : ∃ L₀ t e, HeapOk s₁ (L₀ ++ List.replicate t freeBlk) ∧
      L₀ ++ List.replicate t freeBlk ≠ [] ∧ s₁.heap.nextAddr = s.heap.nextAddr + 4096 * e ∧
      (e = 0 ∨ e = 1024) ∧
      (t = e + 1 ∨ t = e ∧ e = 1024 ∧ s.heap.nextAddr = kernelHeapStart) := by
  have hpage := pageChunks_eq
  obtain ⟨e, he, h₁, hne, hnext⟩ := h.growIfLow hlow
  rw [hpage] at he
  by_cases hL : L = []
  · subst hL
    have hzero : e ≠ 0 := by
      rintro rfl
      exact hne rfl
    refine ⟨[], e, e, h₁, hne, hnext, he, .inr ⟨rfl, he.resolve_left hzero, ?_⟩⟩
    have hstart := h.ok.nextAddr
    simpa only [chunks, Nat.mul_zero, Nat.add_zero] using hstart
  · obtain ⟨L₀, rfl⟩ := h.exists_last hL
    rw [List.append_assoc, List.replicate_append_replicate, Nat.add_comm] at h₁ hne
    exact ⟨L₀, e + 1, e, h₁, hne, hnext, he, .inl rfl⟩

/-- A request that fits keeps the heap in its window. -/
theorem HeapInv.kmalloc_inWindow {s s' : Kernel} {L : Layout} {size ptr : Nat} (h : HeapInv s L)
    (hwindow : s.InWindow) (hfits : s.requestFits size) (hres : s.kmalloc size = .ok (ptr, s')) :
    s'.InWindow := by
  obtain ⟨k, hk, hnext⟩ := hwindow
  obtain ⟨hsum, hwhole⟩ := hfits
  obtain ⟨k', hnext'⟩ := (kmalloc_grew hres).aligned ⟨k, hnext⟩
  have htotal : totalSizeWithHeader size = size + 20 := by
    simp only [totalSizeWithHeader, heapBlockSize] at hsum ⊢
    omega
  obtain ⟨-, -, rfl⟩ | ⟨hguard, s₁, hlow, hloop⟩ := kmalloc_ok hres
  · exact ⟨k, hk, hnext⟩
  · rw [htotal] at hguard
    simp only [kernelHeapMax, kernelHeapStart, heapBlockSize] at hguard hsum hnext hnext'
    have hsize : size < 2 ^ 29 := by omega
    obtain ⟨hpos, -, hle⟩ := chunksNeeded_spec hsize
    obtain ⟨L₀, t, e, h₁, hne, hnext₁, he, ht⟩ := h.search_start hlow
    have hend := h₁.mallocLoop_nextAddr hpos hne (by omega) (fun _ => by omega) hloop
    refine ⟨k', ?_, hnext'⟩
    rcases ht with ht | ⟨ht, hpage, hempty⟩
    · -- the free chunk at the end keeps the last page from being used up
      omega
    · have hn := hwhole hempty
      simp only [kernelHeapMax, kernelHeapStart, kernelHeapChunkSize] at hn hempty
      omega

/-! ## Runs -/

/-- One event, with requests of any size that fits a `size_t`. -/
def heapStepAny (s : HeapState) : HeapEvent → Option HeapState
  | .kmalloc size =>
      if size < 2 ^ 32 then (s.kernel.kmalloc size).toOption.map (s.allocated size) else none
  | .kzalloc size =>
      if size < 2 ^ 32 then (s.kernel.kzalloc size).toOption.map (s.allocated size) else none
  | .kfree ptr => heapStep s (.kfree ptr)
  | .write addr byte => heapStep s (.write addr byte)

theorem heapStepAny_cases {s s' : HeapState} {ev : HeapEvent} (h : heapStepAny s ev = some s') :
    HeapStep (2 ^ 32) s ev s' := by
  cases ev with
  | kmalloc size =>
      obtain ⟨hsize, ptr, k, hres, rfl⟩ := exists_of_request h
      exact .kmalloc size ptr k hsize hres
  | kzalloc size =>
      obtain ⟨hsize, ptr, k, hres, rfl⟩ := exists_of_request h
      exact .kzalloc size ptr k hsize hres
  | kfree ptr =>
      have hstep : heapStep s (.kfree ptr) = some s' := h
      cases heapStep_cases hstep with
      | kfree _ hlive => exact .kfree ptr hlive
  | write addr byte =>
      have hstep : heapStep s (.write addr byte) = some s' := h
      cases heapStep_cases hstep with
      | write _ _ e he hlo hhi => exact .write addr byte e he hlo hhi

/-- A step with a request below 512 MiB -/
theorem heapStepAny_of_heapStep {s s' : HeapState} {ev : HeapEvent}
    (h : heapStep s ev = some s') : heapStepAny s ev = some s' := by
  cases ev with
  | kmalloc size | kzalloc size =>
      simp only [heapStep] at h
      split at h
      · rename_i hsize
        rw [heapStepAny, if_pos (by omega)]
        exact h
      · cases h
  | kfree ptr => exact h
  | write addr byte => exact h

/-- The requests of the event fit. -/
def RequestsFit (s : HeapState) : HeapEvent → Prop
  | .kmalloc size | .kzalloc size => s.kernel.requestFits size
  | _ => True

/-- The sums of the guard do not wrap. -/
def SumsFit (s : HeapState) : HeapEvent → Prop
  | .kmalloc size | .kzalloc size => s.kernel.heap.nextAddr + (size + heapBlockSize) < 2 ^ 32
  | _ => True

theorem RequestsFit.sumsFit {s : HeapState} {ev : HeapEvent} (h : RequestsFit s ev) :
    SumsFit s ev := by
  cases ev with
  | kmalloc size => exact h.1
  | kzalloc size => exact h.1
  | kfree ptr => trivial
  | write addr byte => trivial

/-- A request that is too large for the window is refused. -/
theorem kmalloc_refused {s : Kernel} {size : Nat} (hnext : kernelHeapStart ≤ s.heap.nextAddr)
    (hsum : s.heap.nextAddr + (size + heapBlockSize) < 2 ^ 32) (hsize : ¬ size < 2 ^ 29) :
    s.kmalloc size = .ok (0, s) := by
  simp only [heapBlockSize, kernelHeapStart] at hsum hnext
  have htotal : totalSizeWithHeader size = size + 20 := by
    simp only [totalSizeWithHeader, heapBlockSize]
    omega
  rw [Kernel.kmalloc, if_pos]
  rw [htotal, kernelHeapMax]
  omega

/-- Below 512 MiB an event is one of the runs of the heap. -/
theorem heapStepAny_eq {s s' : HeapState} {ev : HeapEvent}
    (hnext : kernelHeapStart ≤ s.kernel.heap.nextAddr) (hfits : SumsFit s ev)
    (hstep : heapStepAny s ev = some s') : heapStep s ev = some s' ∨ s' = s := by
  cases ev with
  | kmalloc size =>
      by_cases hsize : size < 2 ^ 29
      · simp only [heapStepAny] at hstep
        split at hstep
        · simp only [heapStep, if_pos hsize]
          exact .inl hstep
        · cases hstep
      · simp only [heapStepAny, kmalloc_refused hnext hfits hsize] at hstep
        split at hstep
        · exact .inr (Option.some.inj hstep).symm
        · cases hstep
  | kzalloc size =>
      by_cases hsize : size < 2 ^ 29
      · simp only [heapStepAny] at hstep
        split at hstep
        · simp only [heapStep, if_pos hsize]
          exact .inl hstep
        · cases hstep
      · simp only [heapStepAny, kzalloc, kmalloc_refused hnext hfits hsize] at hstep
        split at hstep
        · exact .inr (Option.some.inj hstep).symm
        · cases hstep
  | kfree ptr => exact .inl hstep
  | write addr byte => exact .inl hstep

theorem RunInv.start_le {s : HeapState} {L : Layout} (h : RunInv s L) :
    kernelHeapStart ≤ s.kernel.heap.nextAddr := by
  rw [h.heap.ok.nextAddr]
  exact Nat.le_add_right _ _

/-- Runs whose sums fit keep the invariant. -/
theorem runInv_of_sumsFit {kernel : Kernel} {es : List HeapEvent} {s : HeapState}
    (hrun : Runs heapStepAny SumsFit (.boot kernel) es s) : ∃ L, RunInv s L :=
  hrun.invariant (fun s => ∃ L, RunInv s L) ⟨[], runInv_boot kernel⟩
    fun _ _ _ ⟨L, h⟩ hfits hstep =>
      (heapStepAny_eq h.start_le hfits hstep).elim (fun hstep => h.step hstep)
        fun hsame => hsame ▸ ⟨L, h⟩

/-- The end of the heap after an event. -/
theorem RunInv.inWindow {s s' : HeapState} {L : Layout} {ev : HeapEvent} (h : RunInv s L)
    (hwindow : s.kernel.InWindow) (hfits : RequestsFit s ev)
    (hstep : heapStepAny s ev = some s') : s'.kernel.InWindow := by
  cases heapStepAny_cases hstep with
  | kmalloc size ptr k hsize hres =>
      rw [allocated_kernel]
      exact h.heap.kmalloc_inWindow hwindow hfits hres
  | kzalloc size ptr k hsize hres =>
      rw [allocated_kernel]
      obtain ⟨k₁, hcall, hk⟩ := kzalloc_ok hres
      have hwindow₁ := h.heap.kmalloc_inWindow hwindow hfits hcall
      obtain ⟨-, rfl⟩ | ⟨-, rfl⟩ := hk
      · exact hwindow₁
      · exact hwindow₁
  | kfree ptr hlive =>
      obtain ⟨k, hk, hnext⟩ := hwindow
      exact ⟨k, hk, (kfree_sameTables s.kernel ptr).nextAddr.trans hnext⟩
  | write addr byte e he hlo hhi => exact hwindow

/-- The kernel heap stays below the kernel stack in every run whose requests fit. -/
theorem heap_inWindow (kernel : Kernel) (es : List HeapEvent) (s : HeapState)
    (hrun : Runs heapStepAny RequestsFit (.boot kernel) es s) :
    s.kernel.heap.nextAddr ≤ kernelHeapMax + 1 := by
  obtain ⟨-, -, k, hk, hnext⟩ := hrun.invariant
    (fun s => ∃ L, RunInv s L ∧ s.kernel.InWindow)
    ⟨[], runInv_boot kernel, 0, Nat.zero_le _, rfl⟩ fun s ev s' ⟨L, h, hwindow⟩ hfits hstep => by
      have hwindow' := h.inWindow hwindow hfits hstep
      rcases heapStepAny_eq h.start_le (RequestsFit.sumsFit hfits) hstep with hstep | rfl
      · obtain ⟨L', h'⟩ := h.step hstep
        exact ⟨L', h', hwindow'⟩
      · exact ⟨L, h, hwindow'⟩
  rw [hnext, kernelHeapMax, kernelHeapStart]
  omega

/-- The window holds after two requests, the first of them given back. -/
theorem heap_inWindow_hole : ∃ s : HeapState,
    Runs heapStepAny RequestsFit (.boot coldKernel)
      [.kmalloc 10000, .kmalloc 100, .kfree (kernelHeapStart + heapBlockSize)] s ∧
    s.kernel.heap.nextAddr ≤ kernelHeapMax + 1 := by
  obtain ⟨s₁, s₂, s₃, hfirst, hsecond, hthird, hnext, -⟩ := exists_hole
  have hfits₁ : RequestsFit (.boot coldKernel) (.kmalloc 10000) := by
    show (HeapState.boot coldKernel).kernel.requestFits 10000
    exact ⟨by decide, fun _ => by decide⟩
  have hfits₂ : RequestsFit s₁ (.kmalloc 100) := by
    show s₁.kernel.requestFits 100
    unfold requestFits
    rw [hnext]
    exact ⟨by decide, fun hstart => absurd hstart (by decide)⟩
  have hrun : Runs heapStepAny RequestsFit (.boot coldKernel)
      ([] ++ [.kmalloc 10000] ++ [.kmalloc 100] ++ [.kfree (kernelHeapStart + heapBlockSize)]) s₃ :=
    ((Runs.nil.snoc hfits₁ (heapStepAny_of_heapStep hfirst)).snoc hfits₂
      (heapStepAny_of_heapStep hsecond)).snoc trivial (heapStepAny_of_heapStep hthird)
  exact ⟨s₃, hrun, heap_inWindow coldKernel _ _ hrun⟩

/-! ## The request for the whole window -/

/-- The loop over the interior blocks up to the end of the chain returns when there
    is a frame. -/
theorem takeLoop_end_isOk {k : Nat} {s : Kernel} {p b : Nat} (hb : 0 < b)
    (h : Linked (blkNext s.mem) (blkPrev s.mem) p (addrs b (List.replicate (k + 1) freeBlk)) 0)
    (hcr3 : s.cr3 = none) (hframe : (pfaAlloc s.pfa).1 ≠ 0) :
    ∃ r, takeLoop (k + 1) s b = .ok r := by
  induction k generalizing s b p with
  | zero =>
      simp only [List.replicate_succ, List.replicate_zero, addrs, linked_cons, linked_nil,
        List.headD_nil, and_true] at h
      have hnext : (heapBlock (setIsFree s.mem b false) b).next = 0 :=
        (blkNext_setIsFree (.inl rfl)).trans h.2
      obtain ⟨s₁, hgrow, -⟩ := heapGrow_isOk (s := s.setMem (setIsFree s.mem b false)) hcr3 hframe
      simp only [takeLoop, setMem_mem, hnext, if_true, hgrow]
      exact ⟨_, rfl⟩
  | succ k ih =>
      rw [List.replicate_succ] at h
      simp only [addrs, freeBlk_span, linked_cons] at h
      obtain ⟨-, hnextb, hrest⟩ := h
      have hnext : (heapBlock (setIsFree s.mem b false) b).next = b + 4096 :=
        (blkNext_setIsFree (.inl rfl)).trans hnextb
      obtain ⟨r, htake⟩ := ih (s := s.setMem (setIsFree s.mem b false)) (b := b + 4096) (by omega)
        (linked_setIsFree hrest) hcr3 hframe
      refine ⟨r, ?_⟩
      rw [takeLoop]
      simp only [setMem_mem, hnext, show b + 4096 ≠ 0 by omega, if_false]
      exact htake

/-- Taking the run that ends the chain returns when there is a frame. -/
theorem HeapOk.takeRun_end_isOk {n : Nat} {s : Kernel} {pre : Layout}
    (h : HeapOk s (pre ++ List.replicate n freeBlk ++ [])) (hn : 0 < n)
    (hbound : s.heap.nextAddr + 4096 * pageChunks ≤ 2 ^ 32)
    (hcr3 : s.cr3 = none) (hframe : (pfaAlloc s.pfa).1 ≠ 0) :
    ∃ r, s.takeRun n (kernelHeapStart + 4096 * chunks pre) = .ok r := by
  obtain ⟨k, rfl⟩ : ∃ k, n = k + 1 := ⟨n - 1, by omega⟩
  obtain ⟨-, -, hnext, hrest⟩ := h.run_front
  rw [List.append_nil] at hnext hrest
  have hheap : 0 < kernelHeapStart := by decide
  have hrange := h.nextAddr
  have hlast := h.lastBlock
  rw [chunks_append, chunks_append, chunks_replicate, chunks, Nat.add_zero, Nat.mul_add,
    ← Nat.add_assoc] at hrange
  rw [List.append_nil, addrs_append, getLastD_append] at hlast
  generalize hstart : kernelHeapStart + 4096 * chunks pre = start at *
  have hk : k + 1 < 2 ^ 32 := by omega
  generalize hm : setChunkSpan (setIsFree s.mem start false) start (k + 1) = m
  have hmark : (heapBlock m start).next
      = (addrs (start + 4096) (List.replicate k freeBlk)).headD 0 := by
    rw [← hm, ← hnext]
    exact blkNext_mark s.mem hk (.inl rfl)
  simp only [Kernel.takeRun, bind, Except.bind, hm, hmark, Nat.add_sub_cancel]
  -- a run of one chunk is the last block itself; else the loop ends at the last block
  cases k with
  | zero =>
      obtain ⟨s₁, hgrow, -⟩ := heapGrow_isOk (s := (s.setMem m).setMem (setNext m start 0))
        hcr3 hframe
      simp only [List.replicate_zero, addrs, List.headD_nil, takeLoop, ne_eq, not_true_eq_false,
        if_false, if_true, setMem_mem, hgrow]
      exact ⟨_, rfl⟩
  | succ k =>
      -- the marks are on the first chunk, so the links of the others are as before
      have hlinks : Linked (blkNext m) (blkPrev m) start
          (addrs (start + 4096) (List.replicate (k + 1) freeBlk)) 0 := by
        refine hrest.links.congr (fun x hx => ?_) (fun x hx => ?_)
        · have := addrs_ge hx
          rw [← hm]
          exact blkNext_mark s.mem hk (by omega)
        · have := addrs_ge hx
          rw [← hm]
          exact blkPrev_mark s.mem hk (by omega)
      have hlast' : (s.setMem m).heap.lastBlock = start + 4096 + 4096 * k := by
        rw [setMem_heap, hlast, addrs_replicate_last, Nat.mul_succ]
        omega
      have hend : (s.setMem m).heap.nextAddr = start + 4096 + 4096 * (k + 1) := by
        rw [setMem_heap, hrange, Nat.mul_succ 4096 (k + 1), Nat.add_comm (4096 * (k + 1)),
          Nat.add_assoc]
      have hpos : 0 < start + 4096 := by omega
      obtain ⟨⟨s₁, nextFree⟩, htake⟩ := takeLoop_end_isOk (s := s.setMem m) hpos hlinks hcr3 hframe
      obtain ⟨-, -, -, hfree⟩ := takeLoop_of_end hpos hlinks hlast' hend hbound htake
      have hne : nextFree ≠ 0 := hfree.trans hend ▸ Nat.succ_ne_zero _
      have hhead : (addrs (start + 4096) (List.replicate (k + 1) freeBlk)).headD 0
          = start + 4096 := rfl
      rw [hhead, htake]
      simp only [hne, if_false]
      exact ⟨_, rfl⟩

/-- On a heap of free chunks, a request that `m` pages more make room for, and no
    chunk beyond it: the heap grows by `m + 1` pages. -/
theorem HeapOk.mallocLoop_whole {n t m : Nat} {s : Kernel} (fuel : Nat)
    (h : HeapOk s ([] ++ List.replicate t freeBlk)) (ht : 0 < t) (hn : t + pageChunks * m = n)
    (hfuel : m ≤ fuel) (hbound : s.heap.nextAddr + 4096 * (pageChunks * (m + 1)) ≤ 2 ^ 32)
    (hcr3 : s.cr3 = none) (hframes : Supplies (m + 1) s.pfa) :
    ∃ ptr s', Kernel.mallocLoop n (fuel + 1) s = .ok (ptr, s') ∧
      s'.heap.nextAddr = kernelHeapStart + 4096 * (n + pageChunks) := by
  have hpage := pageChunks_pos
  have hne : [] ++ List.replicate t freeBlk ≠ [] := by
    rw [List.nil_append, ne_eq, List.replicate_eq_nil_iff]
    omega
  rw [Nat.mul_succ] at hbound
  -- over the pages that are missing; each round of the search adds one
  induction m generalizing s t fuel with
  | zero =>
      obtain rfl : n = t := by omega
      have hused : firstRun n (([] : Layout) ++ List.replicate n freeBlk ++ []) = some 0 :=
        firstRun_of_used ht (fun _ hb => by cases hb) []
      rw [List.append_nil] at hused
      have hsplit : HeapOk s ([] ++ List.replicate n freeBlk ++ []) := by
        rw [List.append_nil]
        exact h
      have hroom : s.heap.nextAddr + 4096 * pageChunks ≤ 2 ^ 32 := by omega
      obtain ⟨⟨ptr, s'⟩, htake⟩ := hsplit.takeRun_end_isOk ht hroom hcr3 hframes.1
      obtain ⟨-, hok⟩ := hsplit.takeRun_of_end ht hroom htake
      refine ⟨ptr, s', ?_, ?_⟩
      · rw [h.mallocLoop_some hne hused]
        exact htake
      · rw [hok.nextAddr]
        simp only [List.nil_append, chunks, usedBlk_span, chunks_replicate]
  | succ m ih =>
      rw [Nat.mul_succ] at hn hbound
      have hrun : firstRun n ([] ++ List.replicate t freeBlk) = none :=
        firstRun_none_of_used (by omega) fun _ hb => by cases hb
      obtain ⟨f, rfl⟩ : ∃ f, fuel = f + 1 := ⟨fuel - 1, by omega⟩
      obtain ⟨s₁, hgrow, hpfa⟩ := heapGrow_isOk hcr3 hframes.1
      obtain ⟨h₁, hnext₁⟩ := h.heapGrow hgrow (by omega)
      have hcr3₁ := (heapGrow_grewPage hgrow).mapped.cr3.1.trans hcr3
      have hne₁ := append_page_ne_nil [] t
      obtain ⟨ptr, s', hloop, hnext'⟩ := ih f h₁ (by omega) (by omega) (by omega) (by omega)
        hcr3₁ (hpfa ▸ hframes.2) hne₁
      refine ⟨ptr, s', ?_, hnext'⟩
      rw [h.mallocLoop_none hne hrun, hgrow]
      exact hloop

/-- The first request on a cold heap, for `m + 1` pages exactly. -/
theorem kmalloc_whole {k : Kernel} {m size : Nat}
    (hheap : k.heap = ⟨kernelHeapStart, kernelHeapStart, kernelHeapMax, 0, 0, 0⟩)
    (hcr3 : k.cr3 = none) (hframes : Supplies (m + 2) k.pfa)
    (hguard : ¬ (k.heap.nextAddr + totalSizeWithHeader size) % 2 ^ 32 > kernelHeapMax)
    (hneeded : chunksNeeded size = pageChunks * (m + 1))
    (hbound : kernelHeapStart + 4096 * (pageChunks * (m + 2)) ≤ 2 ^ 32) :
    ∃ ptr k', k.kmalloc size = .ok (ptr, k') ∧
      k'.heap.nextAddr = kernelHeapStart + 4096 * (pageChunks * (m + 2)) := by
  have hpage := pageChunks_pos
  have hempty : HeapOk k ([] ++ List.replicate 0 freeBlk) := by
    refine ⟨chain_nil _ _ _ _, (fun _ hb => by cases hb), ?_, ?_, ?_, ?_, ?_⟩ <;> rw [hheap] <;> rfl
  have hstart : k.heap.nextAddr = kernelHeapStart := by rw [hheap]
  have hsplit : pageChunks * (m + 2) = pageChunks * (m + 1) + pageChunks := Nat.mul_succ ..
  have hsplit' : pageChunks * (m + 1) = pageChunks * m + pageChunks := Nat.mul_succ ..
  obtain ⟨k₁, hgrow, hpfa⟩ := heapGrow_isOk hcr3 hframes.1
  obtain ⟨hok, hnext⟩ := hempty.heapGrow hgrow (by omega)
  have hcr3₁ := (heapGrow_grewPage hgrow).mapped.cr3.1.trans hcr3
  have hle : m ≤ pageChunks * m := Nat.le_mul_of_pos_left m hpage
  have hlow : k.growIfLow = .ok k₁ := (growIfLow_of_empty (by rw [hheap]; rfl)).trans hgrow
  obtain ⟨ptr, k', hloop, hnext'⟩ := hok.mallocLoop_whole (n := chunksNeeded size) (m := m)
    (chunksNeeded size) (by omega) (by omega) (by omega) (by omega) hcr3₁
    (hpfa ▸ hframes.2)
  refine ⟨ptr, k', ?_, ?_⟩
  · rw [kmalloc, if_neg hguard, hlow]
    exact hloop
  · rw [hnext', hneeded, hsplit]

theorem coldKernel_supplies : Supplies 8 (HeapState.boot coldKernel).kernel.pfa := by
  refine ⟨?_, ?_, ?_, ?_, ?_, ?_, ?_, ?_, trivial⟩ <;> decide +kernel

/-- The first request asks for all the chunks of the window. -/
theorem exists_past_window : ¬ ∀ (kernel : Kernel) (es : List HeapEvent) (s : HeapState),
    Runs heapStepAny always (.boot kernel) es s → s.kernel.heap.nextAddr ≤ kernelHeapMax + 1 := by
  intro hall
  have hneeded : chunksNeeded 29360107 = pageChunks * (6 + 1) := by
    rw [pageChunks_eq]
    decide
  have hbound : kernelHeapStart + 4096 * (pageChunks * (6 + 2)) ≤ 2 ^ 32 := by
    rw [pageChunks_eq]
    decide
  obtain ⟨ptr, k', hcall, hnext⟩ := kmalloc_whole (k := (HeapState.boot coldKernel).kernel)
    rfl rfl coldKernel_supplies (by decide) hneeded hbound
  have hstep : heapStepAny (.boot coldKernel) (.kmalloc 29360107)
      = some ((HeapState.boot coldKernel).allocated 29360107 (ptr, k')) := by
    simp only [heapStepAny, hcall]
    rfl
  have hle := hall coldKernel _ _ (Runs.nil.snoc trivial hstep)
  rw [allocated_kernel, hnext, pageChunks_eq] at hle
  exact absurd hle (by decide)

end Kernel

end Icarius
