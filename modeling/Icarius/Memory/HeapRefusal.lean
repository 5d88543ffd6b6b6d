/-
  Icarius.Memory.HeapRefusal

  Which requests `kmalloc` refuses.  The guard of `_malloc` compares the end of the
  heap, with the request on top of it, with `KERNEL_HEAP_MAX`, as if every request
  needed new pages.  Free chunks inside the heap do not count: a request is refused
  when it would not fit behind the heap, also when it fits into it.
-/

import Icarius.Memory.HeapSpan

namespace Icarius

open Icarius.Lib Layout

namespace Kernel

/-- Below 512 MiB the guard says what it means to say. -/
theorem HeapInv.admits_iff {s : Kernel} {L : Layout} {size : Nat} (h : HeapInv s L)
    (hsize : size < 2 ^ 29) :
    s.Admits size ↔ s.heap.nextAddr + (size + heapBlockSize) ≤ kernelHeapMax := by
  have hbound := h.bound
  simp only [heapLimit] at hbound
  simp only [Admits, totalSizeWithHeader, heapBlockSize, kernelHeapMax]
  omega

/-- A request that passes the guard does not return null. -/
theorem HeapInv.kmalloc_ne_null {s k : Kernel} {L : Layout} {size : Nat} (h : HeapInv s L)
    (hsize : size < 2 ^ 29) (hadmits : s.Admits size) : s.kmalloc size ≠ .ok (0, k) := by
  intro hres
  obtain ⟨hrefused, -⟩ | ⟨-, s₁, hlow, hloop⟩ := kmalloc_ok hres
  · exact absurd hadmits (Nat.not_le.mpr hrefused)
  · have hpos := (chunksNeeded_spec hsize).1
    obtain ⟨t, h₁, hne, hbound, hroom⟩ := h.search_room hsize hadmits hlow
    obtain ⟨j, s₂, pre, post, hsearch, htake⟩ := h₁.mallocLoop_search hpos hne hbound hroom hloop
    obtain ⟨-, hptr⟩ := hsearch.firstFit hpos htake
    simp only [heapBlockSize] at hptr
    omega

/-- The heap has a run of free chunks for a request. -/
def HasRoom (s : Kernel) (size : Nat) : Prop := ∃ a, s.FreeRun (chunksNeeded size) a

/-- When there is room for a request in the heap, `kmalloc` does not return null exactly
    when the request would fit behind the heap as well. -/
theorem kmalloc_null_iff (kernel : Kernel) (es : List HeapEvent) (s : HeapState)
    (hrun : Runs heapStepAny SumsFit (.boot kernel) es s) (size : Nat) (hsize : size < 2 ^ 29) :
    (s.kernel.HasRoom size → ∀ k, s.kernel.kmalloc size ≠ .ok (0, k)) ↔
      (s.kernel.HasRoom size →
        s.kernel.heap.nextAddr + (size + heapBlockSize) ≤ kernelHeapMax) := by
  obtain ⟨L, h⟩ := runInv_of_sumsFit hrun
  rw [← h.heap.admits_iff hsize]
  constructor
  · intro hnull hroom
    by_contra hrefused
    refine hnull hroom s.kernel ?_
    rw [Kernel.kmalloc, if_pos (Nat.lt_of_not_le hrefused)]
  · intro hadmits hroom k
    exact h.heap.kmalloc_ne_null hsize (hadmits hroom)

/-- The second request of a cold machine is for a chunk of the first page. -/
theorem kmalloc_null_iff_second : ∃ s : HeapState,
    Runs heapStepAny SumsFit (.boot coldKernel) [.kzalloc 100] s ∧
      ∀ k, s.kernel.kmalloc 100 ≠ .ok (0, k) := by
  obtain ⟨ptr, k, hcall, -, hone, -⟩ := kzalloc_first (k := (HeapState.boot coldKernel).kernel)
    100 rfl rfl coldKernel_supplies.1 (by decide)
  have hstep : heapStepAny (.boot coldKernel) (.kzalloc 100)
      = some ((HeapState.boot coldKernel).allocated 100 (ptr, k)) := by
    simp only [heapStepAny, hcall]
    rfl
  have hsum : SumsFit (.boot coldKernel) (.kzalloc 100) := by
    change (HeapState.boot coldKernel).kernel.heap.nextAddr + (100 + heapBlockSize) < 2 ^ 32
    decide
  have hrun : Runs heapStepAny SumsFit (.boot coldKernel) ([] ++ [.kzalloc 100]) _ :=
    Runs.nil.snoc hsum hstep
  have hkernel : ((HeapState.boot coldKernel).allocated 100 (ptr, k)).kernel = k :=
    allocated_kernel _ _ _ _
  have hfree : k.HasRoom 100 := by
    have hneeded : chunksNeeded 100 = 1 := by decide
    have hpage := pageChunks_eq
    obtain ⟨t, ht⟩ : ∃ t, pageChunks - 1 = 1 + t := ⟨pageChunks - 2, by omega⟩
    rw [OnePage, ht, List.replicate_add, ← List.append_assoc] at hone
    exact ⟨_, hneeded ▸ hone.freeRun_of_split⟩
  refine ⟨_, hrun, (kmalloc_null_iff coldKernel _ _ hrun 100 (by decide)).mpr (fun _ => ?_) ?_⟩
  · rw [hkernel, hone.nextAddr (by omega)]
    decide
  · rw [hkernel]
    exact hfree

/-! ## A refused request -/

/-- Without used blocks a layout is free chunks. -/
theorem eq_replicate_of_usedAddrs {a : Nat} {L : Layout} (hsound : Sound L)
    (h : usedAddrs a L = []) : L = List.replicate (chunks L) freeBlk := by
  induction L generalizing a with
  | nil => rfl
  | cons b L ih =>
      rw [usedAddrs] at h
      split at h
      · rename_i hfree
        obtain rfl := hsound.eq_freeBlk List.mem_cons_self hfree
        rw [chunks, freeBlk_span, Nat.add_comm, List.replicate_succ, ← ih hsound.tail h]
      · cases h

/-- A heap of which everything was freed is one run. -/
theorem RunInv.hasRoom {s : HeapState} {L : Layout} (h : RunInv s L) (size : Nat)
    (hlive : s.live = [])
    (hlong : kernelHeapStart + 4096 * chunksNeeded size ≤ s.kernel.heap.nextAddr) :
    s.kernel.HasRoom size := by
  have hused : usedAddrs kernelHeapStart L = [] := by
    have hperm := h.used
    rw [hlive, List.map_nil] at hperm
    exact hperm.symm.eq_nil
  have hfree := eq_replicate_of_usedAddrs h.heap.ok.sound hused
  have hnext := h.heap.ok.nextAddr
  obtain ⟨t, ht⟩ : ∃ t, chunks L = chunksNeeded size + t := ⟨chunks L - chunksNeeded size, by omega⟩
  have hok : HeapOk s.kernel
      ([] ++ List.replicate (chunksNeeded size) freeBlk ++ List.replicate t freeBlk) := by
    rw [List.nil_append, ← List.replicate_add, ← ht, ← hfree]
    exact h.heap.ok
  exact ⟨_, hok.freeRun_of_split⟩

/-- A request for `m + 1` pages, freed and made again, is refused when it does not fit
    behind the heap that it has made. -/
theorem kmalloc_again {k : Kernel} {size m : Nat} (hsize : size < 2 ^ 29)
    (hcr3 : k.cr3 = none) (hframes : Supplies (m + 2) (HeapState.boot k).kernel.pfa)
    (hadmits : (HeapState.boot k).kernel.Admits size)
    (hneeded : chunksNeeded size = pageChunks * (m + 1))
    (hbound : kernelHeapStart + 4096 * (pageChunks * (m + 2)) ≤ 2 ^ 32)
    (hfull : kernelHeapMax < (kernelHeapStart + 4096 * (pageChunks * (m + 2))
      + totalSizeWithHeader size) % 2 ^ 32) :
    ∃ es s, Runs heapStepAny SumsFit (.boot k) es s ∧ s.kernel.HasRoom size ∧
      s.kernel.kmalloc size = .ok (0, s.kernel) := by
  obtain ⟨ptr, k₁, hcall, hnext⟩ := kmalloc_whole (k := (HeapState.boot k).kernel)
    rfl hcr3 hframes (Nat.not_lt.mpr hadmits) hneeded hbound
  have hboot := (runInv_boot k).heap
  have hptr : ptr ≠ 0 := by
    rintro rfl
    exact hboot.kmalloc_ne_null hsize hadmits hcall
  have halloc : heapStepAny (.boot k) (.kmalloc size) = some ⟨k₁, [(ptr, size)]⟩ := by
    have hlt : size < 2 ^ 32 := Nat.lt_trans hsize (by decide)
    simp only [heapStepAny, hlt, hcall, Except.toOption, Option.map_some, HeapState.allocated,
      hptr, if_true, if_false]
    rfl
  have hfree : heapStepAny ⟨k₁, [(ptr, size)]⟩ (.kfree ptr) = some ⟨k₁.kfree ptr, []⟩ := by
    simp only [heapStepAny, heapStep, List.map_cons, List.map_nil, List.mem_singleton, if_true,
      List.eraseP_cons, beq_self_eq_true, cond_true]
  have hsum : SumsFit (.boot k) (.kmalloc size) := by
    have hle := hboot.bound
    simp only [heapLimit] at hle
    simp only [SumsFit, heapBlockSize]
    omega
  have hrun : Runs heapStepAny SumsFit (.boot k) (([] ++ [.kmalloc size]) ++ [.kfree ptr])
      ⟨k₁.kfree ptr, []⟩ := (Runs.nil.snoc hsum halloc).snoc trivial hfree
  obtain ⟨L, h⟩ := runInv_of_sumsFit hrun
  have hend : (k₁.kfree ptr).heap.nextAddr
      = kernelHeapStart + 4096 * (pageChunks * (m + 2)) :=
    (kfree_sameTables k₁ ptr).nextAddr.trans hnext
  refine ⟨_, _, hrun, h.hasRoom size rfl ?_, ?_⟩
  · rw [hneeded, hend]
    have hpages : pageChunks * (m + 1) ≤ pageChunks * (m + 2) :=
      Nat.mul_le_mul_left _ (Nat.le_succ _)
    omega
  · rw [Kernel.kmalloc, hend, if_pos hfull]

/-- Three pages are allocated, freed, and not to be had again: the heap has four, and a
    window of seven. -/
theorem exists_refused_with_room : ¬ ∀ (kernel : Kernel) (es : List HeapEvent) (s : HeapState),
    Runs heapStepAny SumsFit (.boot kernel) es s → ∀ size < 2 ^ 29, s.kernel.HasRoom size →
      ∀ k, s.kernel.kmalloc size ≠ .ok (0, k) := by
  intro hall
  have hneeded : chunksNeeded 12582892 = pageChunks * (2 + 1) := by
    rw [pageChunks_eq]
    decide
  have hbound : kernelHeapStart + 4096 * (pageChunks * (2 + 2)) ≤ 2 ^ 32 := by
    rw [pageChunks_eq]
    decide
  have hfull : kernelHeapMax < (kernelHeapStart + 4096 * (pageChunks * (2 + 2))
      + totalSizeWithHeader 12582892) % 2 ^ 32 := by
    rw [pageChunks_eq]
    decide
  have hframes : Supplies (2 + 2) (HeapState.boot coldKernel).kernel.pfa :=
    coldKernel_supplies.mono (by decide)
  obtain ⟨es, s, hrun, hroom, hnull⟩ :=
    kmalloc_again (by decide) rfl hframes (by decide) hneeded hbound hfull
  exact hall coldKernel es s hrun 12582892 (by decide) hroom s.kernel hnull

end Kernel

end Icarius
