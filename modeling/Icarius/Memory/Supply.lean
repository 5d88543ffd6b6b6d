/-
  Icarius.Memory.Supply

  With frames to be had, calls of the heap and of the page tables do return: a
  request of one chunk, a request that needs one page more, a range of pages.
-/

import Icarius.Memory.Frames
import Icarius.Memory.HeapRuns

namespace Icarius

open Icarius.Lib Layout

/-! ## Frames to be had -/

/-- The bitmap after `n` allocations. -/
def takeFrames : Nat → Pfa → Pfa
  | 0, pfa => pfa
  | n + 1, pfa => takeFrames n (pfaAlloc pfa).2

/-- The next `n` allocations succeed. -/
def Supplies : Nat → Pfa → Prop
  | 0, _ => True
  | n + 1, pfa => (pfaAlloc pfa).1 ≠ 0 ∧ Supplies n (pfaAlloc pfa).2

theorem Supplies.drop {m n : Nat} {pfa : Pfa} (h : Supplies (m + n) pfa) :
    Supplies n (takeFrames m pfa) := by
  induction m generalizing pfa with
  | zero => rwa [Nat.zero_add] at h
  | succ m ih =>
      rw [Nat.succ_add] at h
      exact ih h.2

theorem Supplies.mono {m n : Nat} {pfa : Pfa} (h : Supplies n pfa) (hle : m ≤ n) :
    Supplies m pfa := by
  induction m generalizing n pfa with
  | zero => trivial
  | succ m ih =>
      obtain ⟨k, rfl⟩ : ∃ k, n = k + 1 := ⟨n - 1, by omega⟩
      exact ⟨h.1, ih h.2 (by omega)⟩

namespace Kernel

/-! ## One chunk -/

/-- A request of one chunk behind used blocks, once `_malloc` has looked at its
    counters. -/
theorem kzalloc_chunk {k k₁ : Kernel} {pre : Layout} {m size : Nat}
    (hguard : ¬ (k.heap.nextAddr + totalSizeWithHeader size) % 2 ^ 32 > kernelHeapMax)
    (hlow : k.growIfLow = .ok k₁) (hsize : size + heapBlockSize ≤ kernelHeapChunkSize)
    (h : HeapOk k₁ (pre ++ List.replicate (m + 1) freeBlk))
    (hused : ∀ b ∈ pre, b.free = false) (hm : 0 < m) (hbound : k₁.heap.nextAddr ≤ 2 ^ 32) :
    ∃ k', k.kzalloc size = .ok (kernelHeapStart + 4096 * chunks pre + heapBlockSize, k') ∧
      HeapOk k' (pre ++ usedBlk 1 :: List.replicate m freeBlk) ∧ SameTables k₁ k' := by
  have htotal : totalSizeWithHeader size = size + 20 := by
    simp only [totalSizeWithHeader, heapBlockSize, kernelHeapChunkSize] at hsize ⊢
    omega
  have hneeded : chunksNeeded size = 1 := by
    rw [chunksNeeded, htotal]
    simp only [heapBlockSize, kernelHeapChunkSize] at hsize ⊢
    omega
  have hsplit : pre ++ List.replicate (m + 1) freeBlk
      = pre ++ List.replicate (chunksNeeded size) freeBlk ++ List.replicate m freeBlk := by
    rw [hneeded, List.append_assoc, List.replicate_append_replicate, Nat.add_comm 1]
  rw [hsplit] at h
  have hpos : 0 < chunksNeeded size := by omega
  have hpost : List.replicate m freeBlk ≠ [] := by
    rw [ne_eq, List.replicate_eq_nil_iff]
    omega
  obtain ⟨mem, hcall, hok⟩ := kmalloc_fits size hguard hlow hpos h
    (firstRun_of_used hpos hused _) hpost hbound
  set k₂ := (k₁.setMem mem).count (chunksNeeded size)
  set ptr := kernelHeapStart + 4096 * chunks pre + heapBlockSize with hptr
  have hne : ptr ≠ 0 := by
    simp only [hptr, heapBlockSize]
    omega
  rw [hneeded] at hok
  refine ⟨k₂.setMem (k₂.mem.fill ptr size 0), ?_, ?_, ⟨rfl, rfl, rfl, rfl, rfl⟩⟩
  · rw [kzalloc, hcall]
    simp only [hne, if_false]
  · have hblock : (kernelHeapStart + 4096 * chunks pre, 1)
        ∈ usedAddrs kernelHeapStart (pre ++ usedBlk 1 :: List.replicate m freeBlk) := by
      rw [usedAddrs_append, usedAddrs_cons_used]
      exact List.mem_append_right _ List.mem_cons_self
    refine hok.setMem hblock fun x hx =>
      Mem.agree_fill _ (b := x) (n := 1) ?_ x (Nat.le_refl x) (Nat.lt_succ_self x)
    simp only [hptr, heapBlockSize, kernelHeapChunkSize] at hsize hx ⊢
    omega

/-- Heap functions look at memory and counters only. -/
theorem HeapOk.of_eq {k k' : Kernel} {L : Layout} (h : HeapOk k L) (hmem : k'.mem = k.mem)
    (hheap : k'.heap = k.heap) : HeapOk k' L := by
  refine ⟨?_, h.sound, ?_, ?_, ?_, ?_, ?_⟩
  · rw [hmem]
    exact h.chain
  · rw [hheap]
    exact h.startAddr
  · rw [hheap]
    exact h.nextAddr
  · rw [hheap]
    exact h.lastBlock
  · rw [hheap]
    exact h.freeChunks
  · rw [hheap]
    exact h.usedChunks

/-- A heap of one page: `j` used chunks in front, the rest free. -/
def OnePage (k : Kernel) (j : Nat) : Prop :=
  HeapOk k (List.replicate j (usedBlk 1) ++ List.replicate (pageChunks - j) freeBlk)

theorem used_of_mem_replicate {j : Nat} : ∀ b ∈ List.replicate j (usedBlk 1), b.free = false := by
  intro b hb
  rw [(List.mem_replicate.mp hb).2]
  rfl

theorem chunks_replicate_used (j : Nat) : chunks (List.replicate j (usedBlk 1)) = j ∧
    usedChunks (List.replicate j (usedBlk 1)) = j := by
  induction j with
  | zero => exact ⟨rfl, rfl⟩
  | succ j ih =>
      rw [List.replicate_succ]
      rw [chunks, usedChunks, ih.1, ih.2, Nat.add_comm j 1]
      exact ⟨rfl, rfl⟩

theorem OnePage.nextAddr {k : Kernel} {j : Nat} (h : k.OnePage j) (hj : j < 8) :
    k.heap.nextAddr = kernelHeapStart + 4194304 := by
  have hnext := HeapOk.nextAddr h
  have hpage := pageChunks_eq
  rw [chunks_append, (chunks_replicate_used j).1, chunks_replicate] at hnext
  rw [hnext]
  omega

/-- The next request of one chunk. -/
theorem OnePage.kzalloc {k : Kernel} {j : Nat} (h : k.OnePage j) (size : Nat) (hj : j < 8)
    (hsize : size + heapBlockSize ≤ kernelHeapChunkSize) :
    ∃ ptr k', k.kzalloc size = .ok (ptr, k') ∧ ptr ≠ 0 ∧
      ptr = kernelHeapStart + 4096 * chunks (List.replicate j (usedBlk 1)) + heapBlockSize ∧
      k'.OnePage (j + 1) ∧ SameTables k k' := by
  have hpage := pageChunks_eq
  have hnext := h.nextAddr (by omega)
  obtain ⟨m, hm⟩ : ∃ m, pageChunks - j = m + 1 := ⟨pageChunks - j - 1, by omega⟩
  have hok : HeapOk k (List.replicate j (usedBlk 1) ++ List.replicate (m + 1) freeBlk) := hm ▸ h
  have hlow := growIfLow_of_room hok used_of_mem_replicate
    (by rw [(chunks_replicate_used j).2]; omega) (by omega)
  have hguard : ¬ (k.heap.nextAddr + totalSizeWithHeader size) % 2 ^ 32 > kernelHeapMax := by
    simp only [hnext, totalSizeWithHeader, heapBlockSize, kernelHeapChunkSize, kernelHeapStart,
      kernelHeapMax] at hsize ⊢
    omega
  obtain ⟨k', hcall, hok', hsame⟩ := kzalloc_chunk hguard hlow hsize hok used_of_mem_replicate
    (by omega) (by rw [hnext]; decide)
  refine ⟨_, k', hcall, ?_, rfl, ?_, hsame⟩
  · simp only [heapBlockSize]
    omega
  · rw [OnePage, show pageChunks - (j + 1) = m by omega, List.replicate_succ', List.append_assoc]
    exact hok'

/-- Giving the last chunk back. -/
theorem OnePage.kfree {k : Kernel} {j : Nat} (h : k.OnePage (j + 1)) (hj : j < 7) :
    (k.kfree (kernelHeapStart + 4096 * chunks (List.replicate j (usedBlk 1)) + heapBlockSize)).OnePage
      j := by
  have hpage := pageChunks_eq
  have hnext := h.nextAddr (by omega)
  have hsplit := h
  rw [OnePage, List.replicate_succ', List.append_assoc, List.singleton_append] at hsplit
  have hpost : List.replicate (pageChunks - (j + 1)) freeBlk ≠ [] := by
    rw [ne_eq, List.replicate_eq_nil_iff]
    omega
  have hbound : k.heap.nextAddr < 2 ^ 32 := by
    rw [hnext]
    decide
  have hok := HeapOk.kfree hsplit hpost hbound
  rw [List.append_assoc, List.replicate_append_replicate,
    show 1 + (pageChunks - (j + 1)) = pageChunks - j by omega] at hok
  exact hok

/-- The first request maps a page. -/
theorem kzalloc_first {k : Kernel} (size : Nat)
    (hheap : k.heap = ⟨kernelHeapStart, kernelHeapStart, kernelHeapMax, 0, 0, 0⟩)
    (hcr3 : k.cr3 = none) (hframe : (pfaAlloc k.pfa).1 ≠ 0)
    (hsize : size + heapBlockSize ≤ kernelHeapChunkSize) :
    ∃ ptr k', k.kzalloc size = .ok (ptr, k') ∧ ptr = kernelHeapStart + heapBlockSize ∧
      k'.OnePage 1 ∧ k'.pfa = (pfaAlloc k.pfa).2 ∧
      ∀ i, i ≠ pdIndex kernelHeapStart → k'.kernelDirectory i = k.kernelDirectory i := by
  have hpage := pageChunks_eq
  have hempty : HeapOk k ([] ++ List.replicate 0 freeBlk) := by
    refine ⟨chain_nil _ _ _ _, (fun _ hb => by cases hb), ?_, ?_, ?_, ?_, ?_⟩ <;> rw [hheap] <;> rfl
  have hstart : k.heap.nextAddr = kernelHeapStart := by rw [hheap]
  obtain ⟨k₁, hgrow, hpfa⟩ := heapGrow_isOk hcr3 hframe
  have hwindow : k.heap.nextAddr + 4096 * pageChunks ≤ 2 ^ 32 := by
    rw [hstart, hpage]
    decide
  obtain ⟨hok, hnext⟩ := hempty.heapGrow hgrow hwindow
  have hlow : k.growIfLow = .ok k₁ := (growIfLow_of_empty (by rw [hheap]; rfl)).trans hgrow
  obtain ⟨m, hm⟩ : ∃ m, pageChunks = m + 2 := ⟨pageChunks - 2, by omega⟩
  rw [Nat.zero_add, hm] at hok
  have hguard : ¬ (k.heap.nextAddr + totalSizeWithHeader size) % 2 ^ 32 > kernelHeapMax := by
    simp only [hstart, totalSizeWithHeader, heapBlockSize, kernelHeapChunkSize, kernelHeapStart,
      kernelHeapMax] at hsize ⊢
    omega
  have hbound : k₁.heap.nextAddr ≤ 2 ^ 32 := hnext ▸ hwindow
  obtain ⟨k', hcall, hok', hsame⟩ := kzalloc_chunk hguard hlow hsize hok
    (fun _ hb => absurd hb List.not_mem_nil) (Nat.succ_pos m) hbound
  refine ⟨_, k', hcall, rfl, ?_, hsame.pfa.trans hpfa, fun i hi => ?_⟩
  · rw [OnePage, hm]
    exact hok'
  · obtain ⟨f, -, -, -, -, hkd⟩ := (heapGrow_mapped hgrow).frame
    rw [hsame.kernelDirectory, hkd, hstart]
    exact Dir.set_ne _ _ hi

/-- A request longer than the free end of the heap maps a page and takes it. -/
theorem kmalloc_grows {k k₁ : Kernel} {pre : Layout} {m : Nat} (size : Nat)
    (hguard : ¬ (k.heap.nextAddr + totalSizeWithHeader size) % 2 ^ 32 > kernelHeapMax)
    (h : HeapOk k (pre ++ List.replicate m freeBlk)) (hused : ∀ b ∈ pre, b.free = false)
    (hroom : 4 * usedChunks pre ≤ m) (hm : 0 < m) (hlt : m < chunksNeeded size)
    (hfits : chunksNeeded size < m + pageChunks) (hgrow : k.heapGrow = .ok k₁)
    (hbound : k.heap.nextAddr + 4096 * pageChunks ≤ 2 ^ 32) :
    ∃ ptr k', k.kmalloc size = .ok (ptr, k') ∧ SameTables k₁ k' := by
  obtain ⟨n, hn⟩ : ∃ n, n = chunksNeeded size := ⟨_, rfl⟩
  rw [← hn] at hlt hfits
  have hne : ∀ j, 0 < j → pre ++ List.replicate j freeBlk ≠ [] := by
    intro j hj
    obtain ⟨i, rfl⟩ : ∃ i, j = i + 1 := ⟨j - 1, by omega⟩
    simp [List.replicate_succ]
  obtain ⟨h₁, hnext₁⟩ := h.heapGrow hgrow hbound
  -- the second search finds the run behind the used blocks
  have hsplit : pre ++ List.replicate (m + pageChunks) freeBlk
      = pre ++ List.replicate n freeBlk ++ List.replicate (m + pageChunks - n) freeBlk := by
    have hsum : n + (m + pageChunks - n) = m + pageChunks := by omega
    rw [List.append_assoc, List.replicate_append_replicate, hsum]
  have hpost : List.replicate (m + pageChunks - n) freeBlk ≠ [] := by
    rw [ne_eq, List.replicate_eq_nil_iff]
    omega
  have hround := h.mallocLoop_none (hne m hm) (firstRun_none_of_used hlt hused)
  rw [hsplit] at h₁
  have hround₁ := h₁.mallocLoop_some (hsplit ▸ hne _ (by omega))
    (firstRun_of_used (by omega) hused _)
  rw [List.append_assoc, List.take_left] at hround₁
  obtain ⟨mem, htake, -⟩ := h₁.takeRun_of_next (by omega) hpost (by omega)
  refine ⟨kernelHeapStart + 4096 * chunks pre + heapBlockSize, (k₁.setMem mem).count n, ?_,
    ⟨rfl, rfl, rfl, rfl, rfl⟩⟩
  rw [kmalloc, if_neg hguard, growIfLow_of_room h hused hroom hm]
  obtain ⟨fuel, hfuel⟩ : ∃ fuel, n = fuel + 1 := ⟨n - 1, by omega⟩
  rw [← hn]
  simp only
  rw [hround, hgrow, ok_bind]
  nth_rewrite 2 [hfuel]
  rw [hround₁]
  exact htake

/-! ## Pages -/

/-- With frames to be had, `page_map_between` maps its whole range. -/
theorem pageMapLoop_supplied {d n virtAddr : Nat} {k : Kernel} (h : Supplies n k.pfa) :
    (pageMapLoop d userFlags n virtAddr k).pfa = takeFrames n k.pfa ∧
      (0 < n → entryPresent ((pageMapLoop d userFlags n virtAddr k).dirAt d (pdIndex virtAddr))
        = true) ∧
      ∀ i < pdIndex virtAddr, (pageMapLoop d userFlags n virtAddr k).dirAt d i = k.dirAt d i := by
  induction n generalizing k virtAddr with
  | zero => exact ⟨rfl, fun hn => absurd hn (Nat.lt_irrefl 0), fun _ _ => rfl⟩
  | succ n ih =>
      obtain ⟨hframe, hrest⟩ := h
      rcases halloc : pfaAlloc k.pfa with ⟨addr, pfa⟩
      rw [halloc] at hframe hrest
      obtain ⟨f, hlt, -, -, haddr, -⟩ := pfaAlloc_spec halloc hframe
      have hnext := pdIndex_add_pageSize virtAddr
      unfold pageMapLoop
      rw [halloc]
      simp only [hframe, if_false]
      set k₁ : Kernel := ({ k with pfa := pfa } : Kernel).setDirAt d
        (pageMapDir (({ k with pfa := pfa } : Kernel).dirAt d) virtAddr addr userFlags) with hk₁
      have hdir : k₁.dirAt d = (k.dirAt d).set (pdIndex virtAddr) (frameEntry f userFlags) := by
        show (if spaceFrame d = spaceFrame d then _ else _) = _
        rw [if_pos rfl, haddr]
        rfl
      obtain ⟨hpfa, -, hentries⟩ := ih (k := k₁) hrest
      rw [hnext] at hentries
      refine ⟨?_, fun _ => ?_, fun i hi => ?_⟩
      · rw [hpfa, takeFrames, halloc]
        rfl
      · rw [hentries _ (Nat.lt_succ_self _), hdir, Dir.set_self]
        exact entryPresent_frameEntry f userFlags
      · rw [hentries _ (by omega), hdir, Dir.set_ne _ _ (by omega)]

end Kernel

end Icarius
