/-
  Icarius.Memory.HeapServe

  A buffer that a call of the kernel takes from the heap and gives back: a
  request of one chunk, on a heap with a fifth of its chunks free.  The heap does
  not grow for it, nothing outside of its chunks is written, and `kfree` leaves
  the layout there was before.
-/

import Icarius.Memory.Supply

namespace Icarius

open Icarius.Lib

namespace Layout

/-- The first free block, when there is another behind it. -/
theorem exists_first_free {L : Layout} (hsound : Sound L) (htwo : 2 ≤ freeBlocks L) :
    ∃ pre post, L = pre ++ freeBlk :: post ∧ (∀ b ∈ pre, b.free = false) ∧ post ≠ [] := by
  induction L with
  | nil => exact absurd htwo (by decide)
  | cons b L ih =>
      by_cases hfree : b.free = true
      · refine ⟨[], L, ?_, fun b hb => absurd hb List.not_mem_nil, ?_⟩
        · rw [hsound.eq_freeBlk List.mem_cons_self hfree]
          rfl
        · rintro rfl
          rw [freeBlocks, if_pos hfree] at htwo
          exact absurd htwo (by decide)
      · rw [freeBlocks, if_neg hfree, Nat.zero_add] at htwo
        obtain ⟨pre, post, rfl, hused, hpost⟩ := ih hsound.tail htwo
        refine ⟨b :: pre, post, rfl, fun c hc => ?_, hpost⟩
        rcases List.mem_cons.mp hc with rfl | hc
        · exact Bool.eq_false_iff.mpr hfree
        · exact hused c hc

end Layout

namespace Kernel

open Layout

/-- The heap serves a request of one chunk as it is: the guard of `_malloc` lets it pass, a
    fifth of the chunks is free, and the first free chunk is not the last one. -/
structure Serves (k : Kernel) (L : Layout) : Prop where
  inv : HeapInv k L
  room : k.heap.nextAddr + kernelHeapChunkSize ≤ kernelHeapMax
  fifth : 20 ≤ k.heap.freeChunks * 100 / (k.heap.freeChunks + k.heap.usedChunks)
  two : 2 ≤ k.heap.freeChunks

variable {k k' : Kernel} {L pre post : Layout} {size : Nat}

/-- It is the layout that decides. -/
theorem Serves.of_inv (h : k.Serves L) (h' : HeapInv k' L) : k'.Serves L := by
  have hnext : k'.heap.nextAddr = k.heap.nextAddr := h'.ok.nextAddr.trans h.inv.ok.nextAddr.symm
  have hfree : k'.heap.freeChunks = k.heap.freeChunks :=
    h'.ok.freeChunks.trans h.inv.ok.freeChunks.symm
  have hused : k'.heap.usedChunks = k.heap.usedChunks :=
    h'.ok.usedChunks.trans h.inv.ok.usedChunks.symm
  refine ⟨h', ?_, ?_, ?_⟩
  · rw [hnext]
    exact h.room
  · rw [hfree, hused]
    exact h.fifth
  · rw [hfree]
    exact h.two

/-- What is stored outside of the chunks does not matter to the heap. -/
theorem HeapInv.congr (h : HeapInv k L) {m : Mem}
    (hsame : ∀ x, kernelHeapStart ≤ x → x < k.heap.nextAddr → m x = k.mem x) :
    HeapInv (k.setMem m) L := by
  refine ⟨⟨h.ok.chain.congr fun x hx y h₁ h₂ => ?_, h.ok.sound, h.ok.startAddr, h.ok.nextAddr,
    h.ok.lastBlock, h.ok.freeChunks, h.ok.usedChunks⟩, h.lastFree, h.bound⟩
  have hlo := addrs_ge hx
  have hhi := addrs_lt h.ok.sound hx
  have hnext := h.ok.nextAddr
  exact hsame y (by omega) (by omega)

/-- The block of a chunk in the layout -/
theorem mem_usedAddrs_middle (pre post : Layout) :
    (kernelHeapStart + 4096 * chunks pre, 1)
      ∈ usedAddrs kernelHeapStart (pre ++ usedBlk 1 :: post) := by
  rw [usedAddrs_append, usedAddrs_cons_used]
  exact List.mem_append_right _ List.mem_cons_self

/-- The chunk and the block behind it are below the end of the heap. -/
theorem HeapInv.chunk_lt (h : HeapInv k (pre ++ usedBlk 1 :: post)) (hpost : post ≠ []) :
    kernelHeapStart + 4096 * chunks pre + 8192 ≤ k.heap.nextAddr := by
  have hsound := (sound_append.mp h.ok.sound).2.tail
  have hlen := length_le_chunks hsound
  have hpos := List.length_pos_iff.mpr hpost
  have hnext := h.ok.nextAddr
  simp only [chunks_append, chunks, usedBlk_span] at hnext
  omega

/-- The request takes the first free chunk, and leaves everything outside of the heap alone. -/
theorem Serves.kmalloc (h : k.Serves L) (hsize : size + heapBlockSize ≤ kernelHeapChunkSize) :
    ∃ pre post m, L = pre ++ freeBlk :: post ∧ post ≠ [] ∧
      k.kmalloc size
        = .ok (kernelHeapStart + 4096 * chunks pre + heapBlockSize, (k.setMem m).count 1) ∧
      HeapInv ((k.setMem m).count 1) (pre ++ usedBlk 1 :: post) ∧
      ∀ x, x < kernelHeapStart ∨ k.heap.nextAddr ≤ x → m x = k.mem x := by
  obtain ⟨pre, post, rfl, hused, hpost⟩ := exists_first_free h.inv.ok.sound
    (h.inv.ok.freeChunks ▸ h.two)
  have hroom := h.room
  simp only [kernelHeapChunkSize, kernelHeapMax, heapBlockSize] at hroom hsize
  have htotal : totalSizeWithHeader size = size + 20 := by
    simp only [totalSizeWithHeader, heapBlockSize]
    omega
  have hneeded : chunksNeeded size = 1 := by
    rw [chunksNeeded, htotal]
    simp only [kernelHeapChunkSize]
    omega
  have hguard : ¬ (k.heap.nextAddr + totalSizeWithHeader size) % 2 ^ 32 > kernelHeapMax := by
    rw [htotal]
    simp only [kernelHeapMax]
    omega
  have hlow : k.growIfLow = .ok k := by
    have htwo := h.two
    rw [growIfLow, if_neg (by omega), if_neg (Nat.not_lt.mpr h.fifth)]
  -- the first free chunk is taken, and the block behind it keeps the heap from growing
  have hsplit : pre ++ freeBlk :: post = pre ++ List.replicate 1 freeBlk ++ post := by
    rw [List.append_assoc]
    rfl
  have hok := h.inv.ok
  rw [hsplit] at hok
  have hne : pre ++ List.replicate 1 freeBlk ++ post ≠ [] := by simp
  obtain ⟨m, htake, hok', hfront, hbehind⟩ := hok.takeRun_next Nat.one_pos hpost (by omega)
  have hround := hok.mallocLoop_some hne (firstRun_of_used Nat.one_pos hused post) 1
  rw [List.append_assoc, List.take_left, htake] at hround
  have htaken : HeapInv ((k.setMem m).count 1) (pre ++ usedBlk 1 :: post) := by
    refine ⟨hok', fun b hb => h.inv.lastFree b ?_, h.inv.bound⟩
    obtain ⟨c, l, rfl⟩ := List.exists_cons_of_ne_nil hpost
    rw [List.getLast?_append, List.getLast?_cons_cons] at hb ⊢
    exact hb
  have hlast : kernelHeapStart + 4096 * chunks pre + 8192 ≤ k.heap.nextAddr :=
    htaken.chunk_lt hpost
  refine ⟨pre, post, m, rfl, hpost, ?_, htaken, fun x hx => ?_⟩
  · rw [Kernel.kmalloc, if_neg hguard, hlow, hneeded]
    exact hround
  · rcases hx with hx | hx
    · exact hfront x (by omega)
    · exact hbehind x (by omega) (by omega)

/-- So does `kzalloc`, which clears bytes of the payload only. -/
theorem Serves.kzalloc (h : k.Serves L) (hsize : size + heapBlockSize ≤ kernelHeapChunkSize) :
    ∃ pre post m, L = pre ++ freeBlk :: post ∧ post ≠ [] ∧
      k.kzalloc size
        = .ok (kernelHeapStart + 4096 * chunks pre + heapBlockSize, (k.setMem m).count 1) ∧
      HeapInv ((k.setMem m).count 1) (pre ++ usedBlk 1 :: post) ∧
      ∀ x, x < kernelHeapStart ∨ k.heap.nextAddr ≤ x → m x = k.mem x := by
  obtain ⟨pre, post, m, rfl, hpost, hcall, htaken, houtside⟩ := h.kmalloc hsize
  have hlast : kernelHeapStart + 4096 * chunks pre + 8192 ≤ k.heap.nextAddr :=
    htaken.chunk_lt hpost
  obtain ⟨ptr, hptr⟩ : ∃ ptr, kernelHeapStart + 4096 * chunks pre + heapBlockSize = ptr := ⟨_, rfl⟩
  rw [hptr] at hcall
  simp only [heapBlockSize, kernelHeapChunkSize] at hptr hsize
  have hcleared : ∀ x, x < ptr ∨ ptr + size ≤ x → m.fill ptr size 0 x = m x := fun x hx =>
    Mem.agree_fill m (b := x) (n := 1) (by omega) x (Nat.le_refl x) (Nat.lt_succ_self x)
  refine ⟨pre, post, m.fill ptr size 0, rfl, hpost, ?_, ?_, fun x hx => ?_⟩
  · have hne : ptr ≠ 0 := by omega
    rw [Kernel.kzalloc, hcall]
    simp only [hne, if_false, heapBlockSize, hptr]
    rfl
  · exact htaken.setMem (mem_usedAddrs_middle pre post) fun x hx => hcleared x (by omega)
  · rw [hcleared x (by omega)]
    exact houtside x hx

/-- `_free` of a chunk writes to its header and to the one behind it. -/
theorem HeapInv.kfree_apply (h : HeapInv k (pre ++ usedBlk 1 :: post)) (hpost : post ≠ [])
    {x : Nat} (hx : x < kernelHeapStart ∨ k.heap.nextAddr ≤ x) :
    (k.kfree (kernelHeapStart + 4096 * chunks pre + heapBlockSize)).mem x = k.mem x := by
  have hlast := h.chunk_lt hpost
  have hchain := h.ok.chain
  rw [chain_append, chain_cons] at hchain
  obtain ⟨-, -, hspan, -, hnext, -⟩ := hchain
  rw [usedBlk_span] at hspan hnext
  have hbehind : (addrs (kernelHeapStart + 4096 * chunks pre + 4096 * 1) post).headD 0
      = kernelHeapStart + 4096 * chunks pre + 4096 := by
    obtain ⟨b, l, rfl⟩ := List.exists_cons_of_ne_nil hpost
    rfl
  rw [hbehind] at hnext
  have hfreed : (k.kfree (kernelHeapStart + 4096 * chunks pre + heapBlockSize)).mem
      = setPrev (setNext (setChunkSpan (setIsFree k.mem (kernelHeapStart + 4096 * chunks pre) true)
            (kernelHeapStart + 4096 * chunks pre) 1) (kernelHeapStart + 4096 * chunks pre)
          (kernelHeapStart + 4096 * chunks pre + 4096)) (kernelHeapStart + 4096 * chunks pre + 4096)
        (kernelHeapStart + 4096 * chunks pre) := by
    rw [kfree_eq hspan hnext (by omega)]
    rfl
  rw [hfreed, setPrev_apply _ (by omega), setNext_apply _ (by omega),
    setChunkSpan_apply _ (by omega), setIsFree_apply _ (by omega)]

/-- A heap of one page with a few used chunks -/
theorem OnePage.serves {j : Nat} (h : k.OnePage j) (hj : j < 8) :
    k.Serves (List.replicate j (usedBlk 1) ++ List.replicate (pageChunks - j) freeBlk) := by
  have hnext := h.nextAddr hj
  have hpage := pageChunks_eq
  have hfree : k.heap.freeChunks = 1024 - j := by
    rw [HeapOk.freeChunks h, freeBlocks_append, freeBlocks_of_used used_of_mem_replicate,
      freeBlocks_replicate, Nat.zero_add, hpage]
  have hused : k.heap.usedChunks = j := by
    rw [HeapOk.usedChunks h, usedChunks_append, usedChunks_replicate, Nat.add_zero]
    exact (chunks_replicate_used j).2
  refine ⟨⟨h, fun b hb => ?_, ?_⟩, ?_, ?_, ?_⟩
  · have hne : List.replicate (pageChunks - j) freeBlk ≠ [] := by
      rw [ne_eq, List.replicate_eq_nil_iff]
      omega
    rw [List.getLast?_append_of_ne_nil _ hne] at hb
    rw [List.eq_of_mem_replicate (List.mem_of_getLast? hb)]
    rfl
  · rw [hnext]
    decide
  · rw [hnext]
    decide
  · have hall : 1024 - j + j = 1024 := by omega
    rw [hfree, hused, hall]
    omega
  · rw [hfree]
    omega

end Kernel

end Icarius
