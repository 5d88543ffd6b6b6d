/-
  Icarius.Memory.HeapInv

  The invariant of the kernel heap and what keeps it.  `HeapOk s L` says that
  the memory and the counters of `s` hold the layout `L`; `_heap_grow`,
  `_malloc` and `_free` then act on the layout as `grow`, "take the first run"
  and "put the chunks back" do.

  `_malloc` may grow the heap in the middle of carving, when the chain is not a
  chain.  Its proof therefore does not go through the invariant of that moment,
  but through the memory alone: what lies before the new block, the header of
  the new block, and the chain behind it (`Chain.carve`).
-/

import Icarius.Lib.Run
import Icarius.Memory.HeapChain

namespace Icarius

open Icarius.Lib Layout

namespace Kernel

/-! ## The invariant -/

/-- The heap holds the layout `L`. -/
structure HeapOk (s : Kernel) (L : Layout) : Prop where
  chain : Chain s.mem 0 kernelHeapStart L 0
  sound : Sound L
  startAddr : s.heap.startAddr = kernelHeapStart
  nextAddr : s.heap.nextAddr = kernelHeapStart + 4096 * chunks L
  lastBlock : s.heap.lastBlock = (addrs kernelHeapStart L).getLastD 0
  freeChunks : s.heap.freeChunks = freeBlocks L
  usedChunks : s.heap.usedChunks = usedChunks L

theorem HeapOk.lastBlock_lt {s : Kernel} {L : Layout} (h : HeapOk s L) :
    s.heap.lastBlock = 0 ∨ s.heap.lastBlock + 4096 ≤ s.heap.nextAddr := by
  by_cases hne : L = []
  · exact .inl (by rw [h.lastBlock, hne]; rfl)
  · refine .inr ?_
    rw [h.lastBlock, h.nextAddr]
    exact addrs_lt h.sound (addrs_getLast_mem hne 0)

/-- Growing appends the chunks of a page. -/
theorem HeapOk.grow {s s' : Kernel} {L : Layout} {n : Nat} (h : HeapOk s L)
    (hgrown : Grown n s s') (hn : 0 < n) :
    HeapOk s' (L ++ List.replicate n freeBlk) := by
  have hnext := h.nextAddr
  have hlast := h.lastBlock_lt
  have hout : ∀ x ∈ addrs kernelHeapStart L, x + 4096 ≤ s.heap.nextAddr := by
    intro x hx
    rw [hnext]
    exact addrs_lt h.sound hx
  have hframe := hgrown.formatted.frame
  have hheap := hgrown.heap
  refine ⟨?_, sound_append.mpr ⟨h.sound, sound_replicate n⟩, ?_, ?_, ?_, ?_, ?_⟩
  · rw [chain_append, ← hnext, ← h.lastBlock]
    refine ⟨h.chain.leave (fun x hx y h₁ h₂ => ?_) (fun x hx y h₁ h₂ => ?_) (fun x hx => ?_),
      hgrown.formatted.chain⟩
    · -- The last block's link is written, no other byte of a header below it.
      have hx' := hout x hx
      have hlast' := addrs_eq_last_or (d := 0) h.sound hx
      rw [← h.lastBlock] at hlast'
      exact hframe y (by omega) (by omega)
    · have hx' := hout x (List.dropLast_subset _ hx)
      have hlast' := addrs_lt_last (d := 0) h.sound hx
      rw [← h.lastBlock] at hlast'
      exact hframe y (by omega) (by omega)
    · have hx' : s.heap.lastBlock = x := by
        rw [h.lastBlock, List.getLastD_eq_getLast?, hx]
        rfl
      have hpos : s.heap.lastBlock ≠ 0 := by
        have := addrs_ge (List.mem_of_getLast? hx)
        have : 0 < kernelHeapStart := by decide
        omega
      rw [← hx', hgrown.formatted.link hpos hn]
      obtain ⟨k, rfl⟩ : ∃ k, n = k + 1 := ⟨n - 1, by omega⟩
      rfl
  · rw [hheap]
    exact h.startAddr
  · rw [hheap]
    simp only [chunks_append, chunks_replicate, hnext]
    omega
  · rw [hheap]
    simp only [addrs_append, getLastD_append, hnext, h.lastBlock]
  · rw [hheap]
    simp only [freeBlocks_append, freeBlocks_replicate, h.freeChunks]
  · rw [hheap]
    simp only [usedChunks_append, usedChunks_replicate, h.usedChunks, Nat.add_zero]

/-! ## Taking a run -/

/-- Clearing `is_free` of a block keeps the links of all blocks. -/
theorem blkNext_setIsFree {m : Mem} {b x : Nat} {v : Bool} (h : x = b ∨ b + 20 ≤ x) :
    blkNext (setIsFree m b v) x = blkNext m x := by
  rcases h with rfl | h
  · simp only [blkNext, heapBlock_setIsFree]
  · simp only [blkNext]
    rw [heapBlock_congr fun y h₁ h₂ => setIsFree_apply m (by omega)]

theorem blkPrev_setIsFree {m : Mem} {b x : Nat} {v : Bool} (h : x = b ∨ b + 20 ≤ x) :
    blkPrev (setIsFree m b v) x = blkPrev m x := by
  rcases h with rfl | h
  · simp only [blkPrev, heapBlock_setIsFree]
  · simp only [blkPrev]
    rw [heapBlock_congr fun y h₁ h₂ => setIsFree_apply m (by omega)]

/-- The links behind a block survive clearing its `is_free`. -/
theorem linked_setIsFree {m : Mem} {b nx : Nat} {v : Bool} {L : Layout}
    (h : Linked (blkNext m) (blkPrev m) b (addrs (b + 4096 * 1) L) nx) :
    Linked (blkNext (setIsFree m b v)) (blkPrev (setIsFree m b v)) b
      (addrs (b + 4096 * 1) L) nx := by
  refine h.congr (fun x hx => blkNext_setIsFree ?_) (fun x hx => blkPrev_setIsFree ?_)
  · have := addrs_ge hx
    omega
  · have := addrs_ge hx
    omega

/-- The loop over the interior blocks, when a block follows them. -/
theorem takeLoop_of_next {k : Nat} {s : Kernel} {p b nx : Nat} (hb : 0 < b) (hnx : nx ≠ 0)
    (h : Linked (blkNext s.mem) (blkPrev s.mem) p (addrs b (List.replicate k freeBlk)) nx) :
    ∃ m', takeLoop k s ((addrs b (List.replicate k freeBlk)).headD nx) = .ok (s.setMem m', nx) ∧
      ∀ x, x < b ∨ b + 4096 * k ≤ x → m' x = s.mem x := by
  induction k generalizing s b p with
  | zero => exact ⟨s.mem, rfl, fun _ _ => rfl⟩
  | succ k ih =>
      simp only [List.replicate_succ, addrs, freeBlk_span, linked_cons] at h
      obtain ⟨-, hnext, hrest⟩ := h
      have hne : (addrs (b + 4096 * 1) (List.replicate k freeBlk)).headD nx ≠ 0 := by
        cases k with
        | zero => exact hnx
        | succ k =>
            simp only [List.replicate_succ, addrs, List.headD_cons]
            omega
      have hnext' : (heapBlock (setIsFree s.mem b false) b).next
          = (addrs (b + 4096 * 1) (List.replicate k freeBlk)).headD nx :=
        (blkNext_setIsFree (.inl rfl)).trans hnext
      obtain ⟨m', htake, hframe⟩ := ih (s := s.setMem (setIsFree s.mem b false)) (by omega)
        (linked_setIsFree hrest)
      refine ⟨m', ?_, fun x hx => ?_⟩
      · simp only [List.replicate_succ, addrs, freeBlk_span, List.headD_cons, takeLoop, setMem_mem,
          hnext', hne, if_false]
        rw [htake, setMem_setMem]
      · rw [hframe x (by omega), setMem_mem]
        exact setIsFree_apply s.mem (by omega)

/-- The loop over the interior blocks, when they end the chain: the heap grows
    after the last one, and the first new chunk is the block behind them. -/
theorem takeLoop_of_end {k : Nat} {s s' : Kernel} {p b nx : Nat} (hb : 0 < b)
    (h : Linked (blkNext s.mem) (blkPrev s.mem) p (addrs b (List.replicate (k + 1) freeBlk)) 0)
    (hlast : s.heap.lastBlock = b + 4096 * k) (hnext : s.heap.nextAddr = b + 4096 * (k + 1))
    (hbound : s.heap.nextAddr + 4096 * pageChunks ≤ 2 ^ 32)
    (htake : takeLoop (k + 1) s b = .ok (s', nx)) :
    ∃ m', (∀ x, x < b ∨ b + 4096 * (k + 1) ≤ x → m' x = s.mem x) ∧
      (s.setMem m').heapGrow = .ok s' ∧ nx = s.heap.nextAddr := by
  -- over the blocks of the run that are left; at the last one the heap grows
  induction k generalizing s b p with
  | zero =>
      simp only [List.replicate_succ, List.replicate_zero, addrs, linked_cons, linked_nil,
        List.headD_nil, and_true] at h
      have hnext' : (heapBlock (setIsFree s.mem b false) b).next = 0 :=
        (blkNext_setIsFree (.inl rfl)).trans h.2
      simp only [takeLoop, setMem_mem, hnext', if_true] at htake
      split at htake
      · cases htake
      · rename_i s₂ hgrow
        simp only [Except.ok.injEq, Prod.mk.injEq] at htake
        obtain ⟨rfl, rfl⟩ := htake
        refine ⟨_, fun x hx => setIsFree_apply s.mem (by omega), hgrow, ?_⟩
        have hgrown := heapGrow_grown hgrow (.inr (by rw [setMem_heap]; omega))
          (by rw [setMem_heap]; omega) (by rw [setMem_heap]; exact hbound)
        have hlink := hgrown.formatted.link (by rw [setMem_heap]; omega) pageChunks_pos
        rw [setMem_heap, hlast, Nat.mul_zero, Nat.add_zero] at hlink
        exact hlink
  | succ k ih =>
      have hlast₁ : s.heap.lastBlock = b + 4096 + 4096 * k := by
        rw [hlast, Nat.mul_succ]
        omega
      have hnext₁ : s.heap.nextAddr = b + 4096 + 4096 * (k + 1) := by
        rw [hnext, Nat.mul_succ]
        omega
      rw [List.replicate_succ] at h
      simp only [addrs, freeBlk_span, linked_cons] at h
      obtain ⟨-, hnextb, hrest⟩ := h
      -- marking a block as used leaves its links
      have hnext' : (heapBlock (setIsFree s.mem b false) b).next = b + 4096 :=
        (blkNext_setIsFree (.inl rfl)).trans hnextb
      rw [takeLoop] at htake
      simp only [setMem_mem, hnext', show b + 4096 ≠ 0 by omega, if_false] at htake
      obtain ⟨m', hframe, hgrow, hnx⟩ := ih (s := s.setMem (setIsFree s.mem b false))
        (b := b + 4096) (by omega) (linked_setIsFree hrest) hlast₁ hnext₁ hbound htake
      refine ⟨m', fun x hx => ?_, hgrow, hnx⟩
      rw [Nat.mul_succ] at hx
      rw [hframe x (by omega), setMem_mem]
      exact setIsFree_apply s.mem (by omega)

/-- A chain put together from what lies before a new used block, its header, and
    the chain behind it. -/
theorem chain_carve {m m' : Mem} {a n : Nat} {pre post : Layout}
    (hpre : Chain m 0 a pre (a + 4096 * chunks pre)) (hsound : Sound pre)
    (hframe : ∀ x, a ≤ x → x < a + 4096 * chunks pre → m' x = m x)
    (hfree : (heapBlock m' (a + 4096 * chunks pre)).isFree = false)
    (hspan : (heapBlock m' (a + 4096 * chunks pre)).chunkSpan = n)
    (hprev : blkPrev m' (a + 4096 * chunks pre) = (addrs a pre).getLastD 0)
    (hnext : blkNext m' (a + 4096 * chunks pre) = a + 4096 * chunks pre + 4096 * n)
    (hpost : Chain m' (a + 4096 * chunks pre) (a + 4096 * chunks pre + 4096 * n) post 0)
    (hne : post ≠ []) : Chain m' 0 a (pre ++ usedBlk n :: post) 0 := by
  refine chain_append.mpr ⟨hpre.congr fun x hx y h₁ h₂ => ?_, chain_cons.mpr ?_⟩
  · have hlo := addrs_ge hx
    have hhi := addrs_lt hsound hx
    exact hframe y (by omega) (by omega)
  · refine ⟨hfree, hspan, hprev, ?_, hpost⟩
    rw [hnext, usedBlk_span]
    cases post with
    | nil => exact absurd rfl hne
    | cons b post => rfl

section TakeRun

variable {s s' : Kernel} {pre post : Layout} {n : Nat}

/-- The chain in front of a run, and the header of its first block. -/
theorem HeapOk.run_front (h : HeapOk s (pre ++ List.replicate (n + 1) freeBlk ++ post)) :
    Chain s.mem 0 kernelHeapStart pre (kernelHeapStart + 4096 * chunks pre) ∧
      blkPrev s.mem (kernelHeapStart + 4096 * chunks pre)
        = (addrs kernelHeapStart pre).getLastD 0 ∧
      blkNext s.mem (kernelHeapStart + 4096 * chunks pre)
        = (addrs (kernelHeapStart + 4096 * chunks pre + 4096)
            (List.replicate n freeBlk ++ post)).headD 0 ∧
      Chain s.mem (kernelHeapStart + 4096 * chunks pre)
        (kernelHeapStart + 4096 * chunks pre + 4096) (List.replicate n freeBlk ++ post) 0 := by
  have hchain := h.chain
  rw [List.append_assoc, chain_append, List.replicate_succ, List.cons_append] at hchain
  obtain ⟨hpre, hrun⟩ := hchain
  obtain ⟨-, -, hprev, hnext, hrest⟩ := chain_cons.mp hrun
  exact ⟨hpre, hprev, hnext, hrest⟩

/-- The header of a new used block, after `takeRun` set its flag and its span. -/
theorem heapBlock_mark (m : Mem) (a : Nat) {n : Nat} (hn : n < 2 ^ 32) :
    heapBlock (setChunkSpan (setIsFree m a false) a n) a
      = { heapBlock m a with isFree := false, chunkSpan := n } := by
  rw [heapBlock_setChunkSpan _ a hn, heapBlock_setIsFree]

theorem mark_apply (m : Mem) {a n x : Nat} (h : x < a ∨ a + 20 ≤ x) :
    setChunkSpan (setIsFree m a false) a n x = m x := by
  rw [setChunkSpan_apply _ (by omega), setIsFree_apply _ (by omega)]

/-- The last two stores of `takeRun` close the chain around the new block. -/
theorem chain_close {m₀ m : Mem} {a q : Nat} (hpos : 0 < a) (hn : 0 < n)
    (hbound : a + 4096 * chunks pre + 4096 * n < 2 ^ 32)
    (hpre : Chain m₀ 0 a pre (a + 4096 * chunks pre)) (hsound : Sound pre)
    (hpostSound : Sound post) (hne : post ≠ [])
    (hprev : blkPrev m₀ (a + 4096 * chunks pre) = (addrs a pre).getLastD 0)
    (hframe : ∀ x, x < a + 4096 * chunks pre → m x = m₀ x)
    (hmark : Agree (setChunkSpan (setIsFree m₀ (a + 4096 * chunks pre) false)
      (a + 4096 * chunks pre) n) m (a + 4096 * chunks pre) 20)
    (hpost : Chain m q (a + 4096 * chunks pre + 4096 * n) post 0) :
    Chain (setNext (setPrev m (a + 4096 * chunks pre + 4096 * n) (a + 4096 * chunks pre))
        (a + 4096 * chunks pre) (a + 4096 * chunks pre + 4096 * n)) 0 a
      (pre ++ usedBlk n :: post) 0 := by
  set start := a + 4096 * chunks pre with hstart
  set c := start + 4096 * n with hc
  have hcstart : start + 4096 ≤ c := by omega
  have hheader : heapBlock (setNext (setPrev m c start) start c) start
      = { heapBlock m₀ start with isFree := false, chunkSpan := n, next := c } := by
    rw [heapBlock_setNext _ start hbound]
    rw [heapBlock_congr (m := m) (n := setPrev m c start)
      (fun x h₁ h₂ => setPrev_apply m (by omega)), heapBlock_congr hmark,
      heapBlock_mark m₀ start (by omega)]
  refine chain_carve hpre hsound (fun x h₁ h₂ => ?_) ?_ ?_ ?_ ?_ ?_ hne
  · rw [setNext_apply _ (by omega), setPrev_apply _ (by omega)]
    exact hframe x h₂
  · rw [hheader]
  · rw [hheader]
  · rw [blkPrev, hheader]
    exact hprev
  · rw [blkNext, hheader]
  · refine (hpost.setPrev_head hpostSound (by omega)).congr fun x hx y h₁ h₂ => ?_
    have := addrs_ge hx
    exact setNext_apply _ (by omega)

/-- The counters at the end of `takeRun`. -/
def count (s : Kernel) (n : Nat) : Kernel :=
  { s with heap := { s.heap with
      freeChunks := s.heap.freeChunks - n
      usedChunks := s.heap.usedChunks + n } }

/-- The three parts of a run of `takeRun`. -/
theorem takeRun_ok {start ptr : Nat} (h : s.takeRun n start = .ok (ptr, s')) :
    ∃ s₁ nextFree, takeLoop (n - 1)
        (s.setMem (setChunkSpan (setIsFree s.mem start false) start n))
        (blkNext (setChunkSpan (setIsFree s.mem start false) start n) start)
          = .ok (s₁, nextFree) ∧
      ptr = start + heapBlockSize ∧
      (nextFree ≠ 0 → s' = count
        (s₁.setMem (setNext (setPrev s₁.mem nextFree start) start nextFree)) n) ∧
      (nextFree = 0 → ∃ s₂, (s₁.setMem (setNext s₁.mem start 0)).heapGrow = .ok s₂ ∧
        s' = count s₂ n) := by
  simp only [takeRun, bind, Except.bind] at h
  split at h
  · cases h
  · rename_i r htake
    obtain ⟨s₁, nextFree⟩ := r
    refine ⟨s₁, nextFree, htake, ?_⟩
    by_cases hzero : nextFree = 0
    · subst hzero
      simp only [ne_eq, not_true_eq_false, if_false, if_true] at h
      split at h
      · cases h
      · rename_i s₂ hgrow
        simp only [Except.ok.injEq, Prod.mk.injEq] at h
        obtain ⟨rfl, rfl⟩ := h
        exact ⟨rfl, fun hne => absurd rfl hne, fun _ => ⟨s₂, hgrow, rfl⟩⟩
    · simp only [ne_eq, hzero, not_false_eq_true, if_true, if_false, Except.ok.injEq,
        Prod.mk.injEq] at h
      obtain ⟨rfl, rfl⟩ := h
      exact ⟨rfl, fun _ => rfl, fun hz => absurd hz hzero⟩

/-- `next` of the first block of a run is not touched by marking it. -/
theorem blkNext_mark (m : Mem) {a x : Nat} (hn : n < 2 ^ 32) (hx : x = a ∨ a + 20 ≤ x) :
    blkNext (setChunkSpan (setIsFree m a false) a n) x = blkNext m x := by
  rcases hx with rfl | hx
  · rw [blkNext, heapBlock_mark m x hn]
    rfl
  · rw [blkNext, heapBlock_congr fun y h₁ h₂ => mark_apply m (by omega)]
    rfl

theorem blkPrev_mark (m : Mem) {a x : Nat} (hn : n < 2 ^ 32) (hx : x = a ∨ a + 20 ≤ x) :
    blkPrev (setChunkSpan (setIsFree m a false) a n) x = blkPrev m x := by
  rcases hx with rfl | hx
  · rw [blkPrev, heapBlock_mark m x hn]
    rfl
  · rw [blkPrev, heapBlock_congr fun y h₁ h₂ => mark_apply m (by omega)]
    rfl

/-- Counters and address range after a run became a used block. -/
theorem HeapOk.of_close {post' : Layout}
    (h : HeapOk s (pre ++ List.replicate n freeBlk ++ post)) (hn : 0 < n)
    (hchain : Chain s'.mem 0 kernelHeapStart (pre ++ usedBlk n :: post') 0)
    (hsound : Sound post') (hne : post' ≠ [])
    (hstart : s'.heap.startAddr = s.heap.startAddr)
    (hnext : s'.heap.nextAddr + 4096 * chunks post = s.heap.nextAddr + 4096 * chunks post')
    (hlast : s'.heap.lastBlock
      = (addrs (kernelHeapStart + 4096 * chunks pre + 4096 * n) post').getLastD 0)
    (hfree : s'.heap.freeChunks + freeBlocks post + n = s.heap.freeChunks + freeBlocks post')
    (hused : s'.heap.usedChunks + Layout.usedChunks post
      = s.heap.usedChunks + n + Layout.usedChunks post') :
    HeapOk s' (pre ++ usedBlk n :: post') := by
  have hpre : Sound pre := (sound_append.mp (sound_append.mp h.sound).1).1
  have hnext₀ := h.nextAddr
  have hfree₀ := h.freeChunks
  have hused₀ := h.usedChunks
  simp only [chunks_append, chunks_replicate, freeBlocks_append, freeBlocks_replicate,
    usedChunks_append, usedChunks_replicate] at hnext₀ hfree₀ hused₀
  refine ⟨hchain, ?_, ?_, ?_, ?_, ?_, ?_⟩
  · refine sound_append.mpr ⟨hpre, fun b hb => ?_⟩
    rcases List.mem_cons.mp hb with rfl | hb
    · exact ⟨hn, fun hfree => by cases hfree⟩
    · exact hsound b hb
  · rw [hstart, h.startAddr]
  · simp only [chunks_append, chunks, usedBlk_span]
    omega
  · rw [hlast, addrs_append, addrs, usedBlk_span, getLastD_append, List.getLastD_cons]
    exact addrs_getLastD_congr hne _ _
  · simp only [freeBlocks_append, freeBlocks, usedBlk_free]
    simp only [Bool.false_eq_true, if_false]
    omega
  · simp only [usedChunks_append, Layout.usedChunks, usedBlk_free, usedBlk_span]
    simp only [Bool.false_eq_true, if_false]
    omega

/-- A run with a block behind it is taken without growing the heap.  In front of the
    run, in the size of its first block and behind it only a link is written. -/
theorem HeapOk.takeRun_next
    (h : HeapOk s (pre ++ List.replicate n freeBlk ++ post)) (hn : 0 < n) (hpost : post ≠ [])
    (hbound : s.heap.nextAddr ≤ 2 ^ 32) :
    ∃ m, s.takeRun n (kernelHeapStart + 4096 * chunks pre)
        = .ok (kernelHeapStart + 4096 * chunks pre + heapBlockSize, (s.setMem m).count n) ∧
      HeapOk ((s.setMem m).count n) (pre ++ usedBlk n :: post) ∧
      (∀ x < kernelHeapStart + 4096 * chunks pre + 4, m x = s.mem x) ∧
      ∀ x, kernelHeapStart + 4096 * chunks pre + 4096 * n ≤ x →
        x < kernelHeapStart + 4096 * chunks pre + 4096 * n + 12 ∨
          kernelHeapStart + 4096 * chunks pre + 4096 * n + 16 ≤ x → m x = s.mem x := by
  obtain ⟨k, rfl⟩ : ∃ k, n = k + 1 := ⟨n - 1, by omega⟩
  obtain ⟨hpre, hprev, hnext, hrest⟩ := h.run_front
  have hsound := h.sound
  rw [sound_append, sound_append] at hsound
  obtain ⟨⟨hpreSound, -⟩, hpostSound⟩ := hsound
  have hpostPos : 0 < chunks post := by
    have := length_le_chunks hpostSound
    have := List.length_pos_iff.mpr hpost
    omega
  have hrange := h.nextAddr
  simp only [chunks_append, chunks_replicate] at hrange
  have hheap : 0 < kernelHeapStart := by decide
  set start := kernelHeapStart + 4096 * chunks pre with hstart
  set m₁ := setChunkSpan (setIsFree s.mem start false) start (k + 1) with hm₁
  have hk : k + 1 < 2 ^ 32 := by omega
  -- The interior blocks are linked up to the block behind the run.
  rw [chain_append, chunks_replicate] at hrest
  obtain ⟨hrun, hbehind⟩ := hrest
  set c := start + 4096 + 4096 * k with hc
  have hhead : (addrs c post).headD 0 = c := by
    cases post with
    | nil => exact absurd rfl hpost
    | cons b post => rfl
  rw [hhead] at hrun
  rw [addrs_append, chunks_replicate, ← hc, headD_append, hhead] at hnext
  have hlinks : Linked (blkNext m₁) (blkPrev m₁) start
      (addrs (start + 4096) (List.replicate k freeBlk)) c := by
    refine hrun.links.congr (fun x hx => ?_) (fun x hx => ?_)
    · have := addrs_ge hx
      exact blkNext_mark s.mem hk (by omega)
    · have := addrs_ge hx
      exact blkPrev_mark s.mem hk (by omega)
  obtain ⟨m₂, hloop, hframe⟩ := takeLoop_of_next (s := s.setMem m₁) (b := start + 4096) (by omega)
    (show c ≠ 0 by omega) hlinks
  have hnext₁ : blkNext m₁ start
      = (addrs (start + 4096) (List.replicate k freeBlk)).headD c :=
    (blkNext_mark s.mem hk (.inl rfl)).trans hnext
  have hc0 : c ≠ 0 := by omega
  have hcn : start + 4096 * (k + 1) = c := by
    rw [Nat.mul_succ]
    omega
  refine ⟨setNext (setPrev m₂ c start) start c, ?_,
    h.of_close hn ?_ hpostSound hpost rfl rfl ?_ ?_ rfl, fun x hx => ?_, fun x hlo hx => ?_⟩
  · unfold blkNext at hnext₁
    simp only [takeRun, bind, Except.bind, Nat.add_sub_cancel, ← hm₁, hnext₁, hloop, setMem_setMem,
      setMem_mem, hc0, ne_eq, not_false_eq_true, if_true, if_false]
    rfl
  · have hcEq : c = start + 4096 * (k + 1) := by
      rw [Nat.mul_succ]
      omega
    simp only [count, setMem_mem, hcEq]
    refine chain_close (q := ((addrs (start + 4096) (List.replicate k freeBlk)).getLastD start))
      hheap hn (by omega) hpre hpreSound hpostSound hpost hprev (fun x hx => ?_)
      (fun x h₁ h₂ => ?_) ?_
    · rw [hframe x (by omega), setMem_mem]
      exact mark_apply s.mem (by omega)
    · rw [hframe x (by omega)]
      rfl
    · rw [← hcEq]
      refine hbehind.congr fun x hx y h₁ h₂ => ?_
      have := addrs_ge hx
      rw [hframe y (by omega), setMem_mem]
      exact mark_apply s.mem (by omega)
  · simp only [count, setMem_heap, h.lastBlock, addrs_append, getLastD_append, chunks_append,
      chunks_replicate, Nat.mul_add, ← Nat.add_assoc]
    exact addrs_getLastD_congr hpost _ _
  · have hfree := h.freeChunks
    simp only [freeBlocks_append, freeBlocks_replicate] at hfree
    simp only [count, setMem_heap]
    omega
  · rw [setNext_apply _ (by omega), setPrev_apply _ (by omega), hframe x (by omega), setMem_mem,
      hm₁, setChunkSpan_apply _ (by omega), setIsFree_apply _ (by omega)]
  · rw [hcn] at hlo hx
    rw [setNext_apply _ (by omega), setPrev_apply _ (by omega), hframe x (by omega), setMem_mem]
    exact mark_apply s.mem (by omega)

theorem HeapOk.takeRun_of_next
    (h : HeapOk s (pre ++ List.replicate n freeBlk ++ post)) (hn : 0 < n) (hpost : post ≠ [])
    (hbound : s.heap.nextAddr ≤ 2 ^ 32) :
    ∃ m, s.takeRun n (kernelHeapStart + 4096 * chunks pre)
        = .ok (kernelHeapStart + 4096 * chunks pre + heapBlockSize, (s.setMem m).count n) ∧
      HeapOk ((s.setMem m).count n) (pre ++ usedBlk n :: post) := by
  obtain ⟨m, hcall, hok, -, -⟩ := h.takeRun_next hn hpost hbound
  exact ⟨m, hcall, hok⟩

/-- A run at the end of the chain: the heap grows by a page.  In front of the run and
    in the size of its first block nothing is written, in the page only a link. -/
theorem HeapOk.takeRun_end {ptr : Nat}
    (h : HeapOk s (pre ++ List.replicate n freeBlk ++ [])) (hn : 0 < n)
    (hbound : s.heap.nextAddr + 4096 * pageChunks ≤ 2 ^ 32)
    (htake : s.takeRun n (kernelHeapStart + 4096 * chunks pre) = .ok (ptr, s')) :
    ptr = kernelHeapStart + 4096 * chunks pre + heapBlockSize ∧
      HeapOk s' (pre ++ usedBlk n :: List.replicate pageChunks freeBlk) ∧
      (∀ x < kernelHeapStart + 4096 * chunks pre + 4, s'.mem x = s.mem x) ∧
      ∃ m s₁, (s.setMem m).heapGrow = .ok s₁ ∧ ∀ x, s.heap.nextAddr ≤ x →
        x < s.heap.nextAddr + 12 ∨ s.heap.nextAddr + 16 ≤ x → s'.mem x = s₁.mem x := by
  obtain ⟨k, rfl⟩ : ∃ k, n = k + 1 := ⟨n - 1, by omega⟩
  obtain ⟨hpre, hprev, hnext, hrest⟩ := h.run_front
  rw [List.append_nil] at hnext hrest
  have hsound := h.sound
  rw [sound_append, sound_append] at hsound
  obtain ⟨⟨hpreSound, -⟩, -⟩ := hsound
  have hpage := pageChunks_pos
  have hpages : List.replicate pageChunks freeBlk ≠ [] := by
    rw [ne_eq, List.replicate_eq_nil_iff]
    omega
  have hheap : 0 < kernelHeapStart := by decide
  set start := kernelHeapStart + 4096 * chunks pre with hstart
  have hrange : s.heap.nextAddr = start + 4096 + 4096 * k := by
    have hnextAddr := h.nextAddr
    simp only [chunks_append, chunks_replicate, chunks, Nat.mul_add] at hnextAddr
    omega
  have hrange' : s.heap.nextAddr = start + 4096 * (k + 1) := by
    rw [hrange, Nat.mul_succ]
    omega
  set m₁ := setChunkSpan (setIsFree s.mem start false) start (k + 1) with hm₁
  have hk : k + 1 < 2 ^ 32 := by omega
  have hmarkNext : blkNext m₁ start = blkNext s.mem start := blkNext_mark s.mem hk (.inl rfl)
  obtain ⟨s₁, nextFree, htakeLoop, rfl, hclose, hgrowEnd⟩ := takeRun_ok htake
  rw [Nat.add_sub_cancel, ← hm₁, hmarkNext, hnext] at htakeLoop
  have hcount : s.heap.freeChunks = freeBlocks pre + (k + 1) := by
    have hfree := h.freeChunks
    simpa only [freeBlocks_append, freeBlocks_replicate, freeBlocks, Nat.add_zero] using hfree
  cases k with
  | zero =>
      -- The run is the last block itself: `start->next` is null until the heap grows.
      simp only [List.replicate_zero, addrs, List.headD_nil, takeLoop, Except.ok.injEq,
        Prod.mk.injEq] at htakeLoop
      obtain ⟨rfl, rfl⟩ := htakeLoop
      obtain ⟨s₂, hgrow, rfl⟩ := hgrowEnd rfl
      rw [setMem_setMem, setMem_mem] at hgrow
      have hlast : s.heap.lastBlock = start := by
        rw [h.lastBlock, List.append_nil, addrs_append, List.replicate_one, getLastD_append]
        rfl
      have hgrown := heapGrow_grown hgrow (by rw [setMem_heap]; omega) (by rw [setMem_heap]; omega)
        (by rw [setMem_heap]; exact hbound)
      obtain ⟨hformat, hheapEq⟩ := hgrown
      simp only [setMem_heap, setMem_mem, hlast] at hformat hheapEq
      have hfields : Agree m₁ s₂.mem start 16 := by
        intro x h₁ h₂
        rw [hformat.frame x (by omega) (by omega), setNext_apply _ (by omega)]
      obtain ⟨hfree', hspan', hprev'⟩ := heapBlock_fields_congr hfields
      rw [hm₁, heapBlock_mark s.mem start hk] at hfree' hspan' hprev'
      refine ⟨rfl, h.of_close hn ?_ (sound_replicate _) hpages ?_ ?_ ?_ ?_ ?_, fun x hx => ?_,
        _, s₂, hgrow, fun x _ _ => rfl⟩
      · refine chain_carve hpre hpreSound (fun x h₁ h₂ => ?_) ?_ ?_ ?_ ?_ ?_ hpages
        · simp only [count]
          rw [hformat.frame x (by omega) (by omega), setNext_apply _ (by omega)]
          exact mark_apply s.mem (by omega)
        · exact hfree'
        · exact hspan'
        · exact hprev'.trans hprev
        · simp only [count, ← hstart]
          rw [hformat.link (by omega) hpage, hrange]
        · simp only [count, ← hstart]
          have hchain := hformat.chain
          rw [hrange'] at hchain
          exact hchain
      · simp only [count, hheapEq]
      · simp only [count, hheapEq, chunks, chunks_replicate]
        omega
      · simp only [count, hheapEq, ← hstart, hrange']
        exact addrs_getLastD_congr hpages _ _
      · simp only [count, hheapEq, freeBlocks, freeBlocks_replicate]
        omega
      · simp only [count, hheapEq, Layout.usedChunks, usedChunks_replicate]
      · simp only [count]
        rw [hformat.frame x (by omega) (by omega), setNext_apply _ (by omega), hm₁,
          setChunkSpan_apply _ (by omega), setIsFree_apply _ (by omega)]
  | succ k =>
      have hlinks : Linked (blkNext m₁) (blkPrev m₁) start
          (addrs (start + 4096) (List.replicate (k + 1) freeBlk)) 0 := by
        refine hrest.links.congr (fun x hx => ?_) (fun x hx => ?_)
        · have := addrs_ge hx
          exact blkNext_mark s.mem hk (by omega)
        · have := addrs_ge hx
          exact blkPrev_mark s.mem hk (by omega)
      have hlast : s.heap.lastBlock = start + 4096 + 4096 * k := by
        rw [h.lastBlock, List.append_nil, addrs_append, getLastD_append, ← hstart]
        rw [addrs_replicate_last, Nat.mul_succ]
        omega
      have hhead : (addrs (start + 4096) (List.replicate (k + 1) freeBlk)).headD 0
          = start + 4096 := rfl
      rw [hhead] at htakeLoop
      obtain ⟨m₂, hframe, hgrow, rfl⟩ := takeLoop_of_end (s := s.setMem m₁) (by omega) hlinks
        hlast hrange hbound htakeLoop
      rw [setMem_setMem] at hgrow
      have hs' := hclose (by rw [setMem_heap]; omega)
      have hgrown := heapGrow_grown hgrow (by rw [setMem_heap]; omega) (by rw [setMem_heap]; omega)
        (by rw [setMem_heap]; exact hbound)
      obtain ⟨hformat, hheapEq⟩ := hgrown
      simp only [setMem_heap, setMem_mem] at hformat hheapEq hs' hframe
      refine ⟨rfl, h.of_close hn ?_ (sound_replicate _) hpages ?_ ?_ ?_ ?_ ?_, fun x hx => ?_,
        m₂, _, hgrow, fun x hlo hx => ?_⟩
      · rw [hs']
        simp only [count, setMem_mem, hrange']
        refine chain_close (q := s.heap.lastBlock) hheap hn (by omega) hpre hpreSound
          (sound_replicate _) hpages hprev (fun x hx => ?_) (fun x h₁ h₂ => ?_) ?_
        · rw [hformat.frame x (by omega) (by omega), hframe x (by omega)]
          exact mark_apply s.mem (by omega)
        · rw [hformat.frame x (by omega) (by omega), hframe x (by omega)]
        · rw [← hrange']
          exact hformat.chain
      · rw [hs']
        simp only [count, setMem_heap, hheapEq]
      · rw [hs']
        simp only [count, setMem_heap, hheapEq, chunks, chunks_replicate]
        omega
      · rw [hs']
        simp only [count, setMem_heap, hheapEq, ← hstart, hrange']
        exact addrs_getLastD_congr hpages _ _
      · rw [hs']
        simp only [count, setMem_heap, hheapEq, freeBlocks, freeBlocks_replicate]
        omega
      · rw [hs']
        simp only [count, setMem_heap, hheapEq, Layout.usedChunks, usedChunks_replicate]
      · rw [hs']
        simp only [count, setMem_mem]
        rw [setNext_apply _ (by omega), setPrev_apply _ (by omega),
          hformat.frame x (by omega) (by omega), hframe x (by omega), hm₁,
          setChunkSpan_apply _ (by omega), setIsFree_apply _ (by omega)]
      · rw [hs']
        simp only [count, setMem_mem]
        rw [setNext_apply _ (by omega), setPrev_apply _ hx]

theorem HeapOk.takeRun_of_end {ptr : Nat}
    (h : HeapOk s (pre ++ List.replicate n freeBlk ++ [])) (hn : 0 < n)
    (hbound : s.heap.nextAddr + 4096 * pageChunks ≤ 2 ^ 32)
    (htake : s.takeRun n (kernelHeapStart + 4096 * chunks pre) = .ok (ptr, s')) :
    ptr = kernelHeapStart + 4096 * chunks pre + heapBlockSize ∧
      HeapOk s' (pre ++ usedBlk n :: List.replicate pageChunks freeBlk) := by
  obtain ⟨hptr, hok, -, -⟩ := h.takeRun_end hn hbound htake
  exact ⟨hptr, hok⟩

end TakeRun

/-! ## _malloc -/

theorem heapGrow_error {s : Kernel} {e : Stop} (h : s.heapGrow = .error e) : e ≠ .unfinished := by
  unfold heapGrow at h
  split at h
  split at h
  · cases h
    exact Stop.noConfusion
  · unfold pageMap updateCurrentDir at h
    split at h
    · rename_i hmap
      split at hmap
      · cases hmap
      · cases hmap
        cases h
        exact Stop.noConfusion
    · cases h

theorem takeLoop_error {k : Nat} {s : Kernel} {b : Nat} {e : Stop}
    (h : takeLoop k s b = .error e) : e ≠ .unfinished := by
  induction k generalizing s b with
  | zero => cases h
  | succ k ih =>
      simp only [takeLoop] at h
      split at h
      · rename_i hgrow
        split at hgrow
        · cases h
          exact heapGrow_error hgrow
        · cases hgrow
      · exact ih h

theorem takeRun_error {s : Kernel} {n start : Nat} {e : Stop}
    (h : s.takeRun n start = .error e) : e ≠ .unfinished := by
  simp only [takeRun, bind, Except.bind] at h
  split at h
  · rename_i htake
    cases h
    exact takeLoop_error htake
  · split at h
    · split at h
      · rename_i hgrow
        cases h
        exact heapGrow_error hgrow
      · cases h
    · cases h

/-- What lies behind a new block: the rest of the layout, or a new page. -/
def refill (post : Layout) : Layout :=
  if post = [] then List.replicate pageChunks freeBlk else post

theorem HeapOk.takeRun {s s' : Kernel} {pre post : Layout} {n ptr : Nat}
    (h : HeapOk s (pre ++ List.replicate n freeBlk ++ post)) (hn : 0 < n)
    (hbound : s.heap.nextAddr + 4096 * pageChunks ≤ 2 ^ 32)
    (htake : s.takeRun n (kernelHeapStart + 4096 * chunks pre) = .ok (ptr, s')) :
    ptr = kernelHeapStart + 4096 * chunks pre + heapBlockSize ∧
      HeapOk s' (pre ++ usedBlk n :: refill post) := by
  unfold refill
  split
  · rename_i hpost
    subst hpost
    exact h.takeRun_of_end hn hbound htake
  · rename_i hpost
    obtain ⟨m, hcall, hok⟩ := h.takeRun_of_next hn hpost (by omega)
    rw [hcall, Except.ok.injEq, Prod.mk.injEq] at htake
    exact ⟨htake.1.symm, htake.2 ▸ hok⟩

/-- The allocation of `n` chunks that turned the layout `L`, with `g` chunks more,
    into the layout of `s'`. -/
structure Allocated (L : Layout) (n ptr : Nat) (s' : Kernel) (g : Nat) (pre post : Layout) :
    Prop where
  split : L ++ List.replicate g freeBlk = pre ++ List.replicate n freeBlk ++ post
  ptr_eq : ptr = kernelHeapStart + 4096 * chunks pre + heapBlockSize
  heapOk : HeapOk s' (pre ++ usedBlk n :: refill post)

/-- The search of `_malloc` on a heap that holds a layout. -/
theorem HeapOk.findRun_eq {s : Kernel} {L : Layout} (h : HeapOk s L) (hne : L ≠ []) (n : Nat) :
    findRun s.mem n (s.heap.freeChunks + s.heap.usedChunks + 1) s.heap.startAddr
      = .ok ((firstRun n L).map fun i => kernelHeapStart + 4096 * chunks (L.take i)) := by
  have hhead : (addrs kernelHeapStart L).headD 0 = kernelHeapStart := by
    cases L with
    | nil => exact absurd rfl hne
    | cons b L => rfl
  have hfuel : L.length < s.heap.freeChunks + s.heap.usedChunks + 1 := by
    have hlen := length_le_chunks h.sound
    have hchunks := chunks_eq_freeBlocks_add_usedChunks h.sound
    rw [h.freeChunks, h.usedChunks]
    omega
  have hfind := Kernel.findRun_eq h.chain (by decide) (n := n) hfuel
  rw [hhead] at hfind
  rw [h.startAddr, hfind]

/-- A round of `_malloc` that finds a run takes it. -/
theorem HeapOk.mallocLoop_some {s : Kernel} {L : Layout} {n i : Nat} (h : HeapOk s L)
    (hne : L ≠ []) (hrun : firstRun n L = some i) (fuel : Nat) :
    mallocLoop n (fuel + 1) s = s.takeRun n (kernelHeapStart + 4096 * chunks (L.take i)) := by
  rw [Kernel.mallocLoop, h.findRun_eq hne, hrun, ok_bind, Option.map_some]

/-- The run it finds, and what is in front of it and behind it. -/
theorem HeapOk.mallocLoop_run {s : Kernel} {L : Layout} {n i : Nat} (h : HeapOk s L)
    (hne : L ≠ []) (hrun : firstRun n L = some i) : ∃ pre post,
      L = pre ++ List.replicate n freeBlk ++ post ∧ pre.length = i ∧ ∀ fuel,
        mallocLoop n (fuel + 1) s = s.takeRun n (kernelHeapStart + 4096 * chunks pre) := by
  obtain ⟨pre, post, hsplit, hlen⟩ := firstRun_some h.sound hrun
  refine ⟨pre, post, hsplit, hlen, fun fuel => ?_⟩
  rw [h.mallocLoop_some hne hrun, hsplit, List.append_assoc, ← hlen, List.take_left]

/-- A round that finds none grows the heap and goes on. -/
theorem HeapOk.mallocLoop_none {s : Kernel} {L : Layout} {n : Nat} (h : HeapOk s L)
    (hne : L ≠ []) (hrun : firstRun n L = none) (fuel : Nat) :
    mallocLoop n (fuel + 1) s = s.heapGrow >>= mallocLoop n fuel := by
  rw [Kernel.mallocLoop, h.findRun_eq hne, hrun, ok_bind, Option.map_none]

/-- A round of `_malloc` that finds a run. -/
theorem HeapOk.mallocLoop_found {n fuel ptr i : Nat} (hn : 0 < n) {s s' : Kernel} {L : Layout}
    (h : HeapOk s L) (hne : L ≠ []) (hrun : firstRun n L = some i)
    (hbound : s.heap.nextAddr + 4096 * pageChunks ≤ 2 ^ 32)
    (hok : mallocLoop n (fuel + 1) s = .ok (ptr, s')) :
    ∃ pre post, Allocated L n ptr s' 0 pre post ∧
      s'.heap.nextAddr ≤ s.heap.nextAddr + 4096 * pageChunks := by
  obtain ⟨pre, post, rfl, -, hround⟩ := h.mallocLoop_run hne hrun
  rw [hround] at hok
  obtain ⟨hptr, hok'⟩ := h.takeRun hn hbound hok
  refine ⟨pre, post, ⟨List.append_nil _, hptr, hok'⟩, ?_⟩
  have hnext := hok'.nextAddr
  have hnext₀ := h.nextAddr
  have hrefill : chunks (refill post) ≤ chunks post + pageChunks := by
    unfold refill
    split
    · rw [chunks_replicate]
      omega
    · omega
  simp only [chunks_append, chunks_replicate, chunks, usedBlk_span] at hnext hnext₀
  omega

theorem append_page_ne_nil (L : Layout) (t : Nat) :
    L ++ List.replicate (t + pageChunks) freeBlk ≠ [] := by
  have hpage := pageChunks_pos
  simp only [ne_eq, List.append_eq_nil_iff, List.replicate_eq_nil_iff, not_and]
  omega

/-- A page more, and the chunks at the end that are free then. -/
theorem HeapOk.heapGrow {s s' : Kernel} {L : Layout} {t : Nat}
    (h : HeapOk s (L ++ List.replicate t freeBlk)) (hgrow : s.heapGrow = .ok s')
    (hbound : s.heap.nextAddr + 4096 * pageChunks ≤ 2 ^ 32) :
    HeapOk s' (L ++ List.replicate (t + pageChunks) freeBlk) ∧
      s'.heap.nextAddr = s.heap.nextAddr + 4096 * pageChunks := by
  have hlast := h.lastBlock_lt
  have hnextAddr := h.nextAddr
  have hstart : 0 < kernelHeapStart := by decide
  have hgrown := heapGrow_grown hgrow (by omega) (by omega) hbound
  have h₁ := h.grow hgrown pageChunks_pos
  rw [List.append_assoc, List.replicate_append_replicate] at h₁
  refine ⟨h₁, ?_⟩
  rw [hgrown.heap]

/-- The outer loop of `_malloc`.  `t` chunks at the end of the layout are free;
    every further page makes that run longer, until it holds the request. -/
theorem HeapOk.mallocLoop (bound : Nat) {n fuel : Nat} (hn : 0 < n) (hbound : bound ≤ 2 ^ 32)
    {s : Kernel} {L : Layout} {t : Nat} (h : HeapOk s (L ++ List.replicate t freeBlk))
    (hne : L ++ List.replicate t freeBlk ≠ []) (hfuel : n ≤ t + fuel)
    (hroom : s.heap.nextAddr + (if t < n then 4096 * (n - t) + 4096 * pageChunks else 0) + 4096 * pageChunks ≤ bound) :
    (∀ ptr s', mallocLoop n (fuel + 1) s = .ok (ptr, s') → ∃ g pre post,
      Allocated (L ++ List.replicate t freeBlk) n ptr s' g pre post ∧
        s'.heap.nextAddr ≤ bound) ∧
      ∀ e, mallocLoop n (fuel + 1) s = .error e → e ≠ .unfinished := by
  -- whatever the number of rounds left: a run that is there is taken
  have hfound : ∀ {s : Kernel} {t fuel i : Nat}, HeapOk s (L ++ List.replicate t freeBlk) →
      L ++ List.replicate t freeBlk ≠ [] → firstRun n (L ++ List.replicate t freeBlk) = some i →
      s.heap.nextAddr + 4096 * pageChunks ≤ bound →
      (∀ ptr s', Kernel.mallocLoop n (fuel + 1) s = .ok (ptr, s') → ∃ g pre post,
        Allocated (L ++ List.replicate t freeBlk) n ptr s' g pre post ∧
          s'.heap.nextAddr ≤ bound) ∧
        ∀ e, Kernel.mallocLoop n (fuel + 1) s = .error e → e ≠ .unfinished := by
    intro s t fuel i h hne hrun hroom
    refine ⟨fun ptr s' hok => ?_, fun e he => ?_⟩
    · obtain ⟨pre, post, halloc, hle⟩ :=
        h.mallocLoop_found hn hne hrun (Nat.le_trans hroom hbound) hok
      exact ⟨0, pre, post, halloc, Nat.le_trans hle hroom⟩
    · rw [h.mallocLoop_some hne hrun] at he
      exact takeRun_error he
  induction fuel generalizing s t with
  | zero =>
      cases hrun : firstRun n (L ++ List.replicate t freeBlk) with
      | some i => exact hfound h hne hrun (by split at hroom <;> omega)
      | none =>
          have hshort := lt_of_firstRun_none hn hrun
          omega
  | succ fuel ih =>
      cases hrun : firstRun n (L ++ List.replicate t freeBlk) with
      | some i => exact hfound h hne hrun (by split at hroom <;> omega)
      | none =>
          have hshort := lt_of_firstRun_none hn hrun
          rw [if_pos hshort] at hroom
          rw [h.mallocLoop_none hne hrun]
          cases hgrow : s.heapGrow with
          | error e =>
              refine ⟨fun ptr s' hok => (by cases hok), fun e' he => ?_⟩
              cases he
              exact heapGrow_error hgrow
          | ok s₁ =>
              obtain ⟨h₁, hnext₁⟩ := h.heapGrow hgrow (by omega)
              have hpage := pageChunks_pos
              have hne₁ := append_page_ne_nil L t
              have hroom₁ : s₁.heap.nextAddr + (if t + pageChunks < n
                  then 4096 * (n - (t + pageChunks)) + 4096 * pageChunks else 0) + 4096 * pageChunks ≤ bound := by
                rw [hnext₁, ← Nat.sub_sub, Nat.mul_sub]
                split <;> omega
              obtain ⟨hloop, herror⟩ := ih h₁ hne₁ (by omega) hroom₁
              refine ⟨fun ptr s' hok => ?_, herror⟩
              obtain ⟨g, pre, post, halloc, hle⟩ := hloop ptr s' hok
              refine ⟨pageChunks + g, pre, post, ⟨?_, halloc.ptr_eq, halloc.heapOk⟩, hle⟩
              rw [← halloc.split, List.append_assoc, List.append_assoc,
                List.replicate_append_replicate, List.replicate_append_replicate, Nat.add_assoc]

/-- `_malloc` refuses the request, or it searches a heap that it may have grown. -/
theorem kmalloc_ok {s s' : Kernel} {size ptr : Nat} (h : s.kmalloc size = .ok (ptr, s')) :
    kernelHeapMax < (s.heap.nextAddr + totalSizeWithHeader size) % 2 ^ 32 ∧ ptr = 0 ∧ s' = s ∨
      (s.heap.nextAddr + totalSizeWithHeader size) % 2 ^ 32 ≤ kernelHeapMax ∧ ∃ s₁,
        s.growIfLow = .ok s₁ ∧
          mallocLoop (chunksNeeded size) (chunksNeeded size + 1) s₁ = .ok (ptr, s') := by
  unfold kmalloc at h
  split at h
  · rename_i hguard
    obtain ⟨rfl, rfl⟩ := Prod.mk.inj (Except.ok.inj h)
    exact .inl ⟨hguard, rfl, rfl⟩
  · rename_i hguard
    split at h
    · cases h
    · rename_i s₁ hlow
      exact .inr ⟨Nat.le_of_not_lt hguard, s₁, hlow, h⟩

/-- `kzalloc` is `kmalloc`, and clears what it got. -/
theorem kzalloc_ok {s s' : Kernel} {size ptr : Nat} (h : s.kzalloc size = .ok (ptr, s')) :
    ∃ s₁, s.kmalloc size = .ok (ptr, s₁) ∧
      (ptr = 0 ∧ s' = s₁ ∨ ptr ≠ 0 ∧ s' = s₁.setMem (s₁.mem.fill ptr size 0)) := by
  unfold kzalloc at h
  split at h
  · cases h
  · rename_i ptr' s₁ hcall
    split at h
    · rename_i hzero
      obtain ⟨rfl, rfl⟩ := Prod.mk.inj (Except.ok.inj h)
      exact ⟨s₁, hzero ▸ hcall, .inl ⟨rfl, rfl⟩⟩
    · rename_i hne
      obtain ⟨rfl, rfl⟩ := Prod.mk.inj (Except.ok.inj h)
      exact ⟨s₁, hcall, .inr ⟨hne, rfl⟩⟩

/-! ## _free -/

section Free

variable {s : Kernel} {pre post : Layout} {n : Nat}

/-- `_free` up to the loop: a free block of one chunk, formatted chunks behind it. -/
theorem chain_freed {m : Mem} {p a nb : Nat} (ha : 0 < a) (hn : 0 < n)
    (hbound : a + 4096 * n < 2 ^ 32)
    (hprev : blkPrev m a = p) (hnext : blkNext m a = nb) (hnb : nb < 2 ^ 32) :
    let loop := freeLoop (n - 1) (setChunkSpan (setIsFree m a true) a 1) a
    loop.2 = (addrs a (List.replicate n freeBlk)).getLastD 0 ∧
      Chain (setNext loop.1 loop.2 nb) p a (List.replicate n freeBlk) nb ∧
      ∀ x, x < a ∨ a + 4096 * n ≤ x → setNext loop.1 loop.2 nb x = m x := by
  obtain ⟨k, rfl⟩ : ∃ k, n = k + 1 := ⟨n - 1, by omega⟩
  rw [Nat.add_sub_cancel]
  rw [Nat.mul_succ] at hbound ⊢
  set m₂ := setChunkSpan (setIsFree m a true) a 1 with hm₂
  have hhead : heapBlock m₂ a = { heapBlock m a with isFree := true, chunkSpan := 1 } := by
    rw [hm₂, heapBlock_setChunkSpan _ a (by omega), heapBlock_setIsFree]
  have hformat := formatted_heapGrowLoop (n := k) (m := m₂) (a := a + 4096) (p := a)
    (.inr (by omega)) (by omega) (by omega)
  -- the chunks are formatted as those of a new page are
  have hloop : freeLoop k m₂ a
      = ((heapGrowLoop k m₂ (a + 4096) a).1,
        (addrs a (List.replicate (k + 1) freeBlk)).getLastD 0) := by
    rw [freeLoop_eq_heapGrowLoop k m₂ (by omega), heapGrowLoop_snd, List.replicate_succ, addrs,
      List.getLastD_cons, freeBlk_span, Nat.mul_one]
  simp only [hloop]
  set m₃ := (heapGrowLoop k m₂ (a + 4096) a).1
  have hlast := addrs_getLast_mem (a := a) (L := List.replicate (k + 1) freeBlk) (by simp) 0
  have hlo := addrs_ge hlast
  have hhi := addrs_lt (sound_replicate (k + 1)) hlast
  rw [chunks_replicate, Nat.mul_succ] at hhi
  refine ⟨trivial, ?_, fun x hx => ?_⟩
  · obtain ⟨hfree, hspan, hprev'⟩ := heapBlock_fields_congr (m := m₂) (n := m₃) (a := a)
      fun x h₁ h₂ => hformat.frame x (by omega) (by omega)
    rw [hhead] at hfree hspan hprev'
    have hchain : ∃ n₀, Chain m₃ p a (List.replicate (k + 1) freeBlk) n₀ := by
      -- the first chunk keeps its header, and its link where it is the only one
      cases k with
      | zero =>
          refine ⟨nb, chain_cons.mpr ⟨hfree, hspan, hprev'.trans hprev, ?_, chain_nil _ _ _ _⟩⟩
          change (heapBlock m₂ a).next = nb
          rw [hhead]
          exact hnext
      | succ k =>
          refine ⟨0, chain_cons.mpr ⟨hfree, hspan, hprev'.trans hprev, ?_, hformat.chain⟩⟩
          exact hformat.link (by omega) (by omega)
    obtain ⟨n₀, hchain⟩ := hchain
    exact hchain.setNext_last (sound_replicate _) hnb
  · rw [setNext_apply _ (by omega), hformat.frame x (by omega) (by omega), hm₂,
      setChunkSpan_apply _ (by omega), setIsFree_apply _ (by omega)]

/-- `_free` of a block whose header is known, with a block behind it. -/
theorem kfree_eq {a nb : Nat} (hspan : (heapBlock s.mem a).chunkSpan = n)
    (hnext : blkNext s.mem a = nb) (hnb : nb ≠ 0) :
    s.kfree (a + heapBlockSize) =
      let loop := freeLoop (n - 1) (setChunkSpan (setIsFree s.mem a true) a 1) a
      { s with
        mem := setPrev (setNext loop.1 loop.2 nb) nb loop.2
        heap := { s.heap with
          freeChunks := s.heap.freeChunks + n
          usedChunks := s.heap.usedChunks - n } } := by
  have hblock := heapBlock_setIsFree s.mem a true
  have hspan' : (heapBlock (setIsFree s.mem a true) a).chunkSpan = n := by
    rw [hblock]
    exact hspan
  have hnext' : (heapBlock (setIsFree s.mem a true) a).next = nb := by
    rw [hblock]
    exact hnext
  have hptr : a + heapBlockSize ≠ 0 := by
    simp only [heapBlockSize]
    omega
  simp only [Kernel.kfree, Nat.add_sub_cancel, hspan', hnext', hptr, hnb, ne_eq,
    not_false_eq_true, if_true, if_false]

/-- `_free` of a used block that is not the last one. -/
theorem HeapOk.kfree (h : HeapOk s (pre ++ usedBlk n :: post)) (hpost : post ≠ [])
    (hbound : s.heap.nextAddr < 2 ^ 32) :
    HeapOk (s.kfree (kernelHeapStart + 4096 * chunks pre + heapBlockSize))
      (pre ++ List.replicate n freeBlk ++ post) := by
  have hheap : 0 < kernelHeapStart := by decide
  have hsound := h.sound
  rw [sound_append] at hsound
  obtain ⟨hpreSound, hrestSound⟩ := hsound
  have hn : 0 < n := (hrestSound (usedBlk n) List.mem_cons_self).1
  have hrunNe : List.replicate n freeBlk ≠ [] := by
    rw [ne_eq, List.replicate_eq_nil_iff]
    omega
  have hpostSound := hrestSound.tail
  have hpostPos : 0 < chunks post := by
    have := length_le_chunks hpostSound
    have := List.length_pos_iff.mpr hpost
    omega
  have hrange := h.nextAddr
  simp only [chunks_append, chunks, usedBlk_span] at hrange
  have hchain := h.chain
  rw [chain_append, chain_cons] at hchain
  obtain ⟨hpre, -, hspan, hprev, hnext, hbehind⟩ := hchain
  set start := kernelHeapStart + 4096 * chunks pre with hstart
  rw [usedBlk_span] at hspan hnext hbehind
  have hnb : (addrs (start + 4096 * n) post).headD 0 = start + 4096 * n := by
    cases post with
    | nil => exact absurd rfl hpost
    | cons b post => rfl
  rw [hnb] at hnext
  have hfit : start + 4096 * n < 2 ^ 32 := by omega
  have hfreed := chain_freed (by omega) hn hfit hprev hnext hfit
  simp only at hfreed
  obtain ⟨hiter, hrun, hframe⟩ := hfreed
  -- The call, with the fields it reads filled in.
  have hcall : s.kfree (start + heapBlockSize) =
      { s with
        mem := setPrev (setNext (freeLoop (n - 1) (setChunkSpan (setIsFree s.mem start true) start 1)
            start).1 ((addrs start (List.replicate n freeBlk)).getLastD 0)
              (start + 4096 * n))
          (start + 4096 * n) ((addrs start (List.replicate n freeBlk)).getLastD 0)
        heap := { s.heap with
          freeChunks := s.heap.freeChunks + n
          usedChunks := s.heap.usedChunks - n } } := by
    rw [kfree_eq hspan hnext (by omega)]
    simp only [hiter]
  rw [hiter] at hrun hframe
  set iter := (addrs start (List.replicate n freeBlk)).getLastD 0 with hiterEq
  set nb := start + 4096 * n with hnbEq
  set m₄ := setNext (freeLoop (n - 1) (setChunkSpan (setIsFree s.mem start true) start 1) start).1 iter nb
  have hiterLt : iter + 4096 ≤ nb := by
    have hmem := addrs_getLast_mem (a := start) hrunNe 0
    have := addrs_lt (sound_replicate n) hmem
    rw [chunks_replicate] at this
    exact this
  have hprevs : ∀ x, x < nb → setPrev m₄ nb iter x = m₄ x :=
    fun x hx => setPrev_apply m₄ (by omega)
  rw [hcall]
  refine ⟨?_, ?_, h.startAddr, ?_, ?_, ?_, ?_⟩
  · have hhead : (addrs start (List.replicate n freeBlk ++ post)).headD 0 = start := by
      obtain ⟨k, rfl⟩ : ∃ k, n = k + 1 := ⟨n - 1, by omega⟩
      rfl
    rw [List.append_assoc, chain_append, chain_append, chunks_replicate, ← hstart, ← hnbEq, hnb,
      hhead]
    refine ⟨hpre.congr fun x hx y h₁ h₂ => ?_, hrun.congr fun x hx y h₁ h₂ => ?_, ?_⟩
    · have := addrs_lt hpreSound hx
      exact (hprevs y (by omega)).trans (hframe y (by omega))
    · have := addrs_lt (sound_replicate n) hx
      rw [chunks_replicate] at this
      exact hprevs y (by omega)
    · have hsame : Chain m₄ start nb post 0 := by
        refine hbehind.congr fun x hx y h₁ h₂ => ?_
        have := addrs_ge hx
        exact hframe y (by omega)
      rw [addrs_getLastD_congr hrunNe _ 0]
      exact hsame.setPrev_head hpostSound (by omega)
  · exact sound_append.mpr ⟨sound_append.mpr ⟨hpreSound, sound_replicate _⟩, hpostSound⟩
  · simp only [chunks_append, chunks_replicate, hrange]
    omega
  · have hlast := h.lastBlock
    rw [addrs_append, addrs, getLastD_append, List.getLastD_cons, usedBlk_span] at hlast
    rw [hlast, addrs_append, getLastD_append, chunks_append, chunks_replicate, Nat.mul_add,
      ← Nat.add_assoc]
    exact addrs_getLastD_congr hpost _ _
  · have hcount := h.freeChunks
    simp only [freeBlocks_append, freeBlocks, usedBlk_free] at hcount
    simp only [freeBlocks_append, freeBlocks_replicate, hcount]
    simp only [Bool.false_eq_true, if_false]
    omega
  · have hcount := h.usedChunks
    simp only [usedChunks_append, Layout.usedChunks, usedBlk_free, usedBlk_span,
      Bool.false_eq_true, if_false] at hcount
    simp only [usedChunks_append, usedChunks_replicate, hcount]
    omega

end Free

end Kernel

end Icarius
