/-
  Icarius.Memory.HeapUndo

  `kfree` undoes `kmalloc`.  An allocation drops the interior blocks of its run
  from the chain, and freeing it makes new headers in their places.  The layout
  is the old one then, and a layout decides the flag, the span and both links of
  every block.  What it does not decide is the size: that every block says 4096
  there is an invariant of its own (`Sized`).
-/

import Icarius.Memory.FirstFit

namespace Icarius

open Icarius.Lib Layout

namespace Kernel

/-! ## The size of a block -/

/-- The size of a header is its first four bytes. -/
theorem heapBlock_size_congr {m n : Mem} {a : Nat} (h : Agree m n a 4) :
    (heapBlock n a).size = (heapBlock m a).size := Mem.load_congr h

/-- The loop of `_heap_grow` gives every new block the size of a chunk. -/
theorem heapGrowLoop_size {n : Nat} {m : Mem} {a p : Nat} (hp : p = 0 ∨ p + 20 ≤ a) (ha : 0 < a)
    (hbound : a + 4096 * n ≤ 2 ^ 32) : ∀ x ∈ addrs a (List.replicate n freeBlk),
      (heapBlock (heapGrowLoop n m a p).1 x).size = kernelHeapChunkSize := by
  induction n generalizing m a p with
  | zero => exact fun x hx => by cases hx
  | succ n ih =>
      rw [Nat.mul_succ] at hbound
      intro x hx
      rw [List.replicate_succ, addrs, freeBlk_span, Nat.mul_one] at hx
      simp only [heapGrowLoop, kernelHeapChunkSize]
      set m₁ := initHeapBlock m a 4096 p with hm₁
      set m₂ := if p ≠ 0 then setNext m₁ p a else m₁ with hm₂
      rcases List.mem_cons.mp hx with rfl | hx
      · have hrest := formatted_heapGrowLoop (n := n) (m := m₂) (a := x + 4096) (p := x)
          (.inr (by omega)) (by omega) (by omega)
        have hkept : Agree m₁ (heapGrowLoop n m₂ (x + 4096) x).1 x 4 := by
          intro y h₁ h₂
          rw [hrest.frame y (by omega) (by omega), hm₂]
          split
          · exact setNext_apply m₁ (by omega)
          · rfl
        refine (heapBlock_size_congr hkept).trans ?_
        rw [hm₁, heapBlock_initHeapBlock m x (by omega) (by omega)]
      · exact ih (.inr (by omega)) (by omega) (by omega) x hx

/-- Every block of the heap has the size of a chunk. -/
def Sized (s : Kernel) : Prop := ∀ x ∈ s.blocks, (heapBlock s.mem x).size = kernelHeapChunkSize

section Sizes

variable {s s' : Kernel} {L pre post : Layout} {n : Nat}

/-- The blocks of the page `_heap_grow` maps. -/
theorem heapGrow_page_size (h : s.heapGrow = .ok s')
    (hlast : s.heap.lastBlock = 0 ∨ s.heap.lastBlock + 20 ≤ s.heap.nextAddr)
    (hpos : 0 < s.heap.nextAddr) (hbound : s.heap.nextAddr + 4096 * pageChunks ≤ 2 ^ 32) :
    ∀ x ∈ addrs s.heap.nextAddr (List.replicate pageChunks freeBlk),
      (heapBlock s'.mem x).size = kernelHeapChunkSize := by
  obtain ⟨s₁, rfl, -, hheap, -⟩ := heapGrow_ok h
  rw [← hheap] at hlast hpos hbound ⊢
  exact heapGrowLoop_size hlast hpos hbound

/-- Sizes of blocks in front of a page that is mapped. -/
theorem HeapOk.heapGrow_sized (h : HeapOk s L) (hgrow : s.heapGrow = .ok s')
    (hbound : s.heap.nextAddr + 4096 * pageChunks ≤ 2 ^ 32) (hsized : s.Sized) : s'.Sized := by
  have hlast := h.lastBlock_lt
  have hnext := h.nextAddr
  have hpos : 0 < s.heap.nextAddr := by
    have : 0 < kernelHeapStart := by decide
    omega
  have hgrown := heapGrow_grown hgrow (by omega) hpos hbound
  have hok := h.grow hgrown pageChunks_pos
  intro x hx
  rw [hok.blocks_eq, addrs_append, ← hnext, List.mem_append] at hx
  rcases hx with hx | hx
  · have hin := addrs_lt h.sound hx
    have hlink := addrs_eq_last_or (d := 0) h.sound hx
    rw [← h.lastBlock] at hlink
    refine (heapBlock_size_congr fun y h₁ h₂ => ?_).trans (hsized x (h.blocks_eq ▸ hx))
    exact hgrown.formatted.frame y (by omega) (by omega)
  · exact heapGrow_page_size hgrow (by omega) hpos hbound x hx

theorem growPages_grew {j : Nat} (h : growPages j s = .ok s') : Grew s s' := by
  induction j generalizing s with
  | zero => exact Except.ok.inj h ▸ .rfl
  | succ j ih =>
      obtain ⟨s₁, hgrow, hrest⟩ := exists_of_bind h
      exact (heapGrow_grewPage hgrow).grew.trans (ih hrest)

theorem HeapOk.growPages_sized {j : Nat} (h : HeapOk s L) (hgrow : growPages j s = .ok s')
    (hbound : s'.heap.nextAddr ≤ 2 ^ 32) (hsized : s.Sized) : s'.Sized := by
  induction j generalizing s L with
  | zero => exact Except.ok.inj hgrow ▸ hsized
  | succ j ih =>
      obtain ⟨s₁, hpage, hrest⟩ := exists_of_bind hgrow
      have hle := (growPages_grew hrest).nextAddr_le
      have hnext := (heapGrow_grewPage hpage).nextAddr
      have hsame : pageSize = 4096 * pageChunks := by
        rw [pageChunks_eq, pageSize]
      have hroom : s.heap.nextAddr + 4096 * pageChunks ≤ 2 ^ 32 := by omega
      have h₀ : HeapOk s (L ++ List.replicate 0 freeBlk) := by simpa using h
      exact ih (h₀.heapGrow hpage hroom).1 hrest (h.heapGrow_sized hpage hroom hsized)

/-- Sizes of the blocks around a new used block. -/
theorem HeapOk.takeRun_sized {ptr : Nat}
    (h : HeapOk s (pre ++ List.replicate n freeBlk ++ post)) (hn : 0 < n)
    (hbound : s.heap.nextAddr + 4096 * pageChunks ≤ 2 ^ 32)
    (htake : s.takeRun n (kernelHeapStart + 4096 * chunks pre) = .ok (ptr, s'))
    (hsized : s.Sized) : s'.Sized := by
  have hsound := sound_append.mp (sound_append.mp h.sound).1
  have hnext := h.nextAddr
  simp only [chunks_append, chunks_replicate, Nat.mul_add, ← Nat.add_assoc] at hnext
  obtain ⟨k, rfl⟩ : ∃ k, n = k + 1 := ⟨n - 1, by omega⟩
  -- In front of the block behind the run, the chain keeps its sizes.
  have hfront : (∀ y < kernelHeapStart + 4096 * chunks pre + 4, s'.mem y = s.mem y) → ∀ x,
      x ∈ addrs kernelHeapStart pre ∨ x = kernelHeapStart + 4096 * chunks pre →
        (heapBlock s'.mem x).size = kernelHeapChunkSize := by
    intro hframe x hx
    have hmem : x ∈ s.blocks := by
      rw [h.blocks_eq, addrs_append, addrs_append, List.mem_append, List.mem_append]
      rcases hx with hx | rfl
      · exact .inl (.inl hx)
      · exact .inl (.inr List.mem_cons_self)
    have hle : x ≤ kernelHeapStart + 4096 * chunks pre := by
      rcases hx with hx | rfl
      · have := addrs_lt hsound.1 hx
        omega
      · exact Nat.le_refl _
    refine (heapBlock_size_congr fun y h₁ h₂ => ?_).trans (hsized x hmem)
    exact hframe y (by omega)
  by_cases hpost : post = []
  · subst hpost
    obtain ⟨-, hok, hlow, m, s₁, hgrow, hpage⟩ := h.takeRun_end hn hbound htake
    have hlast := h.lastBlock_lt
    rw [chunks, Nat.mul_zero, Nat.add_zero] at hnext
    intro x hx
    rw [hok.blocks_eq, addrs_append, addrs, usedBlk_span, ← hnext, List.mem_append,
      List.mem_cons] at hx
    rcases hx with hx | hx | hx
    · exact hfront hlow x (.inl hx)
    · exact hfront hlow x (.inr hx)
    · have hsize := heapGrow_page_size hgrow (by rw [setMem_heap]; omega)
        (by rw [setMem_heap]; omega) (by rw [setMem_heap]; exact hbound) x hx
      obtain ⟨front, b, rest, -, hx'⟩ := exists_of_mem_addrs hx
      refine (heapBlock_size_congr fun y h₁ h₂ => ?_).trans hsize
      exact hpage y (by omega) (by omega)
  · obtain ⟨m, hcall, hok, hlow, hbehind⟩ := h.takeRun_next hn hpost (by omega)
    rw [hcall, Except.ok.injEq, Prod.mk.injEq] at htake
    obtain ⟨-, rfl⟩ := htake
    intro x hx
    rw [hok.blocks_eq, addrs_append, addrs, usedBlk_span, List.mem_append, List.mem_cons] at hx
    rcases hx with hx | hx | hx
    · exact hfront hlow x (.inl hx)
    · exact hfront hlow x (.inr hx)
    · have hmem : x ∈ s.blocks := by
        rw [h.blocks_eq, addrs_append, chunks_append, chunks_replicate, Nat.mul_add,
          ← Nat.add_assoc]
        exact List.mem_append_right _ hx
      obtain ⟨front, b, rest, hsplit, hx'⟩ := exists_of_mem_addrs hx
      refine (heapBlock_size_congr fun y h₁ h₂ => ?_).trans (hsized x hmem)
      exact hbehind y (by omega) (by omega)

/-- The chunks `_free` makes of a used block at `a`. -/
theorem freed_size {m : Mem} {a : Nat} (nb : Nat) (ha : 0 < a) (hn : 0 < n)
    (hbound : a + 4096 * n < 2 ^ 32) (hsize : (heapBlock m a).size = kernelHeapChunkSize) :
    let loop := freeLoop (n - 1) (setChunkSpan (setIsFree m a true) a 1) a
    ∀ x ∈ addrs a (List.replicate n freeBlk),
      (heapBlock (setNext loop.1 loop.2 nb) x).size = kernelHeapChunkSize := by
  obtain ⟨k, rfl⟩ : ∃ k, n = k + 1 := ⟨n - 1, by omega⟩
  rw [Nat.mul_succ] at hbound
  rw [Nat.add_sub_cancel, freeLoop_eq_heapGrowLoop k _ (by omega), heapGrowLoop_snd]
  set m₂ := setChunkSpan (setIsFree m a true) a 1 with hm₂
  have hformat := formatted_heapGrowLoop (n := k) (m := m₂) (a := a + 4096) (p := a)
    (.inr (by omega)) (by omega) (by omega)
  have hsizes := heapGrowLoop_size (n := k) (m := m₂) (a := a + 4096) (p := a)
    (.inr (by omega)) (by omega) (by omega)
  simp only
  set m₃ := (heapGrowLoop k m₂ (a + 4096) a).1
  have hhead : (heapBlock m₃ a).size = kernelHeapChunkSize := by
    refine (heapBlock_size_congr fun y h₁ h₂ => ?_).trans hsize
    rw [hformat.frame y (by omega) (by omega), hm₂, setChunkSpan_apply _ (by omega),
      setIsFree_apply _ (by omega)]
  have hall : ∀ x ∈ addrs a (List.replicate (k + 1) freeBlk),
      (heapBlock m₃ x).size = kernelHeapChunkSize := by
    intro x hx
    rw [List.replicate_succ, addrs, freeBlk_span, Nat.mul_one] at hx
    rcases List.mem_cons.mp hx with rfl | hx
    · exact hhead
    · exact hsizes x hx
  have hlast : (addrs (a + 4096) (List.replicate k freeBlk)).getLastD a
      = (addrs a (List.replicate (k + 1) freeBlk)).getLastD 0 := by
    rw [List.replicate_succ, addrs, List.getLastD_cons, freeBlk_span, Nat.mul_one]
  rw [hlast]
  intro x hx
  have hlink := addrs_eq_last_or (d := 0) (sound_replicate (k + 1)) hx
  refine (heapBlock_size_congr fun y h₁ h₂ => ?_).trans (hall x hx)
  exact setNext_apply m₃ (by omega)

/-- Sizes of the chunks `_free` puts back, and of those around them. -/
theorem HeapInv.kfree_sized (h : HeapInv s (pre ++ usedBlk n :: post)) (hsized : s.Sized) :
    (s.kfree (kernelHeapStart + 4096 * chunks pre + heapBlockSize)).Sized := by
  have hpost : post ≠ [] := by
    rintro rfl
    have hlast := h.lastFree (usedBlk n) (by simp)
    cases hlast
  have hbound := h.bound
  simp only [heapLimit] at hbound
  have hsound := sound_append.mp h.ok.sound
  have hn : 0 < n := (hsound.2 (usedBlk n) List.mem_cons_self).1
  have hrange := h.ok.nextAddr
  simp only [chunks_append, chunks, usedBlk_span] at hrange
  obtain ⟨-, hspan, hprev, hnext, -⟩ := chain_cons.mp (chain_append.mp h.ok.chain).2
  have hblocks := h.ok.blocks_eq
  have hblocks' := h.kfree.ok.blocks_eq
  rw [addrs_append, addrs] at hblocks
  rw [addrs_append, addrs_append, chunks_append, chunks_replicate, Nat.mul_add,
    ← Nat.add_assoc] at hblocks'
  have hstartPos : 0 < kernelHeapStart := by decide
  set start := kernelHeapStart + 4096 * chunks pre with hstart
  rw [usedBlk_span] at hspan hnext hblocks
  rw [addrs_head, if_neg hpost] at hnext
  have hold : ∀ x ∈ addrs kernelHeapStart pre ++ start :: addrs (start + 4096 * n) post,
      (heapBlock s.mem x).size = kernelHeapChunkSize := hblocks ▸ hsized
  have hrun := freed_size (start + 4096 * n) (by omega) hn (by omega)
    (hold start (List.mem_append_right _ List.mem_cons_self))
  have hfreed := chain_freed (by omega) hn (by omega) hprev hnext (by omega)
  simp only at hrun hfreed
  obtain ⟨-, -, hframe⟩ := hfreed
  intro x hx
  rw [hblocks', List.append_assoc, List.mem_append, List.mem_append] at hx
  rw [kfree_eq hspan hnext (by omega)]
  simp only
  set m := setNext (freeLoop (n - 1) (setChunkSpan (setIsFree s.mem start true) start 1) start).1
    (freeLoop (n - 1) (setChunkSpan (setIsFree s.mem start true) start 1) start).2 (start + 4096 * n)
  -- Only a link of the block behind is written after the loop.
  have hkept : ∀ v, x + 4096 ≤ start + 4096 * n ∨ (∃ j, x = start + 4096 * n + 4096 * j) →
      (heapBlock m x).size = kernelHeapChunkSize →
        (heapBlock (setPrev m (start + 4096 * n) v) x).size = kernelHeapChunkSize := by
    rintro v hout hsize
    refine (heapBlock_size_congr fun y h₁ h₂ => setPrev_apply m ?_).trans hsize
    rcases hout with hout | ⟨j, hj⟩
    · exact .inl (by omega)
    · omega
  rcases hx with hx | hx | hx
  · have hin := addrs_lt hsound.1 hx
    refine hkept _ (.inl (by omega)) ?_
    refine (heapBlock_size_congr fun y h₁ h₂ => ?_).trans (hold x (List.mem_append_left _ hx))
    exact hframe y (by omega)
  · have hin := addrs_lt (sound_replicate n) hx
    rw [chunks_replicate] at hin
    exact hkept _ (.inl (by omega)) (hrun x hx)
  · obtain ⟨front, b, rest, -, hx'⟩ := exists_of_mem_addrs hx
    refine hkept _ (.inr ⟨chunks front, hx'⟩) ?_
    refine (heapBlock_size_congr fun y h₁ h₂ => ?_).trans
      (hold x (List.mem_append_right _ (List.mem_cons_of_mem _ hx)))
    exact hframe y (by omega)

/-- Writing inside the payload of a used block. -/
theorem HeapOk.setMem_sized (h : HeapOk s L) {e : Nat × Nat}
    (he : e ∈ usedAddrs kernelHeapStart L) {m' : Mem}
    (hframe : ∀ x, x < e.1 + 20 ∨ e.1 + 4096 * e.2 ≤ x → m' x = s.mem x) (hsized : s.Sized) :
    (s.setMem m').Sized := by
  intro x hx
  rw [(h.setMem he hframe).blocks_eq] at hx
  have hout := addrs_outside h.sound he hx
  refine (heapBlock_size_congr fun y h₁ h₂ => ?_).trans (hsized x (h.blocks_eq ▸ hx))
  exact hframe y (by omega)

/-- Sizes of the blocks after a request. -/
theorem HeapInv.kmalloc_sized {size ptr : Nat} (h : HeapInv s L) (hsize : size < 2 ^ 29)
    (hres : s.kmalloc size = .ok (ptr, s')) (hsized : s.Sized) : s'.Sized := by
  obtain ⟨-, -, rfl⟩ | ⟨hadmits, s₁, hlow, hloop⟩ := kmalloc_ok hres
  · exact hsized
  · have hpos := (chunksNeeded_spec hsize).1
    obtain ⟨t, h₁, hne, hbound, hroom⟩ := h.search_room hsize hadmits hlow
    have hsized₁ : s₁.Sized := by
      rcases growIfLow_cases hlow with rfl | hgrow
      · exact hsized
      · have hend := h.bound
        simp only [heapLimit] at hend
        have hpage := pageChunks_eq
        exact h.ok.heapGrow_sized hgrow (by omega) hsized
    obtain ⟨j, s₂, pre, post, hsearch, htake⟩ :=
      h₁.mallocLoop_search hpos hne hbound hroom hloop
    have hsized₂ := h₁.growPages_sized hsearch.grown
      (Nat.le_trans (Nat.le_add_right _ _) hsearch.bound) hsized₁
    exact hsearch.ok.takeRun_sized hpos hsearch.bound htake hsized₂

end Sizes

/-! ## Runs -/

/-- One event keeps the sizes. -/
theorem RunInv.step_sized {s s' : HeapState} {L : Layout} (h : RunInv s L) {ev : HeapEvent}
    (hstep : heapStep s ev = some s') (hsized : s.kernel.Sized) : s'.kernel.Sized := by
  cases heapStep_cases hstep with
  | kmalloc size ptr k hsize hres =>
      rw [allocated_kernel]
      exact h.heap.kmalloc_sized hsize hres hsized
  | kzalloc size ptr k hsize hres =>
      rw [allocated_kernel]
      obtain ⟨k₁, hcall, ⟨-, rfl⟩ | ⟨hptr, rfl⟩⟩ := kzalloc_ok hres
      · exact h.heap.kmalloc_sized hsize hcall hsized
      · -- what is cleared is the payload of the new block
        have hsized₁ := h.heap.kmalloc_sized hsize hcall hsized
        obtain ⟨L', h'⟩ := h.kmalloc hsize hcall
        simp only [HeapState.allocated, hptr, if_false] at h'
        obtain ⟨hmem, haddr, hfits⟩ := h'.payload (e := (ptr, size)) List.mem_cons_self
        refine h'.heap.ok.setMem_sized hmem (fun x hx => ?_) hsized₁
        refine Mem.agree_fill _ (b := x) (n := 1) ?_ x (Nat.le_refl x) (Nat.lt_succ_self x)
        omega
  | kfree ptr hlive =>
      obtain ⟨e, he, rfl⟩ := List.mem_map.mp hlive
      obtain ⟨hmem, haddr, -⟩ := h.payload he
      obtain ⟨pre, post, rfl, hpos⟩ := exists_of_mem_usedAddrs hmem
      have hcall : e.1 = kernelHeapStart + 4096 * chunks pre + heapBlockSize := by
        simp only [heapBlockSize]
        omega
      rw [hcall]
      exact h.heap.kfree_sized hsized
  | write addr byte e he hlo hhi =>
      obtain ⟨hmem, haddr, hfits⟩ := h.payload he
      refine h.heap.ok.setMem_sized hmem (fun x hx => ?_) hsized
      rw [if_neg (by omega)]

/-! ## Undoing an allocation -/

/-- The heap is the same, block by block and field by field. -/
structure SameHeap (s s' : Kernel) : Prop where
  blocks : s'.blocks = s.blocks
  headers : ∀ x ∈ s.blocks, heapBlock s'.mem x = heapBlock s.mem x
  lastBlock : s'.heap.lastBlock = s.heap.lastBlock
  nextAddr : s'.heap.nextAddr = s.heap.nextAddr
  freeChunks : s'.heap.freeChunks = s.heap.freeChunks
  usedChunks : s'.heap.usedChunks = s.heap.usedChunks

/-- A layout decides a chain but for the sizes. -/
theorem header_eq_of_chain {m m' : Mem} {p a n : Nat} {L : Layout} (h : Chain m p a L n)
    (h' : Chain m' p a L n) : ∀ x ∈ addrs a L,
      (heapBlock m' x).size = (heapBlock m x).size → heapBlock m' x = heapBlock m x := by
  induction L generalizing p a with
  | nil => exact fun x hx => by cases hx
  | cons b L ih =>
      obtain ⟨hfree, hspan, hprev, hnext, hL⟩ := chain_cons.mp h
      obtain ⟨hfree', hspan', hprev', hnext', hL'⟩ := chain_cons.mp h'
      intro x hx hsize
      rcases List.mem_cons.mp hx with rfl | hx
      · have hflag := hfree'.trans hfree.symm
        have hchunks := hspan'.trans hspan.symm
        have hback := hprev'.trans hprev.symm
        have hlink := hnext'.trans hnext.symm
        simp only [blkPrev, blkNext] at hback hlink
        cases hblock : heapBlock m x
        cases hblock' : heapBlock m' x
        rw [hblock, hblock'] at hsize hflag hchunks hback hlink
        simp only at hsize hflag hchunks hback hlink
        rw [hsize, hflag, hchunks, hback, hlink]
      · exact ih hL hL' x hx hsize

/-- Two heaps of the same layout, with the sizes that all blocks have. -/
theorem HeapOk.sameHeap {s s' : Kernel} {L : Layout} (h : HeapOk s L) (h' : HeapOk s' L)
    (hsized : s.Sized) (hsized' : s'.Sized) : SameHeap s s' := by
  have hblocks : s'.blocks = s.blocks := h'.blocks_eq.trans h.blocks_eq.symm
  refine ⟨hblocks, fun x hx => ?_, h'.lastBlock.trans h.lastBlock.symm,
    h'.nextAddr.trans h.nextAddr.symm, h'.freeChunks.trans h.freeChunks.symm,
    h'.usedChunks.trans h.usedChunks.symm⟩
  refine header_eq_of_chain h.chain h'.chain x (h.blocks_eq ▸ hx) ?_
  exact (hsized' x (hblocks ▸ hx)).trans (hsized x hx).symm

/-- An allocation that maps no page took a run of the heap as it was. -/
theorem Allocated.split_of_nextAddr {L : Layout} {n ptr g : Nat} {s s' : Kernel}
    {pre post : Layout} (h : HeapOk s L) (halloc : Allocated L n ptr s' g pre post)
    (hnext : s'.heap.nextAddr = s.heap.nextAddr) :
    L = pre ++ List.replicate n freeBlk ++ post ∧ refill post = post := by
  have hpage := pageChunks_pos
  have hchunks := congrArg chunks halloc.split
  have hend := halloc.heapOk.nextAddr
  rw [hnext, h.nextAddr] at hend
  simp only [chunks_append, chunks_replicate, chunks, usedBlk_span] at hchunks hend
  have hpost : post ≠ [] := by
    intro hnil
    rw [refill, if_pos hnil, chunks_replicate] at hend
    rw [hnil, chunks] at hchunks
    omega
  have hrefill : refill post = post := by rw [refill, if_neg hpost]
  rw [hrefill] at hend
  have hg : g = 0 := by omega
  refine ⟨?_, hrefill⟩
  rw [← halloc.split, hg, List.replicate_zero, List.append_nil]

/-- `kfree` undoes `kmalloc`: freed at once, an allocation that mapped no page leaves
    the heap as it was. -/
theorem kfree_kmalloc (kernel : Kernel) (es : List HeapEvent) (s : HeapState)
    (hrun : Runs heapStep always (.boot kernel) es s) (size : Nat) (hsize : size < 2 ^ 29)
    (ptr : Nat) (k : Kernel) (hres : s.kernel.kmalloc size = .ok (ptr, k)) (hptr : ptr ≠ 0)
    (hnext : k.heap.nextAddr = s.kernel.heap.nextAddr) : SameHeap s.kernel (k.kfree ptr) := by
  obtain ⟨⟨L, h⟩, hsized⟩ := hrun.invariant
    (fun s => (∃ L, RunInv s L) ∧ s.kernel.Sized)
    ⟨⟨[], runInv_boot kernel⟩, fun x hx => by cases hx⟩
    fun _ _ _ ⟨⟨_, h⟩, hsized⟩ _ hstep => ⟨h.step hstep, h.step_sized hstep hsized⟩
  rcases h.heap.kmalloc hsize hres with ⟨hzero, -⟩ | ⟨g, pre, post, halloc, hinv⟩
  · exact absurd hzero hptr
  · obtain ⟨rfl, hrefill⟩ := Allocated.split_of_nextAddr h.heap.ok halloc hnext
    rw [hrefill] at hinv
    rw [halloc.ptr_eq]
    exact h.heap.ok.sameHeap hinv.kfree.ok hsized
      (hinv.kfree_sized (h.heap.kmalloc_sized hsize hres hsized))

/-- Undoing the second request, which needs no page. -/
theorem kfree_kmalloc_second : ∃ (s : HeapState) (ptr : Nat) (k : Kernel),
    Runs heapStep always (.boot coldKernel) [.kzalloc 100] s ∧
      s.kernel.kmalloc 100 = .ok (ptr, k) ∧ SameHeap s.kernel (k.kfree ptr) := by
  have hframe : (pfaAlloc (HeapState.boot coldKernel).kernel.pfa).1 ≠ 0 := coldKernel_supplies.1
  obtain ⟨ptr₁, k₁, hcall₁, hptr₁, hone, -, -⟩ := kzalloc_first
    (k := (HeapState.boot coldKernel).kernel) 100 rfl rfl hframe (by decide)
  have hstep : heapStep (.boot coldKernel) (.kzalloc 100)
      = some ((HeapState.boot coldKernel).allocated 100 (ptr₁, k₁)) := by
    simp only [heapStep, hcall₁]
    rfl
  have hrun : Runs heapStep always (.boot coldKernel) ([] ++ [.kzalloc 100]) _ :=
    Runs.nil.snoc trivial hstep
  obtain ⟨ptr, k', hcall, hptr, -, -, hsame⟩ := hone.kzalloc 100 (by omega) (by decide)
  cases hres : k₁.kmalloc 100 with
  | error e =>
      rw [Kernel.kzalloc, hres] at hcall
      cases hcall
  | ok r =>
      obtain ⟨ptr', k⟩ := r
      rw [Kernel.kzalloc, hres] at hcall
      by_cases hzero : ptr' = 0
      · simp only [hzero, if_true, Except.ok.injEq, Prod.mk.injEq] at hcall
        exact absurd hcall.1.symm hptr
      · simp only [hzero, if_false, Except.ok.injEq, Prod.mk.injEq] at hcall
        have hnext := hsame.nextAddr
        rw [← hcall.2, setMem_heap] at hnext
        have hkernel : ((HeapState.boot coldKernel).allocated 100 (ptr₁, k₁)).kernel = k₁ :=
          allocated_kernel _ _ _ _
        refine ⟨_, ptr', k, hrun, by rw [hkernel, hres], ?_⟩
        exact kfree_kmalloc coldKernel _ _ hrun 100 (by decide) ptr' k (by rw [hkernel, hres])
          hzero (by rw [hkernel]; exact hnext)

end Kernel

end Icarius
