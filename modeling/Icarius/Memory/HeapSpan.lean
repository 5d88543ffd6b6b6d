/-
  Icarius.Memory.HeapSpan

  How long the block is that a request of any 32-bit size gets.  The block spans
  the chunks `_malloc` has computed, and that number is right as long as the sum
  of size, header and the rounding to chunks does not wrap.

  That the span is the computed number holds for every search, also for one whose
  guard wraps: such a request grows the heap as long as there are frames.  When
  the heap ends at 2^32, its last page has been linked to the address 0, so that
  the chain ends there, and pages mapped after it are never searched.
-/

import Icarius.Memory.FirstFit

namespace Icarius

open Icarius.Lib Layout

namespace Kernel

/-! ## Growing anywhere -/

/-- What the loop of `_heap_grow` leaves alone in front of the new chunks. -/
theorem heapGrowLoop_apply {n : Nat} {m : Mem} {a p x : Nat} (hx : x < a)
    (hp : p = 0 ∨ x < p + 16 ∨ p + 20 ≤ x) : (heapGrowLoop n m a p).1 x = m x := by
  induction n generalizing m a p with
  | zero => rfl
  | succ n ih =>
      simp only [heapGrowLoop, kernelHeapChunkSize]
      rw [ih (by omega) (.inr (.inl (by omega)))]
      split
      · rename_i hne
        rw [setNext_apply _ (hp.resolve_left hne), initHeapBlock_apply m (.inl hx)]
      · exact initHeapBlock_apply m (.inl hx)

/-- The block in front of the new chunks is linked to them, as far as a link can be. -/
theorem heapGrowLoop_link {n : Nat} {m : Mem} {a p : Nat} (hp : p ≠ 0) (hpa : p + 20 ≤ a) :
    blkNext (heapGrowLoop (n + 1) m a p).1 p = a % 2 ^ 32 := by
  simp only [heapGrowLoop, kernelHeapChunkSize, hp, ne_eq, not_false_eq_true, if_true]
  set m₁ := setNext (initHeapBlock m a 4096 p) p a with hm₁
  have hkept : Agree m₁ (heapGrowLoop n m₁ (a + 4096) a).1 (p + 16) 4 := fun x h₁ h₂ =>
    heapGrowLoop_apply (by omega) (.inr (.inl (by omega)))
  have hlink : (setNext (initHeapBlock m a 4096 p) p a).load 4 (p + 16) = a % 2 ^ 32 :=
    Mem.load_store_self _ 4 (p + 16) a
  change Mem.load _ 4 (p + 16) = _
  rw [Mem.load_congr hkept, hm₁]
  exact hlink

section Grow

variable {s s' : Kernel} {x : Nat}

theorem heapGrow_apply (h : s.heapGrow = .ok s') (hx : x < s.heap.nextAddr)
    (hlast : s.heap.lastBlock = 0 ∨ x < s.heap.lastBlock + 16 ∨ s.heap.lastBlock + 20 ≤ x) :
    s'.mem x = s.mem x := by
  obtain ⟨s₁, rfl, hmem, hheap, -⟩ := heapGrow_ok h
  rw [← hheap] at hx hlast
  rw [← hmem]
  simp only [heapFormat]
  rw [heapGrowLoop_apply hx hlast]
  split
  · rename_i hne
    rw [setPrev_apply _ (by omega), setNext_apply _ (hlast.resolve_left hne)]
  · rfl

theorem heapGrow_link (h : s.heapGrow = .ok s') (hne : s.heap.lastBlock ≠ 0)
    (hle : s.heap.lastBlock + 20 ≤ s.heap.nextAddr) :
    blkNext s'.mem s.heap.lastBlock = s.heap.nextAddr % 2 ^ 32 := by
  obtain ⟨s₁, rfl, -, hheap, -⟩ := heapGrow_ok h
  obtain ⟨n, hn⟩ : ∃ n, pageChunks = n + 1 := ⟨pageChunks - 1, by have := pageChunks_pos; omega⟩
  rw [← hheap] at hne hle ⊢
  rw [hn]
  exact heapGrowLoop_link hne hle

/-- The last block is one of the new ones then. -/
theorem heapGrow_heap (h : s.heapGrow = .ok s') :
    s'.heap.startAddr = s.heap.startAddr ∧ s.heap.nextAddr ≤ s'.heap.lastBlock ∧
      s'.heap.lastBlock + 4096 ≤ s'.heap.nextAddr ∧
      s.heap.freeChunks ≤ s'.heap.freeChunks ∧ s'.heap.usedChunks = s.heap.usedChunks := by
  obtain ⟨s₁, rfl, -, hheap, -⟩ := heapGrow_ok h
  have hne : List.replicate pageChunks freeBlk ≠ [] := by
    have := pageChunks_pos
    rw [ne_eq, List.replicate_eq_nil_iff]
    omega
  have hmem := addrs_getLast_mem (a := s.heap.nextAddr) hne s.heap.lastBlock
  have hlt := addrs_lt (sound_replicate pageChunks) hmem
  rw [chunks_replicate] at hlt
  simp only [heapFormat, heapGrowLoop_snd, hheap]
  exact ⟨trivial, addrs_ge hmem, hlt, Nat.le_add_right _ _, trivial⟩

end Grow

/-! ## At the end of the address space -/

/-- The heap after a growth past 2^32: the chain ends in front of it. -/
structure Past (s : Kernel) (L : Layout) : Prop where
  chain : Chain s.mem 0 kernelHeapStart L 0
  startAddr : s.heap.startAddr = kernelHeapStart
  length : L.length ≤ s.heap.freeChunks + s.heap.usedChunks
  ends : ∀ x ∈ addrs kernelHeapStart L, x + 4096 ≤ 2 ^ 32
  nextAddr : 2 ^ 32 ≤ s.heap.nextAddr
  lastBlock : 2 ^ 32 ≤ s.heap.lastBlock

section Past

variable {s s' : Kernel} {L pre post : Layout} {n : Nat}

/-- Growing past the end does not reach the chain. -/
theorem Past.heapGrow (h : Past s L) (hgrow : s.heapGrow = .ok s') : Past s' L := by
  obtain ⟨hstart, hlo, hhi, hfree, hused⟩ := heapGrow_heap hgrow
  have hnext := h.nextAddr
  have hlast := h.lastBlock
  have hlength := h.length
  refine ⟨h.chain.congr fun x hx y h₁ h₂ => ?_, hstart.trans h.startAddr, by omega, h.ends,
    by omega, by omega⟩
  have hin := h.ends x hx
  exact heapGrow_apply hgrow (by omega) (.inr (.inl (by omega)))

/-- The growth at 2^32 links the last block to 0. -/
theorem HeapOk.past (h : HeapOk s L) (hne : L ≠ []) (hnext : s.heap.nextAddr = 2 ^ 32)
    (hgrow : s.heapGrow = .ok s') : Past s' L := by
  obtain ⟨hstart, hlo, hhi, hfree, hused⟩ := heapGrow_heap hgrow
  have hin : ∀ x ∈ addrs kernelHeapStart L, x + 4096 ≤ 2 ^ 32 := by
    intro x hx
    rw [← hnext, h.nextAddr]
    exact addrs_lt h.sound hx
  have hmem : s.heap.lastBlock ∈ addrs kernelHeapStart L := by
    rw [h.lastBlock]
    exact addrs_getLast_mem hne 0
  have hlast := hin _ hmem
  have hpos : s.heap.lastBlock ≠ 0 := by
    have := addrs_ge hmem
    have : 0 < kernelHeapStart := by decide
    omega
  have hlen := length_le_chunks h.sound
  rw [chunks_eq_freeBlocks_add_usedChunks h.sound, ← h.freeChunks, ← h.usedChunks] at hlen
  refine ⟨h.chain.leave (fun x hx y h₁ h₂ => ?_) (fun x hx y h₁ h₂ => ?_) (fun x hx => ?_),
    hstart.trans h.startAddr, by omega, hin, by omega, by omega⟩
  · have hx' := hin x hx
    have hlink := addrs_eq_last_or (d := 0) h.sound hx
    rw [← h.lastBlock] at hlink
    exact heapGrow_apply hgrow (by omega) (.inr (by omega))
  · have hx' := hin x (List.dropLast_subset _ hx)
    have hlink := addrs_lt_last (d := 0) h.sound hx
    rw [← h.lastBlock] at hlink
    exact heapGrow_apply hgrow (by omega) (.inr (by omega))
  · have hx' : s.heap.lastBlock = x := by
      rw [h.lastBlock, List.getLastD_eq_getLast?, hx]
      rfl
    rw [← hx', heapGrow_link hgrow hpos (by omega), hnext, Nat.mod_self]

/-- A search that has found nothing up to 2^32 finds nothing after that. -/
theorem Past.mallocLoop_ne_ok {fuel : Nat} {r : Nat × Kernel} (h : Past s L) (hne : L ≠ [])
    (hrun : firstRun n L = none) : mallocLoop n fuel s ≠ .ok r := by
  induction fuel generalizing s with
  | zero =>
      intro hres
      cases hres
  | succ fuel ih =>
      intro hres
      have hfind := Kernel.findRun_eq h.chain (by decide) (n := n)
        (Nat.lt_succ_of_le h.length)
      rw [addrs_head, if_neg hne, hrun, Option.map_none] at hfind
      rw [Kernel.mallocLoop, h.startAddr, hfind, ok_bind] at hres
      obtain ⟨s₁, hgrow, hrest⟩ := exists_of_bind hres
      exact ih (h.heapGrow hgrow) hrest

end Past

/-! ## The span of a new block -/

/-- The chunk span of a header is four of its bytes. -/
theorem chunkSpan_congr {m n : Mem} {a : Nat} (h : Agree m n (a + 8) 4) :
    (heapBlock n a).chunkSpan = (heapBlock m a).chunkSpan := Mem.load_congr h

/-- The loop over the interior blocks that end at 2^32: what comes behind them is the
    address 0. -/
theorem takeLoop_at_end {k r b p e : Nat} {s s' : Kernel} (he : e % 2 ^ 32 = 0) (hb : 0 < b)
    (h : Linked (blkNext s.mem) (blkPrev s.mem) p (addrs b (List.replicate k freeBlk)) 0)
    (hnext : s.heap.nextAddr = e) (hend : b + 4096 * k = e) (hlast : s.heap.lastBlock + 4096 = e)
    (htake : takeLoop k s ((addrs b (List.replicate k freeBlk)).headD 0) = .ok (s', r)) :
    r = 0 ∧ (∀ x < b, s'.mem x = s.mem x) ∧ e ≤ s'.heap.nextAddr ∧
      (k = 0 ∧ s'.heap.lastBlock = s.heap.lastBlock ∨ e ≤ s'.heap.lastBlock) := by
  induction k generalizing s b p with
  | zero =>
      simp only [List.replicate_zero, addrs, List.headD_nil, takeLoop, Except.ok.injEq,
        Prod.mk.injEq] at htake
      obtain ⟨rfl, rfl⟩ := htake
      exact ⟨rfl, fun _ _ => rfl, hnext.ge, .inl ⟨rfl, rfl⟩⟩
  | succ k ih =>
      rw [Nat.mul_succ] at hend
      have hend₁ : ∀ c, c = b + 4096 * 1 → c + 4096 * k = e := fun c hc => by omega
      rw [List.replicate_succ] at h htake
      simp only [addrs, freeBlk_span, linked_cons, List.headD_cons] at h htake
      obtain ⟨-, hnextb, hrest⟩ := h
      have hnext' : (heapBlock (setIsFree s.mem b false) b).next
          = (addrs (b + 4096 * 1) (List.replicate k freeBlk)).headD 0 :=
        (blkNext_setIsFree (.inl rfl)).trans hnextb
      rw [takeLoop] at htake
      simp only [setMem_mem, hnext'] at htake
      cases k with
      | zero =>
          -- The last block: the heap grows, and the link to the new page is 0.
          simp only [List.replicate_zero, addrs, List.headD_nil, if_true] at htake
          split at htake
          · cases htake
          · rename_i s₂ hgrow
            simp only [takeLoop, Except.ok.injEq, Prod.mk.injEq] at htake
            obtain ⟨rfl, rfl⟩ := htake
            have hlastb : (s.setMem (setIsFree s.mem b false)).heap.lastBlock = b := by
              rw [setMem_heap]
              omega
            have hlink := heapGrow_link hgrow (by omega) (by rw [setMem_heap]; omega)
            rw [hlastb, setMem_heap, hnext, he] at hlink
            obtain ⟨-, hlo, hhi, -, -⟩ := heapGrow_heap hgrow
            rw [setMem_heap, hnext] at hlo
            refine ⟨hlink, fun x hx => ?_, by omega, .inr hlo⟩
            rw [heapGrow_apply hgrow (by rw [setMem_heap]; omega) (by omega), setMem_mem]
            exact setIsFree_apply s.mem (by omega)
      | succ k =>
          have hrest₁ := linked_setIsFree (v := false) hrest
          obtain ⟨b₁, hb₁⟩ : ∃ b₁, b₁ = b + 4096 * 1 := ⟨_, rfl⟩
          obtain ⟨s₁, hs₁⟩ : ∃ s₁, s₁ = s.setMem (setIsFree s.mem b false) := ⟨_, rfl⟩
          have hmem₁ : s₁.mem = setIsFree s.mem b false := by rw [hs₁, setMem_mem]
          have hheap₁ : s₁.heap = s.heap := by rw [hs₁, setMem_heap]
          rw [← hb₁, ← hs₁] at htake
          rw [← hb₁, ← hmem₁] at hrest₁
          have hhead : (addrs b₁ (List.replicate (k + 1) freeBlk)).headD 0 ≠ 0 := by
            rw [List.replicate_succ, addrs, List.headD_cons]
            omega
          rw [if_neg hhead] at htake
          simp only at htake
          rw [hmem₁, hnext', ← hb₁] at htake
          obtain ⟨hr, hframe, hlo, hlast'⟩ := ih (by omega) hrest₁ (hheap₁ ▸ hnext)
            (hend₁ b₁ hb₁) (hheap₁ ▸ hlast) htake
          refine ⟨hr, fun x hx => ?_, hlo, .inr ?_⟩
          · rw [hframe x (by omega), hmem₁]
            exact setIsFree_apply s.mem (by omega)
          · rcases hlast' with ⟨hzero, -⟩ | hlast'
            · cases hzero
            · exact hlast'

section Span

variable {s s' : Kernel} {L pre post : Layout} {n ptr : Nat}

/-- A block marked with the span `n` keeps it while the heap grows behind it. -/
theorem chunkSpan_heapGrow {m : Mem} {a : Nat} (hgrow : (s.setMem m).heapGrow = .ok s')
    (ha : a + 4096 ≤ s.heap.nextAddr)
    (hlast : s.heap.lastBlock = 0 ∨ s.heap.lastBlock + 4096 ≤ a ∨ a ≤ s.heap.lastBlock) :
    (heapBlock s'.mem a).chunkSpan = (heapBlock m a).chunkSpan := by
  refine chunkSpan_congr fun x h₁ h₂ => ?_
  rw [heapGrow_apply hgrow (by rw [setMem_heap]; omega) (by rw [setMem_heap]; omega), setMem_mem]

/-- A request for no chunks takes a free block and gives it the span 0. -/
theorem HeapOk.takeRun_zero (h : HeapOk s (pre ++ freeBlk :: post))
    (hres : s.takeRun 0 (kernelHeapStart + 4096 * chunks pre) = .ok (ptr, s')) :
    ptr = kernelHeapStart + 4096 * chunks pre + heapBlockSize ∧
      (heapBlock s'.mem (kernelHeapStart + 4096 * chunks pre)).chunkSpan = 0 := by
  obtain ⟨-, -, -, hnext, -⟩ := chain_cons.mp (chain_append.mp h.chain).2
  have hrange := h.nextAddr
  have hmem : kernelHeapStart + 4096 * chunks pre ∈ addrs kernelHeapStart (pre ++ freeBlk :: post) := by
    rw [addrs_append]
    exact List.mem_append_right _ List.mem_cons_self
  have hlast := addrs_eq_last_or (d := 0) h.sound hmem
  have hend := addrs_lt h.sound hmem
  rw [← h.lastBlock] at hlast
  rw [← hrange] at hend
  generalize kernelHeapStart + 4096 * chunks pre = start at *
  obtain ⟨s₁, nextFree, htake, hptr, hclose, hgrowEnd⟩ := takeRun_ok hres
  simp only [Nat.zero_sub, takeLoop, Except.ok.injEq, Prod.mk.injEq] at htake
  obtain ⟨rfl, rfl⟩ := htake
  have hmark : blkNext (setChunkSpan (setIsFree s.mem start false) start 0) start
      = blkNext s.mem start := blkNext_mark s.mem (by omega) (.inl rfl)
  have hspan : (heapBlock (setChunkSpan (setIsFree s.mem start false) start 0) start).chunkSpan
      = 0 := by rw [heapBlock_mark s.mem start (by omega)]
  rw [hmark, hnext, freeBlk_span] at hclose hgrowEnd
  refine ⟨hptr, ?_⟩
  by_cases hzero : (addrs (start + 4096 * 1) post).headD 0 = 0
  · obtain ⟨s₂, hgrow, rfl⟩ := hgrowEnd hzero
    rw [setMem_setMem, setMem_mem] at hgrow
    refine (chunkSpan_heapGrow hgrow hend (by omega)).trans ?_
    refine Eq.trans (chunkSpan_congr fun x h₁ h₂ => ?_) hspan
    exact setNext_apply _ (by omega)
  · rw [hclose hzero]
    have hbehind : (addrs (start + 4096 * 1) post).headD 0 = start + 4096 * 1 := by
      rw [addrs_head] at hzero ⊢
      exact if_neg fun hnil => hzero (if_pos hnil)
    refine Eq.trans (chunkSpan_congr fun x h₁ h₂ => ?_) hspan
    simp only [count, setMem_mem, hbehind]
    rw [setNext_apply _ (by omega), setPrev_apply _ (by omega)]

/-- A run that ends at 2^32 becomes a block of its span, although there is nothing
    behind it. -/
theorem HeapOk.takeRun_at_end (h : HeapOk s (pre ++ List.replicate n freeBlk ++ [])) (hn : 0 < n)
    (hend : s.heap.nextAddr = 2 ^ 32)
    (hres : s.takeRun n (kernelHeapStart + 4096 * chunks pre) = .ok (ptr, s')) :
    ptr = kernelHeapStart + 4096 * chunks pre + heapBlockSize ∧
      (heapBlock s'.mem (kernelHeapStart + 4096 * chunks pre)).chunkSpan = n := by
  obtain ⟨k, rfl⟩ : ∃ k, n = k + 1 := ⟨n - 1, by omega⟩
  obtain ⟨-, -, hnext, hrest⟩ := h.run_front
  rw [List.append_nil] at hnext hrest
  have hstart : 0 < kernelHeapStart := by decide
  have hrange := h.nextAddr
  have hlast := h.lastBlock
  rw [hend, chunks_append, chunks_append, chunks_replicate, chunks, Nat.add_zero, Nat.mul_add,
    ← Nat.add_assoc, Nat.mul_succ] at hrange
  rw [List.append_nil, addrs_append, getLastD_append, addrs_replicate_last] at hlast
  generalize kernelHeapStart + 4096 * chunks pre = start at *
  have hk : k + 1 < 2 ^ 32 := by omega
  obtain ⟨s₁, nextFree, htake, hptr, -, hgrowEnd⟩ := takeRun_ok hres
  set m₁ := setChunkSpan (setIsFree s.mem start false) start (k + 1) with hm₁
  have hspan : (heapBlock m₁ start).chunkSpan = k + 1 := by
    rw [hm₁, heapBlock_mark s.mem start hk]
  -- marking the first chunk leaves the links of the others
  have hlinks : Linked (blkNext m₁) (blkPrev m₁) start
      (addrs (start + 4096) (List.replicate k freeBlk)) 0 := by
    refine hrest.links.congr (fun x hx => ?_) (fun x hx => ?_)
    · have := addrs_ge hx
      exact blkNext_mark s.mem hk (by omega)
    · have := addrs_ge hx
      exact blkPrev_mark s.mem hk (by omega)
  rw [blkNext_mark s.mem hk (.inl rfl), hnext, Nat.add_sub_cancel] at htake
  have hlastEnd : s.heap.lastBlock + 4096 = 2 ^ 32 := by omega
  have hrunEnd : start + 4096 + 4096 * k = 2 ^ 32 := by omega
  obtain ⟨rfl, hframe, hlo, hlast'⟩ := takeLoop_at_end (s := s.setMem m₁) (by decide) (by omega)
    hlinks hend hrunEnd hlastEnd htake
  obtain ⟨s₂, hgrow, rfl⟩ := hgrowEnd rfl
  refine ⟨hptr, ?_⟩
  -- the block that is linked to the new page does not reach into the first header
  have hback : s₁.heap.lastBlock = 0 ∨ s₁.heap.lastBlock + 4096 ≤ start ∨
      start ≤ s₁.heap.lastBlock := by
    rcases hlast' with ⟨rfl, hsame⟩ | hlast'
    · rw [hsame, setMem_heap]
      omega
    · omega
  refine (chunkSpan_heapGrow hgrow (by omega) hback).trans ?_
  refine Eq.trans (chunkSpan_congr fun x h₁ h₂ => ?_) hspan
  rw [setNext_apply _ (by omega), hframe x (by omega), setMem_mem]

/-- The search stops at a free block. -/
theorem firstRun_block {i : Nat} (hrun : firstRun n L = some i) :
    ∃ pre b post, L = pre ++ b :: post ∧ pre.length = i ∧ b.free = true := by
  induction L generalizing i with
  | nil => cases hrun
  | cons b L ih =>
      rw [firstRun] at hrun
      split at hrun
      · rename_i hfits
        exact ⟨[], b, L, rfl, Option.some.inj hrun, hfits.1⟩
      · obtain ⟨j, hj, rfl⟩ := Option.map_eq_some_iff.mp hrun
        obtain ⟨pre, c, post, rfl, rfl, hfree⟩ := ih hj
        exact ⟨b :: pre, c, post, rfl, rfl, hfree⟩

/-- A heap of whole pages ends at 2^32 or has room for one more. -/
theorem page_room (h : ∃ k, s.heap.nextAddr = kernelHeapStart + 4194304 * k)
    (hle : s.heap.nextAddr ≤ 2 ^ 32) :
    s.heap.nextAddr = 2 ^ 32 ∨ s.heap.nextAddr + 4096 * pageChunks ≤ 2 ^ 32 := by
  obtain ⟨k, hk⟩ := h
  rw [pageChunks_eq]
  simp only [kernelHeapStart] at hk
  omega

/-- Whatever the search takes has the span it was made for. -/
theorem HeapOk.mallocLoop_span {fuel : Nat} (h : HeapOk s L) (hne : L ≠ [])
    (hpages : ∃ k, s.heap.nextAddr = kernelHeapStart + 4194304 * k)
    (hle : s.heap.nextAddr ≤ 2 ^ 32) (hres : Kernel.mallocLoop n fuel s = .ok (ptr, s')) :
    ∃ a, ptr = a + heapBlockSize ∧ (heapBlock s'.mem a).chunkSpan = n := by
  induction fuel generalizing s L with
  | zero => cases hres
  | succ fuel ih =>
      cases hrun : firstRun n L with
      | some i =>
          rw [h.mallocLoop_some hne hrun] at hres
          refine ⟨kernelHeapStart + 4096 * chunks (L.take i), ?_⟩
          by_cases hzero : n = 0
          · subst hzero
            obtain ⟨pre, b, post, rfl, rfl, hfree⟩ := firstRun_block hrun
            obtain rfl := h.sound.eq_freeBlk (List.mem_append_right _ List.mem_cons_self) hfree
            rw [List.take_left] at hres ⊢
            exact h.takeRun_zero hres
          · have hn : 0 < n := Nat.pos_of_ne_zero hzero
            obtain ⟨pre, post, rfl, rfl⟩ := firstRun_some h.sound hrun
            rw [List.append_assoc, List.take_left] at hres ⊢
            rcases page_room hpages hle with hend | hroom
            · by_cases hpost : post = []
              · subst hpost
                exact h.takeRun_at_end hn hend hres
              · obtain ⟨m, hcall, hok⟩ := h.takeRun_of_next hn hpost hle
                rw [hcall, Except.ok.injEq, Prod.mk.injEq] at hres
                exact ⟨hres.1.symm, hres.2 ▸ hok.header.2⟩
            · obtain ⟨hptr, hok⟩ := h.takeRun hn hroom hres
              exact ⟨hptr, hok.header.2⟩
      | none =>
          rw [h.mallocLoop_none hne hrun] at hres
          obtain ⟨s₁, hgrow, hrest⟩ := exists_of_bind hres
          rcases page_room hpages hle with hend | hroom
          · exact absurd hrest ((h.past hne hend hgrow).mallocLoop_ne_ok hne hrun)
          · have h₀ : HeapOk s (L ++ List.replicate 0 freeBlk) := by simpa using h
            obtain ⟨h₁, hnext⟩ := h₀.heapGrow hgrow hroom
            have hpages₁ := (heapGrow_grewPage hgrow).grew.aligned hpages
            exact ih h₁ (append_page_ne_nil L 0) hpages₁ (by omega) hrest

end Span

/-! ## Requests -/

/-- The number of chunks is right as long as nothing wraps. -/
theorem le_chunksNeeded_iff {size : Nat} (hsize : size < 2 ^ 32) :
    size + heapBlockSize ≤ 4096 * chunksNeeded size ↔ size + heapBlockSize + 4095 < 2 ^ 32 := by
  simp only [chunksNeeded, totalSizeWithHeader, heapBlockSize, kernelHeapChunkSize]
  omega

/-- An event maps pages, or none. -/
theorem heapStepAny_grew {s s' : HeapState} {ev : HeapEvent} (hstep : heapStepAny s ev = some s') :
    Grew s.kernel s'.kernel := by
  cases heapStepAny_cases hstep with
  | kmalloc size ptr k hsize hres =>
      rw [allocated_kernel]
      exact kmalloc_grew hres
  | kzalloc size ptr k hsize hres =>
      rw [allocated_kernel]
      exact kzalloc_grew hres
  | kfree ptr hlive => exact (kfree_sameTables s.kernel ptr).grew
  | write addr byte e he hlo hhi => exact (SameTables.setMem s.kernel _).grew

/-- A reachable heap is made of whole pages. -/
theorem pages_of_runs {ok : HeapState → HeapEvent → Prop} {kernel : Kernel} {es : List HeapEvent}
    {s : HeapState} (hrun : Runs heapStepAny ok (.boot kernel) es s) :
    ∃ k, s.kernel.heap.nextAddr = kernelHeapStart + 4194304 * k :=
  hrun.invariant (fun s => ∃ k, s.kernel.heap.nextAddr = kernelHeapStart + 4194304 * k) ⟨0, rfl⟩
    fun _ _ _ hs _ hstep => (heapStepAny_grew hstep).aligned hs

/-- The span of the block that any request gets. -/
theorem HeapInv.kmalloc_span {s k : Kernel} {L : Layout} {size ptr : Nat} (h : HeapInv s L)
    (hpages : ∃ k, s.heap.nextAddr = kernelHeapStart + 4194304 * k)
    (hres : s.kmalloc size = .ok (ptr, k)) (hptr : ptr ≠ 0) :
    ∃ a, ptr = a + heapBlockSize ∧ (heapBlock k.mem a).chunkSpan = chunksNeeded size := by
  have hbound := h.bound
  simp only [heapLimit] at hbound
  obtain ⟨-, hzero, -⟩ | ⟨-, s₁, hlow, hloop⟩ := kmalloc_ok hres
  · exact absurd hzero hptr
  · have hpage := pageChunks_eq
    obtain ⟨t, ht, h₁, hne, hnext⟩ := h.growIfLow hlow
    exact h₁.mallocLoop_span hne ((growIfLow_grew hlow).aligned hpages) (by omega) hloop

/-- The block of a request is as long as the request, with its header, exactly when the
    sum of size, header and rounding is below 2^32. -/
theorem kmalloc_spans_iff (kernel : Kernel) (es : List HeapEvent) (s : HeapState)
    (hrun : Runs heapStepAny SumsFit (.boot kernel) es s) (size : Nat) (hsize : size < 2 ^ 32)
    (ptr : Nat) (k : Kernel)
    (hres : s.kernel.kmalloc size = .ok (ptr, k) ∨ s.kernel.kzalloc size = .ok (ptr, k))
    (hptr : ptr ≠ 0) :
    size + heapBlockSize ≤ 4096 * (heapBlock k.mem (ptr - heapBlockSize)).chunkSpan ↔
      size + heapBlockSize + 4095 < 2 ^ 32 := by
  obtain ⟨L, h⟩ := runInv_of_sumsFit hrun
  have hpages := pages_of_runs hrun
  have hspan : (heapBlock k.mem (ptr - heapBlockSize)).chunkSpan = chunksNeeded size := by
    rcases hres with hres | hres
    · obtain ⟨a, rfl, hspan⟩ := h.heap.kmalloc_span hpages hres hptr
      rw [Nat.add_sub_cancel]
      exact hspan
    · obtain ⟨k₁, hcall, ⟨hzero, -⟩ | ⟨-, rfl⟩⟩ := kzalloc_ok hres
      · exact absurd hzero hptr
      · obtain ⟨a, rfl, hspan⟩ := h.heap.kmalloc_span hpages hcall hptr
        rw [Nat.add_sub_cancel, ← hspan]
        -- memset starts behind the header
        refine chunkSpan_congr (Mem.agree_fill _ (.inl ?_))
        simp only [heapBlockSize]
        omega
  rw [hspan]
  exact le_chunksNeeded_iff hsize

/-- The block of a request that comes into a hole -/
theorem kmalloc_spans_hole : ∃ s : HeapState,
    Runs heapStepAny SumsFit (.boot coldKernel)
      [.kmalloc 10000, .kmalloc 100, .kfree (kernelHeapStart + heapBlockSize)] s ∧
    ∃ ptr k, s.kernel.kmalloc 5000 = .ok (ptr, k) ∧
      5000 + heapBlockSize ≤ 4096 * (heapBlock k.mem (ptr - heapBlockSize)).chunkSpan := by
  obtain ⟨s₁, s₂, s₃, hfirst, hsecond, hthird, hnext, hok⟩ := exists_hole
  have hsum₁ : SumsFit (.boot coldKernel) (.kmalloc 10000) := by
    change (HeapState.boot coldKernel).kernel.heap.nextAddr + (10000 + heapBlockSize) < 2 ^ 32
    decide
  have hsum₂ : SumsFit s₁ (.kmalloc 100) := by
    change s₁.kernel.heap.nextAddr + (100 + heapBlockSize) < 2 ^ 32
    rw [hnext]
    decide
  have hrun : Runs heapStepAny SumsFit (.boot coldKernel)
      ([] ++ [.kmalloc 10000] ++ [.kmalloc 100] ++ [.kfree (kernelHeapStart + heapBlockSize)]) s₃ :=
    ((Runs.nil.snoc hsum₁ (heapStepAny_of_heapStep hfirst)).snoc hsum₂
      (heapStepAny_of_heapStep hsecond)).snoc trivial (heapStepAny_of_heapStep hthird)
  obtain ⟨k, hcall⟩ := kmalloc_hole hok
  exact ⟨s₃, hrun, _, k, hcall, (kmalloc_spans_iff coldKernel _ s₃ hrun 5000 (by decide) _ k
    (.inl hcall) (by decide)).mpr (by decide)⟩

/-- A request whose size wraps with the header gets one chunk. -/
theorem exists_short_block : ¬ ∀ (kernel : Kernel) (es : List HeapEvent) (s : HeapState),
    Runs heapStepAny SumsFit (.boot kernel) es s → ∀ size < 2 ^ 32, ∀ ptr k,
      s.kernel.kmalloc size = .ok (ptr, k) → ptr ≠ 0 →
        size + heapBlockSize ≤ 4096 * (heapBlock k.mem (ptr - heapBlockSize)).chunkSpan := by
  intro hall
  have hpage := pageChunks_eq
  have hneeded : chunksNeeded 4294967286 = 1 := by decide
  obtain ⟨k, hcall, hok⟩ := kmalloc_first (s := (HeapState.boot coldKernel).kernel)
    (m := pageChunks - 1) 4294967286 rfl rfl coldKernel_supplies.1 (by decide) (by decide)
    (by omega) (by omega)
  rw [hneeded] at hok
  have hlong := hall coldKernel [] _ .nil 4294967286 (by decide) _ k hcall (by decide)
  have hfirst : HeapOk k ([] ++ usedBlk 1 :: List.replicate (pageChunks - 1) freeBlk) := hok
  have hspan := hfirst.header.2
  rw [chunks, Nat.mul_zero, Nat.add_zero, usedBlk_span] at hspan
  rw [Nat.add_sub_cancel, hspan] at hlong
  exact absurd hlong (by decide)

end Kernel

end Icarius
