/-
  Icarius.Memory.FirstFit

  Which chunks `_malloc` gives away.  Seen from outside, the heap is the list of
  its blocks in the order of the chain, and a request for `n` chunks is after `n`
  free ones in a row.  `_malloc` takes the lowest such run; without one it maps
  pages, one at a time, until there is one, and that one it takes.

  The chunks that are free at the end of the heap carry the argument.  Every page
  makes that run longer by its chunks, so after `searchPages` pages it holds the
  request, and a search that is supplied with frames ends.
-/

import Icarius.Memory.HeapWindow

namespace Icarius

open Icarius.Lib Layout

namespace Layout

/-- A block of the layout, and what stands around it. -/
theorem exists_of_mem_addrs {a x : Nat} {L : Layout} (h : x ∈ addrs a L) :
    ∃ pre b post, L = pre ++ b :: post ∧ x = a + 4096 * chunks pre := by
  induction L generalizing a with
  | nil => cases h
  | cons b L ih =>
      rcases List.mem_cons.mp h with rfl | h
      · exact ⟨[], b, L, rfl, rfl⟩
      · obtain ⟨pre, c, post, rfl, hx⟩ := ih h
        refine ⟨b :: pre, c, post, rfl, ?_⟩
        rw [hx, chunks, Nat.mul_add, Nat.add_assoc]

/-- Of two fronts of a layout, the shorter one has no more chunks. -/
theorem chunks_le_of_length_le {pre pre' post post' : Layout}
    (h : pre ++ post = pre' ++ post') (hle : pre.length ≤ pre'.length) :
    chunks pre ≤ chunks pre' := by
  obtain ⟨rest, rfl⟩ := List.prefix_of_prefix_length_le (List.prefix_append pre post)
    (h ▸ List.prefix_append pre' post') hle
  rw [chunks_append]
  exact Nat.le_add_right _ _

end Layout

namespace Kernel

/-! ## Runs of free chunks -/

/-- The blocks of the chain from `curr` on, `fuel` at most. -/
def blocksFrom (m : Mem) : Nat → Nat → List Nat
  | 0, _ => []
  | fuel + 1, curr =>
      if curr = 0 then [] else curr :: blocksFrom m fuel (heapBlock m curr).next

/-- The blocks of the heap. -/
def blocks (s : Kernel) : List Nat :=
  blocksFrom s.mem (s.heap.freeChunks + s.heap.usedChunks) s.heap.startAddr

/-- `n` free chunks in a row, the first one at `a`. -/
def FreeRun (s : Kernel) (n a : Nat) : Prop :=
  ∀ i < n, a + 4096 * i ∈ s.blocks ∧ (heapBlock s.mem (a + 4096 * i)).isFree = true

instance (s : Kernel) (n a : Nat) : Decidable (s.FreeRun n a) := Nat.decidableBallLT n _

/-- Following the chain yields the addresses of the layout. -/
theorem blocksFrom_eq {m : Mem} {p a : Nat} {L : Layout} (h : Chain m p a L 0) (ha : 0 < a)
    {fuel : Nat} (hfuel : L.length ≤ fuel) : blocksFrom m fuel ((addrs a L).headD 0) = addrs a L := by
  induction L generalizing p a fuel with
  | nil =>
      cases fuel with
      | zero => rfl
      | succ fuel => rfl
  | cons b L ih =>
      rw [List.length_cons] at hfuel
      obtain ⟨k, rfl⟩ : ∃ k, fuel = k + 1 := ⟨fuel - 1, by omega⟩
      obtain ⟨-, -, -, hnext, hL⟩ := chain_cons.mp h
      have hrest := ih hL (by omega) (show L.length ≤ k by omega)
      rw [addrs, List.headD_cons, blocksFrom, if_neg (by omega)]
      change a :: blocksFrom m k (blkNext m a) = _
      rw [hnext, hrest]

section Layouts

variable {s : Kernel} {L pre post : Layout} {n : Nat}

theorem HeapOk.blocks_eq (h : HeapOk s L) : s.blocks = addrs kernelHeapStart L := by
  have hlen := length_le_chunks h.sound
  rw [chunks_eq_freeBlocks_add_usedChunks h.sound, ← h.freeChunks, ← h.usedChunks] at hlen
  rw [blocks, h.startAddr]
  cases L with
  | nil =>
      have hnone : s.heap.freeChunks + s.heap.usedChunks = 0 := by
        rw [h.freeChunks, h.usedChunks]
        rfl
      rw [hnone]
      rfl
  | cons b L => exact blocksFrom_eq h.chain (by decide) hlen

/-- Flag and span of the block behind `pre`. -/
theorem HeapOk.header {b : Blk} (h : HeapOk s (pre ++ b :: post)) :
    (heapBlock s.mem (kernelHeapStart + 4096 * chunks pre)).isFree = b.free ∧
      (heapBlock s.mem (kernelHeapStart + 4096 * chunks pre)).chunkSpan = b.span := by
  obtain ⟨hfree, hspan, -⟩ := chain_cons.mp (chain_append.mp h.chain).2
  exact ⟨hfree, hspan⟩

/-- A free block behind `pre` is a free chunk. -/
theorem HeapOk.exists_free (h : HeapOk s (pre ++ post))
    (hmem : kernelHeapStart + 4096 * chunks pre ∈ s.blocks)
    (hfree : (heapBlock s.mem (kernelHeapStart + 4096 * chunks pre)).isFree = true) :
    ∃ rest, post = freeBlk :: rest := by
  have hsound := sound_append.mp h.sound
  rw [h.blocks_eq, addrs_append, List.mem_append] at hmem
  rcases hmem with hmem | hmem
  · have := addrs_lt hsound.1 hmem
    omega
  · cases post with
    | nil => cases hmem
    | cons b rest =>
        have hb : b.free = true := h.header.1.symm.trans hfree
        exact ⟨rest, by rw [hsound.2.eq_freeBlk List.mem_cons_self hb]⟩

/-- The chunks of a run of free blocks are free chunks in a row. -/
theorem HeapOk.freeRun_of_split (h : HeapOk s (pre ++ List.replicate n freeBlk ++ post)) :
    s.FreeRun n (kernelHeapStart + 4096 * chunks pre) := by
  intro i hi
  have hsplit : pre ++ List.replicate n freeBlk ++ post
      = (pre ++ List.replicate i freeBlk) ++ freeBlk :: (List.replicate (n - i - 1) freeBlk ++ post) := by
    have hn : n = i + (n - i - 1 + 1) := by omega
    conv_lhs => rw [hn, List.replicate_add, List.replicate_succ]
    simp only [List.append_assoc, List.cons_append]
  rw [hsplit] at h
  have haddr : kernelHeapStart + 4096 * chunks pre + 4096 * i
      = kernelHeapStart + 4096 * chunks (pre ++ List.replicate i freeBlk) := by
    rw [chunks_append, chunks_replicate, Nat.mul_add, Nat.add_assoc]
  rw [haddr]
  refine ⟨?_, h.header.1⟩
  rw [h.blocks_eq, addrs_append]
  exact List.mem_append_right _ List.mem_cons_self

/-- Free chunks in a row are a run of the layout. -/
theorem HeapOk.split_of_freeRun (h : HeapOk s L) (hn : 0 < n) {a : Nat} (hrun : s.FreeRun n a) :
    ∃ pre post, L = pre ++ List.replicate n freeBlk ++ post ∧
      a = kernelHeapStart + 4096 * chunks pre := by
  have hhead := (hrun 0 hn).1
  rw [h.blocks_eq] at hhead
  obtain ⟨pre, b, tail, rfl, ha⟩ := exists_of_mem_addrs hhead
  rw [Nat.mul_zero, Nat.add_zero] at ha
  -- One chunk after the other: `i` free blocks stand behind `pre`.
  have hfront : ∀ i ≤ n, ∃ post, b :: tail = List.replicate i freeBlk ++ post := by
    intro i
    induction i with
    | zero => exact fun _ => ⟨b :: tail, rfl⟩
    | succ i ih =>
        intro hi
        obtain ⟨post, hpost⟩ := ih (by omega)
        have hok := h
        rw [hpost, ← List.append_assoc] at hok
        have haddr : a + 4096 * i
            = kernelHeapStart + 4096 * chunks (pre ++ List.replicate i freeBlk) := by
          rw [ha, chunks_append, chunks_replicate, Nat.mul_add, Nat.add_assoc]
        obtain ⟨hmem, hfree⟩ := hrun i (by omega)
        rw [haddr] at hmem hfree
        obtain ⟨rest, rfl⟩ := hok.exists_free hmem hfree
        refine ⟨rest, ?_⟩
        rw [hpost, List.replicate_succ', List.append_assoc]
        rfl
  obtain ⟨post, hpost⟩ := hfront n (Nat.le_refl n)
  exact ⟨pre, post, by rw [hpost, List.append_assoc], ha⟩

/-- The search finds nothing only when there is nothing. -/
theorem HeapOk.no_freeRun (h : HeapOk s L) (hn : 0 < n) (hrun : firstRun n L = none) (a : Nat) :
    ¬ s.FreeRun n a := by
  intro hfree
  obtain ⟨pre, post, rfl, -⟩ := h.split_of_freeRun hn hfree
  have hsome := firstRun_isSome hn pre post
  rw [hrun] at hsome
  cases hsome

/-- What the search finds is the lowest run. -/
theorem HeapOk.le_of_freeRun (h : HeapOk s (pre ++ List.replicate n freeBlk ++ post)) (hn : 0 < n)
    (hrun : firstRun n (pre ++ List.replicate n freeBlk ++ post) = some pre.length) {b : Nat}
    (hfree : s.FreeRun n b) : kernelHeapStart + 4096 * chunks pre ≤ b := by
  obtain ⟨pre', post', hsplit, rfl⟩ := h.split_of_freeRun hn hfree
  have hlen : pre.length ≤ pre'.length := by
    rw [hsplit] at hrun
    exact firstRun_le hn hrun
  rw [List.append_assoc, List.append_assoc] at hsplit
  have := chunks_le_of_length_le hsplit hlen
  omega

end Layouts

/-! ## Pages -/

/-- `j` times `_heap_grow`. -/
def growPages : Nat → Kernel → Except Stop Kernel
  | 0, s => .ok s
  | j + 1, s => do
      let s ← s.heapGrow
      growPages j s

theorem growPages_succ {s s₁ : Kernel} (h : s.heapGrow = .ok s₁) (j : Nat) :
    growPages (j + 1) s = growPages j s₁ := by
  rw [growPages, h]
  rfl

theorem growIfLow_cases {s s₁ : Kernel} (h : s.growIfLow = .ok s₁) :
    s₁ = s ∨ s.heapGrow = .ok s₁ := by
  unfold growIfLow at h
  simp only at h
  split at h
  · exact .inr h
  · split at h
    · exact .inr h
    · exact .inl (Except.ok.inj h).symm

/-- Nothing around a growth concerns page tables. -/
theorem SameTables.grewPage {s s₁ s₂ s' : Kernel} (h₁ : SameTables s s₁) (h : GrewPage s₁ s₂)
    (h₂ : SameTables s₂ s') : GrewPage s s' := by
  obtain ⟨⟨frame, hlt, hne, hfree, hpfa, hdir⟩, hdirs, hcr3, hnone⟩ := h.mapped
  refine ⟨⟨⟨frame, hlt, hne, ?_, ?_, ?_⟩, ?_, ?_, ?_⟩, ?_⟩
  · rw [← h₁.pfa]
    exact hfree
  · rw [h₂.pfa, hpfa, h₁.pfa]
  · rw [h₂.kernelDirectory, hdir, h₁.kernelDirectory, h₁.nextAddr]
  · rw [h₂.dirs, hdirs, h₁.dirs]
  · rw [h₂.cr3, hcr3, h₁.cr3]
  · rw [← h₁.cr3]
    exact hnone
  · rw [h₂.nextAddr, h.nextAddr, h₁.nextAddr]

/-- A heap that ends a page later mapped one page. -/
theorem Grew.onePage {s s' : Kernel} (h : Grew s s')
    (hnext : s'.heap.nextAddr = s.heap.nextAddr + pageSize) : GrewPage s s' := by
  induction h with
  | refl =>
      simp only [pageSize] at hnext
      omega
  | tail hrest hstep ih =>
      rcases hstep with hsame | hpage
      · exact SameTables.grewPage .rfl (ih (hsame.nextAddr.symm.trans hnext)) hsame
      · have hnext₁ := hpage.nextAddr
        have hsame := Grew.sameTables hrest (by omega)
        exact hsame.grewPage hpage .rfl

/-! ## The search -/

/-- What a search for `n` chunks that starts on the heap `s₁` comes to: `j` pages more,
    and not one of them too many, and the first run of the heap `s₂` they make. -/
structure Search (s₁ : Kernel) (n j : Nat) (s₂ : Kernel) (pre post : Layout) : Prop where
  grown : growPages j s₁ = .ok s₂
  minimal : ∀ i < j, ∀ s', growPages i s₁ = .ok s' → ∀ b, ¬ s'.FreeRun n b
  ok : HeapOk s₂ (pre ++ List.replicate n freeBlk ++ post)
  first : firstRun n (pre ++ List.replicate n freeBlk ++ post) = some pre.length
  bound : s₂.heap.nextAddr + 4096 * pageChunks ≤ 2 ^ 32

/-- The same, seen from outside: the lowest run, at `a`, is taken.  The page behind a
    run that ends the heap is the only one mapped after that. -/
structure FirstFit (s₁ : Kernel) (n j : Nat) (s₂ : Kernel) (a : Nat) (k : Kernel) : Prop where
  grown : growPages j s₁ = .ok s₂
  minimal : ∀ i < j, ∀ s', growPages i s₁ = .ok s' → ∀ b, ¬ s'.FreeRun n b
  run : s₂.FreeRun n a
  lowest : ∀ b, s₂.FreeRun n b → a ≤ b
  taken : (heapBlock k.mem a).isFree = false ∧ (heapBlock k.mem a).chunkSpan = n
  mapped : SameTables s₂ k ∨ a + 4096 * n = s₂.heap.nextAddr ∧ GrewPage s₂ k

section Search

variable {n fuel ptr i j : Nat} {s s₁ s₂ s' : Kernel} {L pre post : Layout}

/-- A search from a page later is a search, when there was no run before. -/
theorem Search.afterPage (h : Search s₁ n j s₂ pre post) (hgrow : s.heapGrow = .ok s₁)
    (hnone : ∀ b, ¬ s.FreeRun n b) : Search s n (j + 1) s₂ pre post := by
  have hpages := growPages_succ hgrow
  refine ⟨(hpages j).trans h.grown, fun i hi s' hs' => ?_, h.ok, h.first, h.bound⟩
  cases i with
  | zero => exact Except.ok.inj hs' ▸ hnone
  | succ i => exact h.minimal i (Nat.lt_of_succ_lt_succ hi) s' ((hpages i).symm.trans hs')

/-- The outer loop of `_malloc` searches with as few pages as there can be, and takes
    what it finds.  `t` chunks are free at the end of the layout before. -/
theorem HeapOk.mallocLoop_search {t : Nat} (hn : 0 < n)
    (h : HeapOk s (L ++ List.replicate t freeBlk)) (hne : L ++ List.replicate t freeBlk ≠ [])
    (hbound : s.heap.nextAddr + 4194304 ≤ 2 ^ 32)
    (hroom : t < n → s.heap.nextAddr + 4096 * n + 8388608 ≤ 2 ^ 32 + 4096 * t)
    (hres : Kernel.mallocLoop n fuel s = .ok (ptr, s')) :
    ∃ j s₂ pre post, Search s n j s₂ pre post ∧
      s₂.takeRun n (kernelHeapStart + 4096 * chunks pre) = .ok (ptr, s') := by
  have hpage : 4096 * pageChunks = 4194304 := by rw [pageChunks_eq]
  induction fuel generalizing s t with
  | zero => cases hres
  | succ fuel ih =>
      cases hrun : firstRun n (L ++ List.replicate t freeBlk) with
      | some i =>
          obtain ⟨pre, post, hsplit, rfl, hround⟩ := h.mallocLoop_run hne hrun
          rw [hround] at hres
          rw [hsplit] at h hrun
          exact ⟨0, s, pre, post,
            ⟨rfl, fun i hi => absurd hi (Nat.not_lt_zero i), h, hrun, by omega⟩, hres⟩
      | none =>
          have hshort := lt_of_firstRun_none hn hrun
          have hroom' := hroom hshort
          rw [h.mallocLoop_none hne hrun] at hres
          obtain ⟨s₁, hgrow, hrest⟩ := exists_of_bind hres
          obtain ⟨h₁, hnext₁⟩ := h.heapGrow hgrow (by omega)
          have hmul : 4096 * (t + pageChunks) = 4096 * t + 4194304 := by
            rw [Nat.mul_add, hpage]
          obtain ⟨j, s₂, pre, post, hsearch, htake⟩ :=
            ih h₁ (append_page_ne_nil L t) (by omega) (fun _ => by omega) hrest
          exact ⟨j + 1, s₂, pre, post, hsearch.afterPage hgrow (h.no_freeRun hn hrun), htake⟩

/-- Taking the run a search came to. -/
theorem Search.firstFit (h : Search s₁ n j s₂ pre post) (hn : 0 < n)
    (htake : s₂.takeRun n (kernelHeapStart + 4096 * chunks pre) = .ok (ptr, s')) :
    FirstFit s₁ n j s₂ (kernelHeapStart + 4096 * chunks pre) s' ∧
      ptr = kernelHeapStart + 4096 * chunks pre + heapBlockSize := by
  obtain ⟨hptr, hok⟩ := h.ok.takeRun hn h.bound htake
  have hgrew := takeRun_grew htake
  have hnext := h.ok.nextAddr
  have hnext' := hok.nextAddr
  simp only [chunks_append, chunks_replicate, chunks, usedBlk_span] at hnext hnext'
  have hmapped : SameTables s₂ s' ∨
      kernelHeapStart + 4096 * chunks pre + 4096 * n = s₂.heap.nextAddr ∧ GrewPage s₂ s' := by
    have hpage : 4096 * pageChunks = pageSize := by
      rw [pageChunks_eq, pageSize]
    by_cases hpost : post = []
    · rw [refill, if_pos hpost, chunks_replicate] at hnext'
      rw [hpost, chunks] at hnext
      exact .inr ⟨by omega, hgrew.onePage (by omega)⟩
    · rw [refill, if_neg hpost] at hnext'
      exact .inl (hgrew.sameTables (by omega))
  exact ⟨⟨h.grown, h.minimal, h.ok.freeRun_of_split, fun b hb => h.ok.le_of_freeRun hn h.first hb,
    hok.header, hmapped⟩, hptr⟩

end Search

/-! ## Termination -/

/-- The pages that hold the chunks of a request. -/
def searchPages (size : Nat) : Nat := (chunksNeeded size + pageChunks - 1) / pageChunks

/-- Without a frame, or under the directory of a process, the heap cannot grow. -/
theorem heapGrow_error_cases {s : Kernel} {e : Stop} (h : s.heapGrow = .error e) :
    (pfaAlloc s.pfa).1 = 0 ∨ e = .pageFault ∧ s.cr3 ≠ none := by
  by_cases hframe : (pfaAlloc s.pfa).1 = 0
  · exact .inl hframe
  · refine .inr ?_
    rcases halloc : pfaAlloc s.pfa with ⟨addr, pfa⟩
    rw [halloc] at hframe
    unfold heapGrow pageMap updateCurrentDir at h
    rw [halloc] at h
    simp only [hframe, if_false] at h
    cases hcr3 : s.cr3 with
    | none =>
        rw [hcr3] at h
        cases h
    | some f =>
        rw [hcr3] at h
        simp only [Except.error.injEq] at h
        exact ⟨h.symm, Option.some_ne_none f⟩

/-- The bitmap after a growth. -/
theorem heapGrow_pfa {s s' : Kernel} (h : s.heapGrow = .ok s') : s'.pfa = (pfaAlloc s.pfa).2 := by
  obtain ⟨frame, hlt, hne, hfree, hpfa, -⟩ := (heapGrow_mapped h).frame
  have hcr3 := (heapGrow_mapped h).cr3.2
  have hframe : (pfaAlloc s.pfa).1 ≠ 0 := by
    intro hzero
    unfold heapGrow at h
    rcases halloc : pfaAlloc s.pfa with ⟨addr, pfa⟩
    rw [halloc] at h hzero
    simp only at hzero
    simp only [hzero, if_true] at h
    cases h
  obtain ⟨s'', hgrow, hpfa'⟩ := heapGrow_isOk hcr3 hframe
  rw [hgrow] at h
  rw [← Except.ok.inj h]
  exact hpfa'

/-- The loop over the interior blocks, in a heap that cannot grow. -/
theorem takeLoop_error_cases {k b : Nat} {s : Kernel} {e : Stop} (h : takeLoop k s b = .error e)
    (hframe : (pfaAlloc s.pfa).1 ≠ 0) (hcr3 : s.cr3 ≠ none) : e = .pageFault := by
  induction k generalizing s b with
  | zero => cases h
  | succ k ih =>
      rw [takeLoop] at h
      by_cases hend : (heapBlock (s.setMem (setIsFree s.mem b false)).mem b).next = 0
      · rw [if_pos hend] at h
        cases hgrow : (s.setMem (setIsFree s.mem b false)).heapGrow with
        | error e' =>
            rw [hgrow] at h
            cases h
            exact ((heapGrow_error_cases hgrow).resolve_left hframe).1
        | ok s₁ => exact absurd (heapGrow_mapped hgrow).cr3.2 hcr3
      · rw [if_neg hend] at h
        exact ih h hframe hcr3

section Supplied

variable {n fuel : Nat} {s : Kernel} {e : Stop} {L pre post : Layout}

/-- Taking a run fails only for want of the page behind it. -/
theorem HeapOk.takeRun_error_cases (h : HeapOk s (pre ++ List.replicate n freeBlk ++ post))
    (hn : 0 < n) (hbound : s.heap.nextAddr + 4096 * pageChunks ≤ 2 ^ 32)
    (hframe : (pfaAlloc s.pfa).1 ≠ 0)
    (herr : s.takeRun n (kernelHeapStart + 4096 * chunks pre) = .error e) :
    e = .pageFault ∧ s.cr3 ≠ none := by
  by_cases hpost : post = []
  · subst hpost
    have hcr3 : s.cr3 ≠ none := by
      intro hcr3
      obtain ⟨r, hok⟩ := h.takeRun_end_isOk hn hbound hcr3 hframe
      rw [hok] at herr
      cases herr
    refine ⟨?_, hcr3⟩
    simp only [Kernel.takeRun, bind, Except.bind] at herr
    split at herr
    · rename_i htake
      cases herr
      exact takeLoop_error_cases htake hframe hcr3
    · rename_i r htake
      -- The heap did not grow inside the loop: there is no page to map it into.
      obtain ⟨s₁, nextFree⟩ := r
      have hsame := Grew.sameTables_of_cr3 (takeLoop_grew htake) hcr3
      split at herr
      · split at herr
        · rename_i hgrow
          cases herr
          refine ((heapGrow_error_cases hgrow).resolve_left ?_).1
          rw [setMem_pfa, hsame.pfa]
          exact hframe
        · cases herr
      · cases herr
  · obtain ⟨m, hok, -⟩ := h.takeRun_of_next hn hpost (by omega)
    rw [hok] at herr
    cases herr

/-- The search ends when `_heap_grow` is supplied with frames: `m` for the pages that
    make room for the request, and one more. -/
theorem HeapOk.mallocLoop_supplied {t m : Nat} (hn : 0 < n)
    (h : HeapOk s (L ++ List.replicate t freeBlk)) (hne : L ++ List.replicate t freeBlk ≠ [])
    (hpages : n ≤ t + pageChunks * m) (hfuel : m ≤ fuel)
    (hbound : s.heap.nextAddr + 4194304 ≤ 2 ^ 32)
    (hroom : t < n → s.heap.nextAddr + 4096 * n + 8388608 ≤ 2 ^ 32 + 4096 * t)
    (hframes : Supplies (m + 1) s.pfa) (herr : Kernel.mallocLoop n (fuel + 1) s = .error e) :
    e = .pageFault ∧ s.cr3 ≠ none := by
  have hpage : 4096 * pageChunks = 4194304 := by rw [pageChunks_eq]
  -- a round that finds a run fails only in taking it
  have hfound : ∀ {s : Kernel} {t fuel i : Nat}, HeapOk s (L ++ List.replicate t freeBlk) →
      L ++ List.replicate t freeBlk ≠ [] → firstRun n (L ++ List.replicate t freeBlk) = some i →
      s.heap.nextAddr + 4194304 ≤ 2 ^ 32 → (pfaAlloc s.pfa).1 ≠ 0 →
      Kernel.mallocLoop n (fuel + 1) s = .error e → e = .pageFault ∧ s.cr3 ≠ none := by
    intro s t fuel i h hne hrun hbound hframe herr
    obtain ⟨pre, post, hsplit, -, hround⟩ := h.mallocLoop_run hne hrun
    rw [hround] at herr
    rw [hsplit] at h
    exact h.takeRun_error_cases hn (by omega) hframe herr
  -- over the pages the supply still has; a round without a run takes one
  induction m generalizing s t fuel with
  | zero =>
      cases hrun : firstRun n (L ++ List.replicate t freeBlk) with
      | some i => exact hfound h hne hrun hbound hframes.1 herr
      | none =>
          have hshort := lt_of_firstRun_none hn hrun
          omega
  | succ m ih =>
      cases hrun : firstRun n (L ++ List.replicate t freeBlk) with
      | some i => exact hfound h hne hrun hbound hframes.1 herr
      | none =>
          have hshort := lt_of_firstRun_none hn hrun
          have hroom' := hroom hshort
          rw [h.mallocLoop_none hne hrun] at herr
          cases hgrow : s.heapGrow with
          | error e' =>
              rw [hgrow] at herr
              cases herr
              exact (heapGrow_error_cases hgrow).resolve_left hframes.1
          | ok s₁ =>
              rw [hgrow, ok_bind] at herr
              obtain ⟨h₁, hnext₁⟩ := h.heapGrow hgrow (by omega)
              have hne₁ := append_page_ne_nil L t
              obtain ⟨f, rfl⟩ : ∃ f, fuel = f + 1 := ⟨fuel - 1, by omega⟩
              rw [Nat.mul_succ] at hpages
              have hmul : 4096 * (t + pageChunks) = 4096 * t + 4194304 := by
                rw [Nat.mul_add, hpage]
              have hframes₁ : Supplies (m + 1) s₁.pfa := heapGrow_pfa hgrow ▸ hframes.2
              obtain ⟨-, hcr3⟩ := ih h₁ hne₁ (by omega) (by omega) (by omega) (fun _ => by omega)
                hframes₁ herr
              -- the heap grows only while `cr3` is not set, so no round behind it faults
              exact absurd ((heapGrow_mapped hgrow).cr3.1.trans (heapGrow_mapped hgrow).cr3.2) hcr3

end Supplied

/-! ## _malloc -/

/-- The guard of `_malloc`. -/
def Admits (s : Kernel) (size : Nat) : Prop :=
  (s.heap.nextAddr + totalSizeWithHeader size) % 2 ^ 32 ≤ kernelHeapMax

instance (s : Kernel) (size : Nat) : Decidable (s.Admits size) := Nat.decLe _ _

theorem kmalloc_of_admits {s : Kernel} {size : Nat} (h : s.Admits size) :
    s.kmalloc size =
      match s.growIfLow with
      | .error e => .error e
      | .ok s => mallocLoop (chunksNeeded size) (chunksNeeded size + 1) s := by
  unfold kmalloc
  exact if_neg (Nat.not_lt.mpr h)

/-- The heap on which an admitted search starts has room for what it may map. -/
theorem HeapInv.search_room {s s₁ : Kernel} {L : Layout} {size : Nat} (h : HeapInv s L)
    (hsize : size < 2 ^ 29) (hadmits : s.Admits size) (hlow : s.growIfLow = .ok s₁) :
    ∃ t, HeapOk s₁ (L ++ List.replicate t freeBlk) ∧ L ++ List.replicate t freeBlk ≠ [] ∧
      s₁.heap.nextAddr + 4194304 ≤ 2 ^ 32 ∧
      (t < chunksNeeded size →
        s₁.heap.nextAddr + 4096 * chunksNeeded size + 8388608 ≤ 2 ^ 32 + 4096 * t) := by
  obtain ⟨-, -, hle⟩ := chunksNeeded_spec hsize
  have hbound := h.bound
  have htotal : totalSizeWithHeader size = size + 20 := by
    simp only [totalSizeWithHeader, heapBlockSize]
    omega
  have hpage := pageChunks_eq
  obtain ⟨t, ht, h₁, hne, hnext⟩ := h.growIfLow hlow
  unfold Admits at hadmits
  rw [htotal] at hadmits
  simp only [heapLimit, kernelHeapMax] at hbound hadmits
  exact ⟨t, h₁, hne, by omega, fun _ => by omega⟩

/-- `_malloc` is exact first fit: after at most one page of growth it takes the lowest
    run of chunks that is long enough, and maps more pages only as long as there is
    none.  With frames for these pages it returns, unless the directory of a process
    is in use. -/
theorem kmalloc_firstFit (kernel : Kernel) (es : List HeapEvent) (s : HeapState)
    (hrun : Runs heapStep always (.boot kernel) es s) (size : Nat) (hsize : size < 2 ^ 29)
    (hadmits : s.kernel.Admits size) :
    (∀ ptr k, s.kernel.kmalloc size = .ok (ptr, k) →
      ∃ s₁ j s₂ a, (s₁ = s.kernel ∨ s.kernel.heapGrow = .ok s₁) ∧ s.kernel.growIfLow = .ok s₁ ∧
        FirstFit s₁ (chunksNeeded size) j s₂ a k ∧ ptr = a + heapBlockSize) ∧
    (Supplies (searchPages size + 2) s.kernel.pfa → ∀ e, s.kernel.kmalloc size = .error e →
      e = .pageFault ∧ s.kernel.cr3 ≠ none) := by
  obtain ⟨L, h⟩ := hrun.invariant (fun s => ∃ L, RunInv s L) ⟨[], runInv_boot kernel⟩
    fun _ _ _ ⟨_, h⟩ _ hstep => h.step hstep
  have hpos := (chunksNeeded_spec hsize).1
  have hcall := kmalloc_of_admits hadmits
  cases hlow : s.kernel.growIfLow with
  | error e =>
      rw [hlow] at hcall
      refine ⟨fun ptr k hres => ?_, fun hframes e' herr => ?_⟩
      · rw [hcall] at hres
        cases hres
      · rw [hcall] at herr
        cases herr
        -- growing the heap has failed already
        have hgrow : s.kernel.heapGrow = .error e := by
          unfold growIfLow at hlow
          simp only at hlow
          split at hlow
          · exact hlow
          · split at hlow
            · exact hlow
            · cases hlow
        exact (heapGrow_error_cases hgrow).resolve_left hframes.1
  | ok s₁ =>
      rw [hlow] at hcall
      obtain ⟨t, h₁, hne, hbound, hroom⟩ := h.heap.search_room hsize hadmits hlow
      refine ⟨fun ptr k hres => ?_, fun hframes e herr => ?_⟩
      · rw [hcall] at hres
        obtain ⟨j, s₂, pre, post, hsearch, htake⟩ := h₁.mallocLoop_search hpos hne hbound hroom hres
        obtain ⟨hfit, hptr⟩ := hsearch.firstFit hpos htake
        exact ⟨s₁, j, s₂, _, growIfLow_cases hlow, rfl, hfit, hptr⟩
      · rw [hcall] at herr
        have hpage := pageChunks_pos
        -- the pages searched for hold the request, and there are rounds enough for them
        have hpages : chunksNeeded size ≤ pageChunks * searchPages size := by
          have hdiv := Nat.div_add_mod (chunksNeeded size + pageChunks - 1) pageChunks
          have hmod := Nat.mod_lt (chunksNeeded size + pageChunks - 1) hpage
          unfold searchPages
          omega
        have hfuel : searchPages size ≤ chunksNeeded size := by
          unfold searchPages
          refine Nat.le_of_lt_succ ((Nat.div_lt_iff_lt_mul hpage).mpr ?_)
          have hmul : chunksNeeded size ≤ chunksNeeded size * pageChunks :=
            Nat.le_mul_of_pos_right _ hpage
          rw [Nat.succ_mul]
          omega
        have hframes₁ : Supplies (searchPages size + 1) s₁.pfa := by
          rcases growIfLow_cases hlow with rfl | hgrow
          · exact hframes.mono (Nat.le_succ _)
          · exact heapGrow_pfa hgrow ▸ hframes.2
        obtain ⟨hfault, hcr3⟩ := h₁.mallocLoop_supplied hpos hne (by omega) hfuel hbound hroom
          hframes₁ herr
        refine ⟨hfault, ?_⟩
        rcases growIfLow_cases hlow with rfl | hgrow
        · exact hcr3
        · exact absurd ((heapGrow_mapped hgrow).cr3.1.trans (heapGrow_mapped hgrow).cr3.2) hcr3

/-- A request of two chunks comes into the hole of three. -/
theorem kmalloc_hole {s : Kernel} (h : HeapOk s holeLayout) :
    ∃ s', s.kmalloc 5000 = .ok (kernelHeapStart + heapBlockSize, s') := by
  have heq := pageChunks_eq
  have hnext := holeLayout_nextAddr h
  have htwo : chunksNeeded 5000 = 2 := by decide
  obtain ⟨post, hpost⟩ : ∃ post,
      post = freeBlk :: usedBlk 1 :: List.replicate (pageChunks - 4) freeBlk := ⟨_, rfl⟩
  have hsplit : holeLayout = [] ++ List.replicate (chunksNeeded 5000) freeBlk ++ post := by
    rw [htwo, hpost]
    rfl
  have hlow : s.growIfLow = .ok s := by
    have hfree : s.heap.freeChunks = 3 + (pageChunks - 4) := by
      rw [h.freeChunks, holeLayout, freeBlocks_append, freeBlocks, freeBlocks_replicate,
        freeBlocks_replicate, if_neg (by decide), Nat.zero_add]
    have hused : s.heap.usedChunks = 1 := by
      rw [h.usedChunks, holeLayout, usedChunks_append, Layout.usedChunks, usedChunks_replicate,
        usedChunks_replicate]
      rfl
    rw [growIfLow, hfree, hused, heq]
    rfl
  rw [hsplit] at h
  obtain ⟨m, hcall, -⟩ := kmalloc_fits 5000 (by rw [hnext]; decide) hlow (by decide) h
    (firstRun_of_used (by decide) (fun _ hb => absurd hb List.not_mem_nil) post)
    (by rw [hpost]; exact List.cons_ne_nil _ _) (by rw [hnext]; decide)
  exact ⟨_, hcall⟩

/-- The hole is the first run that is long enough. -/
theorem kmalloc_firstFit_hole : ∃ s : HeapState,
    Runs heapStep always (.boot coldKernel)
      [.kmalloc 10000, .kmalloc 100, .kfree (kernelHeapStart + heapBlockSize)] s ∧
    ∃ ptr k, s.kernel.kmalloc 5000 = .ok (ptr, k) ∧
      ∃ s₁ j s₂ a, FirstFit s₁ (chunksNeeded 5000) j s₂ a k ∧ ptr = a + heapBlockSize := by
  obtain ⟨s₁, s₂, s₃, hfirst, hsecond, hthird, -, hok⟩ := exists_hole
  have hrun : Runs heapStep always (.boot coldKernel)
      ([] ++ [.kmalloc 10000] ++ [.kmalloc 100] ++ [.kfree (kernelHeapStart + heapBlockSize)]) s₃ :=
    ((Runs.nil.snoc trivial hfirst).snoc trivial hsecond).snoc trivial hthird
  obtain ⟨k, hcall⟩ := kmalloc_hole hok
  have hadmits : s₃.kernel.Admits 5000 := by
    unfold Admits
    rw [holeLayout_nextAddr hok]
    decide
  obtain ⟨hfit, -⟩ := kmalloc_firstFit coldKernel _ s₃ hrun 5000 (by decide) hadmits
  obtain ⟨t₁, j, t₂, a, -, -, hfound, hptr⟩ := hfit _ k hcall
  exact ⟨s₃, hrun, _, k, hcall, t₁, j, t₂, a, hfound, hptr⟩

end Kernel

end Icarius
