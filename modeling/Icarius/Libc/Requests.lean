/-
  Icarius.Libc.Requests

  What `malloc` and `calloc` do with a request of any 32-bit size.  As long as the new block
  would end below `2 ^ 32`, the request is refused and the heap stays as it is, or it is
  served from a block of the heap (`malloc_cases`).  Beyond that `ALIGN8`, the header and
  the heap pointer wrap, each in its own range, and the guard compares what is left.
-/

import Icarius.Libc.BestFit

namespace Icarius

open Icarius.Lib

namespace Libc

/-! ## Requests that do not wrap -/

/-- Every payload is a multiple of eight bytes. -/
def Aligned (bs : List Block) : Prop := ∀ b ∈ bs, b.size % 8 = 0

/-- The bytes of a block for `size` bytes, its header included, without wrapping -/
def blockBytes (size : Nat) : Nat := (size + 7) / 8 * 8 + headerSize

/-- `s'` is `s` with a block `b` allocated for `size` bytes. -/
structure Allocated (s : Heap) (bs : List Block) (size : Nat) (b : Block) (s' : Heap)
    (bs' : List Block) (fl' : List Nat) : Prop where
  wellFormed : WellFormed s' bs' fl'
  mem : b ∈ bs'
  isUsed : b.isFree = false
  holds : size ≤ b.size
  used : ∀ u, u.isFree = false → (u ∈ bs' ↔ u = b ∨ u ∈ bs)
  fresh : ∀ u ∈ bs, u.isFree = false → u.addr ≠ b.addr
  only : HeadersOnly (addrs bs') s.mem s'.mem
  apart : NoFreeNeighbours bs → NoFreeNeighbours bs'
  aligned : Aligned bs → Aligned bs'

section Cases

variable {s : Heap} {bs l₁ l₂ : List Block} {b : Block} {fl : List Nat} {size A : Nat}

theorem align8_of_lt (h : size + 7 < 2 ^ 32) : align8 size = (size + 7) / 8 * 8 := by
  rw [align8, Nat.mod_eq_of_lt h]

theorem Aligned.taken (h : Aligned (l₁ ++ b :: l₂)) (hA : A % 8 = 0) :
    Aligned (taken l₁ b l₂ A) := by
  have hb := h b (by simp)
  simp only [Libc.taken]
  split <;> intro c hc
  · rcases mem_middle.mp hc with rfl | hc
    · exact hA
    · rcases mem_middle.mp hc with rfl | hc
      · simp only [Block.rest, headerSize]
        omega
      · exact h c (mem_middle.mpr (.inr hc))
  · rcases mem_middle.mp hc with rfl | hc
    · exact hb
    · exact h c (mem_middle.mpr (.inr hc))

/-- The reuse of a free block allocates it. -/
theorem WellFormed.allocated_reuse (h : WellFormed s (l₁ ++ b :: l₂) fl) (hb : b.isFree = true)
    (hfit : A ≤ b.size) (hA : A % 8 = 0) (hsize : size ≤ A) :
    ∃ fl', Allocated s (l₁ ++ b :: l₂) size (takenBlock b A) (s.reuse b.addr A) (taken l₁ b l₂ A)
      fl' := by
  obtain ⟨fl', hdone, -, honly⟩ := h.reuse hb hfit
  refine ⟨fl', hdone, takenBlock_mem, takenBlock_isFree b A, ?_, fun u hu => mem_taken hu hb,
    fun u hu hused => ?_, honly, fun hapart => hapart.taken hb, fun haligned => haligned.taken hA⟩
  · exact Nat.le_trans hsize (takenBlock_size hfit)
  · rw [takenBlock_addr]
    refine h.blocks.others u ((mem_middle.mp hu).resolve_left ?_)
    rintro rfl
    rw [hb] at hused
    exact absurd hused (by simp)

/-- So does the new block at the end of the heap. -/
theorem WellFormed.allocated_new (h : WellFormed s bs fl)
    (hroom : s.heapCurr + (A + headerSize) < userHeapEnd) (hA : A % 8 = 0) (hsize : size ≤ A) :
    Allocated s bs size (s.freshBlock A) (s.makeNewBlock A).2 (bs ++ [s.freshBlock A]) fl := by
  obtain ⟨hdone, honly⟩ := h.makeNewBlock hroom
  refine ⟨hdone, by simp, rfl, hsize, fun u hu => ?_, fun u hu _ => ?_, honly, fun hapart => ?_,
    fun haligned c hc => ?_⟩
  · rw [List.mem_append, List.mem_singleton, or_comm]
  · have hin := (h.blocks.bounds hu).2
    have hpos := u.len_pos
    simp only [Heap.freshBlock]
    omega
  · refine List.isChain_append.mpr ⟨hapart, .singleton _, fun a _ c hc => ?_⟩
    cases hc
    simp [Heap.freshBlock]
  · rcases List.mem_append.mp hc with hc | hc
    · exact haligned c hc
    · obtain rfl := List.mem_singleton.mp hc
      exact hA

/-- The pointer `_make_new_block` returns -/
theorem makeNewBlock_fst (s : Heap) (A : Nat) :
    (s.makeNewBlock A).1 =
      if userHeapEnd ≤ (s.heapCurr + (A + headerSize) % 2 ^ 32) % 2 ^ 32 then 0
      else s.heapCurr + headerSize := by
  unfold Heap.makeNewBlock
  extract_lets newBlockSize newBlock
  split <;> rfl

/-- `_make_new_block` refuses. -/
theorem makeNewBlock_refused (h : userHeapEnd ≤ (s.heapCurr + (A + headerSize) % 2 ^ 32) % 2 ^ 32) :
    s.makeNewBlock A = (0, s) := by
  unfold Heap.makeNewBlock
  extract_lets newBlockSize
  exact if_pos h

/-- A request that does not wrap is refused, and nothing changes, or it is served. -/
theorem malloc_cases (h : WellFormed s bs fl) (hsize : size ≠ 0)
    (hwrap : s.heapCurr + blockBytes size < 2 ^ 32) :
    s.malloc size = some (0, s) ∨
      ∃ b s' bs' fl', s.malloc size = some (b.payload, s') ∧ Allocated s bs size b s' bs' fl' := by
  have hlt : size + 7 < 2 ^ 32 := by
    simp only [blockBytes, headerSize] at hwrap
    omega
  have haligned := align8_of_lt hlt
  have hA : align8 size % 8 = 0 := by
    rw [haligned]
    omega
  have hle : size ≤ align8 size := by
    rw [haligned]
    omega
  obtain ⟨r, hsearch, hbest⟩ := h.toChained.findBestFit (A := align8 size) (by omega)
  rcases h.toChained.best_block hbest with ⟨rfl, -⟩ | ⟨b, hb, hfree, rfl, hfits, -⟩
  · have hmalloc := malloc_of_noFit hsize hsearch
    have hbytes : s.heapCurr + (align8 size + headerSize) < 2 ^ 32 := by
      rw [haligned]
      exact hwrap
    have hsum : (s.heapCurr + (align8 size + headerSize) % 2 ^ 32) % 2 ^ 32
        = s.heapCurr + (align8 size + headerSize) := by
      rw [Nat.mod_eq_of_lt (a := align8 size + headerSize) (by omega), Nat.mod_eq_of_lt hbytes]
    by_cases hroom : s.heapCurr + (align8 size + headerSize) < userHeapEnd
    · have hdone := h.allocated_new hroom hA hle
      have hfst := makeNewBlock_fst s (align8 size)
      rw [hsum, if_neg (Nat.not_le.mpr hroom)] at hfst
      rcases hnew : s.makeNewBlock (align8 size) with ⟨ptr, t⟩
      rw [hnew] at hmalloc hdone hfst
      subst hfst
      exact .inr ⟨s.freshBlock (align8 size), t, _, fl, hmalloc, hdone⟩
    · refine .inl ?_
      rw [hmalloc, makeNewBlock_refused]
      rw [hsum]
      exact Nat.le_of_not_lt hroom
  · have hmalloc := malloc_of_fit hsize hsearch (h.blocks.headers.ne_zero (mem_addrs hb))
    obtain ⟨l₁, l₂, rfl⟩ := List.append_of_mem hb
    obtain ⟨fl', hdone⟩ := h.allocated_reuse hfree hfits hA hle
    refine .inr ⟨_, _, _, fl', ?_, hdone⟩
    rw [hmalloc, Block.payload, takenBlock_addr]

end Cases

/-! ## Requests of any size -/

/-- The allocator state and the headers are as before. -/
structure Untouched (s : Heap) (bs : List Block) (s' : Heap) : Prop where
  heapHead : s'.heapHead = s.heapHead
  heapTail : s'.heapTail = s.heapTail
  freeList : s'.freeList = s.freeList
  heapCurr : s'.heapCurr = s.heapCurr
  headers : ∀ b ∈ bs, ∀ f, get s'.mem f b.addr = get s.mem f b.addr

/-- The block behind `ptr` is inside the heap and has room for `size` bytes. -/
structure Serves (s' : Heap) (ptr size : Nat) : Prop where
  lower : userHeapStart + headerSize ≤ ptr
  upper : ptr + get s'.mem .size (Heap.blockOf ptr) ≤ userHeapEnd + 1
  room : size ≤ get s'.mem .size (Heap.blockOf ptr)

/-- The call returned; it failed and changed nothing, or it returned a block that serves. -/
def Clean (s : Heap) (bs : List Block) (size : Nat) (r : Option (Nat × Heap)) : Prop :=
  ∃ ptr s', r = some (ptr, s') ∧ (ptr = 0 ∧ Untouched s bs s' ∨ Serves s' ptr size)

/-- The requests that are dealt with cleanly: none, those that do not wrap, and those whose
    wrapped block length does not fit either. -/
def CleanRequest (s : Heap) (size : Nat) : Prop :=
  size = 0 ∨ s.heapCurr + blockBytes size < 2 ^ 32 ∨
    2 ^ 32 ≤ blockBytes size ∧ userHeapEnd ≤ s.heapCurr + (blockBytes size - 2 ^ 32)

section Requests

variable {s s' : Heap} {bs bs' : List Block} {b : Block} {fl fl' : List Nat} {size ptr : Nat}

theorem untouched_refl (s : Heap) (bs : List Block) : Untouched s bs s :=
  ⟨rfl, rfl, rfl, rfl, fun _ _ _ => rfl⟩

theorem blockOf_payload (h : Blocks s bs) (hb : b ∈ bs) : Heap.blockOf b.payload = b.addr := by
  have hin := h.bounds hb
  have hpos := b.len_pos
  have hroom := h.room
  have hend : userHeapEnd < 2 ^ 32 := by decide
  simp only [Heap.blockOf, Block.payload]
  omega

theorem Allocated.serves (h : Allocated s bs size b s' bs' fl') : Serves s' b.payload size := by
  have hin := h.wellFormed.blocks.bounds h.mem
  have hroom := h.wellFormed.blocks.room
  have hholds := h.holds
  have hget : get s'.mem .size (Heap.blockOf b.payload) = b.size := by
    rw [blockOf_payload h.wellFormed.blocks h.mem]
    exact h.wellFormed.blocks.size b h.mem
  simp only [Block.len] at hin
  refine ⟨?_, ?_, ?_⟩
  · simp only [Block.payload]
    omega
  · rw [hget]
    simp only [Block.payload]
    omega
  · rw [hget]
    exact hholds

/-- A block that serves a request close to `2 ^ 32` is not inside the heap. -/
theorem not_clean_of_fst {r : Nat × Heap} (hptr : r.1 = s.heapCurr + headerSize)
    (hbig : userHeapEnd + 1 < s.heapCurr + headerSize + size) : ¬ Clean s bs size (some r) := by
  rintro ⟨ptr, s', heq, hclean⟩
  obtain rfl := Option.some.inj heq
  rcases hclean with ⟨hnull, -⟩ | hserves
  · simp only [headerSize] at hptr
    omega
  · have hroom := hserves.room
    have hupper := hserves.upper
    omega

/-- A request that wraps goes to `_make_new_block`: no free block is that large. -/
theorem malloc_of_wrap (h : WellFormed s bs fl) (hlt : size < 2 ^ 32)
    (hwrap : 2 ^ 32 ≤ s.heapCurr + blockBytes size) :
    s.malloc size = some (s.makeNewBlock (align8 size)) := by
  have hroom := h.blocks.room
  have hend : userHeapEnd < 2 ^ 30 := by decide
  have hsize : size ≠ 0 := by
    rintro rfl
    simp only [blockBytes, headerSize] at hwrap
    omega
  refine malloc_of_noFit hsize ?_
  by_cases hA : align8 size = 0
  · rw [Heap.findBestFitFreeBlock, if_pos hA]
  · obtain ⟨r, hsearch, hbest⟩ := h.toChained.findBestFit hA
    rcases h.toChained.best_block hbest with ⟨rfl, -⟩ | ⟨b, hb, -, -, hfits, -⟩
    · exact hsearch
    · have hin := (h.blocks.bounds hb).2
      simp only [Block.len, align8, blockBytes, headerSize] at hin hA hfits hwrap
      omega

/-- `malloc` is clean exactly on these requests. -/
theorem malloc_clean_iff (h : WellFormed s bs fl) (hlt : size < 2 ^ 32) :
    Clean s bs size (s.malloc size) ↔ CleanRequest s size := by
  have hroom := h.blocks.room
  have hstart : userHeapStart ≤ s.heapCurr := h.blocks.tiles.le
  have hend : userHeapEnd < 2 ^ 30 := by decide
  have hnull : ∀ {r}, r = some (0, s) → Clean s bs size r := fun hr =>
    ⟨0, s, hr, .inl ⟨rfl, untouched_refl s bs⟩⟩
  by_cases hwrap : s.heapCurr + blockBytes size < 2 ^ 32
  · refine ⟨fun _ => .inr (.inl hwrap), fun _ => ?_⟩
    by_cases hsize : size = 0
    · exact hnull (if_pos hsize)
    · rcases malloc_cases h hsize hwrap with hrefused | ⟨b, s', bs', fl', hdone, hserved⟩
      · exact hnull hrefused
      · exact ⟨b.payload, s', hdone, .inr hserved.serves⟩
  · have hmalloc := malloc_of_wrap h hlt (Nat.le_of_not_lt hwrap)
    have hsize : size ≠ 0 := by
      rintro rfl
      simp only [blockBytes, headerSize] at hwrap
      omega
    have hbytes : blockBytes size = (size + 7) / 8 * 8 + 24 := rfl
    have halign : align8 size = (size + 7) % 2 ^ 32 / 8 * 8 := rfl
    have hheader : headerSize = 24 := rfl
    have hfst := makeNewBlock_fst s (align8 size)
    rw [hmalloc]
    by_cases hagain :
        2 ^ 32 ≤ blockBytes size ∧ userHeapEnd ≤ s.heapCurr + (blockBytes size - 2 ^ 32)
    · refine ⟨fun _ => .inr (.inr hagain), fun _ => hnull (congrArg some ?_)⟩
      refine makeNewBlock_refused ?_
      omega
    · constructor
      · intro hclean
        refine absurd hclean (not_clean_of_fst (hfst.trans (if_neg ?_)) ?_)
        · omega
        · omega
      · rintro (hz | hz | hz)
        · exact absurd hz hsize
        · exact absurd hz hwrap
        · exact absurd hz hagain

/-- The `memset` of `calloc` is behind the header. -/
theorem serves_fill {n : Nat} :
    Serves (s'.setMem (s'.mem.fill ptr n 0)) ptr size ↔ Serves s' ptr size := by
  have hget : userHeapStart + headerSize ≤ ptr → ptr ≤ userHeapEnd + 1 →
      get (s'.setMem (s'.mem.fill ptr n 0)).mem .size (Heap.blockOf ptr)
        = get s'.mem .size (Heap.blockOf ptr) := by
    intro hlo hhi
    have hend : userHeapEnd + 1 < 2 ^ 32 := by decide
    refine Mem.load_fill_of_disjoint s'.mem (.inl ?_)
    simp only [Heap.blockOf, Field.offset, headerSize] at hlo ⊢
    omega
  constructor
  · rintro ⟨hlo, hhi, hroom⟩
    have hsame := hget hlo (by omega)
    rw [hsame] at hhi hroom
    exact ⟨hlo, hhi, hroom⟩
  · rintro ⟨hlo, hhi, hroom⟩
    have hsame := hget hlo (by omega)
    rw [← hsame] at hhi hroom
    exact ⟨hlo, hhi, hroom⟩

/-- `calloc` is clean where `malloc` is, and where its own guard refuses. -/
theorem calloc_clean_iff (h : WellFormed s bs fl) (nmemb size : Nat) :
    Clean s bs (nmemb * size) (s.calloc nmemb size) ↔
      2 ^ 32 ≤ nmemb * size ∨ CleanRequest s (nmemb * size) := by
  by_cases hzero : nmemb = 0 ∨ size = 0
  · have hprod : nmemb * size = 0 := Nat.mul_eq_zero.mpr hzero
    have hcalloc : s.calloc nmemb size = some (0, s) := (if_pos hzero).trans (if_pos rfl)
    rw [hcalloc, hprod]
    exact ⟨fun _ => .inr (.inl rfl), fun _ => ⟨0, s, rfl, .inl ⟨rfl, untouched_refl s bs⟩⟩⟩
  · have hpos : 0 < size := by omega
    have hguard : nmemb > (2 ^ 32 - 1) / size ↔ 2 ^ 32 ≤ nmemb * size := by
      rw [gt_iff_lt, Nat.div_lt_iff_lt_mul hpos]
      omega
    unfold Heap.calloc
    rw [if_neg hzero]
    by_cases hmany : 2 ^ 32 ≤ nmemb * size
    · rw [if_pos (hguard.mpr hmany)]
      exact ⟨fun _ => .inl hmany, fun _ => ⟨0, s, rfl, .inl ⟨rfl, untouched_refl s bs⟩⟩⟩
    · rw [if_neg fun hx => hmany (hguard.mp hx), or_iff_right hmany,
        ← malloc_clean_iff h (Nat.lt_of_not_le hmany)]
      extract_lets totalBytes
      have htotal : nmemb * size = totalBytes := rfl
      rw [htotal]
      cases hmalloc : s.malloc totalBytes with
      | none => exact Iff.rfl
      | some r =>
          obtain ⟨ptr, t⟩ := r
          by_cases hptr : ptr = 0
          · simp only [hptr, if_true]
          · simp only [if_neg hptr]
            constructor
            · rintro ⟨p, s', heq, hclean⟩
              cases heq
              have hserves := hclean.resolve_left fun hx => hptr hx.1
              exact ⟨ptr, t, rfl, .inr (serves_fill.mp hserves)⟩
            · rintro ⟨p, s', heq, hclean⟩
              cases heq
              have hserves := hclean.resolve_left fun hx => hptr hx.1
              exact ⟨ptr, _, rfl, .inr (serves_fill.mpr hserves)⟩

/-- Every request of `malloc` and of `calloc`, in every heap in order: it is dealt with
    cleanly exactly when the block length, added to the heap pointer, does not wrap, or
    does not fit once it has wrapped. -/
theorem requests_clean_iff (h : WellFormed s bs fl) :
    (∀ size < 2 ^ 32, Clean s bs size (s.malloc size) ↔ CleanRequest s size) ∧
      ∀ nmemb < 2 ^ 32, ∀ size < 2 ^ 32, Clean s bs (nmemb * size) (s.calloc nmemb size) ↔
        2 ^ 32 ≤ nmemb * size ∨ CleanRequest s (nmemb * size) :=
  ⟨fun _ hlt => malloc_clean_iff h hlt, fun nmemb _ size _ => calloc_clean_iff h nmemb size⟩

end Requests

/-- The first call: whatever its size, and whatever the memory was -/
theorem requests_clean_iff_empty :
    (∀ size < 2 ^ 32, Clean (.empty fun _ => 0) [] size ((Heap.empty fun _ => 0).malloc size) ↔
        CleanRequest (.empty fun _ => 0) size) ∧
      ∀ nmemb < 2 ^ 32, ∀ size < 2 ^ 32,
        Clean (.empty fun _ => 0) [] (nmemb * size) ((Heap.empty fun _ => 0).calloc nmemb size) ↔
          2 ^ 32 ≤ nmemb * size ∨ CleanRequest (.empty fun _ => 0) (nmemb * size) :=
  requests_clean_iff (wellFormed_empty fun _ => 0)

/-- `malloc(SIZE_MAX)` returns a block without a byte of payload. -/
theorem exists_request_unclean : ∃ s : Heap, ∃ bs fl, WellFormed s bs fl ∧
    ∃ size < 2 ^ 32, s.malloc size = some (userHeapStart + headerSize, (s.makeNewBlock 0).2) ∧
      get (s.makeNewBlock 0).2.mem .size userHeapStart = 0 ∧
      ¬ Clean s bs size (s.malloc size) := by
  have h := wellFormed_empty fun _ => 0
  refine ⟨_, _, _, h, 2 ^ 32 - 1, by decide, ?_, by decide +kernel, ?_⟩
  · exact malloc_of_noFit (by decide) (by decide +kernel)
  · rw [malloc_of_noFit (s := .empty fun _ => 0) (show 2 ^ 32 - 1 ≠ 0 by decide)
      (by decide +kernel)]
    exact not_clean_of_fst (by decide +kernel) (by decide +kernel)

end Libc

end Icarius
