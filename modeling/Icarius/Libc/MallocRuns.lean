/-
  Icarius.Libc.MallocRuns

  The user heap over whole runs: any calls of `malloc`, `calloc`, `realloc` and `free`, and
  any writes of the holders to their payloads in between.

  `free` merges without looking at `heap_tail`.  When the block it merges away is the last
  one, `heap_tail` is left inside a free block, and the next `_make_new_block` links its
  block to what is there (`exists_overlap`).  In the runs in which no free does that, the
  heap stays in order (`RunInv`).
-/

import Icarius.Lib.Run
import Icarius.Libc.Realloc

namespace Icarius

open Icarius.Lib

namespace Libc

/-! ## The machine -/

/-- The heap of a process, and the pointer and size of each allocation not yet freed. -/
structure UserHeap where
  heap : Heap
  live : List (Nat × Nat)

/-- A call, or a byte that the holder of an allocation writes to it. -/
inductive HeapCall
  | malloc (size : Nat)
  | calloc (nmemb size : Nat)
  | realloc (ptr size : Nat)
  | free (ptr : Nat)
  | write (addr : Nat) (byte : UInt8)

namespace UserHeap

/-- The heap before the first call, with any memory -/
def start (mem : Mem) : UserHeap := ⟨.empty mem, []⟩

/-- The allocations other than `ptr` -/
def without (s : UserHeap) (ptr : Nat) : List (Nat × Nat) := s.live.filter fun e => e.1 != ptr

/-- A result that is not null is live from now on. -/
def allocated (s : UserHeap) (size : Nat) : Nat × Heap → UserHeap
  | (ptr, heap) => if ptr = 0 then ⟨heap, s.live⟩ else ⟨heap, (ptr, size) :: s.live⟩

/-- The same after `realloc`: unless it failed, `ptr` is gone. -/
def reallocated (s : UserHeap) (ptr size : Nat) : Nat × Heap → UserHeap
  | (newPtr, heap) =>
      if newPtr = 0 then ⟨heap, if size = 0 then s.without ptr else s.live⟩
      else ⟨heap, (newPtr, size) :: s.without ptr⟩

end UserHeap

/-- One call.  Requests are at most `USER_HEAP_SIZE`, pointers are live or null, and holders
    write to their own payloads. -/
def userStep (s : UserHeap) : HeapCall → Option UserHeap
  | .malloc size =>
      if size ≤ userHeapSize then (s.heap.malloc size).map (s.allocated size) else none
  | .calloc nmemb size =>
      if nmemb * size ≤ userHeapSize then
        (s.heap.calloc nmemb size).map (s.allocated (nmemb * size))
      else none
  | .realloc ptr size =>
      if (ptr = 0 ∨ ptr ∈ s.live.map Prod.fst) ∧ size ≤ userHeapSize then
        (s.heap.realloc ptr size).map (s.reallocated ptr size)
      else none
  | .free ptr =>
      if ptr = 0 ∨ ptr ∈ s.live.map Prod.fst then some ⟨s.heap.free ptr, s.without ptr⟩ else none
  | .write addr byte =>
      if ∃ e ∈ s.live, e.1 ≤ addr ∧ addr < e.1 + e.2 then
        some { s with heap := s.heap.setMem (s.heap.mem.write addr [byte]) }
      else none

/-- A free of `block` merges away the block at `heap_tail`: the free one behind it, or
    itself into the free one in front of it. -/
def MergesTail (s : Heap) (block : Nat) : Prop :=
  (get s.mem .next block ≠ 0 ∧ get s.mem .free (get s.mem .next block) ≠ 0 ∧
      get s.mem .next block = s.heapTail) ∨
    (get s.mem .prev block ≠ 0 ∧ get s.mem .free (get s.mem .prev block) ≠ 0 ∧
      block = s.heapTail)

instance (s : Heap) (block : Nat) : Decidable (MergesTail s block) :=
  inferInstanceAs (Decidable (_ ∨ _))

/-- No free in the call, the one at the end of `realloc` included, merges away the block at
    `heap_tail`. -/
def KeepsTail (s : UserHeap) : HeapCall → Prop
  | .free ptr => ptr ≠ 0 → ¬ MergesTail s.heap (Heap.blockOf ptr)
  | .realloc ptr size =>
      ptr ≠ 0 →
        if size = 0 then ¬ MergesTail s.heap (Heap.blockOf ptr)
        else
          get s.heap.mem .size (Heap.blockOf ptr) < size →
            ∀ newPtr heap, s.heap.moveBlock ptr size = some (newPtr, heap) → newPtr ≠ 0 →
              ¬ MergesTail heap (Heap.blockOf ptr)
  | _ => True

/-! ## What a run keeps -/

/-- The blocks on the way from `start` along the link `f` -/
inductive Reached (m : Mem) (f : Field) (start : Nat) : Nat → Prop
  | start (h : start ≠ 0) : Reached m f start start
  | next {a : Nat} (h : Reached m f start a) (hne : get m f a ≠ 0) :
      Reached m f start (get m f a)

/-- Live payloads do not overlap each other nor the header of a block on one of the two
    lists, and are aligned and inside the heap. -/
structure Sound (s : UserHeap) : Prop where
  disjoint : s.live.Pairwise fun e f => e.1 + e.2 ≤ f.1 ∨ f.1 + f.2 ≤ e.1
  headers : ∀ e ∈ s.live, ∀ a,
    Reached s.heap.mem .next s.heap.heapHead a ∨ Reached s.heap.mem .nextFree s.heap.freeList a →
      a + headerSize ≤ e.1 ∨ e.1 + e.2 ≤ a
  aligned : ∀ e ∈ s.live, e.1 % 8 = 0
  inside : ∀ e ∈ s.live, userHeapStart ≤ e.1 ∧ e.1 + e.2 ≤ userHeapEnd

/-- The block of an allocation: it is used, and large enough. -/
structure Holds (bs : List Block) (e : Nat × Nat) (b : Block) : Prop where
  mem : b ∈ bs
  isUsed : b.isFree = false
  ptr : b.payload = e.1
  pos : 0 < e.2
  size : e.2 ≤ b.size

/-- The invariant of a run. -/
structure RunInv (s : UserHeap) (bs : List Block) (fl : List Nat) : Prop where
  wellFormed : WellFormed s.heap bs fl
  aligned : Aligned bs
  live : ∀ e ∈ s.live, ∃ b, Holds bs e b
  nodup : (s.live.map Prod.fst).Nodup

theorem runInv_start (m : Mem) : RunInv (.start m) [] [] where
  wellFormed := wellFormed_empty m
  aligned := by simp [Aligned]
  live := by simp [UserHeap.start]
  nodup := List.nodup_nil

section Lists

variable {m : Mem} {next prev : Nat → Nat} {f : Field} {l : List Nat} {a p : Nat}

/-- What is reached along a list is in it. -/
theorem Reached.mem (h : Reached m f (l.headD 0) a) (hl : Linked (get m f) prev p l 0) : a ∈ l := by
  induction h with
  | start hne => exact headD_mem hne
  | @next b _ hne ih =>
      obtain ⟨l₁, l₂, rfl⟩ := List.append_of_mem ih
      rw [linked_append, linked_cons] at hl
      rw [hl.2.2.1] at hne ⊢
      exact List.mem_append_right _ (List.mem_cons_of_mem b (headD_mem hne))

end Lists

section Sound

variable {s : UserHeap} {bs : List Block} {fl : List Nat}

theorem RunInv.sound (h : RunInv s bs fl) : Sound s where
  disjoint := by
    refine List.Pairwise.imp_of_mem ?_ (List.pairwise_map.mp h.nodup)
    intro e f he hf hne
    obtain ⟨b, hb⟩ := h.live e he
    obtain ⟨c, hc⟩ := h.live f hf
    have hbc : b ≠ c := by
      rintro rfl
      exact hne (hb.ptr.symm.trans hc.ptr)
    -- blocks tile the heap, so payloads of two of them are apart
    have hap := (h.wellFormed.blocks.tiles.apart hb.mem hc.mem).resolve_left hbc
    have hbptr := hb.ptr
    have hcptr := hc.ptr
    have hbsize := hb.size
    have hcsize := hc.size
    simp only [Block.payload, Block.len] at hap hbptr hcptr
    omega
  headers e he a ha := by
    obtain ⟨b, hb⟩ := h.live e he
    -- a header that a list comes to is the one of a block
    have hin : a ∈ addrs bs := by
      rcases ha with ha | ha
      · rw [h.wellFormed.blocks.head] at ha
        exact ha.mem h.wellFormed.blocks.linked
      · rw [h.wellFormed.list.head] at ha
        exact h.wellFormed.exact.sub a (ha.mem h.wellFormed.list.linked)
    have hout := h.wellFormed.blocks.header_outside hb.mem a hin
    have hptr := hb.ptr
    have hsize := hb.size
    simp only [Block.payload, Block.len] at hout hptr
    omega
  aligned e he := by
    obtain ⟨b, hb⟩ := h.live e he
    have haddr : 8 ∣ b.addr := h.wellFormed.blocks.tiles.dvd_pos (by decide)
      (fun c hc => by
        have hc8 := h.aligned c hc
        simp only [Block.len, headerSize]
        omega) hb.mem
    have hptr := hb.ptr
    simp only [Block.payload, headerSize] at hptr
    omega
  inside e he := by
    obtain ⟨b, hb⟩ := h.live e he
    have hin := h.wellFormed.blocks.bounds hb.mem
    have hroom := h.wellFormed.blocks.room
    have hptr := hb.ptr
    have hsize := hb.size
    simp only [Block.payload, Block.len] at hin hptr
    omega

end Sound

/-! ## Steps -/

section Steps

variable {s : UserHeap} {h : Heap} {bs l₁ l₂ : List Block} {fl : List Nat} {b : Block}
  {ptr size : Nat}

theorem Aligned.freed (ha : Aligned (l₁ ++ b :: l₂)) : Aligned (freed l₁ b l₂) := by
  have hb : b.size % 8 = 0 := ha b (by simp)
  have hjoined : ∀ c d : Block, c.size % 8 = 0 → d.size % 8 = 0 → (c.join d).size % 8 = 0 := by
    intro c d hc hd
    simp only [Block.join, Block.len, headerSize]
    omega
  have hright : (joinRight (b.setFree true) l₂).1.size % 8 = 0 ∧
      ∀ c ∈ (joinRight (b.setFree true) l₂).2, c.size % 8 = 0 := by
    rcases joinRight_cases (b.setFree true) l₂ with ⟨c, l, rfl, -, hjoin⟩ | ⟨-, hjoin⟩ <;>
      rw [hjoin]
    · exact ⟨hjoined _ _ hb (ha c (by simp)), fun d hd => ha d (by simp [hd])⟩
    · exact ⟨hb, fun d hd => ha d (by simp [hd])⟩
  obtain ⟨hmid, hback⟩ := hright
  have hleft : (joinLeft l₁ (joinRight (b.setFree true) l₂).1).2.size % 8 = 0 ∧
      ∀ c ∈ (joinLeft l₁ (joinRight (b.setFree true) l₂).1).1, c.size % 8 = 0 := by
    rcases joinLeft_cases l₁ (joinRight (b.setFree true) l₂).1 with
      ⟨l, a, rfl, -, hjoin⟩ | ⟨-, hjoin⟩ <;> rw [hjoin]
    · exact ⟨hjoined _ _ (ha a (by simp)) hmid, fun d hd => ha d (by simp [hd])⟩
    · exact ⟨hmid, fun d hd => ha d (by simp [hd])⟩
  obtain ⟨hmerged, hfront⟩ := hleft
  intro c hc
  rcases mem_middle.mp hc with rfl | hc
  · exact hmerged
  · rcases List.mem_append.mp hc with hc | hc
    · exact hfront c hc
    · exact hback c hc

/-- A free that does not merge the tail away keeps the heap in order and the other used
    blocks. -/
theorem WellFormed.free_keeps (hwf : WellFormed h bs fl) (hb : b ∈ bs) (hused : b.isFree = false)
    (hsize : b.size ≠ 0) (hkeep : ¬ MergesTail h b.addr) :
    ∃ bs' fl', WellFormed (h.free b.payload) bs' fl' ∧ (Aligned bs → Aligned bs') ∧
      ∀ u ∈ bs, u.isFree = false → u ≠ b → u ∈ bs' := by
  obtain ⟨l₁, l₂, rfl⟩ := List.append_of_mem hb
  obtain ⟨hprev, hnext⟩ := hwf.blocks.links
  have hne : ∀ c ∈ l₁ ++ b :: l₂, c.addr ≠ 0 := fun c hc =>
    hwf.blocks.headers.ne_zero (mem_addrs hc)
  have hfree : ∀ c ∈ l₁ ++ b :: l₂, c.isFree = true → get h.mem .free c.addr ≠ 0 := by
    intro c hc hcfree
    rw [hwf.blocks.free c hc, hcfree]
    exact Nat.one_ne_zero
  have hlast : (addrs (freed l₁ b l₂)).getLastD 0 = (addrs (l₁ ++ b :: l₂)).getLastD 0 :=
    freed_last ?_ ?_
  · obtain ⟨fl', hdone, -⟩ := hwf.free hused hsize hlast
    exact ⟨_, fl', hdone, Aligned.freed, fun u hu hulive hub =>
      (mem_freed hulive).mpr ((mem_middle.mp hu).resolve_left hub)⟩
  · rintro c l rfl hc rfl
    refine hkeep (.inl ?_)
    rw [hnext]
    refine ⟨hne c (by simp), hfree c (by simp) hc, ?_⟩
    rw [hwf.tail]
    simp
  · rintro a ha hafree rfl
    obtain ⟨l, rfl⟩ : ∃ l, l₁ = l ++ [a] := ⟨l₁.dropLast, (List.dropLast_append_getLast? a ha).symm⟩
    refine hkeep (.inr ?_)
    rw [hprev, addrs_append, getLastD_append]
    refine ⟨hne a (by simp), hfree a (by simp) hafree, ?_⟩
    rw [hwf.tail]
    simp

theorem RunInv.setMem (hinv : RunInv s bs fl) {m : Mem}
    (hsame : ∀ a ∈ addrs bs, Agree s.heap.mem m a headerSize) :
    RunInv ⟨s.heap.setMem m, s.live⟩ bs fl :=
  ⟨hinv.wellFormed.setMem hsame, hinv.aligned, hinv.live, hinv.nodup⟩

/-- A block that is allocated becomes live. -/
theorem RunInv.allocated (hinv : RunInv s bs fl) {t : Heap} {bs' : List Block} {fl' : List Nat}
    (hdone : Allocated s.heap bs size b t bs' fl') (hpos : 0 < size) :
    RunInv ⟨t, (b.payload, size) :: s.live⟩ bs' fl' := by
  refine ⟨hdone.wellFormed, hdone.aligned hinv.aligned, fun e he => ?_,
    List.nodup_cons.mpr ⟨fun hin => ?_, hinv.nodup⟩⟩
  · rcases List.mem_cons.mp he with rfl | he
    · exact ⟨b, hdone.mem, hdone.isUsed, rfl, hpos, hdone.holds⟩
    · obtain ⟨c, hc⟩ := hinv.live e he
      exact ⟨c, (hdone.used c hc.isUsed).mpr (.inr hc.mem), hc.isUsed, hc.ptr, hc.pos, hc.size⟩
  · obtain ⟨e, he, heq⟩ := List.mem_map.mp hin
    obtain ⟨c, hc⟩ := hinv.live e he
    have hptr : c.payload = b.payload := hc.ptr.trans heq
    refine hdone.fresh c hc.mem hc.isUsed ?_
    simp only [Block.payload] at hptr
    omega

/-- `malloc` returns, and its result may be live from then on. -/
theorem RunInv.malloc (hinv : RunInv s bs fl) (hmax : size ≤ userHeapSize) :
    ∃ r bs' fl', s.heap.malloc size = some r ∧ RunInv (s.allocated size r) bs' fl' ∧
      (r.1 ≠ 0 → ∃ b ∈ bs', b.payload = r.1 ∧ size ≤ b.size) := by
  by_cases hsize : size = 0
  · exact ⟨(0, s.heap), bs, fl, if_pos hsize, hinv, fun hx => absurd rfl hx⟩
  · have hwrap : s.heap.heapCurr + blockBytes size < 2 ^ 32 := by
      have hroom := hinv.wellFormed.blocks.room
      have hend : userHeapEnd + userHeapSize + 64 < 2 ^ 32 := by decide
      simp only [blockBytes, headerSize]
      omega
    rcases malloc_cases hinv.wellFormed hsize hwrap with hrefused | ⟨b, t, bs', fl', hdone, halloc⟩
    · exact ⟨(0, s.heap), bs, fl, hrefused, hinv, fun hx => absurd rfl hx⟩
    · have hne : b.payload ≠ 0 := by
        simp only [Block.payload, headerSize]
        omega
      refine ⟨_, bs', fl', hdone, ?_, fun _ => ⟨b, halloc.mem, rfl, halloc.holds⟩⟩
      simp only [UserHeap.allocated, if_neg hne]
      exact hinv.allocated halloc (Nat.pos_iff_ne_zero.mpr hsize)

/-- So does `calloc`: its `memset` is within the payload. -/
theorem RunInv.calloc (hinv : RunInv s bs fl) {nmemb : Nat} (hmax : nmemb * size ≤ userHeapSize) :
    ∃ r bs' fl', s.heap.calloc nmemb size = some r ∧
      RunInv (s.allocated (nmemb * size) r) bs' fl' := by
  by_cases hzero : nmemb = 0 ∨ size = 0
  · exact ⟨(0, s.heap), bs, fl, (if_pos hzero).trans (if_pos rfl), hinv⟩
  · have hpos : 0 < size := by omega
    have hguard : ¬ nmemb > (2 ^ 32 - 1) / size := by
      have hend : userHeapSize < 2 ^ 32 := by decide
      rw [gt_iff_lt, Nat.div_lt_iff_lt_mul hpos]
      omega
    obtain ⟨⟨p, t⟩, bs', fl', hmalloc, hdone, hblock⟩ := hinv.malloc hmax
    unfold Heap.calloc
    rw [if_neg hzero, if_neg hguard]
    extract_lets totalBytes
    have htotal : s.heap.malloc totalBytes = some (p, t) := hmalloc
    rw [htotal]
    by_cases hp : p = 0
    · subst hp
      exact ⟨(0, t), bs', fl', if_pos rfl, hdone⟩
    · obtain ⟨b, hb, hptr, hholds⟩ := hblock hp
      simp only [UserHeap.allocated, if_neg hp] at hdone
      refine ⟨_, bs', fl', if_neg hp, ?_⟩
      simp only [UserHeap.allocated, if_neg hp]
      refine hdone.setMem fun a ha => Mem.agree_fill t.mem ?_
      rcases hdone.wellFormed.blocks.header_outside hb a ha with hap | hap
      · exact .inl (by omega)
      · refine .inr ?_
        simp only [Block.payload, Block.len] at hptr hap
        change p + nmemb * size ≤ a
        omega

/-- A free that does not merge the tail away -/
theorem RunInv.free (hinv : RunInv s bs fl) (hlive : ptr ∈ s.live.map Prod.fst)
    (hkeep : ¬ MergesTail s.heap (Heap.blockOf ptr)) :
    ∃ bs' fl', RunInv ⟨s.heap.free ptr, s.without ptr⟩ bs' fl' := by
  obtain ⟨e, he, rfl⟩ := List.mem_map.mp hlive
  obtain ⟨b, hb⟩ := hinv.live e he
  have hpos := hb.pos
  have hsize := hb.size
  rw [← hb.ptr, blockOf_payload hinv.wellFormed.blocks hb.mem] at hkeep
  obtain ⟨bs', fl', hdone, haligned, hothers⟩ :=
    hinv.wellFormed.free_keeps hb.mem hb.isUsed (by omega) hkeep
  rw [← hb.ptr]
  refine ⟨bs', fl', hdone, haligned hinv.aligned, fun f hf => ?_,
    (List.filter_sublist.map _).nodup hinv.nodup⟩
  obtain ⟨hf, hne⟩ := List.mem_filter.mp hf
  obtain ⟨c, hc⟩ := hinv.live f hf
  have hcb : c ≠ b := by
    rintro rfl
    exact bne_iff_ne.mp hne hc.ptr.symm
  exact ⟨c, hothers c hc.mem hc.isUsed hcb, hc.isUsed, hc.ptr, hc.pos, hc.size⟩

/-- A byte that a holder writes -/
theorem RunInv.write (hinv : RunInv s bs fl) {addr : Nat} {byte : UInt8} {e : Nat × Nat}
    (he : e ∈ s.live) (hlo : e.1 ≤ addr) (hhi : addr < e.1 + e.2) :
    RunInv ⟨s.heap.setMem (s.heap.mem.write addr [byte]), s.live⟩ bs fl := by
  obtain ⟨b, hb⟩ := hinv.live e he
  have hptr := hb.ptr
  have hsize := hb.size
  refine hinv.setMem fun a ha => Mem.agree_write s.heap.mem ?_
  have hout := hinv.wellFormed.blocks.header_outside hb.mem a ha
  simp only [Block.payload, Block.len, List.length_singleton] at hptr hout ⊢
  omega

/-- No live pointer is null. -/
theorem RunInv.without_zero (hinv : RunInv s bs fl) : s.without 0 = s.live := by
  refine List.filter_eq_self.mpr fun e he => bne_iff_ne.mpr ?_
  obtain ⟨b, hb⟩ := hinv.live e he
  have hptr := hb.ptr
  simp only [Block.payload, headerSize] at hptr
  omega

/-- `realloc` in place: the allocation has another size. -/
theorem RunInv.resize (hinv : RunInv s bs fl) (hb : b ∈ bs) (hused : b.isFree = false)
    (hpos : 0 < size) (hsize : size ≤ b.size) :
    RunInv ⟨s.heap, (b.payload, size) :: s.without b.payload⟩ bs fl := by
  refine ⟨hinv.wellFormed, hinv.aligned, fun e he => ?_, List.nodup_cons.mpr ⟨?_, ?_⟩⟩
  · rcases List.mem_cons.mp he with rfl | he
    · exact ⟨b, hb, hused, rfl, hpos, hsize⟩
    · exact hinv.live e (List.mem_filter.mp he).1
  · intro hin
    obtain ⟨e, he, heq⟩ := List.mem_map.mp hin
    exact bne_iff_ne.mp (List.mem_filter.mp he).2 heq
  · exact (List.filter_sublist.map _).nodup hinv.nodup

/-- `realloc` to a new block: `malloc`, a copy into its payload, and a free. -/
theorem RunInv.move (hinv : RunInv s bs fl) (hlive : b.payload ∈ s.live.map Prod.fst) (hb : b ∈ bs)
    (hused : b.isFree = false) (hpos : 0 < size) (hmax : size ≤ userHeapSize)
    (hsmall : b.size < size) :
    ∃ p t, s.heap.moveBlock b.payload size = some (p, t) ∧
      (p = 0 → ∃ bs' fl', RunInv ⟨t, s.live⟩ bs' fl') ∧
      (p ≠ 0 → ¬ MergesTail t (Heap.blockOf b.payload) →
        ∃ bs' fl', RunInv ⟨t.free b.payload, (p, size) :: s.without b.payload⟩ bs' fl') := by
  have hwrap : s.heap.heapCurr + blockBytes size < 2 ^ 32 := by
    have hroom := hinv.wellFormed.blocks.room
    have hend : userHeapEnd + userHeapSize + 64 < 2 ^ 32 := by decide
    simp only [blockBytes, headerSize]
    omega
  have hsize : size ≠ 0 := Nat.pos_iff_ne_zero.mp hpos
  -- a move begins with `malloc`, and ends there where it is refused
  rcases malloc_cases hinv.wellFormed hsize hwrap with hrefused | ⟨c, t, bs', fl', hmalloc, halloc⟩
  · refine ⟨0, s.heap, ?_, fun _ => ⟨bs, fl, hinv⟩, fun hx => absurd rfl hx⟩
    simp only [Heap.moveBlock, hrefused, if_true]
  · have hb' : b ∈ bs' := (halloc.used b hused).mpr (.inr hb)
    have hne : c.payload ≠ 0 := by
      simp only [Block.payload, headerSize]
      omega
    have hget : get t.mem .size (Heap.blockOf b.payload) = b.size := by
      rw [blockOf_payload halloc.wellFormed.blocks hb']
      exact halloc.wellFormed.blocks.size b hb'
    have hold := halloc.holds
    refine ⟨c.payload, t.setMem (t.mem.write c.payload
        ((List.range b.size).map fun i => t.mem (b.payload + i))), ?_,
      fun hx => absurd hx hne, fun _ hkeep => ?_⟩
    · simp only [Heap.moveBlock, hmalloc, if_neg hne, hget]
    · -- the copy is a write to the new payload
      have hnew := hinv.allocated halloc hpos
      have hcopied := hnew.setMem (m := t.mem.write c.payload
          ((List.range b.size).map fun i => t.mem (b.payload + i))) fun a ha => by
        refine Mem.agree_write t.mem ?_
        have hout := halloc.wellFormed.blocks.header_outside halloc.mem a ha
        simp only [Block.payload, Block.len, List.length_map, List.length_range] at hout ⊢
        omega
      obtain ⟨bs'', fl'', hdone⟩ := hcopied.free (List.mem_cons_of_mem _ hlive) hkeep
      have hcb : (c.payload != b.payload) = true := by
        refine bne_iff_ne.mpr fun heq => halloc.fresh b hb hused ?_
        simp only [Block.payload] at heq
        omega
      have hlist : UserHeap.without ⟨t, (c.payload, size) :: s.live⟩ b.payload
          = (c.payload, size) :: s.without b.payload := List.filter_cons_of_pos hcb
      exact ⟨bs'', fl'', hlist ▸ hdone⟩

theorem RunInv.realloc (hinv : RunInv s bs fl) (hptr : ptr = 0 ∨ ptr ∈ s.live.map Prod.fst)
    (hmax : size ≤ userHeapSize) :
    ∃ r, s.heap.realloc ptr size = some r ∧ (KeepsTail s (.realloc ptr size) →
      ∃ bs' fl', RunInv (s.reallocated ptr size r) bs' fl') := by
  -- the four ways of `realloc`: as `malloc`, as `free`, in place, and a move
  by_cases hnull : ptr = 0
  · subst hnull
    obtain ⟨⟨p, t⟩, bs', fl', hmalloc, hdone, -⟩ := hinv.malloc hmax
    refine ⟨(p, t), (if_pos rfl).trans hmalloc, fun _ => ⟨bs', fl', ?_⟩⟩
    simp only [UserHeap.allocated, UserHeap.reallocated, hinv.without_zero, ite_self] at hdone ⊢
    exact hdone
  · have hlive := hptr.resolve_left hnull
    by_cases hsize : size = 0
    · refine ⟨(0, s.heap.free ptr), ?_, fun hkeep => ?_⟩
      · simp only [Heap.realloc, if_neg hnull, if_pos hsize]
      · have hkept := hkeep hnull
        rw [if_pos hsize] at hkept
        simp only [UserHeap.reallocated, if_true, if_pos hsize]
        exact hinv.free hlive hkept
    · obtain ⟨e, he, rfl⟩ := List.mem_map.mp hlive
      obtain ⟨b, hb⟩ := hinv.live e he
      have hblock := blockOf_payload hinv.wellFormed.blocks hb.mem
      have hbsize := hinv.wellFormed.blocks.size b hb.mem
      rw [← hb.ptr] at hnull hlive ⊢
      unfold Heap.realloc
      rw [if_neg hnull, if_neg hsize, hblock, hbsize]
      by_cases hfits : b.size ≥ size
      · refine ⟨_, if_pos hfits, fun _ => ⟨bs, fl, ?_⟩⟩
        simp only [UserHeap.reallocated, if_neg hnull]
        exact hinv.resize hb.mem hb.isUsed (Nat.pos_iff_ne_zero.mpr hsize) hfits
      · -- the block is too small and its contents move
        obtain ⟨p, t, hmove, hfailed, hmoved⟩ := hinv.move hlive hb.mem hb.isUsed
          (Nat.pos_iff_ne_zero.mpr hsize) hmax (Nat.lt_of_not_le hfits)
        rw [if_neg hfits, hmove]
        by_cases hp : p = 0
        · refine ⟨(0, t), if_pos hp, fun _ => ?_⟩
          simp only [UserHeap.reallocated, if_true, if_neg hsize]
          exact hfailed hp
        · refine ⟨(p, t.free b.payload), if_neg hp, fun hkeep => ?_⟩
          have hkept := hkeep hnull
          rw [if_neg hsize, hblock, hbsize] at hkept
          have hdone := hmoved hp (hblock.symm ▸ hkept (Nat.lt_of_not_le hfits) p t hmove hp)
          simp only [UserHeap.reallocated, if_neg hp]
          exact hdone

/-- One call of a run -/
theorem RunInv.step (hinv : RunInv s bs fl) {call : HeapCall} {s' : UserHeap}
    (hkeep : KeepsTail s call) (hstep : userStep s call = some s') :
    ∃ bs' fl', RunInv s' bs' fl' := by
  cases call with
  | malloc size =>
      simp only [userStep] at hstep
      split at hstep
      · rename_i hmax
        obtain ⟨r, bs', fl', hmalloc, hdone, -⟩ := hinv.malloc hmax
        rw [hmalloc, Option.map_some, Option.some.injEq] at hstep
        exact ⟨bs', fl', hstep ▸ hdone⟩
      · cases hstep
  | calloc nmemb size =>
      simp only [userStep] at hstep
      split at hstep
      · rename_i hmax
        obtain ⟨r, bs', fl', hcalloc, hdone⟩ := hinv.calloc hmax
        rw [hcalloc, Option.map_some, Option.some.injEq] at hstep
        exact ⟨bs', fl', hstep ▸ hdone⟩
      · cases hstep
  | realloc ptr size =>
      simp only [userStep] at hstep
      split at hstep
      · rename_i hlegal
        obtain ⟨r, hrealloc, hdone⟩ := hinv.realloc hlegal.1 hlegal.2
        rw [hrealloc, Option.map_some, Option.some.injEq] at hstep
        exact hstep ▸ hdone hkeep
      · cases hstep
  | free ptr =>
      simp only [userStep] at hstep
      split at hstep
      · rename_i hlegal
        obtain rfl := Option.some.inj hstep
        by_cases hnull : ptr = 0
        · subst hnull
          have hsame : s.heap.free 0 = s.heap := if_pos rfl
          rw [hsame, hinv.without_zero]
          exact ⟨bs, fl, hinv⟩
        · exact hinv.free (hlegal.resolve_left hnull) (hkeep hnull)
      · cases hstep
  | write addr byte =>
      simp only [userStep] at hstep
      split at hstep
      · rename_i hlegal
        obtain ⟨e, he, hlo, hhi⟩ := hlegal
        obtain rfl := Option.some.inj hstep
        exact ⟨bs, fl, hinv.write he hlo hhi⟩
      · cases hstep

/-- Whatever is asked of the heap within the rules, the call returns. -/
def Returns (s : UserHeap) : Prop :=
  (∀ size ≤ userHeapSize, (s.heap.malloc size).isSome) ∧
    (∀ nmemb size, nmemb * size ≤ userHeapSize → (s.heap.calloc nmemb size).isSome) ∧
      ∀ ptr size, ptr = 0 ∨ ptr ∈ s.live.map Prod.fst → size ≤ userHeapSize →
        (s.heap.realloc ptr size).isSome

theorem RunInv.returns (hinv : RunInv s bs fl) : Returns s := by
  refine ⟨fun size hmax => ?_, fun nmemb size hmax => ?_, fun ptr size hptr hmax => ?_⟩
  · obtain ⟨r, -, -, hmalloc, -⟩ := hinv.malloc hmax
    rw [hmalloc, Option.isSome_some]
  · obtain ⟨r, -, -, hcalloc, -⟩ := hinv.calloc hmax
    rw [hcalloc, Option.isSome_some]
  · obtain ⟨r, hrealloc, -⟩ := hinv.realloc hptr hmax
    rw [hrealloc, Option.isSome_some]

end Steps

/-! ## Whole runs -/

/-- In every run in which no free merges away the block at `heap_tail`, the live payloads
    stay apart from each other and from all headers, aligned and inside the heap, and every
    call returns. -/
theorem heap_sound (m : Mem) (calls : List HeapCall) (s : UserHeap)
    (hrun : Runs userStep KeepsTail (.start m) calls s) : Sound s ∧ Returns s := by
  obtain ⟨bs, fl, hinv⟩ := hrun.invariant (fun s => ∃ bs fl, RunInv s bs fl)
    ⟨[], [], runInv_start m⟩ fun _ _ _ ⟨_, _, hinv⟩ hkeep hstep => hinv.step hkeep hstep
  exact ⟨hinv.sound, hinv.returns⟩

/-- Eight bytes are allocated and freed. -/
theorem heap_sound_first : ∃ s : UserHeap,
    Runs userStep KeepsTail (.start fun _ => 0) [.malloc 8, .free 0x800018] s ∧
      Sound s ∧ Returns s := by
  have hmalloc : userStep (.start fun _ => 0) (.malloc 8)
      = some ⟨((Heap.empty fun _ => 0).makeNewBlock 8).2, [(0x800018, 8)]⟩ := by
    have hcall := malloc_of_noFit (s := Heap.empty fun _ => 0) (show 8 ≠ 0 by decide)
      (by decide +kernel)
    have hmax : 8 ≤ userHeapSize := by decide
    simp only [userStep, UserHeap.start, if_pos hmax, hcall]
    rfl
  have hfree : userStep ⟨((Heap.empty fun _ => 0).makeNewBlock 8).2, [(0x800018, 8)]⟩
      (.free 0x800018)
      = some ⟨((Heap.empty fun _ => 0).makeNewBlock 8).2.free 0x800018, []⟩ := by
    simp [userStep, UserHeap.without]
  have hkeep : KeepsTail ⟨((Heap.empty fun _ => 0).makeNewBlock 8).2, [(0x800018, 8)]⟩
      (.free 0x800018) := fun _ => by decide +kernel
  have hstart : KeepsTail (.start fun _ => 0) (.malloc 8) := trivial
  have hrun : Runs userStep KeepsTail (.start fun _ => 0) ([] ++ [.malloc 8] ++ [.free 0x800018]) _ :=
    (Runs.nil.snoc hstart hmalloc).snoc hkeep hfree
  exact ⟨_, hrun, heap_sound _ _ _ hrun⟩

/-- The calls that leave `heap_tail` inside a free block, and use it: the second block is
    merged into the first, `heap_tail` stays at its old header, and the block that is
    allocated last is linked to it and merged with it. -/
def overlapCalls : List HeapCall :=
  [.malloc 8, .malloc 8, .free 0x800018, .free 0x800038, .malloc 40, .malloc 8, .free 0x800058,
    .malloc 8]

/-- They end with two live payloads that overlap: 40 bytes at 0x800018, and 8 at 0x800038. -/
theorem exists_overlap : ∃ s : UserHeap, Runs userStep always (.start fun _ => 0) overlapCalls s ∧
    s.live = [(0x800038, 8), (0x800018, 40)] ∧ ¬ Sound s := by
  have hlive : (exec userStep always (.start fun _ => 0) overlapCalls).map UserHeap.live
      = some [(0x800038, 8), (0x800018, 40)] := by
    decide +kernel
  obtain ⟨s, hexec, heq⟩ := Option.map_eq_some_iff.mp hlive
  refine ⟨s, runs_of_exec hexec, heq, fun hsound => ?_⟩
  have hdisjoint := hsound.disjoint
  rw [heq, List.pairwise_cons] at hdisjoint
  have hap := hdisjoint.1 (0x800018, 40) (by simp)
  exact absurd hap (by decide)

end Libc

end Icarius
