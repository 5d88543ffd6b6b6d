/-
  Icarius.Libc.BestFit

  The reuse of a free block by `malloc`: the search over the free list, the split, and the
  removal of the block from the list.

  The block that is split off is in front of the free list when the chosen one is taken out
  of it.  After the split the two lists are in order again, so the removal is the same
  argument with and without a split (`WellFormed.take`).
-/

import Icarius.Libc.Free
import Mathlib.Data.List.Perm.Subperm

namespace Icarius

open Icarius.Lib

namespace Libc

/-! ## The search -/

/-- `r` is a block of `cands` of the least size that holds `alignedSize` bytes, or null when
    none does. -/
def Best (m : Mem) (alignedSize : Nat) (cands : List Nat) (r : Nat) : Prop :=
  (r = 0 ∧ ∀ x ∈ cands, get m .size x < alignedSize) ∨
    (r ≠ 0 ∧ r ∈ cands ∧ alignedSize ≤ get m .size r ∧
      ∀ x ∈ cands, alignedSize ≤ get m .size x → get m .size r ≤ get m .size x)

section Search

variable {s : Heap} {m : Mem} {A r a p : Nat} {l seen fl : List Nat} {bs : List Block}

/-- One more candidate -/
theorem Best.step (h : Best m A seen r) (ha : a ≠ 0) :
    Best m A (seen ++ [a])
      (if get m .size a ≥ A ∧ (r = 0 ∨ get m .size a ≤ get m .size r) then a else r) := by
  split
  · rename_i htake
    obtain ⟨hfit, hbest⟩ := htake
    refine .inr ⟨ha, by simp, hfit, fun x hx hxfit => ?_⟩
    rcases List.mem_append.mp hx with hx | hx
    · rcases h with ⟨-, hnone⟩ | ⟨hr, -, -, hleast⟩
      · have hlt := hnone x hx
        omega
      · have hle := hleast x hx hxfit
        have hra := hbest.resolve_left hr
        omega
    · exact Nat.le_of_eq (congrArg _ (List.mem_singleton.mp hx).symm)
  · rename_i hkeep
    rcases h with ⟨hr, hnone⟩ | ⟨hr, hin, hfit, hleast⟩
    · refine .inl ⟨hr, fun x hx => ?_⟩
      rcases List.mem_append.mp hx with hx | hx
      · exact hnone x hx
      · rw [List.mem_singleton.mp hx]
        exact Nat.lt_of_not_le fun hle => hkeep ⟨hle, .inl hr⟩
    · refine .inr ⟨hr, List.mem_append_left _ hin, hfit, fun x hx hxfit => ?_⟩
      rcases List.mem_append.mp hx with hx | hx
      · exact hleast x hx hxfit
      · rw [List.mem_singleton.mp hx] at hxfit ⊢
        exact Nat.le_of_not_le fun hle => hkeep ⟨hxfit, .inr hle⟩

/-- The loop goes through the rest of the list. -/
theorem findBestFitLoop_spec {fuel : Nat}
    (h : Linked (get m .nextFree) (get m .prevFree) p l 0) (hnodup : l.Nodup)
    (hin : ∀ x ∈ l, userHeapStart ≤ x ∧ x < userHeapEnd) (hfuel : l.length < fuel)
    (hbest : Best m A seen r) :
    ∃ r', Heap.findBestFitLoop m A fuel (l.headD 0) r = some r' ∧ Best m A (seen ++ l) r' := by
  have hstart : 0 < userHeapStart := by decide
  induction l generalizing p seen r fuel with
  | nil =>
      obtain ⟨fuel, rfl⟩ : ∃ k, fuel = k + 1 := ⟨fuel - 1, by omega⟩
      refine ⟨r, if_pos rfl, ?_⟩
      rw [List.append_nil]
      exact hbest
  | cons a l ih =>
      obtain ⟨fuel, rfl⟩ : ∃ k, fuel = k + 1 := ⟨fuel - 1, by omega⟩
      obtain ⟨-, hnext, hrest⟩ := h
      obtain ⟨hal, hnodup⟩ := List.nodup_cons.mp hnodup
      have haIn := hin a List.mem_cons_self
      have ha : a ≠ 0 := by omega
      have hself : a ≠ get m .nextFree a := by
        rw [hnext]
        intro heq
        exact hal (heq ▸ headD_mem (heq ▸ ha))
      have hguard : ¬ (a < userHeapStart ∨ a ≥ userHeapEnd) := by omega
      obtain ⟨r', hloop, hdone⟩ := ih hrest hnodup (fun x hx => hin x (List.mem_cons_of_mem a hx))
        (show l.length < fuel by simpa using hfuel) (hbest.step ha)
      refine ⟨r', ?_, by simpa using hdone⟩
      rw [List.headD_cons, Heap.findBestFitLoop, if_neg ha, if_neg hguard, if_neg hself, hnext]
      exact hloop

/-- There are fewer free blocks than bytes in the heap. -/
theorem Chained.length_lt (h : Chained s bs fl) : fl.length < userHeapSize := by
  have hsub : fl.length ≤ (addrs bs).length :=
    (List.Nodup.subperm h.list.nodup h.exact.sub).length_le
  have hlen := h.blocks.tiles.length_le (k := 24) fun b => Nat.le_add_right headerSize b.size
  have hroom := h.blocks.room
  have hend : userHeapEnd < userHeapStart + userHeapSize := by decide
  rw [addrs, List.length_map] at hsub
  omega

/-- The search finds the best of the free blocks. -/
theorem Chained.findBestFit (h : Chained s bs fl) (hA : A ≠ 0) :
    ∃ r, s.findBestFitFreeBlock A = some r ∧ Best s.mem A fl r := by
  have hin : ∀ x ∈ fl, userHeapStart ≤ x ∧ x < userHeapEnd := by
    intro x hx
    obtain ⟨b, hb, -, rfl⟩ := (h.exact x).mp hx
    have hbounds := h.blocks.bounds hb
    have hpos := b.len_pos
    have hroom := h.blocks.room
    omega
  obtain ⟨r, hloop, hbest⟩ := findBestFitLoop_spec h.list.linked h.list.nodup hin
    h.length_lt (show Best s.mem A [] 0 from .inl ⟨rfl, by simp⟩)
  refine ⟨r, ?_, hbest⟩
  rw [Heap.findBestFitFreeBlock, if_neg hA, h.list.head]
  exact hloop

/-- What the search means for the blocks -/
theorem Chained.best_block (h : Chained s bs fl) (hbest : Best s.mem A fl r) :
    (r = 0 ∧ ∀ c ∈ bs, c.isFree = true → c.size < A) ∨
      ∃ b ∈ bs, b.isFree = true ∧ b.addr = r ∧ A ≤ b.size ∧
        ∀ c ∈ bs, c.isFree = true → A ≤ c.size → b.size ≤ c.size := by
  have hsize : ∀ c ∈ bs, c.isFree = true → c.addr ∈ fl ∧ get s.mem .size c.addr = c.size :=
    fun c hc hfree => ⟨(h.exact _).mpr ⟨c, hc, hfree, rfl⟩, h.blocks.size c hc⟩
  rcases hbest with ⟨rfl, hnone⟩ | ⟨-, hin, hfit, hleast⟩
  · refine .inl ⟨rfl, fun c hc hfree => ?_⟩
    obtain ⟨hmem, heq⟩ := hsize c hc hfree
    exact heq ▸ hnone _ hmem
  · obtain ⟨b, hb, hfree, rfl⟩ := (h.exact r).mp hin
    rw [h.blocks.size b hb] at hfit hleast
    refine .inr ⟨b, hb, hfree, rfl, hfit, fun c hc hcfree hcfit => ?_⟩
    obtain ⟨hmem, heq⟩ := hsize c hc hcfree
    exact heq ▸ hleast _ hmem (heq.symm ▸ hcfit)

end Search

/-! ## Taking the block -/

/-- The blocks after the reuse of `b` for `alignedSize` bytes -/
def taken (l₁ : List Block) (b : Block) (l₂ : List Block) (alignedSize : Nat) : List Block :=
  if alignedSize + headerSize + minBlockSize ≤ b.size then
    l₁ ++ (b.front alignedSize).setFree false :: b.rest alignedSize :: l₂
  else l₁ ++ b.setFree false :: l₂

/-- The block the user gets -/
def takenBlock (b : Block) (alignedSize : Nat) : Block :=
  if alignedSize + headerSize + minBlockSize ≤ b.size then (b.front alignedSize).setFree false
  else b.setFree false

section Take

variable {s : Heap} {l₁ l₂ : List Block} {b : Block} {fl : List Nat} {A : Nat}

@[simp] theorem takenBlock_addr (b : Block) (A : Nat) : (takenBlock b A).addr = b.addr := by
  simp only [takenBlock]
  split <;> rfl

@[simp] theorem takenBlock_isFree (b : Block) (A : Nat) : (takenBlock b A).isFree = false := by
  simp only [takenBlock]
  split <;> rfl

theorem takenBlock_size (hfit : A ≤ b.size) : A ≤ (takenBlock b A).size := by
  simp only [takenBlock]
  split
  · exact Nat.le_refl A
  · exact hfit

theorem takenBlock_mem : takenBlock b A ∈ taken l₁ b l₂ A := by
  simp only [taken, takenBlock]
  split <;> simp

/-- The end of `malloc`: a free block leaves the free list and is marked used. -/
theorem Chained.take (h : Chained s (l₁ ++ b :: l₂) fl) (hb : b.isFree = true) :
    ∃ fl', Chained ((s.removeFromFreeList b.addr).mark b.addr false) (l₁ ++ b.setFree false :: l₂)
        fl' ∧
      ((s.removeFromFreeList b.addr).mark b.addr false).heapTail = s.heapTail ∧
      ((s.removeFromFreeList b.addr).mark b.addr false).heapCurr = s.heapCurr ∧
      HeadersOnly (addrs (l₁ ++ b :: l₂)) s.mem
        ((s.removeFromFreeList b.addr).mark b.addr false).mem := by
  have hH := h.blocks.headers
  have hbin : b ∈ l₁ ++ b :: l₂ := by simp
  obtain ⟨f₁, f₂, rfl⟩ := List.append_of_mem ((h.exact b.addr).mpr ⟨b, hbin, hb, rfl⟩)
  have hn := h.list.neighbours hH h.exact.sub
  have hup := removeFromFreeList_update hH hn
  have hblocks := h.blocks.listUpdate hup
  have hlist := h.list.remove hH h.exact.sub
  have hsub : ∀ x ∈ f₁ ++ f₂, x ∈ addrs (l₁ ++ b :: l₂) := fun x hx =>
    h.exact.sub x (mem_middle.mpr (.inr hx))
  have hnodup := List.nodup_middle.mp h.list.nodup
  refine ⟨f₁ ++ f₂, ⟨hblocks.mark false, hlist.mark hH hbin hsub false, fun a => ?_⟩,
    hup.heapTail, hup.heapCurr, hup.only.set (mem_addrs hbin) .free 0⟩
  have hexact := h.exact a
  rw [mem_middle] at hexact
  constructor
  · intro ha
    obtain ⟨d, hd, hfree, rfl⟩ := hexact.mp (.inr ha)
    refine ⟨d, mem_middle.mpr (.inr ((mem_middle.mp hd).resolve_left ?_)), hfree, rfl⟩
    rintro rfl
    exact (List.nodup_cons.mp hnodup).1 ha
  · rintro ⟨d, hd, hfree, rfl⟩
    rcases mem_middle.mp hd with rfl | hd
    · exact absurd hfree (by simp)
    · exact (hexact.mpr ⟨d, mem_middle.mpr (.inr hd), hfree, rfl⟩).resolve_left
        (h.blocks.others d hd)

/-- After a split the two lists are in order. -/
theorem Split.chained {s' : Heap} (h : Split s l₁ l₂ b A fl s') (hexact : Exact (l₁ ++ b :: l₂) fl)
    (hb : b.isFree = true) : Chained s' (l₁ ++ b.front A :: b.rest A :: l₂) ((b.rest A).addr :: fl) := by
  refine ⟨h.blocks, h.list, fun a => ?_⟩
  rw [List.mem_cons, hexact a]
  constructor
  · rintro (rfl | ⟨d, hd, hfree, rfl⟩)
    · exact ⟨b.rest A, by simp, rfl, rfl⟩
    · rcases mem_middle.mp hd with rfl | hd
      · exact ⟨d.front A, by simp, hb, rfl⟩
      · exact ⟨d, mem_behind hd, hfree, rfl⟩
  · rintro ⟨d, hd, hfree, rfl⟩
    rcases mem_middle.mp hd with rfl | hd
    · exact .inr ⟨b, by simp, hb, rfl⟩
    · rcases mem_middle.mp hd with rfl | hd
      · exact .inl rfl
      · exact .inr ⟨d, mem_middle.mpr (.inr hd), hfree, rfl⟩

/-- What `malloc` does once it has found the block `b` -/
def Heap.reuse (s : Heap) (b A : Nat) : Heap :=
  let s := if get s.mem .size b ≥ (A + headerSize + minBlockSize) % 2 ^ 32 then s.splitBlock b A else s
  (s.removeFromFreeList b).mark b false

theorem WellFormed.reuse (h : WellFormed s (l₁ ++ b :: l₂) fl) (hb : b.isFree = true)
    (hfit : A ≤ b.size) :
    ∃ fl', WellFormed (s.reuse b.addr A) (taken l₁ b l₂ A) fl' ∧
      (s.reuse b.addr A).heapCurr = s.heapCurr ∧
      HeadersOnly (addrs (taken l₁ b l₂ A)) s.mem (s.reuse b.addr A).mem := by
  have hbin : b ∈ l₁ ++ b :: l₂ := by simp
  have hbounds := (h.blocks.bounds hbin).2
  have hroom := h.blocks.room
  have hend : userHeapEnd + headerSize + minBlockSize < 2 ^ 32 := by decide
  have hguard : get s.mem .size b.addr ≥ (A + headerSize + minBlockSize) % 2 ^ 32
      ↔ A + headerSize + minBlockSize ≤ b.size := by
    simp only [Block.len] at hbounds
    rw [h.blocks.size b hbin, Nat.mod_eq_of_lt (by omega)]
  simp only [Heap.reuse, hguard, taken]
  split
  · rename_i hsplit
    have hdone := h.blocks.split h.list h.exact.sub (A := A) (by omega)
    have hchained := hdone.chained h.exact hb
    obtain ⟨fl', htaken, htail, hcurr, honly⟩ := hchained.take (b := b.front A) hb
    refine ⟨fl', ⟨htaken, ?_⟩, hcurr.trans hdone.heapCurr, ?_⟩
    · exact htail.trans (by simpa using hdone.tail h.tail)
    · simpa using hdone.only.trans honly
  · obtain ⟨fl', htaken, htail, hcurr, honly⟩ := h.toChained.take hb
    refine ⟨fl', ⟨htaken, ?_⟩, hcurr, by simpa using honly⟩
    exact htail.trans (by simpa using h.tail)

/-- No free block gets a free neighbour. -/
theorem NoFreeNeighbours.taken (h : NoFreeNeighbours (l₁ ++ b :: l₂)) (hb : b.isFree = true) :
    NoFreeNeighbours (taken l₁ b l₂ A) := by
  obtain ⟨hfront, hback, -⟩ := List.isChain_append.mp h
  obtain ⟨hhead, hback⟩ := List.isChain_cons.mp hback
  simp only [Libc.taken]
  split
  · refine List.isChain_append.mpr ⟨hfront, List.isChain_cons.mpr ⟨fun a _ => by simp,
      List.isChain_cons.mpr ⟨fun a ha => ?_, hback⟩⟩, fun a _ c hc => ?_⟩
    · have hnot := hhead a ha
      simpa [Block.rest, hb] using hnot
    · cases hc
      simp
  · refine List.isChain_append.mpr ⟨hfront, List.isChain_cons.mpr ⟨fun a _ => by simp, hback⟩,
      fun a _ c hc => ?_⟩
    cases hc
    simp

/-- The used blocks are the old ones and the one that is taken. -/
theorem mem_taken {u : Block} (hu : u.isFree = false) (hb : b.isFree = true) :
    u ∈ taken l₁ b l₂ A ↔ u = takenBlock b A ∨ u ∈ l₁ ++ b :: l₂ := by
  have hub : u ≠ b := by
    rintro rfl
    rw [hu] at hb
    exact absurd hb (by simp)
  have hrest : u ≠ b.rest A := by
    rintro rfl
    exact absurd hu (by simp [Block.rest])
  simp only [taken, takenBlock]
  split <;> simp [hub, hrest, or_left_comm]

theorem mem_taken_of_mem {c : Block} (hc : c ∈ l₁ ++ l₂) : c ∈ taken l₁ b l₂ A := by
  simp only [taken]
  split
  · exact mem_behind hc
  · exact mem_middle.mpr (.inr hc)

end Take

/-! ## malloc -/

/-- `malloc`, when the search finds a block -/
theorem malloc_of_fit {s : Heap} {size b : Nat} (hsize : size ≠ 0)
    (hfit : s.findBestFitFreeBlock (align8 size) = some b) (hb : b ≠ 0) :
    s.malloc size = some (b + headerSize, s.reuse b (align8 size)) := by
  unfold Heap.malloc
  rw [if_neg hsize]
  extract_lets alignedSize
  have hfit' : s.findBestFitFreeBlock alignedSize = some b := hfit
  rw [hfit']
  exact if_pos hb

theorem align8_zero : align8 0 = 0 := rfl

/-- `s'` is `s` with the block `b` reused for `alignedSize` bytes: a free block of the least
    size that holds them, split when a free block of at least `MIN_BLOCK_SIZE` bytes is left
    over (`taken`). -/
structure Reused (s : Heap) (bs : List Block) (alignedSize : Nat) (l₁ : List Block) (b : Block)
    (l₂ : List Block) (s' : Heap) (fl' : List Nat) : Prop where
  blocks : bs = l₁ ++ b :: l₂
  isFree : b.isFree = true
  fits : alignedSize ≤ b.size
  least : ∀ c ∈ bs, c.isFree = true → alignedSize ≤ c.size → b.size ≤ c.size
  wellFormed : WellFormed s' (taken l₁ b l₂ alignedSize) fl'
  apart : NoFreeNeighbours (taken l₁ b l₂ alignedSize)
  unlisted : b.addr ∉ fl'
  range : s'.heapCurr = s.heapCurr
  payloads : ∀ c ∈ l₁ ++ l₂, Agree s.mem s'.mem c.payload c.size

/-- A request that rounds up to a number other than 0 and fits in some free block is served
    from one of the least size. -/
theorem malloc_bestFit {s : Heap} {bs : List Block} {fl : List Nat} {size : Nat}
    (h : WellFormed s bs fl) (hapart : NoFreeNeighbours bs) (haligned : align8 size ≠ 0)
    (hfit : ∃ b ∈ bs, b.isFree = true ∧ align8 size ≤ b.size) :
    ∃ l₁ b l₂ s' fl', s.malloc size = some (b.payload, s') ∧
      Reused s bs (align8 size) l₁ b l₂ s' fl' := by
  have hsize : size ≠ 0 := fun hz => haligned (hz ▸ align8_zero)
  obtain ⟨r, hsearch, hbest⟩ := h.toChained.findBestFit haligned
  rcases h.toChained.best_block hbest with ⟨-, hnone⟩ | ⟨b, hb, hfree, rfl, hfits, hleast⟩
  · obtain ⟨c, hc, hcfree, hcfit⟩ := hfit
    exact absurd (hnone c hc hcfree) (Nat.not_lt.mpr hcfit)
  · have hne := h.blocks.headers.ne_zero (mem_addrs hb)
    obtain ⟨l₁, l₂, rfl⟩ := List.append_of_mem hb
    obtain ⟨fl', hdone, hrange, honly⟩ := h.reuse hfree hfits
    have hmalloc := malloc_of_fit hsize hsearch hne
    refine ⟨l₁, b, l₂, _, fl', hmalloc, rfl, hfree, hfits, hleast, hdone, hapart.taken hfree, ?_,
      hrange, fun c hc => ?_⟩
    · intro hin
      obtain ⟨d, hd, hdfree, haddr⟩ := (hdone.exact _).mp hin
      have hsame := hdone.blocks.tiles.eq_of_pos Block.len_pos hd takenBlock_mem
        (haddr.trans (takenBlock_addr b _).symm)
      rw [hsame, takenBlock_isFree] at hdfree
      exact absurd hdfree (by simp)
    · intro x hlo hhi
      refine honly x (hdone.blocks.payload_outside (mem_taken_of_mem hc) hlo ?_)
      simp only [Block.payload, Block.len] at hhi ⊢
      omega

/-- Eight bytes from a heap of one free block -/
theorem malloc_bestFit_once : ∃ l₁ b l₂ s' fl', onceFreed.malloc 8 = some (b.payload, s') ∧
    Reused onceFreed [⟨userHeapStart, 128, true⟩] (align8 8) l₁ b l₂ s' fl' := by
  obtain ⟨fl, h⟩ := wellFormed_onceFreed
  exact malloc_bestFit h (.singleton _) (by decide) ⟨_, List.mem_cons_self, rfl, by decide⟩

/-- `malloc(0)` returns a null pointer also when a free block is there. -/
theorem exists_zero_refused : ∃ s : Heap, ∃ bs fl, WellFormed s bs fl ∧ NoFreeNeighbours bs ∧
    (∃ b ∈ bs, b.isFree = true ∧ align8 0 ≤ b.size) ∧
      ¬ ∃ l₁ b l₂ s' fl', s.malloc 0 = some (b.payload, s') ∧
        Reused s bs (align8 0) l₁ b l₂ s' fl' := by
  obtain ⟨fl, h⟩ := wellFormed_onceFreed
  refine ⟨onceFreed, _, fl, h, .singleton _, ⟨_, List.mem_cons_self, rfl, Nat.zero_le _⟩, ?_⟩
  rintro ⟨l₁, b, l₂, s', fl', hmalloc, -⟩
  have hnull : onceFreed.malloc 0 = some (0, onceFreed) := if_pos rfl
  rw [hnull] at hmalloc
  have hptr := congrArg Prod.fst (Option.some.inj hmalloc)
  simp only [Block.payload, headerSize] at hptr
  omega

end Libc

end Icarius
