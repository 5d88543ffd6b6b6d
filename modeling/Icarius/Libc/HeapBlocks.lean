/-
  Icarius.Libc.HeapBlocks

  The list of all blocks of the user heap (`Blocks`), what it means for a heap to be in
  order (`WellFormed`), and what marking a block and joining two neighbours do to it.
-/

import Icarius.Libc.HeapLists

namespace Icarius

open Icarius.Lib

namespace Libc

/-! ## Blocks -/

/-- A block of the heap: where its header is, the bytes of its payload, and whether its
    `free` is set -/
structure Block where
  addr : Nat
  size : Nat
  isFree : Bool
  deriving DecidableEq, Repr

namespace Block

/-- The bytes of the block, its header included -/
def len (b : Block) : Nat := headerSize + b.size

/-- The pointer the user has -/
def payload (b : Block) : Nat := b.addr + headerSize

/-- `b` with the block `c` behind it -/
def join (b c : Block) : Block := { b with size := b.size + c.len }

def setFree (b : Block) (v : Bool) : Block := { b with isFree := v }

/-- The two blocks `_split_block` makes of `b` -/
def front (b : Block) (alignedSize : Nat) : Block := { b with size := alignedSize }

def rest (b : Block) (alignedSize : Nat) : Block :=
  ⟨b.addr + headerSize + alignedSize, b.size - alignedSize - headerSize, true⟩

theorem len_pos (b : Block) : 0 < b.len := by
  simp only [len, headerSize]
  omega

@[simp] theorem join_addr (b c : Block) : (b.join c).addr = b.addr := rfl

@[simp] theorem join_isFree (b c : Block) : (b.join c).isFree = b.isFree := rfl

@[simp] theorem setFree_addr (b : Block) (v : Bool) : (b.setFree v).addr = b.addr := rfl

@[simp] theorem setFree_size (b : Block) (v : Bool) : (b.setFree v).size = b.size := rfl

@[simp] theorem setFree_isFree (b : Block) (v : Bool) : (b.setFree v).isFree = v := rfl

@[simp] theorem setFree_len (b : Block) (v : Bool) : (b.setFree v).len = b.len := rfl

@[simp] theorem front_addr (b : Block) (alignedSize : Nat) :
    (b.front alignedSize).addr = b.addr := rfl

theorem join_len (b c : Block) : (b.join c).len = b.len + c.len :=
  (Nat.add_assoc headerSize b.size c.len).symm

end Block

/-- The headers of the blocks -/
def addrs (bs : List Block) : List Nat := bs.map Block.addr

@[simp] theorem addrs_nil : addrs [] = [] := rfl

@[simp] theorem addrs_cons (b : Block) (bs : List Block) : addrs (b :: bs) = b.addr :: addrs bs :=
  rfl

@[simp] theorem addrs_append (l₁ l₂ : List Block) : addrs (l₁ ++ l₂) = addrs l₁ ++ addrs l₂ :=
  List.map_append

theorem mem_addrs {bs : List Block} {b : Block} (hb : b ∈ bs) : b.addr ∈ addrs bs :=
  List.mem_map_of_mem hb

theorem mem_behind {l₁ l₂ : List Block} {b c d : Block} (h : d ∈ l₁ ++ l₂) :
    d ∈ l₁ ++ b :: c :: l₂ :=
  mem_middle.mpr (.inr (mem_middle.mpr (.inr h)))

/-- The memory holds the blocks `bs`, from `heap_head` on, and they fill the heap. -/
structure Blocks (s : Heap) (bs : List Block) : Prop where
  tiles : Tiles Block.addr Block.len userHeapStart bs s.heapCurr
  room : s.heapCurr ≤ userHeapEnd
  head : s.heapHead = (addrs bs).headD 0
  linked : Linked (get s.mem .next) (get s.mem .prev) 0 (addrs bs) 0
  size : ∀ b ∈ bs, get s.mem .size b.addr = b.size
  free : ∀ b ∈ bs, get s.mem .free b.addr = if b.isFree then 1 else 0

/-- `fl` holds exactly the free blocks. -/
def Exact (bs : List Block) (fl : List Nat) : Prop :=
  ∀ a, a ∈ fl ↔ ∃ b ∈ bs, b.isFree = true ∧ b.addr = a

/-- The heap holds the blocks `bs`, the free ones of them in the free list `fl`.  Nothing
    is said of `heap_tail`. -/
structure Chained (s : Heap) (bs : List Block) (fl : List Nat) : Prop where
  blocks : Blocks s bs
  list : FreeList s fl
  exact : Exact bs fl

/-- The heap is in order: `heap_tail` is the last block. -/
structure WellFormed (s : Heap) (bs : List Block) (fl : List Nat) : Prop
    extends Chained s bs fl where
  tail : s.heapTail = (addrs bs).getLastD 0

/-- No two neighbouring blocks are free. -/
def NoFreeNeighbours (bs : List Block) : Prop :=
  bs.IsChain fun a b => ¬ (a.isFree = true ∧ b.isFree = true)

theorem Exact.sub {bs : List Block} {fl : List Nat} (h : Exact bs fl) :
    ∀ x ∈ fl, x ∈ addrs bs := by
  intro x hx
  obtain ⟨b, hb, -, rfl⟩ := (h x).mp hx
  exact mem_addrs hb

/-- Pieces of the heap are headers. -/
theorem headers_of_tiles {bs : List Block} {hi : Nat}
    (h : Tiles Block.addr Block.len userHeapStart bs hi) (hroom : hi ≤ userHeapEnd) :
    Headers (addrs bs) := by
  have hend : userHeapEnd < 2 ^ 32 := by decide
  have hstart : 0 < userHeapStart := by decide
  refine ⟨fun a ha b hb => ?_, fun a ha => ?_, fun a ha => ?_⟩
  · obtain ⟨c, hc, rfl⟩ := List.mem_map.mp ha
    obtain ⟨d, hd, rfl⟩ := List.mem_map.mp hb
    rcases h.apart hc hd with rfl | hap | hap
    · exact .inl rfl
    · simp only [Block.len] at hap
      omega
    · simp only [Block.len] at hap
      omega
  · obtain ⟨c, hc, rfl⟩ := List.mem_map.mp ha
    have hin := h.bounds hc
    omega
  · obtain ⟨c, hc, rfl⟩ := List.mem_map.mp ha
    have hin := h.bounds hc
    omega

section Rules

variable {s s' : Heap} {bs l₁ l₂ : List Block} {b c : Block} {fl : List Nat}

theorem Blocks.headers (h : Blocks s bs) : Headers (addrs bs) := headers_of_tiles h.tiles h.room

theorem Blocks.bounds (h : Blocks s bs) (hb : b ∈ bs) :
    userHeapStart ≤ b.addr ∧ b.addr + b.len ≤ s.heapCurr :=
  h.tiles.bounds hb

/-- The other blocks have other headers. -/
theorem Blocks.others (h : Blocks s (l₁ ++ b :: l₂)) : ∀ c ∈ l₁ ++ l₂, c.addr ≠ b.addr := by
  intro c hc heq
  have hnodup := h.tiles.nodup_map Block.len_pos
  rw [List.map_append, List.map_cons, List.nodup_append, List.nodup_cons] at hnodup
  obtain ⟨-, ⟨hb₂, -⟩, hdisjoint⟩ := hnodup
  rcases List.mem_append.mp hc with hc | hc
  · exact hdisjoint _ (List.mem_map_of_mem hc) _ List.mem_cons_self heq
  · exact hb₂ (heq ▸ List.mem_map_of_mem hc)

/-- The links of a block -/
theorem Blocks.links (h : Blocks s (l₁ ++ b :: l₂)) :
    get s.mem .prev b.addr = (addrs l₁).getLastD 0 ∧
      get s.mem .next b.addr = (addrs l₂).headD 0 := by
  have hlinked := h.linked
  rw [addrs_append, addrs_cons, linked_append, linked_cons] at hlinked
  exact ⟨hlinked.2.1, hlinked.2.2.1⟩

/-- The payload of a block is outside all headers. -/
theorem Blocks.payload_outside (h : Blocks s bs) (hb : b ∈ bs) {x : Nat} (hlo : b.payload ≤ x)
    (hhi : x < b.addr + b.len) : ∀ a ∈ addrs bs, x < a ∨ a + headerSize ≤ x := by
  intro a ha
  obtain ⟨c, hc, rfl⟩ := List.mem_map.mp ha
  simp only [Block.payload] at hlo
  rcases h.tiles.apart hb hc with rfl | hap | hap
  · exact .inr hlo
  · exact .inl (by omega)
  · simp only [Block.len] at hap
    exact .inr (by omega)

/-- An update of the free list keeps the blocks. -/
theorem Blocks.listUpdate (h : Blocks s bs) (hup : ListUpdate (addrs bs) s s') : Blocks s' bs where
  tiles := by rw [hup.heapCurr]; exact h.tiles
  room := by rw [hup.heapCurr]; exact h.room
  head := by rw [hup.heapHead]; exact h.head
  linked := h.linked.congr (fun a ha => hup.fields a ha .next (by simp) (by simp))
    (fun a ha => hup.fields a ha .prev (by simp) (by simp))
  size b hb := by
    rw [hup.fields _ (mem_addrs hb) .size (by simp) (by simp)]
    exact h.size b hb
  free b hb := by
    rw [hup.fields _ (mem_addrs hb) .free (by simp) (by simp)]
    exact h.free b hb

/-- Only the links of the free list matter to it. -/
theorem FreeList.congr (h : FreeList s fl) (hhead : s'.freeList = s.freeList)
    (hnext : ∀ a ∈ fl, get s'.mem .nextFree a = get s.mem .nextFree a)
    (hprev : ∀ a ∈ fl, get s'.mem .prevFree a = get s.mem .prevFree a) : FreeList s' fl :=
  ⟨hhead.trans h.head, h.linked.congr hnext hprev, h.nodup⟩

/-! ## Marking a block -/

/-- `block->free = v` -/
def Heap.mark (s : Heap) (a : Nat) (v : Bool) : Heap :=
  s.setMem (set s.mem .free a (if v then 1 else 0))

theorem mark_get (h : Blocks s bs) (hb : b ∈ bs) (hc : c ∈ bs) (v : Bool) (g : Field) :
    get (s.mark b.addr v).mem g c.addr
      = if g = .free ∧ c.addr = b.addr then (if v then 1 else 0) else get s.mem g c.addr :=
  h.headers.get_set _ _ _ (mem_addrs hb) (mem_addrs hc) (by split <;> omega)

theorem Blocks.mark (h : Blocks s (l₁ ++ b :: l₂)) (v : Bool) :
    Blocks (s.mark b.addr v) (l₁ ++ b.setFree v :: l₂) := by
  have haddrs : addrs (l₁ ++ b.setFree v :: l₂) = addrs (l₁ ++ b :: l₂) := by simp
  have hb : b ∈ l₁ ++ b :: l₂ := by simp
  have hget : ∀ c ∈ l₁ ++ b :: l₂, ∀ g, g ≠ .free →
      get (s.mark b.addr v).mem g c.addr = get s.mem g c.addr := by
    intro c hc g hg
    rw [mark_get h hb hc, if_neg fun hx => hg hx.1]
  have hlink : ∀ a ∈ addrs (l₁ ++ b :: l₂), ∀ g, g ≠ .free →
      get (s.mark b.addr v).mem g a = get s.mem g a := by
    intro a ha g hg
    obtain ⟨c, hc, rfl⟩ := List.mem_map.mp ha
    exact hget c hc g hg
  refine ⟨?_, h.room, ?_, ?_, fun c hc => ?_, fun c hc => ?_⟩
  · have htiles := h.tiles
    rw [tiles_append] at htiles ⊢
    exact htiles
  · rw [haddrs]
    exact h.head
  · rw [haddrs]
    exact h.linked.congr (fun a ha => hlink a ha .next (by simp))
      (fun a ha => hlink a ha .prev (by simp))
  · rcases mem_middle.mp hc with rfl | hc
    · exact (hget b hb .size (by simp)).trans (h.size b hb)
    · have hin : c ∈ l₁ ++ b :: l₂ := mem_middle.mpr (.inr hc)
      exact (hget c hin .size (by simp)).trans (h.size c hin)
  · rcases mem_middle.mp hc with rfl | hc
    · exact (mark_get h hb hb v .free).trans (if_pos ⟨rfl, rfl⟩)
    · have hin : c ∈ l₁ ++ b :: l₂ := mem_middle.mpr (.inr hc)
      rw [mark_get h hb hin v .free, if_neg fun hx => h.others c hc hx.2]
      exact h.free c hin

theorem FreeList.mark (h : FreeList s fl) (hH : Headers (addrs bs)) (hb : b ∈ bs)
    (hsub : ∀ x ∈ fl, x ∈ addrs bs) (v : Bool) : FreeList (s.mark b.addr v) fl := by
  have hget : ∀ x ∈ fl, ∀ g, g ≠ .free → get (s.mark b.addr v).mem g x = get s.mem g x := by
    intro x hx g hg
    refine (hH.get_set _ _ _ (mem_addrs hb) (hsub x hx) ?_).trans (if_neg fun hx => hg hx.1)
    split <;> omega
  exact h.congr rfl (fun x hx => hget x hx .nextFree (by simp))
    (fun x hx => hget x hx .prevFree (by simp))

/-! ## Joining two neighbours -/

@[simp] theorem absorb_heapHead (s : Heap) (a g₀ : Nat) :
    (s.absorb a g₀).heapHead = s.heapHead := by
  simp only [Heap.absorb, Heap.setMem]

@[simp] theorem absorb_heapTail (s : Heap) (a g₀ : Nat) :
    (s.absorb a g₀).heapTail = s.heapTail := by
  simp only [Heap.absorb, Heap.setMem]

@[simp] theorem absorb_freeList (s : Heap) (a g₀ : Nat) :
    (s.absorb a g₀).freeList = s.freeList := by
  simp only [Heap.absorb, Heap.setMem]

@[simp] theorem absorb_heapCurr (s : Heap) (a g₀ : Nat) :
    (s.absorb a g₀).heapCurr = s.heapCurr := by
  simp only [Heap.absorb, Heap.setMem]

/-- The fields after `absorb` -/
theorem absorb_get {H : List Nat} (hH : Headers H) {a g₀ x : Nat} (ha : a ∈ H) (hgone : g₀ ∈ H)
    (hne : g₀ ≠ a) (hnext : get s.mem .next g₀ ≠ 0 → get s.mem .next g₀ ∈ H) (hx : x ∈ H)
    (hsum : get s.mem .size a + (get s.mem .size g₀ + headerSize) < 2 ^ 32) (g : Field) :
    get (s.absorb a g₀).mem g x =
      if g = .prev ∧ x = get s.mem .next g₀ then a
      else if g = .next ∧ x = a then get s.mem .next g₀
      else if g = .size ∧ x = a then get s.mem .size a + (get s.mem .size g₀ + headerSize)
      else get s.mem g x := by
  have hlt := get_lt s.mem .next g₀
  -- the first two stores are in the header of `a`
  have hsize : get (set s.mem .size a (get s.mem .size a + (get s.mem .size g₀ + headerSize)))
      .next g₀ = get s.mem .next g₀ := by
    rw [hH.get_set _ _ _ ha hgone hsum, if_neg fun h => hne h.2]
  have hboth : get (set (set s.mem .size a
      (get s.mem .size a + (get s.mem .size g₀ + headerSize))) .next a (get s.mem .next g₀)) .next g₀
        = get s.mem .next g₀ := by
    rw [hH.get_set _ _ _ ha hgone hlt, if_neg fun h => hne h.2, hsize]
  simp only [Heap.absorb, Heap.setMem, hsize, hboth]
  split
  · rename_i hnull
    rw [hH.get_set _ _ _ (hnext hnull) hx (hH.lt a ha), hH.get_set _ _ _ ha hx hlt,
      hH.get_set _ _ _ ha hx hsum]
  · rename_i hnull
    have hxn : ¬ (g = .prev ∧ x = get s.mem .next g₀) := fun h =>
      hH.ne_zero hx (h.2.trans (not_not.mp hnull))
    rw [if_neg hxn, hH.get_set _ _ _ ha hx hlt, hH.get_set _ _ _ ha hx hsum]

theorem Blocks.absorb (h : Blocks s (l₁ ++ b :: c :: l₂)) :
    Blocks (s.absorb b.addr c.addr) (l₁ ++ b.join c :: l₂) := by
  have hH := h.headers
  have hb : b ∈ l₁ ++ b :: c :: l₂ := by simp
  have hc : c ∈ l₁ ++ b :: c :: l₂ := by simp
  have hsplit : l₁ ++ b :: c :: l₂ = (l₁ ++ [b]) ++ c :: l₂ := by simp
  have haddrs : addrs (l₁ ++ b.join c :: l₂) = addrs (l₁ ++ [b]) ++ addrs l₂ := by simp
  have hlinks := (hsplit ▸ h).links
  -- `c` is linked to `b` and to what stands behind it
  have hprev : get s.mem .prev c.addr = b.addr := by
    rw [hlinks.1, addrs_append, getLastD_append]
    rfl
  have hnextIn : get s.mem .next c.addr ≠ 0 → get s.mem .next c.addr ∈ addrs (l₁ ++ b :: c :: l₂) := by
    rw [hlinks.2]
    intro hne
    have hin := headD_mem hne
    simp only [addrs_append, addrs_cons, List.mem_append, List.mem_cons]
    exact .inr (.inr (.inr hin))
  have hne : c.addr ≠ b.addr := h.others c (by simp)
  have hlen := (h.bounds hb).2
  have hlenc := (h.bounds hc).2
  have hend : userHeapEnd < 2 ^ 32 := by decide
  have hroom := h.room
  have hafter : b.addr + b.len ≤ c.addr := by
    have htiles := h.tiles
    rw [tiles_append] at htiles
    obtain ⟨mid, -, hpos, hpos', -⟩ := htiles
    omega
  -- the sum of both sizes does not wrap
  have hsum : get s.mem .size b.addr + (get s.mem .size c.addr + headerSize) < 2 ^ 32 := by
    rw [h.size b hb, h.size c hc]
    simp only [Block.len] at hlen hlenc hafter
    omega
  have hget := fun x hx g => absorb_get hH (mem_addrs hb) (mem_addrs hc) hne hnextIn
    (x := x) hx hsum g
  refine ⟨?_, ?_, ?_, ?_, fun d hd => ?_, fun d hd => ?_⟩
  · -- the longer block ends where `c` did
    have htiles := h.tiles
    rw [absorb_heapCurr]
    rw [tiles_append] at htiles ⊢
    obtain ⟨mid, hfront, hposb, -, hrest⟩ := htiles
    refine ⟨mid, hfront, hposb, ?_⟩
    rw [Block.join_len, ← Nat.add_assoc]
    exact hrest
  · rw [absorb_heapCurr]
    exact hroom
  · rw [haddrs, absorb_heapHead]
    refine h.head.trans ?_
    rw [hsplit, addrs_append, headD_append, headD_append]
    simp only [addrs_append, headD_append, addrs_cons, addrs_nil, List.headD_cons]
  · -- taking `c` out of the list links its neighbours
    rw [haddrs]
    have hnodup := h.tiles.nodup_map Block.len_pos
    have hzero : 0 ∉ addrs (l₁ ++ [b]) ++ c.addr :: addrs l₂ := fun hz =>
      hH.ne_zero (by rw [hsplit, addrs_append, addrs_cons]; exact hz) rfl
    have hlinked := h.linked
    rw [hsplit, addrs_append, addrs_cons] at hlinked
    have hall : ∀ x ∈ addrs (l₁ ++ [b]) ++ c.addr :: addrs l₂, x ∈ addrs (l₁ ++ b :: c :: l₂) := by
      intro x hx
      rw [hsplit, addrs_append, addrs_cons]
      exact hx
    refine hlinked.unlink ?_ hzero hzero (fun x hx => ?_) (fun x hx => ?_)
    · rw [← addrs_cons, ← addrs_append, ← hsplit]
      exact hnodup
    · rw [hget x (hall x hx), hprev, if_neg (by simp)]
      simp only [true_and, reduceCtorEq, false_and, if_false]
    · rw [hget x (hall x hx), hprev]
      simp only [true_and, reduceCtorEq, false_and, if_false]
  · -- the size of the longer block, then the sizes of the others
    rcases mem_middle.mp hd with rfl | hd
    · refine (hget _ (mem_addrs hb) .size).trans ?_
      rw [if_neg (by simp), if_neg (by simp), if_pos ⟨rfl, rfl⟩, h.size b hb, h.size c hc]
      simp only [Block.join, Block.len]
      omega
    · have hin : d ∈ l₁ ++ b :: c :: l₂ := mem_behind hd
      have hdb : d.addr ≠ b.addr := h.others d (mem_middle.mpr (.inr hd))
      rw [hget _ (mem_addrs hin), if_neg (by simp), if_neg (by simp), if_neg fun hx => hdb hx.2]
      exact h.size d hin
  · -- the flags are not written
    have hin : ∃ e ∈ l₁ ++ b :: c :: l₂, e.addr = d.addr ∧ e.isFree = d.isFree := by
      rcases mem_middle.mp hd with rfl | hd
      · exact ⟨b, hb, rfl, rfl⟩
      · exact ⟨d, mem_behind hd, rfl, rfl⟩
    obtain ⟨e, he, haddr, hfree⟩ := hin
    rw [← haddr, ← hfree, hget _ (mem_addrs he), if_neg (by simp), if_neg (by simp),
      if_neg (by simp)]
    exact h.free e he

theorem absorb_only {H : List Nat} (hH : Headers H) {a g₀ : Nat} (ha : a ∈ H) (hgone : g₀ ∈ H)
    (hne : g₀ ≠ a) (hnext : get s.mem .next g₀ ≠ 0 → get s.mem .next g₀ ∈ H) :
    HeadersOnly H s.mem (s.absorb a g₀).mem := by
  have hkeep : ∀ f v m, get (set m f a v) .next g₀ = get m .next g₀ := by
    intro f v m
    rcases hH.apart a ha g₀ hgone with heq | hap
    · exact absurd heq.symm hne
    · exact get_set_apart m hap
  simp only [Heap.absorb, Heap.setMem, hkeep]
  have htwo := ((HeadersOnly.refl H s.mem).set ha .size
    (get s.mem .size a + (get s.mem .size g₀ + headerSize))).set ha .next (get s.mem .next g₀)
  split
  · rename_i hnull
    exact htwo.set (hnext hnull) _ _
  · exact htwo

theorem FreeList.absorb (h : FreeList s fl) (hblocks : Blocks s bs)
    (hsub : ∀ x ∈ fl, x ∈ addrs bs) (hb : b ∈ bs) (hc : c ∈ bs) (hne : c.addr ≠ b.addr)
    (hnext : get s.mem .next c.addr ≠ 0 → get s.mem .next c.addr ∈ addrs bs) :
    FreeList (s.absorb b.addr c.addr) fl := by
  have hend : userHeapEnd < 2 ^ 32 := by decide
  have hroom := hblocks.room
  have hbb := hblocks.bounds hb
  have hcb := hblocks.bounds hc
  have hap := hblocks.tiles.apart hb hc
  have hsum : get s.mem .size b.addr + (get s.mem .size c.addr + headerSize) < 2 ^ 32 := by
    rw [hblocks.size b hb, hblocks.size c hc]
    have hbc : b ≠ c := fun heq => hne (heq ▸ rfl)
    simp only [hbc, false_or, Block.len] at hap hbb hcb
    omega
  have hget := fun x hx g => absorb_get hblocks.headers (mem_addrs hb) (mem_addrs hc) hne hnext
    (x := x) (hsub x hx) hsum g
  refine h.congr (absorb_freeList s _ _) (fun x hx => ?_) (fun x hx => ?_)
  · rw [hget x hx]
    simp only [reduceCtorEq, false_and, if_false]
  · rw [hget x hx]
    simp only [reduceCtorEq, false_and, if_false]

end Rules

end Libc

end Icarius
