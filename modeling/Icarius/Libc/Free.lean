/-
  Icarius.Libc.Free

  What `free` does to a heap in order: the block and its free neighbours become one free
  block, which is the head of the free list, and nothing else changes but headers.

  Between marking the block and putting it into the free list the two lists differ by it
  (`Pending`).  A merge keeps that; which of the two merged blocks was the one in the free
  list does not matter (`Pending.join`), so the right and the left merge are one argument.
-/

import Icarius.Libc.HeapSplit
import Mathlib.Data.List.Chain
import Mathlib.Data.List.Nodup

namespace Icarius

open Icarius.Lib

namespace Libc

/-! ## The blocks after a free -/

/-- The right merge of `free`, on the list of blocks: `b` takes the free block behind it. -/
def joinRight (b : Block) : List Block → Block × List Block
  | [] => (b, [])
  | c :: l => if c.isFree then (b.join c, l) else (b, c :: l)

/-- The left merge of `free`: the free block in front of `b` takes it. -/
def joinLeft (l : List Block) (b : Block) : List Block × Block :=
  match l.getLast? with
  | none => (l, b)
  | some a => if a.isFree then (l.dropLast, a.join b) else (l, b)

/-- The blocks in front of the merged block, the merged block, and those behind it -/
def coalesce (l₁ : List Block) (b : Block) (l₂ : List Block) : List Block × Block × List Block :=
  let (b, l₂) := joinRight (b.setFree true) l₂
  let (l₁, b) := joinLeft l₁ b
  (l₁, b, l₂)

/-- All blocks after the free -/
def freed (l₁ : List Block) (b : Block) (l₂ : List Block) : List Block :=
  (coalesce l₁ b l₂).1 ++ (coalesce l₁ b l₂).2.1 :: (coalesce l₁ b l₂).2.2

section Coalesce

variable {b c : Block} {l l₁ l₂ : List Block}

theorem joinRight_of_free (h : c.isFree = true) : joinRight b (c :: l) = (b.join c, l) :=
  if_pos h

theorem joinRight_of_used (h : ∀ c ∈ l.head?, c.isFree = false) : joinRight b l = (b, l) := by
  cases l with
  | nil => rfl
  | cons c l => exact if_neg (by rw [h c rfl]; simp)

theorem joinLeft_of_free {a : Block} (h : a.isFree = true) :
    joinLeft (l ++ [a]) b = (l, a.join b) := by
  simp [joinLeft, h]

theorem joinLeft_of_used (h : ∀ a ∈ l.getLast?, a.isFree = false) : joinLeft l b = (l, b) := by
  simp only [joinLeft]
  split
  · rfl
  · rename_i a hlast
    exact if_neg (by rw [h a hlast]; simp)

/-- What is behind a block is free and joins it, or is not and stays. -/
theorem joinRight_cases (b : Block) (l : List Block) :
    (∃ c l', l = c :: l' ∧ c.isFree = true ∧ joinRight b l = (b.join c, l')) ∨
      (∀ c ∈ l.head?, c.isFree = false) ∧ joinRight b l = (b, l) := by
  cases l with
  | nil => exact .inr ⟨by simp, rfl⟩
  | cons c l =>
      cases hc : c.isFree with
      | true => exact .inl ⟨c, l, rfl, hc, joinRight_of_free hc⟩
      | false =>
          have hused : ∀ d ∈ (c :: l).head?, d.isFree = false := by
            rintro d ⟨⟩
            exact hc
          exact .inr ⟨hused, joinRight_of_used hused⟩

theorem joinLeft_cases (l : List Block) (b : Block) :
    (∃ l' a, l = l' ++ [a] ∧ a.isFree = true ∧ joinLeft l b = (l', a.join b)) ∨
      (∀ a ∈ l.getLast?, a.isFree = false) ∧ joinLeft l b = (l, b) := by
  rcases List.eq_nil_or_concat l with rfl | ⟨l', a, rfl⟩
  · exact .inr ⟨by simp, rfl⟩
  · rw [List.concat_eq_append]
    cases ha : a.isFree with
    | true => exact .inl ⟨l', a, rfl, ha, joinLeft_of_free ha⟩
    | false =>
        have hused : ∀ d ∈ (l' ++ [a]).getLast?, d.isFree = false := by
          intro d hd
          rw [List.getLast?_concat] at hd
          cases hd
          exact ha
        exact .inr ⟨hused, joinLeft_of_used hused⟩

@[simp] theorem joinRight_addr (b : Block) (l : List Block) : (joinRight b l).1.addr = b.addr := by
  rcases joinRight_cases b l with ⟨c, l', rfl, -, hjoin⟩ | ⟨-, hjoin⟩ <;> rw [hjoin]
  exact Block.join_addr b c

@[simp] theorem joinRight_isFree (b : Block) (l : List Block) :
    (joinRight b l).1.isFree = b.isFree := by
  rcases joinRight_cases b l with ⟨c, l', rfl, -, hjoin⟩ | ⟨-, hjoin⟩ <;> rw [hjoin]
  exact Block.join_isFree b c

theorem joinRight_len (b : Block) (l : List Block) : b.len ≤ (joinRight b l).1.len := by
  rcases joinRight_cases b l with ⟨c, l', rfl, -, hjoin⟩ | ⟨-, hjoin⟩ <;> rw [hjoin]
  rw [Block.join_len]
  exact Nat.le_add_right _ _

theorem joinLeft_isFree (hb : b.isFree = true) : (joinLeft l b).2.isFree = true := by
  rcases joinLeft_cases l b with ⟨l', a, rfl, ha, hjoin⟩ | ⟨-, hjoin⟩ <;> rw [hjoin]
  · exact ha
  · exact hb

/-- A used block stays as it is. -/
theorem mem_joinRight {u : Block} (hu : u.isFree = false) : u ∈ (joinRight b l).2 ↔ u ∈ l := by
  rcases joinRight_cases b l with ⟨c, l', rfl, hc, hjoin⟩ | ⟨-, hjoin⟩ <;> rw [hjoin]
  have huc : u ≠ c := by
    rintro rfl
    rw [hu] at hc
    exact absurd hc (by simp)
  simp [huc]

theorem mem_joinLeft {u : Block} (hu : u.isFree = false) : u ∈ (joinLeft l b).1 ↔ u ∈ l := by
  rcases joinLeft_cases l b with ⟨l', a, rfl, ha, hjoin⟩ | ⟨-, hjoin⟩ <;> rw [hjoin]
  have hua : u ≠ a := by
    rintro rfl
    rw [hu] at ha
    exact absurd ha (by simp)
  simp [hua]

/-- What is left behind the merged block has no free neighbours and does not start with a
    free block. -/
theorem NoFreeNeighbours.joinRight (h : NoFreeNeighbours l) (b : Block) :
    NoFreeNeighbours (joinRight b l).2 ∧ ∀ a ∈ (joinRight b l).2.head?, a.isFree = false := by
  rcases joinRight_cases b l with ⟨c, l', rfl, hc, hjoin⟩ | ⟨hused, hjoin⟩ <;> rw [hjoin]
  · refine ⟨List.IsChain.of_cons h, fun a ha => ?_⟩
    have hnot := h.rel_head? ha
    simpa [hc] using hnot
  · exact ⟨h, hused⟩

theorem NoFreeNeighbours.joinLeft (h : NoFreeNeighbours l) (b : Block) :
    NoFreeNeighbours (joinLeft l b).1 ∧ ∀ a ∈ (joinLeft l b).1.getLast?, a.isFree = false := by
  rcases joinLeft_cases l b with ⟨l', c, rfl, hc, hjoin⟩ | ⟨hused, hjoin⟩ <;> rw [hjoin]
  · obtain ⟨hfront, -, hseam⟩ := List.isChain_append.mp h
    refine ⟨hfront, fun a ha => ?_⟩
    have hnot := hseam a ha c rfl
    simpa [hc] using hnot
  · exact ⟨h, hused⟩

/-- After a free no two neighbours are free. -/
theorem NoFreeNeighbours.freed (h : NoFreeNeighbours (l₁ ++ b :: l₂)) :
    NoFreeNeighbours (freed l₁ b l₂) := by
  obtain ⟨h₁, hb, -⟩ := List.isChain_append.mp h
  obtain ⟨hback, hbackHead⟩ := NoFreeNeighbours.joinRight (List.IsChain.of_cons hb) (b.setFree true)
  obtain ⟨hfront, hfrontLast⟩ :=
    NoFreeNeighbours.joinLeft h₁ (Libc.joinRight (b.setFree true) l₂).1
  refine List.isChain_append.mpr ⟨hfront, List.isChain_cons.mpr ⟨fun a ha => ?_, hback⟩,
    fun a ha c _ => ?_⟩
  · have hused := hbackHead a ha
    simp [hused]
  · have hused := hfrontLast a ha
    simp [hused]

/-- The used blocks after a free are the others. -/
theorem mem_freed {u : Block} (hu : u.isFree = false) : u ∈ freed l₁ b l₂ ↔ u ∈ l₁ ++ l₂ := by
  have hmerged : (coalesce l₁ b l₂).2.1.isFree = true :=
    joinLeft_isFree ((joinRight_isFree _ _).trans rfl)
  have hne : u ≠ (coalesce l₁ b l₂).2.1 := by
    intro heq
    rw [← heq, hu] at hmerged
    exact absurd hmerged (by simp)
  have hright : u ∈ (coalesce l₁ b l₂).2.2 ↔ u ∈ l₂ := mem_joinRight hu
  have hleft : u ∈ (coalesce l₁ b l₂).1 ↔ u ∈ l₁ := mem_joinLeft hu
  rw [freed, mem_middle, List.mem_append, List.mem_append, hleft, hright]
  simp [hne]

/-- The merged block covers the freed one. -/
theorem coalesce_covers {lo hi : Nat} (h : Tiles Block.addr Block.len lo (l₁ ++ b :: l₂) hi) :
    (coalesce l₁ b l₂).2.1.addr ≤ b.addr ∧
      b.addr + b.len ≤ (coalesce l₁ b l₂).2.1.addr + (coalesce l₁ b l₂).2.1.len := by
  have hlen : b.len ≤ (joinRight (b.setFree true) l₂).1.len := joinRight_len (b.setFree true) l₂
  have haddr : (joinRight (b.setFree true) l₂).1.addr = b.addr := joinRight_addr _ _
  simp only [coalesce]
  rcases joinLeft_cases l₁ (joinRight (b.setFree true) l₂).1 with
    ⟨l', a, rfl, -, hjoin⟩ | ⟨-, hjoin⟩ <;> rw [hjoin]
  · rw [List.append_assoc, List.singleton_append, tiles_append] at h
    obtain ⟨mid, -, ha, hb, -⟩ := h
    rw [Block.join_addr, Block.join_len]
    omega
  · simp only
    omega

/-- The last header stays when the free merges neither it nor the block in front of it. -/
theorem freed_last (hright : ∀ c l, l₂ = c :: l → c.isFree = true → l ≠ [])
    (hleft : ∀ a ∈ l₁.getLast?, a.isFree = true → l₂ ≠ []) :
    (addrs (freed l₁ b l₂)).getLastD 0 = (addrs (l₁ ++ b :: l₂)).getLastD 0 := by
  have haddr : (joinRight (b.setFree true) l₂).1.addr = b.addr := joinRight_addr _ _
  simp only [freed, coalesce, addrs_append, addrs_cons, getLastD_append, List.getLastD_cons]
  by_cases hnil : l₂ = []
  · subst hnil
    rcases joinLeft_cases l₁ (joinRight (b.setFree true) []).1 with
      ⟨l, a, rfl, ha, -⟩ | ⟨-, hjoin⟩
    · exact absurd rfl (hleft a (by simp) ha)
    · rw [hjoin]
      rfl
  · -- the last block is behind `b`, and stays
    rcases joinRight_cases (b.setFree true) l₂ with ⟨c, l, rfl, hc, hjoin⟩ | ⟨-, hjoin⟩
    · rw [hjoin]
      cases l with
      | nil => exact absurd rfl (hright c [] rfl hc)
      | cons d l => simp only [addrs_cons, List.getLastD_cons]
    · rw [hjoin]
      cases l₂ with
      | nil => exact absurd rfl hnil
      | cons d l => simp only [addrs_cons, List.getLastD_cons]

end Coalesce

/-! ## Merging -/

/-- The block `b` is marked free and is the only free block that is not in the free list. -/
structure Pending (s : Heap) (bs : List Block) (fl : List Nat) (b : Block) : Prop where
  blocks : Blocks s bs
  list : FreeList s fl
  exact : Exact bs (b.addr :: fl)
  apart : b.addr ∉ fl
  isFree : b.isFree = true

/-- What a step of `free` leaves alone: the range of the heap, `heap_tail`, and every byte
    outside the headers `H`. -/
structure Quiet (H : List Nat) (s s' : Heap) : Prop where
  heapTail : s'.heapTail = s.heapTail
  heapCurr : s'.heapCurr = s.heapCurr
  only : HeadersOnly H s.mem s'.mem

theorem Quiet.refl (H : List Nat) (s : Heap) : Quiet H s s := ⟨rfl, rfl, .refl H s.mem⟩

theorem Quiet.trans {H : List Nat} {s s' s'' : Heap} (h₁ : Quiet H s s') (h₂ : Quiet H s' s'') :
    Quiet H s s'' :=
  ⟨h₂.heapTail.trans h₁.heapTail, h₂.heapCurr.trans h₁.heapCurr, h₁.only.trans h₂.only⟩

theorem Quiet.mono {H H' : List Nat} {s s' : Heap} (h : Quiet H s s') (hsub : ∀ a ∈ H, a ∈ H') :
    Quiet H' s s' :=
  ⟨h.heapTail, h.heapCurr, h.only.mono hsub⟩

section Merge

variable {s : Heap} {bs l₁ l₂ : List Block} {b c p a : Block} {fl f₁ f₂ : List Nat}

theorem Pending.sub (h : Pending s bs fl b) : ∀ x ∈ fl, x ∈ addrs bs := fun x hx =>
  h.exact.sub x (List.mem_cons_of_mem _ hx)

/-- The free blocks that are left when two free neighbours, one of them pending, become
    one pending block -/
theorem Exact.join (h : Exact (l₁ ++ b :: c :: l₂) (p.addr :: (f₁ ++ a.addr :: f₂)))
    (hblocks : Blocks s (l₁ ++ b :: c :: l₂)) (hb : b.isFree = true)
    (hpa : p = b ∧ a = c ∨ p = c ∧ a = b)
    (hnodup : (p.addr :: (f₁ ++ a.addr :: f₂)).Nodup) :
    Exact (l₁ ++ b.join c :: l₂) ((b.join c).addr :: (f₁ ++ f₂)) := by
  -- no other block begins where one of the two does
  have hcb : ∀ d ∈ l₁ ++ l₂, d.addr ≠ b.addr := fun d hd =>
    hblocks.others d (mem_middle.mpr (.inr hd))
  have hcc : ∀ d ∈ l₁ ++ l₂, d.addr ≠ c.addr := by
    have hsplit : l₁ ++ b :: c :: l₂ = (l₁ ++ [b]) ++ c :: l₂ := by simp
    intro d hd
    refine (hsplit ▸ hblocks).others d ?_
    rw [List.append_assoc, List.singleton_append]
    exact mem_middle.mpr (.inr hd)
  rw [List.nodup_cons, List.nodup_middle, List.nodup_cons] at hnodup
  obtain ⟨hp, ha, -⟩ := hnodup
  -- what stays in the list is neither of them
  have hpout : ∀ x ∈ f₁ ++ f₂, x ≠ p.addr ∧ x ≠ a.addr := by
    intro x hx
    refine ⟨?_, fun heq => ha (heq ▸ hx)⟩
    rintro rfl
    exact hp (mem_middle.mpr (.inr hx))
  intro z
  have hz := h z
  rw [List.mem_cons]
  constructor
  · -- a listed address is the one of the joined block or of a free block outside
    rintro (rfl | hin)
    · exact ⟨b.join c, by simp, hb, rfl⟩
    · obtain ⟨hzp, hza⟩ := hpout z hin
      obtain ⟨d, hd, hfree, rfl⟩ := hz.mp
        (List.mem_cons_of_mem _ (mem_middle.mpr (.inr hin)))
      refine ⟨d, mem_middle.mpr (.inr ?_), hfree, rfl⟩
      have hdb : d ≠ b := by
        rintro rfl
        rcases hpa with ⟨rfl, -⟩ | ⟨-, rfl⟩
        · exact hzp rfl
        · exact hza rfl
      have hdc : d ≠ c := by
        rintro rfl
        rcases hpa with ⟨-, rfl⟩ | ⟨rfl, -⟩
        · exact hza rfl
        · exact hzp rfl
      have hd' := (mem_middle.mp hd).resolve_left hdb
      exact (mem_middle.mp hd').resolve_left hdc
  · -- a free block is the joined one or has been listed before
    rintro ⟨d, hd, hfree, rfl⟩
    rcases mem_middle.mp hd with rfl | hout
    · exact .inl rfl
    · right
      have hin := hz.mpr ⟨d, mem_behind hout, hfree, rfl⟩
      have hdp : d.addr ≠ p.addr ∧ d.addr ≠ a.addr := by
        rcases hpa with ⟨rfl, rfl⟩ | ⟨rfl, rfl⟩
        · exact ⟨hcb d hout, hcc d hout⟩
        · exact ⟨hcc d hout, hcb d hout⟩
      have hlisted := (List.mem_cons.mp hin).resolve_left hdp.1
      exact (mem_middle.mp hlisted).resolve_left hdp.2

/-- Both merges: the listed one of two free neighbours is taken out of the free list, and
    the first takes the second. -/
theorem Pending.join (h : Pending s (l₁ ++ b :: c :: l₂) fl p) (hb : b.isFree = true)
    (hc : c.isFree = true) (hpa : p = b ∧ a = c ∨ p = c ∧ a = b) :
    ∃ fl', Pending ((s.bridgeFree a.addr).absorb b.addr c.addr) (l₁ ++ b.join c :: l₂) fl'
        (b.join c) ∧
      Quiet (addrs (l₁ ++ b :: c :: l₂)) s ((s.bridgeFree a.addr).absorb b.addr c.addr) := by
  have hH := h.blocks.headers
  have hbin : b ∈ l₁ ++ b :: c :: l₂ := by simp
  have hcin : c ∈ l₁ ++ b :: c :: l₂ := by simp
  have hne : c.addr ≠ b.addr := h.blocks.others c (by simp)
  -- the neighbour that is not pending is free, so the list has it
  have hlisted : a.addr ∈ fl := by
    have hin : a.addr ∈ p.addr :: fl := (h.exact a.addr).mpr (by
      rcases hpa with ⟨-, rfl⟩ | ⟨-, rfl⟩
      · exact ⟨a, hcin, hc, rfl⟩
      · exact ⟨a, hbin, hb, rfl⟩)
    rcases List.mem_cons.mp hin with heq | hin
    · rcases hpa with ⟨rfl, rfl⟩ | ⟨rfl, rfl⟩
      · exact absurd heq hne
      · exact absurd heq.symm hne
    · exact hin
  obtain ⟨f₁, f₂, rfl⟩ := List.append_of_mem hlisted
  have hn := h.list.neighbours hH h.sub
  have hlist := h.list.bridge hH h.sub
  have hup := bridgeFree_update hH hn
  have hblocks := h.blocks.listUpdate hup
  have hsplit : l₁ ++ b :: c :: l₂ = (l₁ ++ [b]) ++ c :: l₂ := by simp
  -- the block behind the second one, if there is one, is of the heap
  have hnextIn : get (s.bridgeFree a.addr).mem .next c.addr ≠ 0 →
      get (s.bridgeFree a.addr).mem .next c.addr ∈ addrs (l₁ ++ b :: c :: l₂) := by
    have hblocks' := hblocks
    rw [hsplit] at hblocks'
    rw [hblocks'.links.2]
    intro hnull
    have hin := headD_mem hnull
    simp only [addrs_append, addrs_cons, List.mem_append, List.mem_cons]
    exact .inr (.inr (.inr hin))
  have hsub : ∀ x ∈ f₁ ++ f₂, x ∈ addrs (l₁ ++ b :: c :: l₂) := fun x hx =>
    h.sub x (mem_middle.mpr (.inr hx))
  have hnodup : (p.addr :: (f₁ ++ a.addr :: f₂)).Nodup :=
    List.nodup_cons.mpr ⟨h.apart, h.list.nodup⟩
  have hbout : (b.join c).addr ∉ f₁ ++ f₂ := by
    rw [List.nodup_cons, List.nodup_middle, List.nodup_cons] at hnodup
    obtain ⟨hp, ha, -⟩ := hnodup
    rcases hpa with ⟨rfl, rfl⟩ | ⟨rfl, rfl⟩
    · exact fun hx => hp (mem_middle.mpr (.inr hx))
    · exact ha
  refine ⟨f₁ ++ f₂, ⟨hblocks.absorb, hlist.absorb hblocks hsub hbin hcin hne hnextIn,
    h.exact.join h.blocks hb hpa hnodup, hbout, hb⟩, ?_⟩
  have honly := absorb_only hH (mem_addrs hbin) (mem_addrs hcin) hne hnextIn
  refine ⟨?_, ?_, hup.only.trans honly⟩
  · rw [absorb_heapTail]
    exact hup.heapTail
  · rw [absorb_heapCurr]
    exact hup.heapCurr

/-- The right merge -/
theorem Pending.mergeRight (h : Pending s (l₁ ++ b :: l₂) fl b) :
    ∃ fl', Pending (s.mergeRight b.addr) (l₁ ++ (joinRight b l₂).1 :: (joinRight b l₂).2) fl'
        (joinRight b l₂).1 ∧
      Quiet (addrs (l₁ ++ b :: l₂)) s (s.mergeRight b.addr) := by
  have hH := h.blocks.headers
  have hnext := h.blocks.links.2
  rcases joinRight_cases b l₂ with ⟨c, l, rfl, hc, hjoin⟩ | ⟨hused, hjoin⟩
  · have hcin : c ∈ l₁ ++ b :: c :: l := by simp
    have hfree := h.blocks.free c hcin
    rw [hc, if_pos rfl] at hfree
    rw [addrs_cons, List.headD_cons] at hnext
    have hmerge : s.mergeRight b.addr = (s.bridgeFree c.addr).absorb b.addr c.addr := by
      simp only [Heap.mergeRight, hnext, hfree]
      exact if_pos ⟨hH.ne_zero (mem_addrs hcin), by omega⟩
    rw [hjoin, hmerge]
    exact h.join h.isFree hc (.inl ⟨rfl, rfl⟩)
  · have hmerge : s.mergeRight b.addr = s := by
      simp only [Heap.mergeRight, hnext]
      refine if_neg fun hx => ?_
      cases l₂ with
      | nil => exact hx.1 rfl
      | cons c l =>
          have hfree := h.blocks.free c (by simp)
          rw [hused c rfl] at hfree
          exact hx.2 hfree
    rw [hjoin, hmerge]
    exact ⟨fl, h, .refl _ s⟩

/-- The left merge -/
theorem Pending.mergeLeft (h : Pending s (l₁ ++ b :: l₂) fl b) :
    (s.mergeLeft b.addr).1 = (joinLeft l₁ b).2.addr ∧
      ∃ fl', Pending (s.mergeLeft b.addr).2 ((joinLeft l₁ b).1 ++ (joinLeft l₁ b).2 :: l₂) fl'
          (joinLeft l₁ b).2 ∧
        Quiet (addrs (l₁ ++ b :: l₂)) s (s.mergeLeft b.addr).2 := by
  have hH := h.blocks.headers
  have hprev := h.blocks.links.1
  rcases joinLeft_cases l₁ b with ⟨l, a, rfl, ha, hjoin⟩ | ⟨hused, hjoin⟩
  · have hain : a ∈ l ++ [a] ++ b :: l₂ := by simp
    have hfree := h.blocks.free a hain
    rw [ha, if_pos rfl] at hfree
    have hprevIs : get s.mem .prev b.addr = a.addr := by
      rw [hprev, addrs_append, getLastD_append]
      rfl
    have hmerge : s.mergeLeft b.addr
        = (a.addr, (s.bridgeFree a.addr).absorb a.addr b.addr) := by
      simp only [Heap.mergeLeft, hprevIs, hfree]
      exact if_pos ⟨hH.ne_zero (mem_addrs hain), by omega⟩
    rw [hjoin, hmerge]
    rw [List.append_assoc, List.singleton_append] at h ⊢
    exact ⟨rfl, h.join ha h.isFree (.inr ⟨rfl, rfl⟩)⟩
  · have hmerge : s.mergeLeft b.addr = (b.addr, s) := by
      simp only [Heap.mergeLeft, hprev]
      refine if_neg fun hx => ?_
      rcases List.eq_nil_or_concat l₁ with rfl | ⟨l, a, rfl⟩
      · exact hx.1 rfl
      · rw [List.concat_eq_append] at hused hx h
        have hlast : (addrs (l ++ [a])).getLastD 0 = a.addr := by
          rw [addrs_append, getLastD_append]
          rfl
        have hfree := h.blocks.free a (by simp)
        rw [hused a List.getLast?_concat] at hfree
        rw [hlast] at hx
        exact hx.2 hfree
    rw [hjoin, hmerge]
    exact ⟨rfl, fl, h, .refl _ s⟩

/-- The marked block is pending. -/
theorem Chained.pending (h : Chained s (l₁ ++ b :: l₂) fl) (hused : b.isFree = false) :
    Pending (s.mark b.addr true) (l₁ ++ b.setFree true :: l₂) fl (b.setFree true) ∧
      Quiet (addrs (l₁ ++ b :: l₂)) s (s.mark b.addr true) := by
  have hb : b ∈ l₁ ++ b :: l₂ := by simp
  have hlisted : b.addr ∉ fl := by
    intro hin
    obtain ⟨d, hd, hfree, haddr⟩ := (h.exact _).mp hin
    rcases mem_middle.mp hd with rfl | hd
    · rw [hused] at hfree
      exact absurd hfree (by simp)
    · exact h.blocks.others d hd haddr
  refine ⟨⟨h.blocks.mark true, h.list.mark h.blocks.headers hb h.exact.sub true, fun a => ?_,
    hlisted, rfl⟩, rfl, rfl, (HeadersOnly.refl _ s.mem).set (mem_addrs hb) .free 1⟩
  rw [List.mem_cons, h.exact a]
  constructor
  · rintro (rfl | ⟨d, hd, hfree, rfl⟩)
    · exact ⟨b.setFree true, by simp, rfl, rfl⟩
    · refine ⟨d, mem_middle.mpr (.inr ?_), hfree, rfl⟩
      refine (mem_middle.mp hd).resolve_left ?_
      rintro rfl
      rw [hused] at hfree
      exact absurd hfree (by simp)
  · rintro ⟨d, hd, hfree, rfl⟩
    rcases mem_middle.mp hd with rfl | hd
    · exact .inl rfl
    · exact .inr ⟨d, mem_middle.mpr (.inr hd), hfree, rfl⟩

/-- A pending block goes into the free list. -/
theorem Pending.push (h : Pending s bs fl b) (hb : b ∈ bs) :
    Chained (s.pushFree b.addr) bs (b.addr :: fl) ∧ Quiet (addrs bs) s (s.pushFree b.addr) := by
  have hup := pushFree_update h.blocks.headers (mem_addrs hb) fun hne =>
    h.sub _ (h.list.head_mem hne)
  exact ⟨⟨h.blocks.listUpdate hup, h.list.push h.blocks.headers h.sub (mem_addrs hb) h.apart,
    h.exact⟩, hup.heapTail, hup.heapCurr, hup.only⟩

/-- `free` of a used block, past its guards -/
theorem Blocks.free_eq (h : Blocks s bs) (hb : b ∈ bs) (hused : b.isFree = false)
    (hsize : b.size ≠ 0) {block : Nat} {t : Heap}
    (hmerged : ((s.mark b.addr true).mergeRight b.addr).mergeLeft b.addr = (block, t)) :
    s.free b.payload = t.pushFree block := by
  have hin := h.bounds hb
  have hpos := b.len_pos
  have hroom := h.room
  have hend : userHeapEnd < 2 ^ 32 := by decide
  have hblock : Heap.blockOf b.payload = b.addr := by
    simp only [Heap.blockOf, Block.payload]
    omega
  have hptr : b.payload ≠ 0 := by
    simp only [Block.payload, headerSize]
    omega
  have hfree : ¬ get s.mem .free b.addr ≠ 0 := by
    rw [h.free b hb, hused]
    simp
  have hguard : ¬ (get s.mem .size b.addr = 0 ∨ b.addr < userHeapStart ∨ b.addr ≥ userHeapEnd) := by
    rw [h.size b hb]
    omega
  unfold Heap.free
  rw [if_neg hptr, hblock]
  extract_lets block' s₁ s₂
  rw [if_neg hguard, if_neg hfree]
  have hleft : s₂.mergeLeft block' = (block, t) := hmerged
  rw [hleft]

/-- `free` on the lists: the merged block is the head of the free list. -/
theorem Chained.free (h : Chained s (l₁ ++ b :: l₂) fl) (hused : b.isFree = false)
    (hsize : b.size ≠ 0) :
    ∃ fl', Chained (s.free b.payload) (freed l₁ b l₂) ((coalesce l₁ b l₂).2.1.addr :: fl') ∧
      Quiet (addrs (l₁ ++ b :: l₂)) s (s.free b.payload) := by
  have hb : b ∈ l₁ ++ b :: l₂ := by simp
  obtain ⟨hmarked, hquiet₁⟩ := h.pending hused
  obtain ⟨fl₁, hright, hquiet₂⟩ := hmarked.mergeRight
  obtain ⟨hblock, fl₂, hleft, hquiet₃⟩ := hright.mergeLeft
  rw [joinRight_addr] at hblock hleft hquiet₃
  rcases hmerged : ((s.mark b.addr true).mergeRight b.addr).mergeLeft b.addr with ⟨block, t⟩
  have heq := h.blocks.free_eq hb hused hsize hmerged
  rw [Block.setFree_addr] at hquiet₂ hblock hleft hquiet₃
  rw [hmerged] at hblock hleft hquiet₃
  subst hblock
  obtain ⟨hdone, hquiet₄⟩ := hleft.push (by simp)
  -- the headers written are headers of the list before the call
  have hsub₂ : ∀ a ∈ addrs (l₁ ++ (joinRight (b.setFree true) l₂).1 ::
      (joinRight (b.setFree true) l₂).2), a ∈ addrs (l₁ ++ b :: l₂) := by
    rcases joinRight_cases (b.setFree true) l₂ with ⟨c, l, rfl, -, hjoin⟩ | ⟨-, hjoin⟩ <;>
      rw [hjoin] <;> intro a ha
    · simp only [addrs_append, addrs_cons, Block.join_addr, Block.setFree_addr] at ha ⊢
      rw [mem_middle] at ha ⊢
      exact ha.imp_right fun hout => mem_middle.mpr (.inr hout)
    · simpa using ha
  have hsub₃ : ∀ a ∈ addrs ((joinLeft l₁ (joinRight (b.setFree true) l₂).1).1 ++
      (joinLeft l₁ (joinRight (b.setFree true) l₂).1).2 :: (joinRight (b.setFree true) l₂).2),
      a ∈ addrs (l₁ ++ (joinRight (b.setFree true) l₂).1 :: (joinRight (b.setFree true) l₂).2) := by
    rcases joinLeft_cases l₁ (joinRight (b.setFree true) l₂).1 with
      ⟨l, c, rfl, -, hjoin⟩ | ⟨-, hjoin⟩ <;> rw [hjoin] <;> intro a ha
    · simp only [addrs_append, addrs_cons, Block.join_addr, List.append_assoc,
        List.singleton_append] at ha ⊢
      rw [mem_middle] at ha ⊢
      exact ha.imp_right fun hout => mem_middle.mpr (.inr hout)
    · exact ha
  rw [heq]
  refine ⟨fl₂, hdone, ?_⟩
  have hquiet₂' : Quiet (addrs (l₁ ++ b :: l₂)) (s.mark b.addr true)
      ((s.mark b.addr true).mergeRight b.addr) := by
    simpa using hquiet₂
  exact ((hquiet₁.trans hquiet₂').trans (hquiet₃.mono hsub₂)).trans
    ((hquiet₄.mono hsub₃).mono hsub₂)

/-- A free that does not merge the last block away keeps the heap in order. -/
theorem WellFormed.free (h : WellFormed s (l₁ ++ b :: l₂) fl) (hused : b.isFree = false)
    (hsize : b.size ≠ 0)
    (hlast : (addrs (freed l₁ b l₂)).getLastD 0 = (addrs (l₁ ++ b :: l₂)).getLastD 0) :
    ∃ fl', WellFormed (s.free b.payload) (freed l₁ b l₂) fl' ∧
      Quiet (addrs (l₁ ++ b :: l₂)) s (s.free b.payload) := by
  obtain ⟨fl', hchained, hquiet⟩ := h.toChained.free hused hsize
  refine ⟨_, ⟨hchained, ?_⟩, hquiet⟩
  rw [hquiet.heapTail, hlast]
  exact h.tail

end Merge

/-! ## free -/

/-- `s'` is `s` with the block `b` freed: `c` is the free block that took it and heads the
    free list, and the other used blocks are where they were. -/
structure Coalesced (s : Heap) (bs : List Block) (b : Block) (s' : Heap) (bs' : List Block)
    (c : Block) (fl' : List Nat) : Prop where
  chained : Chained s' bs' (c.addr :: fl')
  range : s'.heapCurr = s.heapCurr
  apart : NoFreeNeighbours bs'
  merged : c ∈ bs' ∧ c.isFree = true
  covers : c.addr ≤ b.addr ∧ b.addr + b.len ≤ c.addr + c.len
  used : ∀ u, u.isFree = false → (u ∈ bs' ↔ u ∈ bs ∧ u ≠ b)
  payloads : ∀ u ∈ bs, u.isFree = false → u ≠ b → Agree s.mem s'.mem u.payload u.size

/-- Writes to headers leave the payloads alone. -/
theorem Blocks.agree {s : Heap} {bs : List Block} {m : Mem} {u : Block} (h : Blocks s bs)
    (hu : u ∈ bs) (honly : HeadersOnly (addrs bs) s.mem m) : Agree s.mem m u.payload u.size := by
  intro x hlo hhi
  refine honly x (h.payload_outside hu hlo ?_)
  simp only [Block.payload, Block.len] at hhi ⊢
  omega

/-- In a heap in order, `free` of a used block of at least one byte merges it with its free
    neighbours. -/
theorem free_coalesces {s : Heap} {bs : List Block} {fl : List Nat} {b : Block}
    (h : WellFormed s bs fl) (hapart : NoFreeNeighbours bs) (hb : b ∈ bs)
    (hused : b.isFree = false) (hsize : b.size ≠ 0) :
    ∃ bs' c fl', Coalesced s bs b (s.free b.payload) bs' c fl' := by
  obtain ⟨l₁, l₂, rfl⟩ := List.append_of_mem hb
  obtain ⟨fl', hchained, hquiet⟩ := h.toChained.free hused hsize
  have hself : b ∉ l₁ ++ l₂ := fun hin => h.blocks.others b hin rfl
  refine ⟨freed l₁ b l₂, (coalesce l₁ b l₂).2.1, fl', hchained, hquiet.heapCurr, hapart.freed,
    ⟨?_, ?_⟩, coalesce_covers h.blocks.tiles, fun u hu => ?_, fun u hu _ _ => ?_⟩
  · simp [freed]
  · exact joinLeft_isFree ((joinRight_isFree _ _).trans rfl)
  · rw [mem_freed hu, mem_middle]
    constructor
    · exact fun hin => ⟨.inr hin, fun heq => hself (heq ▸ hin)⟩
    · exact fun hin => hin.1.resolve_left hin.2
  · exact h.blocks.agree hu hquiet.only

/-- The heap before the first call is in order. -/
theorem wellFormed_empty (m : Mem) : WellFormed (.empty m) [] [] where
  blocks := ⟨rfl, (by decide : userHeapStart ≤ userHeapEnd), rfl, trivial, by simp, by simp⟩
  list := ⟨rfl, trivial, List.nodup_nil⟩
  exact := by simp [Exact]
  tail := rfl

/-- A heap of one free block: 128 bytes, allocated and freed -/
def onceFreed : Heap :=
  ((Heap.empty fun _ => 0).makeNewBlock 128).2.free (userHeapStart + headerSize)

theorem wellFormed_onceFreed : ∃ fl, WellFormed onceFreed [⟨userHeapStart, 128, true⟩] fl := by
  have h : WellFormed ((Heap.empty fun _ => 0).makeNewBlock 128).2
      ([] ++ ⟨userHeapStart, 128, false⟩ :: []) [] :=
    ((wellFormed_empty fun _ => 0).makeNewBlock (by decide)).1
  obtain ⟨fl, hfreed, -⟩ := h.free rfl (by decide) rfl
  exact ⟨fl, hfreed⟩

/-- Four blocks of eight bytes -/
def fourBlocks : Heap :=
  ((((Heap.empty fun _ => 0).makeNewBlock 8).2.makeNewBlock 8).2.makeNewBlock 8).2.makeNewBlock 8
    |>.2

/-- The first and the third of them freed again -/
def twoHoles : Heap :=
  (fourBlocks.free (userHeapStart + headerSize)).free (userHeapStart + 64 + headerSize)

theorem wellFormed_twoHoles : ∃ fl, WellFormed twoHoles [⟨userHeapStart, 8, true⟩,
    ⟨userHeapStart + 32, 8, false⟩, ⟨userHeapStart + 64, 8, true⟩,
    ⟨userHeapStart + 96, 8, false⟩] fl := by
  have h₁ := ((wellFormed_empty fun _ => 0).makeNewBlock (A := 8) (by decide)).1
  have h₂ := (h₁.makeNewBlock (A := 8) (by decide)).1
  have h₃ := (h₂.makeNewBlock (A := 8) (by decide)).1
  have h₄ : WellFormed fourBlocks ([] ++ ⟨userHeapStart, 8, false⟩ ::
      [⟨userHeapStart + 32, 8, false⟩, ⟨userHeapStart + 64, 8, false⟩,
        ⟨userHeapStart + 96, 8, false⟩]) [] := (h₃.makeNewBlock (by decide)).1
  obtain ⟨fl, hfirst, -⟩ := h₄.free rfl (by decide) rfl
  have hthird : WellFormed (fourBlocks.free (userHeapStart + headerSize))
      ([⟨userHeapStart, 8, true⟩, ⟨userHeapStart + 32, 8, false⟩] ++
        ⟨userHeapStart + 64, 8, false⟩ :: [⟨userHeapStart + 96, 8, false⟩]) fl := hfirst
  obtain ⟨fl', hfreed, -⟩ := hthird.free rfl (by decide) rfl
  exact ⟨fl', hfreed⟩

/-- The block between two free ones merges with both. -/
theorem free_coalesces_between : ∃ bs' c fl', Coalesced twoHoles
    [⟨userHeapStart, 8, true⟩, ⟨userHeapStart + 32, 8, false⟩, ⟨userHeapStart + 64, 8, true⟩,
      ⟨userHeapStart + 96, 8, false⟩] ⟨userHeapStart + 32, 8, false⟩
    (twoHoles.free (userHeapStart + 32 + headerSize)) bs' c fl' := by
  obtain ⟨fl, hwf⟩ := wellFormed_twoHoles
  exact free_coalesces hwf (by simp [NoFreeNeighbours]) (by simp) rfl (by decide)

/-- The block that `malloc(SIZE_MAX)` makes on the first call has no payload, and `free`
    returns without freeing it. -/
theorem exists_free_refused : ∃ s : Heap, ∃ bs fl b,
    (Heap.empty fun _ => 0).malloc (2 ^ 32 - 1) = some (b.payload, s) ∧ WellFormed s bs fl ∧
      NoFreeNeighbours bs ∧ b ∈ bs ∧ b.isFree = false ∧
      ¬ ∃ bs' c fl', Coalesced s bs b (s.free b.payload) bs' c fl' := by
  have hwf := ((wellFormed_empty fun _ => 0).makeNewBlock (A := 0) (by decide)).1
  have hmalloc := malloc_of_noFit (s := Heap.empty fun _ => 0) (show 2 ^ 32 - 1 ≠ 0 by decide)
    (by decide +kernel)
  refine ⟨((Heap.empty fun _ => 0).makeNewBlock 0).2, [⟨userHeapStart, 0, false⟩], [],
    ⟨userHeapStart, 0, false⟩, hmalloc, hwf, .singleton _, List.mem_cons_self, rfl, ?_⟩
  rintro ⟨bs', c, fl', h⟩
  -- the free list stays empty, but the merged block would be its head
  have hnull : (((Heap.empty fun _ => 0).makeNewBlock 0).2.free
      (Block.payload ⟨userHeapStart, 0, false⟩)).freeList = 0 := by decide +kernel
  have hhead := h.chained.list.head
  rw [hnull] at hhead
  exact h.chained.blocks.headers.ne_zero (mem_addrs h.merged.1) hhead.symm

end Libc

end Icarius
