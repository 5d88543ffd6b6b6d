/-
  Icarius.Memory.HeapChain

  When the kernel's memory holds a heap layout, and what the loops of `heap.c`
  over the block chain do then: formatting new chunks, searching a run of free
  blocks, taking it out of the chain and putting chunks back.
-/

import Icarius.Memory.HeapLayout

namespace Icarius

open Icarius.Lib Layout

/-! ## Header fields -/

/-- A header is its twenty bytes. -/
theorem heapBlock_congr {m n : Mem} {a : Nat} (h : Agree m n a 20) :
    heapBlock n a = heapBlock m a := by
  have hpart : ∀ {b k}, a ≤ b → b + k ≤ a + 20 → n.load k b = m.load k b := by
    intro b k hlo hhi
    exact Mem.load_congr fun x h₁ h₂ => h x (by omega) (by omega)
  simp only [heapBlock]
  rw [hpart (by omega) (by omega), hpart (by omega) (by omega), hpart (by omega) (by omega),
    hpart (by omega) (by omega), hpart (by omega) (by omega)]

/-- All fields but the last one are its first sixteen bytes. -/
theorem heapBlock_fields_congr {m n : Mem} {a : Nat} (h : Agree m n a 16) :
    (heapBlock n a).isFree = (heapBlock m a).isFree ∧
      (heapBlock n a).chunkSpan = (heapBlock m a).chunkSpan ∧
      (heapBlock n a).prev = (heapBlock m a).prev := by
  have hpart : ∀ {b k}, a ≤ b → b + k ≤ a + 16 → n.load k b = m.load k b := by
    intro b k hlo hhi
    exact Mem.load_congr fun x h₁ h₂ => h x (by omega) (by omega)
  simp only [heapBlock]
  rw [hpart (by omega) (by omega), hpart (by omega) (by omega), hpart (by omega) (by omega)]
  exact ⟨rfl, rfl, rfl⟩

section Fields

variable (m : Mem) (a : Nat)

theorem heapBlock_setIsFree (v : Bool) :
    heapBlock (setIsFree m a v) a = { heapBlock m a with isFree := v } := by
  simp only [heapBlock, setIsFree, Mem.load_store_self, HeapBlock.mk.injEq]
  refine ⟨Mem.load_store_of_disjoint m (by omega), ?_, Mem.load_store_of_disjoint m (by omega),
    Mem.load_store_of_disjoint m (by omega), Mem.load_store_of_disjoint m (by omega)⟩
  cases v <;> rfl

theorem heapBlock_setChunkSpan {v : Nat} (hv : v < 2 ^ 32) :
    heapBlock (setChunkSpan m a v) a = { heapBlock m a with chunkSpan := v } := by
  simp only [heapBlock, setChunkSpan, Mem.load_store_self, HeapBlock.mk.injEq]
  refine ⟨Mem.load_store_of_disjoint m (by omega), ?_, Nat.mod_eq_of_lt hv,
    Mem.load_store_of_disjoint m (by omega), Mem.load_store_of_disjoint m (by omega)⟩
  rw [Mem.load_store_of_disjoint m (by omega)]

theorem heapBlock_setPrev {v : Nat} (hv : v < 2 ^ 32) :
    heapBlock (setPrev m a v) a = { heapBlock m a with prev := v } := by
  simp only [heapBlock, setPrev, Mem.load_store_self, HeapBlock.mk.injEq]
  refine ⟨Mem.load_store_of_disjoint m (by omega), ?_, Mem.load_store_of_disjoint m (by omega),
    Nat.mod_eq_of_lt hv, Mem.load_store_of_disjoint m (by omega)⟩
  rw [Mem.load_store_of_disjoint m (by omega)]

theorem heapBlock_setNext {v : Nat} (hv : v < 2 ^ 32) :
    heapBlock (setNext m a v) a = { heapBlock m a with next := v } := by
  simp only [heapBlock, setNext, Mem.load_store_self, HeapBlock.mk.injEq]
  refine ⟨Mem.load_store_of_disjoint m (by omega), ?_, Mem.load_store_of_disjoint m (by omega),
    Mem.load_store_of_disjoint m (by omega), Nat.mod_eq_of_lt hv⟩
  rw [Mem.load_store_of_disjoint m (by omega)]

theorem heapBlock_initHeapBlock {size prev : Nat} (hsize : size < 2 ^ 32) (hprev : prev < 2 ^ 32) :
    heapBlock (initHeapBlock m a size prev) a = ⟨size, true, 1, prev, 0⟩ := by
  simp only [initHeapBlock]
  rw [heapBlock_setNext _ a (by omega), heapBlock_setPrev _ a hprev]
  have hbelow : Agree (setIsFree (setChunkSpan m a 1) a true)
      ((setIsFree (setChunkSpan m a 1) a true).store 4 a size) (a + 4) 16 :=
    Mem.agree_store _ (by omega)
  have hflags : ∀ {b k}, a + 4 ≤ b → b + k ≤ a + 20 →
      ((setIsFree (setChunkSpan m a 1) a true).store 4 a size).load k b
        = (setIsFree (setChunkSpan m a 1) a true).load k b := by
    intro b k hlo hhi
    exact Mem.load_congr fun x h₁ h₂ => hbelow x (by omega) (by omega)
  have hblock := heapBlock_setIsFree (setChunkSpan m a 1) a true
  rw [heapBlock_setChunkSpan m a (by omega)] at hblock
  simp only [heapBlock, HeapBlock.mk.injEq] at hblock ⊢
  refine ⟨?_, ?_, ?_, trivial, trivial⟩
  · rw [Mem.load_store_self]
    exact Nat.mod_eq_of_lt hsize
  · rw [hflags (by omega) (by omega)]
    exact hblock.2.1
  · rw [hflags (by omega) (by omega)]
    exact hblock.2.2.1

end Fields

/-- The bytes a header update leaves alone. -/
theorem initHeapBlock_apply (m : Mem) {a size prev x : Nat} (h : x < a ∨ a + 20 ≤ x) :
    initHeapBlock m a size prev x = m x := by
  have hstore : ∀ (m : Mem) {k b v : Nat}, a ≤ b → b + k ≤ a + 20 → m.store k b v x = m x := by
    intro m k b v hlo hhi
    rcases h with h | h
    · exact Mem.store_of_lt m (by omega)
    · exact Mem.store_of_ge m (by omega)
  simp only [initHeapBlock, setNext, setPrev, setIsFree, setChunkSpan]
  rw [hstore _ (by omega) (by omega), hstore _ (by omega) (by omega), hstore _ (by omega) (by omega),
    hstore _ (by omega) (by omega), hstore _ (by omega) (by omega)]

theorem setNext_apply (m : Mem) {a v x : Nat} (h : x < a + 16 ∨ a + 20 ≤ x) :
    setNext m a v x = m x :=
  h.elim (fun h => Mem.store_of_lt m h) (fun h => Mem.store_of_ge m (by omega))

theorem setPrev_apply (m : Mem) {a v x : Nat} (h : x < a + 12 ∨ a + 16 ≤ x) :
    setPrev m a v x = m x :=
  h.elim (fun h => Mem.store_of_lt m h) (fun h => Mem.store_of_ge m (by omega))

theorem setIsFree_apply (m : Mem) {a x : Nat} {v : Bool} (h : x < a + 4 ∨ a + 5 ≤ x) :
    setIsFree m a v x = m x :=
  h.elim (fun h => Mem.store_of_lt m h) (fun h => Mem.store_of_ge m (by omega))

theorem setChunkSpan_apply (m : Mem) {a v x : Nat} (h : x < a + 8 ∨ a + 12 ≤ x) :
    setChunkSpan m a v x = m x :=
  h.elim (fun h => Mem.store_of_lt m h) (fun h => Mem.store_of_ge m (by omega))

/-! ## Memories that hold a layout -/

/-- The `next` link of the header at `a`. -/
def blkNext (m : Mem) (a : Nat) : Nat := (heapBlock m a).next

/-- The `prev` link of the header at `a`. -/
def blkPrev (m : Mem) (a : Nat) : Nat := (heapBlock m a).prev

/-- Flag and span of every block of the layout that starts at `a`. -/
def Headers (m : Mem) : Nat → Layout → Prop
  | _, [] => True
  | a, b :: L =>
      (heapBlock m a).isFree = b.free ∧ (heapBlock m a).chunkSpan = b.span ∧
        Headers m (a + 4096 * b.span) L

theorem headers_append {m : Mem} {a : Nat} {L₁ L₂ : Layout} :
    Headers m a (L₁ ++ L₂) ↔ Headers m a L₁ ∧ Headers m (a + 4096 * chunks L₁) L₂ := by
  induction L₁ generalizing a with
  | nil => simp [Headers, chunks]
  | cons b L₁ ih =>
      simp only [List.cons_append, Headers, chunks, ih, and_assoc]
      rw [Nat.mul_add, Nat.add_assoc]

/-- The chain from `p` through the blocks of `L`, the first one at `a`, to `n`. -/
structure Chain (m : Mem) (p a : Nat) (L : Layout) (n : Nat) : Prop where
  headers : Headers m a L
  links : Linked (blkNext m) (blkPrev m) p (addrs a L) n

theorem chain_append {m : Mem} {p a n : Nat} {L₁ L₂ : Layout} :
    Chain m p a (L₁ ++ L₂) n ↔
      Chain m p a L₁ ((addrs (a + 4096 * chunks L₁) L₂).headD n) ∧
        Chain m ((addrs a L₁).getLastD p) (a + 4096 * chunks L₁) L₂ n := by
  constructor
  · rintro ⟨hheaders, hlinks⟩
    rw [addrs_append, linked_append] at hlinks
    rw [headers_append] at hheaders
    exact ⟨⟨hheaders.1, hlinks.1⟩, ⟨hheaders.2, hlinks.2⟩⟩
  · rintro ⟨h₁, h₂⟩
    refine ⟨headers_append.mpr ⟨h₁.headers, h₂.headers⟩, ?_⟩
    rw [addrs_append, linked_append]
    exact ⟨h₁.links, h₂.links⟩

theorem Headers.congr {m m' : Mem} {a : Nat} {L : Layout} (h : Headers m a L)
    (hsame : ∀ x ∈ addrs a L, (heapBlock m' x).isFree = (heapBlock m x).isFree ∧
      (heapBlock m' x).chunkSpan = (heapBlock m x).chunkSpan) : Headers m' a L := by
  induction L generalizing a with
  | nil => trivial
  | cons b L ih =>
      obtain ⟨hfree, hspan, hL⟩ := h
      obtain ⟨hfree', hspan'⟩ := hsame a List.mem_cons_self
      exact ⟨hfree'.trans hfree, hspan'.trans hspan,
        ih hL fun x hx => hsame x (List.mem_cons_of_mem a hx)⟩

/-- A chain depends on its headers only. -/
theorem Chain.congr {m m' : Mem} {p a n : Nat} {L : Layout} (h : Chain m p a L n)
    (hsame : ∀ x ∈ addrs a L, Agree m m' x 20) : Chain m' p a L n := by
  have hblock : ∀ x ∈ addrs a L, heapBlock m' x = heapBlock m x :=
    fun x hx => heapBlock_congr (hsame x hx)
  refine ⟨h.headers.congr fun x hx => by rw [hblock x hx]; exact ⟨rfl, rfl⟩,
    h.links.congr (fun x hx => ?_) (fun x hx => ?_)⟩
  · simp only [blkNext, hblock x hx]
  · simp only [blkPrev, hblock x hx]

theorem chain_cons {m : Mem} {p a n : Nat} {b : Blk} {L : Layout} :
    Chain m p a (b :: L) n ↔
      (heapBlock m a).isFree = b.free ∧ (heapBlock m a).chunkSpan = b.span ∧
        blkPrev m a = p ∧ blkNext m a = (addrs (a + 4096 * b.span) L).headD n ∧
          Chain m a (a + 4096 * b.span) L n := by
  constructor
  · rintro ⟨⟨hfree, hspan, hheaders⟩, hprev, hnext, hlinks⟩
    exact ⟨hfree, hspan, hprev, hnext, hheaders, hlinks⟩
  · rintro ⟨hfree, hspan, hprev, hnext, hheaders, hlinks⟩
    exact ⟨⟨hfree, hspan, hheaders⟩, hprev, hnext, hlinks⟩

theorem chain_nil (m : Mem) (p a n : Nat) : Chain m p a [] n := ⟨trivial, trivial⟩

/-- Redirect the last block of a chain. -/
theorem Chain.leave {m m' : Mem} {p a n n' : Nat} {L : Layout} (h : Chain m p a L n)
    (hfields : ∀ x ∈ addrs a L, Agree m m' x 16)
    (hsame : ∀ x ∈ (addrs a L).dropLast, Agree m m' x 20)
    (hlast : ∀ x ∈ (addrs a L).getLast?, blkNext m' x = n') : Chain m' p a L n' := by
  refine ⟨h.headers.congr fun x hx => ?_, h.links.leave (fun x hx => ?_) hlast (fun x hx => ?_)⟩
  · obtain ⟨hfree, hspan, -⟩ := heapBlock_fields_congr (hfields x hx)
    exact ⟨hfree, hspan⟩
  · simp only [blkNext, heapBlock_congr (hsame x hx)]
  · exact (heapBlock_fields_congr (hfields x hx)).2.2

/-- `last->next = n'` at the end of a chain. -/
theorem Chain.setNext_last {m : Mem} {p a n n' d : Nat} {L : Layout} (h : Chain m p a L n)
    (hsound : Sound L) (hn' : n' < 2 ^ 32) :
    Chain (setNext m ((addrs a L).getLastD d) n') p a L n' := by
  have hlast : ∀ x ∈ (addrs a L).getLast?, x = (addrs a L).getLastD d := by
    intro x hx
    rw [List.getLastD_eq_getLast?, hx]
    rfl
  refine h.leave (fun x hx y h₁ h₂ => ?_) (fun x hx y h₁ h₂ => ?_) (fun x hx => ?_)
  · have := addrs_eq_last_or (d := d) hsound hx
    exact setNext_apply m (by omega)
  · have := addrs_lt_last (d := d) hsound hx
    exact setNext_apply m (by omega)
  · rw [hlast x hx, blkNext, heapBlock_setNext m _ hn']

/-- `first->prev = p'` at the front of a chain. -/
theorem Chain.setPrev_head {m : Mem} {p p' a n : Nat} {L : Layout} (h : Chain m p a L n)
    (hsound : Sound L) (hp' : p' < 2 ^ 32) : Chain (setPrev m a p') p' a L n := by
  cases L with
  | nil => exact chain_nil _ _ _ _
  | cons b L =>
      have hb := (hsound b List.mem_cons_self).1
      obtain ⟨hfree, hspan, -, hnext, hL⟩ := chain_cons.mp h
      have hblock := heapBlock_setPrev m a hp'
      refine chain_cons.mpr ⟨?_, ?_, ?_, ?_, hL.congr fun x hx y h₁ h₂ => ?_⟩
      · rw [hblock, hfree]
      · rw [hblock, hspan]
      · rw [blkPrev, hblock]
      · rw [blkNext, hblock]
        exact hnext
      · have := addrs_ge hx
        exact setPrev_apply m (by omega)

/-! ## Formatting chunks -/

namespace Kernel

/-- What `heapGrowLoop` leaves behind. -/
structure Formatted (m m' : Mem) (p a n : Nat) : Prop where
  chain : Chain m' p a (List.replicate n freeBlk) 0
  link : p ≠ 0 → 0 < n → blkNext m' p = a
  /-- Only the new chunks and the link of the block before them were written. -/
  frame : ∀ x, x < a ∨ a + 4096 * n ≤ x → p = 0 ∨ x < p + 16 ∨ p + 20 ≤ x → m' x = m x

theorem heapGrowLoop_snd (n : Nat) (m : Mem) (a p : Nat) :
    (heapGrowLoop n m a p).2 =
      ((addrs a (List.replicate n freeBlk)).getLastD p, a + 4096 * n) := by
  induction n generalizing m a p with
  | zero => simp [heapGrowLoop, addrs]
  | succ n ih =>
      simp only [heapGrowLoop, ih, List.replicate_succ, addrs, List.getLastD_cons, freeBlk_span,
        Nat.mul_one, kernelHeapChunkSize]
      rw [Nat.add_assoc, Nat.mul_succ, Nat.add_comm 4096]

/-- The formatting loop builds a chain of free chunks behind `p`. -/
theorem formatted_heapGrowLoop {n : Nat} {m : Mem} {a p : Nat} (hp : p = 0 ∨ p + 20 ≤ a)
    (ha : 0 < a) (hbound : a + 4096 * n ≤ 2 ^ 32) :
    Formatted m (heapGrowLoop n m a p).1 p a n := by
  induction n generalizing m a p with
  | zero => exact ⟨chain_nil _ _ _ _, fun _ h => absurd h (Nat.lt_irrefl 0), fun _ _ _ => rfl⟩
  | succ n ih =>
      have hplt : p < 2 ^ 32 := by omega
      simp only [heapGrowLoop, kernelHeapChunkSize]
      set m₁ := initHeapBlock m a 4096 p with hm₁
      set m₂ := if p ≠ 0 then setNext m₁ p a else m₁ with hm₂
      have hrest := ih (m := m₂) (a := a + 4096) (p := a) (.inr (by omega)) (by omega) (by omega)
      set m' := (heapGrowLoop n m₂ (a + 4096) a).1
      have hstep : ∀ x, p = 0 ∨ x < p + 16 ∨ p + 20 ≤ x → m₂ x = m₁ x := by
        intro x hx
        rw [hm₂]
        split
        · rename_i hne
          exact setNext_apply m₁ (hx.resolve_left hne)
        · rfl
      have hhead : heapBlock m₂ a = ⟨4096, true, 1, p, 0⟩ := by
        rw [heapBlock_congr (m := m₁), hm₁, heapBlock_initHeapBlock m a (by omega) hplt]
        exact fun x h₁ h₂ => hstep x (by omega)
      obtain ⟨hfree, hspan, hprev⟩ := heapBlock_fields_congr (m := m₂) (n := m') (a := a)
        fun x h₁ h₂ => hrest.frame x (by omega) (by omega)
      have hnext : blkNext m₂ a = 0 := by rw [blkNext, hhead]
      rw [hhead] at hfree hspan hprev
      have hnext' : blkNext m' a = (addrs (a + 4096) (List.replicate n freeBlk)).headD 0 := by
        cases n with
        | zero => exact hnext
        | succ n =>
            rw [hrest.link (by omega) (by omega)]
            rfl
      refine ⟨?_, fun hne _ => ?_, fun x hout hlink => ?_⟩
      · rw [List.replicate_succ, chain_cons]
        exact ⟨hfree, hspan, hprev, hnext', hrest.chain⟩
      · have hm₂' : m₂ = setNext m₁ p a := by rw [hm₂, if_pos hne]
        have hsame : Agree m₂ m' p 20 := fun x h₁ h₂ => hrest.frame x (by omega) (by omega)
        rw [blkNext, heapBlock_congr hsame, hm₂', heapBlock_setNext m₁ p (by omega)]
      · rw [hrest.frame x (by omega) (by omega), hstep x hlink, hm₁]
        exact initHeapBlock_apply m (by omega)

/-- `_free` formats the chunks after the first one in the same way. -/
theorem freeLoop_eq_heapGrowLoop (n : Nat) (m : Mem) {a : Nat} (ha : a ≠ 0) :
    freeLoop n m a =
      ((heapGrowLoop n m (a + 4096) a).1, (heapGrowLoop n m (a + 4096) a).2.1) := by
  induction n generalizing m a with
  | zero => rfl
  | succ n ih =>
      simp only [freeLoop, heapGrowLoop, kernelHeapChunkSize, ih _ (show a + 4096 ≠ 0 by omega),
        ha, ne_eq, not_false_eq_true, if_true]

/-- The heap after a page of `n` chunks was appended. -/
structure Grown (n : Nat) (s s' : Kernel) : Prop where
  formatted : Formatted s.mem s'.mem s.heap.lastBlock s.heap.nextAddr n
  heap : s'.heap = { s.heap with
    lastBlock := (addrs s.heap.nextAddr (List.replicate n freeBlk)).getLastD s.heap.lastBlock
    nextAddr := s.heap.nextAddr + 4096 * n
    freeChunks := s.heap.freeChunks + n }

/-- What `_heap_grow` does to the page tables: one frame more, mapped under the
    page that starts at `next_addr`. -/
structure Mapped (s s' : Kernel) : Prop where
  frame : ∃ frame < maxFrames, frame ≠ 0 ∧ pfaTest s.pfa frame = false ∧
    s'.pfa = pfaSet s.pfa frame ∧
    s'.kernelDirectory = pageMapDir s.kernelDirectory s.heap.nextAddr (frame * pageSize) kernelFlags
  dirs : s'.dirs = s.dirs
  cr3 : s'.cr3 = s.cr3 ∧ s.cr3 = none

/-- Formatting does not concern the page tables. -/
theorem Mapped.heapFormat {s s₁ : Kernel} (h : Mapped s s₁) (n : Nat) :
    Mapped s (s₁.heapFormat n) :=
  ⟨h.frame, h.dirs, h.cr3⟩

theorem heapFormat_grown {s : Kernel} {n : Nat}
    (hlast : s.heap.lastBlock = 0 ∨ s.heap.lastBlock + 20 ≤ s.heap.nextAddr)
    (hpos : 0 < s.heap.nextAddr) (hbound : s.heap.nextAddr + 4096 * n ≤ 2 ^ 32) (hn : 0 < n) :
    Grown n s (s.heapFormat n) := by
  refine ⟨?_, ?_⟩
  · simp only [heapFormat]
    set m₁ := if s.heap.lastBlock ≠ 0
      then setPrev (setNext s.mem s.heap.lastBlock s.heap.nextAddr) s.heap.nextAddr s.heap.lastBlock
      else s.mem with hm₁
    have hformat := formatted_heapGrowLoop (n := n) (m := m₁) hlast hpos hbound
    refine ⟨hformat.chain, hformat.link, fun x hout hlink => ?_⟩
    rw [hformat.frame x hout hlink, hm₁]
    split
    · rename_i hne
      rw [setPrev_apply _ (by omega), setNext_apply _ (hlink.resolve_left hne)]
    · rfl
  · simp only [heapFormat, heapGrowLoop_snd]

/-- The page `_heap_grow` maps before it formats it. -/
theorem heapGrow_ok {s s' : Kernel} (h : s.heapGrow = .ok s') :
    ∃ s₁, s' = s₁.heapFormat pageChunks ∧ s₁.mem = s.mem ∧ s₁.heap = s.heap ∧ Mapped s s₁ := by
  unfold heapGrow at h
  split at h
  rename_i addr pfa halloc
  split at h
  · cases h
  · rename_i haddr
    unfold pageMap updateCurrentDir at h
    obtain ⟨frame, hlt, hne, hfree, rfl, rfl⟩ := pfaAlloc_spec halloc haddr
    cases hcr3 : s.cr3 with
    | none =>
        rw [hcr3] at h
        simp only [Except.ok.injEq] at h
        exact ⟨_, h.symm, rfl, rfl, ⟨frame, hlt, hne, hfree, rfl, rfl⟩, rfl, hcr3.symm, hcr3⟩
    | some f =>
        rw [hcr3] at h
        cases h

theorem heapGrow_grown {s s' : Kernel} (h : s.heapGrow = .ok s')
    (hlast : s.heap.lastBlock = 0 ∨ s.heap.lastBlock + 20 ≤ s.heap.nextAddr)
    (hpos : 0 < s.heap.nextAddr) (hbound : s.heap.nextAddr + 4096 * pageChunks ≤ 2 ^ 32) :
    Grown pageChunks s s' := by
  obtain ⟨s₁, rfl, hmem, hheap, -⟩ := heapGrow_ok h
  have hgrown := heapFormat_grown (s := s₁) (by rw [hheap]; exact hlast) (by rw [hheap]; exact hpos)
    (by rw [hheap]; exact hbound) pageChunks_pos
  refine ⟨?_, ?_⟩
  · rw [← hmem, ← hheap]
    exact hgrown.formatted
  · rw [← hheap]
    exact hgrown.heap

theorem heapGrow_mapped {s s' : Kernel} (h : s.heapGrow = .ok s') : Mapped s s' := by
  obtain ⟨s₁, rfl, -, -, hmapped⟩ := heapGrow_ok h
  exact hmapped.heapFormat pageChunks

/-! ## Searching -/

section Search

variable {m : Mem} {p a : Nat} {L : Layout}

/-- The inner loop counts the free blocks in front. -/
theorem countFree_eq (h : Chain m p a L 0) (ha : 0 < a) (n : Nat) :
    countFree m n ((addrs a L).headD 0) = min n (freeRun L) := by
  induction n generalizing p a L with
  | zero => simp [countFree]
  | succ n ih =>
      cases L with
      | nil => simp [countFree, addrs, freeRun]
      | cons b L =>
          obtain ⟨hfree, -, -, hnext, hL⟩ := chain_cons.mp h
          have hrest := ih hL (by omega)
          rw [← hnext] at hrest
          simp only [countFree, addrs, List.headD_cons, hfree, freeRun]
          cases b.free with
          | true =>
              rw [if_pos ⟨by omega, rfl⟩, if_pos rfl]
              change 1 + countFree m n (blkNext m a) = _
              rw [hrest]
              omega
          | false => simp

/-- The search finds the first run of `n` free blocks. -/
theorem findRun_eq (h : Chain m p a L 0) (ha : 0 < a) {n fuel : Nat} (hfuel : L.length < fuel) :
    findRun m n fuel ((addrs a L).headD 0)
      = .ok ((firstRun n L).map fun i => a + 4096 * chunks (L.take i)) := by
  induction fuel generalizing p a L with
  | zero => omega
  | succ fuel ih =>
      cases L with
      | nil => simp [findRun, addrs, firstRun]
      | cons b L =>
          have hcount := countFree_eq h ha n
          obtain ⟨hfree, -, -, hnext, hL⟩ := chain_cons.mp h
          have hrest := ih hL (by omega) (by simpa using hfuel)
          simp only [addrs, List.headD_cons] at hcount ⊢
          unfold findRun firstRun
          rw [if_neg (by omega), hcount, hfree]
          by_cases hfits : b.free = true ∧ n ≤ freeRun (b :: L)
          · rw [if_pos ⟨hfits.1, by omega⟩, if_pos hfits]
            simp [chunks]
          · rw [if_neg (fun hrun => hfits ⟨hrun.1, by omega⟩), if_neg hfits]
            change findRun m n fuel (blkNext m a) = _
            rw [hnext, hrest, Option.map_map]
            congr 2
            funext i
            simp only [Function.comp_apply, List.take_succ_cons, chunks]
            rw [Nat.mul_add, Nat.add_assoc]

end Search

end Kernel

end Icarius
