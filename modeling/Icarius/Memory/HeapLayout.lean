/-
  Icarius.Memory.HeapLayout

  What the kernel heap is for: a row of blocks, each one chunk or more, free or
  used, that fills the heap from its start.  Allocating takes the first long
  enough run of free chunks and makes one used block of it; freeing turns a used
  block back into its chunks; growing appends the free chunks of one page.

  The second half says when a memory holds a layout: at the address of every
  block there is a header with its flag and its span (`Headers`), and the
  headers are linked to each other in order (`Linked`).
-/

import Icarius.Lib.Links
import Icarius.Memory.Heap

namespace Icarius

open Icarius.Lib

/-! ## Layouts -/

/-- A block of the layout. -/
structure Blk where
  span : Nat
  free : Bool
  deriving DecidableEq, Repr

/-- The blocks of the heap, in address order. -/
abbrev Layout := List Blk

/-- A free block of one chunk. -/
def freeBlk : Blk := ⟨1, true⟩

/-- A used block of `n` chunks. -/
def usedBlk (n : Nat) : Blk := ⟨n, false⟩

@[simp] theorem freeBlk_span : freeBlk.span = 1 := rfl

@[simp] theorem freeBlk_free : freeBlk.free = true := rfl

@[simp] theorem usedBlk_span (n : Nat) : (usedBlk n).span = n := rfl

@[simp] theorem usedBlk_free (n : Nat) : (usedBlk n).free = false := rfl

namespace Layout

/-- Chunks of all blocks. -/
def chunks : Layout → Nat
  | [] => 0
  | b :: L => b.span + chunks L

/-- Number of free blocks. -/
def freeBlocks : Layout → Nat
  | [] => 0
  | b :: L => (if b.free then 1 else 0) + freeBlocks L

/-- Chunks of the used blocks. -/
def usedChunks : Layout → Nat
  | [] => 0
  | b :: L => (if b.free then 0 else b.span) + usedChunks L

/-- The addresses of the blocks, the first one at `a`. -/
def addrs : Nat → Layout → List Nat
  | _, [] => []
  | a, b :: L => a :: addrs (a + 4096 * b.span) L

/-- Every block has a chunk, and a free one has no more. -/
def Sound (L : Layout) : Prop := ∀ b ∈ L, 0 < b.span ∧ (b.free = true → b.span = 1)

/-- The free blocks at the front. -/
def freeRun : Layout → Nat
  | [] => 0
  | b :: L => if b.free then 1 + freeRun L else 0

/-- The position of the first run of `n` free blocks. -/
def firstRun (n : Nat) : Layout → Option Nat
  | [] => none
  | b :: L => if b.free ∧ n ≤ freeRun (b :: L) then some 0 else (firstRun n L).map (· + 1)

/-- Append the chunks of a page. -/
def grow (L : Layout) : Layout := L ++ List.replicate Kernel.pageChunks freeBlk

section Append

variable (L₁ L₂ : Layout)

@[simp] theorem chunks_append : chunks (L₁ ++ L₂) = chunks L₁ + chunks L₂ := by
  induction L₁ with
  | nil => simp [chunks]
  | cons b L₁ ih => simp only [List.cons_append, chunks, ih, Nat.add_assoc]

@[simp] theorem freeBlocks_append : freeBlocks (L₁ ++ L₂) = freeBlocks L₁ + freeBlocks L₂ := by
  induction L₁ with
  | nil => simp [freeBlocks]
  | cons b L₁ ih => simp only [List.cons_append, freeBlocks, ih, Nat.add_assoc]

@[simp] theorem usedChunks_append : usedChunks (L₁ ++ L₂) = usedChunks L₁ + usedChunks L₂ := by
  induction L₁ with
  | nil => simp [usedChunks]
  | cons b L₁ ih => simp only [List.cons_append, usedChunks, ih, Nat.add_assoc]

theorem addrs_append (a : Nat) :
    addrs a (L₁ ++ L₂) = addrs a L₁ ++ addrs (a + 4096 * chunks L₁) L₂ := by
  induction L₁ generalizing a with
  | nil => simp [addrs, chunks]
  | cons b L₁ ih =>
      simp only [List.cons_append, addrs, chunks, ih]
      rw [Nat.mul_add, Nat.add_assoc]

end Append

@[simp] theorem chunks_replicate (n : Nat) : chunks (List.replicate n freeBlk) = n := by
  induction n with
  | zero => rfl
  | succ n ih =>
      simp only [List.replicate_succ, chunks, ih, freeBlk_span]
      omega

@[simp] theorem freeBlocks_replicate (n : Nat) :
    freeBlocks (List.replicate n freeBlk) = n := by
  induction n with
  | zero => rfl
  | succ n ih =>
      simp only [List.replicate_succ, freeBlocks, ih, freeBlk_free, if_true]
      omega

@[simp] theorem usedChunks_replicate (n : Nat) :
    usedChunks (List.replicate n freeBlk) = 0 := by
  induction n with
  | zero => rfl
  | succ n ih => simp only [List.replicate_succ, usedChunks, ih, freeBlk_free, if_true]

theorem sound_append {L₁ L₂ : Layout} : Sound (L₁ ++ L₂) ↔ Sound L₁ ∧ Sound L₂ := by
  refine ⟨fun h => ⟨fun b hb => h b (by simp [hb]), fun b hb => h b (by simp [hb])⟩, ?_⟩
  rintro ⟨h₁, h₂⟩ b hb
  rcases List.mem_append.mp hb with hb | hb
  · exact h₁ b hb
  · exact h₂ b hb

theorem sound_replicate (n : Nat) : Sound (List.replicate n freeBlk) := by
  intro b hb
  rw [List.eq_of_mem_replicate hb]
  exact ⟨Nat.one_pos, fun _ => rfl⟩

theorem Sound.tail {b : Blk} {L : Layout} (h : Sound (b :: L)) : Sound L :=
  fun c hc => h c (List.mem_cons_of_mem b hc)

/-- All chunks are counted once. -/
theorem chunks_eq_freeBlocks_add_usedChunks {L : Layout} (h : Sound L) :
    chunks L = freeBlocks L + usedChunks L := by
  induction L with
  | nil => rfl
  | cons b L ih =>
      have hb := (h b List.mem_cons_self).2
      simp only [chunks, freeBlocks, usedChunks, ih h.tail]
      cases hfree : b.free with
      | true =>
          rw [hb hfree]
          simp only [if_true]
          omega
      | false =>
          simp only [Bool.false_eq_true, if_false]
          omega

theorem length_le_chunks {L : Layout} (h : Sound L) : L.length ≤ chunks L := by
  induction L with
  | nil => exact Nat.le_refl 0
  | cons b L ih =>
      have hb := (h b List.mem_cons_self).1
      have hL := ih h.tail
      simp only [List.length_cons, chunks]
      omega

/-! ## Runs of free blocks -/

theorem Sound.eq_freeBlk {L : Layout} (h : Sound L) {b : Blk} (hb : b ∈ L)
    (hfree : b.free = true) : b = freeBlk := by
  have hspan := (h b hb).2 hfree
  cases b with
  | mk span free =>
      simp only at hspan hfree
      subst hspan hfree
      rfl

/-- A layout starts with its run of free blocks. -/
theorem exists_of_le_freeRun {L : Layout} (h : Sound L) {n : Nat} (hn : n ≤ freeRun L) :
    ∃ post, L = List.replicate n freeBlk ++ post := by
  induction L generalizing n with
  | nil =>
      have hzero : n = 0 := by simpa [freeRun] using hn
      exact ⟨[], by simp [hzero]⟩
  | cons b L ih =>
      cases n with
      | zero => exact ⟨b :: L, rfl⟩
      | succ n =>
          unfold freeRun at hn
          split at hn
          · rename_i hfree
            obtain ⟨post, hpost⟩ := ih h.tail (n := n) (by omega)
            refine ⟨post, ?_⟩
            rw [h.eq_freeBlk List.mem_cons_self hfree, List.replicate_succ, List.cons_append,
              ← hpost]
          · omega

theorem le_freeRun_replicate (n : Nat) (post : Layout) :
    n ≤ freeRun (List.replicate n freeBlk ++ post) := by
  induction n with
  | zero => exact Nat.zero_le _
  | succ n ih =>
      simp only [List.replicate_succ, List.cons_append, freeRun, freeBlk_free, if_true]
      omega

/-- The first run splits the layout around it. -/
theorem firstRun_some {n : Nat} {L : Layout} (h : Sound L) {i : Nat}
    (hrun : firstRun n L = some i) :
    ∃ pre post, L = pre ++ List.replicate n freeBlk ++ post ∧ pre.length = i := by
  induction L generalizing i with
  | nil => simp [firstRun] at hrun
  | cons b L ih =>
      unfold firstRun at hrun
      split at hrun
      · rename_i hfits
        obtain ⟨post, hpost⟩ := exists_of_le_freeRun h hfits.2
        exact ⟨[], post, by simpa using hpost, by simpa using hrun⟩
      · obtain ⟨j, hj, rfl⟩ := Option.map_eq_some_iff.mp hrun
        obtain ⟨pre, post, hL, hlen⟩ := ih h.tail hj
        exact ⟨b :: pre, post, by rw [hL]; simp, by simp [hlen]⟩

/-- A run anywhere is found, or an earlier one. -/
theorem firstRun_isSome {n : Nat} (hn : 0 < n) (pre post : Layout) :
    (firstRun n (pre ++ List.replicate n freeBlk ++ post)).isSome = true := by
  induction pre with
  | nil =>
      obtain ⟨k, rfl⟩ : ∃ k, n = k + 1 := ⟨n - 1, by omega⟩
      have hrun := le_freeRun_replicate (k + 1) post
      simp only [List.nil_append, List.replicate_succ, List.cons_append] at hrun ⊢
      unfold firstRun
      rw [if_pos ⟨rfl, hrun⟩]
      rfl
  | cons b pre ih =>
      simp only [List.cons_append, firstRun]
      split
      · rfl
      · simpa using ih

theorem freeRun_replicate (n : Nat) : freeRun (List.replicate n freeBlk) = n := by
  induction n with
  | zero => rfl
  | succ n ih => rw [List.replicate_succ, freeRun, ih, freeBlk_free, if_pos rfl, Nat.add_comm]

/-- No run is found behind another one. -/
theorem firstRun_le {n i : Nat} (hn : 0 < n) {pre post : Layout}
    (h : firstRun n (pre ++ List.replicate n freeBlk ++ post) = some i) : i ≤ pre.length := by
  induction pre generalizing i with
  | nil =>
      have hrun := le_freeRun_replicate n post
      obtain ⟨k, rfl⟩ : ∃ k, n = k + 1 := ⟨n - 1, by omega⟩
      rw [List.nil_append] at h
      rw [List.replicate_succ, List.cons_append] at hrun h
      rw [firstRun, if_pos ⟨rfl, hrun⟩, Option.some.injEq] at h
      rw [← h]
      exact Nat.zero_le _
  | cons b pre ih =>
      rw [List.cons_append, List.cons_append, firstRun] at h
      split at h
      · rw [Option.some.injEq] at h
        rw [← h]
        exact Nat.zero_le _
      · obtain ⟨j, hj, rfl⟩ := Option.map_eq_some_iff.mp h
        have hle := ih hj
        rw [List.length_cons]
        omega

/-- Behind used blocks only, a run is the first. -/
theorem firstRun_of_used {n : Nat} (hn : 0 < n) {pre : Layout} (hpre : ∀ b ∈ pre, b.free = false)
    (post : Layout) : firstRun n (pre ++ List.replicate n freeBlk ++ post) = some pre.length := by
  induction pre with
  | nil =>
      have hrun := le_freeRun_replicate n post
      obtain ⟨k, rfl⟩ : ∃ k, n = k + 1 := ⟨n - 1, by omega⟩
      rw [List.nil_append]
      rw [List.replicate_succ, List.cons_append] at hrun ⊢
      rw [firstRun, if_pos ⟨rfl, hrun⟩]
      rfl
  | cons b pre ih =>
      have hb := hpre b List.mem_cons_self
      have htail := ih fun c hc => hpre c (List.mem_cons_of_mem _ hc)
      rw [List.cons_append, List.cons_append, firstRun, if_neg (by simp [hb]), htail]
      rfl

/-- Fewer free chunks than asked for, behind used blocks only. -/
theorem firstRun_none_of_used {n k : Nat} (hk : k < n) {pre : Layout}
    (hpre : ∀ b ∈ pre, b.free = false) : firstRun n (pre ++ List.replicate k freeBlk) = none := by
  induction pre with
  | nil =>
      rw [List.nil_append]
      induction k with
      | zero => rfl
      | succ k ih =>
          have hlong := freeRun_replicate (k + 1)
          rw [List.replicate_succ] at hlong ⊢
          rw [firstRun, hlong, if_neg (by omega), ih (by omega)]
          rfl
  | cons b pre ih =>
      have hb := hpre b List.mem_cons_self
      have htail := ih fun c hc => hpre c (List.mem_cons_of_mem _ hc)
      rw [List.cons_append, firstRun, if_neg (by simp [hb]), htail]
      rfl

theorem freeBlocks_of_used {pre : Layout} (hpre : ∀ b ∈ pre, b.free = false) :
    freeBlocks pre = 0 := by
  induction pre with
  | nil => rfl
  | cons b pre ih =>
      rw [freeBlocks, hpre b List.mem_cons_self,
        ih fun c hc => hpre c (List.mem_cons_of_mem _ hc)]
      rfl

/-- Without a run of `n`, fewer than `n` blocks are free at the end. -/
theorem lt_of_firstRun_none {n t : Nat} (hn : 0 < n) {L : Layout}
    (h : firstRun n (L ++ List.replicate t freeBlk) = none) : t < n := by
  by_contra hle
  have hsplit : List.replicate t freeBlk
      = List.replicate (t - n) freeBlk ++ List.replicate n freeBlk := by
    rw [List.replicate_append_replicate]
    congr 1
    omega
  have hsome := firstRun_isSome hn (L ++ List.replicate (t - n) freeBlk) []
  rw [List.append_nil, List.append_assoc, ← hsplit, h] at hsome
  cases hsome

/-! ## Addresses -/

theorem addrs_ge {a x : Nat} {L : Layout} (hx : x ∈ addrs a L) : a ≤ x := by
  induction L generalizing a with
  | nil => simp [addrs] at hx
  | cons b L ih =>
      rcases List.mem_cons.mp hx with rfl | hx
      · exact Nat.le_refl _
      · have := ih hx
        omega

/-- The header of a block ends before the layout does. -/
theorem addrs_lt {a x : Nat} {L : Layout} (h : Sound L) (hx : x ∈ addrs a L) :
    x + 4096 ≤ a + 4096 * chunks L := by
  induction L generalizing a with
  | nil => simp [addrs] at hx
  | cons b L ih =>
      have hb := (h b List.mem_cons_self).1
      simp only [chunks]
      rcases List.mem_cons.mp hx with rfl | hx
      · omega
      · have := ih h.tail hx
        omega

/-- Blocks are at least one chunk apart. -/
theorem addrs_pairwise {a : Nat} {L : Layout} (h : Sound L) :
    (addrs a L).Pairwise fun x y => x + 4096 ≤ y := by
  induction L generalizing a with
  | nil => exact .nil
  | cons b L ih =>
      have hb := (h b List.mem_cons_self).1
      refine .cons (fun y hy => ?_) (ih h.tail)
      have := addrs_ge hy
      omega

theorem addrs_head (a : Nat) (L : Layout) : (addrs a L).headD 0 = if L = [] then 0 else a := by
  cases L <;> simp [addrs]

theorem addrs_ne_nil {a : Nat} {L : Layout} (h : L ≠ []) : addrs a L ≠ [] := by
  cases L with
  | nil => exact absurd rfl h
  | cons b L => simp [addrs]

theorem addrs_getLast_mem {a : Nat} {L : Layout} (h : L ≠ []) (d : Nat) :
    (addrs a L).getLastD d ∈ addrs a L := by
  have hne := addrs_ne_nil (a := a) h
  rw [List.getLastD_eq_getLast?, List.getLast?_eq_getLast_of_ne_nil hne, Option.getD_some]
  exact List.getLast_mem hne

theorem addrs_getLastD_congr {a : Nat} {L : Layout} (h : L ≠ []) (d d' : Nat) :
    (addrs a L).getLastD d = (addrs a L).getLastD d' := by
  obtain ⟨x, l, hl⟩ := List.exists_cons_of_ne_nil (addrs_ne_nil (a := a) h)
  rw [hl]
  rfl

theorem addrs_replicate_last (a k d : Nat) :
    (addrs a (List.replicate (k + 1) freeBlk)).getLastD d = a + 4096 * k := by
  induction k generalizing a d with
  | zero => rfl
  | succ k ih =>
      rw [List.replicate_succ, addrs, List.getLastD_cons, ih, freeBlk_span, Nat.mul_succ]
      omega

/-- All blocks but the last one lie before it. -/
theorem addrs_lt_last {a d x : Nat} {L : Layout} (h : Sound L) (hx : x ∈ (addrs a L).dropLast) :
    x + 4096 ≤ (addrs a L).getLastD d := by
  have hpair := addrs_pairwise (a := a) h
  rcases List.eq_nil_or_concat (addrs a L) with hnil | ⟨init, last, hsplit⟩
  · simp [hnil] at hx
  · rw [hsplit, List.concat_eq_append, List.pairwise_append] at hpair
    rw [hsplit, List.concat_eq_append, List.dropLast_concat] at hx
    rw [hsplit]
    simpa using hpair.2.2 x hx last

theorem addrs_eq_last_or {a d x : Nat} {L : Layout} (h : Sound L) (hx : x ∈ addrs a L) :
    x = (addrs a L).getLastD d ∨ x + 4096 ≤ (addrs a L).getLastD d := by
  rcases List.eq_nil_or_concat (addrs a L) with hnil | ⟨init, last, hsplit⟩
  · simp [hnil] at hx
  · by_cases hlast : x = last
    · exact .inl (by rw [hsplit, hlast]; simp)
    · refine .inr (addrs_lt_last h ?_)
      rw [hsplit] at hx ⊢
      simpa [hlast] using hx

end Layout

end Icarius
