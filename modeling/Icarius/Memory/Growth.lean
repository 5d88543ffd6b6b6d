/-
  Icarius.Memory.Growth

  What calls of the kernel heap do to the page tables.  However `_malloc` goes
  through its loops, the only thing that concerns a page table is `_heap_grow`,
  which maps one more frame at `next_addr`; under the directory of a process
  there is not even that.  `Grew` says this once for all calls, so that an
  invariant of the page tables has to look at a single growth only.
-/

import Icarius.Memory.HeapInv
import Mathlib.Logic.Relation

namespace Icarius.Kernel

open Icarius.Lib

/-! ## The relation -/

/-- Page tables, bitmap and the end of the heap are the same. -/
structure SameTables (s s' : Kernel) : Prop where
  pfa : s'.pfa = s.pfa
  kernelDirectory : s'.kernelDirectory = s.kernelDirectory
  dirs : s'.dirs = s.dirs
  cr3 : s'.cr3 = s.cr3
  nextAddr : s'.heap.nextAddr = s.heap.nextAddr

/-- One page was mapped at the end of the heap. -/
structure GrewPage (s s' : Kernel) : Prop where
  mapped : Mapped s s'
  nextAddr : s'.heap.nextAddr = s.heap.nextAddr + pageSize

/-- Any number of growths, and nothing else that concerns page tables. -/
def Grew : Kernel → Kernel → Prop :=
  Relation.ReflTransGen fun s s' => SameTables s s' ∨ GrewPage s s'

theorem SameTables.grew {s s' : Kernel} (h : SameTables s s') : Grew s s' :=
  Relation.ReflTransGen.single (.inl h)

theorem GrewPage.grew {s s' : Kernel} (h : GrewPage s s') : Grew s s' :=
  Relation.ReflTransGen.single (.inr h)

theorem Grew.trans {s s₁ s₂ : Kernel} (h : Grew s s₁) (h' : Grew s₁ s₂) : Grew s s₂ :=
  Relation.ReflTransGen.trans h h'

theorem SameTables.rfl {s : Kernel} : SameTables s s := ⟨Eq.refl _, Eq.refl _, Eq.refl _, Eq.refl _, Eq.refl _⟩

theorem Grew.rfl {s : Kernel} : Grew s s := Relation.ReflTransGen.refl

theorem SameTables.trans {s s₁ s₂ : Kernel} (h : SameTables s s₁) (h' : SameTables s₁ s₂) :
    SameTables s s₂ where
  pfa := h'.pfa.trans h.pfa
  kernelDirectory := h'.kernelDirectory.trans h.kernelDirectory
  dirs := h'.dirs.trans h.dirs
  cr3 := h'.cr3.trans h.cr3
  nextAddr := h'.nextAddr.trans h.nextAddr

theorem SameTables.setMem (s : Kernel) (m : Mem) : SameTables s (s.setMem m) :=
  ⟨Eq.refl _, Eq.refl _, Eq.refl _, Eq.refl _, Eq.refl _⟩

/-- The heap never shrinks. -/
theorem Grew.nextAddr_le {s s' : Kernel} (h : Grew s s') : s.heap.nextAddr ≤ s'.heap.nextAddr := by
  induction h with
  | refl => exact le_rfl
  | tail _ hstep ih =>
      rcases hstep with hsame | hpage
      · rw [hsame.nextAddr]
        exact ih
      · have := hpage.nextAddr
        omega

/-- Without a growth the page tables are the same. -/
theorem Grew.sameTables {s s' : Kernel} (h : Grew s s')
    (hnext : s'.heap.nextAddr = s.heap.nextAddr) : SameTables s s' := by
  induction h with
  | refl => exact .rfl
  | tail hrest hstep ih =>
      rcases hstep with hsame | hpage
      · exact (ih (hsame.nextAddr.symm.trans hnext)).trans hsame
      · have hle := Grew.nextAddr_le hrest
        have hpos := hpage.nextAddr
        simp only [pageSize] at hpos
        omega

/-- Under the directory of a process nothing can grow. -/
theorem Grew.sameTables_of_cr3 {s s' : Kernel} (h : Grew s s') (hcr3 : s.cr3 ≠ none) :
    SameTables s s' := by
  induction h with
  | refl => exact .rfl
  | tail _ hstep ih =>
      rcases hstep with hsame | hpage
      · exact ih.trans hsame
      · exact absurd (ih.cr3.symm.trans hpage.mapped.cr3.2) hcr3

/-- The induction rule: what a growth keeps, any number of growths keeps. -/
theorem Grew.preserves {s s' : Kernel} (h : Grew s s') (P : Kernel → Prop) (hs : P s)
    (hsame : ∀ s s', P s → SameTables s s' → P s')
    (hpage : ∀ s₁ s₂, P s₁ → GrewPage s₁ s₂ → s₂.heap.nextAddr ≤ s'.heap.nextAddr → P s₂) :
    P s' := by
  have hle : ∀ {s₁}, Grew s s₁ → Grew s₁ s' → P s₁ := by
    intro s₁ h₁
    induction h₁ with
    | refl => exact fun _ => hs
    | tail _ hstep ih =>
        intro hrest
        rcases hstep with h₂ | h₂
        · exact hsame _ _ (ih (h₂.grew.trans hrest)) h₂
        · exact hpage _ _ (ih (h₂.grew.trans hrest)) h₂ hrest.nextAddr_le
  exact hle h .rfl

/-! ## The heap functions -/

theorem heapFormat_nextAddr (s : Kernel) (n : Nat) :
    (s.heapFormat n).heap.nextAddr = s.heap.nextAddr + 4096 * n := by
  simp only [heapFormat, heapGrowLoop_snd]

theorem heapGrow_grewPage {s s' : Kernel} (h : s.heapGrow = .ok s') : GrewPage s s' := by
  obtain ⟨s₁, hformat, -, hheap, -⟩ := heapGrow_ok h
  refine ⟨heapGrow_mapped h, ?_⟩
  rw [hformat, heapFormat_nextAddr, hheap, pageChunks_eq]
  rfl

theorem growIf_grew {s s' : Kernel} {c : Prop} [Decidable c]
    (h : (if c then s.heapGrow else .ok s) = .ok s') : Grew s s' := by
  split at h
  · exact (heapGrow_grewPage h).grew
  · simp only [Except.ok.injEq] at h
    exact h ▸ .rfl

theorem takeLoop_grew {n : Nat} {s s' : Kernel} {block next : Nat}
    (h : takeLoop n s block = .ok (s', next)) : Grew s s' := by
  induction n generalizing s block with
  | zero =>
      simp only [takeLoop, Except.ok.injEq, Prod.mk.injEq] at h
      exact h.1 ▸ .rfl
  | succ n ih =>
      simp only [takeLoop] at h
      split at h
      · cases h
      · rename_i s₁ hgrow
        have hmark := SameTables.setMem s (setIsFree s.mem block false)
        exact hmark.grew.trans ((growIf_grew hgrow).trans (ih h))

theorem takeRun_grew {s s' : Kernel} {n start ptr : Nat}
    (h : s.takeRun n start = .ok (ptr, s')) : Grew s s' := by
  obtain ⟨s₁, next, htake, -, hnext, hend⟩ := takeRun_ok h
  have hcount : ∀ k : Kernel, SameTables k (k.count n) := fun k => ⟨rfl, rfl, rfl, rfl, rfl⟩
  have hloop : Grew s s₁ := (SameTables.setMem s _).grew.trans (takeLoop_grew htake)
  by_cases hzero : next = 0
  · obtain ⟨s₂, hgrow, rfl⟩ := hend hzero
    have hpage : Grew s₁ s₂ := (SameTables.setMem s₁ _).grew.trans (heapGrow_grewPage hgrow).grew
    exact hloop.trans (hpage.trans (hcount s₂).grew)
  · rw [hnext hzero]
    exact hloop.trans ((SameTables.setMem s₁ _).trans (hcount _)).grew

theorem growIfLow_grew {s s' : Kernel} (h : s.growIfLow = .ok s') : Grew s s' := by
  unfold growIfLow at h
  simp only at h
  split at h
  · exact (heapGrow_grewPage h).grew
  · exact growIf_grew h

/-- What `_malloc` returns it has taken from a heap it may have grown. -/
theorem mallocLoop_takes {n fuel : Nat} {s s' : Kernel} {ptr : Nat}
    (h : mallocLoop n fuel s = .ok (ptr, s')) :
    ∃ s₁ start, Grew s s₁ ∧ s₁.takeRun n start = .ok (ptr, s') := by
  induction fuel generalizing s with
  | zero => cases h
  | succ fuel ih =>
      obtain ⟨found, -, hround⟩ := exists_of_bind h
      cases found with
      | some start => exact ⟨s, start, .rfl, hround⟩
      | none =>
          obtain ⟨s₁, hgrow, hrest⟩ := exists_of_bind hround
          obtain ⟨s₂, start, hgrew, htake⟩ := ih hrest
          exact ⟨s₂, start, (heapGrow_grewPage hgrow).grew.trans hgrew, htake⟩

theorem mallocLoop_grew {n fuel : Nat} {s s' : Kernel} {ptr : Nat}
    (h : mallocLoop n fuel s = .ok (ptr, s')) : Grew s s' := by
  obtain ⟨s₁, start, hgrew, htake⟩ := mallocLoop_takes h
  exact hgrew.trans (takeRun_grew htake)

theorem kmalloc_grew {s s' : Kernel} {size ptr : Nat} (h : s.kmalloc size = .ok (ptr, s')) :
    Grew s s' := by
  obtain ⟨-, -, rfl⟩ | ⟨-, s₁, hlow, hloop⟩ := kmalloc_ok h
  · exact .rfl
  · exact (growIfLow_grew hlow).trans (mallocLoop_grew hloop)

theorem kzalloc_grew {s s' : Kernel} {size ptr : Nat} (h : s.kzalloc size = .ok (ptr, s')) :
    Grew s s' := by
  obtain ⟨s₁, hcall, ⟨-, rfl⟩ | ⟨-, rfl⟩⟩ := kzalloc_ok h
  · exact kmalloc_grew hcall
  · exact (kmalloc_grew hcall).trans (SameTables.setMem s₁ _).grew

theorem kfree_sameTables (s : Kernel) (ptr : Nat) : SameTables s (s.kfree ptr) := by
  unfold kfree
  split
  · exact .rfl
  · exact ⟨rfl, rfl, rfl, rfl, rfl⟩

end Icarius.Kernel
