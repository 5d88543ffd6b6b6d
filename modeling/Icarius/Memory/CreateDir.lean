/-
  Icarius.Memory.CreateDir

  Where `page_create_dir` maps a new directory in the kernel's: at the address of its
  frame plus `KERNEL_VIRTUAL_START`.  The sum is a `uint32_t`, so the kernel half holds the
  first 256 frames only, and nobody looks whether the slot is in use.
-/

import Icarius.Memory.FrameSet
import Icarius.Memory.Frames
import Icarius.Memory.HeapRuns
import Icarius.Process.Model

namespace Icarius

open Icarius.Lib

/-- No kernel mapping is overwritten: at most one slot of the kernel directory is changed,
    one of the kernel half that was not present, and the pointer is in the kernel half. -/
structure KeepsMappings (k k' : Kernel) (ptr : Nat) : Prop where
  slot : ∃ i, (∀ j, j ≠ i → k'.kernelDirectory j = k.kernelDirectory j) ∧
    (k'.kernelDirectory i ≠ k.kernelDirectory i →
      768 ≤ i ∧ i < 1024 ∧ entryPresent (k.kernelDirectory i) = false)
  pointer : ptr ≠ 0 → kernelVirtualStart ≤ ptr

/-- The slot for the directory in frame `f` is in the kernel half and not present, or it
    holds the very entry that is written there; frame 256 is mapped at address 0. -/
def SlotFree (k : Kernel) (flags f : Nat) : Prop :=
  f < 256 ∧ entryPresent (k.kernelDirectory (768 + f)) = false ∨
    f ≤ 256 ∧ k.kernelDirectory (slotOf f) = frameEntry f flags

section Create

variable {k k' : Kernel} {flags f ptr : Nat}

/-- The address of a frame in the kernel half, after the sum has wrapped -/
theorem p2v_frame (f : Nat) : p2v (f * pageSize) = slotOf f * pageSize := by
  simp only [p2v, slotOf, kernelVirtualStart, pageSize]
  omega

theorem slotOf_of_lt (hf : f < 256) : slotOf f = 768 + f := by
  rw [slotOf]
  omega

/-- Up to frame 256 the pointer is null or in the kernel half, above it is not. -/
theorem pointer_iff (hf : f < maxFrames) :
    (p2v (f * pageSize) ≠ 0 → kernelVirtualStart ≤ p2v (f * pageSize)) ↔ f ≤ 256 := by
  rw [p2v_frame f]
  simp only [slotOf, kernelVirtualStart, pageSize, maxFrames] at hf ⊢
  constructor
  · intro h
    by_contra hlarge
    have := h (by omega)
    omega
  · intro h hne
    omega

/-- A directory in frame `f` keeps the kernel mappings exactly when its slot is free. -/
theorem keepsMappings_iff_slotFree (hf : f < maxFrames)
    (hkd : k'.kernelDirectory = k.kernelDirectory.set (slotOf f) (frameEntry f flags)) :
    KeepsMappings k k' (p2v (f * pageSize)) ↔ SlotFree k flags f := by
  have hothers : ∀ j, j ≠ slotOf f → k'.kernelDirectory j = k.kernelDirectory j := fun j hj => by
    rw [hkd, Dir.set_ne _ _ hj]
  have hself : k'.kernelDirectory (slotOf f) = frameEntry f flags := by
    rw [hkd, Dir.set_self]
  constructor
  · rintro ⟨⟨i, hunchanged, hchanged⟩, hpointer⟩
    have hle := (pointer_iff hf).mp hpointer
    by_cases hsame : k.kernelDirectory (slotOf f) = frameEntry f flags
    · exact .inr ⟨hle, hsame⟩
    · -- the slot is the one that has changed
      have hne : k'.kernelDirectory (slotOf f) ≠ k.kernelDirectory (slotOf f) := by
        rw [hself]
        exact fun h => hsame h.symm
      have hi : slotOf f = i := by
        by_contra hi
        exact hne (hunchanged _ hi)
      obtain ⟨hlo, hhi, habsent⟩ := hchanged (hi ▸ hne)
      rw [← hi] at hlo habsent
      have hlt : f < 256 := by
        rw [slotOf] at hlo
        omega
      rw [slotOf_of_lt hlt] at habsent
      exact .inl ⟨hlt, habsent⟩
  · rintro (⟨hlt, habsent⟩ | ⟨hle, hsame⟩)
    · refine ⟨⟨slotOf f, hothers, fun _ => ?_⟩, (pointer_iff hf).mpr (Nat.le_of_lt hlt)⟩
      rw [slotOf_of_lt hlt]
      exact ⟨Nat.le_add_right 768 f, by omega, habsent⟩
    · refine ⟨⟨slotOf f, hothers, fun hne => absurd ?_ hne⟩, (pointer_iff hf).mpr hle⟩
      rw [hself, hsame]

/-- The frame of a new directory is the least one that is not used. -/
theorem isLeast_of_pfaAlloc {pfa : Pfa} (hf : f < maxFrames)
    (haddr : (pfaAlloc pfa).1 = f * pageSize) (hfree : pfaTest pfa f = false) :
    IsLeast (allFrames \ usedFrames pfa) f := by
  have hnot : ¬ allFrames ⊆ usedFrames pfa := fun hfull => by
    have hused := (hfull (mem_allFrames.mpr hf)).2
    rw [hfree] at hused
    cases hused
  obtain ⟨g, hleast⟩ := exists_least hnot
  rw [pfaAlloc_of_least (tells_usedFrames pfa) hleast] at haddr
  have heq : g = f := Nat.eq_of_mul_eq_mul_right (Nat.pos_of_ne_zero pageSize_ne_zero) haddr
  exact heq ▸ hleast

end Create

/-- While frame 0 is used, a new directory overwrites no kernel mapping exactly when there
    is no frame for it, or its slot is free. -/
theorem keepsMappings_iff {k : Kernel} (hcr3 : k.cr3 = none) (hzero : pfaTest k.pfa 0 = true)
    (flags : Nat) :
    (∃ ptr k', k.pageCreateDir flags = .ok (ptr, k') ∧ KeepsMappings k k' ptr) ↔
      ∀ f, IsLeast (allFrames \ usedFrames k.pfa) f → SlotFree k flags f := by
  obtain ⟨ptr, k', hcall⟩ := pageCreateDir_isOk hcr3 flags
  have hresult : (∃ p k₁, k.pageCreateDir flags = .ok (p, k₁) ∧ KeepsMappings k k₁ p)
      ↔ KeepsMappings k k' ptr := by
    constructor
    · rintro ⟨p, k₁, hcall', h⟩
      rw [hcall] at hcall'
      obtain ⟨rfl, rfl⟩ := Prod.mk.inj (Except.ok.inj hcall')
      exact h
    · exact fun h => ⟨ptr, k', hcall, h⟩
  rw [hresult]
  rcases pageCreateDir_cases hcr3 hzero hcall with
    ⟨rfl, haddr, rfl⟩ | ⟨f, hlt, haddr, hfree, hptr, -, hkd, -⟩
  · -- no frame: nothing has changed
    have hfull := (pfaAlloc_eq_zero_iff (tells_usedFrames k'.pfa)
      (zero_mem_usedFrames hzero)).mp haddr
    constructor
    · intro _ f hleast
      exact absurd (hfull hleast.1.1) hleast.1.2
    · intro _
      exact ⟨⟨0, fun _ _ => rfl, fun hne => absurd rfl hne⟩, fun hne => absurd rfl hne⟩
  · have hleast := isLeast_of_pfaAlloc hlt haddr hfree
    rw [hptr, keepsMappings_iff_slotFree hlt hkd]
    constructor
    · intro h g hg
      rwa [hg.unique hleast]
    · exact fun h => h f hleast

/-- The first directory of a cold machine: frame 12, slot 780 -/
theorem keepsMappings_iff_cold :
    ∃ ptr k', Kernel.coldKernel.pageCreateDir userFlags = .ok (ptr, k') ∧
      KeepsMappings Kernel.coldKernel k' ptr := by
  have hempty : entryPresent 0 = false := by decide
  have habsent : ∀ i, entryPresent (Kernel.coldKernel.kernelDirectory i) = false := fun _ => hempty
  refine (keepsMappings_iff rfl (by decide) userFlags).mpr fun f hleast => .inl ⟨?_, habsent _⟩
  have hfree : 12 ∈ allFrames \ usedFrames Kernel.coldKernel.pfa :=
    ⟨mem_allFrames.mpr (by decide), fun hused => absurd hused.2 (by decide)⟩
  exact Nat.lt_of_le_of_lt (hleast.2 hfree) (by decide)

/-- A machine whose lowest free frame is frame 128, with the directory it boots with -/
def crowdedKernel : Kernel := { Kernel.coldKernel with
  pfa := pfaClear (pfaInit ⟨fun _ => 0⟩) 128
  kernelDirectory := Machine.bootDirectory }

theorem pfaTest_crowdedKernel {f : Nat} (hf : f < maxFrames) (hne : f ≠ 128) :
    pfaTest crowdedKernel.pfa f = true := by
  rw [crowdedKernel, pfaTest_pfaClear_ne _ hne]
  exact pfaTest_pfaInit _ hf

/-- The mapping of the framebuffer is overwritten by a new directory. -/
theorem exists_mapping_overwritten :
    ¬ ∀ (k : Kernel) (flags : Nat), k.cr3 = none →
      (∀ f, Machine.kernelFrame f → pfaTest k.pfa f = true) →
      (∀ f, Machine.framebufferFrame f → pfaTest k.pfa f = true) →
      ∃ ptr k', k.pageCreateDir flags = .ok (ptr, k') ∧ KeepsMappings k k' ptr := by
  intro hall
  have hframes : ∀ f, Machine.kernelFrame f ∨ Machine.framebufferFrame f →
      f < maxFrames ∧ f ≠ 128 := by
    simp only [Machine.kernelFrame, Machine.framebufferFrame, kernelPhysBase, kernelPhysEnd,
      framebufferPhysBase, framebufferSize, pageSize, maxFrames]
    omega
  have hused := fun f hf => pfaTest_crowdedKernel (hframes f hf).1 (hframes f hf).2
  obtain ⟨ptr, k', hcall, hkeeps⟩ := hall crowdedKernel userFlags rfl (fun f hf => hused f (.inl hf))
    (fun f hf => hused f (.inr hf))
  have hzero : pfaTest crowdedKernel.pfa 0 = true :=
    pfaTest_crowdedKernel (Nat.succ_pos 1023) (by decide)
  have hfree : pfaTest crowdedKernel.pfa 128 = false := pfaTest_pfaClear_self _ 128
  rcases pageCreateDir_cases rfl hzero hcall with
    ⟨-, haddr, -⟩ | ⟨f, hlt, -, hbit, hptr, -, hkd, -⟩
  · exact pfaAlloc_ne_zero hzero (show 128 < maxFrames by decide) hfree haddr
  · -- frame 128 is the only one there is, and its slot the framebuffer's
    have hf : f = 128 := by
      by_contra hne
      rw [pfaTest_crowdedKernel hlt hne] at hbit
      cases hbit
    subst hf
    rw [hptr] at hkeeps
    rcases (keepsMappings_iff_slotFree hlt hkd).mp hkeeps with ⟨-, habsent⟩ | ⟨-, hsame⟩
    · exact absurd habsent (by decide)
    · exact absurd hsame (by decide)

end Icarius
