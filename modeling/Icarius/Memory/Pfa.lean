/-
  Icarius.Memory.Pfa

  The page frame allocator of `src/x86/memory/pfa.c`: one bit for each 4 MiB
  frame, 32 bits a word.  Everything later proofs use is what a set, a clear and
  an allocation do to `pfaTest`.
-/

import Icarius.Config
import Mathlib.Data.List.Basic

namespace Icarius

/-- `pfa_t` -/
structure Pfa where
  framesBitmap : Nat → BitVec 32

/-- `pfa_init`: every frame is used until the memory map says otherwise. -/
def pfaInit (self : Pfa) : Pfa where
  framesBitmap := fun i => if i < maxFrames / 32 then 0xFFFFFFFF#32 else self.framesBitmap i

/-- `pfa_set` -/
def pfaSet (self : Pfa) (frame : Nat) : Pfa where
  framesBitmap := fun i =>
    if i = frame / 32 then self.framesBitmap i ||| (1#32 <<< (frame % 32))
    else self.framesBitmap i

/-- `pfa_clear` -/
def pfaClear (self : Pfa) (frame : Nat) : Pfa where
  framesBitmap := fun i =>
    if i = frame / 32 then self.framesBitmap i &&& ~~~(1#32 <<< (frame % 32))
    else self.framesBitmap i

/-- `pfa_test` -/
def pfaTest (self : Pfa) (frame : Nat) : Bool :=
  (self.framesBitmap (frame / 32) &&& (1#32 <<< (frame % 32))) != 0#32

/-- `pfa_alloc`: the physical address of the first free frame, 0 for none. -/
def pfaAlloc (self : Pfa) : Nat × Pfa :=
  match (List.range maxFrames).find? fun frame => !pfaTest self frame with
  | some frame => (frame * pageSize, pfaSet self frame)
  | none => (0, self)

theorem pageSize_ne_zero : pageSize ≠ 0 := by decide

/-! ## Bits -/

theorem pfaTest_eq_getLsbD (self : Pfa) (frame : Nat) :
    pfaTest self frame = (self.framesBitmap (frame / 32)).getLsbD (frame % 32) := by
  have hlt : frame % 32 < 32 := Nat.mod_lt _ (by omega)
  have hpow : BitVec.twoPow 32 (frame % 32) ≠ 0#32 := by
    intro h
    have hbit := congrArg (fun v : BitVec 32 => v.getLsbD (frame % 32)) h
    simp [hlt] at hbit
  rw [pfaTest, ← BitVec.twoPow_eq, BitVec.and_twoPow]
  split
  · rename_i hbit
    rw [hbit, bne_iff_ne]
    exact hpow
  · rename_i hbit
    rw [Bool.not_eq_true] at hbit
    simp [hbit]

theorem div_mod_ne {f g : Nat} (h : g ≠ f) : g / 32 ≠ f / 32 ∨ g % 32 ≠ f % 32 := by
  omega

@[simp] theorem pfaTest_pfaSet_self (self : Pfa) (frame : Nat) :
    pfaTest (pfaSet self frame) frame = true := by
  have hlt : frame % 32 < 32 := Nat.mod_lt _ (by omega)
  simp [pfaTest_eq_getLsbD, pfaSet, hlt]

theorem pfaTest_pfaSet_ne (self : Pfa) {f g : Nat} (h : g ≠ f) :
    pfaTest (pfaSet self f) g = pfaTest self g := by
  simp only [pfaTest_eq_getLsbD, pfaSet]
  split
  · rename_i hword
    have hbit : g % 32 ≠ f % 32 := (div_mod_ne h).resolve_left (fun hne => hne hword)
    have hlt : g % 32 < 32 := Nat.mod_lt _ (by omega)
    simp only [BitVec.getLsbD_or, BitVec.getLsbD_shiftLeft, BitVec.getLsbD_one]
    by_cases hless : g % 32 < f % 32
    · simp [hless]
    · simp [hless, show g % 32 - f % 32 ≠ 0 by omega]
  · rfl

@[simp] theorem pfaTest_pfaClear_self (self : Pfa) (frame : Nat) :
    pfaTest (pfaClear self frame) frame = false := by
  have hlt : frame % 32 < 32 := Nat.mod_lt _ (by omega)
  simp [pfaTest_eq_getLsbD, pfaClear, hlt]

theorem pfaTest_pfaClear_ne (self : Pfa) {f g : Nat} (h : g ≠ f) :
    pfaTest (pfaClear self f) g = pfaTest self g := by
  simp only [pfaTest_eq_getLsbD, pfaClear]
  split
  · rename_i hword
    have hbit : g % 32 ≠ f % 32 := (div_mod_ne h).resolve_left (fun hne => hne hword)
    have hlt : g % 32 < 32 := Nat.mod_lt _ (by omega)
    by_cases hless : g % 32 < f % 32
    · simp [hless, hlt]
    · simp [hless, hlt, show g % 32 - f % 32 ≠ 0 by omega]
  · rfl

theorem pfaTest_pfaInit (self : Pfa) {f : Nat} (h : f < maxFrames) :
    pfaTest (pfaInit self) f = true := by
  have hword : f / 32 < maxFrames / 32 := by
    simp only [maxFrames] at h ⊢
    omega
  have hlt : f % 32 < 32 := Nat.mod_lt _ (by omega)
  have hones : (0xFFFFFFFF#32) = BitVec.allOnes 32 := rfl
  rw [pfaTest_eq_getLsbD, pfaInit]
  simp only [hword, if_true, hones, BitVec.getLsbD_allOnes, hlt, decide_true]

/-! ## Allocation -/

/-- A successful allocation sets the bit of a frame that was free. -/
theorem pfaAlloc_spec {self self' : Pfa} {addr : Nat} (h : pfaAlloc self = (addr, self'))
    (haddr : addr ≠ 0) : ∃ frame < maxFrames, frame ≠ 0 ∧ pfaTest self frame = false ∧
      addr = frame * pageSize ∧ self' = pfaSet self frame := by
  unfold pfaAlloc at h
  split at h
  · rename_i frame hfind
    simp only [Prod.mk.injEq] at h
    obtain ⟨rfl, rfl⟩ := h
    have hfree := List.find?_some hfind
    have hmem := List.mem_of_find?_eq_some hfind
    refine ⟨frame, List.mem_range.mp hmem, ?_, by simpa using hfree, rfl, rfl⟩
    rintro rfl
    exact haddr (Nat.zero_mul _)
  · simp only [Prod.mk.injEq] at h
    exact absurd h.1.symm haddr

/-- An allocation that reports 0 leaves the bitmap alone, unless it took frame 0. -/
theorem pfaAlloc_zero {self self' : Pfa} (h : pfaAlloc self = (0, self')) :
    self' = self ∨ pfaTest self 0 = false := by
  unfold pfaAlloc at h
  split at h
  · rename_i frame hfind
    simp only [Prod.mk.injEq] at h
    have hzero : frame = 0 := by
      have := h.1
      simp only [pageSize] at this
      omega
    subst hzero
    exact .inr (by simpa using List.find?_some hfind)
  · simp only [Prod.mk.injEq] at h
    exact .inl h.2.symm

/-- While frame 0 is used and some frame is free, an allocation succeeds. -/
theorem pfaAlloc_ne_zero {self : Pfa} {frame : Nat} (hzero : pfaTest self 0 = true)
    (hlt : frame < maxFrames) (hfree : pfaTest self frame = false) : (pfaAlloc self).1 ≠ 0 := by
  unfold pfaAlloc
  split
  · rename_i f hfind
    have hf : f ≠ 0 := by
      rintro rfl
      have := List.find?_some hfind
      simp [hzero] at this
    simp only [pageSize]
    omega
  · rename_i hnone
    rw [List.find?_eq_none] at hnone
    have := hnone frame (List.mem_range.mpr hlt)
    simp [hfree] at this

end Icarius
