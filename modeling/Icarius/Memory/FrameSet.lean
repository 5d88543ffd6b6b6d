/-
  Icarius.Memory.FrameSet

  The page frame allocator is a pool of frames: under any calls that keep frame 0 set,
  its bitmap says which frames are used, `pfa_alloc` hands out the least one that is
  not, and reports 0 when there is none.
-/

import Icarius.Lib.Pool
import Icarius.Memory.Pfa
import Mathlib.Data.Nat.Find

namespace Icarius

open Icarius.Lib

/-! ## Calls -/

/-- A call of the allocator -/
inductive PfaCall where
  | set (frame : Nat)
  | clear (frame : Nat)
  | alloc
  deriving DecidableEq, Repr

/-- The allocator with what its callers have seen of it -/
structure PfaLog where
  pfa : Pfa
  log : List (PoolEvent Nat)

/-- What the caller of `pfa_alloc` sees: 0 is a refusal, another address a frame. -/
def allocEvent (physAddr : Nat) : PoolEvent Nat :=
  if physAddr = 0 then .refuse else .take (physAddr / pageSize)

/-- One call -/
def PfaLog.step (s : PfaLog) : PfaCall → Option PfaLog
  | .set frame => some ⟨pfaSet s.pfa frame, s.log ++ [.mark frame]⟩
  | .clear frame => some ⟨pfaClear s.pfa frame, s.log ++ [.free frame]⟩
  | .alloc =>
      let r := pfaAlloc s.pfa
      some ⟨r.2, s.log ++ [allocEvent r.1]⟩

theorem PfaLog.step_alloc (s : PfaLog) : s.step .alloc
    = some ⟨(pfaAlloc s.pfa).2, s.log ++ [allocEvent (pfaAlloc s.pfa).1]⟩ := rfl

/-- The calls name frames there are, and leave frame 0 set. -/
def PfaCall.KeepsZero : PfaCall → Prop
  | .set frame => frame < maxFrames
  | .clear frame => frame < maxFrames ∧ frame ≠ 0
  | .alloc => True

/-- The frames there are -/
def allFrames : Set Nat := {f | f < maxFrames}

theorem mem_allFrames {f : Nat} : f ∈ allFrames ↔ f < maxFrames := Iff.rfl

/-- The frames whose bit is set -/
def usedFrames (self : Pfa) : Set Nat := {f | f < maxFrames ∧ pfaTest self f = true}

theorem zero_mem_usedFrames {self : Pfa} (h : pfaTest self 0 = true) : 0 ∈ usedFrames self :=
  ⟨Nat.succ_pos 1023, h⟩

/-- The bitmap says which frames are used. -/
def Pfa.Tells (self : Pfa) (used : Set Nat) : Prop :=
  ∀ f < maxFrames, pfaTest self f = true ↔ f ∈ used

/-! ## What a call does to the set -/

section Calls

variable {self : Pfa} {used : Set Nat} {frame : Nat}

theorem tells_usedFrames (self : Pfa) : self.Tells (usedFrames self) :=
  fun _ hf => ⟨fun h => ⟨hf, h⟩, fun h => h.2⟩

theorem Pfa.Tells.set (h : self.Tells used) (frame : Nat) :
    (pfaSet self frame).Tells (insert frame used) := by
  intro f hf
  by_cases hself : f = frame
  · rw [hself, pfaTest_pfaSet_self]
    exact ⟨fun _ => Set.mem_insert frame used, fun _ => rfl⟩
  · rw [pfaTest_pfaSet_ne self hself, Set.mem_insert_iff, h f hf]
    exact ⟨.inr, fun hmem => hmem.resolve_left hself⟩

theorem Pfa.Tells.clear (h : self.Tells used) (frame : Nat) :
    (pfaClear self frame).Tells (used \ {frame}) := by
  intro f hf
  by_cases hself : f = frame
  · rw [hself, pfaTest_pfaClear_self]
    exact ⟨nofun, fun hmem => absurd rfl hmem.2⟩
  · rw [pfaTest_pfaClear_ne self hself, h f hf]
    exact ⟨fun hmem => ⟨hmem, hself⟩, fun hmem => hmem.1⟩

/-- The search from frame 0 upwards stops at the least frame that is not used. -/
theorem pfaAlloc_of_least (h : self.Tells used) (hleast : IsLeast (allFrames \ used) frame) :
    pfaAlloc self = (frame * pageSize, pfaSet self frame) := by
  obtain ⟨⟨hlt, hfree⟩, hlow⟩ := hleast
  have hfind : (List.range maxFrames).find? (fun f => !pfaTest self f) = some frame := by
    rw [List.find?_range_eq_some]
    refine ⟨?_, List.mem_range.mpr (mem_allFrames.mp hlt), fun f hf => ?_⟩
    · rw [Bool.not_eq_true', ← Bool.not_eq_true, h frame (mem_allFrames.mp hlt)]
      exact hfree
    · -- a frame in front of the least one is used
      have hin : f < maxFrames := Nat.lt_trans hf (mem_allFrames.mp hlt)
      have hused : f ∈ used := by
        by_contra hnot
        exact absurd (hlow ⟨mem_allFrames.mpr hin, hnot⟩) (Nat.not_le.mpr hf)
      rw [(h f hin).mpr hused]
      rfl
  unfold pfaAlloc
  simp only [hfind]

/-- With every frame used, nothing changes. -/
theorem pfaAlloc_of_full (h : self.Tells used) (hfull : allFrames ⊆ used) :
    pfaAlloc self = (0, self) := by
  have hfind : (List.range maxFrames).find? (fun f => !pfaTest self f) = none := by
    rw [List.find?_eq_none]
    intro f hf
    have hlt := List.mem_range.mp hf
    rw [(h f hlt).mpr (hfull (mem_allFrames.mpr hlt))]
    decide
  unfold pfaAlloc
  simp only [hfind]

/-- There is a least frame among those that are not used. -/
theorem exists_least (hnot : ¬ allFrames ⊆ used) : ∃ f, IsLeast (allFrames \ used) f := by
  obtain ⟨f, hf⟩ := Set.not_subset.mp hnot
  classical
  exact ⟨_, Nat.find_spec ⟨f, hf⟩, fun g hg => Nat.find_min' ⟨f, hf⟩ hg⟩

/-- While frame 0 is used, `pfa_alloc` reports 0 only when every frame is. -/
theorem pfaAlloc_eq_zero_iff (h : self.Tells used) (hzero : 0 ∈ used) :
    (pfaAlloc self).1 = 0 ↔ allFrames ⊆ used := by
  constructor
  · intro haddr
    by_contra hnot
    obtain ⟨f, hleast⟩ := exists_least hnot
    rw [pfaAlloc_of_least h hleast] at haddr
    have hf : f = 0 := (Nat.mul_eq_zero.mp haddr).resolve_right pageSize_ne_zero
    exact hleast.1.2 (hf ▸ hzero)
  · intro hfull
    rw [pfaAlloc_of_full h hfull]

/-- What `pfa_alloc` does is what the pool does. -/
theorem poolStep_allocEvent (h : self.Tells used) (hzero : 0 ∈ used) :
    ∃ used', poolStep allFrames used (allocEvent (pfaAlloc self).1) = some used' ∧
      (pfaAlloc self).2.Tells used' ∧ used ⊆ used' := by
  by_cases hfull : allFrames ⊆ used
  · rw [pfaAlloc_of_full h hfull]
    exact ⟨used, poolStep_refuse.mpr ⟨hfull, rfl⟩, h, subset_rfl⟩
  · obtain ⟨f, hleast⟩ := exists_least hfull
    have hne : f * pageSize ≠ 0 := by
      have := (pfaAlloc_eq_zero_iff h hzero).not.mpr hfull
      rwa [pfaAlloc_of_least h hleast] at this
    have hframe : f * pageSize / pageSize = f :=
      Nat.mul_div_cancel f (Nat.pos_of_ne_zero pageSize_ne_zero)
    rw [pfaAlloc_of_least h hleast, allocEvent, if_neg hne, hframe]
    exact ⟨insert f used, poolStep_take.mpr ⟨hleast, rfl⟩, h.set f, Set.subset_insert f used⟩

end Calls

/-! ## Runs -/

/-- The log of an allocator that has not been called yet -/
def PfaLog.start (self : Pfa) : PfaLog := ⟨self, []⟩

/-- What was seen is a run of the pool, and the bitmap tells the frames used at its end,
    frame 0 among them. -/
def PfaLog.Inv (start : Pfa) (s : PfaLog) : Prop :=
  ∃ used, PoolRun allFrames (usedFrames start) s.log used ∧ s.pfa.Tells used ∧ 0 ∈ used

theorem PfaLog.inv_intro {start pfa : Pfa} {log : List (PoolEvent Nat)} {used : Set Nat}
    (hrun : PoolRun allFrames (usedFrames start) log used) (htells : pfa.Tells used)
    (hzero : 0 ∈ used) : PfaLog.Inv start ⟨pfa, log⟩ :=
  ⟨used, hrun, htells, hzero⟩

/-- A call is a step of the pool. -/
theorem PfaLog.Inv.step {start : Pfa} {s s' : PfaLog} {c : PfaCall} (hinv : s.Inv start)
    (hok : c.KeepsZero) (hstep : s.step c = some s') : s'.Inv start := by
  obtain ⟨used, hrun, htells, hzero⟩ := hinv
  cases c with
  | set frame =>
      obtain rfl := Option.some.inj hstep
      exact PfaLog.inv_intro (hrun.snoc trivial rfl) (htells.set frame)
        (Set.mem_insert_of_mem frame hzero)
  | clear frame =>
      obtain rfl := Option.some.inj hstep
      exact PfaLog.inv_intro (hrun.snoc trivial rfl) (htells.clear frame) ⟨hzero, hok.2.symm⟩
  | alloc =>
      rw [PfaLog.step_alloc] at hstep
      obtain rfl := Option.some.inj hstep
      obtain ⟨used', hpool, htells', hsub⟩ := poolStep_allocEvent htells hzero
      exact PfaLog.inv_intro (Runs.snoc hrun trivial hpool) htells' (hsub hzero)

/-- The frame bitmap refines a pool of frames: after any calls that keep frame 0 set, what
    the callers have seen is what the pool shows them, `pfa_test` is membership in its
    used frames, the next `pfa_alloc` returns 4 MiB times the least frame that is not used
    and adds it alone, or 0 and changes nothing, exactly when all are used, and a frame
    that was returned twice has been cleared in between. -/
theorem frame_bitmap_refines_set {start : Pfa} (hzero : pfaTest start 0 = true)
    {calls : List PfaCall} {s : PfaLog}
    (hrun : Runs PfaLog.step (fun _ c => c.KeepsZero) (PfaLog.start start) calls s) :
    ∃ used : Set Nat, PoolRun allFrames (usedFrames start) s.log used
      ∧ (∀ f < maxFrames, pfaTest s.pfa f = true ↔ f ∈ used)
      ∧ (∀ f, IsLeast (allFrames \ used) f → (pfaAlloc s.pfa).1 = pageSize * f
          ∧ ∀ g < maxFrames, pfaTest (pfaAlloc s.pfa).2 g = true ↔ g ∈ insert f used)
      ∧ ((pfaAlloc s.pfa).1 = 0 ↔ allFrames ⊆ used)
      ∧ ((pfaAlloc s.pfa).1 = 0 → (pfaAlloc s.pfa).2 = s.pfa)
      ∧ ∀ (before between after : List (PoolEvent Nat)) (f : Nat),
          s.log = before ++ .take f :: (between ++ .take f :: after) → .free f ∈ between := by
  have hstart : (PfaLog.start start).Inv start :=
    ⟨usedFrames start, .nil, tells_usedFrames start, zero_mem_usedFrames hzero⟩
  obtain ⟨used, hpool, htells, hused⟩ := hrun.invariant (PfaLog.Inv start) hstart
    fun _ _ _ hinv hok hstep => hinv.step hok hstep
  refine ⟨used, hpool, htells, ?_, pfaAlloc_eq_zero_iff htells hused, ?_, ?_⟩
  · intro f hleast
    rw [pfaAlloc_of_least htells hleast]
    exact ⟨Nat.mul_comm f pageSize, htells.set f⟩
  · intro haddr
    rw [pfaAlloc_of_full htells ((pfaAlloc_eq_zero_iff htells hused).mp haddr)]
  · intro before between after f hlog
    rw [hlog] at hpool
    exact hpool.free_between

/-- All frames used but frame 12: it is returned, and returned again once it is cleared. -/
theorem frame_bitmap_refines_set_twice :
    let start := pfaClear (pfaInit ⟨fun _ => 0⟩) 12
    ∃ s, Runs PfaLog.step (fun _ c => c.KeepsZero) (PfaLog.start start)
        [.alloc, .clear 12, .alloc] s
      ∧ ∃ used : Set Nat, ∀ f < maxFrames, pfaTest s.pfa f = true ↔ f ∈ used := by
  intro start
  have hzero : pfaTest start 0 = true := by
    rw [pfaTest_pfaClear_ne _ (by decide)]
    exact pfaTest_pfaInit _ (by decide)
  have hrun : Runs PfaLog.step (fun _ c => c.KeepsZero) (PfaLog.start start)
      [.alloc, .clear 12, .alloc] _ :=
    ((Runs.nil.snoc trivial rfl).snoc ⟨by decide, by decide⟩ rfl).snoc trivial rfl
  obtain ⟨used, -, htells, -⟩ := frame_bitmap_refines_set hzero hrun
  exact ⟨_, hrun, used, htells⟩

end Icarius
