/-
  Icarius.Memory.PageRange

  What `page_unmap_between` and `page_map_between` do to a range of addresses.

  Unmapping takes a page for absent when its physical address is 0, and so leaves the
  page that frame 0 is behind.  Mapping rounds its bounds to 4 KiB and steps by 4 MiB,
  and so misses the last page when the range ends lower in its page than it starts.
-/

import Icarius.Memory.FrameSet
import Icarius.Memory.Supply
import Icarius.Process.Model

namespace Icarius

open Icarius.Lib
open Kernel (coldKernel)

/-! ## Rounding -/

/-- A bound rounded down to 4 KiB -/
theorem and_mask4k {a : Nat} (h : a < 2 ^ 32) : a &&& 0xFFFFF000 = a / 4096 * 4096 := by
  have hmask : (0xFFFFF000 : Nat) = (2 ^ 20 - 1) * 2 ^ 12 := by decide
  apply Nat.eq_of_testBit_eq
  intro i
  rw [show (4096 : Nat) = 2 ^ 12 from rfl, hmask, Nat.testBit_and, Nat.testBit_mul_two_pow,
    Nat.testBit_mul_two_pow, Nat.testBit_two_pow_sub_one, Nat.testBit_div_two_pow]
  by_cases hlow : 12 ≤ i
  · have hback : i - 12 + 12 = i := Nat.sub_add_cancel hlow
    by_cases hhigh : i - 12 < 20
    · simp [hlow, hhigh, hback]
    · -- the address has no bit up there
      have hbit : a.testBit i = false :=
        Nat.testBit_lt_two_pow (Nat.lt_of_lt_of_le h (Nat.pow_le_pow_right (by decide) (by omega)))
      simp [hbit, hback]
  · simp [hlow]

/-- The directory entry `i` covers an address of the range. -/
def Covers (start stop i : Nat) : Prop := ∃ a, start ≤ a ∧ a < stop ∧ pdIndex a = i

/-- The entries that cover a range are those from its first page to its last. -/
theorem covers_iff {start stop i : Nat} (h : start < stop) :
    Covers start stop i ↔ pdIndex start ≤ i ∧ i ≤ pdIndex (stop - 1) := by
  simp only [Covers, pdIndex, Nat.shiftRight_eq_div_pow]
  constructor
  · rintro ⟨a, hlo, hhi, rfl⟩
    exact ⟨Nat.div_le_div_right hlo, Nat.div_le_div_right (by omega)⟩
  · rintro ⟨hlo, hhi⟩
    -- the start itself on its own page, the first address on a later one
    rcases Nat.lt_or_eq_of_le hlo with hlt | heq
    · refine ⟨i * 2 ^ 22, ?_, ?_, Nat.mul_div_cancel i (by decide)⟩
      · omega
      · omega
    · exact ⟨start, Nat.le_refl start, h, heq⟩

/-! ## Unmapping -/

/-- The entry is present and has another frame than frame 0 behind it. -/
def Dir.Shown (dir : Dir) (i : Nat) : Prop :=
  entryPresent (dir i) = true ∧ entryFrame (dir i) ≠ 0

instance (dir : Dir) (i : Nat) : Decidable (dir.Shown i) := inferInstanceAs (Decidable (_ ∧ _))

/-- These are the pages the loop takes for mapped. -/
theorem shown_iff {dir : Dir} {i : Nat} :
    pageGetPhysAddr dir (i * pageSize) ≠ 0 ↔ dir.Shown i := by
  rw [pageGetPhysAddr_page, Dir.Shown]
  split
  · rename_i hpresent
    rw [Nat.mul_ne_zero_iff]
    exact ⟨fun h => ⟨hpresent, h.1⟩, fun h => ⟨h.2, pageSize_ne_zero⟩⟩
  · rename_i habsent
    exact ⟨fun h => absurd rfl h, fun h => absurd h.1 habsent⟩

/-- What the loop has done behind `n` pages: the entries it took for mapped are empty, and
    the bits of their frames clear. -/
theorem pageUnmapLoop_spec (n i : Nat) (dir : Dir) (pfa : Pfa) :
    (∀ j, (pageUnmapLoop n (i * pageSize) dir pfa).1 j
      = if i ≤ j ∧ j < i + n ∧ dir.Shown j then 0 else dir j) ∧
    ∀ f, pfaTest (pageUnmapLoop n (i * pageSize) dir pfa).2 f = true ↔
      pfaTest pfa f = true ∧ ¬ ∃ j, i ≤ j ∧ j < i + n ∧ dir.Shown j ∧ entryFrame (dir j) = f := by
  -- on the pages left; the entries behind page `i` are as in `dir`
  induction n generalizing i dir pfa with
  | zero =>
      refine ⟨fun j => (if_neg (by omega)).symm, fun f => ⟨fun h => ⟨h, ?_⟩, And.left⟩⟩
      rintro ⟨j, hlo, hhi, -⟩
      omega
  | succ n ih =>
      have hnext : i * pageSize + pageSize = (i + 1) * pageSize := (Nat.succ_mul i pageSize).symm
      have hindex : pageUnmapDir dir (i * pageSize) = dir.set i 0 := by
        rw [pageUnmapDir, pdIndex, Nat.shiftRight_eq_div_pow]
        exact congrArg (dir.set · 0) (Nat.mul_div_cancel i (by decide))
      unfold pageUnmapLoop
      simp only [hnext]
      split
      · -- the page is unmapped
        rename_i hphys
        have hshown : dir.Shown i := shown_iff.mp hphys
        rw [hindex, physAddr_frame hshown.1]
        obtain ⟨hdir, hpfa⟩ := ih (i + 1) (dir.set i 0) (pfaClear pfa (entryFrame (dir i)))
        have hlater : ∀ j, j ≠ i → ((dir.set i 0).Shown j ↔ dir.Shown j) := fun j hj => by
          rw [Dir.Shown, Dir.set_ne dir 0 hj, Dir.Shown]
        refine ⟨fun j => ?_, fun f => ?_⟩
        · rw [hdir]
          by_cases hj : j = i
          · rw [hj, if_neg (by omega), Dir.set_self, if_pos ⟨Nat.le_refl i, by omega, hshown⟩]
          · rw [Dir.set_ne dir 0 hj]
            refine if_congr ⟨?_, ?_⟩ rfl rfl
            · rintro ⟨hlo, hhi, hs⟩
              exact ⟨by omega, by omega, (hlater j hj).mp hs⟩
            · rintro ⟨hlo, hhi, hs⟩
              exact ⟨by omega, by omega, (hlater j hj).mpr hs⟩
        · rw [hpfa]
          by_cases hf : f = entryFrame (dir i)
          · -- the frame of this page
            rw [hf, pfaTest_pfaClear_self]
            refine ⟨fun h => absurd h.1 (by decide), fun h => absurd ?_ h.2⟩
            exact ⟨i, Nat.le_refl i, by omega, hshown, rfl⟩
          · rw [pfaTest_pfaClear_ne pfa hf]
            refine and_congr_right fun _ => not_congr ⟨?_, ?_⟩
            · rintro ⟨j, hlo, hhi, hj, hframe⟩
              rw [hlater j (by omega)] at hj
              rw [Dir.set_ne dir 0 (by omega)] at hframe
              exact ⟨j, by omega, by omega, hj, hframe⟩
            · rintro ⟨j, hlo, hhi, hj, hframe⟩
              have hne : j ≠ i := fun heq => hf (heq ▸ hframe.symm)
              refine ⟨j, by omega, by omega, (hlater j hne).mpr hj, ?_⟩
              rw [Dir.set_ne dir 0 hne]
              exact hframe
      · -- the page is left alone
        rename_i hphys
        have hhidden : ¬ dir.Shown i := fun h => hphys (shown_iff.mpr h)
        obtain ⟨hdir, hpfa⟩ := ih (i + 1) dir pfa
        have hsame : ∀ j, i + 1 ≤ j ∧ j < i + 1 + n ∧ dir.Shown j
            ↔ i ≤ j ∧ j < i + (n + 1) ∧ dir.Shown j := by
          intro j
          by_cases hj : j = i
          · exact ⟨fun h => absurd h.1 (by omega), fun h => absurd (hj ▸ h.2.2) hhidden⟩
          · exact ⟨fun h => ⟨by omega, by omega, h.2.2⟩, fun h => ⟨by omega, by omega, h.2.2⟩⟩
        refine ⟨fun j => ?_, fun f => ?_⟩
        · rw [hdir]
          exact if_congr (hsame j) rfl rfl
        · rw [hpfa]
          refine and_congr_right fun _ => not_congr (exists_congr fun j => ?_)
          have := hsame j
          constructor
          · rintro ⟨hlo, hhi, hj, hframe⟩
            obtain ⟨hlo', hhi', hj'⟩ := this.mp ⟨hlo, hhi, hj⟩
            exact ⟨hlo', hhi', hj', hframe⟩
          · rintro ⟨hlo, hhi, hj, hframe⟩
            obtain ⟨hlo', hhi', hj'⟩ := this.mpr ⟨hlo, hhi, hj⟩
            exact ⟨hlo', hhi', hj', hframe⟩

/-- `_remove_identity_mapping` -/
def removeIdentityMapping (dir : Dir) (pfa : Pfa) : Dir × Pfa :=
  pageUnmapBetween dir pfa 0x00000000 0x00400000

/-- The range is unmapped: no entry that covers one of its addresses is present, of the
    bitmap exactly the frames these entries mapped are cleared, and every other entry
    is as it was. -/
structure UnmapsRange (dir : Dir) (pfa : Pfa) (start stop : Nat) (after : Dir × Pfa) : Prop where
  gone : ∀ i, Covers start stop i → entryPresent (after.1 i) = false
  frames : ∀ f, pfaTest after.2 f = true ↔
    pfaTest pfa f = true ∧ ¬ Maps dir (Covers start stop) f
  others : ∀ i, ¬ Covers start stop i → after.1 i = dir i

/-- The pages of an aligned range -/
theorem pageUnmapBetween_eq {dir : Dir} {pfa : Pfa} {start stop : Nat}
    (hstart : start % pageSize = 0) (hstop : stop % pageSize = 0) (hlt : start < stop)
    (hle : stop ≤ 0xFFC00000) :
    pageUnmapBetween dir pfa start stop
      = pageUnmapLoop (pdIndex (stop - 1) + 1 - pdIndex start) (pdIndex start * pageSize) dir pfa := by
  have hround : start &&& 0xFFFFF000 = start := by
    rw [and_mask4k (by omega)]
    simp only [pageSize] at hstart
    omega
  have hfirst : pdIndex start * pageSize = start := by
    simp only [pdIndex, Nat.shiftRight_eq_div_pow, pageSize] at hstart ⊢
    omega
  have hcount : (stop - start + (pageSize - 1)) / pageSize
      = pdIndex (stop - 1) + 1 - pdIndex start := by
    simp only [pdIndex, Nat.shiftRight_eq_div_pow, pageSize] at hstart hstop ⊢
    omega
  rw [pageUnmapBetween, hround, hfirst, hcount]

/-- `page_unmap_between` unmaps its range exactly when none of the range's pages is mapped
    to frame 0. -/
theorem unmapsRange_iff {dir : Dir} {pfa : Pfa} {start stop : Nat}
    (hstart : start % pageSize = 0) (hstop : stop % pageSize = 0) (hlt : start < stop)
    (hle : stop ≤ 0xFFC00000) :
    UnmapsRange dir pfa start stop (pageUnmapBetween dir pfa start stop) ↔
      ∀ i, Covers start stop i → entryPresent (dir i) = true → entryFrame (dir i) ≠ 0 := by
  rw [pageUnmapBetween_eq hstart hstop hlt hle]
  obtain ⟨hdir, hpfa⟩ := pageUnmapLoop_spec (pdIndex (stop - 1) + 1 - pdIndex start)
    (pdIndex start) dir pfa
  have hcovers : ∀ i, Covers start stop i ↔
      pdIndex start ≤ i ∧ i < pdIndex start + (pdIndex (stop - 1) + 1 - pdIndex start) := by
    intro i
    rw [covers_iff hlt]
    omega
  constructor
  · intro h i hi hpresent hzero
    -- the entry has been left as it was
    have hgone := h.gone i hi
    rw [hdir, if_neg (fun hshown => hshown.2.2.2 hzero), hpresent] at hgone
    cases hgone
  · intro h
    refine ⟨fun i hi => ?_, fun f => ?_, fun i hi => ?_⟩
    · obtain ⟨hlo, hhi⟩ := (hcovers i).mp hi
      rw [hdir]
      split
      · rfl
      · rename_i hhidden
        rw [← Bool.not_eq_true]
        exact fun hpresent => hhidden ⟨hlo, hhi, hpresent, h i hi hpresent⟩
    · rw [hpfa, Maps]
      refine and_congr_right fun _ => not_congr (exists_congr fun i => ?_)
      rw [hcovers i, ← and_assoc, ← and_assoc]
      constructor
      · rintro ⟨⟨hrange, hshown⟩, hframe⟩
        exact ⟨hrange, hshown.1, hframe⟩
      · rintro ⟨hrange, hpresent, hframe⟩
        exact ⟨⟨hrange, hpresent, h i ((hcovers i).mpr hrange) hpresent⟩, hframe⟩
    · rw [hdir, if_neg]
      rintro ⟨hlo, hhi, -⟩
      exact hi ((hcovers i).mpr ⟨hlo, hhi⟩)

/-- A directory of one page, mapped to frame 12 -/
theorem unmapsRange_iff_one :
    UnmapsRange (Dir.set (fun _ => 0) 0 (frameEntry 12 kernelFlags)) ⟨fun _ => 0⟩ 0 0x400000
      (pageUnmapBetween (Dir.set (fun _ => 0) 0 (frameEntry 12 kernelFlags)) ⟨fun _ => 0⟩
        0 0x400000) := by
  refine (unmapsRange_iff (by decide) (by decide) (by decide) (by decide)).mpr fun i hi _ => ?_
  have hzero : i = 0 := by
    have := ((covers_iff (by decide)).mp hi).2
    exact Nat.le_zero.mp this
  rw [hzero]
  decide

/-- The boot mapping of page 0 is still there when it should be gone. -/
theorem removeIdentityMapping_boot (pfa : Pfa) :
    (removeIdentityMapping Machine.bootDirectory pfa).1 0 = Machine.bootDirectory 0 := by
  have hspec := (pageUnmapLoop_spec 1 0 Machine.bootDirectory pfa).1 0
  rw [if_neg (by decide)] at hspec
  exact hspec

/-- `_remove_identity_mapping` leaves the boot mapping of page 0. -/
theorem exists_page_left :
    ¬ ∀ (dir : Dir) (pfa : Pfa) (start stop : Nat), start % pageSize = 0 → stop % pageSize = 0 →
      start < stop → stop ≤ 0xFFC00000 →
      UnmapsRange dir pfa start stop (pageUnmapBetween dir pfa start stop) := by
  intro hall
  have hgone := (hall Machine.bootDirectory ⟨fun _ => 0⟩ 0x00000000 0x00400000 (by decide)
    (by decide) (by decide) (by decide)).gone 0 ⟨0, by decide, by decide, rfl⟩
  have hleft := removeIdentityMapping_boot ⟨fun _ => 0⟩
  rw [removeIdentityMapping] at hleft
  rw [hleft] at hgone
  exact absurd hgone (by decide)

/-! ## Frames to be had -/

/-- The frames whose bit is clear -/
def freeFrames (pfa : Pfa) : List Nat := (List.range maxFrames).filter fun f => !pfaTest pfa f

theorem mem_freeFrames {pfa : Pfa} {f : Nat} :
    f ∈ freeFrames pfa ↔ f < maxFrames ∧ pfaTest pfa f = false := by
  rw [freeFrames, List.mem_filter, List.mem_range, Bool.not_eq_true']

/-- Setting the bit of a free frame leaves one free frame fewer. -/
theorem length_freeFrames_pfaSet {pfa : Pfa} {f : Nat} (h : f ∈ freeFrames pfa) :
    (freeFrames (pfaSet pfa f)).length = (freeFrames pfa).length - 1 := by
  have hnodup : (freeFrames pfa).Nodup := List.Pairwise.filter _ List.nodup_range
  have herase : freeFrames (pfaSet pfa f) = (freeFrames pfa).erase f := by
    rw [hnodup.erase_eq_filter, freeFrames, freeFrames, List.filter_filter]
    apply List.filter_congr
    intro g _
    by_cases hg : g = f
    · simp [hg]
    · simp [pfaTest_pfaSet_ne pfa hg, hg]
  rw [herase, List.length_erase_of_mem h]

/-- While frame 0 is used, as many allocations succeed as there are free frames. -/
theorem supplies_of_le {n : Nat} {pfa : Pfa} (hzero : pfaTest pfa 0 = true)
    (h : n ≤ (freeFrames pfa).length) : Supplies n pfa := by
  induction n generalizing pfa with
  | zero => trivial
  | succ n ih =>
      obtain ⟨g, hg⟩ := List.exists_mem_of_length_pos (Nat.lt_of_lt_of_le n.succ_pos h)
      obtain ⟨hlt, hfree⟩ := mem_freeFrames.mp hg
      have hne := pfaAlloc_ne_zero hzero hlt hfree
      refine ⟨hne, ?_⟩
      rcases halloc : pfaAlloc pfa with ⟨addr, pfa'⟩
      rw [halloc] at hne
      obtain ⟨f, hf, hf0, hbit, -, rfl⟩ := pfaAlloc_spec halloc hne
      have hlength := length_freeFrames_pfaSet (mem_freeFrames.mpr ⟨hf, hbit⟩)
      have hused : pfaTest (pfaSet pfa f) 0 = true := by
        rw [pfaTest_pfaSet_ne pfa hf0.symm]
        exact hzero
      have hrest : n ≤ (freeFrames (pfaSet pfa f)).length := by omega
      exact ih hused hrest

/-- A free frame 0 is what `pfa_alloc` finds first, and its address means failure. -/
theorem pfaAlloc_of_zero_free {pfa : Pfa} (h : pfaTest pfa 0 = false) : (pfaAlloc pfa).1 = 0 := by
  have hleast : IsLeast (allFrames \ usedFrames pfa) 0 := by
    refine ⟨⟨mem_allFrames.mpr (Nat.succ_pos 1023), fun hused => ?_⟩, fun f _ => Nat.zero_le f⟩
    exact absurd (h.symm.trans hused.2) (by decide)
  rw [pfaAlloc_of_least (tells_usedFrames pfa) hleast]
  exact Nat.zero_mul pageSize

/-! ## Mapping -/

/-- From page `first` on, `frames` have been mapped in the directory at `d`: frames that
    were free, no one twice.  The other entries are as they were. -/
structure MapsFrames (k k' : Kernel) (d flags first : Nat) (frames : List Nat) : Prop where
  nodup : frames.Nodup
  free : ∀ f ∈ frames, f < maxFrames ∧ pfaTest k.pfa f = false
  entries : ∀ j (h : j < frames.length), k'.dirAt d (first + j) = frameEntry frames[j] flags
  others : ∀ i, i < first ∨ first + frames.length ≤ i → k'.dirAt d i = k.dirAt d i

/-- The loop maps one frame a round, until there is none. -/
theorem pageMapLoop_frames (d flags n virtAddr : Nat) (k : Kernel) :
    ∃ frames, MapsFrames k (Kernel.pageMapLoop d flags n virtAddr k) d flags (pdIndex virtAddr) frames ∧
      frames.length ≤ n ∧ ((pfaAlloc k.pfa).1 = 0 → frames = []) ∧ (Supplies n k.pfa → frames.length = n) := by
  -- over the rounds; the frame of the first is taken before the others look for theirs
  induction n generalizing virtAddr k with
  | zero =>
      exact ⟨[], ⟨List.nodup_nil, nofun, nofun, fun _ _ => rfl⟩, Nat.le_refl 0, fun _ => rfl,
        fun _ => rfl⟩
  | succ n ih =>
      rcases halloc : pfaAlloc k.pfa with ⟨addr, pfa⟩
      unfold Kernel.pageMapLoop
      rw [halloc]
      by_cases haddr : addr = 0
      · -- out of frames: the loop returns at once
        simp only [haddr, if_true]
        refine ⟨[], ⟨List.nodup_nil, nofun, nofun, fun _ _ => rfl⟩, Nat.zero_le _, fun _ => rfl,
          fun hsupplies => ?_⟩
        have hne := hsupplies.1
        rw [halloc] at hne
        exact absurd haddr hne
      · simp only [haddr, if_false]
        obtain ⟨f, hlt, -, hfree, rfl, rfl⟩ := pfaAlloc_spec halloc haddr
        set k₁ : Kernel := ({ k with pfa := pfaSet k.pfa f } : Kernel).setDirAt d
          (pageMapDir (({ k with pfa := pfaSet k.pfa f } : Kernel).dirAt d) virtAddr (f * pageSize)
            flags) with hk₁
        have hdir : k₁.dirAt d = (k.dirAt d).set (pdIndex virtAddr) (frameEntry f flags) := by
          show (if spaceFrame d = spaceFrame d then _ else _) = _
          rw [if_pos rfl]
          rfl
        obtain ⟨frames, hmaps, hle, -, hlength⟩ := ih (virtAddr + pageSize) k₁
        rw [pdIndex_add_pageSize] at hmaps
        -- a later round cannot get this frame again, its bit is set
        have hlater : ∀ g ∈ frames, g ≠ f := by
          intro g hg heq
          have hbit : pfaTest (pfaSet k.pfa f) g = false := (hmaps.free g hg).2
          rw [heq, pfaTest_pfaSet_self] at hbit
          cases hbit
        refine ⟨f :: frames, ⟨?_, ?_, ?_, ?_⟩, Nat.succ_le_succ hle, fun h => absurd h id,
          fun hsupplies => ?_⟩
        · exact List.nodup_cons.mpr ⟨fun hmem => hlater f hmem rfl, hmaps.nodup⟩
        · intro g hg
          rcases List.mem_cons.mp hg with rfl | hmem
          · exact ⟨hlt, hfree⟩
          · have hbit : pfaTest (pfaSet k.pfa f) g = false := (hmaps.free g hmem).2
            rw [pfaTest_pfaSet_ne k.pfa (hlater g hmem)] at hbit
            exact ⟨(hmaps.free g hmem).1, hbit⟩
        · intro j hj
          cases j with
          | zero =>
              rw [Nat.add_zero, hmaps.others _ (.inl (Nat.lt_succ_self _)), hdir, Dir.set_self]
              rfl
          | succ j =>
              have hentry := hmaps.entries j (Nat.lt_of_succ_lt_succ hj)
              rw [Nat.add_assoc, Nat.add_comm 1 j] at hentry
              exact hentry
        · intro i hi
          rw [List.length_cons] at hi
          rw [hmaps.others i (by omega), hdir, Dir.set_ne _ _ (by omega)]
        · rw [List.length_cons, hlength]
          have hrest := hsupplies.2
          rw [halloc] at hrest
          exact hrest

/-- The rounds of the loop of `page_map_between` -/
def mapRounds (start stop : Nat) : Nat :=
  ((stop + 4095) / 4096 * 4096 - start / 4096 * 4096 + (pageSize - 1)) / pageSize

theorem pageMapBetween_eq {k : Kernel} {d start stop : Nat} (flags : Nat) (hd : d ≠ 0)
    (hlt : start < stop) (hle : stop ≤ 0xFFC00000) : k.pageMapBetween d start stop flags
      = Kernel.pageMapLoop d flags (mapRounds start stop) (start / 4096 * 4096) k := by
  rw [Kernel.pageMapBetween, if_neg hd, and_mask4k (by omega), and_mask4k (by omega)]
  rfl

/-- The range ends no lower in its last page than it starts in its first, to 4 KiB. -/
def EndsAsHigh (start stop : Nat) : Prop :=
  start % pageSize / 4096 ≤ (stop - 1) % pageSize / 4096

instance (start stop : Nat) : Decidable (EndsAsHigh start stop) := Nat.decLe _ _

/-- One round for every page, but one too few when the range ends lower than it starts. -/
theorem mapRounds_eq {start stop : Nat} (hlt : start < stop) : mapRounds start stop
    = pdIndex (stop - 1) - pdIndex start + if EndsAsHigh start stop then 1 else 0 := by
  obtain ⟨last, rfl⟩ : ∃ last, stop = last + 1 := ⟨stop - 1, by omega⟩
  have hup : (last + 1 + 4095) / 4096 = last / 4096 + 1 := by omega
  have hpage : ∀ a : Nat, pdIndex a = a / 4096 / 1024 := fun a => by
    rw [pdIndex, Nat.shiftRight_eq_div_pow, Nat.div_div_eq_div_mul]
  have hinside : ∀ a : Nat, a % pageSize / 4096 = a / 4096 % 1024 := fun a => by
    simp only [pageSize]
    omega
  have hle : start / 4096 ≤ last / 4096 := Nat.div_le_div_right (Nat.le_of_lt_succ hlt)
  simp only [mapRounds, EndsAsHigh, Nat.add_sub_cancel, hup, hpage, hinside]
  generalize start / 4096 = s at *
  generalize last / 4096 = t at *
  simp only [pageSize]
  split
  · omega
  · omega

/-- The pages `page_map_between` maps, one a round at most -/
theorem pageMapBetween_frames (k : Kernel) {d start stop : Nat} (flags : Nat) (hd : d ≠ 0)
    (hlt : start < stop) (hle : stop ≤ 0xFFC00000) :
    ∃ frames, MapsFrames k (k.pageMapBetween d start stop flags) d flags (pdIndex start) frames ∧
      frames.length ≤ mapRounds start stop ∧ ((pfaAlloc k.pfa).1 = 0 → frames = []) ∧
      (Supplies (mapRounds start stop) k.pfa → frames.length = mapRounds start stop) := by
  have hfirst : pdIndex (start / 4096 * 4096) = pdIndex start := by
    simp only [pdIndex, Nat.shiftRight_eq_div_pow]
    omega
  have hframes := pageMapLoop_frames d flags (mapRounds start stop) (start / 4096 * 4096) k
  rw [hfirst] at hframes
  rw [pageMapBetween_eq flags hd hlt hle]
  exact hframes

theorem pdIndex_mono {a b : Nat} (h : a ≤ b) : pdIndex a ≤ pdIndex b := by
  simp only [pdIndex, Nat.shiftRight_eq_div_pow]
  exact Nat.div_le_div_right h

/-- A range that ends lower than it starts does not have its last page mapped. -/
theorem lastPage_missed (k : Kernel) {d start stop : Nat} (flags : Nat) (hd : d ≠ 0)
    (hlt : start < stop) (hle : stop ≤ 0xFFC00000) (hlow : ¬ EndsAsHigh start stop) :
    (k.pageMapBetween d start stop flags).dirAt d (pdIndex (stop - 1))
      = k.dirAt d (pdIndex (stop - 1)) := by
  obtain ⟨frames, hmaps, hlength, -⟩ := pageMapBetween_frames k flags hd hlt hle
  have hpages := pdIndex_mono (Nat.le_sub_one_of_lt hlt)
  have hrounds := mapRounds_eq hlt
  rw [if_neg hlow] at hrounds
  exact hmaps.others _ (.inr (by omega))

/-- The range is mapped: every address leads to a present entry, and what was mapped from
    the first page on are frames that were free, no one twice. -/
structure MapsWholeRange (k k' : Kernel) (d flags start stop : Nat) : Prop where
  present : ∀ a, start ≤ a → a < stop → entryPresent (k'.dirAt d (pdIndex a)) = true
  fresh : ∃ frames, MapsFrames k k' d flags (pdIndex start) frames

/-- `page_map_between` maps its range when the flags say present and the range ends as
    high in its page as it starts, or its last page was present before. -/
theorem mapsWholeRange_iff {k : Kernel} {d start stop flags : Nat} (hd : d ≠ 0)
    (hlt : start < stop) (hle : stop ≤ 0xFFC00000)
    (henough : pdIndex (stop - 1) - pdIndex start + 1 ≤ (freeFrames k.pfa).length) :
    MapsWholeRange k (k.pageMapBetween d start stop flags) d flags start stop ↔
      (pfaTest k.pfa 0 = true ∧ entryPresent flags = true ∧
          (EndsAsHigh start stop ∨ entryPresent (k.dirAt d (pdIndex (stop - 1))) = true)) ∨
        (pfaTest k.pfa 0 = false ∧
          ∀ a, start ≤ a → a < stop → entryPresent (k.dirAt d (pdIndex a)) = true) := by
  have hrounds := mapRounds_eq hlt
  obtain ⟨frames, hmaps, -, hnone, hlength⟩ := pageMapBetween_frames k flags hd hlt hle
  have hfresh : ∃ frames, MapsFrames k (k.pageMapBetween d start stop flags) d flags
      (pdIndex start) frames := ⟨frames, hmaps⟩
  have hpages := pdIndex_mono (Nat.le_sub_one_of_lt hlt)
  cases hzero : pfaTest k.pfa 0 with
  | false =>
      -- nothing is mapped
      have hsame : ∀ i, (k.pageMapBetween d start stop flags).dirAt d i = k.dirAt d i := by
        intro i
        refine hmaps.others i ?_
        rw [hnone (pfaAlloc_of_zero_free hzero), List.length_nil]
        omega
      constructor
      · intro h
        refine .inr ⟨rfl, fun a hlo hhi => ?_⟩
        rw [← hsame]
        exact h.present a hlo hhi
      · rintro (⟨hused, -⟩ | ⟨-, hbefore⟩)
        · cases hused
        · refine ⟨fun a hlo hhi => ?_, hfresh⟩
          rw [hsame]
          exact hbefore a hlo hhi
  | true =>
      have hsupplies : Supplies (mapRounds start stop) k.pfa := by
        refine supplies_of_le hzero (Nat.le_trans ?_ henough)
        rw [hrounds]
        split <;> omega
      have hlen := hlength hsupplies
      have hmapped : ∀ i, pdIndex start ≤ i → i < pdIndex start + mapRounds start stop →
          entryPresent ((k.pageMapBetween d start stop flags).dirAt d i) = entryPresent flags := by
        intro i hlo hhi
        have hentry := hmaps.entries (i - pdIndex start) (by omega)
        rw [Nat.add_sub_cancel' hlo] at hentry
        rw [hentry, entryPresent_frameEntry]
      have hmissed := lastPage_missed k flags hd hlt hle
      have hsome : 0 < mapRounds start stop := by
        simp only [mapRounds, pageSize]
        omega
      constructor
      · intro h
        refine .inl ⟨rfl, ?_, ?_⟩
        · rw [← hmapped (pdIndex start) (Nat.le_refl _) (by omega)]
          exact h.present start (Nat.le_refl start) hlt
        · by_cases hhigh : EndsAsHigh start stop
          · exact .inl hhigh
          · refine .inr ?_
            rw [← hmissed hhigh]
            exact h.present (stop - 1) (by omega) (by omega)
      · rintro (⟨-, hflags, hlast⟩ | ⟨hfree, -⟩)
        · refine ⟨fun a hlo hhi => ?_, hfresh⟩
          have hlow := pdIndex_mono hlo
          have hhigh := pdIndex_mono (Nat.le_sub_one_of_lt hhi)
          by_cases hin : pdIndex a < pdIndex start + mapRounds start stop
          · rw [hmapped _ hlow hin]
            exact hflags
          · -- the last page, and one round too few
            by_cases hends : EndsAsHigh start stop
            · rw [if_pos hends] at hrounds
              omega
            · rw [if_neg hends] at hrounds
              have heq : pdIndex a = pdIndex (stop - 1) := by omega
              rw [heq, hmissed hends]
              exact hlast.resolve_left hends
        · cases hfree

/-- The second page of a directory -/
theorem mapsWholeRange_iff_page :
    MapsWholeRange coldKernel (coldKernel.pageMapBetween 0xC3000000 0x400000 0x800000 userFlags)
      0xC3000000 userFlags 0x400000 0x800000 := by
  refine (mapsWholeRange_iff (by decide) (by decide) (by decide) ?_).mpr
    (.inl ⟨by decide, by decide, .inl (by decide)⟩)
  exact List.length_pos_of_mem (mem_freeFrames.mpr (⟨by decide, by decide⟩ : 12 < _ ∧ _))

/-- Of the last 4 KiB of a page and the first 4 KiB of the next, only the first page is
    mapped. -/
theorem exists_page_missed :
    ¬ ∀ (k : Kernel) (d start stop flags : Nat), d ≠ 0 → pfaTest k.pfa 0 = true →
      entryPresent flags = true → start < stop → stop ≤ 0xFFC00000 →
      pdIndex (stop - 1) - pdIndex start + 1 ≤ (freeFrames k.pfa).length →
      MapsWholeRange k (k.pageMapBetween d start stop flags) d flags start stop := by
  intro hall
  have hmissed : (coldKernel.pageMapBetween 0xC3000000 0x3FF000 0x401000 userFlags).dirAt 0xC3000000
      (pdIndex (0x401000 - 1)) = coldKernel.dirAt 0xC3000000 (pdIndex (0x401000 - 1)) :=
    lastPage_missed coldKernel userFlags (by decide) (by decide) (by decide) (by decide)
  have hpresent := (hall coldKernel 0xC3000000 0x3FF000 0x401000 userFlags (by decide) (by decide)
    (by decide) (by decide) (by decide) (by decide +kernel)).present 0x400000 (by decide)
    (by decide)
  rw [show pdIndex 0x400000 = pdIndex (0x401000 - 1) by decide, hmissed] at hpresent
  exact absurd hpresent (by decide)

end Icarius
