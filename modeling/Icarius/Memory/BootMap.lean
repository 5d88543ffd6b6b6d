/-
  Icarius.Memory.BootMap

  The boot memory map of `src/x86/kernel.c`: `_init_mmap` walks the entries of the
  multiboot tag in their order and clears or sets the bits of the 4 MiB frames of
  each, then `_mark_kernel` and `_mark_fb` set the frames the kernel uses itself.

  Frames are found by dividing both ends of an entry by `PAGE_SIZE`.  Rounding down
  is right for the end of available memory and wrong for its start: the one frame
  that can be cleared without being available is the frame an available entry
  starts in.
-/

import Icarius.Memory.Pfa
import Mathlib.Data.List.Pairwise

namespace Icarius

/-! ## Entries -/

/-- `multiboot_memory_map_t` -/
structure MultibootMemoryMap where
  addrLow : UInt32
  addrHigh : UInt32
  lenLow : UInt32
  lenHigh : UInt32
  type : UInt32

/-- `MULTIBOOT_MEMORY_AVAILABLE` -/
def multibootMemoryAvailable : UInt32 := 1

/-- `MULTIBOOT_MEMORY_RESERVED` -/
def multibootMemoryReserved : UInt32 := 2

/-- `MULTIBOOT_MEMORY_ACPI_RECLAIMABLE` -/
def multibootMemoryAcpiReclaimable : UInt32 := 3

/-- `MULTIBOOT_MEMORY_NVS` -/
def multibootMemoryNvs : UInt32 := 4

/-- `MULTIBOOT_MEMORY_BADRAM` -/
def multibootMemoryBadram : UInt32 := 5

namespace MultibootMemoryMap

/-- `base_addr` of `_init_mmap` -/
def baseAddr (mmap : MultibootMemoryMap) : UInt64 :=
  (mmap.addrHigh.toUInt64 <<< 32) ||| mmap.addrLow.toUInt64

/-- `length` of `_init_mmap` -/
def length (mmap : MultibootMemoryMap) : UInt64 :=
  (mmap.lenHigh.toUInt64 <<< 32) ||| mmap.lenLow.toUInt64

/-- `end_addr` of `_init_mmap`, a 64-bit sum -/
def endAddr (mmap : MultibootMemoryMap) : UInt64 :=
  mmap.baseAddr + mmap.length

/-- `first_frame` -/
def firstFrame (mmap : MultibootMemoryMap) : Nat :=
  mmap.baseAddr.toNat / pageSize

/-- `last_frame`, the frame after the last one of the loops -/
def lastFrame (mmap : MultibootMemoryMap) : Nat :=
  mmap.endAddr.toNat / pageSize

/-- The types whose frames `_init_mmap` sets. -/
def isUsed (mmap : MultibootMemoryMap) : Bool :=
  mmap.type == multibootMemoryReserved || mmap.type == multibootMemoryAcpiReclaimable ||
    mmap.type == multibootMemoryNvs || mmap.type == multibootMemoryBadram

/-- The type whose frames `_init_mmap` clears. -/
def isAvailable (mmap : MultibootMemoryMap) : Bool :=
  mmap.type == multibootMemoryAvailable

/-- The bytes of an entry. -/
def Contains (mmap : MultibootMemoryMap) (addr : Nat) : Prop :=
  mmap.baseAddr.toNat ≤ addr ∧ addr < mmap.baseAddr.toNat + mmap.length.toNat

/-- The frames of the loops of `_init_mmap`. -/
def Covers (mmap : MultibootMemoryMap) (frame : Nat) : Prop :=
  mmap.firstFrame ≤ frame ∧ frame < mmap.lastFrame

instance (mmap : MultibootMemoryMap) (addr : Nat) : Decidable (mmap.Contains addr) :=
  inferInstanceAs (Decidable (_ ∧ _))

instance (mmap : MultibootMemoryMap) (frame : Nat) : Decidable (mmap.Covers frame) :=
  inferInstanceAs (Decidable (_ ∧ _))

end MultibootMemoryMap

/-! ## The walk over the entries -/

/-- `for (frame = first; frame < last && frame < MAX_FRAMES; frame++) mark(&pfa, frame)` -/
def markFrames (mark : Pfa → Nat → Pfa) (first last : Nat) (pfa : Pfa) : Pfa :=
  (List.range' first (min last maxFrames - first)).foldl mark pfa

/-- One entry of `_init_mmap`. -/
def initMmapEntry (pfa : Pfa) (mmap : MultibootMemoryMap) : Pfa :=
  if mmap.isAvailable then markFrames pfaClear mmap.firstFrame mmap.lastFrame pfa
  else if mmap.isUsed then markFrames pfaSet mmap.firstFrame mmap.lastFrame pfa
  else pfa

/-- `_mark_kernel` -/
def markKernel (pfa : Pfa) : Pfa :=
  markFrames pfaSet (kernelPhysBase / pageSize) (kernelPhysEnd / pageSize + 1) pfa

/-- `_mark_fb` -/
def markFb (pfa : Pfa) : Pfa :=
  markFrames pfaSet (framebufferPhysBase / pageSize)
    ((framebufferPhysBase + framebufferSize - 1) / pageSize + 1) pfa

/-- `_init_mmap` -/
def initMmap (entries : List MultibootMemoryMap) (pfa : Pfa) : Pfa :=
  markFb (markKernel (entries.foldl initMmapEntry pfa))

/-! ## What a range does to a bit -/

theorem pfaTest_foldl_pfaSet (frames : List Nat) (pfa : Pfa) (f : Nat) :
    pfaTest (frames.foldl pfaSet pfa) f = (decide (f ∈ frames) || pfaTest pfa f) := by
  induction frames generalizing pfa with
  | nil => simp
  | cons g frames ih =>
      rw [List.foldl_cons, ih]
      by_cases hfg : f = g
      · simp [hfg]
      · rw [pfaTest_pfaSet_ne _ hfg]
        simp [hfg]

theorem pfaTest_foldl_pfaClear (frames : List Nat) (pfa : Pfa) (f : Nat) :
    pfaTest (frames.foldl pfaClear pfa) f = (!decide (f ∈ frames) && pfaTest pfa f) := by
  induction frames generalizing pfa with
  | nil => simp
  | cons g frames ih =>
      rw [List.foldl_cons, ih]
      by_cases hfg : f = g
      · simp [hfg]
      · rw [pfaTest_pfaClear_ne _ hfg]
        simp [hfg]

theorem mem_frames {first last f : Nat} (hf : f < maxFrames) :
    f ∈ List.range' first (min last maxFrames - first) ↔ first ≤ f ∧ f < last := by
  rw [List.mem_range'_1]
  omega

theorem pfaTest_markFrames_pfaSet {first last f : Nat} (pfa : Pfa) (hf : f < maxFrames) :
    pfaTest (markFrames pfaSet first last pfa) f = false ↔
      ¬ (first ≤ f ∧ f < last) ∧ pfaTest pfa f = false := by
  rw [markFrames, pfaTest_foldl_pfaSet, Bool.or_eq_false_iff, decide_eq_false_iff_not,
    mem_frames hf]

theorem pfaTest_markFrames_pfaClear {first last f : Nat} (pfa : Pfa) (hf : f < maxFrames) :
    pfaTest (markFrames pfaClear first last pfa) f = false ↔
      (first ≤ f ∧ f < last) ∨ pfaTest pfa f = false := by
  rw [markFrames, pfaTest_foldl_pfaClear, Bool.and_eq_false_iff, Bool.not_eq_false',
    decide_eq_true_iff, mem_frames hf]

/-! ## What the walk does to a bit -/

namespace MultibootMemoryMap

/-- The entry clears the bit of the frame. -/
def Clears (mmap : MultibootMemoryMap) (frame : Nat) : Prop :=
  mmap.isAvailable ∧ mmap.Covers frame

/-- The entry sets the bit of the frame. -/
def Sets (mmap : MultibootMemoryMap) (frame : Nat) : Prop :=
  mmap.isUsed ∧ mmap.Covers frame

theorem isUsed_of_isAvailable {mmap : MultibootMemoryMap} (h : mmap.isAvailable) :
    mmap.isUsed = false := by
  simp only [isAvailable, beq_iff_eq] at h
  simp only [isUsed, h]
  decide

end MultibootMemoryMap

theorem pfaTest_initMmapEntry {f : Nat} (mmap : MultibootMemoryMap) (pfa : Pfa)
    (hf : f < maxFrames) : pfaTest (initMmapEntry pfa mmap) f = false ↔
      mmap.Clears f ∨ ¬ mmap.Sets f ∧ pfaTest pfa f = false := by
  unfold initMmapEntry MultibootMemoryMap.Clears MultibootMemoryMap.Sets
  by_cases havail : mmap.isAvailable
  · have hused := MultibootMemoryMap.isUsed_of_isAvailable havail
    rw [if_pos havail, pfaTest_markFrames_pfaClear _ hf]
    simp [havail, hused, MultibootMemoryMap.Covers]
  · rw [if_neg havail]
    by_cases hused : mmap.isUsed
    · rw [if_pos hused, pfaTest_markFrames_pfaSet _ hf]
      simp [havail, hused, MultibootMemoryMap.Covers]
    · simp [havail, hused]

/-- The last entry that touches a frame decides its bit. -/
theorem pfaTest_foldl_initMmapEntry {f : Nat} (hf : f < maxFrames)
    (entries : List MultibootMemoryMap) (pfa : Pfa) :
    pfaTest (entries.foldl initMmapEntry pfa) f = false ↔
      (∃ pre e post, entries = pre ++ e :: post ∧ e.Clears f ∧ ∀ r ∈ post, ¬ r.Sets f) ∨
        (∀ r ∈ entries, ¬ r.Sets f) ∧ pfaTest pfa f = false := by
  induction entries generalizing pfa with
  | nil => simp
  | cons e entries ih =>
      rw [List.foldl_cons, ih, pfaTest_initMmapEntry e pfa hf]
      constructor
      · rintro (⟨pre, r, post, rfl, hclears, hpost⟩ | ⟨hrest, hclears | ⟨hsets, hfree⟩⟩)
        · exact .inl ⟨e :: pre, r, post, rfl, hclears, hpost⟩
        · exact .inl ⟨[], e, entries, rfl, hclears, hrest⟩
        · exact .inr ⟨List.forall_mem_cons.mpr ⟨hsets, hrest⟩, hfree⟩
      · rintro (⟨pre, r, post, hsplit, hclears, hpost⟩ | ⟨hnone, hfree⟩)
        · rw [List.cons_eq_append_iff] at hsplit
          rcases hsplit with ⟨rfl, hcons⟩ | ⟨pre, rfl, rfl⟩
          · obtain ⟨rfl, rfl⟩ := List.cons.inj hcons
            exact .inr ⟨hpost, .inl hclears⟩
          · exact .inl ⟨pre, r, post, rfl, hclears, hpost⟩
        · obtain ⟨hsets, hrest⟩ := List.forall_mem_cons.mp hnone
          exact .inr ⟨hrest, .inr ⟨hsets, hfree⟩⟩

/-! ## Frames and bytes -/

/-- The frame of a byte. -/
def frameOf (addr : Nat) : Nat := addr / pageSize

/-- The bytes of `_mark_kernel`. -/
def InKernel (addr : Nat) : Prop :=
  kernelPhysBase ≤ addr ∧ addr ≤ kernelPhysEnd

/-- The bytes of `_mark_fb`. -/
def InFramebuffer (addr : Nat) : Prop :=
  framebufferPhysBase ≤ addr ∧ addr < framebufferPhysBase + framebufferSize

/-- The frames `_mark_kernel` and `_mark_fb` set. -/
def Marked (frame : Nat) : Prop :=
  frame ≤ kernelPhysEnd / pageSize ∨
    framebufferPhysBase / pageSize ≤ frame ∧
      frame ≤ (framebufferPhysBase + framebufferSize - 1) / pageSize

instance (frame : Nat) : Decidable (Marked frame) :=
  inferInstanceAs (Decidable (_ ∨ _))

theorem pfaTest_initMmap {f : Nat} (entries : List MultibootMemoryMap) (pfa : Pfa)
    (hf : f < maxFrames) : pfaTest (initMmap entries pfa) f = false ↔
      ¬ Marked f ∧ pfaTest (entries.foldl initMmapEntry pfa) f = false := by
  have hbase : kernelPhysBase / pageSize = 0 := by decide
  rw [initMmap, markFb, markKernel, pfaTest_markFrames_pfaSet _ hf,
    pfaTest_markFrames_pfaSet _ hf, hbase, Marked]
  constructor
  · rintro ⟨hfb, hkernel, hfree⟩
    refine ⟨?_, hfree⟩
    omega
  · rintro ⟨hmarked, hfree⟩
    refine ⟨?_, ?_, hfree⟩ <;> omega

/-- Bytes of the kernel and the framebuffer are in marked frames. -/
theorem marked_frameOf {addr : Nat} (h : InKernel addr ∨ InFramebuffer addr) :
    Marked (frameOf addr) := by
  rcases h with ⟨-, hle⟩ | ⟨hge, hlt⟩
  · exact .inl (Nat.div_le_div_right hle)
  · exact .inr ⟨Nat.div_le_div_right hge, Nat.div_le_div_right (Nat.le_sub_one_of_lt hlt)⟩

namespace MultibootMemoryMap

/-- A frame of the loops ends inside the entry. -/
theorem Covers.le_end {mmap : MultibootMemoryMap} {f addr : Nat} (h : mmap.Covers f)
    (haddr : frameOf addr = f) : addr < mmap.baseAddr.toNat + mmap.length.toNat := by
  have hsum : mmap.endAddr.toNat ≤ mmap.baseAddr.toNat + mmap.length.toNat := by
    rw [endAddr, UInt64.toNat_add]
    exact Nat.mod_le _ _
  have hlast : frameOf addr < mmap.endAddr.toNat / pageSize := haddr ▸ h.2
  have hlt : addr < mmap.endAddr.toNat := Nat.lt_of_div_lt_div hlast
  omega

/-- A frame of the loops behind the first one lies in the entry. -/
theorem Covers.contains {mmap : MultibootMemoryMap} {f addr : Nat} (h : mmap.Covers f)
    (hne : f ≠ mmap.firstFrame) (haddr : frameOf addr = f) : mmap.Contains addr := by
  have hfirst : mmap.baseAddr.toNat / pageSize < frameOf addr := by
    have := h.1
    unfold firstFrame at this hne
    omega
  exact ⟨Nat.le_of_lt (Nat.lt_of_div_lt_div hfirst), h.le_end haddr⟩

end MultibootMemoryMap

/-! ## The free frames of a boot -/

/-- The entries share no byte. -/
def MultibootMemoryMap.Disjoint (a b : MultibootMemoryMap) : Prop :=
  ∀ addr, ¬ (a.Contains addr ∧ b.Contains addr)

instance : Std.Symm MultibootMemoryMap.Disjoint where
  symm _ _ h addr hin := h addr hin.symm

/-- Entries in the order of their addresses, none reaching into the next. -/
theorem disjoint_of_ordered {entries : List MultibootMemoryMap}
    (h : entries.Pairwise fun a b => a.baseAddr.toNat + a.length.toNat ≤ b.baseAddr.toNat) :
    entries.Pairwise MultibootMemoryMap.Disjoint := by
  refine h.imp fun {a b} hle addr hin => ?_
  have hlow := hin.1.2
  have hhigh := hin.2.1
  omega

/-- The byte is in an available entry. -/
def Available (entries : List MultibootMemoryMap) (addr : Nat) : Prop :=
  ∃ e ∈ entries, e.isAvailable ∧ e.Contains addr

/-- Frames free in the bitmap consist of available bytes that neither an entry of
    another type, nor the kernel, nor the framebuffer claims. -/
def FreeIsUsable (entries : List MultibootMemoryMap) (pfa : Pfa) : Prop :=
  ∀ frame < maxFrames, pfaTest pfa frame = false → ∀ addr, frameOf addr = frame →
    (∀ e ∈ entries, e.isUsed → ¬ e.Contains addr) ∧ Available entries addr ∧
      ¬ InKernel addr ∧ ¬ InFramebuffer addr

/-- The condition: where an available entry starts inside a frame that its loop
    clears, and that is neither marked nor set again by a later entry, the bytes of
    the frame in front of it are available too. -/
def StartsCovered (entries : List MultibootMemoryMap) : Prop :=
  ∀ pre e post, entries = pre ++ e :: post → e.Clears e.firstFrame →
    e.firstFrame < maxFrames → ¬ Marked e.firstFrame →
    (∃ r ∈ post, r.Sets e.firstFrame) ∨
      ∀ addr < e.baseAddr.toNat, frameOf addr = e.firstFrame → Available entries addr

/-- A frame is free after the boot when the last entry that touches it clears it. -/
theorem pfaTest_boot {f : Nat} (entries : List MultibootMemoryMap) (pfa : Pfa)
    (hf : f < maxFrames) : pfaTest (initMmap entries (pfaInit pfa)) f = false ↔
      ¬ Marked f ∧
        ∃ pre e post, entries = pre ++ e :: post ∧ e.Clears f ∧ ∀ r ∈ post, ¬ r.Sets f := by
  rw [pfaTest_initMmap _ _ hf, pfaTest_foldl_initMmapEntry hf, pfaTest_pfaInit pfa hf]
  simp

/-- An available byte is in no entry of another type. -/
theorem Available.not_used {entries : List MultibootMemoryMap} {addr : Nat}
    (h : Available entries addr) (hdisjoint : entries.Pairwise MultibootMemoryMap.Disjoint) :
    ∀ e ∈ entries, e.isUsed → ¬ e.Contains addr := by
  intro e he hused hcontains
  obtain ⟨a, ha, havail, hin⟩ := h
  have hne : a ≠ e := by
    rintro rfl
    exact Bool.false_ne_true ((MultibootMemoryMap.isUsed_of_isAvailable havail).symm.trans hused)
  exact hdisjoint.forall ha he hne addr ⟨hin, hcontains⟩

/-- After the boot every free frame is usable memory exactly when the frames available
    entries start in are covered. -/
theorem freeIsUsable_iff (entries : List MultibootMemoryMap) (pfa : Pfa)
    (hdisjoint : entries.Pairwise MultibootMemoryMap.Disjoint) :
    FreeIsUsable entries (initMmap entries (pfaInit pfa)) ↔ StartsCovered entries := by
  constructor
  · intro h pre e post hsplit hclears hlt hmarked
    by_cases hset : ∃ r ∈ post, r.Sets e.firstFrame
    · exact .inl hset
    · have hfree := (pfaTest_boot entries pfa hlt).mpr
        ⟨hmarked, pre, e, post, hsplit, hclears, fun r hr hsets => hset ⟨r, hr, hsets⟩⟩
      exact .inr fun addr _ haddr => (h _ hlt hfree addr haddr).2.1
  · intro h frame hlt hfree addr haddr
    obtain ⟨hmarked, pre, e, post, hsplit, hclears, hpost⟩ := (pfaTest_boot entries pfa hlt).mp hfree
    have havail : Available entries addr := by
      have he : e ∈ entries := by
        rw [hsplit]
        exact List.mem_append_right _ List.mem_cons_self
      by_cases hfirst : frame = e.firstFrame
      · subst hfirst
        rcases Nat.lt_or_ge addr e.baseAddr.toNat with hlow | hge
        · rcases h pre e post hsplit hclears hlt hmarked with ⟨r, hr, hsets⟩ | hcovered
          · exact absurd hsets (hpost r hr)
          · exact hcovered addr hlow haddr
        · exact ⟨e, he, hclears.1, hge, hclears.2.le_end haddr⟩
      · exact ⟨e, he, hclears.1, hclears.2.contains hfirst haddr⟩
    refine ⟨havail.not_used hdisjoint, havail, fun hkernel => ?_, fun hfb => ?_⟩
    · exact hmarked (haddr ▸ marked_frameOf (.inl hkernel))
    · exact hmarked (haddr ▸ marked_frameOf (.inr hfb))

/-- Available entries that start at a frame, or in a frame the kernel keeps. -/
theorem startsCovered_of_aligned {entries : List MultibootMemoryMap}
    (h : ∀ e ∈ entries, e.isAvailable →
      e.baseAddr.toNat % pageSize = 0 ∨ Marked e.firstFrame) : StartsCovered entries := by
  intro pre e post hsplit hclears hlt hmarked
  have he : e ∈ entries := by
    rw [hsplit]
    exact List.mem_append_right _ List.mem_cons_self
  have hbase := (h e he hclears.1).resolve_right hmarked
  refine .inr fun addr hlow haddr => ?_
  -- the frame starts where the entry does
  have hle : e.firstFrame * pageSize ≤ addr := by
    rw [← haddr]
    exact Nat.div_mul_le_self addr pageSize
  have hstart : e.firstFrame * pageSize = e.baseAddr.toNat :=
    Nat.div_mul_cancel (Nat.dvd_of_mod_eq_zero hbase)
  omega

/-- Conventional memory, the adapter area, and memory up to 128 MiB. -/
def bootEntries : List MultibootMemoryMap :=
  [⟨0, 0, 0x9FC00, 0, 1⟩, ⟨0x9FC00, 0, 0x400, 0, 2⟩, ⟨0x100000, 0, 0x7EE0000, 0, 1⟩,
    ⟨0x7FE0000, 0, 0x20000, 0, 2⟩]

theorem freeIsUsable_bootEntries :
    FreeIsUsable bootEntries (initMmap bootEntries (pfaInit ⟨fun _ => 0⟩)) := by
  refine (freeIsUsable_iff bootEntries ⟨fun _ => 0⟩ (disjoint_of_ordered (by decide +kernel))).mpr
    (startsCovered_of_aligned ?_)
  decide +kernel

/-- Memory that starts inside a frame, behind a reserved range. -/
def holeEntries : List MultibootMemoryMap :=
  [⟨0x3000000, 0, 0x300000, 0, 2⟩, ⟨0x3300000, 0, 0xD00000, 0, 1⟩]

/-- The reserved range is handed out with the frame the memory starts in. -/
theorem exists_reserved_free : ¬ ∀ (entries : List MultibootMemoryMap) (pfa : Pfa),
    entries.Pairwise MultibootMemoryMap.Disjoint →
      FreeIsUsable entries (initMmap entries (pfaInit pfa)) := by
  intro hall
  have hdisjoint : holeEntries.Pairwise MultibootMemoryMap.Disjoint :=
    disjoint_of_ordered (by decide +kernel)
  have hfree : pfaTest (initMmap holeEntries (pfaInit ⟨fun _ => 0⟩)) 12 = false := by
    decide +kernel
  have hframe : frameOf 0x3000000 = 12 := by decide
  have hused := (hall holeEntries ⟨fun _ => 0⟩ hdisjoint 12 (by decide) hfree _ hframe).1
  exact hused ⟨0x3000000, 0, 0x300000, 0, 2⟩ List.mem_cons_self (by decide) (by decide)

end Icarius
