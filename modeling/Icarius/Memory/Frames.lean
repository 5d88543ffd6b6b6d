/-
  Icarius.Memory.Frames

  Who has which frame.  The abstract view is a ledger: every frame is free, or
  was used at boot, or is a heap page, or the directory or a page of one process.
  A ledger cannot give a frame to two owners, so everything about disjoint
  frames is in the type; what has to be proved is that bitmap and page tables
  agree with a ledger (`Accounts`) and go on doing so.
-/

import Icarius.Memory.Growth

namespace Icarius

open Icarius.Lib

/-! ## Entries -/

/-- The frame of the directory at `ptr`. -/
def spaceFrame (ptr : Nat) : Nat := v2p ptr / pageSize

/-- The entry that maps the frame `f`. -/
def frameEntry (f flags : Nat) : Nat := pageEntry (f * pageSize) flags

theorem entryFrame_frameEntry {f : Nat} (hf : f < maxFrames) (flags : Nat) :
    entryFrame (frameEntry f flags) = f := by
  have hmask : (0xFFF &&& 0xFFC00000 : Nat) = 0 := by decide
  rw [entryFrame, frameEntry, pageEntry, mul_pageSize_and_frame hf, Nat.and_or_distrib_right,
    mul_pageSize_and_frame hf, Nat.and_assoc, hmask, Nat.and_zero, Nat.or_zero]
  exact Nat.mul_div_cancel f (Nat.pos_of_ne_zero pageSize_ne_zero)

/-- An entry has a flag exactly when it was made with it. -/
theorem frameEntry_and_flag (f flags : Nat) {flag : Nat} (hhigh : 0xFFC00000 &&& flag = 0)
    (hlow : 0xFFF &&& flag = flag) : frameEntry f flags &&& flag = flags &&& flag := by
  rw [frameEntry, pageEntry, Nat.and_or_distrib_right, Nat.and_assoc, hhigh, Nat.and_zero,
    Nat.zero_or, Nat.and_assoc, hlow]

theorem entryPresent_frameEntry (f flags : Nat) :
    entryPresent (frameEntry f flags) = entryPresent flags := by
  rw [entryPresent, frameEntry_and_flag f flags (by decide) (by decide), entryPresent]

theorem spaceFrame_p2v {f : Nat} (hf : f < maxFrames) : spaceFrame (p2v (f * pageSize)) = f := by
  simp only [spaceFrame, v2p, p2v, kernelVirtualStart, pageSize, maxFrames] at hf ⊢
  omega

/-- Only the frame at 1 GiB has an address that wraps to the null pointer. -/
theorem p2v_ne_zero {f : Nat} (hf : f < maxFrames) (hne : f ≠ 256) :
    p2v (f * pageSize) ≠ 0 := by
  simp only [p2v, kernelVirtualStart, pageSize, maxFrames] at hf ⊢
  omega

/-- The flags a copied entry has. -/
def copyFlags : Nat := pagePs ||| pagePresent ||| pageWritable

/-- An entry as `page_create_dir` copies it. -/
def copyEntry (entry : Nat) : Nat := (entry &&& 0xFFFFF000) ||| copyFlags

/-- The copy maps the same frame. -/
theorem entryFrame_copyEntry (entry : Nat) : entryFrame (copyEntry entry) = entryFrame entry := by
  unfold entryFrame copyEntry
  rw [Nat.and_or_distrib_right, Nat.and_assoc]
  have hmask : (0xFFFFF000 &&& 0xFFC00000 : Nat) = 0xFFC00000 := by decide
  have hflags : copyFlags &&& 0xFFC00000 = 0 := by decide
  rw [hmask, hflags, Nat.or_zero]

/-- The copy is the kernel's. -/
theorem entryUser_copyEntry (entry : Nat) : entryUser (copyEntry entry) = false := by
  unfold entryUser copyEntry
  rw [Nat.and_or_distrib_right, Nat.and_assoc]
  have hmask : (0xFFFFF000 &&& pageUser : Nat) = 0 := by decide
  have hflags : copyFlags &&& pageUser = 0 := by decide
  rw [hmask, hflags, Nat.and_zero]
  rfl

theorem entryPresent_copyEntry (entry : Nat) : entryPresent (copyEntry entry) = true := by
  unfold entryPresent copyEntry
  rw [Nat.and_or_distrib_right, Nat.and_assoc]
  have hmask : (0xFFFFF000 &&& pagePresent : Nat) = 0 := by decide
  have hflags : copyFlags &&& pagePresent = 1 := by decide
  rw [hmask, hflags, Nat.and_zero]
  rfl

theorem copyKernelHalf_of_lt (dir : Dir) {i : Nat} (h : i < 768) :
    Kernel.copyKernelHalf dir i = 0 := by
  rw [Kernel.copyKernelHalf, if_neg (by omega)]

theorem copyKernelHalf_of_present {dir : Dir} {i : Nat} (hlo : 768 ≤ i) (hhi : i < 1024)
    (h : entryPresent (dir i) = true) : Kernel.copyKernelHalf dir i = copyEntry (dir i) := by
  rw [Kernel.copyKernelHalf, if_pos ⟨hlo, hhi, h⟩]
  rfl

theorem entryUser_copyKernelHalf (dir : Dir) (i : Nat) :
    entryUser (Kernel.copyKernelHalf dir i) = false := by
  unfold Kernel.copyKernelHalf
  split
  · exact entryUser_copyEntry (dir i)
  · rfl

/-! ## The ledger -/

/-- Who has a frame.  A process is named by its pointer. -/
inductive Owner
  | free
  | boot
  | heap
  | dir (p : Nat)
  | page (p : Nat)
  deriving DecidableEq, Repr

/-- An owner for every frame. -/
abbrev Ledger := Nat → Owner

/-- Enter a new owner. -/
def Ledger.give (l : Ledger) (f : Nat) (o : Owner) : Ledger := fun g => if g = f then o else l g

/-- Take everything back from a process. -/
def Ledger.release (l : Ledger) (p : Nat) : Ledger := fun f =>
  if l f = .dir p ∨ l f = .page p then .free else l f

@[simp] theorem Ledger.give_self (l : Ledger) (f : Nat) (o : Owner) : l.give f o f = o := by
  simp [Ledger.give]

/-- Other owners do not notice. -/
theorem Ledger.give_eq_iff {l : Ledger} {f g : Nat} {o o' : Owner} (hfree : l f ≠ o')
    (hne : o ≠ o') : l.give f o g = o' ↔ l g = o' := by
  unfold Ledger.give
  split
  · rename_i heq
    rw [heq]
    exact ⟨fun h => absurd h hne, fun h => absurd h hfree⟩
  · exact Iff.rfl

theorem Ledger.release_eq_iff {l : Ledger} {f p : Nat} {o : Owner} (hfree : o ≠ .free)
    (hdir : o ≠ .dir p) (hpage : o ≠ .page p) : l.release p f = o ↔ l f = o := by
  unfold Ledger.release
  split
  · rename_i howner
    refine ⟨fun h => absurd h.symm hfree, fun h => ?_⟩
    rw [h] at howner
    exact (howner.elim hdir hpage).elim
  · exact Iff.rfl

/-- From `l` to `l'` only free frames were given away, to the heap and to `p`. -/
def Took (p : Nat) (l l' : Ledger) : Prop := ∀ f, l' f = l f ∨
  l f = .free ∧ (l' f = .heap ∨ l' f = .dir p ∨ l' f = .page p)

theorem Took.refl (p : Nat) (l : Ledger) : Took p l l := fun _ => .inl rfl

theorem Took.trans {p : Nat} {l l₁ l₂ : Ledger} (h : Took p l l₁) (h' : Took p l₁ l₂) :
    Took p l l₂ := by
  intro f
  rcases h' f with heq | ⟨hfree, hnew⟩
  · rw [heq]
    exact h f
  · rcases h f with heq | ⟨hfree', -⟩
    · exact .inr ⟨heq ▸ hfree, hnew⟩
    · exact .inr ⟨hfree', hnew⟩

theorem Took.give {p f : Nat} {l : Ledger} {o : Owner} (hfree : l f = .free)
    (ho : o = .heap ∨ o = .dir p ∨ o = .page p) : Took p l (l.give f o) := by
  intro g
  by_cases heq : g = f
  · subst heq
    rw [Ledger.give_self]
    exact .inr ⟨hfree, ho⟩
  · exact .inl (if_neg heq)

/-! ## Page tables and ledger -/

/-- The frame `f` is mapped by a present entry of `dir` with its index in `I`. -/
def Maps (dir : Dir) (I : Nat → Prop) (f : Nat) : Prop :=
  ∃ i, I i ∧ entryPresent (dir i) = true ∧ entryFrame (dir i) = f

/-- The entries of `dir` with index in `I` map the frames of `o`, and nothing
    else. -/
structure Backs (l : Ledger) (o : Owner) (flags : Nat) (dir : Dir) (I : Nat → Prop) : Prop where
  kind : flags = userFlags ∨ flags = kernelFlags
  entry : ∀ i, I i → dir i = 0 ∨ ∃ f < maxFrames, l f = o ∧ dir i = frameEntry f flags
  frame : ∀ f, l f = o → f < maxFrames ∧ ∃ i, I i ∧ dir i = frameEntry f flags

section Backs

variable {l l' : Ledger} {o : Owner} {flags : Nat} {dir dir' : Dir} {I I' : Nat → Prop}

theorem Backs.congr (h : Backs l o flags dir I) (hl : ∀ f, l' f = o ↔ l f = o)
    (hdir : ∀ i, I i → dir' i = dir i) : Backs l' o flags dir' I := by
  refine ⟨h.kind, fun i hi => ?_, fun f hf => ?_⟩
  · rw [hdir i hi]
    rcases h.entry i hi with hzero | ⟨f, hlt, hf, hentry⟩
    · exact .inl hzero
    · exact .inr ⟨f, hlt, (hl f).mpr hf, hentry⟩
  · obtain ⟨hlt, i, hi, hentry⟩ := h.frame f ((hl f).mp hf)
    exact ⟨hlt, i, hi, (hdir i hi).trans hentry⟩

theorem Backs.present (h : Backs l o flags dir I) {f : Nat} (hf : f < maxFrames) :
    entryPresent (frameEntry f flags) = true ∧ entryFrame (frameEntry f flags) = f := by
  refine ⟨?_, entryFrame_frameEntry hf flags⟩
  rw [entryPresent_frameEntry]
  rcases h.kind with rfl | rfl
  · decide
  · decide

/-- One frame more, under an index that is new or was empty. -/
theorem Backs.give (h : Backs l o flags dir I) {i f : Nat} (hf : f < maxFrames)
    (hne : l f ≠ o) (hI : ∀ j, I' j ↔ I j ∨ j = i) (hnew : I i → dir i = 0) :
    Backs (l.give f o) o flags (dir.set i (frameEntry f flags)) I' := by
  refine ⟨h.kind, fun j hj => ?_, fun g hg => ?_⟩
  · by_cases hji : j = i
    · subst hji
      exact .inr ⟨f, hf, Ledger.give_self l f o, Dir.set_self _ _ _⟩
    · rw [Dir.set_ne _ _ hji]
      rcases h.entry j (((hI j).mp hj).resolve_right hji) with hzero | ⟨g, hlt, hg, hentry⟩
      · exact .inl hzero
      · refine .inr ⟨g, hlt, ?_, hentry⟩
        rw [Ledger.give, if_neg (fun heq : g = f => hne (heq ▸ hg))]
        exact hg
  · by_cases hgf : g = f
    · subst hgf
      exact ⟨hf, i, (hI i).mpr (.inr rfl), Dir.set_self _ _ _⟩
    · rw [Ledger.give, if_neg hgf] at hg
      obtain ⟨hlt, j, hj, hentry⟩ := h.frame g hg
      refine ⟨hlt, j, (hI j).mpr (.inl hj), ?_⟩
      rw [Dir.set_ne, hentry]
      rintro rfl
      have hpresent := (h.present hlt).1
      rw [← hentry, hnew hj] at hpresent
      cases hpresent

/-- The frames of `o` are the mapped ones. -/
theorem Backs.maps_iff (h : Backs l o flags dir I) (f : Nat) : Maps dir I f ↔ l f = o := by
  constructor
  · rintro ⟨i, hi, hpresent, hframe⟩
    rcases h.entry i hi with hzero | ⟨g, hlt, hg, hentry⟩
    · rw [hzero] at hpresent
      cases hpresent
    · rw [hentry, (h.present hlt).2] at hframe
      exact hframe ▸ hg
  · intro hf
    obtain ⟨hlt, i, hi, hentry⟩ := h.frame f hf
    obtain ⟨hpresent, hframe⟩ := h.present hlt
    rw [← hentry] at hpresent hframe
    exact ⟨i, hi, hpresent, hframe⟩

end Backs

/-- The address space of `p`, with its directory at `d`. -/
structure Space (k : Kernel) (l : Ledger) (p d : Nat) : Prop where
  ptr : d = p2v (spaceFrame d * pageSize)
  dir : ∀ f, l f = .dir p ↔ f = spaceFrame d
  pages : Backs l (.page p) userFlags (k.dirAt d) (· < 768)
  upper : ∀ i, 768 ≤ i → entryUser (k.dirAt d i) = false

theorem Space.congr {k k' : Kernel} {l l' : Ledger} {p d : Nat} (h : Space k l p d)
    (hdir : ∀ f, l' f = .dir p ↔ l f = .dir p) (hpage : ∀ f, l' f = .page p ↔ l f = .page p)
    (hsame : k'.dirAt d = k.dirAt d) : Space k' l' p d where
  ptr := h.ptr
  dir f := (hdir f).trans (h.dir f)
  pages := h.pages.congr hpage fun i _ => by rw [hsame]
  upper i hi := by
    rw [hsame]
    exact h.upper i hi

/-- The indices of the mapped part of the kernel heap. -/
def Kernel.heapIndex (k : Kernel) (i : Nat) : Prop :=
  pdIndex kernelHeapStart ≤ i ∧ i < pdIndex k.heap.nextAddr

/-- Bitmap and page tables agree with the ledger `l`; `users` are the processes,
    with their directories at `dirOf`. -/
structure Accounts (k : Kernel) (users : List Nat) (dirOf : Nat → Nat) (l : Ledger) : Prop where
  bitmap : ∀ f < maxFrames, pfaTest k.pfa f = true ↔ l f ≠ .free
  range : ∀ f, maxFrames ≤ f → l f = .free
  boot : ∀ f < 12, l f = .boot
  space : ∀ p ∈ users, Space k l p (dirOf p)
  owner : ∀ f p, l f = .dir p ∨ l f = .page p → p ∈ users
  heap : Backs l .heap kernelFlags k.kernelDirectory k.heapIndex
  nextAddr : kernelHeapStart ≤ k.heap.nextAddr
  aligned : k.heap.nextAddr % pageSize = 0
  cr3 : k.cr3 = none

section Accounts

variable {k k' : Kernel} {users : List Nat} {dirOf : Nat → Nat} {l : Ledger}

theorem Accounts.lt (h : Accounts k users dirOf l) {f : Nat} (hf : l f ≠ .free) :
    f < maxFrames := by
  by_contra hge
  exact hf (h.range f (by omega))

theorem Accounts.free_iff (h : Accounts k users dirOf l) {f : Nat} (hf : f < maxFrames) :
    pfaTest k.pfa f = false ↔ l f = .free := by
  have hbit := h.bitmap f hf
  rw [← Bool.not_eq_true, hbit, not_not]

/-- A free frame is not one of the first twelve. -/
theorem Accounts.ge_of_ne_boot (h : Accounts k users dirOf l) {f : Nat} (hf : l f ≠ .boot) :
    12 ≤ f := by
  by_contra hlt
  exact hf (h.boot f (by omega))

theorem Accounts.same (h : Accounts k users dirOf l) (hsame : Kernel.SameTables k k') :
    Accounts k' users dirOf l := by
  have hdir : ∀ d, k'.dirAt d = k.dirAt d := fun d => by rw [Kernel.dirAt, hsame.dirs]; rfl
  have hindex : k'.heapIndex = k.heapIndex := by
    funext i
    rw [Kernel.heapIndex, hsame.nextAddr]
    rfl
  refine ⟨?_, h.range, h.boot, fun p hp => ?_, h.owner, ?_, ?_, ?_, hsame.cr3.trans h.cr3⟩
  · rw [hsame.pfa]
    exact h.bitmap
  · exact (h.space p hp).congr (fun _ => Iff.rfl) (fun _ => Iff.rfl) (hdir _)
  · rw [hindex, hsame.kernelDirectory]
    exact h.heap
  · rw [hsame.nextAddr]
    exact h.nextAddr
  · rw [hsame.nextAddr]
    exact h.aligned

/-- Only the directories of the processes matter. -/
theorem Accounts.congr_dirOf {dirOf' : Nat → Nat} (h : Accounts k users dirOf l)
    (hdir : ∀ p ∈ users, dirOf' p = dirOf p) : Accounts k users dirOf' l :=
  { h with space := fun p hp => (hdir p hp).symm ▸ h.space p hp }

/-- What a taken frame does to the bitmap. -/
theorem Accounts.bitmap_give (h : Accounts k users dirOf l) {f : Nat} {o : Owner}
    (ho : o ≠ .free) : ∀ g < maxFrames,
      pfaTest (pfaSet k.pfa f) g = true ↔ l.give f o g ≠ .free := by
  intro g hg
  by_cases hgf : g = f
  · subst hgf
    simp [ho]
  · rw [pfaTest_pfaSet_ne _ hgf, Ledger.give, if_neg hgf]
    exact h.bitmap g hg

/-- A growth of the heap. -/
theorem Accounts.grewPage (h : Accounts k users dirOf l) (hgrew : Kernel.GrewPage k k') :
    ∃ f, l f = .free ∧ Accounts k' users dirOf (l.give f .heap) := by
  obtain ⟨f, hlt, hne, hfree, hpfa, hkd⟩ := hgrew.mapped.frame
  have hlf : l f = .free := (h.free_iff hlt).mp hfree
  have hge : 12 ≤ f := h.ge_of_ne_boot (by rw [hlf]; exact Owner.noConfusion)
  have hgive : ∀ {o g}, o ≠ .free → o ≠ .heap → (l.give f .heap g = o ↔ l g = o) :=
    fun ho ho' => Ledger.give_eq_iff (by rw [hlf]; exact ho.symm) ho'.symm
  refine ⟨f, hlf, ?_, fun g hg => ?_, fun g hg => ?_, fun p hp => ?_, fun g p hg => ?_, ?_, ?_, ?_,
    hgrew.mapped.cr3.1.trans h.cr3⟩
  · rw [hpfa]
    exact h.bitmap_give Owner.noConfusion
  · rw [Ledger.give, if_neg (by omega)]
    exact h.range g hg
  · rw [Ledger.give, if_neg (by omega)]
    exact h.boot g hg
  · refine (h.space p hp).congr (fun g => hgive (by simp) (by simp))
      (fun g => hgive (by simp) (by simp)) ?_
    rw [Kernel.dirAt, hgrew.mapped.dirs]
    rfl
  · rw [hgive (by simp) (by simp), hgive (by simp) (by simp)] at hg
    exact h.owner g p hg
  · rw [hkd]
    refine h.heap.give hlt (by simp [hlf]) (fun j => ?_) fun hj => absurd hj.2 (Nat.lt_irrefl _)
    have hstart : pdIndex kernelHeapStart ≤ pdIndex k.heap.nextAddr := by
      simp only [pdIndex, Nat.shiftRight_eq_div_pow]
      exact Nat.div_le_div_right h.nextAddr
    rw [Kernel.heapIndex, Kernel.heapIndex, hgrew.nextAddr, pdIndex_add_pageSize]
    omega
  · rw [hgrew.nextAddr]
    exact Nat.le_trans h.nextAddr (Nat.le_add_right _ _)
  · rw [hgrew.nextAddr, Nat.add_mod_right]
    exact h.aligned

/-- Any number of growths. -/
theorem Accounts.grew (h : Accounts k users dirOf l) (hgrew : Kernel.Grew k k') (p : Nat) :
    ∃ l', Accounts k' users dirOf l' ∧ Took p l l' := by
  refine hgrew.preserves (fun k => ∃ l', Accounts k users dirOf l' ∧ Took p l l')
    ⟨l, h, .refl p l⟩ ?_ ?_
  · rintro s s' ⟨l', hs, htook⟩ hsame
    exact ⟨l', hs.same hsame, htook⟩
  · rintro s s' ⟨l', hs, htook⟩ hpage -
    obtain ⟨f, hfree, hs'⟩ := hs.grewPage hpage
    exact ⟨_, hs', htook.trans (.give hfree (.inl rfl))⟩

/-! ## page_create_dir -/

/-- The slot of the kernel directory that maps the directory in frame `f`. -/
def slotOf (f : Nat) : Nat := (f + 768) % 1024

theorem pdIndex_p2v (f : Nat) : pdIndex (p2v (f * pageSize)) = slotOf f := by
  simp only [pdIndex, Nat.shiftRight_eq_div_pow, p2v, kernelVirtualStart, pageSize, slotOf]
  omega

/-- The kernel directory maps the directory of a process in the slot of its frame. -/
theorem Space.slot {k : Kernel} {l : Ledger} {p d : Nat} (h : Space k l p d) :
    pdIndex d = slotOf (spaceFrame d) := by
  have hptr := h.ptr
  rw [← pdIndex_p2v, ← hptr]

/-- The call returns, under the kernel directory. -/
theorem pageCreateDir_isOk (hcr3 : k.cr3 = none) (flags : Nat) :
    ∃ ptr k', k.pageCreateDir flags = .ok (ptr, k') := by
  unfold Kernel.pageCreateDir Kernel.updateCurrentDir
  simp only [hcr3]
  split
  · exact ⟨_, _, rfl⟩
  split
  · exact ⟨_, _, rfl⟩
  · exact ⟨_, _, rfl⟩

/-- What `page_create_dir` does: nothing, or it takes a frame, maps it in the
    kernel directory and fills it with the kernel half. -/
theorem pageCreateDir_cases {d flags : Nat} (hcr3 : k.cr3 = none) (hzero : pfaTest k.pfa 0 = true)
    (h : k.pageCreateDir flags = .ok (d, k')) :
    (d = 0 ∧ (pfaAlloc k.pfa).1 = 0 ∧ k' = k) ∨
    ∃ f < maxFrames, (pfaAlloc k.pfa).1 = f * pageSize ∧ pfaTest k.pfa f = false ∧
      d = p2v (f * pageSize) ∧ k'.pfa = pfaSet k.pfa f ∧
      k'.kernelDirectory = k.kernelDirectory.set (slotOf f) (frameEntry f flags) ∧
      (∀ g, k'.dirs g = if g = f then Kernel.copyKernelHalf k'.kernelDirectory else k.dirs g) ∧
      k'.cr3 = none ∧ k'.heap = k.heap ∧ k'.mem = k.mem := by
  unfold Kernel.pageCreateDir at h
  rcases halloc : pfaAlloc k.pfa with ⟨addr, pfa⟩
  rw [halloc] at h
  simp only at h ⊢
  by_cases haddr : addr = 0
  · subst haddr
    simp only [if_true, Except.ok.injEq, Prod.mk.injEq] at h
    have hpfa : pfa = k.pfa := by
      rcases pfaAlloc_zero halloc with heq | hfree
      · exact heq
      · rw [hzero] at hfree
        cases hfree
    exact .inl ⟨h.1.symm, rfl, by rw [← h.2, hpfa]⟩
  · obtain ⟨f, hlt, hne, hfree, rfl, rfl⟩ := pfaAlloc_spec halloc haddr
    have hframe := spaceFrame_p2v hlt
    have hmask := mul_pageSize_and_offset f
    unfold Kernel.updateCurrentDir at h
    simp only [haddr, if_false, hmask, ne_eq, not_true_eq_false, hcr3, Except.ok.injEq,
      Prod.mk.injEq] at h
    obtain ⟨rfl, rfl⟩ := h
    refine .inr ⟨f, hlt, rfl, hfree, rfl, rfl, ?_, fun g => ?_, rfl, rfl, rfl⟩
    · show pageMapDir k.kernelDirectory _ _ _ = _
      rw [pageMapDir, pdIndex_p2v]
      rfl
    · show (if g = spaceFrame (p2v (f * pageSize)) then _ else _) = _
      rw [hframe]
      rfl

/-- The same for the flags `process_spawn` passes -/
theorem pageCreateDir_spec {d : Nat} (hcr3 : k.cr3 = none) (hzero : pfaTest k.pfa 0 = true)
    (h : k.pageCreateDir userFlags = .ok (d, k')) :
    (d = 0 ∧ (pfaAlloc k.pfa).1 = 0 ∧ k' = k) ∨
    ∃ f < maxFrames, (pfaAlloc k.pfa).1 = f * pageSize ∧ pfaTest k.pfa f = false ∧
      d = p2v (f * pageSize) ∧ k'.pfa = pfaSet k.pfa f ∧
      k'.kernelDirectory = k.kernelDirectory.set (slotOf f) (frameEntry f userFlags) ∧
      (∀ g, k'.dirs g = if g = f then Kernel.copyKernelHalf k'.kernelDirectory else k.dirs g) ∧
      k'.cr3 = none ∧ k'.heap = k.heap ∧ k'.mem = k.mem :=
  pageCreateDir_cases hcr3 hzero h

/-- The slot of a directory is outside of the heap. -/
theorem Accounts.slot_not_heapIndex (h : Accounts k users dirOf l)
    (hbelow : k.heap.nextAddr ≤ kernelHeapMax) {f : Nat} (hf : f < maxFrames)
    (hne : l f ≠ .boot) : ¬ k.heapIndex (slotOf f) := by
  have hge := h.ge_of_ne_boot hne
  rintro ⟨hlo, hhi⟩
  simp only [pdIndex, Nat.shiftRight_eq_div_pow, kernelHeapStart, kernelHeapMax, slotOf,
    maxFrames] at *
  omega

/-- A new directory is a new address space. -/
theorem Accounts.pageCreateDir {d p : Nat} (h : Accounts k users dirOf l)
    (hbelow : k.heap.nextAddr ≤ kernelHeapMax) (hp : p ∉ users)
    (hcall : k.pageCreateDir userFlags = .ok (d, k')) :
    (d = 0 ∧ k' = k) ∨
    ∃ f, l f = .free ∧ spaceFrame d = f ∧ (pfaAlloc k.pfa).1 = f * pageSize ∧
      k'.heap = k.heap ∧ (f ≠ 256 → d ≠ 0) ∧
      Accounts k' (p :: users) (fun q => if q = p then d else dirOf q) (l.give f (.dir p)) ∧
      k'.dirAt d = Kernel.copyKernelHalf k'.kernelDirectory ∧
      k'.kernelDirectory = k.kernelDirectory.set (slotOf f) (frameEntry f userFlags) ∧
      ∀ q ∈ users, k'.dirAt (dirOf q) = k.dirAt (dirOf q) := by
  -- frame 0 is used since boot, so 0 means that there was no frame
  have hzero : pfaTest k.pfa 0 = true := by
    rw [h.bitmap 0 (by decide), h.boot 0 (by decide)]
    exact Owner.noConfusion
  rcases pageCreateDir_spec h.cr3 hzero hcall with
    ⟨hd, -, hk⟩ | ⟨f, hlt, haddr, hfree, hd, hpfa, hkd, hdirs, hcr3, hheap, -⟩
  · exact .inl ⟨hd, hk⟩
  have hlf : l f = .free := (h.free_iff hlt).mp hfree
  have hge : 12 ≤ f := h.ge_of_ne_boot (by rw [hlf]; exact Owner.noConfusion)
  have hframe : spaceFrame d = f := by rw [hd, spaceFrame_p2v hlt]
  -- a process that is not in the list owns nothing
  have hnone : ∀ g, l g ≠ .dir p ∧ l g ≠ .page p := fun g =>
    ⟨fun hg => hp (h.owner g p (.inl hg)), fun hg => hp (h.owner g p (.inr hg))⟩
  have hgive : ∀ {o g}, o ≠ .free → o ≠ .dir p → (l.give f (.dir p) g = o ↔ l g = o) :=
    fun ho ho' => Ledger.give_eq_iff (by rw [hlf]; exact ho.symm) ho'.symm
  have hdir : ∀ e, k'.dirAt e = if spaceFrame e = f then Kernel.copyKernelHalf k'.kernelDirectory
      else k.dirAt e := fun e => hdirs (spaceFrame e)
  -- the frame of the new directory was free, so it is not the one of another process
  have hother : ∀ q ∈ users, k'.dirAt (dirOf q) = k.dirAt (dirOf q) := by
    intro q hq
    rw [hdir, if_neg]
    intro heq
    have howner := ((h.space q hq).dir f).mpr heq.symm
    rw [hlf] at howner
    cases howner
  refine .inr ⟨f, hlf, hframe, haddr, hheap, fun hne => hd ▸ p2v_ne_zero hlt hne, ?_, ?_, hkd,
    hother⟩
  · refine ⟨?_, fun g hg => ?_, fun g hg => ?_, fun q hq => ?_, fun g q hg => ?_, ?_, ?_, ?_, hcr3⟩
    · rw [hpfa]
      exact h.bitmap_give Owner.noConfusion
    · rw [Ledger.give, if_neg (by omega)]
      exact h.range g hg
    · rw [Ledger.give, if_neg (by omega)]
      exact h.boot g hg
    · -- the new address space, and those that were there
      by_cases hqp : q = p
      · subst hqp
        simp only [if_true]
        have hcopy : k'.dirAt d = Kernel.copyKernelHalf k'.kernelDirectory := by
          rw [hdir, if_pos hframe]
        refine ⟨by rw [hframe, hd], fun g => ?_, ⟨.inl rfl, fun i hi => ?_, fun g hg => ?_⟩,
          fun i _ => ?_⟩
        · rw [hframe]
          by_cases hgf : g = f
          · simp [hgf]
          · rw [Ledger.give, if_neg hgf]
            exact ⟨fun hg => absurd hg (hnone g).1, fun hg => absurd hg hgf⟩
        · rw [hcopy]
          exact .inl (copyKernelHalf_of_lt _ hi)
        · rw [hgive (by simp) (by simp)] at hg
          exact absurd hg (hnone g).2
        · rw [hcopy]
          exact entryUser_copyKernelHalf _ i
      · simp only [hqp, if_false]
        have hq' : q ∈ users := (List.mem_cons.mp hq).resolve_left hqp
        exact (h.space q hq').congr (fun g => hgive (by simp) (by simpa using hqp))
          (fun g => hgive (by simp) (by simp)) (hother q hq')
    · by_cases hqp : q = p
      · exact hqp ▸ List.mem_cons_self
      · rw [hgive (by simp) (by simpa using hqp), hgive (by simp) (by simp)] at hg
        exact List.mem_cons_of_mem _ (h.owner g q hg)
    · -- the kernel maps the directory behind its heap
      have hslot := h.slot_not_heapIndex hbelow hlt (by rw [hlf]; exact Owner.noConfusion)
      have hindex : k'.heapIndex = k.heapIndex := by
        funext i
        rw [Kernel.heapIndex, hheap]
        rfl
      rw [hindex, hkd]
      refine h.heap.congr (fun g => hgive (by simp) (by simp)) fun i hi => Dir.set_ne _ _ ?_
      intro heq
      exact hslot (heq ▸ hi)
    · rw [hheap]
      exact h.nextAddr
    · rw [hheap]
      exact h.aligned
  · rw [hdir, if_pos hframe]

/-! ## page_map_between -/

/-- Only the lower half of the directory at `d` differs, and only in the pages
    from `lo` on, `n` of them. -/
structure MapsOnly (k k' : Kernel) (d lo n : Nat) : Prop where
  kernelDirectory : k'.kernelDirectory = k.kernelDirectory
  heap : k'.heap = k.heap
  mem : k'.mem = k.mem
  cr3 : k'.cr3 = k.cr3
  dirs : ∀ g, g ≠ spaceFrame d → k'.dirs g = k.dirs g
  entries : ∀ i, i < lo ∨ lo + n ≤ i → k'.dirAt d i = k.dirAt d i

theorem MapsOnly.refl (k : Kernel) (d lo n : Nat) : MapsOnly k k d lo n :=
  ⟨rfl, rfl, rfl, rfl, fun _ _ => rfl, fun _ _ => rfl⟩

theorem MapsOnly.dirAt_ne {d e lo n : Nat} (h : MapsOnly k k' d lo n)
    (hne : spaceFrame e ≠ spaceFrame d) : k'.dirAt e = k.dirAt e :=
  h.dirs (spaceFrame e) hne

/-- One page for `p` at an empty entry. -/
theorem Accounts.mapPage {p f i : Nat} (h : Accounts k users dirOf l) (hp : p ∈ users)
    (hf : f < maxFrames) (hfree : l f = .free) (hi : i < 768) (hempty : k.dirAt (dirOf p) i = 0)
    (hpfa : k'.pfa = pfaSet k.pfa f) (honly : MapsOnly k k' (dirOf p) i 1)
    (hentry : k'.dirAt (dirOf p) = (k.dirAt (dirOf p)).set i (frameEntry f userFlags)) :
    Accounts k' users dirOf (l.give f (.page p)) := by
  have hge : 12 ≤ f := h.ge_of_ne_boot (by rw [hfree]; exact Owner.noConfusion)
  have hgive : ∀ {o g}, o ≠ .free → o ≠ .page p → (l.give f (.page p) g = o ↔ l g = o) :=
    fun ho ho' => Ledger.give_eq_iff (by rw [hfree]; exact ho.symm) ho'.symm
  -- the bitmap, the ranges, every address space, the owners and the heap
  refine ⟨?_, fun g hg => ?_, fun g hg => ?_, fun q hq => ?_, fun g q hg => ?_, ?_, ?_, ?_,
    honly.cr3.trans h.cr3⟩
  · rw [hpfa]
    exact h.bitmap_give Owner.noConfusion
  · rw [Ledger.give, if_neg (by omega)]
    exact h.range g hg
  · rw [Ledger.give, if_neg (by omega)]
    exact h.boot g hg
  · -- the process gets one page more, the others map what they did
    have hspace := h.space q hq
    by_cases hqp : q = p
    · subst hqp
      refine ⟨hspace.ptr, fun g => (hgive (by simp) (by simp)).trans (hspace.dir g), ?_, ?_⟩
      · rw [hentry]
        refine hspace.pages.give hf (by simp [hfree]) (fun j => ?_) fun _ => hempty
        omega
      · intro j hj
        rw [honly.entries j (by omega)]
        exact hspace.upper j hj
    · refine hspace.congr (fun g => hgive (by simp) (by simp))
        (fun g => hgive (by simp) (by simpa using hqp)) (honly.dirAt_ne fun heq => ?_)
      have hown := (hspace.dir _).mpr rfl
      rw [heq, ((h.space p hp).dir _).mpr rfl, Owner.dir.injEq] at hown
      exact hqp hown.symm
  · by_cases hqp : q = p
    · exact hqp ▸ hp
    · rw [hgive (by simp) (by simp), hgive (by simp) (by simpa using hqp)] at hg
      exact h.owner g q hg
  · rw [honly.kernelDirectory]
    have hindex : k'.heapIndex = k.heapIndex := by
      funext j
      rw [Kernel.heapIndex, honly.heap]
      rfl
    rw [hindex]
    exact h.heap.congr (fun g => hgive (by simp) (by simp)) fun _ _ => rfl
  · rw [honly.heap]
    exact h.nextAddr
  · rw [honly.heap]
    exact h.aligned

/-- The loop of `page_map_between` over empty entries of the user half. -/
theorem Accounts.pageMapLoop {p n virtAddr : Nat} (h : Accounts k users dirOf l) (hp : p ∈ users)
    (hlow : pdIndex virtAddr + n ≤ 768)
    (hempty : ∀ i, pdIndex virtAddr ≤ i → i < pdIndex virtAddr + n → k.dirAt (dirOf p) i = 0) :
    MapsOnly k (Kernel.pageMapLoop (dirOf p) userFlags n virtAddr k) (dirOf p) (pdIndex virtAddr) n ∧
      ∃ l', Accounts (Kernel.pageMapLoop (dirOf p) userFlags n virtAddr k) users dirOf l' ∧
        Took p l l' := by
  -- over the rounds; the frame of a round is the page of its entry before the next one
  induction n generalizing k l virtAddr with
  | zero => exact ⟨.refl k _ _ _, l, h, .refl p l⟩
  | succ n ih =>
      rcases halloc : pfaAlloc k.pfa with ⟨addr, pfa⟩
      unfold Kernel.pageMapLoop
      rw [halloc]
      simp only
      by_cases haddr : addr = 0
      · subst haddr
        -- frame 0 is reserved from boot on, so address 0 means that no frame was taken
        have hpfa : pfa = k.pfa := by
          rcases pfaAlloc_zero halloc with heq | hfree
          · exact heq
          · rw [h.free_iff (by decide), h.boot 0 (by decide)] at hfree
            cases hfree
        simp only [if_true, hpfa]
        exact ⟨⟨rfl, rfl, rfl, rfl, fun _ _ => rfl, fun _ _ => rfl⟩, l,
          h.same ⟨rfl, rfl, rfl, rfl, rfl⟩, .refl p l⟩
      · obtain ⟨f, hlt, hne, hfree, rfl, rfl⟩ := pfaAlloc_spec halloc haddr
        have hlf : l f = .free := (h.free_iff hlt).mp hfree
        simp only [haddr, if_false]
        set i := pdIndex virtAddr with hi
        set k₀ : Kernel := { k with pfa := pfaSet k.pfa f }
        set k₁ := k₀.setDirAt (dirOf p)
          (pageMapDir (k₀.dirAt (dirOf p)) virtAddr (f * pageSize) userFlags) with hk₁
        have hdir : k₁.dirAt (dirOf p) = (k.dirAt (dirOf p)).set i (frameEntry f userFlags) := by
          show (if spaceFrame (dirOf p) = spaceFrame (dirOf p) then _ else _) = _
          rw [if_pos rfl]
          rfl
        have hdirs : ∀ g, g ≠ spaceFrame (dirOf p) → k₁.dirs g = k.dirs g :=
          fun g hg => if_neg hg
        have honly : MapsOnly k k₁ (dirOf p) i 1 := by
          refine ⟨rfl, rfl, rfl, rfl, hdirs, fun j hj => ?_⟩
          rw [hdir, Dir.set_ne _ _ (by omega)]
        have h₁ := h.mapPage hp hlt hlf (by omega) (hempty i (Nat.le_refl i) (by omega)) rfl honly
          hdir
        have hnext : pdIndex (virtAddr + pageSize) = i + 1 := pdIndex_add_pageSize virtAddr
        have hlow' : pdIndex (virtAddr + pageSize) + n ≤ 768 := by omega
        obtain ⟨hrest, l', h', htook⟩ := ih h₁ hlow' fun j h₂ h₃ => by
          rw [honly.entries j (by omega)]
          exact hempty j (by omega) (by omega)
        rw [hnext] at hrest
        refine ⟨⟨hrest.kernelDirectory, hrest.heap, hrest.mem, hrest.cr3, fun g hg => ?_,
          fun j hj => ?_⟩, l', h', (Took.give hlf (.inr (.inr rfl))).trans htook⟩
        · rw [hrest.dirs g hg, hdirs g hg]
        · rw [hrest.entries j (by omega), honly.entries j (by omega)]

end Accounts

end Icarius
