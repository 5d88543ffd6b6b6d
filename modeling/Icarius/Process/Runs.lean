/-
  Icarius.Process.Runs

  Runs of the machine.  The ledger of a run starts with the frames used at boot
  and follows every spawn, exit and call of the heap.
-/

import Icarius.Process.Accounts

namespace Icarius.Machine

open Icarius.Lib

/-! ## One step -/

/-- The ledger of a machine. -/
structure Inv (s : Machine) (l : Ledger) : Prop where
  accounts : Accounts s.kernel s.users s.dirOf l
  nodup : s.users.Nodup
  below : s.kernel.heap.nextAddr ≤ kernelHeapMax

/-- The heap ends in its window after the step. -/
def staysBelow (s : Machine) (e : Event) : Prop :=
  ∀ s', s.step e = some s' → s'.kernel.heap.nextAddr ≤ kernelHeapMax

/-- A spawn at this point would not put a directory in frame 256, whose address
    in the kernel half is 0. -/
def dirFrameOk (s : Machine) : Prop :=
  ∀ p s₁, s.processAlloc .binary = .ok (p, s₁) → (pfaAlloc s₁.kernel.pfa).1 ≠ 256 * pageSize

variable {s s' : Machine} {l : Ledger}

/-! ## What a step can do -/

theorem step_spawn {file : Program} (hstep : s.step (.spawn file) = some s') :
    s.reusesLive = false ∧ ∃ p s₁, s.processSpawn file = .ok (p, s₁) ∧
      s' = if p = 0 then s₁ else { s₁ with users := p :: s₁.users } := by
  simp only [step] at hstep
  split at hstep
  · cases hstep
  rename_i hfresh
  split at hstep
  · cases hstep
  rename_i p s₁ hcall
  exact ⟨Bool.eq_false_iff.mpr hfresh, p, s₁, hcall, (Option.some.inj hstep).symm⟩

theorem step_exit {p : Nat} (hstep : s.step (.exit p) = some s') :
    p ∈ s.users ∧ ∃ s₁, s.processExit p = .ok s₁ ∧ s' = { s₁ with users := s₁.users.erase p } := by
  simp only [step] at hstep
  split at hstep
  · rename_i hp
    split at hstep
    · cases hstep
    rename_i s₁ hexit
    exact ⟨hp, s₁, hexit, (Option.some.inj hstep).symm⟩
  · cases hstep

theorem step_heap {call : HeapCall} (hstep : s.step (.heap call) = some s') :
    ∃ k, s.kernel.heapCall call = .ok k ∧ s' = s.setKernel k := by
  simp only [step] at hstep
  split at hstep
  · cases hstep
  rename_i k hcall
  exact ⟨k, hcall, (Option.some.inj hstep).symm⟩

/-! ## What keeps the invariant -/

theorem Inv.exit {p : Nat} (h : s.Inv l) (hstep : s.step (.exit p) = some s') :
    p ∈ s.users ∧ s'.Inv (l.release p) ∧ s'.users = s.users.erase p ∧ s'.dirOf = s.dirOf ∧
      s'.kernel.kernelDirectory = s.kernel.kernelDirectory.set (pdIndex (s.dirOf p)) 0 ∧
      ∀ g, g ≠ spaceFrame (s.dirOf p) → s'.kernel.dirs g = s.kernel.dirs g := by
  obtain ⟨hp, s₁, hexit, rfl⟩ := step_exit hstep
  unfold processExit at hexit
  simp only at hexit
  obtain ⟨hdirOf, hkernel, husers⟩ := processListRemove_same s p
  rw [hkernel] at hexit
  split at hexit
  · cases hexit
  rename_i k hrelease
  cases hexit
  obtain ⟨hacc, hkd, hdirs, hheap⟩ :=
    h.accounts.releaseSpace (p := p) h.below h.nodup hp hrelease
  have hsame := (Kernel.kfree_sameTables k (s.procs p).keyboardBuffer).trans
    (Kernel.kfree_sameTables _ p)
  have hend : ((k.kfree (s.procs p).keyboardBuffer).kfree p).heap.nextAddr
      = s.kernel.heap.nextAddr := by
    rw [hsame.nextAddr, hheap]
  refine ⟨hp, ⟨?_, ?_, ?_⟩, ?_, hdirOf, ?_, ?_⟩
  · show Accounts _ ((s.processListRemove p).users.erase p) (s.processListRemove p).dirOf _
    rw [husers, hdirOf]
    exact hacc.same hsame
  · show ((s.processListRemove p).users.erase p).Nodup
    rw [husers]
    exact h.nodup.erase p
  · show ((k.kfree (s.procs p).keyboardBuffer).kfree p).heap.nextAddr ≤ kernelHeapMax
    rw [hend]
    exact h.below
  · show (s.processListRemove p).users.erase p = _
    rw [husers]
  · show ((k.kfree (s.procs p).keyboardBuffer).kfree p).kernelDirectory = _
    rw [hsame.kernelDirectory, hkd]
  · intro g hg
    show ((k.kfree (s.procs p).keyboardBuffer).kfree p).dirs g = _
    rw [hsame.dirs]
    exact hdirs g hg

/-- A spawn that leads to `s'`, and the process it made, if any. -/
theorem Inv.spawn {file : Program} (h : s.Inv l) (hframe : s.dirFrameOk)
    (hbelow : s.staysBelow (.spawn file)) (hstep : s.step (.spawn file) = some s') :
    ∃ p s₁, s.processSpawn file = .ok (p, s₁) ∧ s₁.kernel = s'.kernel ∧ s₁.dirOf = s'.dirOf ∧
      s'.users = (if p = 0 then s.users else p :: s.users) ∧
      (∀ q ∈ s.users, s'.dirOf q = s.dirOf q) ∧ s.Spawned l p s₁ ∧
      ∃ l', Took p l l' ∧ s'.Inv l' := by
  have hnext := hbelow s' hstep
  obtain ⟨hfresh, p, s₁, hcall, heq⟩ := step_spawn hstep
  have hkernel : s₁.kernel = s'.kernel ∧ s₁.dirOf = s'.dirOf ∧
      s'.users = if p = 0 then s₁.users else p :: s₁.users := by
    rw [heq]
    split
    · exact ⟨rfl, rfl, rfl⟩
    · exact ⟨rfl, rfl, rfl⟩
  obtain ⟨hkernel, hdirOf, husers'⟩ := hkernel
  have hnext₁ : s₁.kernel.heap.nextAddr ≤ kernelHeapMax := by
    rw [hkernel]
    exact hnext
  obtain ⟨husers, hdirs, hspawned⟩ := processSpawn_spec h.accounts hfresh hframe hnext₁ hcall
  rw [husers] at husers'
  rw [hdirOf] at hdirs
  refine ⟨p, s₁, hcall, hkernel, hdirOf, husers', hdirs, hspawned, ?_⟩
  cases hspawned with
  | failed hself hgrew =>
      obtain ⟨l', hacc, htook⟩ := h.accounts.grew hgrew p
      rw [if_pos hself] at husers'
      refine ⟨l', htook, ?_, husers' ▸ h.nodup, hnext⟩
      rw [← hkernel, husers']
      exact hacc.congr_dirOf hdirs
  | created _ _ _ l' hne hnew _ _ _ _ _ htook hacc =>
      rw [if_neg hne] at husers'
      refine ⟨l', htook, ?_, ?_, hnext⟩
      · rw [← hkernel, husers', ← hdirOf]
        exact hacc
      · rw [husers']
        exact List.nodup_cons.mpr ⟨hnew, h.nodup⟩

theorem Inv.heap {call : HeapCall} (h : s.Inv l) (hbelow : s.staysBelow (.heap call))
    (hstep : s.step (.heap call) = some s') :
    Kernel.Grew s.kernel s'.kernel ∧ s'.users = s.users ∧ s'.dirOf = s.dirOf ∧
      ∃ l', Took 0 l l' ∧ s'.Inv l' := by
  have hnext := hbelow s' hstep
  obtain ⟨k, hcall, rfl⟩ := step_heap hstep
  have hgrew := Kernel.heapCall_grew hcall
  obtain ⟨l', hacc, htook⟩ := h.accounts.grew hgrew 0
  exact ⟨hgrew, rfl, rfl, l', htook, hacc, h.nodup, hnext⟩

/-! ## Runs -/

/-- The ledger at boot. -/
def bootLedger (pfa : Pfa) : Ledger := fun f =>
  if f < maxFrames ∧ pfaTest pfa f = true then .boot else .free

theorem Boot.inv (h : s.Boot) : s.Inv (bootLedger s.kernel.pfa) := by
  have hcases : ∀ f, bootLedger s.kernel.pfa f = .boot ∨ bootLedger s.kernel.pfa f = .free := by
    intro f
    unfold bootLedger
    split
    · exact .inl rfl
    · exact .inr rfl
  refine ⟨⟨fun f hf => ?_, fun f hf => ?_, fun f hf => ?_, ?_, fun f p hown => ?_, ?_, ?_, ?_,
    h.cr3⟩, ?_, ?_⟩
  · simp [bootLedger, hf]
  · rw [bootLedger, if_neg (by omega)]
  · rw [bootLedger, if_pos]
    refine ⟨by simp only [maxFrames]; omega, h.kernel_used f ⟨by simp [kernelPhysBase], ?_⟩⟩
    simp only [kernelPhysEnd, pageSize]
    omega
  · rw [h.users]
    exact fun p hp => absurd hp List.not_mem_nil
  · rcases hcases f with hb | hb <;> rw [hb] at hown <;> rcases hown with hown | hown <;> cases hown
  · refine ⟨.inr rfl, fun i hi => ?_, fun f hf => ?_⟩
    · rw [Kernel.heapIndex, h.heap] at hi
      exact absurd hi.2 (Nat.not_lt_of_le hi.1)
    · rcases hcases f with hb | hb <;> rw [hb] at hf <;> cases hf
  · rw [h.heap]
  · rw [h.heap]
    rfl
  · rw [h.users]
    exact List.nodup_nil
  · rw [h.heap]
    decide

/-- All free frames are below 128. -/
def FreeBelow (pfa : Pfa) : Prop := ∀ f < maxFrames, pfaTest pfa f = false → 12 ≤ f ∧ f < 128

/-- The ledger of a run: what was used at boot stays so. -/
structure RunInv (pfa₀ : Pfa) (s : Machine) (l : Ledger) : Prop where
  inv : s.Inv l
  boot : ∀ f, l f = .boot ↔ bootLedger pfa₀ f = .boot

variable {pfa₀ : Pfa}

theorem Took.boot_iff {p f : Nat} {l l' : Ledger} (h : Took p l l') :
    l' f = .boot ↔ l f = .boot := by
  rcases h f with heq | ⟨hfree, hnew⟩
  · rw [heq]
  · rw [hfree]
    refine ⟨fun hb => ?_, fun hb => (by cases hb)⟩
    rw [hb] at hnew
    rcases hnew with hnew | hnew | hnew <;> cases hnew

theorem bootLedger_boot_iff {f : Nat} (hf : f < maxFrames) :
    bootLedger pfa₀ f = .boot ↔ pfaTest pfa₀ f = true := by
  simp [bootLedger, hf]

/-- A frame that was not used at boot is below 128. -/
theorem RunInv.lt_of_ne_boot (h : RunInv pfa₀ s l) (hfree : FreeBelow pfa₀) {f : Nat}
    (hf : f < maxFrames) (hne : l f ≠ .boot) : 12 ≤ f ∧ f < 128 := by
  rw [Ne, h.boot f, bootLedger_boot_iff hf, Bool.not_eq_true] at hne
  exact hfree f hf hne

/-- A spawn finds a frame below 128 for its directory, if any. -/
theorem RunInv.dirFrame_ne (h : RunInv pfa₀ s l) (hfree : FreeBelow pfa₀) {g : Nat}
    (hg : 128 ≤ g) {p : Nat} {s₁ : Machine} (halloc : s.processAlloc .binary = .ok (p, s₁)) :
    (pfaAlloc s₁.kernel.pfa).1 ≠ g * pageSize := by
  obtain ⟨hgrew, -⟩ := processAlloc_spec halloc
  obtain ⟨l₁, hacc, htook⟩ := h.inv.accounts.grew hgrew p
  rcases hpfa : pfaAlloc s₁.kernel.pfa with ⟨addr, pfa⟩
  intro haddr
  simp only at haddr
  have hne : addr ≠ 0 := by
    simp only [haddr, pageSize]
    omega
  obtain ⟨f, hlt, -, hbit, hf, -⟩ := pfaAlloc_spec hpfa hne
  have hlf : l₁ f = .free := (hacc.free_iff hlt).mp hbit
  have hbelow := h.lt_of_ne_boot hfree hlt (by
    rw [Ne, ← Took.boot_iff htook, hlf]
    exact Owner.noConfusion)
  simp only [pageSize] at haddr hf
  omega

theorem RunInv.dirFrameOk (h : RunInv pfa₀ s l) (hfree : FreeBelow pfa₀) : s.dirFrameOk :=
  fun _ _ halloc => h.dirFrame_ne hfree (by decide) halloc

theorem RunInv.step {e : Event} (h : RunInv pfa₀ s l) (hframe : s.dirFrameOk)
    (hbelow : s.staysBelow e) (hstep : s.step e = some s') : ∃ l', RunInv pfa₀ s' l' := by
  cases e with
  | spawn file =>
      obtain ⟨p, s₁, -, -, -, -, -, -, l', htook, hinv⟩ := h.inv.spawn hframe hbelow hstep
      exact ⟨l', hinv, fun f => (Took.boot_iff htook).trans (h.boot f)⟩
  | exit p =>
      obtain ⟨-, hinv, -⟩ := h.inv.exit hstep
      exact ⟨_, hinv, fun f => (Ledger.release_eq_iff (by simp) (by simp) (by simp)).trans
        (h.boot f)⟩
  | heap call =>
      obtain ⟨-, -, -, l', htook, hinv⟩ := h.inv.heap hbelow hstep
      exact ⟨l', hinv, fun f => (Took.boot_iff htook).trans (h.boot f)⟩

theorem Boot.runInv (h : s.Boot) : RunInv s.kernel.pfa s (bootLedger s.kernel.pfa) :=
  ⟨h.inv, fun _ => Iff.rfl⟩

/-- Every run on a bitmap whose free frames are below 128 has a ledger. -/
theorem Boot.run {s₀ : Machine} {es : List Event} (hboot : s₀.Boot)
    (hfree : FreeBelow s₀.kernel.pfa) (hrun : Runs Machine.step staysBelow s₀ es s) :
    ∃ l, RunInv s₀.kernel.pfa s l :=
  hrun.invariant (fun s => ∃ l, RunInv s₀.kernel.pfa s l) ⟨_, hboot.runInv⟩
    fun _ _ _ ⟨_, h⟩ hbelow hstep => h.step (h.dirFrameOk hfree) hbelow hstep

end Icarius.Machine
