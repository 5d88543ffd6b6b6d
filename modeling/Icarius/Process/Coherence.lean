/-
  Icarius.Process.Coherence

  The kernel half of a process is a copy made once, by `page_create_dir`, while
  `_heap_grow` maps its pages in the kernel directory only.  The copies agree
  with the kernel directory for as long as the heap does not grow while a user
  process exists, and no longer: the first growth after a spawn is missing in
  the copy.
-/

import Icarius.Process.Isolation

namespace Icarius.Machine

open Icarius.Lib

/-- Every process maps the kernel half as the kernel directory does, the slots of
    other processes' directories aside. -/
def Coherent (s : Machine) : Prop :=
  ∀ p ∈ s.users, ∀ i, 768 ≤ i → i < 1024 →
    entryPresent (s.kernel.kernelDirectory i) = true →
    (∀ q ∈ s.users, q ≠ p → i ≠ pdIndex (s.dirOf q)) →
    entryPresent (s.procDir p i) = true ∧
      entryFrame (s.procDir p i) = entryFrame (s.kernel.kernelDirectory i)

/-- No page is mapped for the heap while the directory of a process exists.  In a
    spawn that is from `page_create_dir` on, and from its start if there are other
    processes. -/
def noGrowth (s : Machine) : Event → Prop
  | .spawn file => ∀ p s₁ q s₂, s.processAlloc .binary = .ok (p, s₁) →
      s.processSpawn file = .ok (q, s₂) →
      (s.users ≠ [] → s₂.kernel.heap.nextAddr = s.kernel.heap.nextAddr) ∧
      (q ≠ 0 → s₂.kernel.heap.nextAddr = s₁.kernel.heap.nextAddr)
  | .exit _ => True
  | .heap call => ∀ k, s.kernel.heapCall call = .ok k → s.users ≠ [] →
      k.heap.nextAddr = s.kernel.heap.nextAddr

/-- A spawn does not put a directory where the kernel cannot have it: the slots of
    frames 128 and 129 map the framebuffer, and the address of frame 256 is 0. -/
def slotOk (s : Machine) : Event → Prop
  | .spawn _ => ∀ p s₁, s.processAlloc .binary = .ok (p, s₁) →
      ∀ f ∈ [128, 129, 256], (pfaAlloc s₁.kernel.pfa).1 ≠ f * pageSize
  | .exit _ | .heap _ => True

/-- The condition on the steps of a run. -/
structure Quiet (s : Machine) (e : Event) : Prop where
  noGrowth : s.noGrowth e
  slotOk : s.slotOk e
  staysBelow : s.staysBelow e

variable {s s' : Machine} {l : Ledger}

theorem Quiet.dirFrameOk {file : Program} (h : s.Quiet (.spawn file)) : s.dirFrameOk :=
  fun p s₁ halloc => h.slotOk p s₁ halloc 256 (by simp)

/-- Coherence looks at kernel halves and processes only. -/
theorem Coherent.same (h : s.Coherent) (husers : s'.users = s.users)
    (hdirOf : ∀ q ∈ s.users, s'.dirOf q = s.dirOf q)
    (hkd : s'.kernel.kernelDirectory = s.kernel.kernelDirectory)
    (hupper : ∀ d i, 768 ≤ i → s'.kernel.dirAt d i = s.kernel.dirAt d i) : s'.Coherent := by
  intro p hp i hlo hhi hpresent hslots
  rw [husers] at hp hslots
  rw [hkd] at hpresent ⊢
  have hdir : s'.procDir p i = s.procDir p i := by
    show s'.kernel.dirAt (s'.dirOf p) i = s.kernel.dirAt (s.dirOf p) i
    rw [hdirOf p hp]
    exact hupper _ i hlo
  rw [hdir]
  refine h p hp i hlo hhi hpresent fun q hq hqp => ?_
  rw [← hdirOf q hq]
  exact hslots q hq hqp

theorem Coherent.of_nil (husers : s.users = []) : s.Coherent := by
  intro p hp
  rw [husers] at hp
  exact absurd hp List.not_mem_nil

theorem Coherent.exit {p : Nat} (h : s.Coherent) (hinv : s.Inv l)
    (hstep : s.step (.exit p) = some s') : s'.Coherent := by
  obtain ⟨hp, -, husers, hdirOf, hkd, hdirs⟩ := hinv.exit hstep
  intro q hq i hlo hhi hpresent hslots
  rw [husers, hinv.nodup.mem_erase_iff] at hq
  have hslot : i ≠ pdIndex (s.dirOf p) := by
    rintro rfl
    rw [hkd, Dir.set_self] at hpresent
    cases hpresent
  rw [hkd, Dir.set_ne _ _ hslot] at hpresent ⊢
  have hframe : spaceFrame (s.dirOf q) ≠ spaceFrame (s.dirOf p) := by
    intro heq
    have hown := ((hinv.accounts.space q hq.2).dir _).mpr rfl
    rw [heq, ((hinv.accounts.space p hp).dir _).mpr rfl, Owner.dir.injEq] at hown
    exact hq.1 hown.symm
  have hdir : s'.procDir q i = s.procDir q i := by
    show s'.kernel.dirs (spaceFrame (s'.dirOf q)) i = s.kernel.dirs (spaceFrame (s.dirOf q)) i
    rw [hdirOf, hdirs _ hframe]
  rw [hdir]
  refine h q hq.2 i hlo hhi hpresent fun r hr hrq => ?_
  by_cases hrp : r = p
  · exact hrp ▸ hslot
  · rw [hdirOf, husers] at hslots
    exact hslots r (hinv.nodup.mem_erase_iff.mpr ⟨hrp, hr⟩) hrq

theorem Coherent.heap {call : HeapCall} (h : s.Coherent) (hinv : s.Inv l)
    (hquiet : s.Quiet (.heap call)) (hstep : s.step (.heap call) = some s') : s'.Coherent := by
  obtain ⟨hgrew, husers, hdirOf, -⟩ := hinv.heap hquiet.staysBelow hstep
  by_cases hnil : s.users = []
  · exact .of_nil (husers.trans hnil)
  · have hnext : s'.kernel.heap.nextAddr = s.kernel.heap.nextAddr := by
      obtain ⟨k, hcall, rfl⟩ := step_heap hstep
      exact hquiet.noGrowth k hcall hnil
    have hsame := hgrew.sameTables hnext
    exact h.same husers (fun q _ => by rw [hdirOf]) hsame.kernelDirectory hsame.upperSame.upper

theorem Coherent.spawn {file : Program} (h : s.Coherent) (hinv : s.Inv l)
    (hquiet : s.Quiet (.spawn file)) (hstep : s.step (.spawn file) = some s') : s'.Coherent := by
  obtain ⟨p, s₂, hcall, hkernel, hdirOf₂, husers, hdirOf, hspawned, -⟩ :=
    hinv.spawn hquiet.dirFrameOk hquiet.staysBelow hstep
  -- a spawn that failed has no directory of its own, and the heap may have grown for it
  cases hspawned with
  | failed hself hgrew =>
      rw [if_pos hself] at husers
      by_cases hnil : s.users = []
      · exact .of_nil (husers.trans hnil)
      · obtain ⟨q, s₁, halloc⟩ : ∃ q s₁, s.processAlloc .binary = .ok (q, s₁) := by
          obtain ⟨⟨q, s₁⟩, halloc, -⟩ := exists_of_bind hcall
          exact ⟨q, s₁, halloc⟩
        have hnext := (hquiet.noGrowth q s₁ p s₂ halloc hcall).1 hnil
        have hsame := hgrew.sameTables hnext
        rw [hkernel] at hsame
        exact h.same husers hdirOf hsame.kernelDirectory hsame.upperSame.upper
  | created s₁ k₂ l₁ l' hne hnew halloc hgrew hacc₁ hspace hupper htook hacc =>
      rw [if_neg hne] at husers
      rw [hdirOf₂] at hspace hacc
      obtain ⟨hothers, hnext⟩ := hquiet.noGrowth p s₁ p s₂ halloc hcall
      -- no page of the heap has been added since the kernel half was copied
      have hnext₂ : s₂.kernel.heap.nextAddr = k₂.heap.nextAddr := by
        rw [hspace.heap]
        exact hnext hne
      have hkd : s'.kernel.kernelDirectory = k₂.kernelDirectory := by
        rw [← hkernel]
        exact hupper.kernelDirectory hnext₂
      have hup : ∀ d i, 768 ≤ i → s'.kernel.dirAt d i = k₂.dirAt d i := by
        rw [← hkernel]
        exact hupper.upper
      intro q hq i hlo hhi hpresent hslots
      rw [husers] at hq hslots
      show entryPresent (s'.kernel.dirAt (s'.dirOf q) i) = true ∧
        entryFrame (s'.kernel.dirAt (s'.dirOf q) i) = _
      rw [hup _ i hlo, hkd]
      rw [hkd] at hpresent
      by_cases hqp : q = p
      · -- the new process: a fresh copy
        rw [hqp, hspace.upper i hlo, copyKernelHalf_of_present hlo hhi hpresent]
        exact ⟨entryPresent_copyEntry _, entryFrame_copyEntry _⟩
      · -- an older process: nothing but the new slot changed
        have hq' : q ∈ s.users := (List.mem_cons.mp hq).resolve_left hqp
        have hnil : s.users ≠ [] := List.ne_nil_of_mem hq'
        have hsame := hgrew.sameTables ((hnext hne).symm.trans (hothers hnil))
        have hslot : i ≠ pdIndex (s'.dirOf p) :=
          hslots p List.mem_cons_self fun heq => hqp heq.symm
        have hkd₂ : k₂.kernelDirectory i = s.kernel.kernelDirectory i := by
          rw [hspace.slot, Dir.set_ne _ _ hslot, hsame.kernelDirectory]
        rw [hkd₂] at hpresent ⊢
        rw [hdirOf q hq', hspace.others q hq' i hlo, hsame.upperSame.upper _ i hlo]
        refine h q hq' i hlo hhi hpresent fun r hr hrq => ?_
        rw [← hdirOf r hr]
        exact hslots r (List.mem_cons_of_mem _ hr) hrq

/-- In every quiet run from boot the copies of the kernel half are up to date. -/
theorem coherent_of_quiet {s₀ : Machine} {es : List Event} (hboot : s₀.Boot)
    (hrun : Runs Machine.step Quiet s₀ es s) : s.Coherent := by
  have h := hrun.invariant (fun s => (∃ l, s.Inv l) ∧ s.Coherent)
    ⟨⟨_, hboot.inv⟩, .of_nil hboot.users⟩ fun s e s' hs hquiet hstep => by
      obtain ⟨⟨l, hinv⟩, hcoh⟩ := hs
      cases e with
      | spawn file =>
          obtain ⟨_, _, -, -, -, -, -, -, l', -, hinv'⟩ :=
            hinv.spawn hquiet.dirFrameOk hquiet.staysBelow hstep
          exact ⟨⟨l', hinv'⟩, hcoh.spawn hinv hquiet hstep⟩
      | exit p => exact ⟨⟨_, (hinv.exit hstep).2.1⟩, hcoh.exit hinv hstep⟩
      | heap call =>
          obtain ⟨-, -, -, l', -, hinv'⟩ := hinv.heap hquiet.staysBelow hstep
          exact ⟨⟨l', hinv'⟩, hcoh.heap hinv hquiet hstep⟩
  exact h.2

/-- A spawn is quiet when the page of its heap was there before it, or before there was
    a process. -/
theorem SpawnedAt.quiet {pfa₀ : Pfa} {file : Program} {n p : Nat} {s₁ : Machine}
    (h : s.SpawnedAt file n p s₁ s') (hn : n < 8) (hinv : RunInv pfa₀ s l)
    (hfree : FreeBelow pfa₀)
    (hpage : s.users ≠ [] → s'.kernel.heap.nextAddr = s.kernel.heap.nextAddr) :
    s.Quiet (.spawn file) := by
  refine ⟨fun q t₁ r t₂ halloc hcall => ?_, fun q t₁ halloc f hf => ?_, h.staysBelow⟩
  · obtain ⟨-, r', t', hcall', heq⟩ := step_spawn h.step
    obtain ⟨rfl, rfl⟩ := Prod.mk.inj (Except.ok.inj (hcall.symm.trans hcall'))
    have hkernel : t₂.kernel = s'.kernel := by
      rw [heq]
      split
      · rfl
      · rfl
    rw [h.alloc, Except.ok.injEq, Prod.mk.injEq] at halloc
    rw [hkernel, ← halloc.2]
    refine ⟨hpage, fun _ => ?_⟩
    rw [h.heap.nextAddr hn, h.alloc_heap.nextAddr (by omega)]
  · refine hinv.dirFrame_ne hfree ?_ halloc
    simp only [List.mem_cons, List.not_mem_nil, or_false] at hf
    omega

/-- Two spawns and an exit are quiet: the heap grows before there is a directory. -/
theorem coherent_exit : ∃ t u, Runs step Quiet coldMachine
      [.spawn coldProgram, .spawn coldProgram] t ∧ t.users = [secondProcess, firstProcess] ∧
      t.Coherent ∧ Runs step Quiet coldMachine
      [.spawn coldProgram, .spawn coldProgram, .exit firstProcess] u ∧
      u.users = [secondProcess] ∧ u.Coherent := by
  obtain ⟨s₁, s, t₁, t, u, hcold, hexit⟩ := coldMachine_exit
  obtain ⟨l, hl⟩ := coldMachine_boot.run coldMachine_free hcold.run
  have hfirst : coldMachine.Quiet (.spawn coldProgram) := hcold.spawned.quiet (by decide)
    coldMachine_boot.runInv coldMachine_free fun hne => absurd rfl hne
  have hsecond : s.Quiet (.spawn coldProgram) :=
    hexit.spawned.quiet (by decide) hl coldMachine_free fun _ => by
      rw [hexit.spawned.heap.nextAddr (by decide), hcold.spawned.heap.nextAddr (by decide)]
  have hrun : Runs step Quiet coldMachine [.spawn coldProgram, .spawn coldProgram] t :=
    (Runs.nil.snoc hfirst hcold.spawned.step).snoc hsecond hexit.spawned.step
  have hrun' := hrun.snoc (⟨trivial, trivial, hexit.staysBelow⟩ : t.Quiet (.exit firstProcess))
    hexit.exit
  exact ⟨t, u, hrun, hexit.users, coherent_of_quiet coldMachine_boot hrun, hrun', hexit.left,
    coherent_of_quiet coldMachine_boot hrun'⟩

theorem step_kmalloc {size ptr : Nat} {k : Kernel}
    (h : s.kernel.kmalloc size = .ok (ptr, k)) :
    s.step (.heap (.kmalloc size)) = some (s.setKernel k) := by
  simp only [step, Kernel.heapCall, h]

/-- The first growth of the heap after a spawn is missing in the process: a
    request of 4 MiB maps entry 773 of the kernel directory to a new frame, and
    the process still maps it to frame 5. -/
theorem exists_incoherent : ∃ s, Runs step staysBelow coldMachine
    [.spawn coldProgram, .heap (.kmalloc 0x400000)] s ∧ ¬ s.Coherent := by
  obtain ⟨s₁, s, hfirst⟩ := coldMachine_spawn
  obtain ⟨l, hl⟩ := coldMachine_boot.run coldMachine_free hfirst.run
  have hacc := hl.inv.accounts
  have hnext := hfirst.spawned.heap.nextAddr (by decide)
  have hpage := Kernel.pageChunks_eq
  have hneeded : Kernel.chunksNeeded 0x400000 = 1025 := by decide
  have hindex : pdIndex (kernelHeapStart + 4194304) = 773 := by decide
  have hframe : (pfaAlloc s.kernel.pfa).1 ≠ 0 := by
    rw [hfirst.pfa]
    exact (Supplies.drop (m := 6) (n := 5) coldMachine_supplies).1
  obtain ⟨k₁, hgrow, -⟩ := Kernel.heapGrow_isOk hacc.cr3 hframe
  obtain ⟨ptr, k', hcall, hsame⟩ := Kernel.kmalloc_grows 0x400000
    (by rw [hnext]; decide) hfirst.spawned.heap Kernel.used_of_mem_replicate
    (by rw [(Kernel.chunks_replicate_used 3).2]; omega) (by omega) (by omega) (by omega) hgrow
    (by rw [hnext, hpage]; decide)
  have hstep := step_kmalloc hcall
  have hgrown := Kernel.heapGrow_grewPage hgrow
  have hbelow : s.staysBelow (.heap (.kmalloc 0x400000)) := by
    intro s' hs'
    rw [hstep, Option.some.injEq] at hs'
    rw [← hs']
    show k'.heap.nextAddr ≤ kernelHeapMax
    rw [hsame.nextAddr, hgrown.nextAddr, hnext]
    decide
  refine ⟨_, hfirst.run.snoc hbelow hstep, fun hcoh => ?_⟩
  obtain ⟨f, hlt, -, hbit, -, hkd⟩ := hgrown.mapped.frame
  have hlf : l f = .free := (hacc.free_iff hlt).mp hbit
  have hge := hacc.ge_of_ne_boot (f := f) (by rw [hlf]; exact Owner.noConfusion)
  -- the entry of the new page, in the kernel directory and in the copy
  have hentry : k'.kernelDirectory 773 = frameEntry f kernelFlags := by
    rw [hsame.kernelDirectory, hkd, hnext, pageMapDir, hindex, Dir.set_self]
    rfl
  have hcopy : (s.setKernel k').procDir firstProcess 773 = copyEntry (bootDirectory 773) := by
    rw [← hfirst.copy 773 (by decide) (by decide)]
    show k'.dirs _ 773 = s.kernel.dirs _ 773
    rw [hsame.dirs, hgrown.mapped.dirs]
    rfl
  have hp : firstProcess ∈ (s.setKernel k').users := by
    show firstProcess ∈ s.users
    rw [hfirst.users]
    exact List.mem_singleton.mpr rfl
  have hpresent : entryPresent ((s.setKernel k').kernel.kernelDirectory 773) = true := by
    show entryPresent (k'.kernelDirectory 773) = true
    rw [hentry]
    exact entryPresent_frameEntry f kernelFlags
  obtain ⟨-, hframes⟩ := hcoh firstProcess hp 773 (by decide) (by decide) hpresent fun q hq hqp => by
    have hq' : q ∈ s.users := hq
    rw [hfirst.users, List.mem_singleton] at hq'
    exact absurd hq' hqp
  have hfive : entryFrame (bootDirectory 773) = 5 := by decide
  rw [hcopy, entryFrame_copyEntry, hfive] at hframes
  have hnew : entryFrame ((s.setKernel k').kernel.kernelDirectory 773) = f := by
    show entryFrame (k'.kernelDirectory 773) = f
    rw [hentry, entryFrame_frameEntry hlt]
  omega

end Icarius.Machine
