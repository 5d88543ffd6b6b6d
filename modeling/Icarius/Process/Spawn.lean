/-
  Icarius.Process.Spawn

  A spawn does not fail without a reason: on a heap of one page, with frames to be
  had for the directory and the pages, a program that fits in one chunk of the heap
  gets its process, and the heap is left with three more used chunks.  Right after
  boot the heap gets its page from the spawn.
-/

import Icarius.Memory.Supply
import Icarius.Process.Runs

namespace Icarius

open Icarius.Lib Layout

namespace Machine

open Kernel

variable {s : Machine}

/-- The two objects of the first process. -/
theorem processAlloc_isOk (hboot : s.Boot) (hframes : Supplies 1 s.kernel.pfa) :
    ∃ p s₁, s.processAlloc .binary = .ok (p, s₁) ∧ p = kernelHeapStart + heapBlockSize ∧
      s₁.kernel.OnePage 2 ∧ s₁.kernel.pfa = (pfaAlloc s.kernel.pfa).2 ∧
      ∀ i, i ≠ pdIndex kernelHeapStart →
        s₁.kernel.kernelDirectory i = s.kernel.kernelDirectory i := by
  obtain ⟨p, k₁, hproc, hp, hone, hpfa, hkd⟩ :=
    kzalloc_first processSize hboot.heap hboot.cr3 hframes.1 (by decide)
  obtain ⟨buf, k₂, hbuf, -, -, htwo, hsame⟩ :=
    hone.kzalloc fifoSize (by decide) (by decide)
  have hne : p ≠ 0 := by
    rw [hp]
    decide
  obtain ⟨s₁, hcall, hkernel⟩ : ∃ s₁, s.processAlloc .binary = .ok (p, s₁) ∧ s₁.kernel = k₂ := by
    simp only [processAlloc, ok_bind, hproc, hbuf, hne, if_false]
    exact ⟨_, rfl, rfl⟩
  refine ⟨p, s₁, hcall, hp, hkernel ▸ htwo, hkernel ▸ hsame.pfa.trans hpfa, fun i hi => ?_⟩
  rw [hkernel, hsame.kernelDirectory]
  exact hkd i hi

/-- The two objects of a process, on a heap of one page. -/
theorem processAlloc_onePage {j : Nat} (hone : s.kernel.OnePage j) (hj : j < 7) :
    ∃ p s₁, s.processAlloc .binary = .ok (p, s₁) ∧ p ≠ 0 ∧
      p = kernelHeapStart + 4096 * chunks (List.replicate j (usedBlk 1)) + heapBlockSize ∧
      s₁.kernel.OnePage (j + 2) ∧ SameTables s.kernel s₁.kernel := by
  obtain ⟨p, k₁, hproc, hne, hp, hone₁, hsame₁⟩ :=
    hone.kzalloc processSize (by omega) (by decide)
  obtain ⟨buf, k₂, hbuf, -, -, hone₂, hsame₂⟩ :=
    hone₁.kzalloc fifoSize (by omega) (by decide)
  obtain ⟨s₁, hcall, hkernel⟩ : ∃ s₁, s.processAlloc .binary = .ok (p, s₁) ∧ s₁.kernel = k₂ := by
    simp only [processAlloc, ok_bind, hproc, hbuf, hne, if_false]
    exact ⟨_, rfl, rfl⟩
  exact ⟨p, s₁, hcall, hne, hp, hkernel ▸ hone₂, hkernel ▸ hsame₁.trans hsame₂⟩

/-- With frames to be had, the new address space has its code page. -/
theorem createSpace_isOk {self : Nat} (hcr3 : s.kernel.cr3 = none)
    (hzero : pfaTest s.kernel.pfa 0 = true) (hframes : Supplies 4 s.kernel.pfa)
    (hframe : (pfaAlloc s.kernel.pfa).1 ≠ 256 * pageSize) :
    ∃ s', s.createSpace self = .ok s' ∧ s'.dirOf self ≠ 0 ∧
      (s'.procs self).taskCount = (s.procs self).taskCount ∧
      s'.kernel.mem = s.kernel.mem ∧ s'.kernel.heap = s.kernel.heap ∧
      s'.kernel.pfa = takeFrames 4 s.kernel.pfa ∧
      entryPresent (s'.kernel.dirAt (s'.dirOf self) 0) = true := by
  obtain ⟨d, k₁, hdir⟩ := pageCreateDir_isOk hcr3 userFlags
  rcases pageCreateDir_spec hcr3 hzero hdir with
    ⟨-, hnone, -⟩ | ⟨f, hlt, haddr, -, hd, hpfa, -, -, -, hheap, hmem⟩
  · exact absurd hnone hframes.1
  have hne : d ≠ 0 := by
    rw [hd]
    refine p2v_ne_zero hlt ?_
    rintro rfl
    exact hframe haddr
  -- the directory takes one frame, the pages behind it three
  have hpfa₁ : k₁.pfa = (pfaAlloc s.kernel.pfa).2 := by
    rcases halloc : pfaAlloc s.kernel.pfa with ⟨addr, pfa⟩
    obtain ⟨g, -, -, -, hg, hset⟩ := pfaAlloc_spec halloc (by
      have := hframes.1
      rwa [halloc] at this)
    rw [halloc] at haddr
    have hgf : g = f := by
      simp only [pageSize] at haddr hg
      omega
    rw [hpfa, hset, hgf]
  have hframes₁ : Supplies 2 k₁.pfa := hpfa₁ ▸ hframes.2.mono (by decide)
  obtain ⟨hpfa₂, hpresent, -⟩ :=
    pageMapLoop_supplied (d := d) (n := 2) hframes₁
  obtain ⟨hheap₂, hmem₂⟩ := pageMapLoop_same d userFlags 2 0 k₁
  generalize hk₂ : Kernel.pageMapLoop d userFlags 2 0 k₁ = k₂ at *
  have hframes₂ : Supplies 1 k₂.pfa := by
    rw [hpfa₂, hpfa₁]
    exact Supplies.drop (m := 2) hframes.2
  obtain ⟨hpfa₃, -, hlower⟩ :=
    pageMapLoop_supplied (d := d) (n := 1) hframes₂
  obtain ⟨hheap₃, hmem₃⟩ := pageMapLoop_same d userFlags 1 userHeapStart k₂
  generalize hk₃ : Kernel.pageMapLoop d userFlags 1 userHeapStart k₂ = k₃ at *
  have hcall : s.createSpace self = .ok ((s.setKernel k₃).setProc self
      { s.procs self with pageDir := d }) := by
    simp only [createSpace, ok_bind, hdir]
    rw [pageMapBetween_heap _ hne, pageMapBetween_code _ hne, hk₂, hk₃]
  have hself : ((s.setKernel k₃).setProc self { s.procs self with pageDir := d }).procs self
      = { s.procs self with pageDir := d } := if_pos rfl
  refine ⟨_, hcall, ?_, ?_, ?_, ?_, ?_, ?_⟩
  · rw [dirOf, hself]
    exact hne
  · rw [hself]
  · show k₃.mem = _
    rw [hmem₃, hmem₂, hmem]
  · show k₃.heap = _
    rw [hheap₃, hheap₂, hheap]
  · show k₃.pfa = _
    rw [hpfa₃, hpfa₂, hpfa₁]
    rfl
  · rw [dirOf, hself]
    show entryPresent (k₃.dirAt d 0) = true
    rw [hlower 0 (by decide)]
    exact hpresent (by decide)

/-- Every address is seen under a fresh copy of the kernel half. -/
theorem sees_of_upper {ptr : Nat} (hupper : ∀ i, 768 ≤ i →
    s.kernel.dirAt ptr i = copyKernelHalf s.kernel.kernelDirectory i) (a : Nat) :
    s.sees (s.kernel.dirAt ptr) a := by
  by_cases hi : pdIndex (a % 2 ^ 32) < 768
  · exact .inl hi
  · refine .inr fun hpresent => ?_
    have hlt : pdIndex (a % 2 ^ 32) < 1024 := by
      rw [pdIndex, Nat.shiftRight_eq_div_pow]
      omega
    rw [hupper _ (by omega), copyKernelHalf_of_present (by omega) hlt hpresent,
      entryFrame_copyEntry]

/-- Under a fresh copy of the kernel half, kernel code sees the kernel's memory. -/
theorem underDir_of_sees {ptr : Nat} {code : Kernel → Except Stop Kernel} {k : Kernel}
    (hsees : ∀ a, s.sees (s.kernel.dirAt ptr) a)
    (hcode : code { s.kernel with cr3 := some (v2p ptr / pageSize) } = .ok k) :
    ∃ s', s.underDir ptr code = .ok s' ∧ s'.kernel = k.pageRestoreKernelDir ∧
      s'.procs = s.procs ∧ s'.users = s.users := by
  have hseen : (fun a => if s.sees (s.kernel.dirAt ptr) a then s.kernel.mem a else s.stale a)
      = s.kernel.mem := funext fun a => if_pos (hsees a)
  have hback : (fun a => if s.sees (s.kernel.dirAt ptr) a then k.mem a else s.kernel.mem a)
      = k.mem := funext fun a => if_pos (hsees a)
  simp only [underDir, hseen, hcode, hback]
  exact ⟨_, rfl, rfl, rfl, rfl⟩

/-- A program the loader copies without help of the file system's own heap calls:
    one chunk is enough, and its code fits in the first page. -/
structure Program.Plain (file : Program) : Prop where
  openCalls : file.openCalls = []
  readCalls : file.readCalls = []
  sizeCalls : file.sizeCalls = []
  size : file.stSize + heapBlockSize ≤ kernelHeapChunkSize
  bytes : file.bytesRead ≤ pageSize

theorem codeMapped_of_le {dir : Dir} {bytesRead : Nat} (hle : bytesRead ≤ pageSize)
    (hpresent : entryPresent (dir 0) = true) : codeMapped dir bytesRead = true := by
  have hpages : (bytesRead + (pageSize - 1)) / pageSize ≤ 1 := by
    simp only [pageSize] at hle ⊢
    omega
  rw [codeMapped, List.all_eq_true]
  intro i hi
  have hzero : i = 0 := by
    have := List.mem_range.mp hi
    omega
  rw [hzero]
  exact hpresent

theorem loadBinaryIntoTask_isOk (dir : Dir) {file : Program} {k : Kernel} {j : Nat}
    (hfile : Program.Plain file) (hone : k.OnePage j) (hj : j < 7)
    (hpresent : entryPresent (dir 0) = true) :
    ∃ k', loadBinaryIntoTask dir file k = .ok k' ∧ k'.OnePage j ∧ SameTables k k' := by
  obtain ⟨buf, k₁, hbuf, -, hptr, hone₁, hsame⟩ := hone.kzalloc _ (by omega) hfile.size
  refine ⟨k₁.kfree buf, ?_, ?_, hsame.trans (kfree_sameTables k₁ buf)⟩
  · simp only [loadBinaryIntoTask, hfile.openCalls, hfile.readCalls, heapCalls, ok_bind,
      hbuf, codeMapped_of_le hfile.bytes hpresent, if_true]
  · rw [hptr]
    exact hone₁.kfree hj

/-- The first task of a process, loaded from a plain program. -/
theorem taskCreate_isOk {self j : Nat} {l : Ledger} {users : List Nat} {dirOf : Nat → Nat}
    {file : Program} (h : Accounts s.kernel users dirOf l) (hself : self ∈ users)
    (hdir : (s.procs self).pageDir = dirOf self) (hne : dirOf self ≠ 0)
    (hcount : (s.procs self).taskCount = 0) (hone : s.kernel.OnePage j) (hj : j < 6)
    (hempty : ∀ i, 3 ≤ i → i < 768 → s.kernel.dirAt (dirOf self) i = 0)
    (hupper : ∀ i, 768 ≤ i →
      s.kernel.dirAt (dirOf self) i = copyKernelHalf s.kernel.kernelDirectory i)
    (hcode : entryPresent (s.kernel.dirAt (dirOf self) 0) = true)
    (hframes : Supplies 1 s.kernel.pfa) (hfile : Program.Plain file) :
    ∃ task s', s.taskCreate self file = .ok (task, s') ∧ task ≠ 0 ∧ s'.procs = s.procs ∧
      s'.users = s.users ∧ s'.kernel.OnePage (j + 1) ∧
      s'.kernel.pfa = takeFrames 1 s.kernel.pfa := by
  obtain ⟨task, k₁, htask, htaskNe, -, hone₁, hsame₁⟩ :=
    hone.kzalloc taskSize (by omega) (by decide)
  have hstack : pdIndex 0xBFFC0000 = 767 := rfl
  have hlow : pdIndex 0xBFFC0000 + 1 ≤ 768 := by omega
  have hdirs₁ : ∀ i, k₁.dirAt (dirOf self) i = s.kernel.dirAt (dirOf self) i := fun i => by
    rw [Kernel.dirAt, hsame₁.dirs]
    rfl
  obtain ⟨honly, l₂, hacc₂, -⟩ := (h.same hsame₁).pageMapLoop hself hlow fun i hlo hhi => by
    rw [hdirs₁]
    exact hempty i (by omega) (by omega)
  -- the stack takes one frame, and slot 767 of the directory
  have hframes₁ : Supplies 1 k₁.pfa := hsame₁.pfa ▸ hframes
  obtain ⟨hpfa₂, -⟩ :=
    pageMapLoop_supplied (d := dirOf self) (n := 1) hframes₁
  generalize hk₂ : Kernel.pageMapLoop (dirOf self) userFlags 1 0xBFFC0000 k₁ = k₂ at *
  have hone₂ : k₂.OnePage (j + 1) := hone₁.of_eq honly.mem honly.heap
  have hentry : ∀ i, i ≠ 767 → k₂.dirAt (dirOf self) i = s.kernel.dirAt (dirOf self) i :=
    fun i hi => (honly.entries i (by omega)).trans (hdirs₁ i)
  have hkd : k₂.kernelDirectory = s.kernel.kernelDirectory :=
    honly.kernelDirectory.trans hsame₁.kernelDirectory
  obtain ⟨k₃, hload, hone₃, hsame₃⟩ := loadBinaryIntoTask_isOk
    (k := { k₂ with cr3 := some (v2p (dirOf self) / pageSize) }) (k₂.dirAt (dirOf self))
    hfile (hone₂.of_eq rfl rfl) (by omega) (by rw [hentry 0 (by decide)]; exact hcode)
  set s₂ : Machine := { s with
    kernel := k₂
    tasks := fun t =>
      if t = task then ⟨userStackEnd - 0, userStackEnd - 0 - userStackSize / processMaxThread + 1, self⟩
      else s.tasks t } with hs₂
  -- the loader runs under the new directory, which sees the kernel's upper half
  have hsees : ∀ a, s₂.sees (s₂.kernel.dirAt (dirOf self)) a := sees_of_upper fun i hi => by
    show k₂.dirAt (dirOf self) i = copyKernelHalf k₂.kernelDirectory i
    rw [hentry i (by omega), hupper i hi, hkd]
  obtain ⟨s₃, hunder, hkernel, hprocs, husers⟩ := underDir_of_sees hsees hload
  refine ⟨task, s₃, ?_, htaskNe, hprocs, husers, ?_, ?_⟩
  · simp only [taskCreate, hcount, ok_bind, htask]
    rw [if_neg (by decide)]
    simp only [setKernel, htaskNe, if_false, hdir, hne, hcount, Nat.zero_mul]
    rw [pageMapBetween_stack _ hne, hk₂]
    rw [hs₂] at hunder
    rw [hunder, ok_bind]
  · rw [hkernel]
    exact hone₃.of_eq rfl rfl
  · rw [hkernel]
    show k₃.pfa = _
    rw [hsame₃.pfa]
    show k₂.pfa = _
    rw [hpfa₂, hsame₁.pfa]

/-- A spawn whose parts succeed. -/
theorem processSpawn_of_parts {file : Program} {p task : Nat} {s₁ s₂ s₃ : Machine}
    (halloc : s.processAlloc .binary = .ok (p, s₁)) (hne : p ≠ 0)
    (hcreate : s₁.createSpace p = .ok s₂) (htask : s₂.taskCreate p file = .ok (task, s₃))
    (htaskNe : task ≠ 0) (hfile : Program.Plain file) :
    ∃ s', s.processSpawn file = .ok (p, s') ∧ s'.kernel = s₃.kernel ∧ s'.users = s₃.users ∧
      s'.dirOf = s₃.dirOf := by
  have hcount := (processAlloc_spec halloc).2.2.2 hne
  simp only [processSpawn, ok_bind, halloc, hne, if_false, hcount, hcreate, htask, htaskNe,
    hfile.sizeCalls, heapCalls]
  rw [if_neg (by decide)]
  refine ⟨_, rfl, ?_, ?_, ?_⟩
  · rw [(processListInsert_same _ p).2.1]
    rfl
  · rw [(processListInsert_same _ p).2.2]
    rfl
  · rw [(processListInsert_same _ p).1]
    exact dirOf_setProc rfl

/-- A spawn that leaves a heap of one page with `n` used chunks, the first of them
    taken for the process at `p`. -/
structure SpawnedAt (s : Machine) (file : Program) (n p : Nat) (s₁ s' : Machine) : Prop where
  alloc : s.processAlloc .binary = .ok (p, s₁)
  alloc_heap : s₁.kernel.OnePage (n - 1)
  step : s.step (.spawn file) = some s'
  staysBelow : s.staysBelow (.spawn file)
  users : s'.users = p :: s.users
  heap : s'.kernel.OnePage n
  pfa : s'.kernel.pfa = takeFrames 5 s₁.kernel.pfa
  /-- The kernel half is the one there was, its own slot apart. -/
  copy : ∀ i, 768 ≤ i → i < 1024 → i ≠ pdIndex (s'.dirOf p) →
    entryPresent (s₁.kernel.kernelDirectory i) = true →
    s'.procDir p i = copyEntry (s₁.kernel.kernelDirectory i)

/-- Once a process has its two objects, the rest of the spawn succeeds. -/
theorem spawnedAt_of_alloc {l : Ledger} {file : Program} {j p : Nat} {s₁ : Machine}
    (hinv : s.Inv l) (halloc : s.processAlloc .binary = .ok (p, s₁)) (hne : p ≠ 0)
    (hnone : p ∉ s.users) (hone₁ : s₁.kernel.OnePage j) (hj : j < 6) (hframe : s.dirFrameOk)
    (hframes : Supplies 5 s₁.kernel.pfa) (hfile : Program.Plain file) :
    ∃ s', s.SpawnedAt file (j + 1) p s₁ s' := by
  obtain ⟨hgrew, husers₁, hprocs₁, hcount⟩ := processAlloc_spec halloc
  obtain ⟨l₁, hacc₁, -⟩ := hinv.accounts.grew hgrew p
  have hbelow₁ : s₁.kernel.heap.nextAddr ≤ kernelHeapMax := by
    rw [hone₁.nextAddr (by omega)]
    decide
  have hzero : pfaTest s₁.kernel.pfa 0 = true := by
    rw [hacc₁.bitmap 0 (by decide), hacc₁.boot 0 (by decide)]
    exact Owner.noConfusion
  obtain ⟨s₂, hcreate, hdirNe, hcount₂, hmem₂, hheap₂, hpfa₂, hcode⟩ :=
    createSpace_isOk hacc₁.cr3 hzero (hframes.mono (by decide)) (hframe p s₁ halloc)
  obtain ⟨husers₂, -, -, hspace⟩ :=
    createSpace_spec hacc₁ hbelow₁ hnone (hframe p s₁ halloc) hcreate
  have hspace := hspace.resolve_left fun hnoDir => hdirNe hnoDir.1
  obtain ⟨l₂, -, hacc₂⟩ := hspace.accounts
  generalize hdirOf' : (fun q => if q = p then s₂.dirOf p else s.dirOf q) = dirOf' at hacc₂
  have hself : dirOf' p = s₂.dirOf p := by
    rw [← hdirOf']
    exact if_pos rfl
  obtain ⟨task, s₃, htask, htaskNe, hprocs₃, husers₃, hone₃, hpfa₃⟩ :=
    taskCreate_isOk hacc₂ List.mem_cons_self hself.symm (hself ▸ hdirNe)
      (hcount₂.trans (hcount hne)) (hone₁.of_eq hmem₂ hheap₂) hj (hself ▸ hspace.empty)
      (hself ▸ hspace.upper) (hself ▸ hcode)
      (by rw [hpfa₂]; exact Supplies.drop (m := 4) hframes) hfile
  have hbelow₂ : s₂.kernel.heap.nextAddr ≤ kernelHeapMax := hheap₂ ▸ hbelow₁
  obtain ⟨-, -, -, hupper₃, -⟩ := taskCreate_spec hacc₂ List.mem_cons_self hself.symm
    (hself ▸ hdirNe) (hcount₂.trans (hcount hne)) (hself ▸ hspace.empty) hbelow₂ htask
  obtain ⟨s₄, hspawn, hkernel₄, husers₄, hdirOf₄⟩ :=
    processSpawn_of_parts halloc hne hcreate htask htaskNe hfile
  have hreuse : s.reusesLive = false := by
    unfold reusesLive
    rw [halloc]
    exact Bool.eq_false_iff.mpr fun hlive => hnone (List.contains_iff_mem.mp hlive)
  have hstep : s.step (.spawn file) = some { s₄ with users := p :: s₄.users } := by
    simp only [step, hreuse, hspawn, hne, if_false]
    rfl
  have hone₄ : s₄.kernel.OnePage (j + 1) := hkernel₄ ▸ hone₃
  refine ⟨_, halloc, hone₁, hstep, ?_, ?_, hone₄, ?_, fun i hlo hhi hslot hpresent => ?_⟩
  · intro s' hs'
    rw [hstep, Option.some.injEq] at hs'
    rw [← hs']
    show s₄.kernel.heap.nextAddr ≤ kernelHeapMax
    rw [hone₄.nextAddr (by omega)]
    decide
  · show p :: s₄.users = p :: s.users
    rw [husers₄, husers₃, husers₂, husers₁]
  · show s₄.kernel.pfa = _
    rw [hkernel₄, hpfa₃, hpfa₂]
    rfl
  · have hdir : s₃.dirOf p = s₂.dirOf p := by
      show (s₃.procs p).pageDir = _
      rw [hprocs₃]
      rfl
    have hkd : s₂.kernel.kernelDirectory i = s₁.kernel.kernelDirectory i := by
      rw [hspace.slot, Dir.set_ne]
      rw [← hdir, ← hdirOf₄]
      exact hslot
    show s₄.kernel.dirAt (s₄.dirOf p) i = _
    rw [hkernel₄, hdirOf₄, hdir, hupper₃.upper _ i hlo, hspace.upper i hlo,
      copyKernelHalf_of_present hlo hhi (hkd ▸ hpresent), hkd]

/-- The first spawn after boot succeeds. -/
theorem first_spawn {file : Program} (hboot : s.Boot) (hfree : FreeBelow s.kernel.pfa)
    (hframes : Supplies 6 s.kernel.pfa) (hfile : Program.Plain file) :
    ∃ s₁ s', s.SpawnedAt file 3 (kernelHeapStart + heapBlockSize) s₁ s' ∧
      s₁.kernel.pfa = (pfaAlloc s.kernel.pfa).2 ∧
      ∀ i, i ≠ pdIndex kernelHeapStart →
        s₁.kernel.kernelDirectory i = s.kernel.kernelDirectory i := by
  obtain ⟨p, s₁, halloc, hp, hone₁, hpfa₁, hkd₁⟩ :=
    processAlloc_isOk hboot (hframes.mono (by decide))
  subst hp
  obtain ⟨s', hspawned⟩ := spawnedAt_of_alloc hboot.inv halloc (by decide)
    (hboot.users ▸ List.not_mem_nil) hone₁ (by decide) (hboot.runInv.dirFrameOk hfree)
    (hpfa₁ ▸ hframes.2) hfile
  exact ⟨s₁, s', hspawned, hpfa₁, hkd₁⟩

/-- So does one on a heap of one page. -/
theorem next_spawn {pfa₀ : Pfa} {l : Ledger} {file : Program} {j : Nat} (h : RunInv pfa₀ s l)
    (hfree : FreeBelow pfa₀) (hone : s.kernel.OnePage j) (hj : j < 4)
    (hnone : kernelHeapStart + 4096 * j + heapBlockSize ∉ s.users)
    (hframes : Supplies 5 s.kernel.pfa) (hfile : Program.Plain file) :
    ∃ s₁ s', s.SpawnedAt file (j + 3) (kernelHeapStart + 4096 * j + heapBlockSize) s₁ s' := by
  obtain ⟨p, s₁, halloc, hne, hp, hone₁, hsame⟩ := processAlloc_onePage hone (by omega)
  rw [(chunks_replicate_used j).1] at hp
  subst hp
  obtain ⟨s', hspawned⟩ := spawnedAt_of_alloc h.inv halloc hne hnone hone₁ (by omega)
    (h.dirFrameOk hfree) (hsame.pfa ▸ hframes) hfile
  exact ⟨s₁, s', hspawned⟩

/-- A process can exit at any time. -/
theorem exit_isOk {l : Ledger} {p : Nat} (h : s.Inv l) (hp : p ∈ s.users) :
    ∃ s', s.step (.exit p) = some s' := by
  obtain ⟨-, hkernel, -⟩ := processListRemove_same s p
  obtain ⟨k, hrelease⟩ : ∃ k, releaseSpace s.kernel (s.procs p).pageDir = .ok k := by
    simp only [releaseSpace, updateCurrentDir, Kernel.setDirAt, h.accounts.cr3]
    exact ⟨_, rfl⟩
  simp only [step, hp, if_true, processExit, hkernel, hrelease]
  exact ⟨_, rfl⟩

/-- A machine with 512 MiB that has just booted. -/
def coldMachine : Machine where
  kernel :=
    { mem := fun _ => 0
      heap := ⟨kernelHeapStart, kernelHeapStart, kernelHeapMax, 0, 0, 0⟩
      pfa := ⟨fun i => if i = 0 then 0xFFF#32 else if i < 4 then 0#32 else 0xFFFFFFFF#32⟩
      kernelDirectory := bootDirectory
      dirs := fun _ _ => 0
      cr3 := none }
  stale := fun _ => 0
  procs := fun _ => ⟨0, fun _ => 0, 0, 0, .kernelThread, 0, 0, 0, 0⟩
  tasks := fun _ => ⟨0, 0, 0⟩
  processes := 0
  currProcess := 0
  nextPid := 1
  users := []

/-- A program of 100 bytes. -/
def coldProgram : Program := ⟨[], 100, [], 100, []⟩

theorem coldMachine_free : FreeBelow coldMachine.kernel.pfa := by
  unfold FreeBelow
  decide +kernel

theorem coldMachine_boot : coldMachine.Boot := by
  refine ⟨rfl, rfl, rfl, rfl, fun f hf => ?_, fun f hf => ?_⟩
  · have hall : ∀ f < 12, pfaTest coldMachine.kernel.pfa f = true := by decide +kernel
    refine hall f ?_
    have := hf.2
    simp only [kernelPhysEnd, pageSize] at this
    omega
  · have heq : f = 1012 := by
      obtain ⟨hlo, hhi⟩ := hf
      simp only [framebufferPhysBase, framebufferSize, pageSize] at hlo hhi
      omega
    rw [heq]
    decide +kernel

theorem coldMachine_supplies : Supplies 11 coldMachine.kernel.pfa := by
  refine ⟨?_, ?_, ?_, ?_, ?_, ?_, ?_, ?_, ?_, ?_, ?_, trivial⟩ <;> decide +kernel

theorem coldProgram_plain : Program.Plain coldProgram := ⟨rfl, rfl, rfl, by decide, by decide⟩

/-- The process of the first spawn. -/
def firstProcess : Nat := kernelHeapStart + heapBlockSize

/-- The process of the second spawn, three chunks behind. -/
def secondProcess : Nat := kernelHeapStart + 4096 * 3 + heapBlockSize

/-- What the first spawn of the cold machine leaves behind. -/
structure ColdSpawn (s₁ s : Machine) : Prop where
  spawned : coldMachine.SpawnedAt coldProgram 3 firstProcess s₁ s
  pfa : s.kernel.pfa = takeFrames 6 coldMachine.kernel.pfa
  run : Runs step staysBelow coldMachine [.spawn coldProgram] s
  users : s.users = [firstProcess]
  /-- The heap has one page only, so behind it the copy of the kernel half is that
      of the boot mapping. -/
  copy : ∀ i, pdIndex kernelHeapStart < i → i < 780 →
    s.procDir firstProcess i = copyEntry (bootDirectory i)

theorem coldMachine_spawn : ∃ s₁ s, ColdSpawn s₁ s := by
  obtain ⟨s₁, s, hspawned, hpfa₁, hkd₁⟩ := first_spawn coldMachine_boot coldMachine_free
    (coldMachine_supplies.mono (by decide)) coldProgram_plain
  have hrun := Runs.nil.snoc hspawned.staysBelow hspawned.step
  obtain ⟨l, hl⟩ := coldMachine_boot.run coldMachine_free hrun
  refine ⟨s₁, s, hspawned, ?_, hrun, hspawned.users, fun i hlo hhi => ?_⟩
  · rw [hspawned.pfa, hpfa₁]
    rfl
  · have hstart : pdIndex kernelHeapStart = 772 := rfl
    -- the slot of the directory is behind the kernel's own pages
    have hspace := hl.inv.accounts.space firstProcess (hspawned.users ▸ List.mem_cons_self)
    have hown : l (spaceFrame (s.dirOf firstProcess)) ≠ .boot := by
      rw [(hspace.dir _).mpr rfl]
      exact Owner.noConfusion
    have hlt := hl.inv.accounts.lt (f := spaceFrame (s.dirOf firstProcess)) (by
      rw [(hspace.dir _).mpr rfl]
      exact Owner.noConfusion)
    have hge := hl.inv.accounts.ge_of_ne_boot hown
    have hslot : i ≠ pdIndex (s.dirOf firstProcess) := by
      simp only [hspace.slot, slotOf, maxFrames] at hlt ⊢
      omega
    have hkd : s₁.kernel.kernelDirectory i = bootDirectory i := hkd₁ i (by omega)
    have hboot : ∀ i < 780, 772 < i → entryPresent (bootDirectory i) = true := by decide +kernel
    rw [← hkd]
    exact hspawned.copy i (by omega) (by omega) hslot (hkd ▸ hboot i hhi (by omega))

/-- A second spawn, and the exit of the first process. -/
structure ColdExit (s t₁ t u : Machine) : Prop where
  spawned : s.SpawnedAt coldProgram 6 secondProcess t₁ t
  users : t.users = [secondProcess, firstProcess]
  run : Runs step staysBelow coldMachine [.spawn coldProgram, .spawn coldProgram] t
  exit : t.step (.exit firstProcess) = some u
  staysBelow : t.staysBelow (.exit firstProcess)
  left : u.users = [secondProcess]

theorem coldMachine_exit : ∃ s₁ s t₁ t u, ColdSpawn s₁ s ∧ ColdExit s t₁ t u := by
  obtain ⟨s₁, s, hcold⟩ := coldMachine_spawn
  obtain ⟨l, hl⟩ := coldMachine_boot.run coldMachine_free hcold.run
  have hframes : Supplies 5 s.kernel.pfa :=
    hcold.pfa ▸ Supplies.drop (m := 6) (n := 5) coldMachine_supplies
  obtain ⟨t₁, t, hsecond⟩ := next_spawn hl coldMachine_free hcold.spawned.heap (by decide)
    (by rw [hcold.users]; decide) hframes coldProgram_plain
  have husers : t.users = [secondProcess, firstProcess] := by
    rw [hsecond.users, hcold.users]
    rfl
  have hrun := hcold.run.snoc hsecond.staysBelow hsecond.step
  obtain ⟨l', hl'⟩ := coldMachine_boot.run coldMachine_free hrun
  obtain ⟨u, hexit⟩ := exit_isOk hl'.inv (p := firstProcess) (by rw [husers]; simp)
  obtain ⟨-, hinv, hleft, -⟩ := hl'.inv.exit hexit
  refine ⟨s₁, s, t₁, t, u, hcold, hsecond, husers, hrun, hexit, fun u' hu' => ?_, ?_⟩
  · rw [hexit, Option.some.injEq] at hu'
    exact hu' ▸ hinv.below
  · rw [hleft, husers]
    decide

end Machine

end Icarius
