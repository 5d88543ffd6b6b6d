/-
  Icarius.Fs.Descriptors

  The descriptors `vfs_fopen` hands out.  Slot `i` of the table holds the
  descriptor with the index `i + 1`, and `_get_fd` takes the indices from 1 to
  511: a descriptor in slot 511 gets the index 512, which no call accepts.

  A run of opens records for every call its result, the `fd_t` it created and the
  node the driver opened.  The recorded descriptors all work as long as no open
  takes the last slot, and the open that takes it hands out the first that does
  not.
-/

import Icarius.Fs.Vfs

namespace Icarius

open Icarius.Lib

variable {σ : Type}

/-! ## What an open finds and what it leaves -/

/-- The node the driver opens for the call; 0 when the call does not get to the
    driver or the driver finds nothing. -/
def openNode (fs : Option (Fs σ)) (device : σ) (filename mode : List UInt8) : Nat :=
  let vmode := getVMode mode
  if vmode ≠ .read ∧ vmode ≠ .write then 0
  else
    match pathParserParse {} filename with
    | .error _ => 0
    | .ok (root, _) =>
        match if ataGet root.drive then fs else none with
        | none => 0
        | some fs => (fs.openCb device root.path vmode).1

/-- `vfs_fopen` by the node it opens and the slot it finds. -/
theorem vfsFopen_node {fs : Option (Fs σ)} {s s' : Vfs σ} {filename mode : List UInt8}
    {res : BitVec 32} (h : vfsFopen fs s filename mode = .ok (res, s')) :
    (openNode fs s.device filename mode = 0 ∨ s.createFd = none)
        ∧ IsError res ∧ s'.fdescriptors = s.fdescriptors
      ∨ ∃ i, openNode fs s.device filename mode ≠ 0 ∧ s.createFd = some i
          ∧ res = BitVec.ofNat 32 (i + 1)
          ∧ s'.fdescriptors
            = (s.setFd i ⟨i + 1, openNode fs s.device filename mode, 0, false⟩).fdescriptors := by
  unfold vfsFopen vfsFopenParsed at h
  simp only at h
  -- the exits of the call in their order; only the last one takes a slot
  split at h
  · rename_i hmode
    obtain ⟨rfl, rfl⟩ := Prod.mk.inj (Except.ok.inj h)
    exact .inl ⟨.inl (if_pos hmode), by decide, rfl⟩
  · rename_i hmode
    split at h
    · cases h
    · rename_i root parser hparse
      have hnode : openNode fs s.device filename mode
          = match if ataGet root.drive then fs else none with
            | none => 0
            | some fs => (fs.openCb s.device root.path (getVMode mode)).1 := by
        rw [openNode]
        simp only [if_neg hmode, hparse]
      -- a drive without a file system has no node
      cases hfs : (if ataGet root.drive then fs else none) with
      | none =>
          simp only [hfs] at h hnode
          obtain ⟨rfl, rfl⟩ := Prod.mk.inj (Except.ok.inj h)
          exact .inl ⟨.inl hnode, by decide, rfl⟩
      | some fs' =>
          simp only [hfs] at h hnode
          obtain ⟨internal, device⟩ := fs'.openCb s.device root.path (getVMode mode)
          rw [hnode]
          split at h
          · rename_i hzero
            obtain ⟨rfl, rfl⟩ := Prod.mk.inj (Except.ok.inj h)
            exact .inl ⟨.inl hzero, by decide, rfl⟩
          · rename_i hzero
            split at h
            · rename_i hnone
              obtain ⟨rfl, rfl⟩ := Prod.mk.inj (Except.ok.inj h)
              exact .inl ⟨.inr hnone, by decide, rfl⟩
            · rename_i i hsome
              obtain ⟨rfl, rfl⟩ := Prod.mk.inj (Except.ok.inj h)
              exact .inr ⟨i, hzero, hsome, rfl, rfl⟩

/-- The number of a slot as a result. -/
theorem toInt_slot {i : Nat} (h : i < fdSlots) :
    (BitVec.ofNat 32 (i + 1)).toInt = (i : Int) + 1 := by
  have hslots : fdSlots = 512 := rfl
  rw [BitVec.toInt_eq_toNat_of_lt (by rw [BitVec.toNat_ofNat]; omega), BitVec.toNat_ofNat]
  omega

/-! ## Runs of opens -/

/-- One call of `vfs_fopen`: its result, the `fd_t` it created with its slot, and
    the node the driver opened. -/
structure Opened where
  result : BitVec 32
  created : Option (Nat × Fd)
  node : Nat

/-- The table with the opens so far, the last one first. -/
structure OpenRun (σ : Type) where
  vfs : Vfs σ
  log : List Opened

/-- The `fd_t` a call created: the one in the slot that was the first null one before
    the call. -/
def createdFd (before after : Vfs σ) : Option (Nat × Fd) :=
  before.createFd.bind fun i => (after.fdescriptors i).map fun d => (i, d)

theorem createdFd_eq {before after : Vfs σ} {i : Nat} {d : Fd}
    (hslot : before.createFd = some i)
    (htable : after.fdescriptors = (before.setFd i d).fdescriptors) :
    createdFd before after = some (i, d) := by
  rw [createdFd, hslot, Option.bind_some, htable, Vfs.setFd]
  simp only [if_true, Option.map_some]

/-- `vfs_fopen`, recorded. -/
def openStep (fs : Option (Fs σ)) (s : OpenRun σ) (call : List UInt8 × List UInt8) :
    Option (OpenRun σ) :=
  (vfsFopen fs s.vfs call.1 call.2).toOption.map fun (res, vfs) =>
    { vfs := vfs
      log :=
        { result := res
          created := createdFd s.vfs vfs
          node := openNode fs s.vfs.device call.1 call.2 } :: s.log }

/-- No descriptor has been created yet. -/
def OpenRun.start (device : σ) : OpenRun σ := ⟨(Vfs.boot device).1, []⟩

/-- The positive results, that is, the descriptors handed out. -/
def OpenRun.fds (s : OpenRun σ) : List Int :=
  (s.log.map fun o => o.result.toInt).filter fun fd => 0 < fd

/-- `_get_fd` gives the `fd_t` the call created, and it is for the node the driver
    opened. -/
def Opened.Works (o : Opened) (vfs : Vfs σ) : Prop :=
  ∃ slot d, o.created = some (slot, d) ∧ d.internal = o.node
    ∧ vfs.getFd o.result.toInt = some (slot, d)

/-- All descriptors handed out are different, and each works. -/
def OpenRun.AllWork (s : OpenRun σ) : Prop :=
  s.fds.Nodup ∧ ∀ o ∈ s.log, 0 < o.result.toInt → o.Works s.vfs

/-- The call does not take the last slot: either another one is null, or the driver
    opens nothing. -/
def LeavesLast (fs : Option (Fs σ)) (s : OpenRun σ) (call : List UInt8 × List UInt8) : Prop :=
  s.vfs.createFd = some 511 → openNode fs s.vfs.device call.1 call.2 = 0

/-- A recorded open that succeeded has its descriptor in a slot below the last one. -/
def Opened.InTable (o : Opened) (vfs : Vfs σ) : Prop :=
  ∃ slot d, slot < 511 ∧ o.created = some (slot, d) ∧ d.internal = o.node
    ∧ o.result.toInt = (slot : Int) + 1 ∧ vfs.fdescriptors slot = some d

/-- The invariant of a run that leaves the last slot alone. -/
structure OpenRun.Inv (s : OpenRun σ) : Prop where
  nodup : s.fds.Nodup
  inTable : ∀ o ∈ s.log, 0 < o.result.toInt → o.InTable s.vfs

theorem Opened.InTable.works {o : Opened} {vfs : Vfs σ} (h : o.InTable vfs) : o.Works vfs := by
  obtain ⟨slot, d, hlt, hcreated, hnode, hres, hd⟩ := h
  refine ⟨slot, d, hcreated, hnode, Vfs.getFd_eq_some.mpr ⟨?_, ?_, ?_, hd⟩⟩
  · omega
  · have hslots : fdSlots = 512 := rfl
    omega
  · omega

theorem OpenRun.Inv.allWork {s : OpenRun σ} (h : s.Inv) : s.AllWork :=
  ⟨h.nodup, fun o ho hpos => (h.inTable o ho hpos).works⟩

theorem OpenRun.inv_start (device : σ) : (OpenRun.start device).Inv :=
  ⟨List.nodup_nil, fun _ ho => absurd ho List.not_mem_nil⟩

/-- What an open adds to the run. -/
theorem openStep_cases {fs : Option (Fs σ)} {s s' : OpenRun σ} {call : List UInt8 × List UInt8}
    (hstep : openStep fs s call = some s') :
    (openNode fs s.vfs.device call.1 call.2 = 0 ∨ s.vfs.createFd = none)
        ∧ s'.vfs.fdescriptors = s.vfs.fdescriptors
        ∧ (∃ o, s'.log = o :: s.log ∧ IsError o.result)
      ∨ ∃ i d, openNode fs s.vfs.device call.1 call.2 ≠ 0 ∧ s.vfs.createFd = some i
          ∧ s'.vfs.fdescriptors = (s.vfs.setFd i d).fdescriptors
          ∧ ∃ o, s'.log = o :: s.log ∧ o.result.toInt = (i : Int) + 1
              ∧ o.created = some (i, d) ∧ d.internal = o.node := by
  unfold openStep at hstep
  cases hcall : vfsFopen fs s.vfs call.1 call.2 with
  | error fault =>
      rw [hcall] at hstep
      cases hstep
  | ok r =>
      obtain ⟨res, vfs⟩ := r
      rw [hcall] at hstep
      have hs' := (Option.some.inj hstep).symm
      simp only at hs'
      subst hs'
      rcases vfsFopen_node hcall with ⟨hnone, herr, htable⟩ | ⟨i, hnode, hslot, hres, htable⟩
      · exact .inl ⟨hnone, htable, _, rfl, herr⟩
      · refine .inr ⟨i, _, hnode, hslot, htable, _, rfl, ?_, ?_, rfl⟩
        · show res.toInt = _
          rw [hres, toInt_slot (createFd_spec hslot).1]
        · simp only [createdFd_eq hslot htable]

theorem OpenRun.fds_cons {s s' : OpenRun σ} {o : Opened} (h : s'.log = o :: s.log) :
    s'.fds = if 0 < o.result.toInt then o.result.toInt :: s.fds else s.fds := by
  rw [OpenRun.fds, h, List.map_cons, List.filter_cons]
  by_cases hpos : 0 < o.result.toInt
  · simp [hpos, OpenRun.fds]
  · simp [hpos, OpenRun.fds]

/-- An open that leaves the last slot alone keeps the invariant. -/
theorem OpenRun.Inv.step {fs : Option (Fs σ)} {s s' : OpenRun σ}
    {call : List UInt8 × List UInt8} (h : s.Inv) (hlast : LeavesLast fs s call)
    (hstep : openStep fs s call = some s') : s'.Inv := by
  rcases openStep_cases hstep with ⟨-, htable, o, hlog, herr⟩ |
    ⟨i, d, hnode, hslot, htable, o, hlog, hres, hcreated, hinternal⟩
  · have hneg : ¬ 0 < o.result.toInt := by
      have : o.result.toInt < 0 := herr
      omega
    refine ⟨?_, ?_⟩
    · rw [OpenRun.fds_cons hlog, if_neg hneg]
      exact h.nodup
    · intro o' ho' hpos
      rw [hlog] at ho'
      rcases List.mem_cons.mp ho' with rfl | hold
      · exact absurd hpos hneg
      · obtain ⟨slot, d, hlt, hc, hn, hr, hd⟩ := h.inTable o' hold hpos
        exact ⟨slot, d, hlt, hc, hn, hr, by rw [htable]; exact hd⟩
  · obtain ⟨hlt, hnull⟩ := createFd_spec hslot
    have hne : i ≠ 511 := by
      rintro rfl
      exact hnode (hlast hslot)
    have hslots : fdSlots = 512 := rfl
    -- the slots of the earlier descriptors are in use, and slot `i` was not
    have hother : ∀ slot d', s.vfs.fdescriptors slot = some d' → slot ≠ i := by
      rintro slot d' hd' rfl
      rw [hnull] at hd'
      cases hd'
    refine ⟨?_, ?_⟩
    · rw [OpenRun.fds_cons hlog, if_pos (by omega)]
      refine List.nodup_cons.mpr ⟨?_, h.nodup⟩
      intro hmem
      obtain ⟨hmem, hpos⟩ := List.mem_filter.mp hmem
      obtain ⟨o', ho', heq⟩ := List.mem_map.mp hmem
      have hpos' : 0 < o'.result.toInt := by
        rw [heq, hres]
        omega
      obtain ⟨slot, d', -, -, -, hr, hd'⟩ := h.inTable o' ho' hpos'
      have hslot' : slot = i := by omega
      exact hother slot d' hd' hslot'
    · intro o' ho' hpos
      rw [hlog] at ho'
      rcases List.mem_cons.mp ho' with rfl | hold
      · refine ⟨i, d, by omega, hcreated, hinternal, hres, ?_⟩
        rw [htable]
        exact if_pos rfl
      · obtain ⟨slot, d', hlt'', hc, hn, hr, hd'⟩ := h.inTable o' hold hpos
        refine ⟨slot, d', hlt'', hc, hn, hr, ?_⟩
        rw [htable]
        exact (if_neg (hother slot d' hd')).trans hd'

/-- The open that takes the last slot hands out 512, which `_get_fd` refuses. -/
theorem not_allWork_of_last {fs : Option (Fs σ)} {s s' : OpenRun σ}
    {call : List UInt8 × List UInt8} (hlast : ¬ LeavesLast fs s call)
    (hstep : openStep fs s call = some s') : ¬ s'.AllWork := by
  obtain ⟨hslot, hnode⟩ := Classical.not_imp.mp hlast
  rcases openStep_cases hstep with ⟨hnone, -⟩ | ⟨i, d, -, hslot', -, o, hlog, hres, -⟩
  · rcases hnone with hzero | hfull
    · exact absurd hzero hnode
    · rw [hslot] at hfull
      cases hfull
  · obtain rfl : 511 = i := Option.some.inj (hslot.symm.trans hslot')
    rintro ⟨-, hwork⟩
    have hmem : o ∈ s'.log := by
      rw [hlog]
      exact List.mem_cons_self
    obtain ⟨slot, d', -, -, hget⟩ := hwork o hmem (by omega)
    have hlt := (Vfs.getFd_eq_some.mp hget).2.1
    have hslots : fdSlots = 512 := rfl
    omega

/-- `"A:/A"` for reading. -/
def someOpen : List UInt8 × List UInt8 := (somePath, readMode)

theorem openNode_somePath (device : Unit) : openNode openFs device somePath readMode = 1 := by
  obtain ⟨root, p, hparse, hdrive⟩ := somePath_drive
  rw [openNode, hparse]
  simp only [hdrive, if_true, openFs]
  rw [if_neg (by decide)]

/-- With `openFs` every open of a table with a null slot succeeds. -/
theorem vfsFopen_somePath {s : Vfs Unit} {i : Nat} (h : s.createFd = some i) :
    vfsFopen openFs s somePath readMode
      = .ok (BitVec.ofNat 32 (i + 1), s.setFd i ⟨i + 1, 1, 0, false⟩) := by
  obtain ⟨root, p, hparse, hdrive⟩ := somePath_drive
  have hslot : ({ s with device := () } : Vfs Unit).createFd = some i := h
  rw [vfsFopen, hparse]
  unfold vfsFopenParsed
  simp only [hdrive, if_true, openFs]
  rw [if_neg (by decide), if_neg (by decide), hslot]

/-- The table after `n` opens. -/
def filled (n : Nat) : Vfs Unit :=
  ⟨(), fun i => if i < n then some ⟨i + 1, 1, 0, false⟩ else none⟩

theorem createFd_filled {n : Nat} (h : n < fdSlots) : (filled n).createFd = some n := by
  rw [Vfs.createFd, List.find?_range_eq_some]
  refine ⟨by simp [filled], List.mem_range.mpr h, ?_⟩
  intro j hj
  simp [filled, hj]

theorem setFd_filled (n : Nat) : (filled n).setFd n ⟨n + 1, 1, 0, false⟩ = filled (n + 1) := by
  have htable : (fun i => if i = n then some (⟨n + 1, 1, 0, false⟩ : Fd)
      else if i < n then some ⟨i + 1, 1, 0, false⟩ else none)
      = fun i => if i < n + 1 then some ⟨i + 1, 1, 0, false⟩ else none := by
    funext i
    by_cases hi : i = n
    · rw [if_pos hi, if_pos (by omega), hi]
    · rw [if_neg hi]
      by_cases hlt : i < n
      · rw [if_pos hlt, if_pos (by omega)]
      · rw [if_neg hlt, if_neg (by omega)]
  rw [Vfs.setFd, filled, filled, htable]

/-- What an open did, when it returned. -/
theorem openStep_of_ok (fs : Option (Fs σ)) {s : OpenRun σ} {filename mode : List UInt8}
    {res : BitVec 32} {vfs : Vfs σ} (h : vfsFopen fs s.vfs filename mode = .ok (res, vfs)) :
    openStep fs s (filename, mode)
      = some ⟨vfs, ⟨res, createdFd s.vfs vfs, openNode fs s.vfs.device filename mode⟩ :: s.log⟩ := by
  rw [openStep, h]
  simp only [Except.toOption, Option.map_some]

/-- An open fills the first null slot. -/
theorem openStep_filled {n : Nat} (h : n < fdSlots) (log : List Opened) :
    ∃ o, openStep openFs ⟨filled n, log⟩ someOpen = some ⟨filled (n + 1), o :: log⟩ := by
  have hopen := vfsFopen_somePath (createFd_filled h)
  rw [setFd_filled] at hopen
  have hs : (⟨filled n, log⟩ : OpenRun Unit).vfs = filled n := rfl
  exact ⟨_, openStep_of_ok openFs (hs ▸ hopen)⟩

/-- Below the last slot an open leaves that slot alone. -/
theorem leavesLast_filled {n : Nat} (h : n < 511) (log : List Opened) :
    LeavesLast openFs ⟨filled n, log⟩ someOpen := by
  intro hslot
  have hslots : fdSlots = 512 := rfl
  have hn := Option.some.inj ((createFd_filled (by omega)).symm.trans hslot)
  omega

/-- `n` opens fill the slots below `n`. -/
theorem runs_filled {n : Nat} (h : n ≤ 511) :
    ∃ log, Runs (openStep openFs) (LeavesLast openFs) (OpenRun.start ())
      (List.replicate n someOpen) ⟨filled n, log⟩ := by
  have hslots : fdSlots = 512 := rfl
  induction n with
  | zero =>
      have hempty : (OpenRun.start () : OpenRun Unit) = ⟨filled 0, []⟩ := by
        rw [OpenRun.start, filled]
        simp only [Nat.not_lt_zero, if_false]
        rfl
      exact ⟨[], hempty ▸ .nil⟩
  | succ n ih =>
      obtain ⟨log, hrun⟩ := ih (by omega)
      obtain ⟨o, hstep⟩ := openStep_filled (n := n) (by omega) log
      rw [List.replicate_succ']
      exact ⟨o :: log, hrun.snoc (leavesLast_filled (by omega) log) hstep⟩

end Icarius
