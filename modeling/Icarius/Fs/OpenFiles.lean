/-
  Icarius.Fs.OpenFiles

  The calls of the VFS with the FAT16 driver behind them, and all they allocate: the
  objects of the path, those of the driver and the descriptor.  Any of these calls of
  `kzalloc` may be refused.

  `leaksNothing_iff` says which opens that fail leave the heap as it was.
-/

import Icarius.Fs.PathGrammar
import Icarius.Fs.Fat16.Open
import Icarius.Fs.Fat16.Search

namespace Icarius

open Icarius.Lib

/-! ## Files -/

/-- `fd_t` with its pointer; `freed` says that `kfree` has been called on it. -/
structure OpenFd where
  self : Nat
  index : Nat
  internal : HeapFd
  freed : Bool

/-- The device, the accounts of the heap and `fdescriptors` -/
structure Files where
  dev : Ata
  heap : Ledger
  fdescriptors : Nat → Option OpenFd

namespace Files

/-- The slot `_create_fd` takes, the first one that is null. -/
def freeSlot (self : Files) : Option Nat :=
  (List.range fdSlots).find? fun i => (self.fdescriptors i).isNone

/-- Put a descriptor in a slot. -/
def setFd (self : Files) (slot : Nat) (fd : OpenFd) : Files :=
  { self with fdescriptors := fun i => if i = slot then some fd else self.fdescriptors i }

/-- The calls of `kzalloc` that are granted from now on -/
def pathGrants (self : Files) (i : Nat) : Bool := self.heap.grants (self.heap.next + i)

/-- The objects of a path the parser makes in some calls, and the accounts behind them -/
def pathObjects (self : Files) (calls : Nat) : List Nat × Ledger := self.heap.requests calls

/-- `vfs_fopen`; `fs` is the header of the file system on the drive, when there is one. -/
def vfsFopen (fs : Option Fat16Header) (fuel : Nat) (self : Files) (filename mode : List UInt8) :
    Except OpenFault (BitVec 32 × Files) :=
  let vmode := getVMode mode
  if vmode ≠ .read ∧ vmode ≠ .write then .ok (-einval, self)
  else
    match pathParserParseWith self.pathGrants {} filename with
    | .error fault => .error (.path fault)
    | .ok (root, calls, _) =>
        let (path, heap) := self.pathObjects calls
        match if ataGet root.drive then fs else none with
        | none => .ok (-eio, { self with heap := heap })
        | some bpb =>
            match fat16Open bpb self.dev heap fuel root.path vmode with
            | .error fault => .error fault
            | .ok (internal, dev, heap) =>
                -- `path_parser_free`: the nodes from the last one on, then the root
                let self := { self with dev := dev, heap := heap.frees path.reverse }
                match internal with
                | none => .ok (-enoent, self)
                | some internal =>
                    match self.freeSlot with
                    | none => .ok (-enomem, self)
                    | some i =>
                        match self.heap.request with
                        -- `fdescriptor->index` is written
                        | (none, _) => .error .nullFd
                        | (some fd, heap) =>
                            .ok (BitVec.ofNat 32 (i + 1),
                              { self with heap := heap }.setFd i ⟨fd, i + 1, internal, false⟩)

/-- `_get_fd`: the slot and the descriptor in it. -/
def getFd (self : Files) (fd : Int) : Option (Nat × OpenFd) :=
  if fd ≤ 0 ∨ fd ≥ fdSlots then none
  else (self.fdescriptors (fd - 1).toNat).map fun d => ((fd - 1).toNat, d)

/-- `vfs_fstat`, and `st_size` of the buffer, which was 0 -/
def vfsFstat (fs : Option Fat16Header) (fuel : Nat) (self : Files) (fd : Int) :
    Except OpenFault (BitVec 32 × Nat) :=
  if fd < 1 then .ok (-einval, 0)
  else
    match self.getFd fd with
    | none => .ok (-ebadf, 0)
    | some (_, d) =>
        match fs with
        | none => .error .nullFs
        | some bpb =>
            let startCluster := fat16GetClusterFromDescriptor ⟨d.internal.entry.node, 0⟩
            match fat16GetClusterChainLength bpb self.dev fuel (maxClusterSizeBytes bpb)
                startCluster with
            | none => .error .unfinished
            | some .divideFault => .error .division
            | some (.blocks _) => .ok (0, d.internal.entry.node.entry.fileSize)

/-- `vfs_fread` of one block -/
def vfsFread (fs : Option Fat16Header) (self : Files) (nBytes : Nat) (fd : Int) :
    Except OpenFault (BitVec 32 × Files) :=
  if nBytes = 0 ∨ fd < 1 then .ok (-einval, self)
  else
    match self.getFd fd with
    | none => .ok (-einval, self)
    | some (slot, d) =>
        match fs with
        | none => .error .nullFs
        | some bpb =>
            match fat16Read bpb self.dev ⟨d.internal.entry.node, d.internal.pos⟩ nBytes 1 with
            | none => .error .division
            | some r =>
                .ok (BitVec.ofNat 32 r.bytesRead,
                  self.setFd slot { d with internal := { d.internal with pos := r.pos } })

/-- `vfs_fclose`; the slot keeps its pointer. -/
def vfsFclose (self : Files) (fd : Int) : BitVec 32 × Files :=
  if fd < 1 then (-einval, self)
  else
    match self.getFd fd with
    | none => (-ebadf, self)
    | some (slot, d) =>
        let heap := (fat16Close self.heap d.internal).free d.self
        (0, { self with heap := heap }.setFd slot { d with freed := true })

/-! ## Opens that fail -/

/-- An open that fails leaves the live allocations and the descriptor table as they were. -/
def LeaksNothing (fs : Option Fat16Header) (fuel : Nat) (s : Files)
    (filename mode : List UInt8) : Prop :=
  ∀ res s', vfsFopen fs fuel s filename mode = .ok (res, s') → IsError res →
    s'.heap.live = s.heap.live ∧ s'.fdescriptors = s.fdescriptors

/-- There is a null slot for a file that has been opened. -/
def HasSlot (s : Files) : Prop := ∃ i < fdSlots, s.fdescriptors i = none

/-- What such an open needs: the drive is there and has a file system; for a path that is
    found, and whose node is granted, there is a null slot, the driver's descriptor is granted,
    and for a directory opened for writing there is room for a new file. -/
def FailsClean (fs : Option Fat16Header) (fuel : Nat) (s : Files)
    (filename mode : List UInt8) : Prop :=
  getVMode mode = .invalid ∨ ∀ root calls p,
    pathParserParseWith s.pathGrants {} filename = .ok (root, calls, p) →
      ataGet root.drive = true ∧ ∃ bpb, fs = some bpb ∧
        ∀ node, fat16GetNodeFromPath bpb s.dev fuel root.path = some (some node) →
          (s.pathObjects calls).2.Grants node.objects →
          OpenEnds bpb s.dev (s.pathObjects calls).2 fuel root.path (getVMode mode) node →
            Opens bpb s.dev (s.pathObjects calls).2 fuel root.path (getVMode mode) node ∧ HasSlot s

/-! ## What an open leaves -/

theorem freeSlot_isSome_iff (s : Files) : s.freeSlot.isSome ↔ HasSlot s := by
  rw [freeSlot, List.find?_isSome, HasSlot]
  simp only [List.mem_range, Option.isNone_iff_eq_none]

theorem freeSlot_lt {s : Files} {i : Nat} (h : s.freeSlot = some i) : i < fdSlots := by
  rw [freeSlot] at h
  have hmem := List.mem_of_find?_eq_some h
  exact List.mem_range.mp hmem

theorem freeSlot_isNone {s : Files} {i : Nat} (h : s.freeSlot = some i) :
    s.fdescriptors i = none := by
  rw [freeSlot] at h
  have hnone := List.find?_some h
  exact Option.isNone_iff_eq_none.mp hnone

/-- The loop over the entries makes a call of `kzalloc` in each round. -/
theorem entriesLoop_calls {grants : Nat → Bool} {fuel calls calls' : Nat} {list : NodeList}
    {p p' : PathParser} {l l' : PathLexer} {nodes : List PathNode}
    (h : pathParserParseEntriesLoop grants fuel calls list p l = .ok (nodes, calls', p', l')) :
    calls ≤ calls' := by
  induction fuel generalizing calls list p l nodes with
  | zero =>
      cases h
      exact Nat.le_refl _
  | succ fuel ih =>
      rw [pathParserParseEntriesLoop] at h
      split at h
      · split at h
        · cases h
        · split at h
          · split at h
            · cases h
            · split at h
              · cases h
              · rename_i hrest
                cases h
                exact Nat.le_of_succ_le (ih hrest)
          · split at h
            · cases h
            · exact Nat.le_of_succ_le (ih h)
      · cases h
        exact Nat.le_refl _

/-- The name of the root is put into a node also when there are no entries. -/
theorem pathParserNameRoot_ne_nil {nodes nodes' : List PathNode}
    (h : pathParserNameRoot nodes = .ok nodes') : nodes' ≠ [] := by
  rintro rfl
  unfold pathParserNameRoot at h
  split at h
  · cases h
  · split at h
    · cases Except.ok.inj h
    · cases Except.ok.inj h
  · rename_i hne _
    exact hne (Except.ok.inj h)

/-- A path that has been parsed has a node, and its root has been granted. -/
theorem parseWith_ok {grants : Nat → Bool} {filename : List UInt8} {root : PathRoot}
    {calls : Nat} {p : PathParser}
    (h : pathParserParseWith grants {} filename = .ok (root, calls, p)) :
    root.path ≠ [] ∧ grants 0 = true ∧ 0 < calls := by
  unfold pathParserParseWith pathParserParsePath pathParserParseEntries at h
  cases hroot : grants 0 with
  | false => simp only [hroot, Bool.false_eq_true, if_false] at h; cases h
  | true =>
      simp only [hroot, if_true] at h
      split at h
      · cases h
      · rename_i hparse
        split at hparse
        · cases hparse
        · rename_i nodes calls' p' l' hloop
          split at hparse
          · cases hparse
          · rename_i nodes' hname
            have hle := entriesLoop_calls hloop
            cases hparse
            cases h
            exact ⟨pathParserNameRoot_ne_nil hname, rfl, hle⟩

theorem isError_neg_eio : IsError (-eio) := by decide

theorem isError_neg_enoent : IsError (-enoent) := by decide

theorem isError_neg_enomem : IsError (-enomem) := by decide

/-- The number of a descriptor is not an error. -/
theorem not_isError_slot {i : Nat} (h : i < fdSlots) : ¬ IsError (BitVec.ofNat 32 (i + 1)) := by
  have hslots : fdSlots = 512 := rfl
  have hint : (BitVec.ofNat 32 (i + 1)).toInt = i + 1 := by
    rw [BitVec.toInt_eq_toNat_of_lt]
    · rw [BitVec.toNat_ofNat, Nat.mod_eq_of_lt (by omega)]
      rfl
    · rw [BitVec.toNat_ofNat, Nat.mod_eq_of_lt (by omega)]
      omega
  rw [IsError, hint]
  omega

section Opening

variable {fs : Option Fat16Header} {fuel : Nat} {s : Files} {filename mode : List UInt8}
  {root : PathRoot} {calls : Nat} {p : PathParser}

/-- An open that answers an error keeps the heap exactly when nothing is left of what it
    allocated. -/
theorem leaksNothing_of_error {res : BitVec 32} {s' : Files} {t : Finset Nat}
    (h : vfsFopen fs fuel s filename mode = .ok (res, s')) (herr : IsError res)
    (hadds : s.heap.Adds t s'.heap) (htable : s'.fdescriptors = s.fdescriptors) :
    LeaksNothing fs fuel s filename mode ↔ t = ∅ := by
  rw [← hadds.live_eq_iff]
  constructor
  · intro hclean
    exact (hclean res s' h herr).1
  · intro hlive res' s'' h' _
    rw [h] at h'
    obtain ⟨-, rfl⟩ := Prod.mk.inj (Except.ok.inj h')
    exact ⟨hlive, htable⟩

/-- An open that does not answer an error is clean. -/
theorem leaksNothing_of_noError
    (h : ∀ res s', vfsFopen fs fuel s filename mode = .ok (res, s') → ¬ IsError res) :
    LeaksNothing fs fuel s filename mode :=
  fun res s' hres herr => absurd herr (h res s' hres)

variable (s calls) in
/-- The path is given back, whatever the driver allocates. -/
theorem adds_behind_path {t : Finset Nat} {heap' : Ledger}
    (h : (s.pathObjects calls).2.Adds t heap') :
    s.heap.Adds t (heap'.frees (s.pathObjects calls).1.reverse) :=
  (s.heap.adds_requests calls).frees_first h (List.toFinset_reverse)

variable (hmode : getVMode mode ≠ .invalid)
  (hparse : pathParserParseWith s.pathGrants {} filename = .ok (root, calls, p))
include hmode hparse

omit hparse in
theorem mode_valid : (getVMode mode = .read ∨ getVMode mode = .write) ∧
    ¬ (getVMode mode ≠ .read ∧ getVMode mode ≠ .write) := by
  cases hm : getVMode mode with
  | read => exact ⟨.inl rfl, fun h => h.1 rfl⟩
  | write => exact ⟨.inr rfl, fun h => h.2 rfl⟩
  | invalid => exact absurd hm hmode

/-- Without a drive, or a file system on it, the path is left behind. -/
theorem leaks_of_noDrive (hdrive : (if ataGet root.drive then fs else none) = none) :
    ¬ LeaksNothing fs fuel s filename mode := by
  have hcall : vfsFopen fs fuel s filename mode
      = .ok (-eio, { s with heap := (s.pathObjects calls).2 }) := by
    rw [vfsFopen, if_neg (mode_valid hmode).2, hparse]
    simp only [hdrive]
  rw [leaksNothing_of_error hcall isError_neg_eio (s.heap.adds_requests calls) rfl]
  intro hempty
  -- the root is among the objects
  obtain ⟨-, hroot, hcalls⟩ := parseWith_ok hparse
  have hmem : s.heap.next ∈ (s.heap.requests calls).1.toFinset := by
    obtain ⟨n, rfl⟩ : ∃ n, calls = n + 1 := ⟨calls - 1, by omega⟩
    rw [List.mem_toFinset, Ledger.requests, Ledger.request_pos hroot]
    exact List.mem_cons_self
  rw [hempty] at hmem
  exact Finset.notMem_empty _ hmem

section Mounted

variable {bpb : Fat16Header} (hdrive : (if ataGet root.drive then fs else none) = some bpb)
include hdrive

variable (fuel s) in
/-- Behind the driver's open -/
theorem vfsFopen_eq : vfsFopen fs fuel s filename mode
    = match fat16Open bpb s.dev (s.pathObjects calls).2 fuel root.path
        (getVMode mode) with
      | .error fault => .error fault
      | .ok (internal, dev, heap) =>
          let self := { s with
            dev := dev, heap := heap.frees (s.pathObjects calls).1.reverse }
          match internal with
          | none => .ok (-enoent, self)
          | some internal =>
              match self.freeSlot with
              | none => .ok (-enomem, self)
              | some i =>
                  match self.heap.request with
                  | (none, _) => .error .nullFd
                  | (some fd, heap) =>
                      .ok (BitVec.ofNat 32 (i + 1),
                        { self with heap := heap }.setFd i ⟨fd, i + 1, internal, false⟩) := by
  rw [vfsFopen, if_neg (mode_valid hmode).2, hparse]
  simp only [hdrive]

/-- An open of a path that is not found -/
theorem leaksNothing_of_notFound
    (hnode : fat16GetNodeFromPath bpb s.dev fuel root.path = some none) :
    LeaksNothing fs fuel s filename mode := by
  obtain ⟨hvalid, hnot⟩ := mode_valid hmode
  have hcall := vfsFopen_eq fuel s hmode hparse hdrive
  rw [fat16Open, if_neg hnot, if_neg (parseWith_ok hparse).1, hnode] at hcall
  rcases hvalid with hread | hwrite
  · simp only [hread, if_true] at hcall
    have hadds : s.heap.Adds _ _ := adds_behind_path s calls (.refl _)
    exact (leaksNothing_of_error hcall isError_neg_enoent hadds rfl).mpr rfl
  · simp only [hwrite, reduceCtorEq, if_false] at hcall
    apply leaksNothing_of_noError
    intro res s' hres
    rw [hcall] at hres
    cases hres

/-- An open of a path that is found, but whose node is refused -/
theorem leaksNothing_of_refused {node : Fat16Node}
    (hnode : fat16GetNodeFromPath bpb s.dev fuel root.path = some (some node))
    (hgrants : ¬ (s.pathObjects calls).2.Grants node.objects) :
    LeaksNothing fs fuel s filename mode := by
  have hcall := vfsFopen_eq fuel s hmode hparse hdrive
  rcases fat16Open_refused (mode_valid hmode).1 (parseWith_ok hparse).1 hnode hgrants with
    ⟨-, heap', hopen, hadds⟩ | ⟨-, hopen⟩
  · rw [hopen] at hcall
    exact (leaksNothing_of_error hcall isError_neg_enoent (adds_behind_path _ _ hadds) rfl).mpr rfl
  · rw [hopen] at hcall
    apply leaksNothing_of_noError
    intro res s' hres
    rw [hcall] at hres
    cases hres

/-- An open of a path that is found -/
theorem leaksNothing_of_found {node : Fat16Node}
    (hnode : fat16GetNodeFromPath bpb s.dev fuel root.path = some (some node))
    (hgrants : (s.pathObjects calls).2.Grants node.objects) :
    LeaksNothing fs fuel s filename mode ↔
      (OpenEnds bpb s.dev (s.pathObjects calls).2 fuel root.path (getVMode mode) node →
        Opens bpb s.dev (s.pathObjects calls).2 fuel root.path (getVMode mode) node ∧
          HasSlot s) := by
  have hcall := vfsFopen_eq fuel s hmode hparse hdrive
  rcases fat16Open_of_node (mode_valid hmode).1
    (parseWith_ok hparse).1 hnode hgrants with
      ⟨hends, internal, dev', heap', t, hopen, hadds, hsome, -, hopens⟩ | ⟨hends, fault, hopen⟩
  · rw [hopen] at hcall
    have hleft := adds_behind_path _ _ hadds
    have hnonempty : t ≠ ∅ := Finset.nonempty_iff_ne_empty.mp hsome
    -- without a descriptor of the driver the objects of the search are lost
    cases internal with
    | none =>
        rw [leaksNothing_of_error hcall isError_neg_enoent hleft rfl]
        refine ⟨fun hempty => absurd hempty hnonempty, fun h => ?_⟩
        exact absurd (hopens.mpr (h hends).1) Bool.false_ne_true
    | some internal =>
        have hslot := freeSlot_isSome_iff { s with
          dev := dev', heap := heap'.frees (s.pathObjects calls).1.reverse }
        have hslot' : _ ↔ HasSlot s := hslot
        simp only at hcall
        -- without a slot the descriptor of the driver is lost as well
        cases hfree : freeSlot { s with
            dev := dev', heap := heap'.frees (s.pathObjects calls).1.reverse } with
        | none =>
            simp only [hfree] at hcall
            rw [hfree] at hslot'
            rw [leaksNothing_of_error hcall isError_neg_enomem hleft rfl]
            refine ⟨fun hempty => absurd hempty hnonempty, fun h => ?_⟩
            exact absurd (hslot'.mpr (h hends).2) Bool.false_ne_true
        | some i =>
            simp only [hfree] at hcall
            rw [hfree] at hslot'
            refine iff_of_true ?_ fun _ => ⟨hopens.mp rfl, hslot'.mp rfl⟩
            apply leaksNothing_of_noError
            intro res s' hres
            rw [hcall] at hres
            split at hres
            · cases hres
            · rw [← (Prod.mk.inj (Except.ok.inj hres)).1]
              have hlt := freeSlot_lt hfree
              exact not_isError_slot hlt
  · rw [hopen] at hcall
    refine iff_of_true ?_ fun h => absurd h hends
    apply leaksNothing_of_noError
    intro res s' hres
    rw [hcall] at hres
    cases hres

/-- A search in the volume that does not end -/
theorem leaksNothing_of_unfinished
    (hnode : fat16GetNodeFromPath bpb s.dev fuel root.path = none) :
    LeaksNothing fs fuel s filename mode := by
  have hcall := vfsFopen_eq fuel s hmode hparse hdrive
  rw [fat16Open, if_neg (mode_valid hmode).2, if_neg (parseWith_ok hparse).1, hnode] at hcall
  apply leaksNothing_of_noError
  intro res s' hres
  rw [hcall] at hres
  cases hres

/-- On a drive that is there it depends on what the driver finds. -/
theorem leaksNothing_iff_found : LeaksNothing fs fuel s filename mode ↔
    ∀ node, fat16GetNodeFromPath bpb s.dev fuel root.path = some (some node) →
      (s.pathObjects calls).2.Grants node.objects →
      OpenEnds bpb s.dev (s.pathObjects calls).2 fuel root.path (getVMode mode) node →
        Opens bpb s.dev (s.pathObjects calls).2 fuel root.path (getVMode mode) node ∧
          HasSlot s := by
  cases hnode : fat16GetNodeFromPath bpb s.dev fuel root.path with
  | none =>
      refine iff_of_true (leaksNothing_of_unfinished hmode hparse hdrive hnode) ?_
      intro node h
      cases h
  | some found =>
      cases found with
      | none =>
          refine iff_of_true (leaksNothing_of_notFound hmode hparse hdrive hnode) ?_
          intro node h
          cases Option.some.inj h
      | some node =>
          by_cases hgrants : (s.pathObjects calls).2.Grants node.objects
          · rw [leaksNothing_of_found hmode hparse hdrive hnode hgrants]
            constructor
            · intro h node' heq _
              obtain rfl := Option.some.inj (Option.some.inj heq)
              exact h
            · intro h
              exact h node rfl hgrants
          · refine iff_of_true (leaksNothing_of_refused hmode hparse hdrive hnode hgrants) ?_
            intro node' heq hgrants'
            obtain rfl := Option.some.inj (Option.some.inj heq)
            exact absurd hgrants' hgrants

end Mounted

end Opening

theorem getFd_eq_some {s : Files} {fd : Int} {slot : Nat} {d : OpenFd}
    (h : s.getFd fd = some (slot, d)) :
    (slot : Int) + 1 = fd ∧ slot + 1 < fdSlots ∧ s.fdescriptors slot = some d := by
  unfold getFd at h
  split at h
  · cases h
  · obtain ⟨d', hd', heq⟩ := Option.map_eq_some_iff.mp h
    obtain ⟨rfl, rfl⟩ := Prod.mk.inj heq
    exact ⟨by omega, by omega, hd'⟩

/-- A read moves the position of a descriptor at most, and allocates nothing. -/
theorem vfsFread_ok {fs : Option Fat16Header} {s s' : Files} {nBytes : Nat} {fd : Int}
    {res : BitVec 32} (h : s.vfsFread fs nBytes fd = .ok (res, s')) :
    s'.heap = s.heap ∧ (s.getFd fd = none → IsError res) ∧ ∀ i d, s.fdescriptors i = some d →
      ∃ d', s'.fdescriptors i = some d' ∧ d'.freed = d.freed := by
  have hkept : ∀ i d, s.fdescriptors i = some d →
      ∃ d', s.fdescriptors i = some d' ∧ d'.freed = d.freed := fun i d hd => ⟨d, hd, rfl⟩
  unfold vfsFread at h
  split at h
  · obtain ⟨rfl, rfl⟩ := Prod.mk.inj (Except.ok.inj h)
    exact ⟨rfl, fun _ => by decide, hkept⟩
  · cases hget : s.getFd fd with
    | none =>
        rw [hget] at h
        obtain ⟨rfl, rfl⟩ := Prod.mk.inj (Except.ok.inj h)
        exact ⟨rfl, fun _ => by decide, hkept⟩
    | some entry =>
        obtain ⟨slot, d₀⟩ := entry
        rw [hget] at h
        simp only at h
        split at h
        · cases h
        · split at h
          · cases h
          · obtain ⟨-, rfl⟩ := Prod.mk.inj (Except.ok.inj h)
            refine ⟨rfl, fun hnone => absurd hnone (Option.some_ne_none _), fun i d hd => ?_⟩
            by_cases hi : i = slot
            · subst hi
              have hsame := (getFd_eq_some hget).2.2
              obtain rfl := Option.some.inj (hsame.symm.trans hd)
              exact ⟨_, if_pos rfl, rfl⟩
            · exact ⟨d, by simp only [setFd, hi, if_false, hd], rfl⟩

/-- A close of a descriptor whose objects have been added gives some of what has been
    added back, and leaves the other slots alone. -/
theorem vfsFclose_adds {l : Ledger} {t : Finset Nat} {s : Files} (fd : Int)
    (hadds : l.Adds t s.heap)
    (hptrs : ∀ slot d, s.getFd fd = some (slot, d) → ∀ p ∈ d.self :: d.internal.ptrs, p ∈ t) :
    (∃ t', l.Adds t' (s.vfsFclose fd).2.heap) ∧
      ∀ i : Nat, (i : Int) + 1 ≠ fd → (s.vfsFclose fd).2.fdescriptors i = s.fdescriptors i := by
  unfold vfsFclose
  split
  · exact ⟨⟨t, hadds⟩, fun _ _ => rfl⟩
  · cases hget : s.getFd fd with
    | none => exact ⟨⟨t, hadds⟩, fun _ _ => rfl⟩
    | some entry =>
        obtain ⟨slot, d⟩ := entry
        have hobjects := hptrs slot d hget
        have hfreed := hadds.frees (d.internal.entry.parts.reverse ++
            [d.internal.entry.self, d.internal.self, d.self]) (by
          intro p hp
          apply hobjects
          simp only [HeapFd.ptrs, HeapNode.ptrs, List.mem_append, List.mem_reverse,
            List.mem_cons, List.not_mem_nil, or_false] at hp ⊢
          tauto)
        have hheap : s.heap.frees (d.internal.entry.parts.reverse ++
            [d.internal.entry.self, d.internal.self, d.self])
              = (fat16Close s.heap d.internal).free d.self := by
          simp only [fat16Close, Ledger.frees, List.foldl_append, List.foldl_cons,
            List.foldl_nil]
        rw [hheap] at hfreed
        refine ⟨⟨_, hfreed⟩, fun i hi => ?_⟩
        · have hne : i ≠ slot := by
            rintro rfl
            exact hi (getFd_eq_some hget).1
          exact if_neg hne

/-- What an open that comes back has done: it has allocated something, and either answers
    an error or has put a descriptor in a null slot, whose objects are new. -/
theorem vfsFopen_ok {fs : Option Fat16Header} {fuel : Nat} {s s' : Files}
    {filename mode : List UInt8} {res : BitVec 32}
    (h : vfsFopen fs fuel s filename mode = .ok (res, s')) :
    ∃ t, s.heap.Adds t s'.heap ∧
      ((IsError res ∧ s'.fdescriptors = s.fdescriptors) ∨
        ∃ slot fd, slot < fdSlots ∧ s.fdescriptors slot = none ∧
          res = BitVec.ofNat 32 (slot + 1) ∧ fd.freed = false ∧
          (∀ p ∈ fd.self :: fd.internal.ptrs, p ∈ t) ∧
          s'.fdescriptors = fun i => if i = slot then some fd else s.fdescriptors i) := by
  -- an error before the parser has allocated anything
  by_cases hmode : getVMode mode = .invalid
  · have hrefused : getVMode mode ≠ .read ∧ getVMode mode ≠ .write := by
      rw [hmode]
      exact ⟨VMode.noConfusion, VMode.noConfusion⟩
    rw [vfsFopen, if_pos hrefused] at h
    obtain ⟨rfl, rfl⟩ := Prod.mk.inj (Except.ok.inj h)
    exact ⟨∅, .refl _, .inl ⟨by decide, rfl⟩⟩
  -- from here on the nodes of the path are in the heap, whatever happens
  cases hparse : pathParserParseWith s.pathGrants {} filename with
  | error fault =>
      rw [vfsFopen, if_neg (mode_valid hmode).2, hparse] at h
      cases h
  | ok r =>
      obtain ⟨root, calls, p⟩ := r
      cases hdrive : if ataGet root.drive then fs else none with
      | none =>
          rw [vfsFopen, if_neg (mode_valid hmode).2, hparse] at h
          simp only [hdrive] at h
          obtain ⟨rfl, rfl⟩ := Prod.mk.inj (Except.ok.inj h)
          exact ⟨_, s.heap.adds_requests calls, .inl ⟨isError_neg_eio, rfl⟩⟩
      | some bpb =>
          rw [vfsFopen_eq _ _ hmode hparse hdrive] at h
          cases hopen : fat16Open bpb s.dev (s.pathObjects calls).2 fuel root.path
              (getVMode mode) with
          | error fault =>
              rw [hopen] at h
              cases h
          | ok r =>
              obtain ⟨internal, dev', heap'⟩ := r
              obtain ⟨t, hadds, hptrs⟩ :=
                fat16Open_ok (mode_valid hmode).1 (parseWith_ok hparse).1 hopen
              have hleft := adds_behind_path _ _ hadds
              rw [hopen] at h
              cases internal with
              | none =>
                  obtain ⟨rfl, rfl⟩ := Prod.mk.inj (Except.ok.inj h)
                  exact ⟨t, hleft, .inl ⟨isError_neg_enoent, rfl⟩⟩
              | some internal =>
                  simp only at h
                  split at h
                  · obtain ⟨rfl, rfl⟩ := Prod.mk.inj (Except.ok.inj h)
                    exact ⟨t, hleft, .inl ⟨isError_neg_enomem, rfl⟩⟩
                  · -- a free slot: its descriptor is one object more
                    rename_i slot hslot
                    split at h
                    · cases h
                    · rename_i fd heap'' hrequest
                      obtain ⟨rfl, rfl⟩ := Prod.mk.inj (Except.ok.inj h)
                      have hfd := Ledger.adds_request (heap'.frees (s.pathObjects calls).1.reverse)
                      rw [hrequest] at hfd
                      refine ⟨_, hleft.trans hfd, .inr ⟨slot, _, freeSlot_lt hslot,
                        freeSlot_isNone hslot, rfl, rfl, ?_, rfl⟩⟩
                      intro p hp
                      rcases List.mem_cons.mp hp with rfl | hp
                      · exact Finset.mem_union_right _ (by simp)
                      · exact Finset.mem_union_left _ (hptrs internal rfl p hp)

/-- A machine on which no file has been opened -/
def noFiles : Files := ⟨⟨fun _ => 0, fun _ => 0⟩, .empty, fun _ => none⟩

end Files

end Icarius
