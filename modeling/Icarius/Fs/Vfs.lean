/-
  Icarius.Fs.Vfs

  The descriptors of `src/x86/fs/vfs.c`.  The file system of the drive is a record of
  callbacks (`fs_t`), as it is in the source.

  `vfs_fclose` frees the descriptor and leaves its pointer in the table, so the slot
  stays in use and the pointer dangles.  The model keeps the freed descriptor in its
  slot and marks it: what a call through such a pointer does is what it does while
  nothing else has been put in its place.  What the calls keep is proved for the runs
  that make no such call.
-/

import Icarius.Fs.PathParser
import Icarius.Lib.Run

namespace Icarius

open Icarius.Lib

/-! ## Errors and modes -/

/-- `ENOENT` -/
def enoent : BitVec 32 := 2#32

/-- `EIO` -/
def eio : BitVec 32 := 5#32

/-- `EBADF` -/
def ebadf : BitVec 32 := 9#32

/-- `ENOMEM` -/
def enomem : BitVec 32 := 12#32

/-- `EINVAL` -/
def einval : BitVec 32 := 22#32

/-- The result is a negative error, also where the source returns a `size_t`. -/
def IsError (r : BitVec 32) : Prop := r.toInt < 0

instance (r : BitVec 32) : Decidable (IsError r) :=
  inferInstanceAs (Decidable (r.toInt < 0))

/-- `READ`, `WRITE` and `INVALID` -/
inductive VMode where
  | read
  | write
  | invalid
  deriving DecidableEq, Repr

/-- `_get_vmode` -/
def getVMode (mode : List UInt8) : VMode :=
  if mode.headD 0 = 114 then .read
  else if mode.headD 0 = 119 then .write
  else .invalid

/-! ## File systems and descriptors -/

/-- `fs_t`: the callbacks the calls use, on a device state.  Objects of the driver and
    buffers are addresses. -/
structure Fs (σ : Type) where
  openCb : σ → List PathNode → VMode → Nat × σ
  readCb : σ → Nat → Nat → Nat → Nat → BitVec 32 × σ
  closeCb : σ → Nat → BitVec 32 × σ
  statCb : σ → Nat → Nat → BitVec 32 × σ
  seekCb : σ → Nat → BitVec 32 → UInt8 → BitVec 32 × σ
  writeCb : Option (σ → Nat → Nat → Nat → Nat → BitVec 32 × σ)
  readdirCb : Option (σ → Nat → Nat → Nat → BitVec 32 × σ)

/-- `fd_t`; its device is the one drive there is.  `freed` says that `kfree` has been
    called on it. -/
structure Fd where
  index : Nat
  internal : Nat
  dirOffset : Nat
  freed : Bool

/-- The device with its file system, and `fdescriptors`. -/
structure Vfs (σ : Type) where
  device : σ
  fdescriptors : Nat → Option Fd

/-- What ends a call: a fault of the path parser, or `dev->fs` read when it is null. -/
inductive VfsFault where
  | path (fault : PathFault)
  | nullFs
  deriving DecidableEq, Repr

/-- The number of slots. -/
def fdSlots : Nat := 512

variable {σ : Type}

namespace Vfs

/-- Put a descriptor in a slot. -/
def setFd (self : Vfs σ) (slot : Nat) (fd : Fd) : Vfs σ :=
  { self with fdescriptors := fun i => if i = slot then some fd else self.fdescriptors i }

/-- The slot `_create_fd` takes, the first one that is null. -/
def createFd (self : Vfs σ) : Option Nat :=
  (List.range fdSlots).find? fun i => (self.fdescriptors i).isNone

/-- `_get_fd`: the slot and the descriptor in it. -/
def getFd (self : Vfs σ) (fd : Int) : Option (Nat × Fd) :=
  if fd ≤ 0 ∨ fd ≥ fdSlots then none
  else (self.fdescriptors (fd - 1).toNat).map fun d => ((fd - 1).toNat, d)

end Vfs

/-- `ata_get` with `scmp`: the name of the only drive is `"A"`. -/
def ataGet (dev : List UInt8) : Bool :=
  dev.takeWhile (· != 0) == [65]

/-! ## The calls -/

/-- `vfs_fopen`, with what the parser makes of the file name -/
def vfsFopenParsed (fs : Option (Fs σ)) (self : Vfs σ)
    (parsed : Except PathFault (PathRoot × PathParser)) (mode : List UInt8) :
    Except VfsFault (BitVec 32 × Vfs σ) :=
  let vmode := getVMode mode
  if vmode ≠ .read ∧ vmode ≠ .write then .ok (-einval, self)
  else
    match parsed with
    | .error fault => .error (.path fault)
    | .ok (root, _) =>
        match if ataGet root.drive then fs else none with
        | none => .ok (-eio, self)
        | some fs =>
            let (internal, device) := fs.openCb self.device root.path vmode
            let self := { self with device := device }
            if internal = 0 then .ok (-enoent, self)
            else
              match self.createFd with
              | none => .ok (-enomem, self)
              | some i => .ok (BitVec.ofNat 32 (i + 1), self.setFd i ⟨i + 1, internal, 0, false⟩)

/-- `vfs_fopen`, with an allocator that grants the nodes of the path -/
def vfsFopen (fs : Option (Fs σ)) (self : Vfs σ) (filename mode : List UInt8) :
    Except VfsFault (BitVec 32 × Vfs σ) :=
  vfsFopenParsed fs self (pathParserParse {} filename) mode

/-- A call on the descriptor `fd`: the answer `miss` when there is none. -/
def vfsOn (fs : Option (Fs σ)) (self : Vfs σ) (fd : Int) (miss : BitVec 32)
    (call : Fs σ → Nat → Fd → BitVec 32 × Vfs σ) : Except VfsFault (BitVec 32 × Vfs σ) :=
  match self.getFd fd with
  | none => .ok (miss, self)
  | some (slot, d) =>
      match fs with
      | none => .error .nullFs
      | some fs => .ok (call fs slot d)

/-- `vfs_fread` -/
def vfsFread (fs : Option (Fs σ)) (self : Vfs σ) (buffer nBytes nBlocks : Nat) (fd : Int) :
    Except VfsFault (BitVec 32 × Vfs σ) :=
  if nBytes = 0 ∨ nBlocks = 0 ∨ fd < 1 then .ok (-einval, self)
  else vfsOn fs self fd (-einval) fun fs _ d =>
    let (res, device) := fs.readCb self.device d.internal buffer nBytes nBlocks
    (res, { self with device := device })

/-- `vfs_fclose` -/
def vfsFclose (fs : Option (Fs σ)) (self : Vfs σ) (fd : Int) :
    Except VfsFault (BitVec 32 × Vfs σ) :=
  if fd < 1 then .ok (-einval, self)
  else vfsOn fs self fd (-ebadf) fun fs slot d =>
    let device := (fs.closeCb self.device d.internal).2
    -- `kfree`; the slot keeps its pointer
    (0, ({ self with device := device } : Vfs σ).setFd slot { d with freed := true })

/-- `vfs_fseek` -/
def vfsFseek (fs : Option (Fs σ)) (self : Vfs σ) (fd : Int) (offset : BitVec 32)
    (whence : UInt8) : Except VfsFault (BitVec 32 × Vfs σ) :=
  if fd < 1 then .ok (-einval, self)
  else vfsOn fs self fd (-ebadf) fun fs _ d =>
    let (res, device) := fs.seekCb self.device d.internal offset whence
    (res, { self with device := device })

/-- `vfs_fstat`, whose result is not the one of the callback -/
def vfsFstat (fs : Option (Fs σ)) (self : Vfs σ) (fd : Int) (buffer : Nat) :
    Except VfsFault (BitVec 32 × Vfs σ) :=
  if fd < 1 then .ok (-einval, self)
  else vfsOn fs self fd (-ebadf) fun fs _ d =>
    (0, { self with device := (fs.statCb self.device d.internal buffer).2 })

/-- `vfs_fwrite` -/
def vfsFwrite (fs : Option (Fs σ)) (self : Vfs σ) (buffer nBytes nBlocks : Nat) (fd : Int) :
    Except VfsFault (BitVec 32 × Vfs σ) :=
  if fd < 1 ∨ buffer = 0 ∨ nBytes = 0 ∨ nBlocks = 0 then .ok (-einval, self)
  else vfsOn fs self fd (-ebadf) fun fs _ d =>
    match fs.writeCb with
    | none => (-eio, self)
    | some writeCb =>
        let (res, device) := writeCb self.device d.internal buffer nBytes nBlocks
        (res, { self with device := device })

/-- `vfs_readdir`: a result above zero, as a `size_t`, moves to the next entry. -/
def vfsReaddir (fs : Option (Fs σ)) (self : Vfs σ) (fd : Int) (dir : Nat) :
    Except VfsFault (BitVec 32 × Vfs σ) :=
  if fd < 1 ∨ dir = 0 then .ok (-einval, self)
  else vfsOn fs self fd (-ebadf) fun fs slot d =>
    match fs.readdirCb with
    | none => (-eio, self)
    | some readdirCb =>
        let (res, device) := readdirCb self.device d.internal dir d.dirOffset
        let self := { self with device := device }
        if res ≠ 0 then (res, self.setFd slot { d with dirOffset := d.dirOffset + 1 })
        else (res, self)

/-! ## Runs of calls -/

/-- A call with its arguments. -/
inductive VfsCall where
  | fopen (filename mode : List UInt8)
  | fclose (fd : Int)
  | fread (buffer nBytes nBlocks : Nat) (fd : Int)
  | fwrite (buffer nBytes nBlocks : Nat) (fd : Int)
  | fseek (fd : Int) (offset : BitVec 32) (whence : UInt8)
  | fstat (fd : Int) (buffer : Nat)
  | readdir (fd : Int) (dir : Nat)

/-- The descriptor a call names. -/
def VfsCall.fd? : VfsCall → Option Int
  | .fopen _ _ => none
  | .fclose fd | .fread _ _ _ fd | .fwrite _ _ _ fd | .fseek fd _ _ | .fstat fd _
  | .readdir fd _ => some fd

/-- Make a call. -/
def vfsCall (fs : Option (Fs σ)) (self : Vfs σ) : VfsCall → Except VfsFault (BitVec 32 × Vfs σ)
  | .fopen filename mode => vfsFopen fs self filename mode
  | .fclose fd => vfsFclose fs self fd
  | .fread buffer nBytes nBlocks fd => vfsFread fs self buffer nBytes nBlocks fd
  | .fwrite buffer nBytes nBlocks fd => vfsFwrite fs self buffer nBytes nBlocks fd
  | .fseek fd offset whence => vfsFseek fs self fd offset whence
  | .fstat fd buffer => vfsFstat fs self fd buffer
  | .readdir fd dir => vfsReaddir fs self fd dir

/-- The calls made so far with their results, the last one first. -/
abbrev VfsLog := List (VfsCall × BitVec 32)

/-- The descriptor has been closed, and not been returned by a later open. -/
def VfsLog.closed : VfsLog → Int → Bool
  | [], _ => false
  | (.fopen _ _, res) :: log, fd => if res.toInt = fd then false else VfsLog.closed log fd
  | (.fclose fd', res) :: log, fd => if fd' = fd ∧ res = 0 then true else VfsLog.closed log fd
  | _ :: log, fd => VfsLog.closed log fd

/-- The descriptors that are open. -/
def VfsLog.opened : VfsLog → List Int
  | [] => []
  | (.fopen _ _, res) :: log =>
      if IsError res then VfsLog.opened log else res.toInt :: VfsLog.opened log
  | (.fclose fd, res) :: log =>
      if res = 0 then (VfsLog.opened log).erase fd else VfsLog.opened log
  | _ :: log => VfsLog.opened log

/-- What a call has to answer: an error on a closed descriptor, and no lack of slots
    while fewer than 511 descriptors are open. -/
def Answers (log : VfsLog) (call : VfsCall) (res : BitVec 32) : Prop :=
  match call.fd? with
  | none => log.opened.length < fdSlots - 1 → res ≠ -enomem
  | some fd => log.closed fd → IsError res

/-- Every call was answered as it has to be. -/
def Lawful : VfsLog → Prop
  | [] => True
  | (call, res) :: log => Answers log call res ∧ Lawful log

/-- One call, with its result in the log. -/
def vfsStep (fs : Option (Fs σ)) (s : Vfs σ × VfsLog) (call : VfsCall) :
    Option (Vfs σ × VfsLog) :=
  (vfsCall fs s.1 call).toOption.map fun (res, vfs) => (vfs, (call, res) :: s.2)

/-- A state without descriptors. -/
def Vfs.boot (device : σ) : Vfs σ × VfsLog := (⟨device, fun _ => none⟩, [])

/-- The condition on a call: it does not go through a freed descriptor, and an open
    finds a null slot unless 511 descriptors are open. -/
def Careful (s : Vfs σ × VfsLog) (call : VfsCall) : Prop :=
  match call.fd? with
  | none => s.2.opened.length < fdSlots - 1 → s.1.createFd ≠ none
  | some fd => ∀ slot d, s.1.getFd fd = some (slot, d) → d.freed = false

/-! ## What a call does to the table -/

/-- Freed descriptors stay in their slots, freed. -/
def KeepsFreed (s s' : Vfs σ) : Prop :=
  ∀ i d, s.fdescriptors i = some d → d.freed = true →
    ∃ d', s'.fdescriptors i = some d' ∧ d'.freed = true

theorem KeepsFreed.of_eq {s s' : Vfs σ} (h : s'.fdescriptors = s.fdescriptors) :
    KeepsFreed s s' := by
  intro i d hd hfreed
  exact ⟨d, by rw [h, hd], hfreed⟩

/-- A new content of one slot keeps the freed descriptors when it is freed itself
    wherever the old content was. -/
theorem KeepsFreed.setFd {s s' : Vfs σ} (h : KeepsFreed s s') {slot : Nat} {fd : Fd}
    (hfd : ∀ d, s.fdescriptors slot = some d → d.freed = true → fd.freed = true) :
    KeepsFreed s (s'.setFd slot fd) := by
  intro i d hd hfreed
  by_cases hi : i = slot
  · subst hi
    exact ⟨fd, if_pos rfl, hfd d hd hfreed⟩
  · obtain ⟨d', hd', hfreed'⟩ := h i d hd hfreed
    exact ⟨d', by rw [Vfs.setFd]; simp only [hi, if_false, hd'], hfreed'⟩

theorem Vfs.getFd_eq_some {s : Vfs σ} {fd : Int} {slot : Nat} {d : Fd} :
    s.getFd fd = some (slot, d) ↔
      0 < fd ∧ fd < fdSlots ∧ slot = (fd - 1).toNat ∧ s.fdescriptors slot = some d := by
  unfold Vfs.getFd
  by_cases hrange : fd ≤ 0 ∨ fd ≥ fdSlots
  · rw [if_pos hrange]
    constructor
    · intro h
      cases h
    · rintro ⟨hpos, hlt, -⟩
      omega
  · rw [if_neg hrange, Option.map_eq_some_iff]
    constructor
    · rintro ⟨d', hd', heq⟩
      obtain ⟨rfl, rfl⟩ := Prod.mk.inj heq
      exact ⟨by omega, by omega, rfl, hd'⟩
    · rintro ⟨-, -, rfl, hd⟩
      exact ⟨d, hd, rfl⟩

/-- A call on a descriptor keeps what its effect keeps. -/
theorem vfsOn_keeps {fs : Option (Fs σ)} {s s' : Vfs σ} {fd : Int} {miss res : BitVec 32}
    {call : Fs σ → Nat → Fd → BitVec 32 × Vfs σ} (h : vfsOn fs s fd miss call = .ok (res, s'))
    (hcall : ∀ fs slot d, s.fdescriptors slot = some d → KeepsFreed s (call fs slot d).2) :
    KeepsFreed s s' := by
  unfold vfsOn at h
  split at h
  · obtain ⟨-, rfl⟩ := Prod.mk.inj (Except.ok.inj h)
    exact .of_eq rfl
  · rename_i slot d hget
    split at h
    · cases h
    · rename_i fs
      have hkeeps := hcall fs slot d (Vfs.getFd_eq_some.mp hget).2.2.2
      rw [Except.ok.inj h] at hkeeps
      exact hkeeps

/-- A slot `vfs_fopen` takes was null. -/
theorem createFd_spec {s : Vfs σ} {i : Nat} (h : s.createFd = some i) :
    i < fdSlots ∧ s.fdescriptors i = none := by
  have hfind := List.find?_some h
  have hmem := List.mem_of_find?_eq_some h
  exact ⟨List.mem_range.mp hmem, Option.isNone_iff_eq_none.mp hfind⟩

/-- What `vfs_fopen` answers: an error before the table is looked at, no slot, or the
    number of a slot that was null. -/
theorem vfsFopen_cases {fs : Option (Fs σ)} {s s' : Vfs σ} {filename mode : List UInt8}
    {res : BitVec 32} (h : vfsFopen fs s filename mode = .ok (res, s')) :
    s'.fdescriptors = s.fdescriptors ∧ (res = -einval ∨ res = -eio ∨ res = -enoent ∨
        res = -enomem ∧ s.createFd = none) ∨
      ∃ i internal, s.createFd = some i ∧ res = BitVec.ofNat 32 (i + 1) ∧
        s'.fdescriptors = (s.setFd i ⟨i + 1, internal, 0, false⟩).fdescriptors := by
  unfold vfsFopen vfsFopenParsed at h
  simp only at h
  split at h
  · obtain ⟨rfl, rfl⟩ := Prod.mk.inj (Except.ok.inj h)
    exact .inl ⟨rfl, .inl rfl⟩
  · split at h
    · cases h
    · rename_i root parser hparse
      cases hfs : (if ataGet root.drive then fs else none) with
      | none =>
          simp only [hfs] at h
          obtain ⟨rfl, rfl⟩ := Prod.mk.inj (Except.ok.inj h)
          exact .inl ⟨rfl, .inr (.inl rfl)⟩
      | some fs' =>
          simp only [hfs] at h
          split at h
          · obtain ⟨rfl, rfl⟩ := Prod.mk.inj (Except.ok.inj h)
            exact .inl ⟨rfl, .inr (.inr (.inl rfl))⟩
          · split at h
            · rename_i hnone
              obtain ⟨rfl, rfl⟩ := Prod.mk.inj (Except.ok.inj h)
              exact .inl ⟨rfl, .inr (.inr (.inr ⟨rfl, hnone⟩))⟩
            · rename_i i hsome
              obtain ⟨rfl, rfl⟩ := Prod.mk.inj (Except.ok.inj h)
              exact .inr ⟨i, _, hsome, rfl, rfl⟩

theorem vfsCall_keeps {fs : Option (Fs σ)} {s s' : Vfs σ} {call : VfsCall} {res : BitVec 32}
    (h : vfsCall fs s call = .ok (res, s')) : KeepsFreed s s' := by
  -- a call that is refused changes nothing
  have hsame : ∀ {c : Prop} [Decidable c] {e : BitVec 32} {x : Except VfsFault (BitVec 32 × Vfs σ)},
      (if c then .ok (e, s) else x) = .ok (res, s') → (x = .ok (res, s') → KeepsFreed s s') →
        KeepsFreed s s' := by
    intro c _ e x hx hrest
    split at hx
    · obtain ⟨-, rfl⟩ := Prod.mk.inj (Except.ok.inj hx)
      exact .of_eq rfl
    · exact hrest hx
  -- only an open and a close write a slot, and neither clears the mark of one
  cases call with
  | fopen filename mode =>
      rcases vfsFopen_cases h with ⟨heq, -⟩ | ⟨i, internal, hcreate, -, heq⟩
      · exact .of_eq heq
      · have hnone := (createFd_spec hcreate).2
        have hset : KeepsFreed s (s.setFd i ⟨i + 1, internal, 0, false⟩) :=
          (KeepsFreed.of_eq rfl).setFd fun d hd => by rw [hnone] at hd; cases hd
        intro j d hd hfreed
        rw [heq]
        exact hset j d hd hfreed
  | fclose fd =>
      exact hsame h fun h => vfsOn_keeps h fun fs slot d hd =>
        KeepsFreed.setFd (.of_eq rfl) fun _ _ _ => rfl
  | fread buffer nBytes nBlocks fd =>
      exact hsame h fun h => vfsOn_keeps h fun fs slot d hd => .of_eq rfl
  | fwrite buffer nBytes nBlocks fd =>
      refine hsame h fun h => vfsOn_keeps h fun fs slot d hd => .of_eq ?_
      split <;> rfl
  | fseek fd offset whence =>
      exact hsame h fun h => vfsOn_keeps h fun fs slot d hd => .of_eq rfl
  | fstat fd buffer =>
      exact hsame h fun h => vfsOn_keeps h fun fs slot d hd => .of_eq rfl
  | readdir fd dir =>
      refine hsame h fun h => vfsOn_keeps h fun fs slot d hd => ?_
      simp only
      split
      · exact .of_eq rfl
      · split
        · refine KeepsFreed.setFd (.of_eq rfl) fun d' hd' hfreed => ?_
          rw [hd] at hd'
          rw [Option.some.inj hd']
          exact hfreed
        · exact .of_eq rfl

/-- A close that succeeds leaves the freed descriptor in its slot. -/
theorem vfsFclose_zero {fs : Option (Fs σ)} {s s' : Vfs σ} {fd : Int}
    (h : vfsFclose fs s fd = .ok (0, s')) :
    ∃ slot d, s'.getFd fd = some (slot, d) ∧ d.freed = true := by
  unfold vfsFclose vfsOn at h
  split at h
  · exact absurd (Prod.mk.inj (Except.ok.inj h)).1 (by decide)
  · split at h
    · exact absurd (Prod.mk.inj (Except.ok.inj h)).1 (by decide)
    · rename_i slot d hget
      obtain ⟨hpos, hlt, hslot, -⟩ := Vfs.getFd_eq_some.mp hget
      split at h
      · cases h
      · obtain ⟨-, rfl⟩ := Prod.mk.inj (Except.ok.inj h)
        exact ⟨slot, { d with freed := true },
          Vfs.getFd_eq_some.mpr ⟨hpos, hlt, hslot, if_pos rfl⟩, rfl⟩

theorem vfsFopen_enomem {fs : Option (Fs σ)} {s s' : Vfs σ} {filename mode : List UInt8}
    (h : vfsFopen fs s filename mode = .ok (-enomem, s')) : s.createFd = none := by
  rcases vfsFopen_cases h with ⟨-, hres⟩ | ⟨i, internal, hcreate, hres, -⟩
  · rcases hres with hres | hres | hres | ⟨-, hnone⟩
    · exact absurd hres (by decide)
    · exact absurd hres (by decide)
    · exact absurd hres (by decide)
    · exact hnone
  · have hlt := (createFd_spec hcreate).1
    have hnat := congrArg BitVec.toNat hres
    rw [BitVec.toNat_ofNat, fdSlots] at *
    have hneg : (-enomem).toNat = 4294967284 := by decide
    rw [hneg, Nat.mod_eq_of_lt (by omega)] at hnat
    omega

/-! ## Descriptors over a run -/

/-- Closed descriptors are freed descriptors in their slots. -/
def ClosedFreed (s : Vfs σ × VfsLog) : Prop :=
  ∀ fd, s.2.closed fd → ∃ slot d, s.1.getFd fd = some (slot, d) ∧ d.freed = true

theorem KeepsFreed.getFd {s s' : Vfs σ} (h : KeepsFreed s s') {fd : Int} {slot : Nat} {d : Fd}
    (hget : s.getFd fd = some (slot, d)) (hfreed : d.freed = true) :
    ∃ slot d, s'.getFd fd = some (slot, d) ∧ d.freed = true := by
  obtain ⟨hpos, hlt, hslot, hd⟩ := Vfs.getFd_eq_some.mp hget
  obtain ⟨d', hd', hfreed'⟩ := h slot d hd hfreed
  exact ⟨slot, d', Vfs.getFd_eq_some.mpr ⟨hpos, hlt, hslot, hd'⟩, hfreed'⟩

/-- A descriptor that is closed after a call was closed before, or the call closed it. -/
theorem closed_cons {log : VfsLog} {call : VfsCall} {res : BitVec 32} {fd : Int}
    (h : VfsLog.closed ((call, res) :: log) fd) :
    log.closed fd ∨ call = .fclose fd ∧ res = 0 := by
  cases call with
  | fopen filename mode =>
      simp only [VfsLog.closed] at h
      split at h
      · cases h
      · exact .inl h
  | fclose fd' =>
      simp only [VfsLog.closed] at h
      split at h
      · rename_i heq
        exact .inr ⟨by rw [heq.1], heq.2⟩
      · exact .inl h
  | fread buffer nBytes nBlocks fd' => exact .inl h
  | fwrite buffer nBytes nBlocks fd' => exact .inl h
  | fseek fd' offset whence => exact .inl h
  | fstat fd' buffer => exact .inl h
  | readdir fd' dir => exact .inl h

/-- What a call that is in a run did. -/
theorem exists_of_vfsStep {fs : Option (Fs σ)} {s s' : Vfs σ × VfsLog} {call : VfsCall}
    (h : vfsStep fs s call = some s') :
    ∃ res vfs, vfsCall fs s.1 call = .ok (res, vfs) ∧ s' = (vfs, (call, res) :: s.2) := by
  unfold vfsStep at h
  cases hcall : vfsCall fs s.1 call with
  | error fault =>
      rw [hcall] at h
      cases h
  | ok r =>
      rw [hcall] at h
      exact ⟨r.1, r.2, rfl, (Option.some.inj h).symm⟩

theorem ClosedFreed.step {fs : Option (Fs σ)} {s s' : Vfs σ × VfsLog} {call : VfsCall}
    (h : ClosedFreed s) (hstep : vfsStep fs s call = some s') : ClosedFreed s' := by
  obtain ⟨res, vfs, hcall, rfl⟩ := exists_of_vfsStep hstep
  have hkeeps := vfsCall_keeps hcall
  intro fd hclosed
  rcases closed_cons hclosed with hbefore | ⟨rfl, rfl⟩
  · obtain ⟨slot, d, hget, hfreed⟩ := h fd hbefore
    exact hkeeps.getFd hget hfreed
  · exact vfsFclose_zero hcall

/-- A careful call is answered as it has to be. -/
theorem ClosedFreed.answers {fs : Option (Fs σ)} {s : Vfs σ × VfsLog} {vfs : Vfs σ}
    {call : VfsCall} {res : BitVec 32} (h : ClosedFreed s) (hcareful : Careful s call)
    (hcall : vfsCall fs s.1 call = .ok (res, vfs)) : Answers s.2 call res := by
  unfold Careful at hcareful
  unfold Answers
  cases hfd : call.fd? with
  | none =>
      rw [hfd] at hcareful
      obtain ⟨filename, mode, rfl⟩ : ∃ filename mode, call = .fopen filename mode := by
        cases call with
        | fopen filename mode => exact ⟨filename, mode, rfl⟩
        | _ => cases hfd
      rintro hroom rfl
      exact hcareful hroom (vfsFopen_enomem hcall)
  | some fd =>
      rw [hfd] at hcareful
      intro hclosed
      obtain ⟨slot, d, hget, hfreed⟩ := h fd hclosed
      rw [hcareful slot d hget] at hfreed
      cases hfreed

/-- In every run of careful calls, all calls are answered as they have to be. -/
theorem lawful_of_careful (fs : Option (Fs σ)) (device : σ) (calls : List VfsCall)
    (s : Vfs σ × VfsLog) (hrun : Runs (vfsStep fs) Careful (Vfs.boot device) calls s) :
    Lawful s.2 := by
  have hinv := hrun.invariant (fun s => ClosedFreed s ∧ Lawful s.2)
    ⟨(fun fd h => by cases h), trivial⟩ fun s call s' ⟨hclosed, hlawful⟩ hcareful hstep => by
      refine ⟨hclosed.step hstep, ?_⟩
      obtain ⟨res, vfs, hcall, rfl⟩ := exists_of_vfsStep hstep
      exact ⟨hclosed.answers hcareful hcall, hlawful⟩
  exact hinv.2

/-- A file system that opens everything. -/
def openFs : Option (Fs Unit) :=
  some ⟨fun _ _ _ => (1, ()), fun _ _ _ _ _ => (0, ()), fun _ _ => (0, ()), fun _ _ _ => (0, ()),
    fun _ _ _ _ => (0, ()), none, none⟩

/-- `"A:/A"` -/
def somePath : List UInt8 := [65, 58, 47, 65]

/-- `"r"` -/
def readMode : List UInt8 := [114]

/-- What a call did, when it returned. -/
theorem vfsStep_of_ok (fs : Option (Fs σ)) {s : Vfs σ × VfsLog} (call : VfsCall) {res : BitVec 32}
    {vfs : Vfs σ} (h : vfsCall fs s.1 call = .ok (res, vfs)) :
    vfsStep fs s call = some (vfs, (call, res) :: s.2) := by
  rw [vfsStep, h]
  rfl

/-- The state after an open with `openFs`. -/
def somePathOpen : Vfs Unit := (Vfs.boot ()).1.setFd 0 ⟨1, 1, 0, false⟩

theorem somePath_drive : ∃ root p, pathParserParse {} somePath = .ok (root, p) ∧
    ataGet root.drive = true := by
  have hdrive : (pathParserParse {} somePath).toOption.map (fun r => ataGet r.1.drive)
      = some true := by
    decide +kernel
  cases hparse : pathParserParse {} somePath with
  | error fault =>
      rw [hparse] at hdrive
      cases hdrive
  | ok r =>
      rw [hparse] at hdrive
      exact ⟨r.1, r.2, rfl, Option.some.inj hdrive⟩

theorem vfsCall_open : vfsCall openFs (Vfs.boot ()).1 (.fopen somePath readMode)
    = .ok (1, somePathOpen) := by
  obtain ⟨root, p, hparse, hdrive⟩ := somePath_drive
  have hslot : (Vfs.boot ()).1.createFd = some 0 := by decide +kernel
  rw [vfsCall, vfsFopen, hparse]
  unfold vfsFopenParsed
  simp only [hdrive, if_true, openFs]
  have hslot' : ({ (Vfs.boot ()).1 with device := () } : Vfs Unit).createFd = some 0 := hslot
  rw [if_neg (by decide), if_neg (by decide), hslot']
  rfl

/-- Open, read and close. -/
theorem lawful_open_read : ∃ s : Vfs Unit × VfsLog,
    Runs (vfsStep openFs) Careful (Vfs.boot ())
      [.fopen somePath readMode, .fread 0x1000 1 10 1, .fclose 1] s ∧ Lawful s.2 := by
  have hopen : Careful (Vfs.boot ()) (.fopen somePath readMode) := by
    intro _
    decide +kernel
  -- the descriptor is open until it is closed
  have hcareful : ∀ (log : VfsLog) (call : VfsCall), call.fd? = some 1 →
      Careful (somePathOpen, log) call := by
    intro log call hcall
    rw [Careful, hcall]
    intro slot d hget
    obtain ⟨-, -, rfl, hd⟩ := Vfs.getFd_eq_some.mp hget
    rw [← Option.some.inj hd]
  have hrun := ((Runs.nil.snoc hopen (vfsStep_of_ok openFs _ vfsCall_open)).snoc
    (hcareful _ (.fread 0x1000 1 10 1) rfl) (vfsStep_of_ok openFs _ rfl)).snoc
    (hcareful _ (.fclose 1) rfl) (vfsStep_of_ok openFs _ rfl)
  exact ⟨_, hrun, lawful_of_careful openFs () _ _ hrun⟩

/-- A descriptor is closed twice. -/
theorem exists_closed_twice : ¬ ∀ (fs : Option (Fs Unit)) (calls : List VfsCall)
    (s : Vfs Unit × VfsLog), Runs (vfsStep fs) always (Vfs.boot ()) calls s → Lawful s.2 := by
  intro hall
  have hopen : Runs (vfsStep openFs) always (Vfs.boot ()) [.fopen somePath readMode]
      (somePathOpen, [(.fopen somePath readMode, 1)]) :=
    Runs.nil.snoc trivial (vfsStep_of_ok openFs _ vfsCall_open)
  have hrun := (hopen.snoc trivial (vfsStep_of_ok openFs (.fclose 1) rfl)).snoc trivial
    (vfsStep_of_ok openFs (.fclose 1) rfl)
  have hanswers := (hall openFs _ _ hrun).1 rfl
  exact absurd hanswers (by decide)

end Icarius
