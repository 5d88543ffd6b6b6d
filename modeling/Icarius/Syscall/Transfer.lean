/-
  Icarius.Syscall.Transfer

  `_sys_read` and `_sys_write` with the bytes they move: from the keyboard buffer or a
  file to the buffer of the caller, and from there to the console or a file.  The files
  are those of `vfs_fread` and `vfs_fwrite`.

  The caller's buffer lies outside of the kernel's.  What the driver leaves in kernel
  memory is a function of the device state.
-/

import Icarius.Syscall

namespace Icarius

open Icarius.Lib

variable {σ : Type}

/-! ## What a call finds and leaves -/

/-- What a read or a write finds. -/
structure TransferEnv (σ : Type) where
  /-- The memory of the caller. -/
  memory : Nat → UInt8
  /-- `kzalloc`: a pointer, or null. -/
  kzalloc : Nat → Nat
  /-- `task_get_curr()->parent` is not null. -/
  hasParent : Bool
  /-- The keyboard buffer of the caller. -/
  keyboard : Fifo
  fs : Option (Fs σ)
  vfs : Vfs σ
  /-- Kernel memory, which the driver reads and writes, by the state of the device. -/
  kernelMem : σ → Nat → UInt8
  /-- The bytes put into kernel memory from an address on. -/
  store : σ → Nat → List UInt8 → σ

/-- What a read or a write leaves. -/
structure Transfer (σ : Type) where
  res : BitVec 32
  memory : Nat → UInt8
  keyboard : Fifo
  vfs : Vfs σ
  /-- What went to the console. -/
  printed : List UInt8

/-- Nothing but a result. -/
def Transfer.refused (env : TransferEnv σ) (res : BitVec 32) : Transfer σ :=
  ⟨res, env.memory, env.keyboard, env.vfs, []⟩

/-- `memcpy(user_buf, …)`; addresses wrap at 2^32. -/
def copyOut (memory : Nat → UInt8) (userBuf : Nat) (bytes : List UInt8) : Nat → UInt8 :=
  fun a =>
    if a < 2 ^ 32 then bytes.getD ((a + 2 ^ 32 - userBuf) % 2 ^ 32) (memory a) else memory a

/-- The `count` bytes from `user_buf` on -/
def userBytes (memory : Nat → UInt8) (userBuf count : Nat) : List UInt8 :=
  (List.range count).map fun i => memory ((userBuf + i) % 2 ^ 32)

/-- `kzalloc` behind a call: `count` zeros are in the kernel's buffer. -/
def TransferEnv.zeroed (env : TransferEnv σ) (count : Nat) : Vfs σ :=
  { env.vfs with
    device := env.store env.vfs.device (env.kzalloc count) (List.replicate count 0) }

/-- `memcpy(kernel_buf, user_buf, count)` -/
def TransferEnv.copiedIn (env : TransferEnv σ) (userBuf count : Nat) : Vfs σ :=
  { env.vfs with
    device := env.store env.vfs.device (env.kzalloc count) (userBytes env.memory userBuf count) }

/-! ## The two handlers -/

/-- The keyboard loop of `_sys_read`: the number it returns in the middle, the bytes it
    has put into the kernel's buffer, and the keyboard buffer behind it. -/
def readKeyboardBytes : Nat → Nat → Fifo → Option Nat × List UInt8 × Fifo
  | 0, _, keyboard => (none, [], keyboard)
  | n + 1, i, keyboard =>
      if fifoIsEmpty keyboard then (none, [], keyboard)
      else
        match fifoDequeue keyboard with
        | (none, keyboard) => (some i, [], keyboard)
        | (some byte, keyboard) =>
            let (res, bytes, keyboard) := readKeyboardBytes n (i + 1) keyboard
            (res, byte :: bytes, keyboard)

/-- `_sys_read` -/
def sysReadTransfer (env : TransferEnv σ) (frame : InterruptFrame) :
    Except VfsFault (Transfer σ) :=
  let fd := frame.ebx.toInt
  let count := frame.edx.toNat
  let userBuf := frame.ecx.toNat
  let kernelBuf := env.kzalloc count
  if userBuf = 0 ∨ count = 0 then .ok (.refused env (-1))
  else if kernelBuf = 0 then .ok (.refused env (-1))
  else if env.hasParent = false then .ok (.refused env (-1))
  else if fd = fdStdin then
    match readKeyboardBytes count 0 env.keyboard with
    | (some i, _, keyboard) =>
        .ok { Transfer.refused env (BitVec.ofNat 32 i) with keyboard := keyboard }
    | (none, bytes, keyboard) =>
        -- the kernel's buffer is zero behind the bytes
        let bytes := bytes ++ List.replicate (count - bytes.length) 0
        .ok { Transfer.refused env 0 with
          keyboard := keyboard
          memory := copyOut env.memory userBuf bytes }
  else if fd = fdStdout ∨ fd = fdStderr then .ok (.refused env (-1))
  else
    match vfsFread env.fs (env.zeroed count) kernelBuf count 1 fd with
    | .error fault => .error fault
    | .ok (nRead, vfs) =>
        let bytes := (List.range count).map fun i => env.kernelMem vfs.device (kernelBuf + i)
        .ok { Transfer.refused env (if nRead.toInt < 0 then -1 else nRead) with
          vfs := vfs
          memory := copyOut env.memory userBuf bytes }

/-- `_sys_write`; what `vfs_fwrite` returns is not used. -/
def sysWriteTransfer (env : TransferEnv σ) (frame : InterruptFrame) :
    Except VfsFault (Transfer σ) :=
  let fd := frame.ebx.toInt
  let count := frame.edx.toNat
  let userBuf := frame.ecx.toNat
  let kernelBuf := env.kzalloc count
  if kernelBuf = 0 then .ok (.refused env (-enomem))
  else if fd = fdStdout ∨ fd = fdStderr then
    -- `kprintf("%s", …)` stops at a NUL
    .ok { Transfer.refused env frame.edx with
      printed := (userBytes env.memory userBuf count).takeWhile (· ≠ 0) }
  else
    match vfsFwrite env.fs (env.copiedIn userBuf count) kernelBuf count 1 fd with
    | .error fault => .error fault
    | .ok (_, vfs) => .ok { Transfer.refused env frame.edx with vfs := vfs }

/-! ## Honest counts -/

/-- A result that is not negative is the number of bytes moved: those that left the
    keyboard buffer and are, in order, at the start of the caller's buffer, with nothing
    else changed there; or those the file system has read, and what it has read them into is
    copied to the caller. -/
def HonestRead (env : TransferEnv σ) (frame : InterruptFrame) : Prop :=
  ∀ t, sysReadTransfer env frame = .ok t → ¬ IsError t.res →
    if frame.ebx.toInt = fdStdin then
      ∃ bytes, env.keyboard.contents = bytes ++ t.keyboard.contents ∧
        t.res.toNat = bytes.length ∧ t.memory = copyOut env.memory frame.ecx.toNat bytes
    else
      ∃ vfs, vfsFread env.fs (env.zeroed frame.edx.toNat) (env.kzalloc frame.edx.toNat)
        frame.edx.toNat 1 frame.ebx.toInt = .ok (t.res, vfs) ∧
        t.memory = copyOut env.memory frame.ecx.toNat ((List.range frame.edx.toNat).map fun i =>
          env.kernelMem vfs.device (env.kzalloc frame.edx.toNat + i))

/-- A result that is not negative is the number of bytes that went to the console, or
    that the file system has written. -/
def HonestWrite (env : TransferEnv σ) (frame : InterruptFrame) : Prop :=
  ∀ t, sysWriteTransfer env frame = .ok t → ¬ IsError t.res →
    if frame.ebx.toInt = fdStdout ∨ frame.ebx.toInt = fdStderr then
      t.res.toNat = t.printed.length
    else
      ∃ vfs, vfsFwrite env.fs (env.copiedIn frame.ecx.toNat frame.edx.toNat)
        (env.kzalloc frame.edx.toNat) frame.edx.toNat 1 frame.ebx.toInt = .ok (t.res, vfs)

/-- The call is refused before the descriptor is looked at. -/
def ReadRefused (env : TransferEnv σ) (frame : InterruptFrame) : Prop :=
  frame.ecx.toNat = 0 ∨ frame.edx.toNat = 0 ∨ env.kzalloc frame.edx.toNat = 0 ∨
    env.hasParent = false

/-- What an honest read needs: from the keyboard there is nothing to read, and the
    caller's buffer holds zeros. -/
def ReadsNothing (env : TransferEnv σ) (frame : InterruptFrame) : Prop :=
  frame.ebx.toInt = fdStdin → ¬ ReadRefused env frame →
    env.keyboard.count = 0 ∧
      ∀ b ∈ userBytes env.memory frame.ecx.toNat frame.edx.toNat, b = 0

/-- The driver of the descriptor writes all bytes. -/
def DriverWrites (env : TransferEnv σ) (frame : InterruptFrame) : Prop :=
  ∃ slot d fs writeCb, env.vfs.getFd frame.ebx.toInt = some (slot, d) ∧ env.fs = some fs ∧
    fs.writeCb = some writeCb ∧ 0 < frame.edx.toNat ∧
    (writeCb (env.copiedIn frame.ecx.toNat frame.edx.toNat).device d.internal
      (env.kzalloc frame.edx.toNat) frame.edx.toNat 1).1 = frame.edx

/-- What an honest write needs: the count is a negative number, or all bytes are written;
    to the console, there is no NUL among them. -/
def WritesAll (env : TransferEnv σ) (frame : InterruptFrame) : Prop :=
  env.kzalloc frame.edx.toNat ≠ 0 → ¬ IsError frame.edx →
    if frame.ebx.toInt = fdStdout ∨ frame.ebx.toInt = fdStderr then
      0 ∉ userBytes env.memory frame.ecx.toNat frame.edx.toNat
    else
      DriverWrites env frame ∨ (env.vfs.getFd frame.ebx.toInt).isSome ∧ 0 < frame.edx.toNat ∧
        env.fs = none

/-! ## The keyboard -/

theorem copyOut_nil (memory : Nat → UInt8) (userBuf : Nat) :
    copyOut memory userBuf [] = memory := by
  funext a
  rw [copyOut, List.getD_nil, ite_self]

/-- Zeros change nothing exactly where there are zeros. -/
theorem copyOut_zeros_iff (memory : Nat → UInt8) {userBuf count : Nat} (hbuf : userBuf < 2 ^ 32)
    (hcount : count < 2 ^ 32) :
    copyOut memory userBuf (List.replicate count 0) = memory ↔
      ∀ b ∈ userBytes memory userBuf count, b = 0 := by
  have hget : ∀ (i : Nat) (d : UInt8), (List.replicate count (0 : UInt8)).getD i d
      = if i < count then 0 else d := by
    intro i d
    by_cases hi : i < count
    · simp [List.getD_eq_getElem?_getD, hi]
    · simp [List.getD_eq_getElem?_getD, hi]
  constructor
  · intro heq b hb
    obtain ⟨i, hi, rfl⟩ := List.mem_map.mp hb
    have hlt := List.mem_range.mp hi
    have hat := congrFun heq ((userBuf + i) % 2 ^ 32)
    have hback : ((userBuf + i) % 2 ^ 32 + 2 ^ 32 - userBuf) % 2 ^ 32 = i := by omega
    rw [copyOut, if_pos (Nat.mod_lt _ (by decide)), hback, hget, if_pos hlt] at hat
    exact hat.symm
  · intro hzero
    funext a
    rw [copyOut, hget]
    by_cases ha : a < 2 ^ 32
    · rw [if_pos ha]
      by_cases hi : (a + 2 ^ 32 - userBuf) % 2 ^ 32 < count
      · rw [if_pos hi]
        have hthere : (userBuf + (a + 2 ^ 32 - userBuf) % 2 ^ 32) % 2 ^ 32 = a := by omega
        have hmem := hzero _ (List.mem_map.mpr ⟨_, List.mem_range.mpr hi, rfl⟩)
        rw [hthere] at hmem
        exact hmem.symm
      · rw [if_neg hi]
    · rw [if_neg ha]

/-- The keyboard loop takes the oldest bytes, in order, and never returns in the middle. -/
theorem readKeyboardBytes_eq (n i : Nat) (keyboard : Fifo) :
    ∃ keyboard', readKeyboardBytes n i keyboard = (none, keyboard.contents.take n, keyboard') ∧
      keyboard'.contents = keyboard.contents.drop n := by
  induction n generalizing i keyboard with
  | zero => exact ⟨keyboard, rfl, rfl⟩
  | succ n ih =>
      rw [readKeyboardBytes]
      by_cases hempty : fifoIsEmpty keyboard = true
      · have hnil : keyboard.contents = [] := by
          have hcount : keyboard.count = 0 := by simpa [fifoIsEmpty] using hempty
          exact List.length_eq_zero_iff.mp ((Ring.contents_length keyboard).trans hcount)
        rw [if_pos hempty]
        refine ⟨keyboard, ?_, ?_⟩
        · rw [hnil, List.take_nil]
        · rw [hnil, List.drop_nil]
      · have hpos : 0 < keyboard.count := by
          simp only [fifoIsEmpty, beq_iff_eq] at hempty
          omega
        have hcontents := Ring.contents_pop keyboard keyboard.front hpos
        rw [if_neg hempty, fifoDequeue, dif_pos hpos]
        obtain ⟨keyboard', hread, hrest⟩ := ih (i + 1) (keyboard.pop keyboard.front hpos)
        refine ⟨keyboard', ?_, ?_⟩
        · simp only [hread]
          rw [hcontents, List.take_succ_cons]
        · rw [hrest, hcontents, List.drop_succ_cons]

/-! ## When counts are honest -/

theorem not_isError_zero : ¬ IsError 0 := by decide

/-- What a call leaves that is refused. -/
theorem sysReadTransfer_refused {env : TransferEnv σ} {frame : InterruptFrame}
    (h : ReadRefused env frame) : sysReadTransfer env frame = .ok (.refused env (-1)) := by
  unfold sysReadTransfer
  simp only
  rcases h with h | h | h | h
  all_goals simp only [h, true_or, or_true, if_true, ite_self]

/-- A read from the keyboard returns 0, and fills the caller's buffer with zeros behind
    the bytes. -/
theorem sysReadTransfer_keyboard {env : TransferEnv σ} {frame : InterruptFrame}
    (h : ¬ ReadRefused env frame) (hfd : frame.ebx.toInt = fdStdin) :
    ∃ keyboard, keyboard.contents = env.keyboard.contents.drop frame.edx.toNat ∧
      sysReadTransfer env frame = .ok { Transfer.refused env 0 with
        keyboard := keyboard
        memory := copyOut env.memory frame.ecx.toNat
          (env.keyboard.contents.take frame.edx.toNat ++ List.replicate
            (frame.edx.toNat - (env.keyboard.contents.take frame.edx.toNat).length) 0) } := by
  simp only [ReadRefused, not_or] at h
  obtain ⟨hbuf, hcount, hkernel, hparent⟩ := h
  obtain ⟨keyboard, hread, hrest⟩ := readKeyboardBytes_eq frame.edx.toNat 0 env.keyboard
  refine ⟨keyboard, hrest, ?_⟩
  have hcaller : env.hasParent = true := Bool.not_eq_false _ ▸ hparent
  unfold sysReadTransfer
  simp only [hbuf, hcount, or_self, hkernel, hcaller, Bool.true_eq_false, if_false, hfd, if_true,
    hread]

theorem honestRead_iff (env : TransferEnv σ) (frame : InterruptFrame) :
    HonestRead env frame ↔ ReadsNothing env frame := by
  by_cases hrefused : ReadRefused env frame
  · have hres := sysReadTransfer_refused hrefused
    refine ⟨fun _ _ hnot => absurd hrefused hnot, fun _ t ht hok => ?_⟩
    rw [hres] at ht
    obtain rfl := Except.ok.inj ht
    exact absurd isError_neg_one hok
  by_cases hfd : frame.ebx.toInt = fdStdin
  · obtain ⟨keyboard, hrest, hres⟩ := sysReadTransfer_keyboard hrefused hfd
    have hcount : frame.edx.toNat ≠ 0 := fun h => hrefused (.inr (.inl h))
    have hzeros := copyOut_zeros_iff env.memory frame.ecx.isLt frame.edx.isLt
    constructor
    · intro hhonest _ _
      have h := hhonest _ hres not_isError_zero
      rw [if_pos hfd] at h
      obtain ⟨bytes, hmoved, hlen, hmem⟩ := h
      -- 0 bytes were moved, so none was there
      have hnil : bytes = [] := List.length_eq_zero_iff.mp hlen.symm
      have hsame : keyboard.contents = env.keyboard.contents := by
        rw [hnil, List.nil_append] at hmoved
        exact hmoved.symm
      have hempty : env.keyboard.contents = [] := by
        rw [hrest] at hsame
        have hlength := congrArg List.length hsame
        rw [List.length_drop] at hlength
        exact List.length_eq_zero_iff.mp (by omega)
      refine ⟨by rw [← Ring.contents_length, hempty]; rfl, ?_⟩
      apply hzeros.mp
      have hmem' : copyOut env.memory frame.ecx.toNat
          (env.keyboard.contents.take frame.edx.toNat ++ List.replicate
            (frame.edx.toNat - (env.keyboard.contents.take frame.edx.toNat).length) 0)
          = copyOut env.memory frame.ecx.toNat bytes := hmem
      rw [hempty, hnil, copyOut_nil] at hmem'
      simpa using hmem'
    · intro hnothing t ht _
      obtain ⟨hempty, hzero⟩ := hnothing hfd hrefused
      have hnil : env.keyboard.contents = [] :=
        List.length_eq_zero_iff.mp ((Ring.contents_length _).trans hempty)
      rw [hres] at ht
      obtain rfl := Except.ok.inj ht
      rw [if_pos hfd]
      refine ⟨[], ?_, rfl, ?_⟩
      · show env.keyboard.contents = [] ++ keyboard.contents
        rw [hrest, hnil, List.drop_nil, List.nil_append]
      · show copyOut env.memory frame.ecx.toNat _ = copyOut env.memory frame.ecx.toNat []
        rw [hnil, copyOut_nil]
        simpa using hzeros.mpr hzero
  · refine ⟨fun _ h => absurd h hfd, fun _ t ht hok => ?_⟩
    rw [if_neg hfd]
    simp only [ReadRefused, not_or] at hrefused
    obtain ⟨hbuf, hcount, hkernel, hparent⟩ := hrefused
    have hcaller : env.hasParent = true := Bool.not_eq_false _ ▸ hparent
    unfold sysReadTransfer at ht
    simp only [hbuf, hcount, or_self, hkernel, hcaller, Bool.true_eq_false, if_false, hfd] at ht
    split at ht
    · obtain rfl := Except.ok.inj ht
      exact absurd isError_neg_one hok
    · split at ht
      · cases ht
      · rename_i nRead vfs hread
        obtain rfl := Except.ok.inj ht
        by_cases hneg : nRead.toInt < 0
        · simp only [Transfer.refused, hneg, if_true] at hok
          exact absurd isError_neg_one hok
        · refine ⟨vfs, ?_, rfl⟩
          simp only [Transfer.refused, hneg, if_false]
          exact hread

theorem length_takeWhile_eq_iff (l : List UInt8) :
    (l.takeWhile (· ≠ 0)).length = l.length ↔ 0 ∉ l := by
  have hself : (l.takeWhile (· ≠ 0)).length = l.length ↔ l.takeWhile (· ≠ 0) = l :=
    ⟨(List.takeWhile_prefix _).eq_of_length, fun h => congrArg List.length h⟩
  rw [hself, List.takeWhile_eq_self_iff]
  constructor
  · intro h hmem
    have hne := h 0 hmem
    simp at hne
  · intro h x hx
    have hne : x ≠ 0 := fun heq => h (heq ▸ hx)
    simpa using hne

/-- What `vfs_fwrite` answers to the handler: an error when there is no descriptor or
    nothing to write, else a fault without a file system, else what the driver says. -/
theorem vfsFwrite_cases (fs : Option (Fs σ)) (vfs : Vfs σ) {buffer nBytes : Nat} {fd : Int}
    (hbuffer : buffer ≠ 0) :
    (vfs.getFd fd = none ∨ nBytes = 0) ∧
        (∃ res, vfsFwrite fs vfs buffer nBytes 1 fd = .ok (res, vfs) ∧ IsError res) ∨
      0 < nBytes ∧ ∃ slot d, vfs.getFd fd = some (slot, d) ∧
        match fs with
        | none => vfsFwrite fs vfs buffer nBytes 1 fd = .error .nullFs
        | some fs' =>
            match fs'.writeCb with
            | none => vfsFwrite fs vfs buffer nBytes 1 fd = .ok (-eio, vfs)
            | some writeCb =>
                vfsFwrite fs vfs buffer nBytes 1 fd
                  = .ok ((writeCb vfs.device d.internal buffer nBytes 1).1,
                      { vfs with device := (writeCb vfs.device d.internal buffer nBytes 1).2 }) := by
  by_cases hargs : fd < 1 ∨ buffer = 0 ∨ nBytes = 0 ∨ 1 = 0
  · refine .inl ⟨?_, -einval, by rw [vfsFwrite, if_pos hargs], by decide⟩
    rcases hargs with h | h | h | h
    · have hrange : fd ≤ 0 ∨ fd ≥ fdSlots := .inl (by omega)
      exact .inl (if_pos hrange)
    · exact absurd h hbuffer
    · exact .inr h
    · exact absurd h (by decide)
  · have hcall : ∀ fs, vfsFwrite fs vfs buffer nBytes 1 fd = vfsOn fs vfs fd (-ebadf) _ :=
      fun fs => if_neg hargs
    rw [not_or, not_or, not_or] at hargs
    rw [hcall]
    cases hget : vfs.getFd fd with
    | none =>
        refine .inl ⟨.inl rfl, -ebadf, ?_, by decide⟩
        simp only [vfsOn, hget]
    | some entry =>
        obtain ⟨slot, d⟩ := entry
        refine .inr ⟨by omega, slot, d, rfl, ?_⟩
        cases fs with
        | none => simp only [vfsOn, hget]
        | some fs =>
            cases hwrite : fs.writeCb with
            | none => simp only [vfsOn, hget, hwrite]
            | some writeCb => simp only [vfsOn, hget, hwrite]

theorem honestWrite_iff (env : TransferEnv σ) (frame : InterruptFrame) :
    HonestWrite env frame ↔ WritesAll env frame := by
  by_cases hkernel : env.kzalloc frame.edx.toNat = 0
  · refine ⟨fun _ hnot => absurd hkernel hnot, fun _ t ht hok => ?_⟩
    unfold sysWriteTransfer at ht
    simp only [hkernel, if_true] at ht
    obtain rfl := Except.ok.inj ht
    have herr : IsError (-enomem) := by decide
    exact absurd herr hok
  by_cases herror : IsError frame.edx
  · refine ⟨fun _ _ hnot => absurd herror hnot, fun _ t ht hok => ?_⟩
    have hres : t.res = frame.edx := by
      unfold sysWriteTransfer at ht
      simp only [hkernel, if_false] at ht
      split at ht
      · rw [← Except.ok.inj ht]
        rfl
      · cases hwrite : vfsFwrite env.fs (env.copiedIn frame.ecx.toNat frame.edx.toNat)
          (env.kzalloc frame.edx.toNat) frame.edx.toNat 1 frame.ebx.toInt with
        | error fault =>
            rw [hwrite] at ht
            cases ht
        | ok r =>
            rw [hwrite] at ht
            rw [← Except.ok.inj ht]
            rfl
    rw [hres] at hok
    exact absurd herror hok
  by_cases hfd : frame.ebx.toInt = fdStdout ∨ frame.ebx.toInt = fdStderr
  · -- the console
    have hwrite : sysWriteTransfer env frame = .ok { Transfer.refused env frame.edx with
        printed := (userBytes env.memory frame.ecx.toNat frame.edx.toNat).takeWhile (· ≠ 0) } := by
      unfold sysWriteTransfer
      simp only [hkernel, if_false, hfd, if_true]
    have hlen : (userBytes env.memory frame.ecx.toNat frame.edx.toNat).length
        = frame.edx.toNat := by
      rw [userBytes, List.length_map, List.length_range]
    have hprinted := length_takeWhile_eq_iff
      (userBytes env.memory frame.ecx.toNat frame.edx.toNat)
    rw [hlen] at hprinted
    constructor
    · intro hhonest _ _
      have h := hhonest _ hwrite herror
      rw [if_pos hfd] at h ⊢
      exact hprinted.mp h.symm
    · intro hall t ht _
      have h := hall hkernel herror
      rw [if_pos hfd] at h ⊢
      rw [hwrite] at ht
      rw [← Except.ok.inj ht]
      exact (hprinted.mpr h).symm
  · -- a file
    obtain ⟨vfs₀, hvfs₀⟩ : ∃ vfs, vfs = env.copiedIn frame.ecx.toNat frame.edx.toNat := ⟨_, rfl⟩
    have hfds : vfs₀.getFd frame.ebx.toInt = env.vfs.getFd frame.ebx.toInt := by
      rw [hvfs₀]
      rfl
    have hcall : sysWriteTransfer env frame
        = match vfsFwrite env.fs vfs₀ (env.kzalloc frame.edx.toNat) frame.edx.toNat 1
            frame.ebx.toInt with
          | .error fault => .error fault
          | .ok (_, vfs) => .ok { Transfer.refused env frame.edx with vfs := vfs } := by
      unfold sysWriteTransfer
      simp only [hkernel, if_false, hfd, hvfs₀]
    have hhonest : HonestWrite env frame ↔
        ∀ res vfs, vfsFwrite env.fs vfs₀ (env.kzalloc frame.edx.toNat) frame.edx.toNat 1
          frame.ebx.toInt = .ok (res, vfs) → res = frame.edx := by
      constructor
      · intro h res vfs hres
        rw [hres] at hcall
        have hmoved := h _ hcall herror
        rw [if_neg hfd] at hmoved
        obtain ⟨vfs', hvfs'⟩ := hmoved
        rw [← hvfs₀, hres] at hvfs'
        exact (Prod.mk.inj (Except.ok.inj hvfs')).1
      · intro h t ht hok
        rw [if_neg hfd]
        rw [hcall] at ht
        cases hres : vfsFwrite env.fs vfs₀ (env.kzalloc frame.edx.toNat) frame.edx.toNat 1
          frame.ebx.toInt with
        | error fault =>
            rw [hres] at ht
            cases ht
        | ok r =>
            rw [hres] at ht
            obtain rfl := Except.ok.inj ht
            have hsame := h r.1 r.2 hres
            refine ⟨r.2, ?_⟩
            show _ = Except.ok (frame.edx, r.2)
            rw [← hvfs₀, hres]
            exact congrArg Except.ok (Prod.ext hsame rfl)
    rw [hhonest]
    -- an error of the file system is not the count
    have hdiffers : ∀ {res : BitVec 32}, IsError res → res ≠ frame.edx := by
      intro res hres heq
      rw [heq] at hres
      exact herror hres
    have hwrites : WritesAll env frame ↔ DriverWrites env frame ∨
        (env.vfs.getFd frame.ebx.toInt).isSome ∧ 0 < frame.edx.toNat ∧ env.fs = none := by
      constructor
      · intro h
        have hthen := h hkernel herror
        rw [if_neg hfd] at hthen
        exact hthen
      · intro h _ _
        rw [if_neg hfd]
        exact h
    rw [hwrites]
    rcases vfsFwrite_cases env.fs vfs₀ hkernel with ⟨hnone, res, hres, hbad⟩ | ⟨hpos, slot, d, hget, hcase⟩
    · constructor
      · intro h
        exact absurd (h res _ hres) (hdiffers hbad)
      · rw [hfds] at hnone
        rintro (⟨_, _, _, _, hget, _, _, hpos, _⟩ | ⟨hget, hpos, _⟩)
        · rcases hnone with hnone | hzero
          · rw [hnone] at hget
            cases hget
          · omega
        · rcases hnone with hnone | hzero
          · rw [hnone] at hget
            cases hget
          · omega
    · rw [hfds] at hget
      cases hfs : env.fs with
      | none =>
          rw [hfs] at hcase
          constructor
          · intro _
            exact .inr ⟨by rw [hget]; rfl, hpos, rfl⟩
          · intro _ res vfs hres
            rw [hcase] at hres
            cases hres
      | some fs =>
          rw [hfs] at hcase
          cases hcb : fs.writeCb with
          | none =>
              simp only [hcb] at hcase
              constructor
              · intro h
                have herr : IsError (-eio) := by decide
                exact absurd (h _ _ hcase) (hdiffers herr)
              · rintro (⟨_, _, fs', writeCb, _, hfs', hcb', _⟩ | ⟨_, _, habsent⟩)
                · rw [hfs] at hfs'
                  obtain rfl := Option.some.inj hfs'
                  rw [hcb] at hcb'
                  cases hcb'
                · cases habsent
          | some writeCb =>
              simp only [hcb, hvfs₀] at hcase ⊢
              constructor
              · intro h
                exact .inl ⟨slot, d, fs, writeCb, hget, hfs, hcb, hpos, h _ _ hcase⟩
              · rintro (⟨_, d', fs', writeCb', hget', hfs', hcb', _, hall⟩ | ⟨_, _, habsent⟩)
                · rw [hfs] at hfs'
                  obtain rfl := Option.some.inj hfs'
                  rw [hcb] at hcb'
                  obtain rfl := Option.some.inj hcb'
                  rw [hget] at hget'
                  obtain rfl := (Prod.mk.inj (Option.some.inj hget')).2
                  intro res vfs hres
                  rw [hcase] at hres
                  rw [← (Prod.mk.inj (Except.ok.inj hres)).1]
                  exact hall
                · cases habsent

/-- The count of a read is honest when there is nothing to read, and that of a write when
    all is written. -/
theorem transfers_honest_iff (env : TransferEnv σ) (frame : InterruptFrame) :
    (HonestRead env frame ↔ ReadsNothing env frame) ∧
      (HonestWrite env frame ↔ WritesAll env frame) :=
  ⟨honestRead_iff env frame, honestWrite_iff env frame⟩

/-- A program with one byte in its keyboard buffer. -/
def typedEnv : TransferEnv Unit where
  memory := fun _ => 0
  kzalloc := fun _ => 0xC1000014
  hasParent := true
  keyboard := (fifoEnqueue (Ring.empty (fun _ => 0) fifoBufferSize_pos) 97).2
  fs := none
  vfs := ⟨(), fun _ => none⟩
  kernelMem := fun _ _ => 0
  store := fun _ _ _ => ()

/-- `read(0, 0x800000, 1)` takes the byte and answers 0. -/
theorem exists_dishonest_read : ¬ ∀ (env : TransferEnv Unit) (frame : InterruptFrame),
    HonestRead env frame ∧ HonestWrite env frame := by
  intro hall
  obtain ⟨hempty, _⟩ := (honestRead_iff typedEnv ⟨0#32, 0x800000#32, 1#32⟩).mp
    (hall typedEnv ⟨0#32, 0x800000#32, 1#32⟩).1 (by decide)
    (by
      rintro (h | h | h | h)
      · exact absurd h (by decide)
      · exact absurd h (by decide)
      · exact absurd h (by decide)
      · exact absurd h (by decide))
  exact absurd hempty (by decide)

end Icarius
