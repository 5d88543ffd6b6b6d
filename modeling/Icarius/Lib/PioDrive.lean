/-
  Icarius.Lib.PioDrive

  A hard disk on the ports of the primary ATA bus, as far as programmed I/O with 28 and 48 bits
  of address goes: the registers, which keep the value written before the last one, the commands
  to read, to write, to flush and to identify, and the words of a sector one by one.

  How long the drive is busy is a parameter, a number of looks at the status for each wait.
  While it is busy or has data to transfer it takes no commands and no register writes.
-/

import Icarius.Lib.Bytes

namespace Icarius.Lib

/-! ## Words of 16 bits -/

/-- A word that is copied from one memory to another, from `base` further -/
theorem Mem.store_load_word (m source : Mem) (base a : Nat) :
    m.store 2 a (source.load 2 (base + a))
      = fun x => if a ≤ x ∧ x < a + 2 then source (base + x) else m x := by
  funext x
  unfold Mem.store
  by_cases hx : a ≤ x ∧ x < a + 2
  · rw [if_pos hx, if_pos hx]
    have hfirst := (source (base + a)).toNat_lt
    have hsecond := (source (base + a + 1)).toNat_lt
    have hload : source.load 2 (base + a)
        = (source (base + a)).toNat + 256 * (source (base + a + 1)).toNat := rfl
    rw [hload]
    obtain rfl | rfl : x = a ∨ x = a + 1 := by omega
    · apply UInt8.toNat_inj.mp
      rw [UInt8.toNat_ofNat', Nat.sub_self]
      omega
    · apply UInt8.toNat_inj.mp
      rw [UInt8.toNat_ofNat', Nat.add_sub_cancel_left, ← Nat.add_assoc]
      omega
  · rw [if_neg hx, if_neg hx]

/-- A word that is read back, or another one -/
theorem Mem.load_store_word (m : Mem) (i j v : Nat) :
    (m.store 2 (2 * i) v).load 2 (2 * j) = if i = j then v % 65536 else m.load 2 (2 * j) := by
  by_cases hj : i = j
  · subst hj
    rw [if_pos rfl, Mem.load_store_self]
    rfl
  · rw [if_neg hj, Mem.load_store_of_disjoint _ (by omega)]

/-- A word in front of those that are copied already -/
theorem Mem.copy_word (m source : Mem) (base : Nat) {i : Nat} (hi : i < 256) :
    (fun x => if 2 * (i + 1) ≤ x ∧ x < 512 then source (base + x)
      else m.store 2 (2 * i) (source.load 2 (base + 2 * i)) x)
      = fun x => if 2 * i ≤ x ∧ x < 512 then source (base + x) else m x := by
  funext x
  rw [Mem.store_load_word]
  dsimp only
  by_cases hbehind : 2 * (i + 1) ≤ x ∧ x < 512
  · rw [if_pos hbehind, if_pos (by omega)]
  · rw [if_neg hbehind]
    by_cases hword : 2 * i ≤ x ∧ x < 2 * i + 2
    · rw [if_pos hword, if_pos (by omega)]
    · rw [if_neg hword, if_neg (by omega)]

/-- The last word of a sector -/
theorem Mem.copy_last_word (m source : Mem) (base : Nat) :
    m.store 2 (2 * 255) (source.load 2 (base + 2 * 255))
      = fun x => if 2 * 255 ≤ x ∧ x < 512 then source (base + x) else m x :=
  Mem.store_load_word m source base (2 * 255)

/-! ## The drive -/

/-- What a drive is doing -/
inductive Transfer where
  | idle
  /-- The last command has failed. -/
  | failed
  /-- The next word of the drive's identity -/
  | identify (word : Nat)
  /-- The next word of the sector `lba`, the first one of `sectors` -/
  | reading (lba sectors word : Nat)
  /-- The same, and the words of the sector so far -/
  | writing (lba sectors word : Nat) (sector : Mem)

/-- A register that is written twice for an address of 48 bits -/
structure Latch where
  current : Nat
  previous : Nat

def Latch.push (l : Latch) (v : Nat) : Latch := ⟨v % 256, l.current⟩

structure PioDrive where
  disk : Mem
  /-- The sectors that can be neither read nor written -/
  bad : Nat → Bool
  identity : Nat → Nat
  /-- How many looks at the status a wait takes, the first one, the second one and so on -/
  delay : Nat → Nat
  waits : Nat
  busy : Nat
  control : Nat
  count : Latch
  lbaLow : Latch
  lbaMid : Latch
  lbaHigh : Latch
  transfer : Transfer

namespace PioDrive

/-- The drive is busy for a while. -/
def wait (d : PioDrive) : PioDrive := { d with busy := d.delay d.waits, waits := d.waits + 1 }

/-- Bits of the status: busy, ready, data request and error -/
def statusBsy : Nat := 0x80
def statusRdy : Nat := 0x40
def statusDrq : Nat := 0x08
def statusErr : Nat := 0x01

def status (d : PioDrive) : Nat :=
  if d.busy ≠ 0 then statusBsy
  else match d.transfer with
    | .idle => statusRdy
    | .failed => statusRdy ||| statusErr
    | .identify _ | .reading _ _ _ | .writing _ _ _ _ => statusRdy ||| statusDrq

/-- Whether the drive takes a command -/
def takes (d : PioDrive) : Bool :=
  match d.transfer with
  | .idle | .failed => d.busy == 0
  | _ => false

/-- The address and the number of sectors of 28-bit commands -/
def lba28 (d : PioDrive) : Nat :=
  d.control % 16 * 2 ^ 24 + d.lbaHigh.current * 2 ^ 16 + d.lbaMid.current * 2 ^ 8 +
    d.lbaLow.current

def count28 (d : PioDrive) : Nat := if d.count.current = 0 then 256 else d.count.current

/-- The address and the number of sectors of 48-bit commands -/
def lba48 (d : PioDrive) : Nat :=
  d.lbaHigh.previous * 2 ^ 40 + d.lbaMid.previous * 2 ^ 32 + d.lbaLow.previous * 2 ^ 24 +
    d.lbaHigh.current * 2 ^ 16 + d.lbaMid.current * 2 ^ 8 + d.lbaLow.current

def count48 (d : PioDrive) : Nat :=
  let count := d.count.previous * 256 + d.count.current
  if count = 0 then 65536 else count

/-- Whether the drive has 48-bit commands -/
def has48 (d : PioDrive) : Bool := d.identity 83 / 2 ^ 10 % 2 == 1

def fail (d : PioDrive) : PioDrive := { d with transfer := .failed }.wait

def startReading (d : PioDrive) (lba sectors : Nat) : PioDrive :=
  if d.bad lba then d.fail else { d with transfer := .reading lba sectors 0 }.wait

def startWriting (d : PioDrive) (lba sectors : Nat) : PioDrive :=
  { d with transfer := .writing lba sectors 0 fun _ => 0 }.wait

/-- A command; those with an address are refused when it is not a linear one. -/
def command (d : PioDrive) (v : Nat) : PioDrive :=
  let linear := d.control / 64 % 2 = 1
  if v = 0x20 then if linear then d.startReading d.lba28 d.count28 else d.fail
  else if v = 0x24 then if linear ∧ d.has48 then d.startReading d.lba48 d.count48 else d.fail
  else if v = 0x30 then if linear then d.startWriting d.lba28 d.count28 else d.fail
  else if v = 0x34 then if linear ∧ d.has48 then d.startWriting d.lba48 d.count48 else d.fail
  else if v = 0xE7 then { d with transfer := .idle }.wait
  else if v = 0xEC then { d with transfer := .identify 0 }.wait
  else d.fail

/-- The registers -/
def setCount (d : PioDrive) (v : Nat) : PioDrive := { d with count := d.count.push v }
def setLbaLow (d : PioDrive) (v : Nat) : PioDrive := { d with lbaLow := d.lbaLow.push v }
def setLbaMid (d : PioDrive) (v : Nat) : PioDrive := { d with lbaMid := d.lbaMid.push v }
def setLbaHigh (d : PioDrive) (v : Nat) : PioDrive := { d with lbaHigh := d.lbaHigh.push v }
def setControl (d : PioDrive) (v : Nat) : PioDrive := { d with control := v % 256 }

@[simp] theorem takes_setCount (d : PioDrive) (v : Nat) : (d.setCount v).takes = d.takes := rfl
@[simp] theorem takes_setLbaLow (d : PioDrive) (v : Nat) : (d.setLbaLow v).takes = d.takes := rfl
@[simp] theorem takes_setLbaMid (d : PioDrive) (v : Nat) : (d.setLbaMid v).takes = d.takes := rfl
@[simp] theorem takes_setLbaHigh (d : PioDrive) (v : Nat) : (d.setLbaHigh v).takes = d.takes := rfl
@[simp] theorem takes_setControl (d : PioDrive) (v : Nat) : (d.setControl v).takes = d.takes := rfl

@[simp] theorem has48_setCount (d : PioDrive) (v : Nat) : (d.setCount v).has48 = d.has48 := rfl
@[simp] theorem has48_setLbaLow (d : PioDrive) (v : Nat) : (d.setLbaLow v).has48 = d.has48 := rfl
@[simp] theorem has48_setLbaMid (d : PioDrive) (v : Nat) : (d.setLbaMid v).has48 = d.has48 := rfl
@[simp] theorem has48_setLbaHigh (d : PioDrive) (v : Nat) : (d.setLbaHigh v).has48 = d.has48 := rfl
@[simp] theorem has48_setControl (d : PioDrive) (v : Nat) : (d.setControl v).has48 = d.has48 := rfl

@[simp] theorem disk_setCount (d : PioDrive) (v : Nat) : (d.setCount v).disk = d.disk := rfl
@[simp] theorem disk_setLbaLow (d : PioDrive) (v : Nat) : (d.setLbaLow v).disk = d.disk := rfl
@[simp] theorem disk_setLbaMid (d : PioDrive) (v : Nat) : (d.setLbaMid v).disk = d.disk := rfl
@[simp] theorem disk_setLbaHigh (d : PioDrive) (v : Nat) : (d.setLbaHigh v).disk = d.disk := rfl
@[simp] theorem disk_setControl (d : PioDrive) (v : Nat) : (d.setControl v).disk = d.disk := rfl

/-- `out` of a byte to a port -/
def outb (d : PioDrive) (port v : Nat) : PioDrive :=
  if d.takes then
    if port = 0x1F2 then d.setCount v
    else if port = 0x1F3 then d.setLbaLow v
    else if port = 0x1F4 then d.setLbaMid v
    else if port = 0x1F5 then d.setLbaHigh v
    else if port = 0x1F6 then d.setControl v
    else if port = 0x1F7 then d.command (v % 256)
    else d
  else d

/-- `in` of a byte from a port; a look at the status is what waits are counted in. -/
def inb (d : PioDrive) (port : Nat) : Nat × PioDrive :=
  if port = 0x1F4 then (d.lbaMid.current, d)
  else if port = 0x1F5 then (d.lbaHigh.current, d)
  else if port = 0x1F7 then (d.status, { d with busy := d.busy - 1 })
  else (0, d)

/-- Look at the status until `answer` has one for it. -/
def poll {α : Type} (answer : Nat → Option α) : Nat → PioDrive → Option (α × PioDrive)
  | 0, _ => none
  | fuel + 1, d =>
      let (status, d) := d.inb 0x1F7
      match answer status with
      | some a => some (a, d)
      | none => poll answer fuel d

/-- Behind the last word of a sector -/
def readNext (d : PioDrive) (lba sectors : Nat) : PioDrive :=
  if sectors ≤ 1 then { d with transfer := .idle } else d.startReading (lba + 1) (sectors - 1)

/-- `in` of a word of data -/
def inw (d : PioDrive) : Nat × PioDrive :=
  match d.transfer with
  | .identify word => (d.identity word % 65536,
      if word + 1 < 256 then { d with transfer := .identify (word + 1) }
      else { d with transfer := .idle })
  | .reading lba sectors word => (d.disk.load 2 (lba * 512 + 2 * word),
      if word + 1 < 256 then { d with transfer := .reading lba sectors (word + 1) }
      else d.readNext lba sectors)
  | _ => (0, d)

/-- The sector `lba` of a disk, stored anew -/
def storeSector (disk : Mem) (lba : Nat) (sector : Mem) : Mem :=
  fun x => if x / 512 = lba then sector (x % 512) else disk x

/-- Behind the last word of a sector -/
def writeNext (d : PioDrive) (lba sectors : Nat) (sector : Mem) : PioDrive :=
  if d.bad lba then d.fail
  else
    let d := { d with disk := storeSector d.disk lba sector }
    if sectors ≤ 1 then { d with transfer := .idle }.wait
    else d.startWriting (lba + 1) (sectors - 1)

/-- `out` of a word of data -/
def outw (d : PioDrive) (v : Nat) : PioDrive :=
  match d.transfer with
  | .writing lba sectors word sector =>
      let sector := sector.store 2 (2 * word) v
      if word + 1 < 256 then { d with transfer := .writing lba sectors (word + 1) sector }
      else d.writeNext lba sectors sector
  | _ => d

/-! ## Rules -/

section Rules

variable {d : PioDrive} {lba sectors word : Nat}

/-- What commands leave alone -/
structure SameMedium (d d' : PioDrive) : Prop where
  bad : d'.bad = d.bad
  identity : d'.identity = d.identity
  delay : d'.delay = d.delay

theorem SameMedium.refl (d : PioDrive) : SameMedium d d := ⟨rfl, rfl, rfl⟩

theorem SameMedium.trans {d d' d'' : PioDrive} (h : SameMedium d d') (h' : SameMedium d' d'') :
    SameMedium d d'' :=
  ⟨h'.bad.trans h.bad, h'.identity.trans h.identity, h'.delay.trans h.delay⟩

theorem SameMedium.setCount {d' : PioDrive} (h : SameMedium d d') (v : Nat) :
    SameMedium d (d'.setCount v) := ⟨h.bad, h.identity, h.delay⟩

theorem SameMedium.setLbaLow {d' : PioDrive} (h : SameMedium d d') (v : Nat) :
    SameMedium d (d'.setLbaLow v) := ⟨h.bad, h.identity, h.delay⟩

theorem SameMedium.setLbaMid {d' : PioDrive} (h : SameMedium d d') (v : Nat) :
    SameMedium d (d'.setLbaMid v) := ⟨h.bad, h.identity, h.delay⟩

theorem SameMedium.setLbaHigh {d' : PioDrive} (h : SameMedium d d') (v : Nat) :
    SameMedium d (d'.setLbaHigh v) := ⟨h.bad, h.identity, h.delay⟩

theorem SameMedium.setControl {d' : PioDrive} (h : SameMedium d d') (v : Nat) :
    SameMedium d (d'.setControl v) := ⟨h.bad, h.identity, h.delay⟩

/-- The drive waits for no more than `fuel` looks. -/
def Answers (d : PioDrive) (fuel : Nat) : Prop := ∀ k, d.delay k < fuel

theorem Answers.of_sameMedium {d' : PioDrive} {fuel : Nat} (h : d.Answers fuel)
    (hsame : SameMedium d d') : d'.Answers fuel := by
  intro k
  rw [hsame.delay]
  exact h k

theorem status_busy (h : d.busy ≠ 0) : d.status = statusBsy := if_pos h

theorem status_idle (h : d.busy = 0) (ht : d.transfer = .idle) : d.status = statusRdy := by
  unfold status
  rw [if_neg (not_not_intro h), ht]

theorem status_failed (h : d.busy = 0) (ht : d.transfer = .failed) :
    d.status = statusRdy ||| statusErr := by
  unfold status
  rw [if_neg (not_not_intro h), ht]

theorem status_identify (h : d.busy = 0) (ht : d.transfer = .identify word) :
    d.status = statusRdy ||| statusDrq := by
  unfold status
  rw [if_neg (not_not_intro h), ht]

theorem status_reading (h : d.busy = 0) (ht : d.transfer = .reading lba sectors word) :
    d.status = statusRdy ||| statusDrq := by
  unfold status
  rw [if_neg (not_not_intro h), ht]

theorem status_writing {sector : Mem} (h : d.busy = 0)
    (ht : d.transfer = .writing lba sectors word sector) :
    d.status = statusRdy ||| statusDrq := by
  unfold status
  rw [if_neg (not_not_intro h), ht]

theorem outb_count (h : d.takes = true) (v : Nat) : d.outb 0x1F2 v = d.setCount v := if_pos h

theorem outb_lbaLow (h : d.takes = true) (v : Nat) : d.outb 0x1F3 v = d.setLbaLow v := if_pos h

theorem outb_lbaMid (h : d.takes = true) (v : Nat) : d.outb 0x1F4 v = d.setLbaMid v := if_pos h

theorem outb_lbaHigh (h : d.takes = true) (v : Nat) : d.outb 0x1F5 v = d.setLbaHigh v := if_pos h

theorem outb_control (h : d.takes = true) (v : Nat) : d.outb 0x1F6 v = d.setControl v := if_pos h

theorem outb_features (d : PioDrive) (v : Nat) : d.outb 0x1F1 v = d := by
  unfold outb
  exact ite_self d

theorem outb_command (h : d.takes = true) (v : Nat) : d.outb 0x1F7 v = d.command (v % 256) :=
  if_pos h

theorem command_read (h : d.control / 64 % 2 = 1) :
    d.command 0x20 = d.startReading d.lba28 d.count28 := by
  unfold command
  rw [if_pos rfl]
  exact if_pos h

theorem command_readExt (h : d.control / 64 % 2 = 1) (h48 : d.has48 = true) :
    d.command 0x24 = d.startReading d.lba48 d.count48 := by
  unfold command
  rw [if_neg (by decide), if_pos rfl]
  exact if_pos ⟨h, h48⟩

theorem command_write (h : d.control / 64 % 2 = 1) :
    d.command 0x30 = d.startWriting d.lba28 d.count28 := by
  unfold command
  rw [if_neg (by decide), if_neg (by decide), if_pos rfl]
  exact if_pos h

theorem command_writeExt (h : d.control / 64 % 2 = 1) (h48 : d.has48 = true) :
    d.command 0x34 = d.startWriting d.lba48 d.count48 := by
  unfold command
  rw [if_neg (by decide), if_neg (by decide), if_neg (by decide), if_pos rfl]
  exact if_pos ⟨h, h48⟩

theorem command_flush (d : PioDrive) : d.command 0xE7 = { d with transfer := .idle }.wait := by
  unfold command
  rw [if_neg (by decide), if_neg (by decide), if_neg (by decide), if_neg (by decide), if_pos rfl]

theorem command_identify (d : PioDrive) :
    d.command 0xEC = { d with transfer := .identify 0 }.wait := by
  unfold command
  rw [if_neg (by decide), if_neg (by decide), if_neg (by decide), if_neg (by decide),
    if_neg (by decide), if_pos rfl]

theorem takes_of_idle (h : d.busy = 0) (ht : d.transfer = .idle) : d.takes = true := by
  unfold takes
  rw [ht, h]
  rfl

theorem takes_of_failed (h : d.busy = 0) (ht : d.transfer = .failed) : d.takes = true := by
  unfold takes
  rw [ht, h]
  rfl

/-- What a drive does next does not depend on the transfer that ends. -/
theorem readNext_transfer (d : PioDrive) (t : Transfer) (lba sectors : Nat) :
    ({ d with transfer := t } : PioDrive).readNext lba sectors = d.readNext lba sectors := rfl

theorem writeNext_transfer (d : PioDrive) (t : Transfer) (lba sectors : Nat) (sector : Mem) :
    ({ d with transfer := t } : PioDrive).writeNext lba sectors sector
      = d.writeNext lba sectors sector := rfl

theorem startReading_bad (h : d.bad lba = true) : d.startReading lba sectors = d.fail := if_pos h

theorem startReading_good (h : d.bad lba = false) : d.startReading lba sectors
    = { d with transfer := .reading lba sectors 0 }.wait :=
  if_neg (by rw [h]; exact Bool.false_ne_true)

theorem readNext_more (d : PioDrive) (lba : Nat) {n : Nat} (h : 0 < n) :
    d.readNext lba (n + 1) = d.startReading (lba + 1) n := by
  unfold readNext
  rw [if_neg (by omega)]
  rfl

theorem writeNext_bad {sector : Mem} (h : d.bad lba = true) :
    d.writeNext lba sectors sector = d.fail := if_pos h

theorem writeNext_last {sector : Mem} (h : d.bad lba = false) : d.writeNext lba 1 sector
    = { d with disk := storeSector d.disk lba sector, transfer := .idle }.wait := by
  unfold writeNext
  rw [if_neg (by rw [h]; exact Bool.false_ne_true)]
  rfl

theorem writeNext_more {sector : Mem} {n : Nat} (h : d.bad lba = false) (hn : 0 < n) :
    d.writeNext lba (n + 1) sector
      = ({ d with disk := storeSector d.disk lba sector } : PioDrive).startWriting (lba + 1) n := by
  unfold writeNext
  rw [if_neg (by rw [h]; exact Bool.false_ne_true)]
  dsimp only
  rw [if_neg (by omega)]
  rfl

theorem inw_identify (ht : d.transfer = .identify word) (h : word + 1 < 256) :
    d.inw = (d.identity word % 65536, { d with transfer := .identify (word + 1) }) := by
  unfold inw
  rw [ht]
  dsimp only
  rw [if_pos h]

theorem inw_identify_last (ht : d.transfer = .identify 255) :
    d.inw = (d.identity 255 % 65536, { d with transfer := .idle }) := by
  unfold inw
  rw [ht]
  rfl

theorem inw_reading (ht : d.transfer = .reading lba sectors word) (h : word + 1 < 256) :
    d.inw = (d.disk.load 2 (lba * 512 + 2 * word),
      { d with transfer := .reading lba sectors (word + 1) }) := by
  unfold inw
  rw [ht]
  dsimp only
  rw [if_pos h]

theorem inw_reading_last (ht : d.transfer = .reading lba sectors 255) :
    d.inw = (d.disk.load 2 (lba * 512 + 2 * 255), d.readNext lba sectors) := by
  unfold inw
  rw [ht]
  rfl

theorem outw_writing {sector : Mem} (ht : d.transfer = .writing lba sectors word sector)
    (h : word + 1 < 256) (v : Nat) : d.outw v
      = { d with transfer := .writing lba sectors (word + 1) (sector.store 2 (2 * word) v) } := by
  unfold outw
  rw [ht]
  dsimp only
  rw [if_pos h]

theorem outw_writing_last {sector : Mem} (ht : d.transfer = .writing lba sectors 255 sector)
    (v : Nat) : d.outw v = d.writeNext lba sectors (sector.store 2 (2 * 255) v) := by
  unfold outw
  rw [ht]
  rfl

/-- A wait comes to its end when the drive is not busy any more. -/
theorem poll_eq {α : Type} {answer : Nat → Option α} {a : α} {fuel : Nat} (h : d.busy < fuel)
    (hbusy : answer statusBsy = none)
    (hanswer : answer ({ d with busy := 0 } : PioDrive).status = some a) :
    poll answer fuel d = some (a, { d with busy := 0 }) := by
  -- on the looks that are left
  induction fuel generalizing d with
  | zero => exact absurd h (Nat.not_lt_zero _)
  | succ fuel ih =>
      show (match answer d.status with
        | some a => some (a, { d with busy := d.busy - 1 })
        | none => poll answer fuel { d with busy := d.busy - 1 }) = _
      by_cases hb : d.busy = 0
      · have hd : ({ d with busy := 0 } : PioDrive) = d := by rw [← hb]
        rw [hd] at hanswer
        rw [hanswer, hb]
      · rw [status_busy hb, hbusy]
        exact ih (show d.busy - 1 < fuel by omega) hanswer

/-- One that has no answer for what the drive comes to does not end. -/
theorem poll_eq_none {α : Type} {answer : Nat → Option α} (fuel : Nat)
    (hbusy : answer statusBsy = none)
    (hanswer : answer ({ d with busy := 0 } : PioDrive).status = none) :
    poll answer fuel d = none := by
  induction fuel generalizing d with
  | zero => rfl
  | succ fuel ih =>
      show (match answer d.status with
        | some a => some (a, { d with busy := d.busy - 1 })
        | none => poll answer fuel { d with busy := d.busy - 1 }) = _
      have hnone : answer d.status = none := by
        by_cases hb : d.busy = 0
        · have hd : ({ d with busy := 0 } : PioDrive) = d := by rw [← hb]
          rwa [hd] at hanswer
        · rwa [status_busy hb]
      rw [hnone]
      exact ih hanswer

theorem poll_short {α : Type} {answer : Nat → Option α} {fuel : Nat} (h : fuel ≤ d.busy)
    (hbusy : answer statusBsy = none) : poll answer fuel d = none := by
  induction fuel generalizing d with
  | zero => rfl
  | succ fuel ih =>
      show (match answer d.status with
        | some a => some (a, { d with busy := d.busy - 1 })
        | none => poll answer fuel { d with busy := d.busy - 1 }) = _
      rw [status_busy (by omega), hbusy]
      exact ih (show fuel ≤ d.busy - 1 by omega)

/-- A drive that does not take commands ignores them. -/
theorem outb_ignored (h : d.takes = false) (port v : Nat) : d.outb port v = d :=
  if_neg (by rw [h]; exact Bool.false_ne_true)

end Rules

end PioDrive

end Icarius.Lib
