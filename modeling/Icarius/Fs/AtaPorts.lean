/-
  Icarius.Fs.AtaPorts

  `src/x86/driver/ata.c` on the ports of a drive: the registers of 28-bit and 48-bit commands,
  the words of a sector, and the loops of a read and a write, for any latencies of the drive.
  `ata_init` finds out which commands the drive has (`Attached`).

  A wait of the driver has no bound in the source; here it has `fuel` looks at the status.
-/

import Icarius.Fs.StreamRange
import Icarius.Lib.PioDrive

namespace Icarius

open Icarius.Lib

/-! ## The driver -/

/-- `ata_t`; `buffer` is followed by what lies behind its 512 bytes. -/
structure AtaDev where
  sectorSize : Nat
  totalSectors : Nat
  capacity : Nat
  buffer : Mem
  features : BitVec 8

/-- `ATA_DATA_PORT` is the port of `PioDrive.inw` and `PioDrive.outw`. -/
def ataPrimaryError : Nat := 0x1F1

/-- `ATA_SECTOR_COUNT_PORT` -/
def ataSectorCountPort : Nat := 0x1F2

/-- `ATA_LBA_LOW_PORT` -/
def ataLbaLowPort : Nat := 0x1F3

/-- `ATA_LBA_MID_PORT` -/
def ataLbaMidPort : Nat := 0x1F4

/-- `ATA_LBA_HIGH_PORT` -/
def ataLbaHighPort : Nat := 0x1F5

/-- `ATA_CONTROL_PORT` -/
def ataControlPort : Nat := 0x1F6

/-- `ATA_COMMAND_PORT`, and `ATA_STATUS_REGISTER` -/
def ataCommandPort : Nat := 0x1F7

/-- `ATA_DRIVE_MASTER` -/
def ataDriveMaster : Nat := 0xE0

/-- `ATA_DRIVE_SLAVE` -/
def ataDriveSlave : Nat := 0xF0

/-- `DRIVE_SELECT_MASTER` -/
def driveSelectMaster : Nat := 0xA0

/-- `DRIVE_SELECT_SLAVE` -/
def driveSelectSlave : Nat := 0xB0

/-- `DRIVE_SELECT_INVALID` -/
def driveSelectInvalid : Nat := 0x0

/-- `ATA_CMD_READ_SECTORS` -/
def ataCmdReadSectors : Nat := 0x20

/-- `ATA_CMD_IDENTIFY` -/
def ataCmdIdentify : Nat := 0xEC

/-- `ATA_CMD_WRITE_SECTORS` -/
def ataCmdWriteSectors : Nat := 0x30

/-- `ATA_CMD_CACHE_FLUSH` -/
def ataCmdCacheFlush : Nat := 0xE7

/-- `ATA_CMD_WRITE_SECTORS_EXT` -/
def ataCmdWriteSectorsExt : Nat := 0x34

/-- `ATA_STATUS_ERR` -/
def ataStatusErr : Nat := 1 <<< 0

/-- `ATA_STATUS_DRQ` -/
def ataStatusDrq : Nat := 1 <<< 3

/-- `ATA_STATUS_DF` -/
def ataStatusDf : Nat := 1 <<< 5

/-- `ATA_STATUS_BSY` -/
def ataStatusBsy : Nat := 1 <<< 7

/-- `_load_into_buffer`, from the word `i` on -/
def loadIntoBuffer : Nat → Nat → PioDrive → Mem → PioDrive × Mem
  | 0, _, d, buffer => (d, buffer)
  | size + 1, i, d, buffer =>
      let (word, d) := d.inw
      loadIntoBuffer size (i + 1) d (buffer.store 2 (2 * i) word)

/-- `_get_drive_select_code` -/
def getDriveSelectCode (type : Nat) : Nat :=
  if type = ataDriveMaster then driveSelectMaster
  else if type = ataDriveSlave then driveSelectSlave
  else driveSelectInvalid

/-- `_send_identify_req` -/
def sendIdentifyReq (d : PioDrive) (targetDrive : Nat) : PioDrive :=
  let d := d.outb ataControlPort targetDrive
  let d := d.outb ataSectorCountPort 0
  let d := d.outb ataLbaLowPort 0
  let d := d.outb ataLbaMidPort 0
  let d := d.outb ataLbaHighPort 0
  d.outb ataCommandPort ataCmdIdentify

/-- `_calculate_total_sectors_pio48` -/
def calculateTotalSectorsPio48 (buffer : Mem) : Nat :=
  buffer.load 2 (2 * 103) * 2 ^ 48 ||| buffer.load 2 (2 * 102) * 2 ^ 32 |||
    buffer.load 2 (2 * 101) * 2 ^ 16 ||| buffer.load 2 (2 * 100)

/-- `_calculate_total_sectors_pio28` -/
def calculateTotalSectorsPio28 (buffer : Mem) : Nat :=
  buffer.load 2 (2 * 60) * 2 ^ 16 ||| buffer.load 2 (2 * 61)

/-- `_calculate_capacity` -/
def calculateCapacity (totalSectors sectorSize : Nat) : Nat := totalSectors * sectorSize % 2 ^ 64

/-- `set_pio_features` -/
def setPioFeatures (self : AtaDev) (isPio48 : Bool) : AtaDev :=
  if isPio48 then { self with features := (self.features ||| 2) &&& ~~~1 }
  else { self with features := (self.features ||| 1) &&& ~~~2 }

/-- `_detect_pio_mode` -/
def detectPioMode (self : AtaDev) (buffer : Mem) : AtaDev :=
  let pioFlag := buffer.load 2 (2 * 83)
  let isPio48 := pioFlag / 2 ^ 10 % 2 == 1
  let totalSectors :=
    if isPio48 then calculateTotalSectorsPio48 buffer else calculateTotalSectorsPio28 buffer
  setPioFeatures { self with
    capacity := calculateCapacity totalSectors self.sectorSize
    totalSectors := totalSectors } isPio48

/-- `_check_bsy`, with the status that has been read -/
def checkBsy (fuel status : Nat) (d : PioDrive) : Option (Nat × PioDrive) :=
  if status &&& ataStatusBsy = 0 then some (status, d)
  else d.poll (fun status => if status &&& ataStatusBsy = 0 then some status else none) fuel

/-- `_check_drq_err`, with the status that has been read -/
def checkDrqErr (fuel status : Nat) (d : PioDrive) : Option (Nat × PioDrive) :=
  if status &&& (ataStatusErr ||| ataStatusDrq) ≠ 0 then some (status, d)
  else d.poll (fun status =>
    if status &&& (ataStatusErr ||| ataStatusDrq) ≠ 0 then some status else none) fuel

/-- `_init_identify` -/
def initIdentify (fuel : Nat) (self : AtaDev) (d : PioDrive) (type : Nat) :
    Option (BitVec 32 × AtaDev × PioDrive) := do
  let d := sendIdentifyReq d (getDriveSelectCode type)
  let (status, d) := d.inb ataCommandPort
  let (status, d) ← checkBsy fuel status d
  if status = 0 then some (-eio, self, d)
  else do
    let (status, d) ← checkBsy fuel status d
    let (lbaMidByte, d) := d.inb ataLbaMidPort
    let (lbaHighByte, d) := d.inb ataLbaHighPort
    if lbaMidByte ≠ 0 ∨ lbaHighByte ≠ 0 then some (-eio, self, d)
    else do
      let (status, d) ← checkDrqErr fuel status d
      if status &&& ataStatusErr ≠ 0 then some (-eio, self, d)
      else
        let (d, buffer) := loadIntoBuffer (self.sectorSize / 2) 0 d fun _ => 0
        some (1, detectPioMode self buffer, d)

/-- `ata_init`; it panics when `_init_identify` returns 0. -/
def ataInit (fuel : Nat) (self : AtaDev) (d : PioDrive) : Option (AtaDev × PioDrive) := do
  let self : AtaDev := {
    sectorSize := 512, totalSectors := 0, capacity := 0, features := 0
    buffer := fun i => if i < 512 then 0 else self.buffer i }
  let (result, self, d) ← initIdentify fuel self d ataDriveMaster
  if result = 0 then none else some (self, d)

/-- The wait for a sector that is read: whether it comes, or an error -/
def waitData (fuel : Nat) (d : PioDrive) : Option (Bool × PioDrive) :=
  d.poll (fun status =>
    if status &&& ataStatusDrq ≠ 0 then some true
    else if status &&& ataStatusErr ≠ 0 ∨ status &&& ataStatusDf ≠ 0 then some false
    else none) fuel

/-- The sectors of `_read_pio28` and `_read_pio48`, each of them into the same buffer -/
def readSectors (fuel : Nat) : Nat → AtaDev → PioDrive → Option (BitVec 32 × AtaDev × PioDrive)
  | 0, self, d => some (0, self, d)
  | sectors + 1, self, d => do
      let (ok, d) ← waitData fuel d
      if ok then
        let (d, buffer) := loadIntoBuffer (self.sectorSize / 2) 0 d self.buffer
        readSectors fuel sectors { self with buffer := buffer } d
      else some (-eio, self, d)

/-- `_read_pio48`; `lba` has 64 bits and `sectors` 16. -/
def readPio48 (fuel : Nat) (self : AtaDev) (d : PioDrive) (lba sectors : Nat) :
    Option (BitVec 32 × AtaDev × PioDrive) :=
  let d := d.outb ataControlPort 0x40
  let d := d.outb ataSectorCountPort (sectors / 2 ^ 8 % 256)
  let d := d.outb ataLbaLowPort (lba / 2 ^ 24 % 256)
  let d := d.outb ataLbaMidPort (lba / 2 ^ 32 % 256)
  let d := d.outb ataLbaHighPort (lba / 2 ^ 40 % 256)
  let d := d.outb ataSectorCountPort (sectors % 256)
  let d := d.outb ataLbaLowPort (lba % 256)
  let d := d.outb ataLbaMidPort (lba / 2 ^ 8 % 256)
  let d := d.outb ataLbaHighPort (lba / 2 ^ 16 % 256)
  let d := d.outb ataCommandPort 0x24
  readSectors fuel sectors self d

/-- `_read_pio28`; `sectors` has 8 bits. -/
def readPio28 (fuel : Nat) (self : AtaDev) (d : PioDrive) (lba sectors : Nat) :
    Option (BitVec 32 × AtaDev × PioDrive) :=
  let d := d.outb ataControlPort (ataDriveMaster ||| lba / 2 ^ 24 % 16)
  let d := d.outb ataPrimaryError 0
  let d := d.outb ataSectorCountPort sectors
  let d := d.outb ataLbaLowPort (lba % 256)
  let d := d.outb ataLbaMidPort (lba / 2 ^ 8 % 256)
  let d := d.outb ataLbaHighPort (lba / 2 ^ 16 % 256)
  let d := d.outb ataCommandPort ataCmdReadSectors
  readSectors fuel sectors self d

/-- `ata_read` -/
def ataReadPorts (fuel : Nat) (self : AtaDev) (d : PioDrive) (startBlock nBlocks : Nat) :
    Option (BitVec 32 × AtaDev × PioDrive) :=
  if self.features &&& 2 ≠ 0 then readPio48 fuel self d startBlock (nBlocks % 2 ^ 16)
  else readPio28 fuel self d startBlock (nBlocks % 2 ^ 8)

/-- The wait for the drive to take a sector, which has no eye for errors -/
def waitDrq (fuel : Nat) (d : PioDrive) : Option (Unit × PioDrive) :=
  d.poll (fun status => if status &&& ataStatusDrq ≠ 0 then some () else none) fuel

/-- The wait for the end of a flush -/
def waitIdle (fuel : Nat) (d : PioDrive) : Option (Unit × PioDrive) :=
  d.poll (fun status => if status &&& ataStatusBsy = 0 then some () else none) fuel

/-- The 256 words of a sector, from the word `j` on -/
def storeFromBuffer : Nat → Nat → PioDrive → Mem → PioDrive
  | 0, _, d, _ => d
  | size + 1, j, d, buffer => storeFromBuffer size (j + 1) (d.outw (buffer.load 2 (2 * j))) buffer

/-- The sectors of `_write_pio28` and `_write_pio48` -/
def writeSectors (fuel : Nat) : Nat → PioDrive → Mem → Option PioDrive
  | 0, d, _ => some d
  | sectors + 1, d, buffer => do
      let ((), d) ← waitDrq fuel d
      let d := storeFromBuffer 256 0 d buffer
      writeSectors fuel sectors d fun i => buffer (512 + i)

/-- `_write_pio28` -/
def writePio28 (fuel : Nat) (d : PioDrive) (lba sectors : Nat) (buffer : Mem) :
    Option (BitVec 32 × PioDrive) := do
  let d := d.outb ataControlPort (ataDriveMaster ||| lba / 2 ^ 24 % 16)
  let d := d.outb ataSectorCountPort sectors
  let d := d.outb ataLbaLowPort (lba % 256)
  let d := d.outb ataLbaMidPort (lba / 2 ^ 8 % 256)
  let d := d.outb ataLbaHighPort (lba / 2 ^ 16 % 256)
  let d := d.outb ataCommandPort ataCmdWriteSectors
  let d ← writeSectors fuel sectors d buffer
  let d := d.outb ataCommandPort ataCmdCacheFlush
  let ((), d) ← waitIdle fuel d
  some (0, d)

/-- `_write_pio48` -/
def writePio48 (fuel : Nat) (d : PioDrive) (lba sectors : Nat) (buffer : Mem) :
    Option (BitVec 32 × PioDrive) := do
  let d := d.outb ataControlPort (0x40 ||| ataDriveMaster)
  let d := d.outb ataSectorCountPort (sectors / 2 ^ 8 % 256)
  let d := d.outb ataLbaLowPort (lba / 2 ^ 24 % 256)
  let d := d.outb ataLbaMidPort (lba / 2 ^ 32 % 256)
  let d := d.outb ataLbaHighPort (lba / 2 ^ 40 % 256)
  let d := d.outb ataSectorCountPort (sectors % 256)
  let d := d.outb ataLbaLowPort (lba % 256)
  let d := d.outb ataLbaMidPort (lba / 2 ^ 8 % 256)
  let d := d.outb ataLbaHighPort (lba / 2 ^ 16 % 256)
  let d := d.outb ataCommandPort ataCmdWriteSectorsExt
  let d ← writeSectors fuel sectors d buffer
  let d := d.outb ataCommandPort ataCmdCacheFlush
  let ((), d) ← waitIdle fuel d
  some (0, d)

/-- `ata_write` -/
def ataWritePorts (fuel : Nat) (self : AtaDev) (d : PioDrive) (startBlock nBlocks : Nat)
    (buffer : Mem) : Option (BitVec 32 × PioDrive) :=
  if self.features &&& 2 ≠ 0 then writePio48 fuel d startBlock (nBlocks % 2 ^ 16) buffer
  else writePio28 fuel d startBlock (nBlocks % 2 ^ 8) buffer

/-! ## Sectors -/

section Sector

variable {d : PioDrive} {lba sectors : Nat}

theorem loadIntoBuffer_succ (n i : Nat) (d : PioDrive) (buffer : Mem) :
    loadIntoBuffer (n + 1) i d buffer
      = loadIntoBuffer n (i + 1) d.inw.2 (buffer.store 2 (2 * i) d.inw.1) := rfl

theorem storeFromBuffer_succ (n i : Nat) (d : PioDrive) (buffer : Mem) :
    storeFromBuffer (n + 1) i d buffer
      = storeFromBuffer n (i + 1) (d.outw (buffer.load 2 (2 * i))) buffer := rfl

/-- The words of a sector that is read, from the word `i` on -/
theorem loadIntoBuffer_reading {n i : Nat} (buffer : Mem) (h : i + (n + 1) = 256)
    (ht : d.transfer = .reading lba sectors i) :
    loadIntoBuffer (n + 1) i d buffer = (d.readNext lba sectors,
      fun x => if 2 * i ≤ x ∧ x < 512 then d.disk (lba * 512 + x) else buffer x) := by
  induction n generalizing i d buffer with
  | zero =>
      obtain rfl : i = 255 := Nat.succ.inj h
      rw [loadIntoBuffer_succ, PioDrive.inw_reading_last ht, Mem.copy_last_word]
      rfl
  | succ n ih =>
      rw [loadIntoBuffer_succ, PioDrive.inw_reading ht (by omega), ih _ (by omega) rfl,
        PioDrive.readNext_transfer, Mem.copy_word _ _ _ (by omega)]

/-- The words of a sector that is written, from the word `i` on -/
theorem storeFromBuffer_writing {n i : Nat} (buffer : Mem) {sector : Mem} (h : i + (n + 1) = 256)
    (ht : d.transfer = .writing lba sectors i sector) :
    storeFromBuffer (n + 1) i d buffer = d.writeNext lba sectors
      fun x => if 2 * i ≤ x ∧ x < 512 then buffer (0 + x) else sector x := by
  have hzero : ∀ a, buffer.load 2 a = buffer.load 2 (0 + a) := fun a => by rw [Nat.zero_add]
  induction n generalizing i d sector with
  | zero =>
      obtain rfl : i = 255 := Nat.succ.inj h
      rw [storeFromBuffer_succ, hzero, PioDrive.outw_writing_last ht, Mem.copy_last_word]
      rfl
  | succ n ih =>
      rw [storeFromBuffer_succ, hzero, PioDrive.outw_writing ht (by omega), ih (by omega) rfl,
        PioDrive.writeNext_transfer, Mem.copy_word _ _ _ (by omega)]

end Sector

/-! ## Identification -/

section Identify

variable {d : PioDrive} {fuel : Nat}

/-- The words of an identity that are read from the word `i` on -/
theorem loadIntoBuffer_identify {n i : Nat} (buffer : Mem) (h : i + (n + 1) = 256)
    (ht : d.transfer = .identify i) : ∃ buffer',
      loadIntoBuffer (n + 1) i d buffer = ({ d with transfer := .idle }, buffer') ∧
        ∀ j < 256, buffer'.load 2 (2 * j)
          = if i ≤ j then d.identity j % 65536 else buffer.load 2 (2 * j) := by
  induction n generalizing i d buffer with
  | zero =>
      obtain rfl : i = 255 := Nat.succ.inj h
      refine ⟨buffer.store 2 (2 * 255) (d.identity 255 % 65536), ?_, ?_⟩
      · rw [loadIntoBuffer_succ, PioDrive.inw_identify_last ht]
        rfl
      · intro j hj
        rw [Mem.load_store_word, Nat.mod_mod]
        by_cases hlast : 255 ≤ j
        · obtain rfl : j = 255 := by omega
          rw [if_pos hlast, if_pos rfl]
        · rw [if_neg hlast, if_neg (by omega)]
  | succ n ih =>
      rw [loadIntoBuffer_succ, PioDrive.inw_identify ht (by omega)]
      obtain ⟨e, he⟩ : ∃ e : PioDrive, e = { d with transfer := .identify (i + 1) } := ⟨_, rfl⟩
      have hidentity : e.identity = d.identity := by rw [he]
      have hnext : e.transfer = .identify (i + 1) := by rw [he]
      obtain ⟨buffer', hload, hwords⟩ :=
        ih (buffer.store 2 (2 * i) (d.identity i % 65536)) (by omega) hnext
      refine ⟨buffer', ?_, ?_⟩
      · dsimp only
        rw [← he, hload, he]
      · intro j hj
        rw [hwords j hj, hidentity, Mem.load_store_word, Nat.mod_mod]
        by_cases hle : i ≤ j
        · rw [if_pos hle]
          by_cases hlater : i + 1 ≤ j
          · rw [if_pos hlater]
          · obtain rfl : i = j := by omega
            rw [if_neg hlater, if_pos rfl]
        · rw [if_neg hle, if_neg (by omega), if_neg (by omega)]

/-- The first look at the status, and those of `_check_bsy` behind it -/
theorem checkBsy_inb {status : Nat} (hbusy : d.busy < fuel)
    (hstatus : ({ d with busy := 0 } : PioDrive).status = status)
    (hdone : status &&& ataStatusBsy = 0) :
    checkBsy fuel (d.inb ataCommandPort).1 (d.inb ataCommandPort).2
      = some (status, { d with busy := 0 }) := by
  have hlook : d.inb ataCommandPort = (d.status, { d with busy := d.busy - 1 }) := rfl
  rw [hlook]
  unfold checkBsy
  by_cases hb : d.busy = 0
  · have hsame : ({ d with busy := 0 } : PioDrive) = d := by rw [← hb]
    rw [hsame] at hstatus
    rw [hstatus, if_pos hdone, hb]
  · have hbsy : ¬ PioDrive.statusBsy &&& ataStatusBsy = 0 := by decide
    rw [PioDrive.status_busy hb]
    dsimp only
    rw [if_neg hbsy]
    refine PioDrive.poll_eq (show d.busy - 1 < fuel by omega) (if_neg hbsy) ?_
    rw [hstatus]
    exact if_pos hdone

end Identify

/-! ## Commands -/

section Command

variable {d : PioDrive} {fuel lba sectors count : Nat}

/-- The four low bits of the control register are an address, and bit 6 makes it a linear one. -/
theorem control_bits {x : Nat} (hx : x < 16) :
    (ataDriveMaster ||| x) % 256 / 64 % 2 = 1 ∧ (ataDriveMaster ||| x) % 256 % 16 = x := by
  have hall : ∀ x : Fin 16,
      (ataDriveMaster ||| x.val) % 256 / 64 % 2 = 1 ∧
        (ataDriveMaster ||| x.val) % 256 % 16 = x.val := by decide
  exact hall ⟨x, hx⟩

/-- The registers of 28-bit commands -/
def addressed28 (d : PioDrive) (lba sectors : Nat) : PioDrive :=
  ((((d.setControl (ataDriveMaster ||| lba / 2 ^ 24 % 16)).setCount sectors).setLbaLow
    (lba % 256)).setLbaMid (lba / 2 ^ 8 % 256)).setLbaHigh (lba / 2 ^ 16 % 256)

theorem lba28_addressed (d : PioDrive) (lba sectors : Nat) :
    (addressed28 d lba sectors).lba28 = lba % 2 ^ 28 := by
  have hcontrol : (addressed28 d lba sectors).control % 16 = lba / 2 ^ 24 % 16 :=
    (control_bits (Nat.mod_lt (lba / 2 ^ 24) (show 0 < 16 by omega))).2
  have hlow : (addressed28 d lba sectors).lbaLow.current = lba % 256 % 256 := rfl
  have hmid : (addressed28 d lba sectors).lbaMid.current = lba / 2 ^ 8 % 256 % 256 := rfl
  have hhigh : (addressed28 d lba sectors).lbaHigh.current = lba / 2 ^ 16 % 256 % 256 := rfl
  unfold PioDrive.lba28
  rw [hcontrol, hlow, hmid, hhigh]
  omega

theorem count28_addressed (d : PioDrive) (lba : Nat) (hlt : sectors < 256) :
    (addressed28 d lba sectors).count28 = if sectors = 0 then 256 else sectors := by
  obtain ⟨e, he⟩ : ∃ e, e = addressed28 d lba sectors := ⟨_, rfl⟩
  have hcount : e.count.current = sectors := by
    rw [he]
    exact Nat.mod_eq_of_lt hlt
  rw [← he]
  unfold PioDrive.count28
  rw [hcount]

/-- The registers of 48-bit commands, each written twice -/
def addressed48 (d : PioDrive) (control lba sectors : Nat) : PioDrive :=
  ((((((((d.setControl control).setCount (sectors / 2 ^ 8 % 256)).setLbaLow
    (lba / 2 ^ 24 % 256)).setLbaMid (lba / 2 ^ 32 % 256)).setLbaHigh
    (lba / 2 ^ 40 % 256)).setCount (sectors % 256)).setLbaLow (lba % 256)).setLbaMid
    (lba / 2 ^ 8 % 256)).setLbaHigh (lba / 2 ^ 16 % 256)

theorem has48_addressed (control lba sectors : Nat) (h48 : d.has48 = true) :
    (addressed48 d control lba sectors).has48 = true := by
  unfold addressed48
  simp only [PioDrive.has48_setControl, PioDrive.has48_setCount, PioDrive.has48_setLbaLow,
    PioDrive.has48_setLbaMid, PioDrive.has48_setLbaHigh, h48]

theorem lba48_addressed (d : PioDrive) (control sectors : Nat) (hlba : lba < 2 ^ 48) :
    (addressed48 d control lba sectors).lba48 = lba := by
  obtain ⟨e, he⟩ : ∃ e, e = addressed48 d control lba sectors := ⟨_, rfl⟩
  have hlow : e.lbaLow = ⟨lba % 256 % 256, lba / 2 ^ 24 % 256 % 256⟩ := by rw [he]; rfl
  have hmid : e.lbaMid = ⟨lba / 2 ^ 8 % 256 % 256, lba / 2 ^ 32 % 256 % 256⟩ := by rw [he]; rfl
  have hhigh : e.lbaHigh = ⟨lba / 2 ^ 16 % 256 % 256, lba / 2 ^ 40 % 256 % 256⟩ := by rw [he]; rfl
  rw [← he]
  unfold PioDrive.lba48
  rw [hlow, hmid, hhigh]
  dsimp only
  omega

theorem count48_addressed (d : PioDrive) (control lba : Nat) (hlt : sectors < 65536) :
    (addressed48 d control lba sectors).count48 = if sectors = 0 then 65536 else sectors := by
  obtain ⟨e, he⟩ : ∃ e, e = addressed48 d control lba sectors := ⟨_, rfl⟩
  have hcount : e.count = ⟨sectors % 256 % 256, sectors / 2 ^ 8 % 256 % 256⟩ := by rw [he]; rfl
  have hboth : sectors / 2 ^ 8 % 256 % 256 * 256 + sectors % 256 % 256 = sectors := by omega
  rw [← he]
  unfold PioDrive.count48
  rw [hcount]
  dsimp only
  rw [hboth]

/-- The registers have nothing to do with the medium. -/
theorem sameMedium_addressed28 (d : PioDrive) (lba sectors : Nat) :
    d.SameMedium (addressed28 d lba sectors) :=
  (PioDrive.SameMedium.refl d).setControl _ |>.setCount _ |>.setLbaLow _ |>.setLbaMid _
    |>.setLbaHigh _

theorem disk_addressed28 (d : PioDrive) (lba sectors : Nat) :
    (addressed28 d lba sectors).disk = d.disk := by
  unfold addressed28
  simp only [PioDrive.disk_setControl, PioDrive.disk_setCount, PioDrive.disk_setLbaLow,
    PioDrive.disk_setLbaMid, PioDrive.disk_setLbaHigh]

theorem sameMedium_addressed48 (d : PioDrive) (control lba sectors : Nat) :
    d.SameMedium (addressed48 d control lba sectors) :=
  (PioDrive.SameMedium.refl d).setControl _ |>.setCount _ |>.setLbaLow _ |>.setLbaMid _
    |>.setLbaHigh _ |>.setCount _ |>.setLbaLow _ |>.setLbaMid _ |>.setLbaHigh _

theorem disk_addressed48 (d : PioDrive) (control lba sectors : Nat) :
    (addressed48 d control lba sectors).disk = d.disk := by
  unfold addressed48
  simp only [PioDrive.disk_setControl, PioDrive.disk_setCount, PioDrive.disk_setLbaLow,
    PioDrive.disk_setLbaMid, PioDrive.disk_setLbaHigh]

theorem startReading28 (hcount : (addressed28 d lba sectors).count28 = count) :
    (addressed28 d lba sectors).command ataCmdReadSectors
      = (addressed28 d lba sectors).startReading (lba % 2 ^ 28) count := by
  have hlinear := (control_bits (Nat.mod_lt (lba / 2 ^ 24) (show 0 < 16 by omega))).1
  have hstart : (addressed28 d lba sectors).command ataCmdReadSectors
      = (addressed28 d lba sectors).startReading (addressed28 d lba sectors).lba28
        (addressed28 d lba sectors).count28 := PioDrive.command_read hlinear
  rw [hstart, lba28_addressed, hcount]

theorem startWriting28 (hcount : (addressed28 d lba sectors).count28 = count) :
    (addressed28 d lba sectors).command ataCmdWriteSectors
      = (addressed28 d lba sectors).startWriting (lba % 2 ^ 28) count := by
  have hlinear := (control_bits (Nat.mod_lt (lba / 2 ^ 24) (show 0 < 16 by omega))).1
  have hstart : (addressed28 d lba sectors).command ataCmdWriteSectors
      = (addressed28 d lba sectors).startWriting (addressed28 d lba sectors).lba28
        (addressed28 d lba sectors).count28 := PioDrive.command_write hlinear
  rw [hstart, lba28_addressed, hcount]

theorem readPio28_eq (self : AtaDev) (h : d.takes = true)
    (hcount : (addressed28 d lba sectors).count28 = count) : readPio28 fuel self d lba sectors
      = readSectors fuel sectors self
          ((addressed28 d lba sectors).startReading (lba % 2 ^ 28) count) := by
  rw [← startReading28 hcount]
  unfold readPio28 ataControlPort ataPrimaryError ataSectorCountPort ataLbaLowPort ataLbaMidPort
    ataLbaHighPort ataCommandPort
  dsimp only
  simp only [PioDrive.outb_control, PioDrive.outb_features, PioDrive.outb_count,
    PioDrive.outb_lbaLow, PioDrive.outb_lbaMid, PioDrive.outb_lbaHigh, PioDrive.outb_command,
    PioDrive.takes_setControl, PioDrive.takes_setCount, PioDrive.takes_setLbaLow,
    PioDrive.takes_setLbaMid, PioDrive.takes_setLbaHigh, h]
  rfl

theorem writePio28_eq (buffer : Mem) (h : d.takes = true)
    (hcount : (addressed28 d lba sectors).count28 = count) : writePio28 fuel d lba sectors buffer
      = (writeSectors fuel sectors
          ((addressed28 d lba sectors).startWriting (lba % 2 ^ 28) count) buffer).bind
        fun d => (waitIdle fuel (d.outb ataCommandPort ataCmdCacheFlush)).bind
          fun r => some (0, r.2) := by
  rw [← startWriting28 hcount]
  unfold writePio28 ataControlPort ataSectorCountPort ataLbaLowPort ataLbaMidPort
    ataLbaHighPort ataCommandPort
  dsimp only
  simp only [PioDrive.outb_control, PioDrive.outb_count,
    PioDrive.outb_lbaLow, PioDrive.outb_lbaMid, PioDrive.outb_lbaHigh, PioDrive.outb_command,
    PioDrive.takes_setControl, PioDrive.takes_setCount, PioDrive.takes_setLbaLow,
    PioDrive.takes_setLbaMid, PioDrive.takes_setLbaHigh, h]
  rfl

theorem readPio48_eq (self : AtaDev) (h : d.takes = true) (h48 : d.has48 = true)
    (hlba : lba < 2 ^ 48) (hcount : (addressed48 d 0x40 lba sectors).count48 = count) :
    readPio48 fuel self d lba sectors = readSectors fuel sectors self
      ((addressed48 d 0x40 lba sectors).startReading lba count) := by
  have hlinear : (addressed48 d 0x40 lba sectors).control / 64 % 2 = 1 := by
    show 0x40 % 256 / 64 % 2 = 1
    decide
  have hstart := PioDrive.command_readExt hlinear (has48_addressed 0x40 lba sectors h48)
  rw [lba48_addressed d 0x40 sectors hlba, hcount] at hstart
  rw [← hstart]
  unfold readPio48 ataControlPort ataSectorCountPort ataLbaLowPort ataLbaMidPort
    ataLbaHighPort ataCommandPort
  dsimp only
  simp only [PioDrive.outb_control, PioDrive.outb_count,
    PioDrive.outb_lbaLow, PioDrive.outb_lbaMid, PioDrive.outb_lbaHigh, PioDrive.outb_command,
    PioDrive.takes_setControl, PioDrive.takes_setCount, PioDrive.takes_setLbaLow,
    PioDrive.takes_setLbaMid, PioDrive.takes_setLbaHigh, h]
  rfl

theorem writePio48_eq (buffer : Mem) (h : d.takes = true) (h48 : d.has48 = true)
    (hlba : lba < 2 ^ 48) (hcount : (addressed48 d 0xE0 lba sectors).count48 = count) :
    writePio48 fuel d lba sectors buffer
      = (writeSectors fuel sectors
          ((addressed48 d 0xE0 lba sectors).startWriting lba count) buffer).bind
        fun d => (waitIdle fuel (d.outb ataCommandPort ataCmdCacheFlush)).bind
          fun r => some (0, r.2) := by
  have hlinear : (addressed48 d 0xE0 lba sectors).control / 64 % 2 = 1 := by
    show 0xE0 % 256 / 64 % 2 = 1
    decide
  have hstart := PioDrive.command_writeExt hlinear (has48_addressed 0xE0 lba sectors h48)
  rw [lba48_addressed d 0xE0 sectors hlba, hcount] at hstart
  rw [← hstart]
  unfold writePio48 ataControlPort ataSectorCountPort ataLbaLowPort ataLbaMidPort
    ataLbaHighPort ataCommandPort
  dsimp only
  simp only [PioDrive.outb_control, PioDrive.outb_count,
    PioDrive.outb_lbaLow, PioDrive.outb_lbaMid, PioDrive.outb_lbaHigh, PioDrive.outb_command,
    PioDrive.takes_setControl, PioDrive.takes_setCount, PioDrive.takes_setLbaLow,
    PioDrive.takes_setLbaMid, PioDrive.takes_setLbaHigh, h]
  rfl

end Command

/-! ## Whole transfers -/

section Sectors

variable {d : PioDrive} {fuel lba n : Nat}

theorem waitData_fail (hfuel : d.Answers fuel) :
    waitData fuel d.fail = some (false, { d.fail with busy := 0 }) := by
  have hstatus : ({ d.fail with busy := 0 } : PioDrive).status
      = PioDrive.statusRdy ||| PioDrive.statusErr := PioDrive.status_failed rfl rfl
  refine PioDrive.poll_eq (hfuel d.waits) (by decide) ?_
  rw [hstatus]
  decide

theorem waitData_reading (hfuel : d.Answers fuel) (lba sectors : Nat) :
    waitData fuel { d with transfer := .reading lba sectors 0 }.wait
      = some (true, { ({ d with transfer := .reading lba sectors 0 } : PioDrive).wait with
          busy := 0 }) := by
  have hstatus : ({ ({ d with transfer := .reading lba sectors 0 } : PioDrive).wait with
      busy := 0 } : PioDrive).status = PioDrive.statusRdy ||| PioDrive.statusDrq :=
    PioDrive.status_reading rfl rfl
  refine PioDrive.poll_eq (hfuel d.waits) (by decide) ?_
  rw [hstatus]
  decide

/-- What is left of a read of `n` sectors that has come to its end: `k` of them could be read,
    and the last one of these is in the buffer. -/
structure ReadEnd (dev : AtaDev) (d : PioDrive) (lba n k : Nat) (res : BitVec 32)
    (dev' : AtaDev) (d' : PioDrive) : Prop where
  le : k ≤ n
  good : ∀ i < k, d.bad (lba + i) = false
  stop : k < n → d.bad (lba + k) = true
  result : res = if k = n then 0 else -eio
  buffer : dev' = { dev with
    buffer := fun x =>
      if 0 < k ∧ x < 512 then d.disk ((lba + (k - 1)) * 512 + x) else dev.buffer x }
  takes : d'.takes = true
  medium : d.SameMedium d'
  disk : d'.disk = d.disk

theorem ReadEnd.bad (self : AtaDev) (hbad : d.bad lba = true) (n : Nat) :
    ReadEnd self d lba (n + 1) 0 (-eio) self { d.fail with busy := 0 } where
  le := Nat.zero_le _
  good := fun i hi => absurd hi (Nat.not_lt_zero i)
  stop := fun _ => hbad
  result := rfl
  buffer := by
    have hnone : (fun x => if 0 < 0 ∧ x < 512 then d.disk ((lba + (0 - 1)) * 512 + x)
        else self.buffer x) = self.buffer := by
      funext x
      exact if_neg fun h => Nat.lt_irrefl 0 h.1
    rw [hnone]
  takes := PioDrive.takes_of_failed rfl rfl
  medium := ⟨rfl, rfl, rfl⟩
  disk := rfl

theorem readSectors_succ_bad (self : AtaDev) (hbad : d.bad lba = true) (hfuel : d.Answers fuel) :
    readSectors fuel (n + 1) self (d.startReading lba (n + 1))
      = some (-eio, self, { d.fail with busy := 0 }) := by
  show (waitData fuel (d.startReading lba (n + 1))).bind _ = _
  rw [PioDrive.startReading_bad hbad, waitData_fail hfuel]
  rfl

/-- A sector that can be read is in the buffer, and the rest is read behind it. -/
theorem readSectors_succ_good (self : AtaDev) (hgood : d.bad lba = false)
    (hsize : self.sectorSize = 512) (hfuel : d.Answers fuel) :
    readSectors fuel (n + 1) self (d.startReading lba (n + 1))
      = readSectors fuel n
          { self with buffer := fun x =>
              if 2 * 0 ≤ x ∧ x < 512 then d.disk (lba * 512 + x) else self.buffer x }
          (({ d with busy := 0, waits := d.waits + 1 } : PioDrive).readNext lba (n + 1)) := by
  obtain ⟨e, he⟩ : ∃ e : PioDrive, e = { ({ d with transfer := .reading lba (n + 1) 0 } :
    PioDrive).wait with busy := 0 } := ⟨_, rfl⟩
  have hload : loadIntoBuffer (self.sectorSize / 2) 0 e self.buffer
      = (e.readNext lba (n + 1), fun x =>
        if 2 * 0 ≤ x ∧ x < 512 then d.disk (lba * 512 + x) else self.buffer x) := by
    have hdisk : e.disk = d.disk := by rw [he]; rfl
    rw [hsize, ← hdisk]
    exact loadIntoBuffer_reading self.buffer rfl (by rw [he]; rfl)
  have hnext : e.readNext lba (n + 1)
      = ({ d with busy := 0, waits := d.waits + 1 } : PioDrive).readNext lba (n + 1) := by
    rw [he]
    rfl
  show (waitData fuel (d.startReading lba (n + 1))).bind _ = _
  rw [PioDrive.startReading_good hgood, waitData_reading hfuel lba (n + 1), ← he, ← hnext]
  show readSectors fuel n { self with buffer := (loadIntoBuffer _ 0 e self.buffer).2 }
    (loadIntoBuffer _ 0 e self.buffer).1 = _
  rw [hload]

/-- The only sector could be read. -/
theorem ReadEnd.one (self : AtaDev) (hgood : d.bad lba = false) :
    ReadEnd self d lba 1 1 0
      { self with buffer := fun x =>
          if 2 * 0 ≤ x ∧ x < 512 then d.disk (lba * 512 + x) else self.buffer x }
      (({ d with busy := 0, waits := d.waits + 1 } : PioDrive).readNext lba 1) where
  le := Nat.le_refl 1
  good := fun i hi => by
    obtain rfl : i = 0 := by omega
    exact hgood
  stop := fun h => absurd h (Nat.lt_irrefl 1)
  result := rfl
  buffer := by
    congr 1
    funext x
    by_cases hx : x < 512
    · rw [if_pos ⟨Nat.zero_le x, hx⟩, if_pos ⟨Nat.one_pos, hx⟩]
      rfl
    · rw [if_neg fun h => hx h.2, if_neg fun h => hx h.2]
  takes := PioDrive.takes_of_idle rfl rfl
  medium := ⟨rfl, rfl, rfl⟩
  disk := rfl

/-- The first sector could be read, and then `k` of the others. -/
theorem ReadEnd.succ {self self' : AtaDev} {e d' : PioDrive} {k : Nat} {res : BitVec 32}
    (hgood : d.bad lba = false) (hmedium : d.SameMedium e) (hdisk : e.disk = d.disk)
    (hend : ReadEnd { self with buffer := fun x =>
        if 2 * 0 ≤ x ∧ x < 512 then d.disk (lba * 512 + x) else self.buffer x }
      e (lba + 1) n k res self' d') :
    ReadEnd self d lba (n + 1) (k + 1) res self' d' where
  le := Nat.succ_le_succ hend.le
  good := fun i hi => by
    cases i with
    | zero => exact hgood
    | succ i =>
        have hgood := hend.good i (Nat.lt_of_succ_lt_succ hi)
        rw [Nat.add_assoc, Nat.add_comm 1 i, hmedium.bad] at hgood
        exact hgood
  stop := fun h => by
    have hstop := hend.stop (Nat.lt_of_succ_lt_succ h)
    rw [Nat.add_assoc, Nat.add_comm 1 k, hmedium.bad] at hstop
    exact hstop
  result := by
    rw [hend.result]
    by_cases hk : k = n
    · rw [if_pos hk, if_pos (by omega)]
    · rw [if_neg hk, if_neg (by omega)]
  buffer := by
    rw [hend.buffer, hdisk]
    congr 1
    funext x
    dsimp only
    -- the last sector that can be read is this one or a later one
    by_cases hx : x < 512
    · rw [if_pos (show 0 < k + 1 ∧ x < 512 from ⟨Nat.succ_pos k, hx⟩)]
      by_cases hk : 0 < k
      · have hlast : lba + 1 + (k - 1) = lba + (k + 1 - 1) := by omega
        rw [if_pos ⟨hk, hx⟩, hlast]
      · have hlast : lba = lba + (k + 1 - 1) := by omega
        rw [if_neg (fun h => hk h.1), if_pos ⟨Nat.zero_le x, hx⟩, ← hlast]
    · rw [if_neg fun h => hx h.2, if_neg fun h => hx h.2, if_neg fun h => hx h.2]
  takes := hend.takes
  medium := hmedium.trans hend.medium
  disk := hend.disk.trans hdisk

/-- Sectors are read until the last one or the first one that cannot be. -/
theorem readSectors_spec (self : AtaDev) (hsize : self.sectorSize = 512)
    (hfuel : d.Answers fuel) : ∃ k res self' d',
      readSectors fuel (n + 1) self (d.startReading lba (n + 1)) = some (res, self', d') ∧
        ReadEnd self d lba (n + 1) k res self' d' := by
  induction n generalizing d lba self with
  | zero =>
      cases hbad : d.bad lba with
      | true => exact ⟨0, _, _, _, readSectors_succ_bad self hbad hfuel, .bad self hbad 0⟩
      | false => exact ⟨1, _, _, _, readSectors_succ_good self hbad hsize hfuel, .one self hbad⟩
  | succ n ih =>
      cases hbad : d.bad lba with
      | true => exact ⟨0, _, _, _, readSectors_succ_bad self hbad hfuel, .bad self hbad _⟩
      | false =>
          rw [readSectors_succ_good self hbad hsize hfuel,
            PioDrive.readNext_more _ lba (Nat.succ_pos n)]
          have hmedium : d.SameMedium { d with busy := 0, waits := d.waits + 1 } :=
            ⟨rfl, rfl, rfl⟩
          obtain ⟨k, res, self', d', hread, hend⟩ := ih
            { self with
              buffer := fun x =>
                if 2 * 0 ≤ x ∧ x < 512 then d.disk (lba * 512 + x) else self.buffer x }
            hsize (hfuel.of_sameMedium hmedium)
          exact ⟨k + 1, res, self', d', hread, hend.succ hbad hmedium rfl⟩

/-- The disk when `n` sectors have been written from `lba` on: those that can be -/
def written (d : PioDrive) (lba n : Nat) (buffer : Mem) : Mem := fun x =>
  if lba * 512 ≤ x ∧ x < (lba + n) * 512 ∧ d.bad (x / 512) = false then buffer (x - lba * 512)
  else d.disk x

theorem waitDrq_startWriting (hfuel : d.delay d.waits < fuel) (lba sectors : Nat) :
    waitDrq fuel (d.startWriting lba sectors)
      = some ((), { d.startWriting lba sectors with busy := 0 }) := by
  have hstatus : ({ d.startWriting lba sectors with busy := 0 } : PioDrive).status
      = PioDrive.statusRdy ||| PioDrive.statusDrq := PioDrive.status_writing rfl rfl
  refine PioDrive.poll_eq hfuel (by decide) ?_
  rw [hstatus]
  decide

/-- After an error the drive does not ask for data, and the driver waits for that. -/
theorem waitDrq_fail (fuel : Nat) (d : PioDrive) : waitDrq fuel d.fail = none := by
  have hstatus : ({ d.fail with busy := 0 } : PioDrive).status
      = PioDrive.statusRdy ||| PioDrive.statusErr := PioDrive.status_failed rfl rfl
  refine PioDrive.poll_eq_none fuel (by decide) ?_
  rw [hstatus]
  decide

/-- The 512 bytes of `buffer` that are written next -/
def nextSector (buffer : Mem) : Mem :=
  fun x => if 2 * 0 ≤ x ∧ x < 512 then buffer (0 + x) else 0

/-- A drive that is not busy any more -/
def ready (d : PioDrive) : PioDrive := { d with busy := 0, waits := d.waits + 1 }

@[simp] theorem bad_ready (d : PioDrive) : (ready d).bad = d.bad := rfl

theorem writeSectors_succ (hfuel : d.delay d.waits < fuel) (buffer : Mem) :
    writeSectors fuel (n + 1) (d.startWriting lba (n + 1)) buffer
      = writeSectors fuel n ((ready d).writeNext lba (n + 1) (nextSector buffer))
          fun i => buffer (512 + i) := by
  obtain ⟨e, he⟩ : ∃ e : PioDrive, e = { d.startWriting lba (n + 1) with busy := 0 } := ⟨_, rfl⟩
  have hstore : storeFromBuffer 256 0 e buffer = e.writeNext lba (n + 1) (nextSector buffer) :=
    storeFromBuffer_writing buffer rfl (by rw [he]; rfl)
  have hnext : e.writeNext lba (n + 1) (nextSector buffer)
      = (ready d).writeNext lba (n + 1) (nextSector buffer) := by
    rw [he]
    rfl
  show (waitDrq fuel (d.startWriting lba (n + 1))).bind _ = _
  rw [waitDrq_startWriting hfuel, ← he, ← hnext, ← hstore]
  rfl

/-- One sector of a write, and those behind it -/
theorem written_succ (hgood : d.bad lba = false) (buffer : Mem) (n : Nat) :
    written { d with disk := PioDrive.storeSector d.disk lba (nextSector buffer) } (lba + 1) n
        (fun i => buffer (512 + i))
      = written d lba (n + 1) buffer := by
  funext x
  unfold written PioDrive.storeSector nextSector
  dsimp only
  by_cases hlater : (lba + 1) * 512 ≤ x ∧ x < (lba + 1 + n) * 512 ∧ d.bad (x / 512) = false
  · -- the byte is of a later sector
    have hoffset : 512 + (x - (lba + 1) * 512) = x - lba * 512 := by omega
    have hle : lba * 512 ≤ x := by omega
    have hlt : x < (lba + (n + 1)) * 512 := by omega
    rw [if_pos hlater, if_pos (And.intro hle (And.intro hlt hlater.2.2)), hoffset]
  · rw [if_neg hlater]
    by_cases hhere : x / 512 = lba
    · -- of this one
      have hoffset : 0 + x % 512 = x - lba * 512 := by omega
      have hbyte : 2 * 0 ≤ x % 512 ∧ x % 512 < 512 := by omega
      have hle : lba * 512 ≤ x := by omega
      have hlt : x < (lba + (n + 1)) * 512 := by omega
      have hok : d.bad (x / 512) = false := by
        rw [hhere]
        exact hgood
      rw [if_pos hhere, if_pos hbyte, if_pos (And.intro hle (And.intro hlt hok)), hoffset]
    · -- of none that is written
      rw [if_neg hhere, if_neg]
      rintro ⟨hle, hlt, hok⟩
      have hbehind : (lba + 1) * 512 ≤ x ∧ x < (lba + 1 + n) * 512 := by
        clear hlater
        omega
      exact hlater ⟨hbehind.1, hbehind.2, hok⟩

/-- The last sector of a write, whether it can be written or not -/
theorem written_one (d : PioDrive) (lba : Nat) (buffer : Mem) : written d lba 1 buffer
    = if d.bad lba = false then PioDrive.storeSector d.disk lba (nextSector buffer)
      else d.disk := by
  by_cases hgood : d.bad lba = false
  · rw [if_pos hgood, ← written_succ hgood buffer 0]
    funext x
    exact if_neg (by omega)
  · rw [if_neg hgood]
    funext x
    refine if_neg ?_
    rintro ⟨hle, hlt, hok⟩
    have hsector : x / 512 = lba := by omega
    exact hgood (hsector ▸ hok)

/-- A drive that has nothing more to transfer, but may be busy -/
structure Done (d : PioDrive) (fuel : Nat) : Prop where
  transfer : d.transfer = .idle ∨ d.transfer = .failed
  busy : d.busy < fuel

/-- Sectors that can be written, but for the last one perhaps, are. -/
theorem writeSectors_spec (hfuel : d.Answers fuel) (buffer : Mem)
    (hgood : ∀ i < n, d.bad (lba + i) = false) :
    ∃ d', writeSectors fuel (n + 1) (d.startWriting lba (n + 1)) buffer = some d' ∧
      Done d' fuel ∧ d.SameMedium d' ∧ d'.disk = written d lba (n + 1) buffer := by
  induction n generalizing d lba buffer with
  | zero =>
      rw [writeSectors_succ (hfuel d.waits), Nat.zero_add, written_one]
      refine ⟨_, rfl, ?_⟩
      cases hbad : d.bad lba with
      | false =>
          have hlast : (ready d).bad lba = false := hbad
          rw [if_pos rfl, PioDrive.writeNext_last hlast]
          exact ⟨⟨.inl rfl, hfuel _⟩, ⟨rfl, rfl, rfl⟩, rfl⟩
      | true =>
          -- no wait comes behind the last sector, so its error is not seen
          have hlast : (ready d).bad lba = true := hbad
          rw [if_neg (by decide), PioDrive.writeNext_bad hlast]
          exact ⟨⟨.inr rfl, hfuel _⟩, ⟨rfl, rfl, rfl⟩, rfl⟩
  | succ n ih =>
      have hfirst : d.bad lba = false := hgood 0 (Nat.succ_pos n)
      have hready : (ready d).bad lba = false := hfirst
      rw [writeSectors_succ (hfuel d.waits), PioDrive.writeNext_more hready (Nat.succ_pos n),
        ← written_succ hfirst buffer (n + 1)]
      obtain ⟨e, he⟩ : ∃ e : PioDrive, e = { ready d with
          disk := PioDrive.storeSector d.disk lba (nextSector buffer) } := ⟨_, rfl⟩
      have hmedium : d.SameMedium e := by
        rw [he]
        exact ⟨rfl, rfl, rfl⟩
      have hlater : ∀ i < n, e.bad (lba + 1 + i) = false := by
        intro i hi
        rw [hmedium.bad, Nat.add_assoc, Nat.add_comm 1 i]
        exact hgood (i + 1) (Nat.succ_lt_succ hi)
      obtain ⟨d', hwrite, hdone, hsame, hdisk⟩ :=
        ih (hfuel.of_sameMedium hmedium) (fun i => buffer (512 + i)) hlater
      refine ⟨d', ?_, hdone, hmedium.trans hsame, ?_⟩
      · rw [← hwrite, he]
        rfl
      · rw [hdisk, he]
        rfl

/-- A sector that cannot be written, in front of others: the driver waits for ever. -/
theorem writeSectors_stuck (fuel : Nat) (buffer : Mem) {i : Nat} (hi : i < n)
    (hbad : d.bad (lba + i) = true) :
    writeSectors fuel (n + 1) (d.startWriting lba (n + 1)) buffer = none := by
  induction n generalizing d lba i buffer with
  | zero => exact absurd hi (Nat.not_lt_zero i)
  | succ n ih =>
      by_cases hfuel : d.delay d.waits < fuel
      · rw [writeSectors_succ hfuel]
        cases hfirst : d.bad lba with
        | true =>
            -- the drive has failed and sets DRQ no more
            have hready : (ready d).bad lba = true := hfirst
            rw [PioDrive.writeNext_bad hready]
            show (waitDrq fuel _).bind _ = _
            rw [waitDrq_fail]
            rfl
        | false =>
            have hready : (ready d).bad lba = false := hfirst
            rw [PioDrive.writeNext_more hready (Nat.succ_pos n)]
            cases i with
            | zero =>
                rw [Nat.add_zero, hfirst] at hbad
                cases hbad
            | succ i =>
                refine ih _ (Nat.lt_of_succ_lt_succ hi) ?_
                rw [Nat.add_assoc, Nat.add_comm 1 i]
                exact hbad
      · -- the fuel is not enough for the first wait
        show (waitDrq fuel _).bind _ = _
        have hnone : waitDrq fuel (d.startWriting lba (n + 1 + 1)) = none :=
          PioDrive.poll_short (Nat.le_of_not_lt hfuel) (by decide)
        rw [hnone]
        rfl

/-- Waiting for a drive that has nothing more to transfer: it takes commands again. -/
theorem Done.waitIdle (h : Done d fuel) :
    waitIdle fuel d = some ((), { d with busy := 0 }) ∧
      ({ d with busy := 0 } : PioDrive).takes = true := by
  have hstatus : ({ d with busy := 0 } : PioDrive).status &&& ataStatusBsy = 0 ∧
      ({ d with busy := 0 } : PioDrive).takes = true := by
    obtain ⟨hidle | hfailed, -⟩ := h
    · have hidle' : ({ d with busy := 0 } : PioDrive).transfer = .idle := hidle
      refine ⟨?_, PioDrive.takes_of_idle rfl hidle'⟩
      rw [PioDrive.status_idle rfl hidle']
      decide
    · have hfailed' : ({ d with busy := 0 } : PioDrive).transfer = .failed := hfailed
      refine ⟨?_, PioDrive.takes_of_failed rfl hfailed'⟩
      rw [PioDrive.status_failed rfl hfailed']
      decide
  exact ⟨PioDrive.poll_eq h.busy (by decide) (if_pos hstatus.1), hstatus.2⟩

/-- The flush of the cache, which a drive that is still busy ignores -/
theorem flush_spec (hfuel : d.Answers fuel) (hdone : Done d fuel) :
    ∃ d', waitIdle fuel (d.outb ataCommandPort ataCmdCacheFlush) = some ((), d') ∧
      d'.takes = true ∧ d.SameMedium d' ∧ d'.disk = d.disk := by
  cases htakes : d.takes with
  | true =>
      have hflush : d.outb ataCommandPort ataCmdCacheFlush
          = { d with transfer := .idle }.wait :=
        (PioDrive.outb_command htakes ataCmdCacheFlush).trans (PioDrive.command_flush d)
      have hidle : Done { d with transfer := .idle }.wait fuel := ⟨.inl rfl, hfuel _⟩
      obtain ⟨hend, hready⟩ := hidle.waitIdle
      rw [hflush]
      exact ⟨_, hend, hready, ⟨rfl, rfl, rfl⟩, rfl⟩
  | false =>
      obtain ⟨hend, hready⟩ := hdone.waitIdle
      rw [PioDrive.outb_ignored htakes]
      exact ⟨_, hend, hready, ⟨rfl, rfl, rfl⟩, rfl⟩

end Sectors

/-! ## A drive that is attached -/

/-- A device and its drive when no command is under way -/
structure Attached (fuel : Nat) (dev : AtaDev) (d : PioDrive) : Prop where
  sectorSize : dev.sectorSize = 512
  /-- Bit 1 of the features says that there are 48-bit commands. -/
  pio48 : dev.features &&& 2 ≠ 0 ↔ d.has48 = true
  takes : d.takes = true
  answers : d.Answers fuel

section Attached

variable {fuel : Nat} {dev : AtaDev} {d : PioDrive}

theorem Attached.of_sameMedium {dev' : AtaDev} {d' : PioDrive} (h : Attached fuel dev d)
    (hmedium : d.SameMedium d') (htakes : d'.takes = true)
    (hsize : dev'.sectorSize = dev.sectorSize) (hfeatures : dev'.features = dev.features) :
    Attached fuel dev' d' where
  sectorSize := hsize.trans h.sectorSize
  pio48 := by
    unfold PioDrive.has48
    rw [hfeatures, hmedium.identity]
    exact h.pio48
  takes := htakes
  answers := h.answers.of_sameMedium hmedium

/-- The registers of `IDENTIFY`, and its wait -/
def identifying (d : PioDrive) : PioDrive :=
  { ((((d.setControl driveSelectMaster).setCount 0).setLbaLow 0).setLbaMid 0).setLbaHigh 0 with
    transfer := .identify 0 }.wait

theorem sameMedium_identifying (d : PioDrive) : d.SameMedium (identifying d) := by
  have hregisters := (PioDrive.SameMedium.refl d).setControl driveSelectMaster |>.setCount 0
    |>.setLbaLow 0 |>.setLbaMid 0 |>.setLbaHigh 0
  exact ⟨hregisters.bad, hregisters.identity, hregisters.delay⟩

theorem disk_identifying (d : PioDrive) : (identifying d).disk = d.disk := by
  show (((((d.setControl driveSelectMaster).setCount 0).setLbaLow 0).setLbaMid 0).setLbaHigh
    0).disk = d.disk
  simp only [PioDrive.disk_setControl, PioDrive.disk_setCount, PioDrive.disk_setLbaLow,
    PioDrive.disk_setLbaMid, PioDrive.disk_setLbaHigh]

theorem sendIdentifyReq_eq (h : d.takes = true) :
    sendIdentifyReq d driveSelectMaster = identifying d := by
  obtain ⟨e, he⟩ : ∃ e, e = ((((d.setControl driveSelectMaster).setCount 0).setLbaLow
    0).setLbaMid 0).setLbaHigh 0 := ⟨_, rfl⟩
  have htakes : e.takes = true := by
    rw [he]
    simp only [PioDrive.takes_setControl, PioDrive.takes_setCount, PioDrive.takes_setLbaLow,
      PioDrive.takes_setLbaMid, PioDrive.takes_setLbaHigh, h]
  have hcommand : e.outb ataCommandPort ataCmdIdentify = { e with transfer := .identify 0 }.wait :=
    (PioDrive.outb_command htakes ataCmdIdentify).trans (PioDrive.command_identify e)
  unfold sendIdentifyReq identifying ataControlPort ataSectorCountPort ataLbaLowPort ataLbaMidPort
    ataLbaHighPort
  dsimp only
  simp only [PioDrive.outb_control, PioDrive.outb_count, PioDrive.outb_lbaLow,
    PioDrive.outb_lbaMid, PioDrive.outb_lbaHigh, PioDrive.takes_setControl,
    PioDrive.takes_setCount, PioDrive.takes_setLbaLow, PioDrive.takes_setLbaMid, h]
  rw [← he, hcommand]

theorem detectPioMode_features (self : AtaDev) (buffer : Mem) (hfeatures : self.features = 0) :
    (detectPioMode self buffer).features &&& 2 ≠ 0
      ↔ (buffer.load 2 (2 * 83) / 2 ^ 10 % 2 == 1) = true := by
  unfold detectPioMode setPioFeatures
  dsimp only
  cases buffer.load 2 (2 * 83) / 2 ^ 10 % 2 == 1 with
  | false =>
      rw [if_neg (by decide)]
      dsimp only
      rw [hfeatures]
      decide
  | true =>
      rw [if_pos rfl]
      dsimp only
      rw [hfeatures]
      decide

theorem detectPioMode_sectorSize (self : AtaDev) (buffer : Mem) :
    (detectPioMode self buffer).sectorSize = self.sectorSize := by
  unfold detectPioMode setPioFeatures
  dsimp only
  split <;> rfl

theorem detectPioMode_buffer (self : AtaDev) (buffer : Mem) :
    (detectPioMode self buffer).buffer = self.buffer := by
  unfold detectPioMode setPioFeatures
  dsimp only
  split <;> rfl

/-- `_init_identify` where nothing goes wrong -/
theorem initIdentify_of_looks {self : AtaDev} {type status : Nat} {e f g : PioDrive} {words : Mem}
    (hsend : sendIdentifyReq d (getDriveSelectCode type) = e)
    (hlook : checkBsy fuel (e.inb ataCommandPort).1 (e.inb ataCommandPort).2 = some (status, f))
    (hzero : status ≠ 0) (hagain : checkBsy fuel status f = some (status, f))
    (hmid : f.inb ataLbaMidPort = (0, f)) (hhigh : f.inb ataLbaHighPort = (0, f))
    (hdrq : checkDrqErr fuel status f = some (status, f))
    (herr : status &&& ataStatusErr = 0)
    (hload : loadIntoBuffer (self.sectorSize / 2) 0 f (fun _ => 0) = (g, words)) :
    initIdentify fuel self d type = some (1, detectPioMode self words, g) := by
  unfold initIdentify
  rw [hsend]
  obtain ⟨⟨first, e'⟩, hfirst⟩ : ∃ look, e.inb ataCommandPort = look := ⟨_, rfl⟩
  rw [hfirst] at hlook
  simp only [hfirst, hlook, Option.bind_eq_bind, Option.bind_some, hzero, if_false, hagain, hmid,
    hhigh, ne_eq, not_true_eq_false, or_self, hdrq, herr, hload]

/-- `_init_identify` on a drive that answers -/
theorem initIdentify_eq (self : AtaDev) (hsize : self.sectorSize = 512) (h : d.takes = true)
    (hfuel : d.Answers fuel) : ∃ words d',
      initIdentify fuel self d ataDriveMaster = some (1, detectPioMode self words, d') ∧
        words.load 2 (2 * 83) = d.identity 83 % 65536 ∧
        d'.takes = true ∧ d.SameMedium d' ∧ d'.disk = d.disk := by
  obtain ⟨e, he⟩ : ∃ e, e = identifying d := ⟨_, rfl⟩
  have hready : ({ e with busy := 0 } : PioDrive).status
      = PioDrive.statusRdy ||| PioDrive.statusDrq :=
    PioDrive.status_identify rfl (by rw [he]; rfl)
  have hbusy : e.busy < fuel := by
    rw [he]
    exact hfuel d.waits
  have hlook := checkBsy_inb hbusy hready (by decide)
  obtain ⟨f, hf⟩ : ∃ f : PioDrive, f = { e with busy := 0 } := ⟨_, rfl⟩
  rw [← hf] at hlook
  obtain ⟨words, hload, hwords⟩ := loadIntoBuffer_identify (d := f) (n := 255) (i := 0)
    (fun _ => 0) rfl (by rw [hf, he]; rfl)
  have hmedium : d.SameMedium f := by
    rw [hf, he]
    have hsame := sameMedium_identifying d
    exact ⟨hsame.bad, hsame.identity, hsame.delay⟩
  have hdisk : f.disk = d.disk := by
    rw [hf, he]
    exact disk_identifying d
  have hmid : f.lbaMid.current = 0 := by
    rw [hf, he]
    rfl
  have hhigh : f.lbaHigh.current = 0 := by
    rw [hf, he]
    rfl
  have hinmid : f.inb ataLbaMidPort = (0, f) := by
    rw [← hmid]
    rfl
  have hinhigh : f.inb ataLbaHighPort = (0, f) := by
    rw [← hhigh]
    rfl
  have hcode : getDriveSelectCode ataDriveMaster = driveSelectMaster := rfl
  have hsend : sendIdentifyReq d (getDriveSelectCode ataDriveMaster) = e := by
    rw [he, hcode, sendIdentifyReq_eq h]
  -- the status has been read, and the other tests of it pass at once
  have hagain : checkBsy fuel (PioDrive.statusRdy ||| PioDrive.statusDrq) f
      = some (PioDrive.statusRdy ||| PioDrive.statusDrq, f) := if_pos (by decide)
  have hdrq : checkDrqErr fuel (PioDrive.statusRdy ||| PioDrive.statusDrq) f
      = some (PioDrive.statusRdy ||| PioDrive.statusDrq, f) := if_pos (by decide)
  refine ⟨words, { f with transfer := .idle }, ?_, ?_, ?_, ?_, ?_⟩
  · refine initIdentify_of_looks hsend hlook (by decide) hagain hinmid hinhigh hdrq (by decide) ?_
    rw [hsize]
    exact hload
  · rw [hwords 83 (by decide), if_pos (Nat.zero_le 83), hf, he]
    rfl
  · exact PioDrive.takes_of_idle (by rw [hf]) rfl
  · exact ⟨hmedium.bad, hmedium.identity, hmedium.delay⟩
  · exact hdisk

/-- `ata_init` finds out which commands the drive has. -/
theorem ataInit_attached (self : AtaDev) (h : d.takes = true) (hfuel : d.Answers fuel) :
    ∃ dev d', ataInit fuel self d = some (dev, d') ∧ Attached fuel dev d' ∧ d.SameMedium d' ∧
      d'.disk = d.disk ∧ dev.buffer = fun i => if i < 512 then 0 else self.buffer i := by
  obtain ⟨fresh, hfresh⟩ : ∃ fresh : AtaDev, fresh = {
    sectorSize := 512, totalSectors := 0, capacity := 0, features := 0
    buffer := fun i => if i < 512 then 0 else self.buffer i } := ⟨_, rfl⟩
  have hsize : fresh.sectorSize = 512 := by rw [hfresh]
  have hfeatures : fresh.features = 0 := by rw [hfresh]
  obtain ⟨words, d', hidentify, hword, htakes, hmedium, hdisk⟩ :=
    initIdentify_eq fresh hsize h hfuel
  refine ⟨detectPioMode fresh words, d', ?_, ?_, hmedium, hdisk, ?_⟩
  · have hinit : ataInit fuel self d = (initIdentify fuel fresh d ataDriveMaster).bind
        fun r => if r.1 = 0 then none else some r.2 := by
      rw [hfresh]
      rfl
    rw [hinit, hidentify, Option.bind_some]
    exact if_neg (show ¬ (1 : BitVec 32) = 0 by decide)
  · refine ⟨(detectPioMode_sectorSize fresh words).trans hsize, ?_, htakes,
      hfuel.of_sameMedium hmedium⟩
    have hbit : d.identity 83 % 65536 / 2 ^ 10 % 2 = d.identity 83 / 2 ^ 10 % 2 := by omega
    rw [detectPioMode_features fresh words hfeatures, hword, hbit]
    unfold PioDrive.has48
    rw [hmedium.identity]
  · rw [detectPioMode_buffer, hfresh]

/-- The sector that a transfer starts from, with what its command has room for -/
def firstSector (d : PioDrive) (lba : Nat) : Nat := if d.has48 then lba else lba % 2 ^ 28

/-- The number of its sectors -/
def sectorCount (d : PioDrive) (n : Nat) : Nat := if d.has48 then n % 2 ^ 16 else n % 2 ^ 8

theorem Attached.read_starts {lba n : Nat} (h : Attached fuel dev d) (hlba : lba < 2 ^ 48)
    (hcount : 0 < sectorCount d n) : ∃ e, d.SameMedium e ∧ e.disk = d.disk ∧
      ataReadPorts fuel dev d lba n = readSectors fuel (sectorCount d n) dev
        (e.startReading (firstSector d lba) (sectorCount d n)) := by
  unfold ataReadPorts
  cases h48 : d.has48 with
  | true =>
      have hsectors : sectorCount d n = n % 2 ^ 16 := if_pos h48
      have hfirst : firstSector d lba = lba := if_pos h48
      rw [hsectors] at hcount
      have hregister : (addressed48 d 0x40 lba (n % 2 ^ 16)).count48 = n % 2 ^ 16 :=
        (count48_addressed d 0x40 lba (Nat.mod_lt n (by decide))).trans (if_neg (by omega))
      refine ⟨_, sameMedium_addressed48 d 0x40 lba (n % 2 ^ 16), disk_addressed48 d _ _ _, ?_⟩
      rw [if_pos (h.pio48.mpr h48), hsectors, hfirst]
      exact readPio48_eq dev h.takes h48 hlba hregister
  | false =>
      have hno : ¬ d.has48 = true := by
        rw [h48]
        exact Bool.false_ne_true
      have hsectors : sectorCount d n = n % 2 ^ 8 := if_neg hno
      have hfirst : firstSector d lba = lba % 2 ^ 28 := if_neg hno
      rw [hsectors] at hcount
      have hregister : (addressed28 d lba (n % 2 ^ 8)).count28 = n % 2 ^ 8 :=
        (count28_addressed d lba (Nat.mod_lt n (by decide))).trans (if_neg (by omega))
      refine ⟨_, sameMedium_addressed28 d lba (n % 2 ^ 8), disk_addressed28 d _ _, ?_⟩
      rw [if_neg (mt h.pio48.mp hno), hsectors, hfirst]
      exact readPio28_eq dev h.takes hregister

/-- Without sectors the drive is told to take all that the command has room for. -/
theorem Attached.write_starts {lba : Nat} (h : Attached fuel dev d) (hlba : lba < 2 ^ 48)
    (n : Nat) (buffer : Mem) : ∃ e count, d.SameMedium e ∧ e.disk = d.disk ∧
      (0 < sectorCount d n → count = sectorCount d n) ∧
      ∀ fuel', ataWritePorts fuel' dev d lba n buffer
        = (writeSectors fuel' (sectorCount d n)
            (e.startWriting (firstSector d lba) count) buffer).bind
          fun d => (waitIdle fuel' (d.outb ataCommandPort ataCmdCacheFlush)).bind
            fun r => some (0, r.2) := by
  unfold ataWritePorts
  cases h48 : d.has48 with
  | true =>
      have hsectors : sectorCount d n = n % 2 ^ 16 := if_pos h48
      have hfirst : firstSector d lba = lba := if_pos h48
      -- the drive takes a count of 0 for 65536
      have hregister := count48_addressed d 0xE0 lba (Nat.mod_lt n (show 0 < 65536 by decide))
      refine ⟨addressed48 d 0xE0 lba (n % 2 ^ 16), (addressed48 d 0xE0 lba (n % 2 ^ 16)).count48,
        sameMedium_addressed48 d _ _ _, disk_addressed48 d _ _ _, ?_, fun fuel' => ?_⟩
      · rw [hsectors]
        exact fun hpos => hregister.trans (if_neg (by omega))
      · rw [if_pos (h.pio48.mpr h48), hsectors, hfirst]
        exact writePio48_eq buffer h.takes h48 hlba rfl
  | false =>
      have hno : ¬ d.has48 = true := by
        rw [h48]
        exact Bool.false_ne_true
      have hsectors : sectorCount d n = n % 2 ^ 8 := if_neg hno
      have hfirst : firstSector d lba = lba % 2 ^ 28 := if_neg hno
      -- and here for 256
      have hregister := count28_addressed d lba (Nat.mod_lt n (show 0 < 256 by decide))
      refine ⟨addressed28 d lba (n % 2 ^ 8), (addressed28 d lba (n % 2 ^ 8)).count28,
        sameMedium_addressed28 d _ _, disk_addressed28 d _ _, ?_, fun fuel' => ?_⟩
      · rw [hsectors]
        exact fun hpos => hregister.trans (if_neg (by omega))
      · rw [if_neg (mt h.pio48.mp hno), hsectors, hfirst]
        exact writePio28_eq buffer h.takes rfl

end Attached

end Icarius
