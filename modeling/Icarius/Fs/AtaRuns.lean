/-
  Icarius.Fs.AtaRuns

  What the driver of `Icarius.Fs.AtaPorts` comes to.  A transfer of several sectors: each one
  that is read takes the place of the one before it in the buffer, and a write that meets an
  error waits for ever, unless the error is in its last sector and is not noticed at all.

  The streams of `src/x86/fs/stream.c` move one sector at a time.  From `ata_init` on, whatever
  the latencies of the drive are and whether it has 48-bit commands or not, every sequence of
  seeks, reads and writes has the results, and leaves the disk, that it has on the device of
  `Icarius.Fs.Stream`, which the file system is modelled on.
-/

import Icarius.Fs.AtaPorts

namespace Icarius

open Icarius.Lib

/-- A drive with 48-bit commands that looks at each command twice, and cannot read sector 3 -/
def driveWithBadSector : PioDrive where
  disk := fun x => UInt8.ofNat x
  bad := fun b => b == 3
  identity := fun word => if word = 83 then 2 ^ 10 else 0
  delay := fun _ => 2
  waits := 0
  busy := 0
  control := 0
  count := ⟨0, 0⟩
  lbaLow := ⟨0, 0⟩
  lbaMid := ⟨0, 0⟩
  lbaHigh := ⟨0, 0⟩
  transfer := .idle

/-- `ata_dev`, and the bytes behind it -/
def ataDevWith48 : AtaDev where
  sectorSize := 512
  totalSectors := 0
  capacity := 0
  buffer := fun _ => 0
  features := 2

theorem answers_driveWithBadSector : driveWithBadSector.Answers 3 := by
  intro k
  show 2 < 3
  omega

theorem attached_driveWithBadSector : Attached 3 ataDevWith48 driveWithBadSector where
  sectorSize := rfl
  pio48 := by decide
  takes := rfl
  answers := answers_driveWithBadSector

/-! ## Transfers -/

section Transfers

variable {fuel : Nat} {dev : AtaDev} {d : PioDrive} {lba n : Nat}

theorem ReadEnd.of_sameMedium {e d' : PioDrive} {dev' : AtaDev} {k : Nat} {res : BitVec 32}
    (h : ReadEnd dev e lba n k res dev' d') (hmedium : d.SameMedium e) (hdisk : e.disk = d.disk) :
    ReadEnd dev d lba n k res dev' d' where
  le := h.le
  good := fun i hi => by
    rw [← hmedium.bad]
    exact h.good i hi
  stop := fun hk => by
    rw [← hmedium.bad]
    exact h.stop hk
  result := h.result
  buffer := by rw [h.buffer, hdisk]
  takes := h.takes
  medium := hmedium.trans h.medium
  disk := h.disk.trans hdisk

/-- A read of at least a sector stops at the first bad one, and of the sectors before it only
    the last one is in the buffer. -/
theorem read_ends (h : Attached fuel dev d) (hlba : lba < 2 ^ 48)
    (hcount : 0 < sectorCount d n) : ∃ k res dev' d',
      ataReadPorts fuel dev d lba n = some (res, dev', d') ∧
        ReadEnd dev d (firstSector d lba) (sectorCount d n) k res dev' d' := by
  obtain ⟨e, hmedium, hdisk, hread⟩ := h.read_starts hlba hcount
  obtain ⟨m, hm⟩ : ∃ m, sectorCount d n = m + 1 := ⟨sectorCount d n - 1, by omega⟩
  rw [hread, hm]
  obtain ⟨k, res, dev', d', hend, hspec⟩ := @readSectors_spec e fuel (firstSector d lba) m dev
    h.sectorSize (h.answers.of_sameMedium hmedium)
  exact ⟨k, res, dev', d', hend, hspec.of_sameMedium hmedium hdisk⟩

theorem written_congr {e : PioDrive} (hmedium : d.SameMedium e) (hdisk : e.disk = d.disk)
    (lba n : Nat) (buffer : Mem) : written e lba n buffer = written d lba n buffer := by
  unfold written
  rw [hmedium.bad, hdisk]

/-- A write without sectors: the drive is told to take some all the same. -/
theorem write_none (h : Attached fuel dev d) (hlba : lba < 2 ^ 48) (buffer : Mem)
    (hzero : sectorCount d n = 0) : ∃ d' sectors,
      ataWritePorts fuel dev d lba n buffer = some (0, d') ∧ d'.disk = d.disk ∧
        d'.takes = false ∧ d'.transfer = .writing (firstSector d lba) sectors 0 fun _ => 0 := by
  obtain ⟨e, count, hmedium, hdisk, -, hwrite⟩ := h.write_starts hlba n buffer
  have hfuel := h.answers.of_sameMedium hmedium
  obtain ⟨f, hf⟩ : ∃ f, f = e.startWriting (firstSector d lba) count := ⟨_, rfl⟩
  have htransfer : ∀ b, ({ f with busy := b } : PioDrive).transfer
      = .writing (firstSector d lba) count 0 fun _ => 0 := by
    intro b
    rw [hf]
    rfl
  have hbusy : f.busy < fuel := by
    rw [hf]
    exact hfuel e.waits
  have htakes : ∀ b, ({ f with busy := b } : PioDrive).takes = false := by
    intro b
    unfold PioDrive.takes
    rw [htransfer b]
  -- a drive that waits for data takes no command, but it is not busy for ever
  have hflush : f.outb ataCommandPort ataCmdCacheFlush = f :=
    PioDrive.outb_ignored (htakes f.busy) _ _
  have hwait : waitIdle fuel f = some ((), { f with busy := 0 }) := by
    have hstatus : ({ f with busy := 0 } : PioDrive).status
        = PioDrive.statusRdy ||| PioDrive.statusDrq := PioDrive.status_writing rfl (htransfer 0)
    refine PioDrive.poll_eq hbusy (by decide) ?_
    rw [hstatus]
    decide
  refine ⟨{ f with busy := 0 }, count, ?_, ?_, htakes 0, htransfer 0⟩
  · rw [hwrite fuel, hzero, ← hf]
    show (waitIdle fuel (f.outb ataCommandPort ataCmdCacheFlush)).bind _ = _
    rw [hflush, hwait]
    rfl
  · rw [← hdisk, hf]
    rfl

/-- A write that meets no error, unless it is in the last sector -/
theorem write_done (h : Attached fuel dev d) (hlba : lba < 2 ^ 48) (buffer : Mem)
    (hpos : 0 < sectorCount d n)
    (hgood : ∀ i < sectorCount d n - 1, d.bad (firstSector d lba + i) = false) :
    ∃ d', ataWritePorts fuel dev d lba n buffer = some (0, d') ∧ Attached fuel dev d' ∧
      d.SameMedium d' ∧ d'.disk = written d (firstSector d lba) (sectorCount d n) buffer := by
  obtain ⟨e, count, hmedium, hdisk, hasked, hwrite⟩ := h.write_starts hlba n buffer
  have hfuel := h.answers.of_sameMedium hmedium
  obtain ⟨m, hm⟩ : ∃ m, sectorCount d n = m + 1 := ⟨sectorCount d n - 1, by omega⟩
  rw [hwrite fuel, hasked hpos, hm]
  rw [hm, Nat.add_sub_cancel] at hgood
  obtain ⟨d₁, hsectors, hdone, hmedium₁, hdisk₁⟩ := writeSectors_spec hfuel buffer
    (show ∀ i < m, e.bad (firstSector d lba + i) = false by rwa [hmedium.bad])
  obtain ⟨d₂, hflush, htakes, hmedium₂, hdisk₂⟩ :=
    flush_spec (hfuel.of_sameMedium hmedium₁) hdone
  have hsame := (hmedium.trans hmedium₁).trans hmedium₂
  refine ⟨d₂, ?_, h.of_sameMedium hsame htakes rfl rfl, hsame, ?_⟩
  · rw [hsectors, Option.bind_some, hflush]
    rfl
  · rw [hdisk₂, hdisk₁, written_congr hmedium hdisk]

/-- A write that meets an error in another sector than the last one -/
theorem write_stuck (h : Attached fuel dev d) (hlba : lba < 2 ^ 48) (buffer : Mem) {i : Nat}
    (hi : i < sectorCount d n - 1) (hbad : d.bad (firstSector d lba + i) = true) (fuel' : Nat) :
    ataWritePorts fuel' dev d lba n buffer = none := by
  obtain ⟨e, count, hmedium, -, hasked, hwrite⟩ := h.write_starts hlba n buffer
  obtain ⟨m, hm⟩ : ∃ m, sectorCount d n = m + 1 := ⟨sectorCount d n - 1, by omega⟩
  have hstuck : writeSectors fuel' (m + 1) (e.startWriting (firstSector d lba) (m + 1)) buffer
      = none :=
    writeSectors_stuck fuel' buffer (show i < m by omega) (by rw [hmedium.bad]; exact hbad)
  rw [hwrite fuel', hasked (by omega), hm, hstuck]
  rfl

/-- What becomes of a write, whatever the number of sectors is: without any the drive is left
    waiting for data, which looks like success; an error in the last sector is not noticed; and
    after one in another sector the call never returns. -/
theorem ata_write_outcome (h : Attached fuel dev d) (hlba : lba < 2 ^ 48) (n : Nat)
    (buffer : Mem) :
    (sectorCount d n = 0 → ∃ d' sectors,
      ataWritePorts fuel dev d lba n buffer = some (0, d') ∧ d'.disk = d.disk ∧
        d'.takes = false ∧ d'.transfer = .writing (firstSector d lba) sectors 0 fun _ => 0) ∧
    (0 < sectorCount d n →
      (∀ i < sectorCount d n - 1, d.bad (firstSector d lba + i) = false) →
      ∃ d', ataWritePorts fuel dev d lba n buffer = some (0, d') ∧ Attached fuel dev d' ∧
        d'.disk = written d (firstSector d lba) (sectorCount d n) buffer) ∧
    ∀ i < sectorCount d n - 1, d.bad (firstSector d lba + i) = true →
      ∀ fuel', ataWritePorts fuel' dev d lba n buffer = none := by
  refine ⟨write_none h hlba buffer, fun hpos hgood => ?_, fun i hi hbad fuel' => ?_⟩
  · obtain ⟨d', hwrite, hattached, -, hdisk⟩ := write_done h hlba buffer hpos hgood
    exact ⟨d', hwrite, hattached, hdisk⟩
  · exact write_stuck h hlba buffer hi hbad fuel'

/-- Two sectors, of which the first one is bad -/
theorem ata_write_outcome_bad :
    0 < sectorCount driveWithBadSector 2 - 1 ∧
      driveWithBadSector.bad (firstSector driveWithBadSector 3 + 0) = true ∧
      ∀ fuel', ataWritePorts fuel' ataDevWith48 driveWithBadSector 3 2 (fun _ => 1) = none := by
  have hlba : 3 < 2 ^ 48 := by omega
  have hcount : 0 < sectorCount driveWithBadSector 2 - 1 := by decide
  have hbad : driveWithBadSector.bad (firstSector driveWithBadSector 3 + 0) = true := by decide
  refine ⟨hcount, hbad, ?_⟩
  exact (ata_write_outcome attached_driveWithBadSector hlba 2 fun _ => 1).2.2 0 hcount hbad

end Transfers

/-! ## Streams on the ports -/

/-- The loop of `stream_read` -/
def streamReadPorts (fuel blockSize : Nat) : Nat → Stream → AtaDev → PioDrive → Nat →
    Option (StreamReading × AtaDev × PioDrive)
  | 0, self, dev, d, _ => some (⟨0, [], [], self⟩, dev, d)
  | rounds + 1, self, dev, d, remainingBytes =>
      if remainingBytes = 0 then some (⟨0, [], [], self⟩, dev, d)
      else do
        let lbaBlock := self.pos / blockSize
        let offset := self.pos % blockSize
        let (result, dev, d) ← ataReadPorts fuel dev d lbaBlock 1
        if result.toInt < 0 then some (⟨-eio, [], [], self⟩, dev, d)
        else
          let readSize := if remainingBytes > blockSize then blockSize else remainingBytes
          let cells := (List.range readSize).map fun i => offset + i
          let bytes := cells.map dev.buffer
          let (rest, dev, d) ← streamReadPorts fuel blockSize rounds
            ⟨(self.pos + readSize) % 2 ^ 32⟩ dev d (remainingBytes - readSize)
          some (⟨rest.result, bytes ++ rest.bytes, cells ++ rest.cells, rest.stream⟩, dev, d)

/-- The loop of `stream_write` -/
def streamWritePorts (fuel blockSize : Nat) : Nat → Stream → AtaDev → PioDrive → List UInt8 →
    Option (BitVec 32 × Stream × AtaDev × PioDrive)
  | 0, self, dev, d, _ => some (0, self, dev, d)
  | rounds + 1, self, dev, d, bytes =>
      if bytes = [] then some (0, self, dev, d)
      else do
        let lbaBlock := self.pos / blockSize
        let offset := self.pos % blockSize
        let (result, dev, d) ← ataReadPorts fuel dev d lbaBlock 1
        if result.toInt < 0 then some (-eio, self, dev, d)
        else
          let writeSize := if bytes.length > blockSize then blockSize else bytes.length
          let dev := { dev with buffer := dev.buffer.write offset (bytes.take writeSize) }
          let (result, d) ← ataWritePorts fuel dev d lbaBlock 1 dev.buffer
          if result.toInt < 0 then some (-eio, self, dev, d)
          else
            streamWritePorts fuel blockSize rounds ⟨(self.pos + writeSize) % 2 ^ 32⟩ dev d
              (bytes.drop writeSize)

/-- The driver and its drive do what the device does. -/
structure Implements (fuel : Nat) (dev : AtaDev) (d : PioDrive) (model : Ata) : Prop
    extends Attached fuel dev d where
  disk : model.disk = d.disk
  behind : ∀ i, 512 ≤ i → model.behind i = dev.buffer i

section Streams

variable {fuel : Nat} {dev : AtaDev} {d : PioDrive} {model : Ata}

/-- Of one sector, at an address that every command has room for -/
theorem firstSector_of_lt {lba : Nat} (hlba : lba < 2 ^ 28) : firstSector d lba = lba := by
  unfold firstSector
  rw [Nat.mod_eq_of_lt hlba, ite_self]

theorem sectorCount_one (d : PioDrive) : sectorCount d 1 = 1 := by
  unfold sectorCount
  exact ite_self 1

/-- A single sector is read if it can be. -/
theorem ReadEnd.eq_of_one {lba k : Nat} {res : BitVec 32} {dev' : AtaDev} {d' : PioDrive}
    (h : ReadEnd dev d lba 1 k res dev' d') : k = if d.bad lba then 0 else 1 := by
  have hle := h.le
  by_cases hzero : k = 0
  · subst hzero
    have hstop := h.stop Nat.one_pos
    rw [Nat.add_zero] at hstop
    rw [if_pos hstop]
  · have hgood := h.good 0 (Nat.pos_of_ne_zero hzero)
    rw [Nat.add_zero] at hgood
    rw [hgood, if_neg Bool.false_ne_true]
    omega

/-- A sector that is read -/
theorem Implements.read {lba : Nat} (h : Implements fuel dev d model) (hlba : lba < 2 ^ 28) :
    ∃ dev' d', ataReadPorts fuel dev d lba 1
        = some (if d.bad lba then -eio else 0, dev', d') ∧
      Implements fuel dev' d' model ∧ d.SameMedium d' ∧
      (d.bad lba = false → dev'.buffer = ataRead model lba) := by
  obtain ⟨k, res, dev', d', hread, hend⟩ := read_ends (n := 1) h.toAttached
    (show lba < 2 ^ 48 by omega) (by rw [sectorCount_one]; exact Nat.one_pos)
  rw [firstSector_of_lt hlba, sectorCount_one] at hend
  have hk := hend.eq_of_one
  have hsize : dev'.sectorSize = dev.sectorSize := by rw [hend.buffer]
  have hfeatures : dev'.features = dev.features := by rw [hend.buffer]
  have himplements : Implements fuel dev' d' model := {
    toAttached := h.toAttached.of_sameMedium hend.medium hend.takes hsize hfeatures
    disk := h.disk.trans hend.disk.symm
    behind := fun i hi => by
      rw [h.behind i hi, hend.buffer]
      exact (if_neg fun hlt => absurd hlt.2 (Nat.not_lt.mpr hi)).symm }
  refine ⟨dev', d', ?_, himplements, hend.medium, fun hgood => ?_⟩
  · rw [hread, hend.result, hk]
    cases hbad : d.bad lba with
    | true => rfl
    | false => rfl
  · -- the buffer is the sector, and behind it what the model has there
    obtain rfl : k = 1 := by rw [hk, hgood, if_neg Bool.false_ne_true]
    funext i
    rw [hend.buffer]
    unfold ataRead
    dsimp only
    by_cases hi : i < 512
    · rw [if_pos ⟨Nat.one_pos, hi⟩, if_pos hi, h.disk]
      rfl
    · rw [if_neg fun hlt => hi hlt.2, if_neg hi, h.behind i (Nat.le_of_not_lt hi)]

/-- A sector that has been read and is written back -/
theorem Implements.write {lba : Nat} (h : Implements fuel dev d model) (hlba : lba < 2 ^ 28)
    (hgood : d.bad lba = false) (buffer : Mem) :
    ∃ d', ataWritePorts fuel { dev with buffer := buffer } d lba 1 buffer = some (0, d') ∧
      Implements fuel { dev with buffer := buffer } d' (ataWrite model lba buffer) ∧
      d.SameMedium d' := by
  have hattached : Attached fuel { dev with buffer := buffer } d :=
    ⟨h.sectorSize, h.pio48, h.takes, h.answers⟩
  obtain ⟨d', hwrite, hattached', hmedium, hdisk⟩ := write_done (n := 1) hattached
    (show lba < 2 ^ 48 by omega) buffer (by rw [sectorCount_one]; exact Nat.one_pos) (by
      rw [sectorCount_one]
      exact fun i hi => absurd hi (Nat.not_lt_zero i))
  refine ⟨d', hwrite, ⟨hattached', ?_, ?_⟩, hmedium⟩
  · rw [hdisk, firstSector_of_lt hlba, sectorCount_one, written_one, if_pos hgood]
    unfold ataWrite PioDrive.storeSector nextSector
    funext x
    dsimp only
    by_cases hx : x / 512 = lba
    · rw [if_pos hx, if_pos hx, if_pos ⟨Nat.zero_le _, Nat.mod_lt x (by decide)⟩, Nat.zero_add]
    · rw [if_neg hx, if_neg hx, h.disk]
  · intro i hi
    exact if_neg (Nat.not_lt.mpr hi)

/-- How the results of the driver are tested -/
theorem eio_negative : (-eio).toInt < 0 := by decide

theorem zero_not_negative : ¬ (0 : BitVec 32).toInt < 0 := by decide

theorem not_false_ne_false : ¬ (!false) = false := by decide

theorem streamReadPorts_eq (rounds : Nat) (n : Nat) {pos : Nat}
    (h : Implements fuel dev d model) (hpos : pos < 2 ^ 32) :
    ∃ dev' d', streamReadPorts fuel 512 rounds ⟨pos⟩ dev d n
        = some (streamReadRounds (fun b => !d.bad b) model rounds ⟨pos⟩ n, dev', d') ∧
      Implements fuel dev' d' model ∧ d.SameMedium d' := by
  induction rounds generalizing pos n dev d with
  | zero => exact ⟨dev, d, rfl, h, .refl d⟩
  | succ rounds ih =>
      unfold streamReadPorts streamReadRounds
      by_cases hn : n = 0
      · rw [if_pos hn, if_pos hn]
        exact ⟨dev, d, rfl, h, .refl d⟩
      · rw [if_neg hn, if_neg hn]
        obtain ⟨dev₁, d₁, hread, h₁, hmedium, hbuffer⟩ :=
          h.read (show pos / 512 < 2 ^ 28 by omega)
        dsimp only
        rw [hread, Option.bind_eq_bind, Option.bind_some]
        dsimp only
        cases hbad : d.bad (pos / 512) with
        | true =>
            -- both give up, and the model's device is as it was
            rw [if_pos rfl, if_pos eio_negative, if_pos Bool.not_true]
            exact ⟨dev₁, d₁, rfl, h₁, hmedium⟩
        | false =>
            obtain ⟨size, hsize⟩ : ∃ size, size = if n > 512 then 512 else n := ⟨_, rfl⟩
            obtain ⟨dev₂, d₂, hrest, h₂, hmedium₂⟩ :=
              ih (n - size) h₁ (Nat.mod_lt (pos + size) (show 0 < 2 ^ 32 by decide))
            rw [hmedium.bad] at hrest
            rw [if_neg Bool.false_ne_true, if_neg zero_not_negative, if_neg not_false_ne_false,
              ← hsize, hrest, hbuffer hbad]
            exact ⟨dev₂, d₂, rfl, h₂, hmedium.trans hmedium₂⟩

theorem streamWritePorts_eq (rounds : Nat) (bytes : List UInt8) {pos : Nat}
    (h : Implements fuel dev d model) (hpos : pos < 2 ^ 32) :
    ∃ dev' d',
      let call := streamWriteRounds (fun b => !d.bad b) (fun _ => true) rounds ⟨pos⟩ model bytes
      streamWritePorts fuel 512 rounds ⟨pos⟩ dev d bytes
        = some (call.result, call.stream, dev', d') ∧
      Implements fuel dev' d' call.dev ∧ d.SameMedium d' := by
  induction rounds generalizing pos bytes dev d model with
  | zero => exact ⟨dev, d, rfl, h, .refl d⟩
  | succ rounds ih =>
      unfold streamWritePorts streamWriteRounds
      by_cases hn : bytes = []
      · rw [if_pos hn, if_pos hn]
        exact ⟨dev, d, rfl, h, .refl d⟩
      · rw [if_neg hn, if_neg hn]
        obtain ⟨dev₁, d₁, hread, h₁, hmedium, hbuffer⟩ :=
          h.read (show pos / 512 < 2 ^ 28 by omega)
        dsimp only
        rw [hread, Option.bind_eq_bind, Option.bind_some]
        dsimp only
        cases hbad : d.bad (pos / 512) with
        | true =>
            rw [if_pos rfl, if_pos eio_negative, if_pos Bool.not_true]
            exact ⟨dev₁, d₁, rfl, h₁, hmedium⟩
        | false =>
            have hbad₁ : d₁.bad (pos / 512) = false := by
              rw [hmedium.bad]
              exact hbad
            obtain ⟨size, hsize⟩ : ∃ size, size = if bytes.length > 512 then 512
              else bytes.length := ⟨_, rfl⟩
            obtain ⟨d₂, hwrite, h₂, hmedium₂⟩ := h₁.write (show pos / 512 < 2 ^ 28 by omega)
              hbad₁ ((ataRead model (pos / 512)).write (pos % 512) (bytes.take size))
            obtain ⟨dev₃, d₃, hrest, h₃, hmedium₃⟩ := ih (bytes.drop size) h₂
              (Nat.mod_lt (pos + size) (show 0 < 2 ^ 32 by decide))
            rw [(hmedium.trans hmedium₂).bad] at hrest h₃
            rw [if_neg Bool.false_ne_true, if_neg zero_not_negative, if_neg not_false_ne_false,
              ← hsize, hbuffer hbad, hwrite, Option.bind_eq_bind, Option.bind_some]
            dsimp only
            rw [if_neg zero_not_negative, if_neg (Ne.symm Bool.false_ne_true), hrest]
            exact ⟨dev₃, d₃, rfl, h₃, (hmedium.trans hmedium₂).trans hmedium₃⟩

end Streams

/-! ## Runs -/

/-- What the file system does with its streams, which all belong to the one device -/
inductive StreamOp where
  /-- `stream_init` -/
  | init (stream : Nat)
  /-- `stream_seek` -/
  | seek (stream pos : Nat)
  /-- `stream_read`, with a buffer or a null pointer -/
  | read (stream : Nat) (buffer : Bool) (nBytes : Nat)
  /-- `stream_write` -/
  | write (stream : Nat) (buffer : Bool) (bytes : List UInt8)

/-- The result of an operation, and the bytes that it reads -/
abbrev StreamOutcome := BitVec 32 × List UInt8

abbrev Streams := Nat → Stream

def Streams.set (streams : Streams) (s : Nat) (self : Stream) : Streams :=
  fun s' => if s' = s then self else streams s'

/-- An operation on the device of `Icarius.Fs.Stream` -/
def StreamOp.onDevice (readable : Nat → Bool) (streams : Streams) (dev : Ata) :
    StreamOp → StreamOutcome × Streams × Ata
  | .init s => ((0, []), streams.set s {}, dev)
  | .seek s pos => ((0, []), streams.set s (streamSeek (streams s) pos), dev)
  | .read s buffer nBytes =>
      let call := streamReadCall readable (streams s) dev buffer nBytes
      ((call.result, call.bytes), streams.set s call.stream, dev)
  | .write s buffer bytes =>
      let call := streamWriteCall readable (fun _ => true) (streams s) dev buffer bytes
      ((call.result, []), streams.set s call.stream, call.dev)

/-- The same on the ports -/
def StreamOp.onPorts (fuel : Nat) (streams : Streams) (dev : AtaDev) (d : PioDrive) :
    StreamOp → Option (StreamOutcome × Streams × AtaDev × PioDrive)
  | .init s => some ((0, []), streams.set s {}, dev, d)
  | .seek s pos => some ((0, []), streams.set s (streamSeek (streams s) pos), dev, d)
  | .read s buffer nBytes =>
      if buffer = false then some ((-einval, []), streams.set s (streams s), dev, d)
      else do
        let (call, dev, d) ←
          streamReadPorts fuel dev.sectorSize nBytes (streams s) dev d nBytes
        some ((call.result, call.bytes), streams.set s call.stream, dev, d)
  | .write s buffer bytes =>
      if buffer = false then some ((-einval, []), streams.set s (streams s), dev, d)
      else do
        let (result, self, dev, d) ←
          streamWritePorts fuel dev.sectorSize bytes.length (streams s) dev d bytes
        some ((result, []), streams.set s self, dev, d)

/-- All of the operations, and what they come to one by one -/
def runOnDevice (readable : Nat → Bool) :
    List StreamOp → Streams → Ata → List StreamOutcome × Streams × Ata
  | [], streams, dev => ([], streams, dev)
  | op :: ops, streams, dev =>
      let (outcome, streams, dev) := op.onDevice readable streams dev
      let (outcomes, last) := runOnDevice readable ops streams dev
      (outcome :: outcomes, last)

def runOnPorts (fuel : Nat) : List StreamOp → Streams → AtaDev → PioDrive →
    Option (List StreamOutcome × Streams × AtaDev × PioDrive)
  | [], streams, dev, d => some ([], streams, dev, d)
  | op :: ops, streams, dev, d => do
      let (outcome, streams, dev, d) ← op.onPorts fuel streams dev d
      let (outcomes, last) ← runOnPorts fuel ops streams dev d
      some (outcome :: outcomes, last)

section Runs

variable {fuel : Nat} {dev : AtaDev} {d : PioDrive} {model : Ata} {streams : Streams}

/-- Positions are `size_t`. -/
def Streams.Valid (streams : Streams) : Prop := ∀ s, (streams s).pos < 2 ^ 32

theorem Streams.Valid.set (h : streams.Valid) {s : Nat} {self : Stream}
    (hself : self.pos < 2 ^ 32) : (streams.set s self).Valid := by
  intro s'
  unfold Streams.set
  by_cases hs : s' = s
  · rw [if_pos hs]
    exact hself
  · rw [if_neg hs]
    exact h s'

theorem streamReadRounds_pos (readable : Nat → Bool) (dev : Ata) (rounds n : Nat) {pos : Nat}
    (hpos : pos < 2 ^ 32) :
    (streamReadRounds readable dev rounds ⟨pos⟩ n).stream.pos < 2 ^ 32 := by
  induction rounds generalizing pos n with
  | zero => exact hpos
  | succ rounds ih =>
      unfold streamReadRounds
      dsimp only
      split
      · exact hpos
      · split
        · exact hpos
        · exact ih _ (Nat.mod_lt _ (by decide))

theorem streamWriteRounds_pos (readable writable : Nat → Bool) (dev : Ata) (rounds : Nat)
    (bytes : List UInt8) {pos : Nat} (hpos : pos < 2 ^ 32) :
    (streamWriteRounds readable writable rounds ⟨pos⟩ dev bytes).stream.pos < 2 ^ 32 := by
  induction rounds generalizing pos bytes dev with
  | zero => exact hpos
  | succ rounds ih =>
      unfold streamWriteRounds
      dsimp only
      split
      · exact hpos
      · split
        · exact hpos
        · split
          · exact hpos
          · exact ih _ _ (Nat.mod_lt _ (by decide))

/-- One operation does the same on both of them. -/
theorem StreamOp.onPorts_eq (op : StreamOp) (h : Implements fuel dev d model)
    (hvalid : streams.Valid) : ∃ dev' d',
      let after := op.onDevice (fun b => !d.bad b) streams model
      op.onPorts fuel streams dev d = some (after.1, after.2.1, dev', d') ∧
        Implements fuel dev' d' after.2.2 ∧ d.SameMedium d' ∧ after.2.1.Valid := by
  cases op with
  | init s =>
      exact ⟨dev, d, rfl, h, .refl d, hvalid.set (show 0 < 2 ^ 32 by decide)⟩
  | seek s pos =>
      exact ⟨dev, d, rfl, h, .refl d, hvalid.set (Nat.mod_lt pos (by decide))⟩
  | read s buffer nBytes =>
      unfold StreamOp.onPorts StreamOp.onDevice streamReadCall
      cases buffer with
      | false => exact ⟨dev, d, rfl, h, .refl d, hvalid.set (hvalid s)⟩
      | true =>
          obtain ⟨dev', d', hread, himplements, hmedium⟩ :=
            streamReadPorts_eq nBytes nBytes h (hvalid s)
          refine ⟨dev', d', ?_, himplements, hmedium,
            hvalid.set (streamReadRounds_pos _ _ _ _ (hvalid s))⟩
          dsimp only
          rw [if_neg (Ne.symm Bool.false_ne_true), if_neg (Ne.symm Bool.false_ne_true),
            h.sectorSize, hread]
          rfl
  | write s buffer bytes =>
      unfold StreamOp.onPorts StreamOp.onDevice streamWriteCall
      cases buffer with
      | false => exact ⟨dev, d, rfl, h, .refl d, hvalid.set (hvalid s)⟩
      | true =>
          obtain ⟨dev', d', hwrite, himplements, hmedium⟩ :=
            streamWritePorts_eq bytes.length bytes h (hvalid s)
          refine ⟨dev', d', ?_, himplements, hmedium,
            hvalid.set (streamWriteRounds_pos _ _ _ _ _ (hvalid s))⟩
          dsimp only
          rw [if_neg (Ne.symm Bool.false_ne_true), if_neg (Ne.symm Bool.false_ne_true),
            h.sectorSize, hwrite]
          rfl

/-- And so does a run. -/
theorem runOnPorts_eq (ops : List StreamOp) (h : Implements fuel dev d model)
    (hvalid : streams.Valid) : ∃ dev' d',
      let after := runOnDevice (fun b => !d.bad b) ops streams model
      runOnPorts fuel ops streams dev d = some (after.1, after.2.1, dev', d') ∧
        Implements fuel dev' d' after.2.2 := by
  induction ops generalizing dev d model streams with
  | nil => exact ⟨dev, d, rfl, h⟩
  | cons op ops ih =>
      obtain ⟨dev₁, d₁, hop, h₁, hmedium, hvalid₁⟩ := op.onPorts_eq h hvalid
      obtain ⟨dev₂, d₂, hops, h₂⟩ := ih h₁ hvalid₁
      rw [hmedium.bad] at hops h₂
      refine ⟨dev₂, d₂, ?_, h₂⟩
      unfold runOnPorts runOnDevice
      rw [hop, Option.bind_eq_bind, Option.bind_some]
      dsimp only
      rw [hops]
      rfl

/-- From `ata_init` on, every sequence of operations has the results that it has on the device,
    and comes to its end with the same streams and the same disk; the sectors that cannot be
    read are the bad ones of the drive. -/
theorem streams_on_ports (self : AtaDev) (htakes : d.takes = true) (hfuel : d.Answers fuel)
    (hvalid : streams.Valid) (ops : List StreamOp) :
    ∃ dev d₀, ataInit fuel self d = some (dev, d₀) ∧
      let after := runOnDevice (fun b => !d.bad b) ops streams ⟨d.disk, dev.buffer⟩
      ∃ dev' d', runOnPorts fuel ops streams dev d₀ = some (after.1, after.2.1, dev', d') ∧
        d'.disk = after.2.2.disk ∧ d'.takes = true := by
  obtain ⟨dev, d₀, hinit, hattached, hmedium, hdisk, -⟩ := ataInit_attached self htakes hfuel
  have himplements : Implements fuel dev d₀ ⟨d.disk, dev.buffer⟩ :=
    ⟨hattached, hdisk.symm, fun _ _ => rfl⟩
  obtain ⟨dev', d', hrun, hend⟩ := runOnPorts_eq ops himplements hvalid
  rw [hmedium.bad] at hrun hend
  exact ⟨dev, d₀, hinit, dev', d', hrun, hend.disk.symm, hend.takes⟩

/-- Some bytes are written, and read again. -/
theorem streams_on_ports_bytes : ∃ dev d₀,
    ataInit 3 ataDevWith48 driveWithBadSector = some (dev, d₀) ∧
      let after := runOnDevice (fun b => !driveWithBadSector.bad b)
        [.seek 0 700, .write 0 true [1, 2, 3], .seek 1 700, .read 1 true 3] (fun _ => {})
        ⟨driveWithBadSector.disk, dev.buffer⟩
      ∃ dev' d', runOnPorts 3
          [.seek 0 700, .write 0 true [1, 2, 3], .seek 1 700, .read 1 true 3] (fun _ => {}) dev d₀
          = some (after.1, after.2.1, dev', d') ∧
        d'.disk = after.2.2.disk ∧ d'.takes = true := by
  have hvalid : Streams.Valid fun _ => {} := by
    intro s
    show 0 < 2 ^ 32
    omega
  have htakes : driveWithBadSector.takes = true := rfl
  exact streams_on_ports ataDevWith48 htakes answers_driveWithBadSector hvalid _

end Runs

end Icarius
