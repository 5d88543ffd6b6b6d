/-
  Icarius.Fs.Stream

  The ATA device of `src/x86/driver/ata.c`, as far as the byte streams of
  `src/x86/fs/stream.c` use it, and these streams.  A sector is read into the
  512 bytes of `buffer`; a stream copies from there, also past their end.

  Every use of a stream in the FAT16 driver seeks first, so the proofs are about a
  stream sought to a position (`readAt`, `writeAt`).
-/

import Mathlib.Data.List.Basic
import Icarius.Lib.Bytes

namespace Icarius

open Icarius.Lib

/-! ## The device -/

/-- `ata_t`: the bytes of the device, and what lies behind `buffer` in memory, by its
    distance from the start of `buffer`.  All of its sectors can be read and written. -/
structure Ata where
  disk : Mem
  behind : Mem

/-- `buffer` after `ata_read` of one sector, and what lies behind it -/
def ataRead (self : Ata) (startBlock : Nat) : Mem :=
  fun i => if i < 512 then self.disk (startBlock * 512 + i) else self.behind i

/-- `ata_write` of one sector from `buffer`, with what lies behind it -/
def ataWrite (self : Ata) (startBlock : Nat) (buffer : Mem) : Ata where
  disk := fun x => if x / 512 = startBlock then buffer (x % 512) else self.disk x
  behind := fun i => if i < 512 then self.behind i else buffer i

/-! ## Streams -/

/-- `stream_t`, less its device -/
structure Stream where
  pos : Nat := 0

/-- `stream_seek` -/
def streamSeek (_self : Stream) (pos : Nat) : Stream := ⟨pos % 2 ^ 32⟩

/-- The loop of `stream_read`; each round takes a byte at least. -/
def streamReadLoop (dev : Ata) : Nat → Stream → Nat → List UInt8 × Stream
  | 0, self, _ => ([], self)
  | fuel + 1, self, remainingBytes =>
      if remainingBytes = 0 then ([], self)
      else
        let lbaBlock := self.pos / 512
        let offset := self.pos % 512
        let buffer := ataRead dev lbaBlock
        let readSize := if remainingBytes > 512 then 512 else remainingBytes
        let bytes := (List.range readSize).map fun i => buffer (offset + i)
        let (rest, self) :=
          streamReadLoop dev fuel ⟨(self.pos + readSize) % 2 ^ 32⟩ (remainingBytes - readSize)
        (bytes ++ rest, self)

/-- `stream_read` -/
def streamRead (self : Stream) (dev : Ata) (nBytes : Nat) : List UInt8 × Stream :=
  streamReadLoop dev nBytes self nBytes

/-- The loop of `stream_write` -/
def streamWriteLoop : Nat → Stream → Ata → List UInt8 → Stream × Ata
  | 0, self, dev, _ => (self, dev)
  | fuel + 1, self, dev, bytes =>
      if bytes = [] then (self, dev)
      else
        let lbaBlock := self.pos / 512
        let offset := self.pos % 512
        let buffer := ataRead dev lbaBlock
        let writeSize := if bytes.length > 512 then 512 else bytes.length
        let dev := ataWrite dev lbaBlock (buffer.write offset (bytes.take writeSize))
        streamWriteLoop fuel ⟨(self.pos + writeSize) % 2 ^ 32⟩ dev (bytes.drop writeSize)

/-- `stream_write` -/
def streamWrite (self : Stream) (dev : Ata) (bytes : List UInt8) : Stream × Ata :=
  streamWriteLoop bytes.length self dev bytes

/-- The bytes a stream reads when it has been sought to `pos`. -/
def Ata.readAt (dev : Ata) (pos n : Nat) : List UInt8 :=
  (streamRead (streamSeek {} pos) dev n).1

/-- The device after a stream has been sought to `pos` and `bytes` written. -/
def Ata.writeAt (dev : Ata) (pos : Nat) (bytes : List UInt8) : Ata :=
  (streamWrite (streamSeek {} pos) dev bytes).2

/-! ## Reading -/

/-- What a stream sought to `pos` reads as its `j`-th byte: past the end of the buffer,
    it is not a byte of the disk. -/
def Ata.byteFrom (dev : Ata) (pos j : Nat) : UInt8 :=
  if pos % 512 + j % 512 < 512 then dev.disk ((pos + j) % 2 ^ 32)
  else dev.behind (pos % 512 + j % 512)

/-- The offset in a sector is the same in every round. -/
theorem byteFrom_next (dev : Ata) (pos : Nat) :
    dev.byteFrom ((pos + 512) % 2 ^ 32) = fun j => dev.byteFrom pos (512 + j) := by
  funext j
  have hoffset : (pos + 512) % 2 ^ 32 % 512 = pos % 512 := by omega
  have hround : (512 + j) % 512 = j % 512 := Nat.add_mod_left 512 j
  have hpos : ((pos + 512) % 2 ^ 32 + j) % 2 ^ 32 = (pos + (512 + j)) % 2 ^ 32 := by omega
  simp only [Ata.byteFrom, hoffset, hround, hpos]

theorem ataRead_eq_byteFrom (dev : Ata) {pos i : Nat} (hpos : pos < 2 ^ 32) (hi : i < 512) :
    ataRead dev (pos / 512) (pos % 512 + i) = dev.byteFrom pos i := by
  have hmod : i % 512 = i := Nat.mod_eq_of_lt hi
  simp only [ataRead, Ata.byteFrom, hmod]
  split
  · have hx : pos / 512 * 512 + (pos % 512 + i) = (pos + i) % 2 ^ 32 := by omega
    rw [hx]
  · rfl

theorem map_range_add {α : Type} (f : Nat → α) (k m : Nat) :
    (List.range (k + m)).map f = (List.range k).map f ++ (List.range m).map fun j => f (k + j) := by
  rw [List.range_add, List.map_append, List.map_map]
  rfl

theorem streamReadLoop_eq (dev : Ata) (fuel : Nat) {pos n : Nat} (hpos : pos < 2 ^ 32)
    (hfuel : n ≤ fuel) :
    (streamReadLoop dev fuel ⟨pos⟩ n).1 = (List.range n).map (dev.byteFrom pos) := by
  induction fuel generalizing pos n with
  | zero =>
      obtain rfl := Nat.le_zero.mp hfuel
      rfl
  | succ fuel ih =>
      by_cases hn : n = 0
      · subst hn
        rfl
      · have hchunk : ∀ m ≤ 512, ((List.range m).map fun i => ataRead dev (pos / 512) (pos % 512 + i))
            = (List.range m).map (dev.byteFrom pos) := by
          intro m hm
          apply List.map_congr_left
          intro i hi
          have := List.mem_range.mp hi
          exact ataRead_eq_byteFrom dev hpos (by omega)
        by_cases hbig : n > 512
        · -- a whole sector, and the rest from the next one
          obtain ⟨m, rfl⟩ : ∃ m, n = 512 + m := ⟨n - 512, by omega⟩
          have hnext : (pos + 512) % 2 ^ 32 < 2 ^ 32 := Nat.mod_lt _ (by decide)
          have hrest := ih hnext (show m ≤ fuel by omega)
          simp only [streamReadLoop, hn, hbig, if_true, if_false, Nat.add_sub_cancel_left]
          rw [hrest, hchunk 512 (Nat.le_refl 512), map_range_add, byteFrom_next]
        · have hend : ∀ self : Stream, (streamReadLoop dev fuel self 0).1 = [] := by
            intro self
            cases fuel <;> rfl
          simp only [streamReadLoop, hn, hbig, if_false, Nat.sub_self, hend, List.append_nil]
          exact hchunk n (by omega)

/-- What a stream reads, byte by byte. -/
theorem readAt_eq (dev : Ata) (pos n : Nat) :
    dev.readAt pos n = (List.range n).map (dev.byteFrom (pos % 2 ^ 32)) :=
  streamReadLoop_eq dev n (Nat.mod_lt pos (by decide)) (Nat.le_refl n)

@[simp] theorem length_readAt (dev : Ata) (pos n : Nat) : (dev.readAt pos n).length = n := by
  rw [readAt_eq, List.length_map, List.length_range]

/-- From the start of a sector, and inside one, a stream reads the disk. -/
theorem readAt_disk (dev : Ata) {pos n : Nat} (hend : pos + n ≤ 2 ^ 32)
    (h : pos % 512 = 0 ∨ pos % 512 + n ≤ 512) :
    dev.readAt pos n = (List.range n).map fun i => dev.disk (pos + i) := by
  rw [readAt_eq]
  apply List.map_congr_left
  intro i hi
  have hlt := List.mem_range.mp hi
  have hpos : pos % 2 ^ 32 = pos := Nat.mod_eq_of_lt (by omega)
  have hin : pos % 512 + i % 512 < 512 := by
    rcases h with h | h
    · omega
    · have := Nat.mod_le i 512
      omega
  rw [hpos, Ata.byteFrom, if_pos hin, Nat.mod_eq_of_lt (by omega)]

/-! ## Writing -/

/-- The bytes of one sector, changed and written back -/
theorem ataWrite_eq (dev : Ata) (pos : Nat) (bytes : List UInt8)
    (h : pos % 512 + bytes.length ≤ 512) :
    ataWrite dev (pos / 512) ((ataRead dev (pos / 512)).write (pos % 512) bytes)
      = ⟨dev.disk.write pos bytes, dev.behind⟩ := by
  rw [ataWrite]
  congr 1
  · funext x
    by_cases hx : x / 512 = pos / 512
    · have hread : ataRead dev (pos / 512) (x % 512) = dev.disk x := by
        have hmod : x % 512 < 512 := Nat.mod_lt _ (by decide)
        have hback : pos / 512 * 512 + x % 512 = x := by omega
        rw [ataRead, if_pos hmod, hback]
      rw [if_pos hx]
      simp only [Mem.write, hread]
      by_cases hle : pos ≤ x
      · have hsame : x % 512 - pos % 512 = x - pos := by omega
        rw [if_pos hle, if_pos (by omega), hsame]
      · rw [if_neg hle, if_neg (by omega)]
    · rw [if_neg hx]
      -- another sector: the bytes end before it
      rcases Nat.lt_or_gt_of_ne hx with hlt | hgt
      · exact (Mem.write_of_lt (by omega)).symm
      · exact (Mem.write_of_ge (by omega)).symm
  · funext i
    by_cases hi : i < 512
    · rw [if_pos hi]
    · rw [if_neg hi, Mem.write_of_ge (by omega), ataRead, if_neg hi]

theorem streamWriteLoop_eq (fuel : Nat) (dev : Ata) {pos : Nat} {bytes : List UInt8}
    (hfuel : bytes.length ≤ fuel) (hend : pos + bytes.length ≤ 2 ^ 32)
    (h : pos % 512 = 0 ∨ pos % 512 + bytes.length ≤ 512) :
    (streamWriteLoop fuel ⟨pos⟩ dev bytes).2 = ⟨dev.disk.write pos bytes, dev.behind⟩ := by
  induction fuel generalizing dev pos bytes with
  | zero =>
      obtain rfl := List.eq_nil_of_length_eq_zero (Nat.le_zero.mp hfuel)
      rw [streamWriteLoop, Mem.write_nil]
  | succ fuel ih =>
      rw [streamWriteLoop]
      by_cases hnil : bytes = []
      · subst hnil
        rw [if_pos rfl, Mem.write_nil]
      · rw [if_neg hnil]
        have hpos := List.length_pos_iff.mpr hnil
        by_cases hbig : bytes.length > 512
        · -- a whole sector, and the rest from the next one
          have hzero : pos % 512 = 0 := by omega
          have htake : (bytes.take 512).length = 512 := by
            rw [List.length_take]
            omega
          have hdrop : (bytes.drop 512).length = bytes.length - 512 := List.length_drop
          have hnext : (pos + 512) % 2 ^ 32 = pos + 512 := Nat.mod_eq_of_lt (by omega)
          have hsector := ataWrite_eq dev pos (bytes.take 512) (by omega)
          simp only [hbig, if_true, hnext, hsector]
          rw [ih _ (by omega) (by omega) (Or.inl (by omega))]
          have hsplit := Mem.write_append dev.disk pos (bytes.take 512) (bytes.drop 512)
          rw [List.take_append_drop, htake] at hsplit
          rw [hsplit]
        · have hsector := ataWrite_eq dev pos bytes (by omega)
          have hdone : ∀ self dev', (streamWriteLoop fuel self dev' []).2 = dev' := by
            intro self dev'
            cases fuel with
            | zero => rfl
            | succ fuel => rw [streamWriteLoop, if_pos rfl]
          simp only [hbig, if_false, List.take_length, List.drop_length, hdone, hsector]

/-- From the start of a sector, and inside one, a stream writes the disk. -/
theorem writeAt_disk (dev : Ata) {pos : Nat} {bytes : List UInt8}
    (hend : pos + bytes.length ≤ 2 ^ 32)
    (h : pos % 512 = 0 ∨ pos % 512 + bytes.length ≤ 512) :
    dev.writeAt pos bytes = ⟨dev.disk.write pos bytes, dev.behind⟩ := by
  rw [Ata.writeAt, streamWrite, streamSeek]
  by_cases hnil : bytes = []
  · subst hnil
    rw [Mem.write_nil]
    rfl
  · have hpos := List.length_pos_iff.mpr hnil
    have hmod : pos % 2 ^ 32 = pos := Nat.mod_eq_of_lt (by omega)
    rw [hmod]
    exact streamWriteLoop_eq _ dev (Nat.le_refl _) hend h

theorem streamWriteLoop_sector (fuel : Nat) (dev : Ata) {pos : Nat} {bytes : List UInt8}
    (hpos : pos % 512 = 0) (hlen : bytes.length % 512 = 0) (s : Nat) :
    let dev' := (streamWriteLoop fuel ⟨pos⟩ dev bytes).2
    (∀ i < 512, dev'.disk (512 * s + i) = dev.disk (512 * s + i)) ∨
      ∀ i < 512, dev'.disk (512 * s + i) ∈ bytes := by
  induction fuel generalizing dev pos bytes with
  | zero => exact .inl fun _ _ => rfl
  | succ fuel ih =>
      rw [streamWriteLoop]
      by_cases hnil : bytes = []
      · rw [if_pos hnil]
        exact .inl fun _ _ => rfl
      · have hpositive := List.length_pos_iff.mpr hnil
        have hsize : (if bytes.length > 512 then 512 else bytes.length) = 512 := by
          split <;> omega
        have htake : (bytes.take 512).length = 512 := by
          rw [List.length_take]
          omega
        have hsector := ataWrite_eq dev pos (bytes.take 512) (by omega)
        have hdrop : (bytes.drop 512).length % 512 = 0 := by
          rw [List.length_drop]
          omega
        simp only [hnil, if_false, hsize, hsector]
        rcases ih ⟨dev.disk.write pos (bytes.take 512), dev.behind⟩
            (show (pos + 512) % 2 ^ 32 % 512 = 0 by omega) hdrop with hsame | hlater
        · -- the later sectors leave this one as the first write has left it
          by_cases hs : 512 * s = pos
          · refine .inr fun i hi => ?_
            have hbyte : dev.disk.write pos (bytes.take 512) (pos + i) = (bytes.take 512)[i] :=
              Mem.write_add (by omega)
            rw [hsame i hi, hs]
            simp only [hbyte]
            exact List.mem_of_mem_take (List.getElem_mem _)
          · refine .inl fun i hi => ?_
            rw [hsame i hi]
            rcases Nat.lt_or_gt_of_ne hs with hlt | hgt
            · exact Mem.write_of_lt (by omega)
            · exact Mem.write_of_ge (by omega)
        · exact .inr fun i hi => List.mem_of_mem_drop (hlater i hi)

/-- Whole sectors from the start of a sector on, wherever they wrap: every sector is left
    as it was or has bytes that are written. -/
theorem writeAt_sector (dev : Ata) {pos : Nat} {bytes : List UInt8} (hpos : pos % 512 = 0)
    (hlen : bytes.length % 512 = 0) (s : Nat) :
    (∀ i < 512, (dev.writeAt pos bytes).disk (512 * s + i) = dev.disk (512 * s + i)) ∨
      ∀ i < 512, (dev.writeAt pos bytes).disk (512 * s + i) ∈ bytes :=
  streamWriteLoop_sector bytes.length dev (by omega) hlen s

end Icarius
