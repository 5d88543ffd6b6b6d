/-
  Icarius.Fs.StreamRange

  `stream_read` and `stream_write` as whole calls, with their results, the errors of the
  device and the cells of its sector buffer.  A round copies up to 512 bytes, from the
  offset of the position in its sector on.  From the start of a sector and inside one that
  is what it should; a request that starts inside a sector and leaves it runs past the end
  of the buffer.  Positions are `size_t` and wrap at 4 GiB.
-/

import Icarius.Fs.Stream
import Icarius.Fs.Vfs

namespace Icarius

open Icarius.Lib

/-! ## Calls -/

/-- What a call of `stream_read` returns and touches -/
structure StreamReading where
  result : BitVec 32
  /-- The bytes put into the caller's buffer -/
  bytes : List UInt8
  /-- The cells of the device's buffer that are read -/
  cells : List Nat
  stream : Stream

/-- The loop of `stream_read`, on a device that can read the sectors that are `readable` -/
def streamReadRounds (readable : Nat → Bool) (dev : Ata) : Nat → Stream → Nat → StreamReading
  | 0, self, _ => ⟨0, [], [], self⟩
  | fuel + 1, self, remainingBytes =>
      if remainingBytes = 0 then ⟨0, [], [], self⟩
      else
        let lbaBlock := self.pos / 512
        let offset := self.pos % 512
        if readable lbaBlock = false then ⟨-eio, [], [], self⟩
        else
          let readSize := if remainingBytes > 512 then 512 else remainingBytes
          let cells := (List.range readSize).map fun i => offset + i
          let rest := streamReadRounds readable dev fuel ⟨(self.pos + readSize) % 2 ^ 32⟩
            (remainingBytes - readSize)
          ⟨rest.result, cells.map (ataRead dev lbaBlock) ++ rest.bytes, cells ++ rest.cells,
            rest.stream⟩

/-- `stream_read`, which refuses without a buffer -/
def streamReadCall (readable : Nat → Bool) (self : Stream) (dev : Ata) (buffer : Bool)
    (nBytes : Nat) : StreamReading :=
  if buffer = false then ⟨-einval, [], [], self⟩
  else streamReadRounds readable dev nBytes self nBytes

/-- What a call of `stream_write` returns and leaves -/
structure StreamWriting where
  result : BitVec 32
  stream : Stream
  dev : Ata

/-- The loop of `stream_write`, on a device that can read and write the sectors that are
    `readable` and `writable` -/
def streamWriteRounds (readable writable : Nat → Bool) : Nat → Stream → Ata → List UInt8 → StreamWriting
  | 0, self, dev, _ => ⟨0, self, dev⟩
  | fuel + 1, self, dev, bytes =>
      if bytes = [] then ⟨0, self, dev⟩
      else
        let lbaBlock := self.pos / 512
        let offset := self.pos % 512
        if readable lbaBlock = false then ⟨-eio, self, dev⟩
        else
          let writeSize := if bytes.length > 512 then 512 else bytes.length
          let buffer := (ataRead dev lbaBlock).write offset (bytes.take writeSize)
          let written := ataWrite dev lbaBlock buffer
          if writable lbaBlock = false then ⟨-eio, self, { dev with behind := written.behind }⟩
          else
            streamWriteRounds readable writable fuel ⟨(self.pos + writeSize) % 2 ^ 32⟩ written
              (bytes.drop writeSize)

/-- `stream_write`, which refuses without a buffer -/
def streamWriteCall (readable writable : Nat → Bool) (self : Stream) (dev : Ata) (buffer : Bool)
    (bytes : List UInt8) : StreamWriting :=
  if buffer = false then ⟨-einval, self, dev⟩
  else streamWriteRounds readable writable bytes.length self dev bytes

/-! ## Reading -/

section Reading

variable {readable : Nat → Bool} (hready : ∀ b, readable b = true) (dev : Ata)
include hready

/-- On a device without errors the calls are the streams of the file system. -/
theorem streamReadRounds_eq (fuel : Nat) (self : Stream) (n : Nat) :
    (streamReadRounds readable dev fuel self n).result = 0 ∧
      (streamReadRounds readable dev fuel self n).bytes = (streamReadLoop dev fuel self n).1 ∧
      (streamReadRounds readable dev fuel self n).stream = (streamReadLoop dev fuel self n).2 := by
  induction fuel generalizing self n with
  | zero => exact ⟨rfl, rfl, rfl⟩
  | succ fuel ih =>
      rw [streamReadRounds, streamReadLoop]
      by_cases hn : n = 0
      · rw [if_pos hn, if_pos hn]
        exact ⟨rfl, rfl, rfl⟩
      · obtain ⟨hresult, hbytes, hstream⟩ := ih
          ⟨(self.pos + if n > 512 then 512 else n) % 2 ^ 32⟩ (n - if n > 512 then 512 else n)
        simp only [hn, hready, if_false, Bool.true_eq_false, List.map_map, hbytes, hstream]
        exact ⟨hresult, rfl, trivial⟩

/-- The offset in the sector stays the same in every round, so the cells are counted from
    it again each time. -/
theorem streamReadRounds_cells (fuel pos : Nat) {n : Nat} (hfuel : n ≤ fuel) :
    (streamReadRounds readable dev fuel ⟨pos⟩ n).cells
      = (List.range n).map fun j => pos % 512 + j % 512 := by
  induction fuel generalizing pos n with
  | zero =>
      obtain rfl := Nat.le_zero.mp hfuel
      rfl
  | succ fuel ih =>
      rw [streamReadRounds]
      by_cases hn : n = 0
      · rw [if_pos hn, hn]
        rfl
      · have hround : ∀ m, m ≤ 512 → ((List.range m).map fun i => pos % 512 + i)
            = (List.range m).map fun j => pos % 512 + j % 512 := by
          intro m hm
          apply List.map_congr_left
          intro i hi
          have hlt := List.mem_range.mp hi
          rw [Nat.mod_eq_of_lt (show i < 512 by omega)]
        by_cases hbig : n > 512
        · -- a whole buffer, and the rest from the same offset
          obtain ⟨m, rfl⟩ : ∃ m, n = 512 + m := ⟨n - 512, by omega⟩
          have hrest := ih ((pos + 512) % 2 ^ 32) (show m ≤ fuel by omega)
          have hoffset : (pos + 512) % 2 ^ 32 % 512 = pos % 512 := by omega
          simp only [hn, hbig, hready, if_false, if_true, Bool.true_eq_false,
            Nat.add_sub_cancel_left, hrest, hoffset]
          rw [hround 512 (Nat.le_refl 512), map_range_add]
          simp only [Nat.add_mod_left]
        · have hend : ∀ self, (streamReadRounds readable dev fuel self 0).cells = [] := by
            intro self
            cases fuel <;> rfl
          simp only [hn, hbig, hready, if_false, Bool.true_eq_false, Nat.sub_self, hend,
            List.append_nil]
          exact hround n (by omega)

end Reading

theorem streamReadLoop_pos (dev : Ata) (fuel : Nat) {pos : Nat} (n : Nat) (hpos : pos < 2 ^ 32)
    (hfuel : n ≤ fuel) : (streamReadLoop dev fuel ⟨pos⟩ n).2.pos = (pos + n) % 2 ^ 32 := by
  induction fuel generalizing pos n with
  | zero =>
      obtain rfl := Nat.le_zero.mp hfuel
      exact (Nat.mod_eq_of_lt hpos).symm
  | succ fuel ih =>
      rw [streamReadLoop]
      by_cases hn : n = 0
      · rw [if_pos hn, hn]
        exact (Nat.mod_eq_of_lt hpos).symm
      · rw [if_neg hn]
        have hnext : (pos + if n > 512 then 512 else n) % 2 ^ 32 < 2 ^ 32 :=
          Nat.mod_lt _ (by decide)
        refine (ih (n - if n > 512 then 512 else n) hnext (by split <;> omega)).trans ?_
        split <;> omega

/-- No cell is behind the buffer when the bytes start at a sector, or end in it. -/
theorem offset_lt_iff {offset n : Nat} (h : offset < 512) :
    (∀ j, j < n → offset + j % 512 < 512) ↔ offset = 0 ∨ offset + n ≤ 512 := by
  constructor
  · intro hall
    by_contra hnot
    have hcell := hall (512 - offset) (by omega)
    rw [Nat.mod_eq_of_lt (by omega)] at hcell
    omega
  · intro hcases j hj
    rcases hcases with hzero | hend
    · omega
    · have hle := Nat.mod_le j 512
      omega

/-- The call has read `n` bytes of the disk from `pos` on. -/
structure ReadsRange (dev : Ata) (pos n : Nat) (r : StreamReading) : Prop where
  result : r.result = 0
  bytes : r.bytes = (List.range n).map fun j => dev.disk (pos + j)
  inside : ∀ i ∈ r.cells, i < 512
  pos : r.stream.pos = (pos + n) % 2 ^ 32

/-- `stream_read` returns the bytes of the disk exactly when they start at a sector or end
    in it, as long as no position is beyond 4 GiB or the disk has the same byte where it
    wraps to. -/
theorem readsRange_iff {readable : Nat → Bool} (hready : ∀ b, readable b = true) (dev : Ata)
    {pos n : Nat} (hpos : pos < 2 ^ 32) :
    ReadsRange dev pos n (streamReadCall readable ⟨pos⟩ dev true n) ↔
      (pos % 512 = 0 ∨ pos % 512 + n ≤ 512) ∧
        ∀ j, j < n → dev.disk ((pos + j) % 2 ^ 32) = dev.disk (pos + j) := by
  have hoffset : pos % 512 < 512 := Nat.mod_lt _ (by decide)
  obtain ⟨hresult, hbytes, hstream⟩ := streamReadRounds_eq hready dev n ⟨pos⟩ n
  have hcells := streamReadRounds_cells hready dev n pos (Nat.le_refl n)
  rw [streamReadLoop_eq dev n hpos (Nat.le_refl n)] at hbytes
  have hcall : streamReadCall readable ⟨pos⟩ dev true n
      = streamReadRounds readable dev n ⟨pos⟩ n := if_neg (by decide)
  have hinside : (∀ i ∈ (streamReadCall readable ⟨pos⟩ dev true n).cells, i < 512) ↔
      pos % 512 = 0 ∨ pos % 512 + n ≤ 512 := by
    rw [← offset_lt_iff hoffset, hcall, hcells]
    simp only [List.mem_map, List.mem_range, forall_exists_index, and_imp, forall_apply_eq_imp_iff₂]
  -- inside the buffer, a byte is the one of the disk at the position as it wraps
  have hbyte : (pos % 512 = 0 ∨ pos % 512 + n ≤ 512) → ∀ j, j < n →
      dev.byteFrom pos j = dev.disk ((pos + j) % 2 ^ 32) := fun h j hj =>
    if_pos ((offset_lt_iff hoffset).mpr h j hj)
  constructor
  · intro h
    have hsafe := hinside.mp h.inside
    refine ⟨hsafe, fun j hj => ?_⟩
    have hsame := h.bytes
    rw [hcall, hbytes, List.map_inj_left] at hsame
    rw [← hbyte hsafe j hj]
    exact hsame j (List.mem_range.mpr hj)
  · rintro ⟨hsafe, hwrap⟩
    refine ⟨by rw [hcall]; exact hresult, ?_, hinside.mpr hsafe, ?_⟩
    · rw [hcall, hbytes]
      apply List.map_congr_left
      intro j hj
      have hlt := List.mem_range.mp hj
      rw [hbyte hsafe j hlt, hwrap j hlt]
    · rw [hcall, hstream]
      exact streamReadLoop_pos dev n n hpos (Nat.le_refl n)

/-- A thousand bytes from the second sector on -/
theorem readsRange_iff_thousand :
    let dev : Ata := ⟨fun x => UInt8.ofNat x, fun _ => 0⟩
    ReadsRange dev 512 1000 (streamReadCall (fun _ => true) ⟨512⟩ dev true 1000) := by
  intro dev
  have hready : ∀ b : Nat, (fun _ => true : Nat → Bool) b = true := fun _ => rfl
  refine (readsRange_iff hready dev (by decide)).mpr
    ⟨.inl rfl, fun j hj => ?_⟩
  rw [Nat.mod_eq_of_lt (show 512 + j < 2 ^ 32 by omega)]

/-- 512 bytes from the second byte of the disk on: the last one is taken from behind the
    buffer. -/
theorem exists_read_past_buffer :
    ¬ ∀ (readable : Nat → Bool) (dev : Ata) (pos n : Nat), (∀ b, readable b = true) →
      pos < 2 ^ 32 → n < 2 ^ 32 →
      ReadsRange dev pos n (streamReadCall readable ⟨pos⟩ dev true n) := by
  intro hall
  have hready : ∀ b : Nat, (fun _ => true : Nat → Bool) b = true := fun _ => rfl
  have hinside := (hall (fun _ => true) ⟨fun _ => 0, fun _ => 0⟩ 1 512 hready (by decide)
    (by decide)).inside
  have hcall : streamReadCall (fun _ => true) ⟨1⟩ ⟨fun _ => 0, fun _ => 0⟩ true 512
      = streamReadRounds (fun _ => true) ⟨fun _ => 0, fun _ => 0⟩ 512 ⟨1⟩ 512 :=
    if_neg (by decide)
  rw [hcall, streamReadRounds_cells hready _ 512 1 (Nat.le_refl 512)] at hinside
  have hlast := hinside 512 (List.mem_map.mpr ⟨511, List.mem_range.mpr (by decide), rfl⟩)
  exact absurd hlast (by decide)

/-! ## Writing -/

/-- On a device without errors the calls are the streams of the file system. -/
theorem streamWriteRounds_eq {readable writable : Nat → Bool} (hread : ∀ b, readable b = true)
    (hwrite : ∀ b, writable b = true) (fuel : Nat) (self : Stream) (dev : Ata)
    (bytes : List UInt8) :
    streamWriteRounds readable writable fuel self dev bytes
      = ⟨0, (streamWriteLoop fuel self dev bytes).1, (streamWriteLoop fuel self dev bytes).2⟩ := by
  induction fuel generalizing self dev bytes with
  | zero => rfl
  | succ fuel ih =>
      rw [streamWriteRounds, streamWriteLoop]
      by_cases hnil : bytes = []
      · rw [if_pos hnil, if_pos hnil]
      · simp only [hnil, hread, hwrite, if_false, Bool.true_eq_false]
        exact ih _ _ _

theorem streamWriteLoop_pos (fuel : Nat) (dev : Ata) {pos : Nat} {bytes : List UInt8}
    (hpos : pos < 2 ^ 32) (hfuel : bytes.length ≤ fuel) :
    (streamWriteLoop fuel ⟨pos⟩ dev bytes).1.pos = (pos + bytes.length) % 2 ^ 32 := by
  induction fuel generalizing dev pos bytes with
  | zero =>
      rw [Nat.le_zero.mp hfuel]
      exact (Nat.mod_eq_of_lt hpos).symm
  | succ fuel ih =>
      rw [streamWriteLoop]
      by_cases hnil : bytes = []
      · rw [if_pos hnil, hnil]
        exact (Nat.mod_eq_of_lt hpos).symm
      · have hlen := List.length_pos_iff.mpr hnil
        have hnext : (pos + if bytes.length > 512 then 512 else bytes.length) % 2 ^ 32 < 2 ^ 32 :=
          Nat.mod_lt _ (by decide)
        rw [if_neg hnil]
        refine (ih _ hnext ?_).trans ?_
        · rw [List.length_drop]
          split <;> omega
        · rw [List.length_drop]
          split <;> omega

/-- From `dev` to `dev'` the disk has got `bytes` from `pos` on, where positions wrap at
    4 GiB, and nothing else has changed. -/
structure WritesRing (dev dev' : Ata) (pos : Nat) (bytes : List UInt8) : Prop where
  written : ∀ j (h : j < bytes.length), dev'.disk ((pos + j) % 2 ^ 32) = bytes[j]
  others : ∀ x, (∀ j, j < bytes.length → x ≠ (pos + j) % 2 ^ 32) → dev'.disk x = dev.disk x
  behind : dev'.behind = dev.behind

/-- A write that does not wrap -/
theorem writesRing_write (dev : Ata) {pos : Nat} {bytes : List UInt8}
    (hend : pos + bytes.length ≤ 2 ^ 32) :
    WritesRing dev ⟨dev.disk.write pos bytes, dev.behind⟩ pos bytes := by
  refine ⟨fun j hj => ?_, fun x hx => ?_, rfl⟩
  · rw [Nat.mod_eq_of_lt (show pos + j < 2 ^ 32 by omega)]
    exact Mem.write_add hj
  · show dev.disk.write pos bytes x = dev.disk x
    rcases Nat.lt_or_ge x pos with hlt | hge
    · exact Mem.write_of_lt hlt
    · apply Mem.write_of_ge
      by_contra hnot
      have hne := hx (x - pos) (by omega)
      rw [Nat.mod_eq_of_lt (show pos + (x - pos) < 2 ^ 32 by omega)] at hne
      omega

/-- A first part, and the rest from its end on: no position of the rest is one of the first
    part, because there are not more bytes than positions. -/
theorem WritesRing.append {dev dev₁ dev₂ : Ata} {pos : Nat} {first rest : List UInt8}
    (hfirst : WritesRing dev dev₁ pos first)
    (hrest : WritesRing dev₁ dev₂ ((pos + first.length) % 2 ^ 32) rest)
    (hlen : (first ++ rest).length ≤ 2 ^ 32) : WritesRing dev dev₂ pos (first ++ rest) := by
  rw [List.length_append] at hlen
  have hpos : ∀ j, ((pos + first.length) % 2 ^ 32 + j) % 2 ^ 32
      = (pos + (first.length + j)) % 2 ^ 32 := fun j => by omega
  refine ⟨fun j hj => ?_, fun x hx => ?_, hrest.behind.trans hfirst.behind⟩
  · rw [List.length_append] at hj
    by_cases hin : j < first.length
    · have hother : dev₂.disk ((pos + j) % 2 ^ 32) = dev₁.disk ((pos + j) % 2 ^ 32) := by
        refine hrest.others _ fun i hi => ?_
        rw [hpos]
        omega
      rw [hother, hfirst.written j hin, List.getElem_append_left hin]
    · obtain ⟨i, rfl⟩ := Nat.exists_eq_add_of_le (Nat.le_of_not_lt hin)
      rw [← hpos, hrest.written i (by omega), List.getElem_append_right (by omega)]
      simp only [Nat.add_sub_cancel_left]
  · rw [hrest.others x fun i hi => ?_]
    · exact hfirst.others x fun j hj => hx j (by rw [List.length_append]; omega)
    · rw [hpos]
      exact hx _ (by rw [List.length_append]; omega)

/-- The loop, from the start of a sector on: each round writes one sector, and the position
    of the next one may have wrapped. -/
theorem streamWriteLoop_ring (fuel : Nat) (dev : Ata) {pos : Nat} {bytes : List UInt8}
    (hpos : pos < 2 ^ 32) (hstart : pos % 512 = 0) (hfuel : bytes.length ≤ fuel)
    (hlen : bytes.length ≤ 2 ^ 32) :
    WritesRing dev (streamWriteLoop fuel ⟨pos⟩ dev bytes).2 pos bytes := by
  -- over the rounds; each one writes a sector or all that is left
  induction fuel generalizing dev pos bytes with
  | zero =>
      obtain rfl := List.eq_nil_of_length_eq_zero (Nat.le_zero.mp hfuel)
      exact ⟨nofun, fun _ _ => rfl, rfl⟩
  | succ fuel ih =>
      rw [streamWriteLoop]
      by_cases hnil : bytes = []
      · subst hnil
        rw [if_pos rfl]
        exact ⟨nofun, fun _ _ => rfl, rfl⟩
      · have hpositive := List.length_pos_iff.mpr hnil
        obtain ⟨k, hk, hkle, hkcases⟩ : ∃ k, k = (if bytes.length > 512 then 512 else bytes.length)
            ∧ k ≤ 512 ∧ (k = 512 ∧ k ≤ bytes.length ∨ k = bytes.length) :=
          ⟨_, rfl, by split <;> omega⟩
        have htake : (bytes.take k).length = k := List.length_take_of_le (by omega)
        have hsector := ataWrite_eq dev pos (bytes.take k) (by omega)
        simp only [hnil, if_false, ← hk, hsector]
        -- the round writes in front of what the rounds behind it write
        have hfirst : WritesRing dev ⟨dev.disk.write pos (bytes.take k), dev.behind⟩ pos
            (bytes.take k) := writesRing_write dev (by omega)
        generalize (⟨dev.disk.write pos (bytes.take k), dev.behind⟩ : Ata) = dev₁ at hfirst ⊢
        have hrest : WritesRing dev₁
            (streamWriteLoop fuel ⟨(pos + k) % 2 ^ 32⟩ dev₁ (bytes.drop k)).2
            ((pos + (bytes.take k).length) % 2 ^ 32) (bytes.drop k) := by
          rw [htake]
          rcases hkcases with ⟨rfl, -⟩ | hall
          · exact ih dev₁ (Nat.mod_lt _ (by decide)) (by omega)
              (by rw [List.length_drop]; omega) (by rw [List.length_drop]; omega)
          · -- the last round
            rw [List.drop_of_length_le (by omega)]
            have hdone : (streamWriteLoop fuel ⟨(pos + k) % 2 ^ 32⟩ dev₁ []).2 = dev₁ := by
              cases fuel with
              | zero => rfl
              | succ fuel => rw [streamWriteLoop, if_pos rfl]
            rw [hdone]
            exact ⟨nofun, fun _ _ => rfl, rfl⟩
        have happend := hfirst.append hrest (by rw [List.take_append_drop]; exact hlen)
        rwa [List.take_append_drop] at happend

/-- The call has written the bytes to the disk from `pos` on, and nothing else. -/
structure WritesRange (dev : Ata) (pos : Nat) (bytes : List UInt8) (r : StreamWriting) : Prop where
  result : r.result = 0
  written : ∀ j (h : j < bytes.length), r.dev.disk (pos + j) = bytes[j]
  others : ∀ x, x < pos ∨ pos + bytes.length ≤ x → r.dev.disk x = dev.disk x
  pos : r.stream.pos = (pos + bytes.length) % 2 ^ 32

/-- `stream_write`, from the start of a sector or inside one: byte `j` goes to position
    `pos + j` as a `size_t`, every other byte of the disk stays as it is, and so does what
    is behind the buffer.  A range that ends below 4 GiB is written where it is. -/
theorem streamWrite_ring {readable writable : Nat → Bool} (hread : ∀ b, readable b = true)
    (hwrite : ∀ b, writable b = true) (dev : Ata) {pos : Nat} {bytes : List UInt8}
    (hpos : pos < 2 ^ 32) (hlen : bytes.length < 2 ^ 32)
    (hsector : pos % 512 = 0 ∨ pos % 512 + bytes.length ≤ 512) :
    let r := streamWriteCall readable writable ⟨pos⟩ dev true bytes
    r.result = 0 ∧ WritesRing dev r.dev pos bytes ∧
      r.stream.pos = (pos + bytes.length) % 2 ^ 32 ∧
      (pos + bytes.length ≤ 2 ^ 32 → WritesRange dev pos bytes r) := by
  intro r
  have hcall : r = ⟨0, (streamWriteLoop bytes.length ⟨pos⟩ dev bytes).1,
      (streamWriteLoop bytes.length ⟨pos⟩ dev bytes).2⟩ := by
    rw [← streamWriteRounds_eq hread hwrite]
    exact if_neg (by decide)
  have hring : WritesRing dev r.dev pos bytes := by
    rw [hcall]
    rcases hsector with hstart | hinside
    · exact streamWriteLoop_ring _ dev hpos hstart (Nat.le_refl _) hlen.le
    · -- the end of the sector is not beyond 4 GiB
      have hend : pos + bytes.length ≤ 2 ^ 32 := by omega
      show WritesRing dev (streamWriteLoop bytes.length ⟨pos⟩ dev bytes).2 pos bytes
      rw [streamWriteLoop_eq _ dev (Nat.le_refl _) hend (.inr hinside)]
      exact writesRing_write dev hend
  have hstream : r.stream.pos = (pos + bytes.length) % 2 ^ 32 := by
    rw [hcall]
    exact streamWriteLoop_pos _ dev hpos (Nat.le_refl _)
  have hresult : r.result = 0 := by rw [hcall]
  refine ⟨hresult, hring, hstream, fun hend => ⟨hresult, fun j hj => ?_, fun x hx => ?_, hstream⟩⟩
  · have hbyte := hring.written j hj
    rwa [Nat.mod_eq_of_lt (show pos + j < 2 ^ 32 by omega)] at hbyte
  · apply hring.others
    intro j hj
    omega

/-- A thousand bytes from the second sector on -/
theorem streamWrite_ring_thousand :
    let dev : Ata := ⟨fun _ => 0, fun _ => 0⟩
    let bytes : List UInt8 := List.replicate 1000 1
    WritesRange dev 512 bytes
      (streamWriteCall (fun _ => true) (fun _ => true) ⟨512⟩ dev true bytes) := by
  intro dev bytes
  have hlen : bytes.length = 1000 := List.length_replicate
  exact (streamWrite_ring (fun _ => rfl) (fun _ => rfl) dev (by decide) (by omega)
    (.inl rfl)).2.2.2 (by omega)

/-- Two sectors from the last one below 4 GiB on: the second one is not written behind it. -/
theorem exists_write_wrapped :
    ¬ ∀ (readable writable : Nat → Bool) (dev : Ata) (pos : Nat) (bytes : List UInt8),
      (∀ b, readable b = true) → (∀ b, writable b = true) → pos < 2 ^ 32 →
      bytes.length < 2 ^ 32 → (pos % 512 = 0 ∨ pos % 512 + bytes.length ≤ 512) →
      WritesRange dev pos bytes
        (streamWriteCall readable writable ⟨pos⟩ dev true bytes) := by
  intro hall
  have hready : ∀ b : Nat, (fun _ => true : Nat → Bool) b = true := fun _ => rfl
  obtain ⟨dev, hdev⟩ : ∃ dev : Ata, ∀ x, dev.disk x = 0 := ⟨⟨fun _ => 0, fun _ => 0⟩, fun _ => rfl⟩
  obtain ⟨bytes, hlen, hone⟩ : ∃ bytes : List UInt8, bytes.length = 1024 ∧
      ∀ j (h : j < bytes.length), bytes[j] = 1 :=
    ⟨List.replicate 1024 1, List.length_replicate, fun j h => List.getElem_replicate h⟩
  have hwritten := (hall (fun _ => true) (fun _ => true) dev (2 ^ 32 - 512) bytes hready hready
    (by decide) (by omega) (.inl rfl)).written 512 (by omega)
  have hring : WritesRing dev (streamWriteLoop bytes.length ⟨2 ^ 32 - 512⟩ dev bytes).2
      (2 ^ 32 - 512) bytes :=
    streamWriteLoop_ring bytes.length dev (by decide) rfl (Nat.le_refl _) (by omega)
  have hcall : streamWriteCall (fun _ => true) (fun _ => true) ⟨2 ^ 32 - 512⟩ dev true bytes
      = streamWriteRounds (fun _ => true) (fun _ => true) bytes.length ⟨2 ^ 32 - 512⟩ dev bytes :=
    if_neg (by decide)
  rw [hcall, streamWriteRounds_eq hready hready, hone] at hwritten
  -- byte 512 is at the start of the disk
  have hsame := hring.others (2 ^ 32 - 512 + 512) fun j hj => by omega
  rw [hdev] at hsame
  exact absurd (hsame.symm.trans hwritten) (by decide)

end Icarius
