/-
  Icarius.Fs.Fat16.WriteEntry

  The directory entry in `fat16_write`.  A write that makes the file longer searches for
  the entry by the name of the file, and writes it where it finds one.  It is the entry
  of the file exactly when the search comes upon it first.
-/

import Icarius.Fs.Fat16.Directories

namespace Icarius

open Icarius.Lib

/-! ## An entry with bytes put into it -/

theorem getElem_leBytes {k n i : Nat} (h : i < (leBytes k n).length) :
    (leBytes k n)[i] = UInt8.ofNat (n / 256 ^ i) := by
  induction k generalizing n i with
  | zero => exact absurd h (Nat.not_lt_zero i)
  | succ k ih =>
      cases i with
      | zero => simp [leBytes]
      | succ i =>
          simp only [leBytes, List.getElem_cons_succ]
          rw [ih, Nat.div_div_eq_div_mul, Nat.pow_succ', Nat.mul_comm]

@[simp] theorem length_leBytes (k n : Nat) : (leBytes k n).length = k := by
  induction k generalizing n with
  | zero => rfl
  | succ k ih => rw [leBytes, List.length_cons, ih]

namespace DirEntry

variable {e : DirEntry} {offset : Nat} {bytes : List UInt8}

theorem length_put (h : offset + bytes.length ≤ e.bytes.length) :
    (e.put offset bytes).bytes.length = e.bytes.length := by
  simp only [put, List.length_append, List.length_take, List.length_drop]
  omega

/-- An entry as memory -/
theorem memOf_put (h : offset + bytes.length ≤ e.bytes.length) :
    memOf (e.put offset bytes).bytes = (memOf e.bytes).write offset bytes := by
  funext x
  have htake : (e.bytes.take offset).length = offset := by
    rw [List.length_take]
    omega
  have hget : (e.bytes.take offset ++ bytes ++ e.bytes.drop (offset + bytes.length))[x]?
      = if x < offset then e.bytes[x]?
        else if x < offset + bytes.length then bytes[x - offset]? else e.bytes[x]? := by
    rw [List.append_assoc]
    split
    · rw [List.getElem?_append_left (by omega), List.getElem?_take_of_lt (by assumption)]
    · rw [List.getElem?_append_right (by omega), htake]
      split
      · rw [List.getElem?_append_left (by omega)]
      · rw [List.getElem?_append_right (by omega), List.getElem?_drop]
        congr 1
        omega
  simp only [put, memOf, List.getD_eq_getElem?_getD, hget, Mem.write]
  by_cases hlow : x < offset
  · rw [if_pos hlow, if_neg (by omega)]
  · rw [if_neg hlow, if_pos (show offset ≤ x by omega)]
    by_cases hin : x < offset + bytes.length
    · rw [if_pos hin, List.getElem?_eq_getElem (by omega), Option.getD_some, Option.getD_some]
    · rw [if_neg hin, List.getElem?_eq_none (show bytes.length ≤ x - offset by omega),
        Option.getD_none]

theorem fileName_put (h : offset + bytes.length ≤ e.bytes.length) (hoffset : 11 ≤ offset) :
    (e.put offset bytes).fileName = e.fileName := by
  rw [fileName, fileName, put, List.append_assoc, List.take_append_of_le_length, List.take_take,
    Nat.min_eq_left hoffset]
  rw [List.length_take]
  omega

/-- A field of the entry that the bytes are not put into -/
theorem load_put (h : offset + bytes.length ≤ e.bytes.length) {k a : Nat}
    (hout : a + k ≤ offset ∨ offset + bytes.length ≤ a) :
    (memOf (e.put offset bytes).bytes).load k a = (memOf e.bytes).load k a := by
  rw [memOf_put h]
  exact Mem.load_congr (Mem.agree_write _ hout)

theorem load_put_self (h : offset + bytes.length ≤ e.bytes.length) {k n : Nat}
    (hbytes : bytes = leBytes k n) :
    (memOf (e.put offset bytes).bytes).load k offset = n % 256 ^ k := by
  rw [memOf_put h]
  apply Mem.load_of_bytes
  intro i hi
  have hlt : i < bytes.length := by
    rw [hbytes, length_leBytes]
    exact hi
  rw [Mem.write_add hlt]
  subst hbytes
  exact getElem_leBytes hlt

theorem attributes_eq (e : DirEntry) : e.attributes = memOf e.bytes 11 := rfl

/-- The entry a write leaves: the new size and the time of now, and else what it was -/
def grown (e : DirEntry) (n : Nat) (now : Stamp) : DirEntry := (e.setFileSize n).setModified now

section Grown

variable (n : Nat) (now : Stamp) (h : e.bytes.length = 32)
include h

theorem length_setFileSize : (e.setFileSize n).bytes.length = 32 := by
  rw [setFileSize, length_put (by rw [length_leBytes, h]), h]

theorem fileName_setFileSize : (e.setFileSize n).fileName = e.fileName :=
  fileName_put (by rw [length_leBytes, h]) (by decide)

theorem length_grown : (e.grown n now).bytes.length = 32 := by
  have hsize := length_setFileSize n h
  have htime : ((e.setFileSize n).put 22 (leBytes 2 now.time.toNat)).bytes.length = 32 := by
    rw [length_put (by rw [length_leBytes, hsize]; decide), hsize]
  rw [grown, setModified, length_put (by rw [length_leBytes, htime]; decide), htime]

/-- The fields of the entry that do not change -/
theorem load_grown {k a : Nat} (ha : a + k ≤ 22 ∨ (26 ≤ a ∧ a + k ≤ 28)) :
    (memOf (e.grown n now).bytes).load k a = (memOf e.bytes).load k a := by
  have hsize := length_setFileSize n h
  have htime : ((e.setFileSize n).put 22 (leBytes 2 now.time.toNat)).bytes.length = 32 := by
    rw [length_put (by rw [length_leBytes, hsize]; decide), hsize]
  rw [grown, setModified, load_put (by rw [length_leBytes, htime]; decide)
      (by rw [length_leBytes]; omega),
    load_put (by rw [length_leBytes, hsize]; decide) (by rw [length_leBytes]; omega),
    setFileSize, load_put (by rw [length_leBytes, h]) (by omega)]

theorem fileSize_grown (hn : n < 2 ^ 32) : (e.grown n now).fileSize = n := by
  have hsize := length_setFileSize n h
  have htime : ((e.setFileSize n).put 22 (leBytes 2 now.time.toNat)).bytes.length = 32 := by
    rw [length_put (by rw [length_leBytes, hsize]; decide), hsize]
  rw [fileSize, grown, setModified, load_put (by rw [length_leBytes, htime]; decide)
      (.inr (by rw [length_leBytes]; decide)),
    load_put (by rw [length_leBytes, hsize]; decide) (.inr (by rw [length_leBytes]; decide)),
    setFileSize, load_put_self (by rw [length_leBytes, h]) rfl]
  exact Nat.mod_eq_of_lt hn

theorem entryCluster_grown : entryCluster (e.grown n now) = entryCluster e := by
  rw [entryCluster, entryCluster, highCluster, highCluster, lowCluster, lowCluster,
    load_grown n now h (.inl (by decide)), load_grown n now h (.inr (by decide))]

theorem isDirectory_grown : (e.grown n now).isDirectory = e.isDirectory := by
  have hload := load_grown n now h (k := 1) (a := 11) (.inl (by decide))
  simp only [Mem.load, Nat.mul_zero, Nat.add_zero] at hload
  rw [isDirectory, isDirectory, attributes_eq, attributes_eq, UInt8.toNat_inj.mp hload]

end Grown

end DirEntry

/-! ## A write that comes back with a count -/

/-- The results above zero are those of a write that has gone through. -/
theorem not_error_of_pos {res : BitVec 32} (h : 0 < res.toInt) :
    res ≠ -enospc ∧ res ≠ -eio ∧ res ≠ -einval ∧ res ≠ 0#32 := by
  refine ⟨?_, ?_, ?_, ?_⟩ <;> rintro rfl <;> revert h <;> decide

/-- The update of the entry: the file is not longer than it was, or the entry is written
    where the search finds one. -/
theorem writeEntry_cases {bpb : Fat16Header} {dev : Ata} {lookups n : Nat} {now : Stamp}
    {e : DirEntry} {r : WriteResult} (hlen : e.bytes.length = 32)
    (h : fat16WriteEntry bpb dev lookups now e n = some r) (hres : 0 < r.res.toInt) :
    r.res = BitVec.ofNat 32 n ∧
      ((n ≤ e.fileSize ∧ r.dev = dev ∧ r.fileEntry = e) ∨
        (e.fileSize < n ∧ ∃ q, q ≠ 0 ∧ searchEntry bpb dev lookups e.fileName = some q ∧
          r.fileEntry = e.grown n now ∧ r.dev = dev.writeAt q (e.grown n now).bytes)) := by
  have hname := DirEntry.fileName_setFileSize n hlen
  rw [fat16WriteEntry] at h
  split at h
  · rename_i hgrows
    simp only [hname] at h
    split at h
    · cases h
    · rename_i parent hparent
      split at h
      · cases h
      · rename_i q hq
        split at h
        · obtain rfl := Option.some.inj h
          exact absurd rfl (not_error_of_pos hres).2.1
        · rename_i hne
          obtain rfl := Option.some.inj h
          refine ⟨rfl, .inr ⟨hgrows, q, hne, ?_, rfl, rfl⟩⟩
          rw [searchEntry, hparent, Option.bind_some, hq]
  · obtain rfl := Option.some.inj h
    exact ⟨rfl, .inl ⟨by omega, rfl, rfl⟩⟩

/-- The bytes a call writes -/
def bytesOf (buffer : Mem) (nBytes nBlocks : Nat) : List UInt8 :=
  (List.range (u32 (nBytes * nBlocks))).map buffer

theorem length_bytesOf (buffer : Mem) (nBytes nBlocks : Nat) :
    (bytesOf buffer nBytes nBlocks).length = u32 (nBytes * nBlocks) := by
  rw [bytesOf, List.length_map, List.length_range]

namespace Volume

variable {vol : Volume}

/-- The device after the clusters that are not needed have been given back -/
def givenBack (bpb : Fat16Header) (dev : Ata) (lookups last required existing : Nat) :
    Option Ata :=
  if required < existing then
    fat16FreeUnusedClusters bpb dev lookups last required existing
      (fat16GetFatTableAbsolute bpb partitionOffset)
  else some dev

/-- The three parts of a write that has gone through -/
theorem fat16Write_ok (hspc : vol.bpb.secPerClus ≤ 64) (hfat : 256 ≤ vol.bpb.fatsz16)
    {dev : Ata} {lookups nBytes nBlocks : Nat} {now : Stamp} {e : DirEntry} {cs : List Nat}
    {buffer : Mem} {r : WriteResult} (hchain : vol.FileChain dev.disk (entryCluster e) cs)
    (hlookups : 65536 ≤ lookups)
    (h : fat16Write vol.bpb dev lookups now e buffer nBytes nBlocks = .ok r)
    (hres : 0 < r.res.toInt) :
    ∃ new dev₁ last dev₂,
      HasClusters vol dev.disk (requiredClusters vol.bpb nBytes - cs.length) (cs.length - 1)
        (bytesOf buffer nBytes nBlocks).length ∧
      new = (vol.freeClusters dev.disk).take
        (vol.needed (bytesOf buffer nBytes nBlocks).length - cs.length) ∧
      vol.Written dev.disk (entryCluster e) cs new (bytesOf buffer nBytes nBlocks) dev₁.disk ∧
      givenBack vol.bpb dev₁ lookups last (requiredClusters vol.bpb nBytes) cs.length = some dev₂ ∧
      fat16WriteEntry vol.bpb dev₂ lookups now e (bytesOf buffer nBytes nBlocks).length = some r := by
  rw [fat16Write] at h
  split at h
  · -- an argument of zero is an error, and the result is none
    obtain rfl := Except.ok.inj h
    exact absurd rfl (not_error_of_pos hres).2.2.1
  · obtain ⟨bytes, hbytesdef⟩ : ∃ l, l = bytesOf buffer nBytes nBlocks := ⟨_, rfl⟩
    have hdef : (List.range (u32 (nBytes * nBlocks))).map buffer = bytes := hbytesdef.symm
    rw [hdef] at h
    rw [← hbytesdef]
    simp only at h
    by_cases hbytes : bytes = []
    · -- nothing is written, and the result is 0
      have hzero : ∀ dev' r', fat16WriteEntry vol.bpb dev' lookups now e 0 = some r' →
          r'.res = 0#32 := by
        intro dev' r' hentry
        rw [fat16WriteEntry, if_neg (Nat.not_lt_zero _)] at hentry
        rw [← Option.some.inj hentry]
      subst hbytes
      simp only [fat16WriteData, List.length_nil, fat16WriteLoop] at h
      exfalso
      split at h
      · rename_i hdata
        split at hdata <;> cases hdata
      · cases h
      · split at h
        · cases h
        · split at h
          · cases h
          · rename_i r' hentry
            obtain rfl := Except.ok.inj h
            exact (not_error_of_pos hres).2.2.2 (hzero _ _ hentry)
    · obtain ⟨hyes, hno⟩ := writeData_cases hspc hfat hchain hlookups hbytes
      by_cases hroom : HasClusters vol dev.disk (requiredClusters vol.bpb nBytes - cs.length)
          (cs.length - 1) bytes.length
      · -- the data is written, the surplus given back and the entry written
        obtain ⟨dev₁, last, hdata, hwritten⟩ := hyes hroom
        rw [hdata] at h
        simp only at h
        split at h
        · cases h
        · rename_i dev₂ hfreed
          split at h
          · cases h
          · rename_i r' hentry
            obtain rfl := Except.ok.inj h
            exact ⟨_, dev₁, last, dev₂, hroom, rfl, hwritten, hfreed, hentry⟩
      · -- without the clusters it ends in an error
        obtain ⟨dev', hdata⟩ := hno hroom
        rw [hdata] at h
        obtain rfl := Except.ok.inj h
        exact absurd rfl (not_error_of_pos hres).1

/-! ## The entries of the volume -/

/-- At `p` is a slot for an entry: in the root directory, or in a cluster of a directory. -/
def IsEntry (vol : Volume) (dirs : Set Nat) (p : Nat) : Prop :=
  (∃ k < vol.bpb.rootEntCnt, p = vol.rootPos + 32 * k) ∨
    ∃ c ∈ dirs, ∃ i, 32 * (i + 1) ≤ vol.clusterBytes ∧ p = vol.clusterPos c + 32 * i

section Apart

/-- The root directory ends before the clusters. -/
theorem rootEnd_le (c : Nat) : vol.rootPos + vol.bpb.rootEntCnt * 32 ≤ vol.clusterPos c := by
  have hcnt := vol.rootEntCnt_lt
  simp only [clusterPos, rootDirSectors, u32, vol.bytsPerSec]
  omega

/-- So does what the driver takes for cluster 0. -/
theorem searchPos_zero_le (hspc : vol.bpb.secPerClus ≤ 64) (c : Nat) :
    vol.searchPos 0 + vol.clusterBytes ≤ vol.clusterPos c := by
  have hpos := vol.secPerClus_pos
  simp only [searchPos, clusterPos, rootPos, clusterBytes, partitionOffset]
  omega

variable (hspc : vol.bpb.secPerClus ≤ 64) (hfat : 256 ≤ vol.bpb.fatsz16)
include hfat

/-- The FAT entries the driver writes end before everything else. -/
theorem fatEnd_le (c : Nat) :
    vol.fatPos fat16MaxClusters ≤ vol.rootPos ∧ vol.fatPos fat16MaxClusters ≤ vol.clusterPos c := by
  have hmax : fat16MaxClusters = 65525 := rfl
  simp only [fatPos, hmax, clusterPos, rootPos]
  omega

variable {disk disk₁ : Mem} {dirs : Set Nat} {start : Nat} {cs new : List Nat}
  {bytes : List UInt8}

/-- What lies in a cluster of a directory stays when data is written. -/
theorem Written.dir_byte (h : vol.Written disk start cs new bytes disk₁)
    (hdirs : vol.Directories disk dirs) (hapart : ∀ c ∈ cs ++ new, c ∉ dirs) {c i : Nat}
    (hc : c ∈ dirs) (hi : i < vol.clusterBytes) :
    disk₁ (vol.clusterPos c + i) = disk (vol.clusterPos c + i) := by
  apply h.frame
  · right
    have hle := (fatEnd_le hfat c).2
    omega
  · intro x hx
    have hne : x ≠ c := by
      rintro rfl
      exact hapart x hx hc
    have hdisj := vol.clusterPos_disjoint (h.chain.bounds hx).1 (hdirs.bounds c hc).1 hne
    omega

omit hfat in
/-- So does what lies in front of the clusters. -/
theorem Written.front_byte (h : vol.Written disk start cs new bytes disk₁) {x : Nat}
    (hlow : vol.fatPos fat16MaxClusters ≤ x) (hhigh : ∀ c, x < vol.clusterPos c) :
    disk₁ x = disk x := by
  apply h.frame
  · exact .inr hlow
  · intro c _
    exact .inl (hhigh c)

/-- The entries are the same after data has been written to other clusters. -/
theorem Written.entry (h : vol.Written disk start cs new bytes disk₁)
    (hdirs : vol.Directories disk dirs) (hapart : ∀ c ∈ cs ++ new, c ∉ dirs) {p : Nat}
    (hp : vol.IsEntry dirs p) : diskEntry disk₁ p = diskEntry disk p := by
  apply diskEntry_congr
  intro j hj
  rcases hp with ⟨k, hk, rfl⟩ | ⟨c, hc, i, hi, rfl⟩
  · apply h.front_byte
    · have hle := (fatEnd_le hfat 0).1
      omega
    · intro c
      have hle : vol.rootPos + vol.bpb.rootEntCnt * 32 ≤ vol.clusterPos c := rootEnd_le c
      omega
  · rw [Nat.add_assoc]
    exact h.dir_byte hfat hdirs hapart hc (by omega)

include hspc

/-- The search sees no change when data has been written to other clusters. -/
theorem Written.sameSearch (h : vol.Written disk start cs new bytes disk₁)
    (hdirs : vol.Directories disk dirs) (hapart : ∀ c ∈ cs ++ new, c ∉ dirs) :
    vol.SameSearch disk disk₁ (insert 0 dirs) where
  fat := by
    intro c hc
    have hlt := hdirs.searched.lt hc
    have hout : c ∉ cs ++ new := by
      intro hmem
      have hlow := (h.chain.bounds hmem).1
      rcases Set.mem_insert_iff.mp hc with rfl | hc
      · omega
      · exact hapart c hmem hc
    rw [List.mem_append, not_or] at hout
    exact h.fat c hlt hout.2 fun hlast => absurd (List.mem_of_getLast? hlast) hout.1
  data := by
    intro c hc i hi
    rcases Set.mem_insert_iff.mp hc with rfl | hc
    · apply h.front_byte
      · have hle := fatPos_le_searchPos hspc hfat 0 (x := fat16MaxClusters) (by decide)
        omega
      · intro c
        have hle := searchPos_zero_le hspc c
        omega
    · rw [searchPos_of_ge (hdirs.bounds c hc).1]
      exact h.dir_byte hfat hdirs hapart hc hi
  root := by
    intro i hi
    apply h.front_byte
    · have hle := (fatEnd_le hfat 0).1
      omega
    · intro c
      have hle : vol.rootPos + vol.bpb.rootEntCnt * 32 ≤ vol.clusterPos c := rootEnd_le c
      omega

end Apart

/-! ## The entry of the file -/

/-- A slot lies in one sector, below 4 GiB. -/
theorem IsEntry.aligned {dirs : Set Nat} {p : Nat} (hspc : vol.bpb.secPerClus ≤ 64)
    (hbounds : ∀ c ∈ dirs, 2 ≤ c ∧ c < fat16MaxClusters) (hp : vol.IsEntry dirs p) :
    p % 32 = 0 ∧ p + 32 ≤ 2 ^ 32 := by
  rcases hp with ⟨k, hk, rfl⟩ | ⟨c, hc, i, hi, rfl⟩
  · have hrsvd := vol.rsvdSec_lt
    have hfat := vol.fatsz16_lt
    have hcnt := vol.rootEntCnt_lt
    simp only [rootPos, partitionOffset]
    omega
  · have hmod := vol.clusterPos_mod c
    have hend := vol.clusterPos_le hspc (hbounds c hc).2
    omega

/-- Where the search finds an entry is a slot of 32 bytes behind the first FAT. -/
theorem Searched.aligned (hspc : vol.bpb.secPerClus ≤ 64) (hfat : 256 ≤ vol.bpb.fatsz16)
    {dev : Ata} {cells : Set Nat} (h : vol.Searched dev.disk cells) {lookups q : Nat}
    {filename : List UInt8} (hfound : searchEntry vol.bpb dev lookups filename = some q)
    (hq : q ≠ 0) : q % 32 = 0 ∧ q + 32 ≤ 2 ^ 32 := by
  obtain ⟨c, hc, i, hi, rfl⟩ := searchEntry_pos hspc hfat h hfound hq
  obtain ⟨hend, hmod⟩ := searchPos_bounds hspc hfat (h.bounds c hc)
  omega

theorem writeAt_entry (dev : Ata) {q : Nat} {bytes : List UInt8} (hlen : bytes.length = 32)
    (hq : q % 32 = 0 ∧ q + 32 ≤ 2 ^ 32) :
    dev.writeAt q bytes = ⟨dev.disk.write q bytes, dev.behind⟩ := by
  refine writeAt_disk dev (by omega) (.inr ?_)
  rw [hlen]
  omega

theorem diskEntry_write_self (disk : Mem) (q : Nat) {bytes : List UInt8} (hlen : bytes.length = 32) :
    diskEntry (disk.write q bytes) q = ⟨bytes⟩ := by
  rw [diskEntry]
  congr 1
  apply List.ext_getElem
  · rw [List.length_map, List.length_range, hlen]
  · intro i _ hi
    rw [List.getElem_map, List.getElem_range, Mem.write_add hi]

theorem diskEntry_write_of_ne (disk : Mem) {p q : Nat} {bytes : List UInt8}
    (hlen : bytes.length = 32) (hp : p % 32 = 0) (hq : q % 32 = 0) (hne : p ≠ q) :
    diskEntry (disk.write q bytes) p = diskEntry disk p := by
  apply diskEntry_congr
  intro i hi
  rcases Nat.lt_or_gt_of_ne hne with hlt | hgt
  · exact Mem.write_of_lt (by omega)
  · exact Mem.write_of_ge (by omega)

/-- The entry at `p` has the new size, and the other entries are as they were. -/
structure OwnEntryUpdated (vol : Volume) (dirs : Set Nat) (disk disk' : Mem) (p n : Nat) :
    Prop where
  own : (diskEntry disk' p).fileSize = n
  others : ∀ q, vol.IsEntry dirs q → q ≠ p → diskEntry disk' q = diskEntry disk q

end Volume

/-! ## Two files of one name -/

/-- A volume with the directories `A` and `B`, and a file `C` in each of them. -/
def twinDisk : Mem :=
  let header := [0xEB, 0x3C, 0x90] ++ List.replicate 8 0 ++
    [0, 2, 1, 1, 0, 2, 16, 0, 0, 0x12, 0xF8, 0, 1]
  let disk := Mem.write (fun _ => 0) partitionOffset header
  let disk := disk.write 0x100200 ([0xF8, 0xFF, 0, 0] ++ List.replicate 8 0xFF)
  let disk := disk.write 0x140200 (letterEntry 65 attrDirectory 2 ++ letterEntry 66 attrDirectory 3)
  let disk := disk.write 0x140400 (letterEntry 67 attrArchive 4)
  disk.write 0x140600 (letterEntry 67 attrArchive 5)

theorem twinDisk_mounted : (fat16Resolve ⟨twinDisk, fun _ => 0⟩).isSome = true := by
  decide +kernel

/-- The volume on `twinDisk` -/
def twinVolume : Volume where
  dev := ⟨twinDisk, fun _ => 0⟩
  bpb := (fat16Resolve ⟨twinDisk, fun _ => 0⟩).get twinDisk_mounted
  mounted := (Option.some_get twinDisk_mounted).symm

/-- What a write of one byte to the file with the entry at `p` leaves -/
def twinWrite (p : Nat) : Except WriteStop WriteResult :=
  fat16Write twinVolume.bpb twinVolume.dev 65536 ⟨0, 0⟩ (diskEntry twinDisk p) (fun _ => 120) 1 1

/-- The directories of `twinVolume` -/
theorem twin_directories : twinVolume.Directories twinVolume.dev.disk {2, 3} where
  bounds := by
    rintro c (rfl | rfl)
    · decide
    · decide
  next := by
    rintro c (rfl | rfl) hlive
    · exact absurd hlive (by decide +kernel)
    · exact absurd hlive (by decide +kernel)
  mark := by decide +kernel
  root := by
    have hroot : ∀ k < twinVolume.bpb.rootEntCnt,
        (diskEntry twinVolume.dev.disk (twinVolume.rootPos + 32 * k)).isDirectory →
        u16 (Volume.folderCluster (diskEntry twinVolume.dev.disk (twinVolume.rootPos + 32 * k))) = 2 ∨
        u16 (Volume.folderCluster (diskEntry twinVolume.dev.disk (twinVolume.rootPos + 32 * k))) = 3 := by
      decide +kernel
    exact fun k hk hdir _ => hroot k hk hdir

theorem exists_ok_of_match {β : Type} [DecidableEq β] {x : Except WriteStop WriteResult}
    {f : WriteResult → β} {b : β}
    (h : (match x with | .ok r => some (f r) | .error _ => none) = some b) :
    ∃ r, x = .ok r ∧ f r = b := by
  cases x with
  | ok r => exact ⟨r, rfl, Option.some.inj h⟩
  | error stop => cases h

end Icarius
