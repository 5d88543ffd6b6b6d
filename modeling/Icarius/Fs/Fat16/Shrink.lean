/-
  Icarius.Fs.Fat16.Shrink

  A write that needs fewer clusters than the file has.  `fat16_free_unused_clusters` is
  given the last cluster that has been written, not the first one of the file; its first
  loop passes the arguments of `fat16_get_next_cluster` the wrong way round, and the
  second one the offset of the FAT for that of the partition.  Neither of them reads the
  entries of the chain.

  What the loops read instead is named here (`strayNext`, `entryBehind`), and the write is
  compared with what it should leave on the FAT.
-/

import Mathlib.Data.List.GetD
import Icarius.Fs.Fat16.Append

namespace Icarius

open Icarius.Lib

namespace Volume

/-! ## The data in the clusters of the chain -/

/-- A disk with `bytes` in the clusters, one after the other -/
def putData (vol : Volume) : Mem → List Nat → List UInt8 → Mem
  | disk, [], _ => disk
  | disk, c :: cs, bytes =>
      vol.putData (disk.write (vol.clusterPos c) (bytes.take vol.clusterBytes)) cs
        (bytes.drop vol.clusterBytes)

section Put

variable (vol : Volume)

theorem putData_nil (disk : Mem) (cs : List Nat) : vol.putData disk cs [] = disk := by
  induction cs with
  | nil => rfl
  | cons c cs ih =>
      rw [putData, List.take_nil, List.drop_nil, Mem.write_nil]
      exact ih

/-- What lies in front of the clusters stays. -/
theorem putData_front (disk : Mem) (cs : List Nat) (bytes : List UInt8) {x : Nat}
    (hx : ∀ c, x < vol.clusterPos c) : vol.putData disk cs bytes x = disk x := by
  induction cs generalizing disk bytes with
  | nil => rfl
  | cons c cs ih =>
      rw [putData, ih]
      exact Mem.write_of_lt (hx c)

theorem fatOn_putData (hfat : 256 ≤ vol.bpb.fatsz16) (disk : Mem) (cs : List Nat)
    (bytes : List UInt8) {c : Nat} (hc : c < 65536) :
    vol.fatOn (vol.putData disk cs bytes) c = vol.fatOn disk c := by
  apply Mem.load_congr
  intro x _ hhigh
  apply vol.putData_front
  intro c'
  have hle := vol.fatPos_le_clusterPos hfat c' hc
  omega

end Put

theorem length_bytesOf_of_lt {buffer : Mem} {n m : Nat} (hfits : n * m < 2 ^ 32) :
    (bytesOf buffer n m).length = n * m := by
  rw [length_bytesOf, u32, Nat.mod_eq_of_lt hfits]

section Data

variable {vol : Volume} (hspc : vol.bpb.secPerClus ≤ 64) (hfat : 256 ≤ vol.bpb.fatsz16)
include hspc hfat

/-- The data loop on a chain that is long enough: the data is in its clusters, and the loop
    ends at the last one it needs. -/
theorem writeLoop_chain {fuel : Nat} (additional : Nat) (dev : Ata) {curr : Nat}
    {later : List Nat} {bytes : List UInt8} (hchain : vol.FileChain dev.disk curr (curr :: later))
    (hbytes : bytes ≠ []) (hfuel : bytes.length ≤ fuel)
    (hfits : vol.needed bytes.length ≤ later.length + 1) :
    fat16WriteLoop vol.bpb additional fuel dev curr 0 bytes
      = .ok (⟨vol.putData dev.disk (curr :: later) bytes, dev.behind⟩,
          (curr :: later).getD (vol.needed bytes.length - 1) 0) := by
  have hmax : fat16MaxClusters = 65525 := rfl
  have hmark : fat16ValueEndOfChain = 0xFFF8 := rfl
  -- over the clusters behind the current one; the last of them takes all that is left
  induction later generalizing fuel dev curr bytes with
  | nil =>
      obtain ⟨hlow, hhigh⟩ := hchain.bounds List.mem_cons_self
      have hle : bytes.length ≤ vol.clusterBytes := by
        have hall := vol.le_needed bytes.length
        have hone := Nat.mul_le_mul_right vol.clusterBytes hfits
        rw [List.length_nil, Nat.zero_add, Nat.one_mul] at hone
        omega
      have hpos := List.length_pos_iff.mpr hbytes
      have hone := vol.needed_of_le hpos hle
      rw [writeLoop_fits hspc additional dev hlow hhigh hbytes (by omega) hle, hone, putData, putData,
        List.take_of_length_le hle]
      rfl
  | cons l ls ih =>
      obtain ⟨hlow, hhigh⟩ := hchain.bounds List.mem_cons_self
      rcases Nat.lt_or_ge vol.clusterBytes bytes.length with hgt | hle
      · -- the cluster is filled, and the loop goes on at the next one
        obtain ⟨fuel, rfl⟩ : ∃ k, fuel = k + 1 := ⟨fuel - 1, by omega⟩
        have hcluster := vol.clusterBytes_pos
        have hlen : (bytes.drop vol.clusterBytes).length = bytes.length - vol.clusterBytes :=
          List.length_drop
        have hrest : bytes.drop vol.clusterBytes ≠ [] := by
          intro hnil
          rw [hnil, List.length_nil] at hlen
          omega
        have hneeded := vol.needed_of_gt hgt
        rw [← hlen] at hneeded
        have hpos := vol.needed_pos (List.length_pos_iff.mpr hrest)
        obtain ⟨hl, hlink⟩ := hchain.next_cons
        have hlive := hlink.live_head
        -- the data of this cluster leaves the FAT, and with it the rest of the chain, as it is
        have hlink' : vol.FileChain (dev.disk.write (vol.clusterPos curr)
            (bytes.take vol.clusterBytes)) l (l :: ls) := by
          refine hlink.congr fun x hx => vol.fatOn_write hfat dev.disk ?_
          have hlt := (hlink.bounds hx).2
          omega
        have hround := writeLoop_round hspc fuel additional dev hlow hhigh hgt
        simp only [vol.fatOn_write hfat dev.disk (show curr < 65536 by omega), hl,
          if_neg (show ¬ l ≥ fat16ValueEndOfChain by omega)] at hround
        rw [hround, ih ⟨dev.disk.write (vol.clusterPos curr)
          (bytes.take vol.clusterBytes), dev.behind⟩ hlink' hrest (by omega) (by
            rw [List.length_cons] at hfits
            omega)]
        have hindex : vol.needed bytes.length - 1
            = vol.needed (bytes.drop vol.clusterBytes).length - 1 + 1 := by omega
        rw [hindex, List.getD_cons_succ]
        rfl
      · -- the cluster takes the rest, and the later ones are not looked at
        have hpos := List.length_pos_iff.mpr hbytes
        have hone := vol.needed_of_le hpos hle
        rw [writeLoop_fits hspc additional dev hlow hhigh hbytes (by omega) hle, hone, putData,
          List.take_of_length_le hle, List.drop_of_length_le hle, putData_nil]
        rfl

/-- A write whose data fits the chain: clusters are given back, and the entry is updated. -/
theorem fat16Write_chain {dev : Ata} {lookups n m : Nat} {now : Stamp} {e : DirEntry}
    {cs : List Nat} {buffer : Mem} (hchain : vol.FileChain dev.disk (entryCluster e) cs)
    (hlookups : 65536 ≤ lookups) (hn : 0 < n) (hm : 0 < m) (hfits : n * m < 2 ^ 32)
    (hshort : vol.needed (n * m) ≤ cs.length) :
    fat16Write vol.bpb dev lookups now e buffer n m
      = match givenBack vol.bpb ⟨vol.putData dev.disk cs (bytesOf buffer n m), dev.behind⟩ lookups
          (cs.getD (vol.needed (n * m) - 1) 0) (requiredClusters vol.bpb n) cs.length with
        | none => .error .unfinished
        | some dev₂ =>
            match fat16WriteEntry vol.bpb dev₂ lookups now e (n * m) with
            | none => .error .unfinished
            | some r => .ok r := by
  have hlen : (bytesOf buffer n m).length = n * m := length_bytesOf_of_lt hfits
  have hbytes : bytesOf buffer n m ≠ [] := by
    intro hnil
    rw [hnil, List.length_nil] at hlen
    exact absurd hlen.symm (Nat.mul_pos hn hm).ne'
  obtain ⟨later, hlater⟩ := hchain.head
  have hloop := writeLoop_chain hspc hfat (requiredClusters vol.bpb n - cs.length)
    dev (hlater ▸ hchain) hbytes (Nat.le_refl _) (by
      rw [hlen]
      rw [hlater, List.length_cons] at hshort
      exact hshort)
  rw [← hlater, hlen] at hloop
  have hdef : (List.range (u32 (n * m))).map buffer = bytesOf buffer n m := rfl
  have hcall : ¬ (n = 0 ∨ m = 0) := by omega
  rw [fat16Write, if_neg hcall]
  simp only [hdef, fat16WriteData, chainLength_chain hspc hchain hlookups, hlen, hloop]
  rfl

end Data

/-! ## What the two loops read -/

section Loops

variable (vol : Volume)

/-- What the first loop takes for the cluster behind `x` -/
def strayNext (dev : Ata) (x : Nat) : Nat :=
  (memOf (dev.readAt (x + 512 * vol.bpb.rsvdSec +
    2 * u16 (partitionOffset + 512 * vol.bpb.rsvdSec)) 2)).load 2 0

/-- What the second loop takes for the cluster behind `c`: the FAT is looked for behind
    its own start, by as many sectors as there are in front of it. -/
def entryBehind (disk : Mem) (c : Nat) : Nat := disk.load 2 (vol.fatPos c + 512 * vol.bpb.rsvdSec)

theorem strayNext_lt (dev : Ata) (x : Nat) : vol.strayNext dev x < 65536 := Mem.load_lt _ 2 0

theorem fatTableAbsolute : fat16GetFatTableAbsolute vol.bpb partitionOffset
    = partitionOffset + 512 * vol.bpb.rsvdSec := by
  have hrsvd := vol.rsvdSec_lt
  simp only [fat16GetFatTableAbsolute, vol.bytsPerSec, u32, partitionOffset]
  omega

theorem nextClusterFrom_stray (dev : Ata) {x : Nat} (hx : x < 65536) :
    fat16GetNextClusterFrom vol.bpb dev x (u16 (fat16GetFatTableAbsolute vol.bpb partitionOffset))
      = vol.strayNext dev x := by
  have hrsvd := vol.rsvdSec_lt
  have hoffset : u16 (partitionOffset + 512 * vol.bpb.rsvdSec) < 65536 :=
    Nat.mod_lt _ (by decide)
  rw [vol.fatTableAbsolute, fat16GetNextClusterFrom, strayNext]
  generalize u16 (partitionOffset + 512 * vol.bpb.rsvdSec) = offset at hoffset ⊢
  have hpos : u32 (x + vol.bpb.rsvdSec * vol.bpb.bytsPerSec + offset * 2)
      = x + 512 * vol.bpb.rsvdSec + 2 * offset := by
    simp only [u32, vol.bytsPerSec]
    omega
  simp only [hpos]

theorem nextClusterFrom_behind (dev : Ata) {c : Nat} (hc : c < 65536) :
    fat16GetNextClusterFrom vol.bpb dev (fat16GetFatTableAbsolute vol.bpb partitionOffset) c
      = vol.entryBehind dev.disk c := by
  have hrsvd := vol.rsvdSec_lt
  have hpos : u32 (partitionOffset + 512 * vol.bpb.rsvdSec + vol.bpb.rsvdSec * vol.bpb.bytsPerSec
      + c * 2) = vol.fatPos c + 512 * vol.bpb.rsvdSec := by
    simp only [u32, vol.bytsPerSec, partitionOffset, fatPos]
    omega
  have hin : (vol.fatPos c + 512 * vol.bpb.rsvdSec) % 512 + 2 ≤ 512 ∧
      vol.fatPos c + 512 * vol.bpb.rsvdSec + 2 ≤ 2 ^ 32 := by
    simp only [partitionOffset, fatPos]
    omega
  rw [vol.fatTableAbsolute, fat16GetNextClusterFrom]
  simp only [hpos, entryBehind]
  rw [readAt_disk _ hin.2 (Or.inr hin.1)]
  rfl

/-- The first loop reads in front of the FAT, which is not written. -/
theorem strayNext_putData (dev : Ata) (cs : List Nat) (bytes : List UInt8) {x : Nat}
    (hx : x < 65536) :
    vol.strayNext ⟨vol.putData dev.disk cs bytes, dev.behind⟩ x = vol.strayNext dev x := by
  have hrsvd := vol.rsvdSec_lt
  have hoffset : u16 (partitionOffset + 512 * vol.bpb.rsvdSec) < 65536 :=
    Nat.mod_lt _ (by decide)
  rw [strayNext, strayNext]
  generalize u16 (partitionOffset + 512 * vol.bpb.rsvdSec) = offset at hoffset ⊢
  rw [readAt_eq, readAt_eq]
  congr 2
  apply List.map_congr_left
  intro j hj
  have hjlt := List.mem_range.mp hj
  rw [Ata.byteFrom, Ata.byteFrom]
  split
  · apply vol.putData_front
    intro c
    simp only [clusterPos, rootPos, partitionOffset]
    omega
  · rfl

theorem iterate_strayNext_putData (dev : Ata) (cs : List Nat) (bytes : List UInt8) {x : Nat}
    (hx : x < 65536) (i : Nat) :
    (vol.strayNext ⟨vol.putData dev.disk cs bytes, dev.behind⟩)^[i] x = (vol.strayNext dev)^[i] x := by
  induction i generalizing x with
  | zero => rfl
  | succ i ih =>
      rw [Function.iterate_succ_apply, Function.iterate_succ_apply, vol.strayNext_putData dev cs bytes hx]
      exact ih (vol.strayNext_lt dev x)

/-! ## The first loop -/

variable {vol} {dev : Ata}

/-- The first loop goes through all its rounds. -/
theorem skipRequired_live {n prev curr : Nat} (hcurr : curr < 65536)
    (h : ∀ i ≤ n, (vol.strayNext dev)^[i] curr < fat16ValueEndOfChain) :
    skipRequired vol.bpb dev (fat16GetFatTableAbsolute vol.bpb partitionOffset) (n + 1) prev curr
      = ((vol.strayNext dev)^[n] curr, (vol.strayNext dev)^[n + 1] curr) := by
  induction n generalizing prev curr with
  | zero =>
      have hlive : curr < fat16ValueEndOfChain := h 0 (Nat.le_refl 0)
      rw [skipRequired, if_pos hlive, skipRequired, vol.nextClusterFrom_stray dev hcurr]
      rfl
  | succ n ih =>
      have hlive : curr < fat16ValueEndOfChain := h 0 (Nat.zero_le _)
      rw [skipRequired, if_pos hlive, vol.nextClusterFrom_stray dev hcurr,
        ih (vol.strayNext_lt dev curr) fun i hi => h (i + 1) (Nat.succ_le_succ hi)]
      rfl

/-- The first loop ends at a number that is an end mark. -/
theorem skipRequired_ended {n i prev curr : Nat} (hcurr : curr < 65536) (hi : i ≤ n)
    (h : fat16ValueEndOfChain ≤ (vol.strayNext dev)^[i] curr) :
    fat16ValueEndOfChain ≤
      (skipRequired vol.bpb dev (fat16GetFatTableAbsolute vol.bpb partitionOffset) n prev curr).2 := by
  induction n generalizing i prev curr with
  | zero =>
      obtain rfl := Nat.le_zero.mp hi
      exact h
  | succ n ih =>
      rw [skipRequired]
      by_cases hlive : curr < fat16ValueEndOfChain
      · rw [if_pos hlive, vol.nextClusterFrom_stray dev hcurr]
        cases i with
        | zero => exact absurd h (Nat.not_le.mpr hlive)
        | succ i => exact ih (vol.strayNext_lt dev curr) (Nat.le_of_succ_le_succ hi) h
      · rw [if_neg hlive]
        exact Nat.not_lt.mp hlive

/-! ## The second loop -/

/-- The disk after the driver has freed cluster `c`: there are numbers it makes no entry for. -/
def freed (vol : Volume) (disk : Mem) (c : Nat) : Mem :=
  if c < fat16MaxClusters then vol.setFat disk c fat16ValueFree else disk

/-- From cluster `c` on the second loop comes to the clusters `ws`, and frees them. -/
inductive FreesAlong (vol : Volume) : Mem → Nat → List Nat → Mem → Prop
  | stop {disk : Mem} {c : Nat} (hout : ¬ (2 ≤ c ∧ c < fat16ValueEndOfChain)) :
      FreesAlong vol disk c [] disk
  | free {disk disk' : Mem} {c : Nat} {ws : List Nat} (hin : 2 ≤ c ∧ c < fat16ValueEndOfChain)
      (hrest : FreesAlong vol (vol.freed disk c) (vol.entryBehind disk c) ws disk') :
      FreesAlong vol disk c (c :: ws) disk'

theorem FreesAlong.unique {disk disk₁ disk₂ : Mem} {c : Nat} {ws₁ ws₂ : List Nat}
    (h : vol.FreesAlong disk c ws₁ disk₁) (h' : vol.FreesAlong disk c ws₂ disk₂) :
    ws₁ = ws₂ ∧ disk₁ = disk₂ := by
  induction h generalizing ws₂ with
  | stop hout =>
      cases h' with
      | stop => exact ⟨rfl, rfl⟩
      | free hin => exact absurd hin hout
  | free hin _ ih =>
      cases h' with
      | stop hout => exact absurd hin hout
      | free _ hrest' =>
          obtain ⟨rfl, rfl⟩ := ih hrest'
          exact ⟨rfl, rfl⟩

theorem FreesAlong.bounds {disk disk' : Mem} {c : Nat} {ws : List Nat}
    (h : vol.FreesAlong disk c ws disk') : ∀ w ∈ ws, 2 ≤ w ∧ w < fat16ValueEndOfChain := by
  induction h with
  | stop =>
      intro w hw
      cases hw
  | free hin _ ih =>
      intro w hw
      rcases List.mem_cons.mp hw with rfl | hw
      · exact hin
      · exact ih w hw

theorem fatOn_freed (disk : Mem) (c x : Nat) : vol.fatOn (vol.freed disk c) x
    = if x = c ∧ x < fat16MaxClusters then fat16ValueFree else vol.fatOn disk x := by
  by_cases hc : c < fat16MaxClusters
  · rw [freed, if_pos hc]
    by_cases hxc : x = c
    · subst hxc
      rw [vol.setFat_self _ _ (by decide), if_pos ⟨rfl, hc⟩]
    · rw [vol.setFat_of_ne _ _ hxc, if_neg fun h => hxc h.1]
  · rw [freed, if_neg hc, if_neg]
    rintro ⟨rfl, hx⟩
    exact hc hx

/-- The FAT after the second loop -/
theorem FreesAlong.fat {disk disk' : Mem} {c : Nat} {ws : List Nat}
    (h : vol.FreesAlong disk c ws disk') (x : Nat) : vol.fatOn disk' x
      = if x ∈ ws ∧ x < fat16MaxClusters then fat16ValueFree else vol.fatOn disk x := by
  induction h with
  | stop => rw [if_neg fun h => List.not_mem_nil h.1]
  | @free disk disk' c ws _ _ ih =>
      rw [ih, fatOn_freed]
      by_cases hx : x < fat16MaxClusters
      · by_cases hmem : x ∈ ws
        · rw [if_pos ⟨hmem, hx⟩, if_pos ⟨List.mem_cons_of_mem c hmem, hx⟩]
        · rw [if_neg fun h => hmem h.1]
          by_cases hxc : x = c
          · rw [if_pos ⟨hxc, hx⟩, if_pos ⟨hxc ▸ List.mem_cons_self, hx⟩]
          · rw [if_neg fun h => hxc h.1,
              if_neg fun h => List.not_mem_cons_of_ne_of_not_mem hxc hmem h.1]
      · rw [if_neg fun h => hx h.2, if_neg fun h => hx h.2, if_neg fun h => hx h.2]

theorem createFatEntry_freed (dev : Ata) {c : Nat} (hlow : 2 ≤ c) :
    (fat16CreateFatEntry vol.bpb dev c fat16ValueFree).2 = ⟨vol.freed dev.disk c, dev.behind⟩ := by
  rw [freed]
  by_cases hc : c < fat16MaxClusters
  · rw [if_pos hc]
    exact vol.createFatEntry_on dev _ hlow hc
  · rw [if_neg hc, fat16CreateFatEntry, if_pos (.inr (Nat.not_lt.mp hc))]

theorem freeChain_along {lookups : Nat} {dev dev' : Ata} {c : Nat} (hc : c < 65536)
    (h : freeChain vol.bpb (fat16GetFatTableAbsolute vol.bpb partitionOffset) lookups dev c
      = some dev') : ∃ ws, vol.FreesAlong dev.disk c ws dev'.disk := by
  induction lookups generalizing dev c with
  | zero => cases h
  | succ lookups ih =>
      rw [freeChain] at h
      by_cases hin : 2 ≤ c ∧ c < fat16ValueEndOfChain
      · rw [if_pos hin, vol.nextClusterFrom_behind dev hc, createFatEntry_freed dev hin.1] at h
        obtain ⟨ws, hws⟩ := ih (Mem.load_lt _ 2 _) h
        exact ⟨c :: ws, .free hin hws⟩
      · rw [if_neg hin] at h
        rw [← Option.some.inj h]
        exact ⟨[], .stop hin⟩

/-- An end mark, for a number the driver makes an entry for -/
theorem fatOn_mark (dev : Ata) (c x : Nat) :
    vol.fatOn (fat16CreateFatEntry vol.bpb dev c fat16ValueEndOfChain).2.disk x
      = if x = c ∧ 2 ≤ c ∧ c < fat16MaxClusters then fat16ValueEndOfChain
        else vol.fatOn dev.disk x := by
  by_cases hc : 2 ≤ c ∧ c < fat16MaxClusters
  · rw [vol.createFatEntry_on dev _ hc.1 hc.2]
    by_cases hxc : x = c
    · subst hxc
      rw [vol.setFat_self _ _ (by decide), if_pos ⟨rfl, hc⟩]
    · rw [vol.setFat_of_ne _ _ hxc, if_neg fun h => hxc h.1]
  · rw [fat16CreateFatEntry, if_pos (by omega), if_neg fun h => hc h.2]

/-- What `fat16_free_unused_clusters` leaves, when it is given cluster `last` -/
theorem freeUnused_cases {dev₁ dev₂ : Ata} {lookups k existing last : Nat} (hlow : 2 ≤ last)
    (hlast : last < 65536) (hless : k + 1 < existing)
    (h : fat16FreeUnusedClusters vol.bpb dev₁ lookups last (k + 1) existing
      (fat16GetFatTableAbsolute vol.bpb partitionOffset) = some dev₂) :
    ((∃ i ≤ k + 1, fat16ValueEndOfChain ≤ (vol.strayNext dev₁)^[i] last) ∧ dev₂ = dev₁) ∨
      ((∀ i ≤ k + 1, (vol.strayNext dev₁)^[i] last < fat16ValueEndOfChain) ∧
        ∃ ws, vol.FreesAlong
          (fat16CreateFatEntry vol.bpb dev₁ ((vol.strayNext dev₁)^[k] last)
            fat16ValueEndOfChain).2.disk
          ((vol.strayNext dev₁)^[k + 1] last) ws dev₂.disk) := by
  have hcall : ¬ (k + 1 ≥ existing ∨ last < 2) := by omega
  rw [fat16FreeUnusedClusters, if_neg hcall] at h
  simp only at h
  by_cases hend : ∃ i ≤ k + 1, fat16ValueEndOfChain ≤ (vol.strayNext dev₁)^[i] last
  · obtain ⟨i, hi, hge⟩ := hend
    rw [if_pos (skipRequired_ended hlast hi hge)] at h
    exact .inl ⟨⟨i, hi, hge⟩, (Option.some.inj h).symm⟩
  · have hlive : ∀ i ≤ k + 1, (vol.strayNext dev₁)^[i] last < fat16ValueEndOfChain := by
      intro i hi
      exact Nat.not_le.mp fun hge => hend ⟨i, hi, hge⟩
    rw [skipRequired_live hlast fun i hi => hlive i (Nat.le_succ_of_le hi)] at h
    simp only [if_neg (Nat.not_le.mpr (hlive (k + 1) (Nat.le_refl _)))] at h
    refine .inr ⟨hlive, freeChain_along ?_ h⟩
    rw [Function.iterate_succ_apply']
    exact vol.strayNext_lt dev₁ _

end Loops

/-! ## The rest of the write -/

section Rest

variable {vol : Volume} (hspc : vol.bpb.secPerClus ≤ 64) (hfat : 256 ≤ vol.bpb.fatsz16)
include hspc hfat

theorem written_putData {disk : Mem} {start : Nat} {cs : List Nat} {bytes : List UInt8}
    (hchain : vol.FileChain disk start cs) (hbytes : bytes ≠ [])
    (hfits : vol.needed bytes.length ≤ cs.length) :
    vol.Written disk start cs [] bytes (vol.putData disk cs bytes) := by
  obtain ⟨later, rfl⟩ := hchain.head
  rw [List.length_cons] at hfits
  have hloop := writeLoop_chain hspc hfat 0 ⟨disk, fun _ => 0⟩ hchain hbytes
    (Nat.le_refl _) hfits
  obtain ⟨dev', last, hloop', hwritten⟩ := (writeLoop_cases hspc hfat 0
    ⟨disk, fun _ => 0⟩ hchain hbytes (Nat.le_refl _)).1 (.inl hfits)
  rw [hloop] at hloop'
  obtain ⟨rfl, -⟩ := Prod.mk.inj (Except.ok.inj hloop')
  rw [Nat.sub_eq_zero_of_le hfits, List.take_zero] at hwritten
  exact hwritten

/-- The update of the entry does not change the FAT. -/
theorem fatOn_writeEntry {dev : Ata} {cells : Set Nat} (hs : vol.Searched dev.disk cells)
    {lookups n : Nat} {now : Stamp} {e : DirEntry} {r : WriteResult} (hlen : e.bytes.length = 32)
    (h : fat16WriteEntry vol.bpb dev lookups now e n = some r) {c : Nat} (hc : c < 65536) :
    vol.fatOn r.dev.disk c = vol.fatOn dev.disk c := by
  rw [fat16WriteEntry] at h
  split at h
  · simp only [DirEntry.fileName_setFileSize n hlen] at h
    split at h
    · cases h
    · rename_i parent hparent
      split at h
      · cases h
      · rename_i q hq
        split at h
        · rw [← Option.some.inj h]
        · rename_i hne
          have hfound : searchEntry vol.bpb dev lookups e.fileName = some q := by
            rw [searchEntry, hparent, Option.bind_some, hq]
          obtain ⟨x, hx, i, hi, hpos⟩ := searchEntry_pos hspc hfat hs hfound hne
          have hgrown : (e.grown n now).bytes.length = 32 := DirEntry.length_grown n now hlen
          have hwrite := writeAt_entry dev hgrown (hs.aligned hspc hfat hfound hne)
          have hdev : r.dev = dev.writeAt q (e.grown n now).bytes := by
            rw [← Option.some.inj h]
            rfl
          rw [hdev, hwrite]
          have hle := fatPos_le_searchPos hspc hfat x (x := 65536) (Nat.le_refl 65536)
          apply Mem.load_congr
          apply Mem.agree_write
          simp only [fatPos] at hle ⊢
          omega
  · rw [← Option.some.inj h]

end Rest

/-! ## A file that becomes shorter -/

/-- The file has the first `k` clusters of its chain, those behind them are free, and the
    entries of all other clusters, whose numbers have 16 bits, are as they were. -/
structure FreesSurplus (vol : Volume) (disk disk' : Mem) (start : Nat) (cs : List Nat) (k : Nat) :
    Prop where
  chain : vol.FileChain disk' start (cs.take k)
  surplus : ∀ c ∈ cs.drop k, vol.fatOn disk' c = fat16ValueFree
  others : ∀ c < 65536, c ∉ cs → vol.fatOn disk' c = vol.fatOn disk c

/-- From the last cluster that is written, what the first loop reads in front of the FAT
    leads back to that cluster, and from there on, by way of entries that are not those of
    the chain, the second loop comes to all clusters of the file that are not needed, and
    else to free ones only. -/
structure FindsSurplus (vol : Volume) (dev : Ata) (cs : List Nat) (k : Nat) (bytes : List UInt8) :
    Prop where
  live : ∀ i ≤ k, (vol.strayNext dev)^[i] (cs.getD (k - 1) 0) < fat16ValueEndOfChain
  back : (vol.strayNext dev)^[k - 1] (cs.getD (k - 1) 0) = cs.getD (k - 1) 0
  frees : ∃ ws disk', vol.FreesAlong
      (vol.setFat (vol.putData dev.disk cs bytes) (cs.getD (k - 1) 0) fat16ValueEndOfChain)
      ((vol.strayNext dev)^[k] (cs.getD (k - 1) 0)) ws disk' ∧
    (∀ c ∈ cs.drop k, c ∈ ws) ∧
    ∀ w ∈ ws, w < fat16MaxClusters → w ∈ cs.drop k ∨ vol.fatOn dev.disk w = fat16ValueFree

section Surplus

variable {vol : Volume} {disk disk' : Mem} {start k : Nat} {cs ws : List Nat}

/-- The last cluster that is needed, and those around it -/
theorem FileChain.split_at (hchain : vol.FileChain disk start cs) (hpos : 0 < k)
    (hless : k < cs.length) :
    cs.getD (k - 1) 0 ∈ cs.take k ∧ cs.getD (k - 1) 0 ∉ cs.drop k ∧
      vol.fatOn disk (cs.getD (k - 1) 0) < fat16ValueEndOfChain := by
  have hmax : fat16MaxClusters = 65525 := rfl
  have hmark : fat16ValueEndOfChain = 0xFFF8 := rfl
  obtain ⟨j, rfl⟩ : ∃ j, k = j + 1 := ⟨k - 1, by omega⟩
  have hget : cs.getD j 0 = cs[j] := List.getD_eq_getElem cs 0 (by omega)
  have htake : cs[j] ∈ cs.take (j + 1) := by
    rw [List.mem_take_iff_getElem]
    exact ⟨j, by omega, rfl⟩
  rw [Nat.add_sub_cancel, hget]
  refine ⟨htake, fun hdrop => ?_, ?_⟩
  · have hnodup := hchain.nodup
    rw [← List.take_append_drop (j + 1) cs, List.nodup_append'] at hnodup
    exact hnodup.2.2 htake hdrop
  · have hnow := hchain.getElem?_iterate (k := j) (by omega)
    have hnext := hchain.getElem?_iterate hless
    rw [List.getElem?_eq_getElem (by omega), Option.some.injEq] at hnow hnext
    rw [Function.iterate_succ_apply', ← hnow] at hnext
    have hlive := (hchain.bounds (List.getElem_mem (show j + 1 < cs.length by omega))).2
    omega

/-- What the FAT should be, entry by entry -/
theorem freesSurplus_of_fat (hchain : vol.FileChain disk start cs) (hpos : 0 < k)
    (hless : k < cs.length)
    (hend : fat16ValueEndOfChain ≤ vol.fatOn disk' (cs.getD (k - 1) 0))
    (hfree : ∀ c ∈ cs.drop k, vol.fatOn disk' c = fat16ValueFree)
    (hsame : ∀ c < 65536, c ≠ cs.getD (k - 1) 0 → c ∉ cs.drop k →
      vol.fatOn disk' c = vol.fatOn disk c) :
    vol.FreesSurplus disk disk' start cs k := by
  have hmax : fat16MaxClusters = 65525 := rfl
  obtain ⟨hlast, -, -⟩ := hchain.split_at hpos hless
  obtain ⟨j, rfl⟩ : ∃ j, k = j + 1 := ⟨k - 1, by omega⟩
  rw [Nat.add_sub_cancel] at hlast hend hsame
  have hget : cs.getD j 0 = cs[j] := List.getD_eq_getElem cs 0 (by omega)
  have hnodup := hchain.nodup
  refine ⟨IsChain.cut hchain (by omega) (fun x hx => ?_) (hget ▸ hend), hfree, fun c hc hout => ?_⟩
  · have hlt := (hchain.bounds (List.mem_of_mem_take hx)).2
    have hdrop : x ∉ cs.drop j := by
      rw [← List.take_append_drop j cs, List.nodup_append'] at hnodup
      exact hnodup.2.2 hx
    rw [List.drop_eq_getElem_cons (by omega), List.mem_cons, not_or] at hdrop
    exact hsame x (by omega) (hget ▸ hdrop.1) hdrop.2
  · refine hsame c hc ?_ fun hdrop => hout (List.mem_of_mem_drop hdrop)
    rintro rfl
    exact hout (List.mem_of_mem_take hlast)

/-- The last cluster of the file has an end mark. -/
theorem FreesSurplus.ended (h : vol.FreesSurplus disk disk' start cs k) (hpos : 0 < k)
    (hless : k < cs.length) : fat16ValueEndOfChain ≤ vol.fatOn disk' (cs.getD (k - 1) 0) := by
  obtain ⟨j, rfl⟩ : ∃ j, k = j + 1 := ⟨k - 1, by omega⟩
  have hend := h.chain.ended_getLastD 0
  rw [List.take_succ_eq_append_getElem (by omega), List.getLastD_concat] at hend
  rw [Nat.add_sub_cancel, List.getD_eq_getElem cs 0 (by omega)]
  exact hend

end Surplus

/-- What such a write leaves on the FAT: what it was, when the first loop comes to an end
    mark, or else a new end mark, and free entries where the second loop comes to. -/
theorem shrink_cases {vol : Volume} {dev : Ata} {lookups n : Nat} {now : Stamp} {e : DirEntry}
    {buffer : Mem} {cs : List Nat} {dirs : Set Nat} {r : WriteResult}
    (hspc : vol.bpb.secPerClus ≤ 64) (hfat : 256 ≤ vol.bpb.fatsz16)
    (hfile : vol.FileOn dev.disk dirs e cs) (hlookups : 65536 ≤ lookups) (hn : 0 < n)
    (hless : vol.needed n < cs.length)
    (h : fat16Write vol.bpb dev lookups now e buffer n 1 = .ok r) {last : Nat}
    (hlast : last = cs.getD (vol.needed n - 1) 0) :
    ((∃ i ≤ vol.needed n, fat16ValueEndOfChain ≤ (vol.strayNext dev)^[i] last) ∧
      ∀ x < 65536, vol.fatOn r.dev.disk x = vol.fatOn dev.disk x) ∨
    ((∀ i ≤ vol.needed n, (vol.strayNext dev)^[i] last < fat16ValueEndOfChain) ∧
      ∃ prev ws disk', prev = (vol.strayNext dev)^[vol.needed n - 1] last ∧
        vol.FreesAlong (fat16CreateFatEntry vol.bpb
            ⟨vol.putData dev.disk cs (bytesOf buffer n 1), dev.behind⟩ prev
            fat16ValueEndOfChain).2.disk
          ((vol.strayNext dev)^[vol.needed n] last) ws disk' ∧
        ∀ x < 65536, vol.fatOn r.dev.disk x
          = if x ∈ ws ∧ x < fat16MaxClusters then fat16ValueFree
            else if x = prev ∧ 2 ≤ prev ∧ prev < fat16MaxClusters then fat16ValueEndOfChain
            else vol.fatOn dev.disk x) := by
  have hmax : fat16MaxClusters = 65525 := rfl
  have hchain := hfile.chain
  have hcount := hchain.length_lt
  have hrequired := vol.requiredClusters_eq hspc (n := n) (by omega)
  have hsmall := vol.add_clusterBytes_lt hspc (n := n) (by omega)
  have hbytes : (bytesOf buffer n 1).length = n := by
    rw [length_bytesOf_of_lt (by omega), Nat.mul_one]
  have hnonempty : bytesOf buffer n 1 ≠ [] := by
    intro hnil
    rw [hnil, List.length_nil] at hbytes
    omega
  -- the three parts of the write
  rw [fat16Write_chain hspc hfat hchain hlookups hn Nat.one_pos (by omega)
    (by rw [Nat.mul_one]; omega), Nat.mul_one, hrequired, ← hlast] at h
  obtain ⟨dev₁, hdev₁⟩ : ∃ d : Ata, d = ⟨vol.putData dev.disk cs (bytesOf buffer n 1), dev.behind⟩ :=
    ⟨_, rfl⟩
  have hdisk₁ : dev₁.disk = vol.putData dev.disk cs (bytesOf buffer n 1) := by rw [hdev₁]
  rw [← hdev₁] at h ⊢
  split at h
  · cases h
  rename_i dev₂ hback
  split at h
  · cases h
  rename_i r' hentry
  rw [Except.ok.inj h] at hentry
  -- the FAT is what `fat16_free_unused_clusters` leaves
  have hwritten := written_putData hspc hfat hchain hnonempty (by rw [hbytes]; omega)
  have htree : vol.Directories dev₁.disk dirs := by
    rw [hdisk₁]
    exact hfile.tree.congr (hwritten.sameSearch hspc hfat hfile.tree (by
      rw [List.append_nil]
      exact hfile.apart))
  have hsearched := htree.searched.cut hfat (FatCut.givenBack hback)
  have hfinal : ∀ c < 65536, vol.fatOn r.dev.disk c = vol.fatOn dev₂.disk c := fun c hc =>
    fatOn_writeEntry hspc hfat hsearched hfile.length hentry hc
  have hsame : ∀ c < 65536, vol.fatOn dev₁.disk c = vol.fatOn dev.disk c := by
    intro c hc
    rw [hdisk₁]
    exact vol.fatOn_putData hfat dev.disk cs _ hc
  have hpos := vol.needed_pos hn
  obtain ⟨k, hk⟩ : ∃ k, vol.needed n = k + 1 := ⟨vol.needed n - 1, by omega⟩
  have hmem := (hchain.split_at hpos hless).1
  rw [← hlast] at hmem
  obtain ⟨hlow, hhigh⟩ := hchain.bounds (List.mem_of_mem_take hmem)
  have hstray : ∀ i, (vol.strayNext dev₁)^[i] last = (vol.strayNext dev)^[i] last := by
    intro i
    rw [hdev₁]
    exact vol.iterate_strayNext_putData dev cs _ (by omega) i
  rw [hk] at hless hback ⊢
  rw [givenBack, if_pos hless] at hback
  rcases freeUnused_cases hlow (by omega) hless hback with ⟨hended, rfl⟩ | ⟨hlive, ws, hws⟩
  · simp only [hstray] at hended
    exact .inl ⟨hended, fun x hx => (hfinal x hx).trans (hsame x hx)⟩
  · simp only [hstray] at hlive hws
    refine .inr ⟨hlive, _, ws, dev₂.disk, rfl, hws, fun x hx => ?_⟩
    rw [hfinal x hx, hws.fat, fatOn_mark, hsame x hx, Nat.add_sub_cancel]

/-- A write that needs fewer clusters than the file has frees the others exactly when the
    two loops, which do not read the entries of the chain, come to them all the same. -/
theorem freesSurplus_iff (vol : Volume) (dev : Ata) (lookups : Nat) (now : Stamp) (e : DirEntry)
    (buffer : Mem) (n : Nat) (cs : List Nat) (dirs : Set Nat) (r : WriteResult)
    (hspc : vol.bpb.secPerClus ≤ 64) (hfat : 256 ≤ vol.bpb.fatsz16)
    (hfile : vol.FileOn dev.disk dirs e cs) (hlookups : 65536 ≤ lookups) (hn : 0 < n)
    (hless : vol.needed n < cs.length)
    (h : fat16Write vol.bpb dev lookups now e buffer n 1 = .ok r) :
    vol.FreesSurplus dev.disk r.dev.disk (entryCluster e) cs (vol.needed n) ↔
      vol.FindsSurplus dev cs (vol.needed n) (bytesOf buffer n 1) := by
  have hmax : fat16MaxClusters = 65525 := rfl
  have hmark : fat16ValueEndOfChain = 0xFFF8 := rfl
  have hfree : fat16ValueFree = 0 := rfl
  have hchain := hfile.chain
  have hpos := vol.needed_pos hn
  obtain ⟨last, hlast⟩ : ∃ c, c = cs.getD (vol.needed n - 1) 0 := ⟨_, rfl⟩
  obtain ⟨htake, hdrop, hlive⟩ := hchain.split_at hpos hless
  rw [← hlast] at htake hdrop hlive
  obtain ⟨hlow, hhigh⟩ := hchain.bounds (List.mem_of_mem_take htake)
  have hcreate : ∀ d : Ata, (fat16CreateFatEntry vol.bpb d last fat16ValueEndOfChain).2.disk
      = vol.setFat d.disk last fat16ValueEndOfChain := by
    intro d
    rw [vol.createFatEntry_on d _ hlow hhigh]
  rcases shrink_cases hspc hfat hfile hlookups hn hless h hlast with
    ⟨⟨i, hi, hge⟩, hsame⟩ | ⟨hall, prev, ws, disk₂, hprev, hws, hvalue⟩
  · -- nothing is given back
    refine iff_of_false (fun hfrees => ?_) fun hfinds => ?_
    · have hend := hfrees.ended hpos hless
      rw [← hlast, hsame last (by omega)] at hend
      omega
    · have hlt := hfinds.live i hi
      rw [← hlast] at hlt
      omega
  constructor
  · intro hfrees
    -- only one entry is given an end mark, and this is that of the last cluster
    have hend := hfrees.ended hpos hless
    rw [← hlast] at hend
    have hnotin : last ∉ ws := by
      intro hmem
      rw [hvalue last (by omega), if_pos ⟨hmem, hhigh⟩] at hend
      omega
    have hpl : last = prev := by
      by_contra hne
      rw [hvalue last (by omega), if_neg fun h => hnotin h.1, if_neg fun h => hne h.1] at hend
      omega
    rw [← hpl, hcreate] at hws
    refine ⟨fun i hi => hlast ▸ hall i hi, ?_, ws, disk₂, ?_, fun c hc => ?_, fun w hw hwlt => ?_⟩
    · rw [← hlast, ← hprev]
      exact hpl.symm
    · rw [← hlast]
      exact hws
    · by_contra hout
      have hcmem := List.mem_of_mem_drop hc
      have hclt := (hchain.bounds hcmem).2
      have hne : c ≠ last := by
        rintro rfl
        exact hdrop hc
      have hzero := hfrees.surplus c hc
      rw [hvalue c (by omega), if_neg fun h => hout h.1, if_neg fun h => hne (h.1.trans hpl.symm)]
        at hzero
      exact hchain.not_free hcmem hzero
    · have hzero : vol.fatOn r.dev.disk w = fat16ValueFree := by
        rw [hvalue w (by omega), if_pos ⟨hw, hwlt⟩]
      by_cases hin : w ∈ cs
      · rw [← List.take_append_drop (vol.needed n) cs, List.mem_append] at hin
        rcases hin with hin | hin
        · exact absurd hzero (hfrees.chain.not_free hin)
        · exact .inl hin
      · rw [← hfrees.others w (by omega) hin]
        exact .inr hzero
  · intro hfinds
    have hpl : prev = last := by
      have hback := hfinds.back
      rw [← hlast] at hback
      exact hprev.trans hback
    rw [hpl, hcreate] at hws
    obtain ⟨ws', disk', hws', hsurplus, hothers⟩ := hfinds.frees
    rw [← hlast] at hws'
    obtain ⟨rfl, -⟩ := hws'.unique hws
    have hnotin : last ∉ ws' := by
      intro hmem
      rcases hothers last hmem hhigh with hin | hzero
      · exact hdrop hin
      · exact hchain.not_free (List.mem_of_mem_take htake) hzero
    apply freesSurplus_of_fat hchain hpos hless
    · rw [← hlast, hvalue last (by omega), if_neg fun h => hnotin h.1,
        if_pos ⟨hpl.symm, hpl ▸ hlow, hpl ▸ hhigh⟩]
    · intro c hc
      have hclt := (hchain.bounds (List.mem_of_mem_drop hc)).2
      rw [hvalue c (by omega), if_pos ⟨hsurplus c hc, hclt⟩]
    · intro c hc hne hout
      rw [← hlast] at hne
      rw [hvalue c hc]
      by_cases hmem : c ∈ ws' ∧ c < fat16MaxClusters
      · rw [if_pos hmem]
        exact ((hothers c hmem.1 hmem.2).resolve_left hout).symm
      · rw [if_neg hmem, if_neg fun h => hne (h.1.trans hpl)]

end Volume

/-! ## Two clusters, and one byte -/

/-- `twinDisk` without the file in `B`; the file in `A` has the clusters 4 and 5. -/
def pairDisk : Mem := (twinDisk.write 0x100208 [5, 0]).write 0x140600 (List.replicate 32 0)

theorem pairDisk_mounted : (fat16Resolve ⟨pairDisk, fun _ => 0⟩).isSome = true := by
  decide +kernel

/-- The volume on `pairDisk` -/
def pairVolume : Volume where
  dev := ⟨pairDisk, fun _ => 0⟩
  bpb := (fat16Resolve ⟨pairDisk, fun _ => 0⟩).get pairDisk_mounted
  mounted := (Option.some_get pairDisk_mounted).symm

/-- The entry of the file -/
def pairEntry : DirEntry := diskEntry pairDisk 0x140400

theorem pair_chain : pairVolume.FileChain pairVolume.dev.disk (entryCluster pairEntry) [4, 5] := by
  have hnext : pairVolume.fatOn pairVolume.dev.disk (entryCluster pairEntry) = 5 := by
    decide +kernel
  have hstart : entryCluster pairEntry = 4 := by decide +kernel
  have hrest : pairVolume.FileChain pairVolume.dev.disk 5 [5] :=
    .last (by decide) (by decide +kernel)
  have hlink : pairVolume.FileChain pairVolume.dev.disk (entryCluster pairEntry)
      (entryCluster pairEntry :: [5]) := by
    apply IsChain.link
    · rw [hstart]
      decide
    · rw [hnext]
      exact hrest
  rw [hstart] at hlink ⊢
  exact hlink

theorem pair_fileOn : pairVolume.FileOn pairVolume.dev.disk {2, 3} pairEntry [4, 5] where
  length := by decide +kernel
  file := by decide +kernel
  chain := pair_chain
  tree := {
    bounds := by
      rintro c (rfl | rfl)
      · decide
      · decide
    next := by
      rintro c (rfl | rfl) hlive
      · exact absurd hlive (by decide +kernel)
      · exact absurd hlive (by decide +kernel)
    mark := by decide +kernel
    root := by
      have hroot : ∀ k < pairVolume.bpb.rootEntCnt,
          (diskEntry pairVolume.dev.disk (pairVolume.rootPos + 32 * k)).isDirectory →
          u16 (Volume.folderCluster (diskEntry pairVolume.dev.disk (pairVolume.rootPos + 32 * k)))
              = 2 ∨
            u16 (Volume.folderCluster (diskEntry pairVolume.dev.disk (pairVolume.rootPos + 32 * k)))
              = 3 := by
        decide +kernel
      exact fun k hk hdir _ => hroot k hk hdir }
  apart := by
    intro c hc
    rcases List.mem_cons.mp hc with rfl | hc
    · rintro (h | h) <;> cases h
    · rw [List.mem_singleton.mp hc]
      rintro (h | h) <;> cases h

/-- One byte is written to the file, and cluster 5 still has its end mark. -/
theorem pair_write : ∃ r, fat16Write pairVolume.bpb pairVolume.dev 65536 ⟨0, 0⟩ pairEntry
    (fun _ => 120) 1 1 = .ok r ∧ pairVolume.fatOn r.dev.disk 5 = 0xFFFF :=
  exists_ok_of_match (f := fun r => pairVolume.fatOn r.dev.disk 5) (by decide +kernel)

/-- The loops come to no cluster of the file. -/
theorem freesSurplus_pair : ∃ r, fat16Write pairVolume.bpb pairVolume.dev 65536 ⟨0, 0⟩ pairEntry
    (fun _ => 120) 1 1 = .ok r ∧
      ¬ pairVolume.FreesSurplus pairVolume.dev.disk r.dev.disk (entryCluster pairEntry) [4, 5]
        (pairVolume.needed 1) := by
  obtain ⟨r, hwrite, -⟩ := pair_write
  have hone : pairVolume.needed 1 = 1 := by decide +kernel
  refine ⟨r, hwrite, fun hfrees => ?_⟩
  have hfinds := (Volume.freesSurplus_iff pairVolume pairVolume.dev 65536 ⟨0, 0⟩ pairEntry
    (fun _ => 120) 1 [4, 5] {2, 3} r (by decide +kernel) (by decide +kernel) pair_fileOn
    (Nat.le_refl _) Nat.one_pos (by rw [hone]; decide) hwrite).mp hfrees
  rw [hone] at hfinds
  obtain ⟨ws, disk', hws, hsurplus, -⟩ := hfinds.frees
  have hfirst : (pairVolume.strayNext pairVolume.dev)^[1] ([4, 5].getD (1 - 1) 0) = 0 := by
    decide +kernel
  rw [hfirst] at hws
  cases hws with
  | stop => exact absurd (hsurplus 5 (List.mem_singleton_self 5)) List.not_mem_nil
  | free hin => exact absurd hin.1 (by decide)

/-- A cluster that is neither free nor of a file -/
theorem exists_surplus_left : ¬ ∀ (ι : Type) (vol : Volume) (dev : Ata) (lookups : Nat) (now : Stamp)
    (e : DirEntry) (buffer : Mem) (n : Nat) (files : ι → List Nat) (i : ι) (dirs : Set Nat)
    (r : WriteResult), 65536 ≤ lookups → vol.Chained dev.disk files →
    vol.FileOn dev.disk dirs e (files i) → 0 < n → vol.needed n < (files i).length →
    fat16Write vol.bpb dev lookups now e buffer n 1 = .ok r →
      vol.FreesSurplus dev.disk r.dev.disk (entryCluster e) (files i) (vol.needed n) := by
  intro hall
  obtain ⟨r, hwrite, hleft⟩ := pair_write
  have hone : pairVolume.needed 1 = 1 := by decide +kernel
  have hfrees := hall Unit pairVolume pairVolume.dev 65536 ⟨0, 0⟩ pairEntry (fun _ => 120) 1
    (fun _ => [4, 5]) () {2, 3} r (Nat.le_refl _)
    ⟨fun _ => ⟨_, pair_chain⟩, fun i j hne => absurd rfl hne⟩ pair_fileOn Nat.one_pos
    (by rw [hone]; decide) hwrite
  rw [hone] at hfrees
  have hzero := hfrees.surplus 5 (List.mem_singleton_self 5)
  rw [hleft] at hzero
  exact absurd hzero (by decide)

end Icarius
