/-
  Icarius.Fs.Fat16.FatMap

  The first FAT on the disk as a map from clusters to 16-bit values: what
  `fat16_create_fat_entry` puts there is what `fat16_get_next_cluster` looks up, though the
  two compute the position of an entry in different ways, and nothing else on the disk
  changes.

  Over the map, what the search for a free cluster returns: it looks at the numbers from 3
  up to a constant, not at those of the clusters the volume has.
-/

import Icarius.Fs.Fat16.Geometry
import Icarius.Fs.Fat16.Table

namespace Icarius

open Icarius.Lib

/-! ## The map -/

/-- Where the first FAT of a header with 512-byte sectors has the entry of cluster `c` -/
def fatCell (bpb : Fat16Header) (c : Nat) : Nat := partitionOffset + 512 * bpb.rsvdSec + 2 * c

/-- The two bytes that are written for a value -/
theorem write_value (disk : Mem) (a v : Nat) :
    disk.write a [UInt8.ofNat v, UInt8.ofNat (v / 256)] = disk.store 2 a v := by
  funext x
  have hlen : [UInt8.ofNat v, UInt8.ofNat (v / 256)].length = 2 := rfl
  have hcases : x < a ∨ x = a ∨ x = a + 1 ∨ a + 2 ≤ x := by omega
  rcases hcases with hlt | rfl | rfl | hge
  · rw [Mem.write_of_lt hlt, Mem.store_of_lt disk hlt]
  · simp [Mem.write, Mem.store]
  · simp [Mem.write, Mem.store]
  · rw [Mem.write_of_ge (by omega), Mem.store_of_ge disk hge]

section Map

variable {bpb : Fat16Header} (hbyts : bpb.bytsPerSec = 512) (hrsvd : bpb.rsvdSec < 2 ^ 16)
include hrsvd

/-- An entry lies in one sector, below 4 GiB. -/
theorem fatCell_bounds {c : Nat} (hc : c < 2 ^ 16) :
    fatCell bpb c % 512 + 2 ≤ 512 ∧ fatCell bpb c + 2 ≤ 2 ^ 32 := by
  simp only [fatCell, partitionOffset]
  omega

include hbyts

theorem getNextCluster_cell (dev : Ata) {c : Nat} (hc : c < 2 ^ 16) :
    fat16GetNextCluster bpb dev c = dev.disk.load 2 (fatCell bpb c) := by
  obtain ⟨hin, hend⟩ := fatCell_bounds hrsvd hc
  have hpos : u32 (partitionOffset + bpb.rsvdSec * bpb.bytsPerSec + c * 2) = fatCell bpb c := by
    rw [hbyts]
    simp only [u32, partitionOffset, fatCell]
    omega
  simp only [fat16GetNextCluster, hpos]
  rw [readAt_disk dev hend (.inr hin)]
  rfl

theorem createFatEntry_cell (dev : Ata) {c : Nat} (v : Nat) (hlow : 2 ≤ c)
    (hhigh : c < fat16MaxClusters) :
    fat16CreateFatEntry bpb dev c v = (true, ⟨dev.disk.store 2 (fatCell bpb c) v, dev.behind⟩) := by
  have hmax : fat16MaxClusters = 65525 := rfl
  obtain ⟨hin, hend⟩ := fatCell_bounds hrsvd (show c < 2 ^ 16 by omega)
  have hpos : u32 (fat16GetFatTableAbsolute bpb partitionOffset + c * 2) = fatCell bpb c := by
    simp only [fat16GetFatTableAbsolute, hbyts, u32, partitionOffset, fatCell]
    omega
  rw [fat16CreateFatEntry, if_neg (by omega)]
  simp only [hpos]
  rw [writeAt_disk dev hend (.inr hin), write_value]

/-- The FAT is a map that `fat16_create_fat_entry` updates in one place and
    `fat16_get_next_cluster` looks up. -/
theorem fat_is_map (dev : Ata) {c d v : Nat} (hd : d < 2 ^ 16) (hv : v < 2 ^ 16) :
    (2 ≤ c ∧ c < fat16MaxClusters →
      ∃ dev', fat16CreateFatEntry bpb dev c v = (true, dev') ∧
        fat16GetNextCluster bpb dev' c = v ∧
        (d ≠ c → fat16GetNextCluster bpb dev' d = fat16GetNextCluster bpb dev d) ∧
        dev'.behind = dev.behind ∧
        ∀ x, x ≠ fatCell bpb c → x ≠ fatCell bpb c + 1 → dev'.disk x = dev.disk x) ∧
    (¬ (2 ≤ c ∧ c < fat16MaxClusters) → fat16CreateFatEntry bpb dev c v = (false, dev)) := by
  have hmax : fat16MaxClusters = 65525 := rfl
  constructor
  · rintro ⟨hlow, hhigh⟩
    refine ⟨_, createFatEntry_cell hbyts hrsvd dev v hlow hhigh, ?_, ?_, rfl, ?_⟩
    · rw [getNextCluster_cell hbyts hrsvd _ (by omega), Mem.load_store_self]
      exact Nat.mod_eq_of_lt hv
    · intro hne
      rw [getNextCluster_cell hbyts hrsvd _ hd, getNextCluster_cell hbyts hrsvd _ hd]
      apply Mem.load_store_of_disjoint
      simp only [fatCell]
      omega
    · intro x hfirst hsecond
      have hcases : x < fatCell bpb c ∨ fatCell bpb c + 2 ≤ x := by omega
      rcases hcases with hlt | hge
      · exact Mem.store_of_lt _ hlt
      · exact Mem.store_of_ge _ hge
  · intro hout
    rw [fat16CreateFatEntry, if_pos (by omega)]

end Map

/-- The entry of cluster 2 behind one reserved sector -/
theorem fat_is_map_second :
    ∃ dev', fat16CreateFatEntry { headerOf (fun _ => 0) with bytsPerSec := 512, rsvdSec := 1 }
        ⟨fun _ => 0, fun _ => 0⟩ 2 7 = (true, dev') ∧
      fat16GetNextCluster { headerOf (fun _ => 0) with bytsPerSec := 512, rsvdSec := 1 } dev' 2
        = 7 := by
  obtain ⟨dev', hcreate, hnext, -⟩ := (@fat_is_map
    { headerOf (fun _ => 0) with bytsPerSec := 512, rsvdSec := 1 } rfl (by decide)
    ⟨fun _ => 0, fun _ => 0⟩ 2 3 7 (by decide) (by decide)).1 (by decide)
  exact ⟨dev', hcreate, hnext⟩

/-! ## Free clusters -/

namespace Volume

variable (vol : Volume)

/-- What is allocated is a free cluster of the volume, and nothing only when there is
    none. -/
def AllocatesReal (dev : Ata) : Prop :=
  let c := fat16GetNextFreeCluster vol.bpb dev
  (c = 0 ∨ (2 ≤ c ∧ c < totalClusters vol.bpb + 2 ∧ vol.fatOn dev.disk c = fat16ValueFree)) ∧
    (c = 0 → ∀ c', 2 ≤ c' → c' < totalClusters vol.bpb + 2 →
      vol.fatOn dev.disk c' ≠ fat16ValueFree)

/-- The first cluster of the search is the lowest one. -/
theorem freeClusters_head_le {disk : Mem} {c c' : Nat} {rest : List Nat}
    (h : vol.freeClusters disk = c :: rest) (hc' : c' ∈ vol.freeClusters disk) : c ≤ c' := by
  have hsorted : (vol.freeClusters disk).Pairwise (· < ·) :=
    List.Pairwise.filter _ List.pairwise_lt_range'
  rw [h] at hsorted hc'
  rcases List.mem_cons.mp hc' with rfl | hmem
  · exact Nat.le_refl _
  · exact Nat.le_of_lt ((List.pairwise_cons.mp hsorted).1 c' hmem)

/-- What is allocated is right exactly when the search comes upon a free cluster of the
    volume, or there is none, neither of the volume nor among the numbers it looks at. -/
theorem allocatesReal_iff (dev : Ata) :
    vol.AllocatesReal dev ↔
      (∃ c, 3 ≤ c ∧ c < fat16MaxClusters ∧ c < totalClusters vol.bpb + 2 ∧
        vol.fatOn dev.disk c = fat16ValueFree) ∨
      ∀ c, 2 ≤ c → (c < fat16MaxClusters ∨ c < totalClusters vol.bpb + 2) →
        vol.fatOn dev.disk c ≠ fat16ValueFree := by
  have hmem : ∀ c, c ∈ vol.freeClusters dev.disk ↔ _ := fun c => vol.mem_freeClusters
  rw [AllocatesReal, vol.nextFreeCluster_on]
  cases hfree : vol.freeClusters dev.disk with
  | nil =>
      -- nothing is found: the volume has no free cluster either
      have hnone : ∀ c, 3 ≤ c → c < fat16MaxClusters → vol.fatOn dev.disk c ≠ 0 := by
        intro c hlow hhigh hzero
        have hc := (hmem c).mpr ⟨hlow, hhigh, hzero⟩
        rw [hfree] at hc
        cases hc
      constructor
      · rintro ⟨-, hall⟩
        refine .inr fun c hlow hhigh hzero => ?_
        by_cases hvolume : c < totalClusters vol.bpb + 2
        · exact hall rfl c hlow hvolume hzero
        · have hmin := vol.totalClusters_bounds.1
          have hmin' : fat16MinClusters = 4085 := rfl
          exact hnone c (by omega) (hhigh.resolve_right hvolume) hzero
      · rintro (⟨c, hlow, hhigh, -, hzero⟩ | hall)
        · exact absurd hzero (hnone c hlow hhigh)
        · exact ⟨.inl rfl, fun _ c hlow hhigh => hall c hlow (.inr hhigh)⟩
  | cons c rest =>
      obtain ⟨hlow, hhigh, hzero⟩ := (hmem c).mp (hfree ▸ List.mem_cons_self)
      have hc : ¬ c = 0 := by omega
      simp only [List.head?_cons, Option.getD_some, hc, false_or, false_implies, and_true]
      constructor
      · rintro ⟨-, hvolume, -⟩
        exact .inl ⟨c, hlow, hhigh, hvolume, hzero⟩
      · rintro (⟨c', hlow', hhigh', hvolume', hzero'⟩ | hall)
        · have hle := vol.freeClusters_head_le hfree ((hmem c').mpr ⟨hlow', hhigh', hzero'⟩)
          exact ⟨by omega, by omega, hzero⟩
        · exact absurd hzero (hall c (by omega) (.inl hhigh))

end Volume

/-! ## A volume in which only cluster 2 is free -/

/-- A FAT of end marks, with a free entry for cluster 2 -/
def lastFreeDisk : Mem :=
  let header := [0xEB, 0x3C, 0x90] ++ List.replicate 8 0 ++
    [0, 2, 1, 1, 0, 2, 16, 0, 0x17, 0x10, 0xF8, 16, 0]
  let disk := Mem.write (fun x => if 0x100200 ≤ x then 0xFF else 0) partitionOffset header
  disk.write 0x100204 [0, 0]

theorem lastFreeDisk_mounted : (fat16Resolve ⟨lastFreeDisk, fun _ => 0⟩).isSome = true := by
  decide +kernel

/-- The volume on `lastFreeDisk` -/
def lastFreeVolume : Volume where
  dev := ⟨lastFreeDisk, fun _ => 0⟩
  bpb := (fat16Resolve ⟨lastFreeDisk, fun _ => 0⟩).get lastFreeDisk_mounted
  mounted := (Option.some_get lastFreeDisk_mounted).symm

theorem lastFreeDisk_tail {x : Nat} (h : 0x100206 ≤ x) : lastFreeDisk x = 0xFF := by
  have hfree : [(0 : UInt8), 0].length = 2 := rfl
  rw [lastFreeDisk, Mem.write_of_ge (by rw [hfree]; omega), Mem.write_of_ge ?_, if_pos (by omega)]
  simp only [partitionOffset, List.length_append, List.length_cons, List.length_nil,
    List.length_replicate]
  omega

/-- The free cluster is not found. -/
theorem exists_free_cluster_missed :
    ¬ ∀ (vol : Volume) (dev : Ata), vol.AllocatesReal dev := by
  intro hall
  have hrsvd : lastFreeVolume.bpb.rsvdSec = 1 := by decide +kernel
  have hnone : lastFreeVolume.freeClusters lastFreeVolume.dev.disk = [] := by
    rw [List.eq_nil_iff_forall_not_mem]
    intro c hc
    obtain ⟨hlow, -, hzero⟩ := lastFreeVolume.mem_freeClusters.mp hc
    have hpos : 0x100206 ≤ lastFreeVolume.fatPos c := by
      simp only [Volume.fatPos, partitionOffset, hrsvd]
      omega
    have hbyte : lastFreeVolume.dev.disk (lastFreeVolume.fatPos c) = 0xFF := lastFreeDisk_tail hpos
    rw [Volume.fatOn, Mem.load, hbyte] at hzero
    have hvalue : (0xFF : UInt8).toNat = 255 := rfl
    rw [hvalue] at hzero
    omega
  have hzero : fat16GetNextFreeCluster lastFreeVolume.bpb lastFreeVolume.dev = 0 := by
    rw [lastFreeVolume.nextFreeCluster_on, hnone]
    rfl
  have hclusters : 2 < totalClusters lastFreeVolume.bpb + 2 := by decide +kernel
  exact (hall lastFreeVolume lastFreeVolume.dev).2 hzero 2 (Nat.le_refl 2) hclusters
    (by decide +kernel)

end Icarius
