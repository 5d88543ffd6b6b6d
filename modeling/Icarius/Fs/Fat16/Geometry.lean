/-
  Icarius.Fs.Fat16.Geometry

  What the checks of `fat16_resolve` say about the numbers of a mounted volume, and what
  they leave open: a cluster may be too long for the `uint16_t` its size is kept in, and
  the FAT too short for the clusters there are.
-/

import Icarius.Fs.Fat16.Volume

namespace Icarius

open Icarius.Lib

/-! ## Sectors -/

/-- `total_sectors` of `fat16_resolve` -/
def totalSectors (bpb : Fat16Header) : Nat :=
  if bpb.totSec16 = 0 then bpb.totSec32 else bpb.totSec16

/-- The sectors in front of the data -/
def firstDataSector (bpb : Fat16Header) : Nat :=
  bpb.rsvdSec + (bpb.numFats * bpb.fatsz16 + rootDirSectors bpb)

/-- A cluster has a size, the one in the `uint16_t` that the driver divides by, and the
    FAT has an entry for every cluster. -/
structure SoundGeometry (bpb : Fat16Header) : Prop where
  size_ne_zero : maxClusterSizeBytes bpb ≠ 0
  size_eq : maxClusterSizeBytes bpb = bpb.secPerClus * bpb.bytsPerSec
  fat_covers : totalClusters bpb + 2 ≤ bpb.fatsz16 * bpb.bytsPerSec / 2

/-- Clusters have less than 128 sectors, and the FATs are followed by fewer sectors than
    one FAT has entries for. -/
structure FitsFat (bpb : Fat16Header) : Prop where
  secPerClus_lt : bpb.secPerClus < 128
  totalSectors_lt : totalSectors bpb
    < firstDataSector bpb + (256 * bpb.fatsz16 - 1) * bpb.secPerClus

namespace Volume

variable (vol : Volume)

theorem totalClusters_bounds :
    fat16MinClusters ≤ totalClusters vol.bpb ∧ totalClusters vol.bpb ≤ fat16MaxClusters := by
  have h := vol.mounted
  simp only [fat16Resolve] at h
  split at h
  · cases h
  · split at h
    · cases h
    · rename_i hrange
      rw [Option.some.inj h] at hrange
      omega

theorem totalSectors_bound : totalSectors vol.bpb < 2 ^ 32 := by
  have h16 : vol.bpb.totSec16 < 65536 := by
    rw [vol.valid.2]
    exact Mem.load_lt _ 2 19
  have h32 : vol.bpb.totSec32 < 2 ^ 32 := by
    rw [vol.valid.2]
    exact Mem.load_lt _ 4 32
  rw [totalSectors]
  split <;> omega

theorem rootDirSectors_le : rootDirSectors vol.bpb ≤ 4096 := by
  have hcnt := vol.rootEntCnt_lt
  simp only [rootDirSectors, u32, vol.bytsPerSec]
  omega

theorem firstDataSector_lt : firstDataSector vol.bpb < 2 ^ 18 := by
  have hrsvd := vol.rsvdSec_lt
  have hfat := vol.fatsz16_lt
  have hroot := vol.rootDirSectors_le
  rw [firstDataSector, vol.numFats]
  omega

/-- The number of data sectors of a mounted volume has not wrapped: a wrapped one gives
    too many clusters. -/
theorem totalClusters_eq : firstDataSector vol.bpb ≤ totalSectors vol.bpb ∧
    totalClusters vol.bpb
      = (totalSectors vol.bpb - firstDataSector vol.bpb) / vol.bpb.secPerClus := by
  have hspc := vol.secPerClus_pos
  have hspc' := vol.secPerClus_lt
  have htotal := vol.totalSectors_bound
  have hfirst := vol.firstDataSector_lt
  have hmax := vol.totalClusters_bounds.2
  have hdef : totalClusters vol.bpb = u32 (totalSectors vol.bpb + 2 ^ 32
      - u32 (firstDataSector vol.bpb)) / vol.bpb.secPerClus := rfl
  have hsame : u32 (firstDataSector vol.bpb) = firstDataSector vol.bpb :=
    Nat.mod_eq_of_lt (by omega)
  rw [hsame] at hdef
  generalize totalSectors vol.bpb = total at *
  generalize firstDataSector vol.bpb = first at *
  by_cases hle : first ≤ total
  · refine ⟨hle, ?_⟩
    have hdata : u32 (total + 2 ^ 32 - first) = total - first := by
      rw [u32]
      omega
    rw [hdef, hdata]
  · have hdata : u32 (total + 2 ^ 32 - first) = total + 2 ^ 32 - first :=
      Nat.mod_eq_of_lt (by omega)
    rw [hdef, hdata, Nat.div_le_iff_le_mul_add_pred hspc] at hmax
    have hmul : vol.bpb.secPerClus * fat16MaxClusters ≤ 255 * fat16MaxClusters :=
      Nat.mul_le_mul_right _ (by omega)
    simp only [fat16MaxClusters] at hmax hmul
    omega

/-- The size of a cluster fits in its `uint16_t` when it has less than 128 sectors. -/
theorem clusterSize_iff : maxClusterSizeBytes vol.bpb ≠ 0 ∧
    maxClusterSizeBytes vol.bpb = vol.bpb.secPerClus * vol.bpb.bytsPerSec ↔
      vol.bpb.secPerClus < 128 := by
  have hspc := vol.secPerClus_pos
  simp only [maxClusterSizeBytes, u16, vol.bytsPerSec]
  omega

/-- The FAT has an entry for every cluster when there are few sectors for its length. -/
theorem fatCovers_iff :
    totalClusters vol.bpb + 2 ≤ vol.bpb.fatsz16 * vol.bpb.bytsPerSec / 2 ↔
      totalSectors vol.bpb
        < firstDataSector vol.bpb + (256 * vol.bpb.fatsz16 - 1) * vol.bpb.secPerClus := by
  obtain ⟨hle, hclusters⟩ := vol.totalClusters_eq
  have hspc := vol.secPerClus_pos
  have hentries : vol.bpb.fatsz16 * 512 / 2 = 256 * vol.bpb.fatsz16 := by omega
  rw [vol.bytsPerSec, hentries, hclusters]
  generalize 256 * vol.bpb.fatsz16 = entries
  constructor
  · intro h
    have hlt : (totalSectors vol.bpb - firstDataSector vol.bpb) / vol.bpb.secPerClus
        < entries - 1 := by omega
    rw [Nat.div_lt_iff_lt_mul hspc] at hlt
    omega
  · intro h
    have hlt : totalSectors vol.bpb - firstDataSector vol.bpb
        < (entries - 1) * vol.bpb.secPerClus := by omega
    rw [← Nat.div_lt_iff_lt_mul hspc] at hlt
    omega

/-- A mounted volume has a sound geometry exactly when its clusters are short enough and
    its sectors few enough. -/
theorem soundGeometry_iff : SoundGeometry vol.bpb ↔ FitsFat vol.bpb := by
  constructor
  · intro h
    exact ⟨vol.clusterSize_iff.mp ⟨h.size_ne_zero, h.size_eq⟩, vol.fatCovers_iff.mp h.fat_covers⟩
  · intro h
    obtain ⟨hne, heq⟩ := vol.clusterSize_iff.mpr h.secPerClus_lt
    exact ⟨hne, heq, vol.fatCovers_iff.mpr h.totalSectors_lt⟩

end Volume

/-! ## A volume with clusters of 64 KiB -/

/-- A header with 128 sectors in a cluster -/
def wideDisk : Mem :=
  let header := [0xEB, 0x3C, 0x90] ++ List.replicate 8 0 ++
    [0, 2, 128, 1, 0, 2, 16, 0, 0, 0, 0xF8, 32, 0]
  let disk := Mem.write (fun _ => 0) partitionOffset header
  disk.write (partitionOffset + 32) [0, 0xC5, 9, 0]

theorem wideDisk_mounted : (fat16Resolve ⟨wideDisk, fun _ => 0⟩).isSome = true := by
  decide +kernel

/-- The volume on `wideDisk` -/
def wideVolume : Volume where
  dev := ⟨wideDisk, fun _ => 0⟩
  bpb := (fat16Resolve ⟨wideDisk, fun _ => 0⟩).get wideDisk_mounted
  mounted := (Option.some_get wideDisk_mounted).symm

/-- The size of its clusters is 0 in a `uint16_t`. -/
theorem exists_zero_cluster_size : ¬ ∀ vol : Volume, SoundGeometry vol.bpb := by
  intro hall
  have hne := (hall wideVolume).size_ne_zero
  exact hne (by decide +kernel)

end Icarius
