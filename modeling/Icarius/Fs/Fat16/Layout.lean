/-
  Icarius.Fs.Fat16.Layout

  Where the directory entries, the clusters and the entries of the FAT of a volume are on
  its disk, in numbers that do not wrap, and that the driver reads them there: the root
  directory and the FAT of every mounted volume, a cluster as long as its position is
  below 4 GiB.  With at most 64 sectors in a cluster that is every cluster, and none of
  them overlaps another, the root directory or the end of the volume.
-/

import Icarius.Lib.Chain
import Icarius.Fs.Fat16.Geometry

namespace Icarius

open Icarius.Lib

/-! ## The layout of a volume -/

/-- The directory entry in the 32 bytes of the disk at `pos` -/
def diskEntry (disk : Mem) (pos : Nat) : DirEntry := ⟨(List.range 32).map fun i => disk (pos + i)⟩

namespace Volume

variable (vol : Volume)

/-- Where the root directory starts -/
def rootPos : Nat := partitionOffset + 512 * (vol.bpb.rsvdSec + 2 * vol.bpb.fatsz16)

/-- Where cluster `c` starts -/
def clusterPos (c : Nat) : Nat :=
  vol.rootPos + 512 * (rootDirSectors vol.bpb + (c - 2) * vol.bpb.secPerClus)

/-- The entry in slot `i` of the root directory -/
def rootEntry (i : Nat) : DirEntry := diskEntry vol.dev.disk (vol.rootPos + 32 * i)

/-- The entries in cluster `c` of a directory -/
def clusterEntries (c : Nat) : List DirEntry :=
  (List.range (vol.bpb.secPerClus * 16)).map fun i =>
    diskEntry vol.dev.disk (vol.clusterPos c + 32 * i)

/-- What the first FAT says about cluster `c` -/
def fatEntry (c : Nat) : Nat :=
  vol.dev.disk.load 2 (partitionOffset + 512 * vol.bpb.rsvdSec + 2 * c)

/-- Where the first FAT has the entry of cluster `c` -/
def fatPos (c : Nat) : Nat := partitionOffset + 512 * vol.bpb.rsvdSec + 2 * c

/-- What the first FAT says about cluster `c` on a disk that has been written since -/
def fatOn (disk : Mem) (c : Nat) : Nat := disk.load 2 (vol.fatPos c)

/-- A chain of clusters of a file or directory -/
def Chain : Nat → List Nat → Prop :=
  IsChain vol.fatEntry (fun c => 2 ≤ c ∧ c < fat16ValueEndOfChain) (fat16ValueEndOfChain ≤ ·)

end Volume

/-! ## What the driver reads -/

theorem take_drop_map_range {α : Type} (f : Nat → α) {a k n : Nat} (h : a + k ≤ n) :
    (((List.range n).map f).drop a).take k = (List.range k).map fun j => f (a + j) := by
  obtain ⟨m, rfl⟩ : ∃ m, n = a + (k + m) := ⟨n - (a + k), by omega⟩
  have hlen : ((List.range a).map f).length = a := by simp
  have hlen' : ((List.range k).map fun j => f (a + j)).length = k := by simp
  rw [map_range_add f a, List.drop_left' hlen, map_range_add (fun j => f (a + j)) k,
    List.take_left' hlen']

theorem entryAt_map_range {disk : Mem} {pos n i : Nat} (h : 32 * (i + 1) ≤ n) :
    entryAt ((List.range n).map fun j => disk (pos + j)) i = diskEntry disk (pos + 32 * i) := by
  rw [entryAt, take_drop_map_range _ (by omega), diskEntry]
  simp only [Nat.add_assoc]

namespace Volume

variable (vol : Volume)

theorem rootDirAbsolute : fat16GetRootDirAbsolute vol.bpb partitionOffset = vol.rootPos := by
  have hrsvd := vol.rsvdSec_lt
  have hfat := vol.fatsz16_lt
  simp only [fat16GetRootDirAbsolute, fat16GetRootDirOffset, rootPos, u32, vol.bytsPerSec,
    vol.numFats, partitionOffset]
  omega

theorem rootEntry_read {i : Nat} (h : i < vol.bpb.rootEntCnt) :
    entryAt (vol.dev.readAt vol.rootPos (vol.bpb.rootEntCnt * 32)) i = vol.rootEntry i := by
  have hrsvd := vol.rsvdSec_lt
  have hfat := vol.fatsz16_lt
  have hcnt := vol.rootEntCnt_lt
  have hpos : vol.rootPos % 512 = 0 ∧ vol.rootPos + vol.bpb.rootEntCnt * 32 ≤ 2 ^ 32 := by
    simp only [rootPos, partitionOffset]
    omega
  rw [readAt_disk _ hpos.2 (Or.inl hpos.1), entryAt_map_range (by omega), rootEntry]

/-- The driver reads the first FAT, of a disk that may have been written since. -/
theorem nextCluster_on (dev : Ata) {c : Nat} (h : c < 65536) :
    fat16GetNextCluster vol.bpb dev c = vol.fatOn dev.disk c := by
  have hrsvd := vol.rsvdSec_lt
  have hpos : u32 (partitionOffset + vol.bpb.rsvdSec * 512 + c * 2) = vol.fatPos c := by
    simp only [u32, partitionOffset, fatPos]
    omega
  have hin : vol.fatPos c % 512 + 2 ≤ 512 ∧ vol.fatPos c + 2 ≤ 2 ^ 32 := by
    simp only [partitionOffset, fatPos]
    omega
  simp only [fat16GetNextCluster, vol.bytsPerSec, hpos, fatOn]
  rw [readAt_disk _ hin.2 (Or.inr hin.1)]
  rfl

theorem nextCluster {c : Nat} (h : c < 65536) :
    fat16GetNextCluster vol.bpb vol.dev c = vol.fatEntry c :=
  vol.nextCluster_on vol.dev h

/-- The driver finds a cluster below 4 GiB where it is. -/
theorem dataPos_eq {c : Nat} (hlow : 2 ≤ c) (hhigh : c < 65536) (hpos : vol.clusterPos c < 2 ^ 32) :
    dataPos vol.bpb c = vol.clusterPos c := by
  have hspc := vol.secPerClus_lt
  have hrsvd := vol.rsvdSec_lt
  have hfat := vol.fatsz16_lt
  have hback : u32 (c + 2 ^ 32 - 2) = c - 2 := by
    simp only [u32]
    omega
  have hroot := vol.rootDirSectors_le
  simp only [clusterPos, rootPos] at hpos ⊢
  simp only [dataPos, fat16GetSectorFromCluster, vol.bytsPerSec, vol.numFats, hback]
  generalize (c - 2) * vol.bpb.secPerClus = x at hpos ⊢
  simp only [u32, partitionOffset] at hpos ⊢
  omega

/-- With at most 64 sectors in a cluster, all clusters are below 4 GiB. -/
theorem clusterEnd_le {c : Nat} (hspc : vol.bpb.secPerClus ≤ 64) (hc : c < 65536) :
    vol.clusterPos c + vol.bpb.secPerClus * 512 ≤ 2 ^ 32 := by
  have hrsvd := vol.rsvdSec_lt
  have hfat := vol.fatsz16_lt
  have hroot := vol.rootDirSectors_le
  have hback : (c - 2) * vol.bpb.secPerClus ≤ 65536 * 64 := Nat.mul_le_mul (by omega) hspc
  simp only [clusterPos, rootPos, partitionOffset]
  omega

theorem clusterPos_succ {c : Nat} (hlow : 2 ≤ c) :
    vol.clusterPos (c + 1) = vol.clusterPos c + vol.bpb.secPerClus * 512 := by
  have hback : c + 1 - 2 = c - 2 + 1 := by omega
  rw [clusterPos, clusterPos, hback, Nat.add_mul (c - 2) 1, Nat.one_mul]
  omega

/-- A cluster ends where the next one starts, or before the later ones. -/
theorem clusterPos_le_of_lt {c d : Nat} (hlow : 2 ≤ c) (hlt : c < d) :
    vol.clusterPos c + vol.bpb.secPerClus * 512 ≤ vol.clusterPos d := by
  have hmul : (c - 2 + 1) * vol.bpb.secPerClus ≤ (d - 2) * vol.bpb.secPerClus :=
    Nat.mul_le_mul_right _ (by omega)
  rw [Nat.add_mul, Nat.one_mul] at hmul
  simp only [clusterPos]
  omega

theorem fatEntry_lt (c : Nat) : vol.fatEntry c < 65536 := Mem.load_lt _ 2 _

/-! ## Clusters and what is around them -/

/-- Rounding up the sectors of the root directory leaves room for all of its entries. -/
theorem rootEnd_le_clusterPos (c : Nat) :
    vol.rootPos + vol.bpb.rootEntCnt * 32 ≤ vol.clusterPos c := by
  have hcnt := vol.rootEntCnt_lt
  simp only [clusterPos, rootDirSectors, u32, vol.bytsPerSec]
  omega

/-- Rounding down the number of clusters leaves the last one inside the volume. -/
theorem clusterEnd_le_volume {c : Nat} (hlow : 2 ≤ c) (hc : c < totalClusters vol.bpb + 2) :
    vol.clusterPos c + vol.bpb.secPerClus * 512
      ≤ partitionOffset + totalSectors vol.bpb * 512 := by
  obtain ⟨hle, hclusters⟩ := vol.totalClusters_eq
  have hfit : (c - 2 + 1) * vol.bpb.secPerClus ≤ totalSectors vol.bpb - firstDataSector vol.bpb :=
    calc (c - 2 + 1) * vol.bpb.secPerClus
        ≤ totalClusters vol.bpb * vol.bpb.secPerClus := Nat.mul_le_mul_right _ (by omega)
      _ ≤ totalSectors vol.bpb - firstDataSector vol.bpb := by
          rw [hclusters]
          exact Nat.div_mul_le_self _ _
  rw [Nat.add_mul, Nat.one_mul] at hfit
  simp only [clusterPos, rootPos]
  simp only [firstDataSector, vol.numFats] at hle hfit
  omega

/-- The sector of a cluster, and its position in bytes, are computed without wrapping. -/
theorem sector_eq {c : Nat} (hspc : vol.bpb.secPerClus ≤ 64) (hlow : 2 ≤ c) (hc : c < 65536) :
    fat16GetSectorFromCluster vol.bpb c
      = firstDataSector vol.bpb + (c - 2) * vol.bpb.secPerClus := by
  have hfirst := vol.firstDataSector_lt
  have hback : u32 (c + 2 ^ 32 - 2) = c - 2 := by
    simp only [u32]
    omega
  have hmul : (c - 2) * vol.bpb.secPerClus ≤ 65536 * 64 := Nat.mul_le_mul (by omega) hspc
  rw [fat16GetSectorFromCluster, hback, firstDataSector, ← Nat.add_assoc]
  apply Nat.mod_eq_of_lt
  rw [firstDataSector, ← Nat.add_assoc] at hfirst
  omega

end Volume

/-- The bytes of a cluster, as `fat16_get_sector_from_cluster` gives them: no number of the
    computation wraps, the bytes are behind the root directory, inside the volume and not
    those of any other cluster. -/
theorem Volume.clusters_apart (vol : Volume) (hspc : vol.bpb.secPerClus ≤ 64) {c d : Nat}
    (hc : 2 ≤ c ∧ c < totalClusters vol.bpb + 2) (hd : 2 ≤ d ∧ d < totalClusters vol.bpb + 2)
    (hne : c ≠ d) :
    fat16GetSectorFromCluster vol.bpb c
        = firstDataSector vol.bpb + (c - 2) * vol.bpb.secPerClus ∧
      dataPos vol.bpb c = partitionOffset + fat16GetSectorFromCluster vol.bpb c * 512 ∧
      dataPos vol.bpb c + vol.bpb.secPerClus * 512 ≤ 2 ^ 32 ∧
      (dataPos vol.bpb c + vol.bpb.secPerClus * 512 ≤ dataPos vol.bpb d ∨
        dataPos vol.bpb d + vol.bpb.secPerClus * 512 ≤ dataPos vol.bpb c) ∧
      fat16GetRootDirAbsolute vol.bpb partitionOffset + vol.bpb.rootEntCnt * 32
        ≤ dataPos vol.bpb c ∧
      dataPos vol.bpb c + vol.bpb.secPerClus * 512
        ≤ partitionOffset + totalSectors vol.bpb * 512 := by
  have hmax : fat16MaxClusters = 65525 := rfl
  have hclusters := vol.totalClusters_bounds.2
  have hpos := vol.secPerClus_pos
  have hend : ∀ {x : Nat}, x < totalClusters vol.bpb + 2 →
      vol.clusterPos x + vol.bpb.secPerClus * 512 ≤ 2 ^ 32 := fun hx =>
    vol.clusterEnd_le hspc (by omega)
  have hdata : ∀ {x : Nat}, 2 ≤ x → x < totalClusters vol.bpb + 2 →
      dataPos vol.bpb x = vol.clusterPos x := fun hlow hx =>
    vol.dataPos_eq hlow (by omega) (by have := hend hx; omega)
  have hsector := vol.sector_eq hspc hc.1 (by omega)
  rw [hdata hc.1 hc.2, hdata hd.1 hd.2, vol.rootDirAbsolute]
  refine ⟨hsector, ?_, hend hc.2, ?_, vol.rootEnd_le_clusterPos c,
    vol.clusterEnd_le_volume hc.1 hc.2⟩
  · rw [hsector, firstDataSector, vol.numFats, clusterPos, rootPos]
    omega
  · -- the clusters lie one behind the other
    rcases Nat.lt_or_gt_of_ne hne with hlt | hgt
    · exact .inl (vol.clusterPos_le_of_lt hc.1 hlt)
    · exact .inr (vol.clusterPos_le_of_lt hd.1 hgt)

/-- `wideDisk` with 64 sectors in a cluster -/
def narrowDisk : Mem := wideDisk.write (partitionOffset + 13) [64]

theorem narrowDisk_mounted : (fat16Resolve ⟨narrowDisk, fun _ => 0⟩).isSome = true := by
  decide +kernel

/-- The volume on `narrowDisk` -/
def narrowVolume : Volume where
  dev := ⟨narrowDisk, fun _ => 0⟩
  bpb := (fat16Resolve ⟨narrowDisk, fun _ => 0⟩).get narrowDisk_mounted
  mounted := (Option.some_get narrowDisk_mounted).symm

/-- Its first two clusters -/
theorem clusters_apart_narrow :
    dataPos narrowVolume.bpb 2 + narrowVolume.bpb.secPerClus * 512 ≤ dataPos narrowVolume.bpb 3 ∨
      dataPos narrowVolume.bpb 3 + narrowVolume.bpb.secPerClus * 512
        ≤ dataPos narrowVolume.bpb 2 := by
  have hclusters := narrowVolume.totalClusters_bounds.1
  have hmin : fat16MinClusters = 4085 := rfl
  exact (narrowVolume.clusters_apart (by decide +kernel) (c := 2) (d := 3) ⟨by omega, by omega⟩
    ⟨by omega, by omega⟩ (by omega)).2.2.2.1

end Icarius
