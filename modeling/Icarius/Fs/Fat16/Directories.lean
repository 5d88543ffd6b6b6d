/-
  Icarius.Fs.Fat16.Directories

  The search of `fat16_write` for a directory entry by its name.  It goes through the
  directories that have an entry in the root directory, and, when the name is in none of
  them, goes on at cluster 0, which is the end of what lies in front of the clusters.

  What it finds depends on the root directory and on these clusters and their entries in
  the FAT only, and lies in one of them.
-/

import Icarius.Fs.Fat16.WriteExact

namespace Icarius

open Icarius.Lib

/-- The search for the entry of a file, at the end of `fat16_write`: 0 when there is none -/
def searchEntry (bpb : Fat16Header) (dev : Ata) (lookups : Nat) (filename : List UInt8) :
    Option Nat :=
  (fat16GetParentCluster bpb dev lookups filename).bind fun parentCluster =>
    fat16FindEntryOffset bpb dev lookups parentCluster filename

namespace Volume

/-! ## Where the search looks -/

/-- Where the driver finds cluster `c`, also cluster 0 -/
def searchPos (vol : Volume) (c : Nat) : Nat :=
  vol.rootPos + 512 * rootDirSectors vol.bpb + c * vol.clusterBytes - 2 * vol.clusterBytes

/-- `folder_cluster` of an entry of the root directory -/
def folderCluster (e : DirEntry) : Nat := fat16GetCombinedCluster e.highCluster e.lowCluster

/-- `dirs` are the clusters of the directories. -/
structure Directories (vol : Volume) (disk : Mem) (dirs : Set Nat) : Prop where
  bounds : ∀ c ∈ dirs, 2 ≤ c ∧ c < fat16MaxClusters
  next : ∀ c ∈ dirs, vol.fatOn disk c < fat16ValueEndOfChain → vol.fatOn disk c ∈ dirs
  mark : fat16ValueEndOfChain ≤ vol.fatOn disk 0
  root : ∀ k < vol.bpb.rootEntCnt, (diskEntry disk (vol.rootPos + 32 * k)).isDirectory →
    2 ≤ folderCluster (diskEntry disk (vol.rootPos + 32 * k)) →
      u16 (folderCluster (diskEntry disk (vol.rootPos + 32 * k))) ∈ dirs

/-- The clusters the search may come to: where the directories start, cluster 0, and with
    a cluster the next one -/
structure Searched (vol : Volume) (disk : Mem) (cells : Set Nat) : Prop where
  zero : 0 ∈ cells
  bounds : ∀ c ∈ cells, c = 0 ∨ (2 ≤ c ∧ c < fat16MaxClusters)
  next : ∀ c ∈ cells, vol.fatOn disk c < fat16ValueEndOfChain → vol.fatOn disk c ∈ cells
  root : ∀ k < vol.bpb.rootEntCnt, (diskEntry disk (vol.rootPos + 32 * k)).isDirectory →
    2 ≤ folderCluster (diskEntry disk (vol.rootPos + 32 * k)) →
      u16 (folderCluster (diskEntry disk (vol.rootPos + 32 * k))) ∈ cells

variable {vol : Volume} {disk disk' : Mem} {cells dirs : Set Nat}

theorem Directories.searched (h : vol.Directories disk dirs) :
    vol.Searched disk (insert 0 dirs) where
  zero := Set.mem_insert 0 dirs
  bounds := by
    intro c hc
    rcases Set.mem_insert_iff.mp hc with rfl | hc
    · exact .inl rfl
    · exact .inr (h.bounds c hc)
  next := by
    intro c hc hlive
    rcases Set.mem_insert_iff.mp hc with rfl | hc
    · have hmark := h.mark
      omega
    · exact Set.mem_insert_of_mem 0 (h.next c hc hlive)
  root := fun k hk hdir hfolder => Set.mem_insert_of_mem 0 (h.root k hk hdir hfolder)

/-- A cluster of a directory is not free. -/
theorem Directories.used (h : vol.Directories disk dirs) {c : Nat} (hc : c ∈ dirs) :
    vol.fatOn disk c ≠ fat16ValueFree := by
  intro hfree
  have hzero : (0 : Nat) ∈ dirs := by
    have hnext := h.next c hc (by rw [hfree]; decide)
    rwa [hfree] at hnext
  have hlow := (h.bounds 0 hzero).1
  omega

theorem searchPos_of_ge {c : Nat} (h : 2 ≤ c) : vol.searchPos c = vol.clusterPos c := by
  obtain ⟨k, rfl⟩ : ∃ k, c = k + 2 := ⟨c - 2, by omega⟩
  have hmul : k * (vol.bpb.secPerClus * 512) = 512 * (k * vol.bpb.secPerClus) := by
    rw [← Nat.mul_assoc, Nat.mul_comm]
  simp only [searchPos, clusterPos, clusterBytes, Nat.add_sub_cancel, Nat.add_mul, hmul]
  omega

theorem Searched.lt (h : vol.Searched disk cells) {c : Nat} (hc : c ∈ cells) : c < 65536 := by
  have hmax : fat16MaxClusters = 65525 := rfl
  have hbounds := h.bounds c hc
  omega

section Sizes

variable (hspc : vol.bpb.secPerClus ≤ 64) (hfat : 256 ≤ vol.bpb.fatsz16)
include hspc hfat

/-- What the search looks at lies behind the first FAT. -/
theorem fatPos_le_searchPos (c : Nat) {x : Nat} (hx : x ≤ 65536) :
    vol.fatPos x ≤ vol.searchPos c := by
  simp only [searchPos, fatPos, rootPos, clusterBytes]
  omega

/-- It lies below 4 GiB, and starts at a sector. -/
theorem searchPos_bounds {c : Nat} (hc : c = 0 ∨ (2 ≤ c ∧ c < fat16MaxClusters)) :
    vol.searchPos c + vol.clusterBytes ≤ 2 ^ 32 ∧ vol.searchPos c % 512 = 0 := by
  rcases hc with rfl | ⟨hlow, hhigh⟩
  · have hrsvd := vol.rsvdSec_lt
    have hfatlt := vol.fatsz16_lt
    have hroot := vol.rootDirSectors_le
    simp only [searchPos, rootPos, clusterBytes, partitionOffset]
    omega
  · rw [searchPos_of_ge hlow]
    exact ⟨vol.clusterPos_le hspc hhigh, vol.clusterPos_mod c⟩

theorem dataPos_search {c : Nat} (hc : c = 0 ∨ (2 ≤ c ∧ c < fat16MaxClusters)) :
    dataPos vol.bpb c = vol.searchPos c := by
  have hmax : fat16MaxClusters = 65525 := rfl
  obtain ⟨hend, -⟩ := searchPos_bounds hspc hfat hc
  have hpos := vol.clusterBytes_pos
  rcases hc with rfl | ⟨hlow, hhigh⟩
  · have hrsvd := vol.rsvdSec_lt
    have hfatlt := vol.fatsz16_lt
    have hcnt := vol.rootEntCnt_lt
    have hspcpos := vol.secPerClus_pos
    have hroot := vol.rootDirSectors_le
    have hwrap : (2 ^ 32 - 2) * vol.bpb.secPerClus + 2 * vol.bpb.secPerClus
        = 2 ^ 32 * vol.bpb.secPerClus := by
      omega
    simp only [dataPos, fat16GetSectorFromCluster, searchPos, rootPos, clusterBytes,
      vol.bytsPerSec, vol.numFats, u32, partitionOffset]
    omega
  · rw [searchPos_of_ge hlow] at hend ⊢
    exact vol.dataPos_eq hlow (by omega) (by omega)

/-- The driver reads a cluster of the search where it is. -/
theorem readAt_search (dev : Ata) {c : Nat} (hc : c = 0 ∨ (2 ≤ c ∧ c < fat16MaxClusters)) :
    dev.readAt (dataPos vol.bpb c) (maxClusterSizeBytes vol.bpb)
      = (List.range vol.clusterBytes).map fun i => dev.disk (vol.searchPos c + i) := by
  obtain ⟨hend, hmod⟩ := searchPos_bounds hspc hfat hc
  rw [dataPos_search hspc hfat hc, vol.maxClusterSize_eq hspc]
  exact readAt_disk dev hend (.inl hmod)

/-! ## What it depends on -/

theorem clusterSearch_congr {dev dev' : Ata} {filename : List UInt8} {c : Nat}
    (hc : c = 0 ∨ (2 ≤ c ∧ c < fat16MaxClusters))
    (hsame : ∀ i < vol.clusterBytes,
      dev'.disk (vol.searchPos c + i) = dev.disk (vol.searchPos c + i)) :
    clusterSearch vol.bpb dev' filename c = clusterSearch vol.bpb dev filename c := by
  have hread : dev'.readAt (dataPos vol.bpb c) (maxClusterSizeBytes vol.bpb)
      = dev.readAt (dataPos vol.bpb c) (maxClusterSizeBytes vol.bpb) := by
    rw [readAt_search hspc hfat dev' hc, readAt_search hspc hfat dev hc]
    apply List.map_congr_left
    intro i hi
    exact hsame i (List.mem_range.mp hi)
  simp only [clusterSearch, hread]

end Sizes

/-- The disk has not changed where the search looks. -/
structure SameSearch (vol : Volume) (disk disk' : Mem) (cells : Set Nat) : Prop where
  fat : ∀ c ∈ cells, vol.fatOn disk' c = vol.fatOn disk c
  data : ∀ c ∈ cells, ∀ i < vol.clusterBytes,
    disk' (vol.searchPos c + i) = disk (vol.searchPos c + i)
  root : ∀ i < vol.bpb.rootEntCnt * 32, disk' (vol.rootPos + i) = disk (vol.rootPos + i)

theorem diskEntry_congr {p : Nat} (h : ∀ i < 32, disk' (p + i) = disk (p + i)) :
    diskEntry disk' p = diskEntry disk p := by
  rw [diskEntry, diskEntry]
  congr 1
  apply List.map_congr_left
  intro i hi
  exact h i (List.mem_range.mp hi)

/-- The entries of the root directory the driver reads -/
theorem rootEntry_on (dev : Ata) {k : Nat} (hk : k < vol.bpb.rootEntCnt) :
    entryAt (dev.readAt (fat16GetRootDirAbsolute vol.bpb partitionOffset)
      (vol.bpb.rootEntCnt * 32)) k = diskEntry dev.disk (vol.rootPos + 32 * k) := by
  have hrsvd := vol.rsvdSec_lt
  have hfat := vol.fatsz16_lt
  have hcnt := vol.rootEntCnt_lt
  have hpos : vol.rootPos % 512 = 0 ∧ vol.rootPos + vol.bpb.rootEntCnt * 32 ≤ 2 ^ 32 := by
    simp only [rootPos, partitionOffset]
    omega
  rw [vol.rootDirAbsolute, readAt_disk dev hpos.2 (.inl hpos.1), entryAt_map_range (by omega)]

/-- The cells of a walk of the search: those of the directories, or an end mark -/
theorem Searched.step {dev : Ata} (h : vol.Searched dev.disk cells) (found : Nat → Nat → Nat)
    (filename : List UInt8) (x : Nat) (hx : x ∈ cells ∨ fat16ValueEndOfChain ≤ x)
    (hnone : (if x < fat16ValueEndOfChain then
        (clusterSearch vol.bpb dev filename x).map (found x) else some 0) = none) :
    fat16GetNextCluster vol.bpb dev x ∈ cells ∨
      fat16ValueEndOfChain ≤ fat16GetNextCluster vol.bpb dev x := by
  rcases hx with hx | hend
  · rw [vol.nextCluster_on dev (h.lt hx)]
    rcases Nat.lt_or_ge (vol.fatOn dev.disk x) fat16ValueEndOfChain with hlive | hend
    · exact .inl (h.next x hx hlive)
    · exact .inr hend
  · rw [if_neg (by omega)] at hnone
    cases hnone

/-- The search for the name ends with the first cluster of a directory, or 0. -/
theorem parentCluster_mem {dev : Ata} (h : vol.Searched dev.disk cells) {lookups : Nat}
    {filename : List UInt8} {parent : Nat}
    (hparent : fat16GetParentCluster vol.bpb dev lookups filename = some parent) :
    u16 parent ∈ cells := by
  have hloop : ∀ is : List Nat, (∀ k ∈ is, k < vol.bpb.rootEntCnt) →
      parentSearch vol.bpb dev lookups filename
          (dev.readAt (fat16GetRootDirAbsolute vol.bpb partitionOffset) (vol.bpb.rootEntCnt * 32)) is
        = some parent → u16 parent ∈ cells := by
    intro is his hfound
    induction is with
    | nil =>
        rw [parentSearch] at hfound
        rw [← Option.some.inj hfound]
        exact h.zero
    | cons k is ih =>
        have hk := his k List.mem_cons_self
        have hrest := ih fun j hj => his j (List.mem_cons_of_mem k hj)
        simp only [parentSearch, rootEntry_on dev hk] at hfound
        split at hfound
        · rename_i hdir
          split at hfound
          · cases hfound
          · split at hfound
            · rw [← Option.some.inj hfound]
              exact h.root k hk hdir.1 hdir.2
            · exact hrest hfound
        · exact hrest hfound
  exact hloop _ (fun k hk => List.mem_range.mp hk) hparent

section Search

variable (hspc : vol.bpb.secPerClus ≤ 64) (hfat : 256 ≤ vol.bpb.fatsz16)
include hspc hfat

theorem searchClusters_congr {dev dev' : Ata} (h : vol.Searched dev.disk cells)
    (hsame : vol.SameSearch dev.disk dev'.disk cells) (found : Nat → Nat → Nat) (lookups : Nat)
    (filename : List UInt8) {start : Nat} (hstart : u16 start ∈ cells) :
    searchClusters found vol.bpb dev' lookups filename start
      = searchClusters found vol.bpb dev lookups filename start := by
  refine walk_congr (P := fun x => x ∈ cells ∨ fat16ValueEndOfChain ≤ x)
    (h.step found filename) ?_ ?_ (.inl hstart)
  · rintro x (hx | hend)
    · rw [clusterSearch_congr hspc hfat (h.bounds x hx) (hsame.data x hx)]
    · rw [if_neg (by omega), if_neg (by omega)]
  · rintro x (hx | hend) hnone
    · rw [vol.nextCluster_on dev' (h.lt hx), vol.nextCluster_on dev (h.lt hx), hsame.fat x hx]
    · rw [if_neg (by omega)] at hnone
      cases hnone

theorem parentCluster_congr {dev dev' : Ata} (h : vol.Searched dev.disk cells)
    (hsame : vol.SameSearch dev.disk dev'.disk cells) (lookups : Nat) (filename : List UInt8) :
    fat16GetParentCluster vol.bpb dev' lookups filename
      = fat16GetParentCluster vol.bpb dev lookups filename := by
  have hloop : ∀ is : List Nat, (∀ k ∈ is, k < vol.bpb.rootEntCnt) →
      parentSearch vol.bpb dev' lookups filename
          (dev'.readAt (fat16GetRootDirAbsolute vol.bpb partitionOffset) (vol.bpb.rootEntCnt * 32)) is
        = parentSearch vol.bpb dev lookups filename
          (dev.readAt (fat16GetRootDirAbsolute vol.bpb partitionOffset) (vol.bpb.rootEntCnt * 32))
          is := by
    intro is his
    induction is with
    | nil => rfl
    | cons k is ih =>
        have hk := his k List.mem_cons_self
        have hentry : diskEntry dev'.disk (vol.rootPos + 32 * k)
            = diskEntry dev.disk (vol.rootPos + 32 * k) := by
          apply diskEntry_congr
          intro i hi
          rw [Nat.add_assoc]
          exact hsame.root _ (by omega)
        have hrest := ih fun j hj => his j (List.mem_cons_of_mem k hj)
        simp only [parentSearch, rootEntry_on dev' hk, rootEntry_on dev hk, hentry, hrest]
        split
        · rename_i hdir
          have hscan := searchClusters_congr hspc hfat h hsame (fun currCluster _ => currCluster)
            lookups filename (h.root k hk hdir.1 hdir.2)
          simp only [folderCluster] at hscan
          simp only [fat16ScanDir, hscan]
        · rfl
  exact hloop _ fun k hk => List.mem_range.mp hk

/-- The search sees the cells it may come to only. -/
theorem searchEntry_congr {dev dev' : Ata} (h : vol.Searched dev.disk cells)
    (hsame : vol.SameSearch dev.disk dev'.disk cells) (lookups : Nat) (filename : List UInt8) :
    searchEntry vol.bpb dev' lookups filename = searchEntry vol.bpb dev lookups filename := by
  rw [searchEntry, searchEntry, parentCluster_congr hspc hfat h hsame]
  cases hparent : fat16GetParentCluster vol.bpb dev lookups filename with
  | none => rfl
  | some parent =>
      rw [Option.bind_some, Option.bind_some]
      exact searchClusters_congr hspc hfat h hsame _ lookups filename (parentCluster_mem h hparent)

/-- An entry the search finds is in one of the cells. -/
theorem searchEntry_pos {dev : Ata} (h : vol.Searched dev.disk cells) {lookups q : Nat}
    {filename : List UInt8} (hfound : searchEntry vol.bpb dev lookups filename = some q)
    (hq : q ≠ 0) :
    ∃ c ∈ cells, ∃ i, 32 * (i + 1) ≤ vol.clusterBytes ∧ q = vol.searchPos c + 32 * i := by
  rw [searchEntry, Option.bind_eq_some_iff] at hfound
  obtain ⟨parent, hparent, hfound⟩ := hfound
  obtain ⟨x, hx, hanswer⟩ := walk_mem (P := fun x => x ∈ cells ∨ fat16ValueEndOfChain ≤ x)
    (h.step _ filename) (.inl (parentCluster_mem h hparent)) hfound
  rcases hx with hx | hend
  · split at hanswer
    · obtain ⟨i, hsearch, hpos⟩ := Option.map_eq_some_iff.mp hanswer
      have hi := List.mem_range.mp (List.mem_of_find?_eq_some hsearch)
      obtain ⟨hend, -⟩ := searchPos_bounds hspc hfat (h.bounds x hx)
      rw [vol.maxClusterSize_eq hspc] at hi
      rw [dataPos_search hspc hfat (h.bounds x hx)] at hpos
      refine ⟨x, hx, i, by omega, ?_⟩
      rw [← hpos, u32, Nat.mod_eq_of_lt (by omega)]
      omega
    · exact absurd (Option.some.inj hanswer).symm hq
  · rw [if_neg (by omega)] at hanswer
    exact absurd (Option.some.inj hanswer).symm hq

end Search

end Volume

end Icarius
