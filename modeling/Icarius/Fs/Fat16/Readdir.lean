/-
  Icarius.Fs.Fat16.Readdir

  `fat16_readdir`, called by `vfs_readdir` with the number of entries it has returned
  so far.  The driver skips slots on its own, which the offset does not count: a slot
  behind a skipped one is returned more than once.  `listsExactly_iff` says which
  directories are listed all the same.
-/

import Icarius.Lib.Listing
import Icarius.Fs.Fat16.Path

namespace Icarius

open Icarius.Lib

/-! ## The driver -/

/-- `vfs_dirent_t` -/
structure VfsDirent where
  name : List UInt8
  type : Nat
  size : Nat
  modifiedTime : Nat
  deriving DecidableEq

/-- What a call returns: `-EINVAL`, 0, or 1 with `dir` filled from the entry in the slot
    at a position of the disk. -/
inductive ReaddirResult where
  | error
  | done
  | entry (pos : Nat) (dir : VfsDirent)

/-- `dir`, filled from an entry of the root directory: the size of a file is 0, since
    any other is true after the sign. -/
def rootDirent (e : DirEntry) : VfsDirent :=
  let type := if e.isDirectory then 1 else 0
  { name := fat16GetUserlandFilenameFromNative e.fileName
    type := type
    size := if type = 1 then 0 else if u32 (2 ^ 32 - e.fileSize) ≠ 0 then 0 else e.fileSize
    modifiedTime := e.modificationTime }

/-- `dir`, filled from an entry in a cluster -/
def clusterDirent (e : DirEntry) : VfsDirent :=
  let type := if e.isDirectory then 1 else 0
  { name := fat16GetUserlandFilenameFromNative e.fileName
    type := type
    size := if type = 1 then 0 else e.fileSize
    modifiedTime := e.modificationTime }

/-- `is_root_dir` -/
def isRootDir (bpb : Fat16Header) (folder : Fat16Folder) : Bool :=
  let startSector := u16 folder.startSector
  let endSector := u16 folder.endSector
  let rootDirStart := fat16GetRootDirOffset bpb
  let rootDirEnd := u32 (rootDirStart + u32 (bpb.rootEntCnt * 32))
  startSector * bpb.bytsPerSec == rootDirStart && endSector * bpb.bytsPerSec == rootDirEnd

/-- The loop over the root directory, with as much fuel as there are slots left. -/
def fat16ReaddirRoot (bpb : Fat16Header) (dev : Ata) : Nat → Nat → ReaddirResult
  | 0, _ => .done
  | fuel + 1, dirOffset =>
      let pos := u32 (fat16GetRootDirAbsolute bpb partitionOffset + dirOffset * 32)
      let entry : DirEntry := ⟨dev.readAt pos 32⟩
      if entry.first = dirFree ∨ entry.first = dirDeleted then
        -- the inner loop does not read another entry, it runs to the end of the directory
        if entry.attributes = attrLfn then .done
        else fat16ReaddirRoot bpb dev fuel (dirOffset + 1)
      else .entry pos (rootDirent entry)

/-- The inner loop over the entries of a cluster -/
def fat16ReaddirSkip (buffer : List UInt8) : Nat → Nat → Option Nat
  | 0, _ => none
  | fuel + 1, dirOffset =>
      let entry := entryAt buffer dirOffset
      if entry.first = dirFree ∨ entry.first = dirDeleted ∨ entry.attributes = attrLfn then
        fat16ReaddirSkip buffer fuel (dirOffset + 1)
      else some dirOffset

/-- The loop over the clusters: an offset behind the entries of one cluster is in none. -/
def fat16ReaddirChain (bpb : Fat16Header) (dev : Ata) (dirOffset : Nat) :
    Nat → Nat → Option ReaddirResult
  | 0, _ => none
  | fuel + 1, currCluster =>
      if currCluster ≠ fat16ValueEndOfChain then
        let pos := dataPos bpb currCluster
        let buffer := dev.readAt pos (maxClusterSizeBytes bpb)
        let numEntriesPerCluster := maxClusterSizeBytes bpb / 32
        if dirOffset < numEntriesPerCluster then
          match fat16ReaddirSkip buffer (numEntriesPerCluster - dirOffset) dirOffset with
          | none => some .done
          | some i => some (.entry (u32 (pos + i * 32)) (clusterDirent (entryAt buffer i)))
        else fat16ReaddirChain bpb dev dirOffset fuel (fat16GetNextCluster bpb dev currCluster)
      else some .done

/-- `fat16_readdir`: the result, when the call comes to an end within `fuel` clusters. -/
def fat16Readdir (bpb : Fat16Header) (dev : Ata) (fuel : Nat) (node : Fat16Node)
    (dirOffset : Nat) : Option ReaddirResult :=
  match node with
  | .file _ => some .error
  | .dir folder entry =>
      if isRootDir bpb folder && entry.first == 0 then
        if dirOffset ≥ bpb.rootEntCnt then some .done
        else some (fat16ReaddirRoot bpb dev (bpb.rootEntCnt - dirOffset) dirOffset)
      else
        let startCluster := u16 (fat16GetCombinedCluster entry.highCluster entry.lowCluster)
        fat16ReaddirChain bpb dev dirOffset fuel startCluster

/-! ## Directories and their listings -/

/-- The slot a call returns an entry from, `none` when it returns 0. -/
def ReaddirResult.answer : ReaddirResult → Option (Option Nat)
  | .error => none
  | .done => some none
  | .entry pos _ => some (some pos)

/-- What the call of `vfs_readdir` after `d` entries answers. -/
def AnswersAt (vol : Volume) (node : Fat16Node) (d : Nat) (r : Option Nat) : Prop :=
  ∃ fuel, (fat16Readdir vol.bpb vol.dev fuel node d).bind ReaddirResult.answer = some r

/-- In use, and not part of a long name. -/
def DirEntry.listed (e : DirEntry) : Bool :=
  e.first != dirFree && e.first != dirDeleted && e.attributes != attrLfn

/-- The slots of the root directory -/
def Volume.rootSlots (vol : Volume) : List Nat :=
  (List.range vol.bpb.rootEntCnt).map fun i => vol.rootPos + 32 * i

/-- The slots of cluster `c` -/
def Volume.clusterSlots (vol : Volume) (c : Nat) : List Nat :=
  (List.range (vol.bpb.secPerClus * 16)).map fun i => vol.clusterPos c + 32 * i

/-- The folder of the root directory -/
def rootFolder (vol : Volume) : Fat16Folder where
  total := vol.bpb.rootEntCnt
  startSector := firstRootDirSector vol.bpb
  endSector := u32 (firstRootDirSector vol.bpb + rootDirSectors vol.bpb)

/-- The node of the root directory -/
def rootNode (vol : Volume) : Fat16Node := .dir (rootFolder vol) .zero

/-- The node is that of a directory with these slots.  The driver knows the root directory
    by its 32 sectors; any other entry it gives a node to has a name. -/
inductive IsDirectory (vol : Volume) : Fat16Node → List Nat → Prop
  | root (h : rootDirSectors vol.bpb = 32) : IsDirectory vol (rootNode vol) vol.rootSlots
  | sub (folder : Fat16Folder) {e : DirEntry} {cs : List Nat} (hname : e.first ≠ 0)
      (hdir : e.isDirectory = true) (hchain : vol.Chain e.lowCluster cs) :
      IsDirectory vol (.dir folder e) (cs.flatMap vol.clusterSlots)

/-- A directory that has been opened -/
structure OpenDirectory (vol : Volume) where
  node : Fat16Node
  slots : List Nat
  isDirectory : IsDirectory vol node slots

/-- The calls of `vfs_readdir` on a new descriptor, up to the one that returns 0, return
    each listed entry once, in the order of the disk. -/
def ListsExactly (vol : Volume) (dir : OpenDirectory vol) : Prop :=
  Listing (AnswersAt vol dir.node) 0
    (dir.slots.filter fun pos => (diskEntry vol.dev.disk pos).listed)

/-! ## When a directory is listed -/

/-- The slot is in use. -/
def DirEntry.inUse (e : DirEntry) : Bool := e.first != dirFree && e.first != dirDeleted

/-- The root directory, read as such: the listed slots are the first `k` ones, and any
    slot in use behind them comes after a free slot with the attributes of a long name,
    before which there are only free slots. -/
def RootStraight (vol : Volume) (listed : List Nat) : Prop :=
  ∃ k ≤ vol.bpb.rootEntCnt, listed = (List.range k).map (fun i => vol.rootPos + 32 * i) ∧
    ∀ i, k ≤ i → i < vol.bpb.rootEntCnt → (vol.rootEntry i).inUse = true →
      ∃ j, k ≤ j ∧ j < i ∧ (vol.rootEntry j).attributes = attrLfn ∧
        ∀ m, k ≤ m → m ≤ j → (vol.rootEntry m).inUse = false

/-- The position of slot `i` of cluster `c`, as the driver reads it -/
def walkSlot (vol : Volume) (c i : Nat) : Nat := u32 (dataPos vol.bpb c + 32 * i)

/-- A directory read from cluster `c` on: the listed slots are the first `k` slots of that
    cluster, and no other slot of the cluster is listed.  When they fill the cluster, the
    entries of the FAT lead from there to `FAT16_VALUE_END_OF_CHAIN`, exactly. -/
def ClusterStraight (vol : Volume) (c : Nat) (listed : List Nat) : Prop :=
  ∃ k ≤ maxClusterSizeBytes vol.bpb / 32, listed = (List.range k).map (walkSlot vol c) ∧
    (∀ i, k ≤ i → i < maxClusterSizeBytes vol.bpb / 32 →
      (diskEntry vol.dev.disk (walkSlot vol c i)).listed = false) ∧
    (k = maxClusterSizeBytes vol.bpb / 32 → ∃ m, vol.fatEntry^[m] c = fat16ValueEndOfChain)

/-- The directory lies straight in the slots the driver reads. -/
def LiesStraight (vol : Volume) (dir : OpenDirectory vol) : Prop :=
  let listed := dir.slots.filter fun pos => (diskEntry vol.dev.disk pos).listed
  match dir.node with
  | .file _ => False
  | .dir folder entry =>
      if isRootDir vol.bpb folder && entry.first == 0 then RootStraight vol listed
      else ClusterStraight vol entry.lowCluster listed

/-! ## The slots the driver reads -/

/-- What the loop over the root directory does at a slot. -/
def rootLook (vol : Volume) (i : Nat) : Look :=
  if (vol.rootEntry i).inUse then .take
  else if (vol.rootEntry i).attributes = attrLfn then .halt
  else .skip

/-- What the loop over a cluster does at a slot. -/
def clusterLook (vol : Volume) (c i : Nat) : Look :=
  if (diskEntry vol.dev.disk (walkSlot vol c i)).listed then .take else .skip

theorem DirEntry.inUse_eq_false {e : DirEntry} :
    e.inUse = false ↔ e.first = dirFree ∨ e.first = dirDeleted := by
  simp only [DirEntry.inUse, Bool.and_eq_false_iff, bne_eq_false_iff_eq]

theorem DirEntry.listed_eq_false {e : DirEntry} : e.listed = false ↔
    e.first = dirFree ∨ e.first = dirDeleted ∨ e.attributes = attrLfn := by
  simp only [DirEntry.listed, Bool.and_eq_false_iff, bne_eq_false_iff_eq, or_assoc]

theorem DirEntry.inUse_of_listed {e : DirEntry} (h : e.listed = true) : e.inUse = true := by
  simp only [DirEntry.listed, DirEntry.inUse, Bool.and_eq_true] at h ⊢
  exact h.1

section Slots

variable (vol : Volume)

theorem rootSlot_read {d : Nat} (hd : d < vol.bpb.rootEntCnt) :
    u32 (fat16GetRootDirAbsolute vol.bpb partitionOffset + d * 32) = vol.rootPos + 32 * d ∧
      DirEntry.mk (vol.dev.readAt (vol.rootPos + 32 * d) 32) = vol.rootEntry d := by
  have hrsvd := vol.rsvdSec_lt
  have hfat := vol.fatsz16_lt
  have hcnt := vol.rootEntCnt_lt
  have hpos : (vol.rootPos + 32 * d) % 512 + 32 ≤ 512 ∧ vol.rootPos + 32 * d + 32 ≤ 2 ^ 32 := by
    simp only [Volume.rootPos, partitionOffset]
    omega
  constructor
  · rw [vol.rootDirAbsolute]
    simp only [u32]
    omega
  · rw [readAt_disk _ hpos.2 (Or.inr hpos.1)]
    rfl

theorem readdirRoot_answer {fuel d : Nat} (h : d + fuel ≤ vol.bpb.rootEntCnt) :
    (fat16ReaddirRoot vol.bpb vol.dev fuel d).answer
      = some ((nextTaken (rootLook vol) fuel d).map fun i => vol.rootPos + 32 * i) := by
  induction fuel generalizing d with
  | zero => rfl
  | succ fuel ih =>
      obtain ⟨hpos, hentry⟩ := rootSlot_read vol (show d < vol.bpb.rootEntCnt by omega)
      simp only [fat16ReaddirRoot, hpos, hentry]
      cases huse : (vol.rootEntry d).inUse with
      | true =>
          have hnot : ¬ ((vol.rootEntry d).first = dirFree ∨ (vol.rootEntry d).first = dirDeleted) := by
            rw [← DirEntry.inUse_eq_false, huse]
            exact Bool.noConfusion
          rw [if_neg hnot, nextTaken_take (by simp [rootLook, huse])]
          rfl
      | false =>
          rw [if_pos (DirEntry.inUse_eq_false.mp huse)]
          by_cases hlfn : (vol.rootEntry d).attributes = attrLfn
          · rw [if_pos hlfn, nextTaken]
            simp only [rootLook, huse, hlfn, Bool.false_eq_true, if_false, if_true]
            rfl
          · rw [if_neg hlfn, nextTaken_skip (by simp [rootLook, huse, hlfn])]
            exact ih (by omega)

theorem dataPos_aligned (c : Nat) : dataPos vol.bpb c % 512 = 0 ∧ dataPos vol.bpb c < 2 ^ 32 := by
  simp only [dataPos, u32, vol.bytsPerSec, partitionOffset]
  omega

theorem entryAt_cluster {c i n : Nat} (h : 32 * (i + 1) ≤ n) :
    entryAt (vol.dev.readAt (dataPos vol.bpb c) n) i
      = diskEntry vol.dev.disk (walkSlot vol c i) := by
  obtain ⟨haligned, hlt⟩ := dataPos_aligned vol c
  rw [readAt_eq, entryAt, take_drop_map_range _ (by omega), diskEntry, Nat.mod_eq_of_lt hlt]
  refine congrArg DirEntry.mk (List.map_congr_left fun j hj => ?_)
  have hj := List.mem_range.mp hj
  have hpos : (dataPos vol.bpb c + (32 * i + j)) % 2 ^ 32 = walkSlot vol c i + j := by
    simp only [walkSlot, u32]
    omega
  rw [Ata.byteFrom, haligned, if_pos (by omega), hpos]

theorem readdirSkip_eq {c fuel d : Nat} (h : d + fuel = maxClusterSizeBytes vol.bpb / 32) :
    fat16ReaddirSkip (vol.dev.readAt (dataPos vol.bpb c) (maxClusterSizeBytes vol.bpb)) fuel d
      = nextTaken (clusterLook vol c) fuel d := by
  induction fuel generalizing d with
  | zero => rfl
  | succ fuel ih =>
      rw [fat16ReaddirSkip, entryAt_cluster vol (by omega)]
      cases hlisted : (diskEntry vol.dev.disk (walkSlot vol c d)).listed with
      | true =>
          have hnot := mt DirEntry.listed_eq_false.mpr (by rw [hlisted]; exact Bool.noConfusion)
          rw [if_neg hnot, nextTaken_take (by simp [clusterLook, hlisted])]
      | false =>
          rw [if_pos (DirEntry.listed_eq_false.mp hlisted),
            nextTaken_skip (by simp [clusterLook, hlisted])]
          exact ih (by omega)

/-- A call with an offset below the number of entries of a cluster reads the first one. -/
theorem readdirChain_below {c d : Nat} (hc : c ≠ fat16ValueEndOfChain)
    (hd : d < maxClusterSizeBytes vol.bpb / 32) (r : Option Nat) :
    (∃ fuel, (fat16ReaddirChain vol.bpb vol.dev d fuel c).bind ReaddirResult.answer = some r) ↔
      (nextTaken (clusterLook vol c) (maxClusterSizeBytes vol.bpb / 32 - d) d).map (walkSlot vol c)
        = r := by
  have hcall : ∀ fuel, (fat16ReaddirChain vol.bpb vol.dev d (fuel + 1) c).bind ReaddirResult.answer
      = some ((nextTaken (clusterLook vol c) (maxClusterSizeBytes vol.bpb / 32 - d) d).map
          (walkSlot vol c)) := by
    intro fuel
    rw [fat16ReaddirChain, if_pos hc]
    simp only [hd, if_true]
    rw [readdirSkip_eq vol (by omega)]
    cases nextTaken (clusterLook vol c) (maxClusterSizeBytes vol.bpb / 32 - d) d with
    | none => rfl
    | some i =>
        have hslot : u32 (dataPos vol.bpb c + i * 32) = walkSlot vol c i := by
          rw [walkSlot, Nat.mul_comm]
        simp only [hslot]
        rfl
  constructor
  · rintro ⟨fuel, h⟩
    cases fuel with
    | zero => cases h
    | succ fuel => exact Option.some.inj ((hcall fuel).symm.trans h)
  · rintro rfl
    exact ⟨1, hcall 0⟩

/-- With an offset behind, it follows the FAT to the end mark. -/
theorem readdirChain_behind {c d : Nat} (hc : c < 65536)
    (hd : maxClusterSizeBytes vol.bpb / 32 ≤ d) (r : Option Nat) :
    (∃ fuel, (fat16ReaddirChain vol.bpb vol.dev d fuel c).bind ReaddirResult.answer = some r) ↔
      r = none ∧ ∃ m, vol.fatEntry^[m] c = fat16ValueEndOfChain := by
  constructor
  · rintro ⟨fuel, h⟩
    induction fuel generalizing c with
    | zero => cases h
    | succ fuel ih =>
        rw [fat16ReaddirChain] at h
        by_cases hend : c = fat16ValueEndOfChain
        · rw [if_neg (not_not.mpr hend)] at h
          exact ⟨(Option.some.inj h).symm, 0, hend⟩
        · rw [if_pos hend] at h
          simp only [show ¬ d < maxClusterSizeBytes vol.bpb / 32 by omega, if_false,
            vol.nextCluster hc] at h
          obtain ⟨hr, m, hm⟩ := ih (vol.fatEntry_lt c) h
          exact ⟨hr, m + 1, hm⟩
  · rintro ⟨rfl, m, hm⟩
    induction m generalizing c with
    | zero =>
        have hend : c = fat16ValueEndOfChain := hm
        refine ⟨1, ?_⟩
        rw [fat16ReaddirChain, if_neg (not_not.mpr hend)]
        rfl
    | succ m ih =>
        by_cases hend : c = fat16ValueEndOfChain
        · refine ⟨1, ?_⟩
          rw [fat16ReaddirChain, if_neg (not_not.mpr hend)]
          rfl
        · obtain ⟨fuel, h⟩ := ih (vol.fatEntry_lt c) hm
          refine ⟨fuel + 1, ?_⟩
          rw [fat16ReaddirChain, if_pos hend]
          simp only [show ¬ d < maxClusterSizeBytes vol.bpb / 32 by omega, if_false,
            vol.nextCluster hc]
          exact h

/-- The driver on the root directory, as a reader of its slots. -/
theorem reads_root {folder : Fat16Folder} {entry : DirEntry}
    (hmode : (isRootDir vol.bpb folder && entry.first == 0) = true) :
    LooksAhead (AnswersAt vol (.dir folder entry)) (rootLook vol) vol.bpb.rootEntCnt
      (fun i => vol.rootPos + 32 * i) True where
  below d hd r := by
    have hge : ¬ d ≥ vol.bpb.rootEntCnt := by omega
    simp only [AnswersAt, fat16Readdir, hmode, if_true, hge, if_false, Option.bind_some]
    rw [readdirRoot_answer vol (by omega)]
    simp only [Option.some.injEq, exists_const]
  behind d hd r := by
    simp only [AnswersAt, fat16Readdir, hmode, if_true, hd, Option.bind_some, ReaddirResult.answer,
      Option.some.injEq, exists_const, and_true]
    exact eq_comm

/-- The driver on a directory in clusters, as a reader of the slots of the first one. -/
theorem reads_cluster {folder : Fat16Folder} {entry : DirEntry}
    (hmode : (isRootDir vol.bpb folder && entry.first == 0) = false)
    (hend : entry.lowCluster ≠ fat16ValueEndOfChain) :
    LooksAhead (AnswersAt vol (.dir folder entry)) (clusterLook vol entry.lowCluster)
      (maxClusterSizeBytes vol.bpb / 32) (walkSlot vol entry.lowCluster)
      (∃ m, vol.fatEntry^[m] entry.lowCluster = fat16ValueEndOfChain) := by
  have hlow : entry.lowCluster < 65536 := Mem.load_lt _ 2 26
  have hstart : u16 (fat16GetCombinedCluster entry.highCluster entry.lowCluster)
      = entry.lowCluster := by
    simp only [u16, fat16GetCombinedCluster]
    omega
  have hcall : ∀ d r, AnswersAt vol (.dir folder entry) d r ↔ ∃ fuel,
      (fat16ReaddirChain vol.bpb vol.dev d fuel entry.lowCluster).bind ReaddirResult.answer
        = some r := by
    intro d r
    simp only [AnswersAt, fat16Readdir, hmode, Bool.false_eq_true, if_false, hstart]
  constructor
  · intro d hd r
    rw [hcall]
    exact readdirChain_below vol hend hd r
  · intro d hd r
    rw [hcall]
    exact readdirChain_behind vol hlow hd r

end Slots

/-! ## Exactly the directories that are listed -/

theorem add_mul_unique {a b i j n : Nat} (hi : i < n) (hj : j < n) (h : a * n + i = b * n + j) :
    a = b := by
  have hdiv : ∀ x y, y < n → (x * n + y) / n = x := by
    intro x y hy
    rw [Nat.mul_comm, Nat.mul_add_div (by omega), Nat.div_eq_of_lt hy, Nat.add_zero]
  rw [← hdiv a i hi, h, hdiv b j hj]

section Slots

variable (vol : Volume)

theorem nodup_rootSlots : vol.rootSlots.Nodup := by
  refine List.Nodup.map_on (fun i _ j _ h => ?_) List.nodup_range
  omega

/-- Clusters of a directory have no slot in common. -/
theorem clusterSlots_disjoint {c c' : Nat} (hc : 2 ≤ c) (hc' : 2 ≤ c') (hne : c ≠ c') :
    List.Disjoint (vol.clusterSlots c) (vol.clusterSlots c') := by
  intro pos hpos hpos'
  simp only [Volume.clusterSlots, List.mem_map, List.mem_range] at hpos hpos'
  obtain ⟨i, hi, rfl⟩ := hpos
  obtain ⟨j, hj, h⟩ := hpos'
  apply hne
  have hsame : (c' - 2) * (vol.bpb.secPerClus * 16) + j
      = (c - 2) * (vol.bpb.secPerClus * 16) + i := by
    simp only [Volume.clusterPos, ← Nat.mul_assoc] at h ⊢
    omega
  have := add_mul_unique hj hi hsame
  omega

theorem nodup_slots {c : Nat} {cs : List Nat} (h : vol.Chain c cs) :
    (cs.flatMap vol.clusterSlots).Nodup := by
  have hnodup := h.nodup fun c hlive hend => by omega
  have hlive := h.live_of_mem
  rw [List.nodup_flatMap]
  constructor
  · intro x _
    refine List.Nodup.map_on (fun i _ j _ h => ?_) List.nodup_range
    omega
  · refine hnodup.imp_of_mem fun {a b} ha hb hne => ?_
    exact clusterSlots_disjoint vol (hlive a ha).1 (hlive b hb).1 hne

theorem rootStraight_iff {slots : List Nat} :
    (∃ k, Straight (rootLook vol) vol.bpb.rootEntCnt True 0 k ∧
        (slots.filter fun pos => (diskEntry vol.dev.disk pos).listed)
          = (List.range k).map fun i => vol.rootPos + 32 * i) ↔
      RootStraight vol (slots.filter fun pos => (diskEntry vol.dev.disk pos).listed) := by
  -- what the loop does at a slot, by what the entry is
  have htake : ∀ i, rootLook vol i = .take ↔ (vol.rootEntry i).inUse = true := by
    intro i
    unfold rootLook
    split
    · simp [*]
    · split <;> simp [*]
  have hhalt : ∀ i, rootLook vol i = .halt ↔
      (vol.rootEntry i).inUse = false ∧ (vol.rootEntry i).attributes = attrLfn := by
    intro i
    unfold rootLook
    split
    · simp [*]
    · split <;> simp_all
  -- both sides name the slot at which the listing stops
  constructor
  · rintro ⟨k, hstraight, heq⟩
    refine ⟨k, hstraight.le, heq, fun i hlo hhi huse => ?_⟩
    have hle := hstraight.le
    obtain ⟨j, hj, hji, hlook, hbefore⟩ :=
      nextTaken_eq_none.mp hstraight.stop i hlo (by omega) ((htake i).mpr huse)
    obtain ⟨hfree, hlfn⟩ := (hhalt j).mp hlook
    refine ⟨j, hj, hji, hlfn, fun m hm hmj => ?_⟩
    by_cases hmj' : m = j
    · rw [hmj', hfree]
    · have := mt (htake m).mpr (hbefore m hm (by omega))
      rwa [Bool.not_eq_true] at this
  · rintro ⟨k, hle, heq, hbehind⟩
    refine ⟨k, ⟨hle, fun i _ hi => ?_, ?_, fun _ => trivial⟩, heq⟩
    · -- a listed slot is in use
      have hmem : vol.rootPos + 32 * i ∈ (List.range k).map fun i => vol.rootPos + 32 * i :=
        List.mem_map.mpr ⟨i, List.mem_range.mpr hi, rfl⟩
      rw [← heq, List.mem_filter] at hmem
      exact (htake i).mpr (DirEntry.inUse_of_listed hmem.2)
    · rw [nextTaken_eq_none]
      intro i hlo hhi hlook
      obtain ⟨j, hj, hji, hlfn, hfree⟩ := hbehind i hlo (by omega) ((htake i).mp hlook)
      refine ⟨j, hj, hji, (hhalt j).mpr ⟨hfree j hj (Nat.le_refl j), hlfn⟩, fun m hm hmj => ?_⟩
      rw [Ne, htake, hfree m hm (by omega)]
      exact Bool.noConfusion

theorem clusterStraight_iff {c : Nat} {slots : List Nat} :
    (∃ k, Straight (clusterLook vol c) (maxClusterSizeBytes vol.bpb / 32)
        (∃ m, vol.fatEntry^[m] c = fat16ValueEndOfChain) 0 k ∧
        (slots.filter fun pos => (diskEntry vol.dev.disk pos).listed)
          = (List.range k).map (walkSlot vol c)) ↔
      ClusterStraight vol c (slots.filter fun pos => (diskEntry vol.dev.disk pos).listed) := by
  have htake : ∀ i, clusterLook vol c i = .take ↔
      (diskEntry vol.dev.disk (walkSlot vol c i)).listed = true := by
    intro i
    unfold clusterLook
    split <;> simp [*]
  have hhalt : ∀ i, clusterLook vol c i ≠ .halt := by
    intro i
    unfold clusterLook
    split <;> exact Look.noConfusion
  constructor
  · rintro ⟨k, hstraight, heq⟩
    refine ⟨k, hstraight.le, heq, fun i hlo hhi => ?_, hstraight.ends⟩
    have hle := hstraight.le
    rw [← Bool.not_eq_true, ← htake]
    intro hlook
    obtain ⟨j, -, -, hj, -⟩ := nextTaken_eq_none.mp hstraight.stop i hlo (by omega) hlook
    exact hhalt j hj
  · rintro ⟨k, hle, heq, hbehind, hends⟩
    refine ⟨k, ⟨hle, fun i _ hi => ?_, ?_, hends⟩, heq⟩
    · have hmem : walkSlot vol c i ∈ (List.range k).map (walkSlot vol c) :=
        List.mem_map.mpr ⟨i, List.mem_range.mpr hi, rfl⟩
      rw [← heq, List.mem_filter] at hmem
      exact (htake i).mpr hmem.2
    · rw [nextTaken_eq_none]
      intro i hlo hhi hlook
      rw [htake, hbehind i hlo (by omega)] at hlook
      cases hlook

end Slots

/-- The driver takes the node of the root directory for that. -/
def readsRoot (vol : Volume) : Bool :=
  isRootDir vol.bpb (rootFolder vol) && DirEntry.zero.first == 0

theorem lists_root_iff (vol : Volume) (h : rootDirSectors vol.bpb = 32)
    (hmode : readsRoot vol = true) :
    ListsExactly vol ⟨rootNode vol, _, .root h⟩ ↔
      RootStraight vol (vol.rootSlots.filter fun pos => (diskEntry vol.dev.disk pos).listed) := by
  have hnodup := (nodup_rootSlots vol).filter fun pos => (diskEntry vol.dev.disk pos).listed
  exact (listing_iff (reads_root vol hmode) hnodup).trans (rootStraight_iff vol)

/-- An open directory is listed exactly when it lies straight in the slots that are read. -/
theorem listsExactly_iff (vol : Volume) (dir : OpenDirectory vol) :
    ListsExactly vol dir ↔ LiesStraight vol dir := by
  obtain ⟨node, slots, hdir⟩ := dir
  cases hdir with
  | root h =>
      cases hmode : readsRoot vol with
      | true =>
          have hroot : (isRootDir vol.bpb (rootFolder vol) && DirEntry.zero.first == 0) = true :=
            hmode
          rw [lists_root_iff vol h hmode, LiesStraight]
          simp only [rootNode, hroot, if_true]
      | false =>
          have hroot : (isRootDir vol.bpb (rootFolder vol) && DirEntry.zero.first == 0) = false :=
            hmode
          have hnodup := (nodup_rootSlots vol).filter
            fun pos => (diskEntry vol.dev.disk pos).listed
          rw [LiesStraight]
          simp only [rootNode, hroot, Bool.false_eq_true, if_false]
          exact (listing_iff (reads_cluster vol hroot (by decide)) hnodup).trans
            (clusterStraight_iff vol)
  | @sub folder e cs hname hisdir hchain =>
      unfold ListsExactly LiesStraight
      have hnodup := (nodup_slots vol hchain).filter fun pos => (diskEntry vol.dev.disk pos).listed
      have hmode : (isRootDir vol.bpb folder && e.first == 0) = false := by
        simp [hname]
      have hend : e.lowCluster ≠ fat16ValueEndOfChain := by
        have := hchain.live_head.2
        omega
      simp only [hmode, Bool.false_eq_true, if_false]
      rw [listing_iff (reads_cluster vol hmode hend) hnodup]
      exact clusterStraight_iff vol

/-- The path of the root directory gives its node. -/
theorem returns_root (vol : Volume) {path : PathNode} {node : Fat16Node}
    (hroot : path.identifier 0 = charSlash ∧ path.identifier 1 = 0)
    (h : rootDirSectors vol.bpb = 32) : Returns vol [path] node ↔ node = rootNode vol := by
  have hsectors : u32 (u32 (firstRootDirSector vol.bpb + 32) + 2 ^ 32
      - firstRootDirSector vol.bpb) = 32 := by
    simp only [firstRootDirSector, u32]
    omega
  simp only [Returns, fat16GetNodeFromPath, fat16GetRootDirEntry, hroot, and_self, if_true, h,
    hsectors, rootNode, rootFolder, exists_const, Option.some.injEq]
  exact eq_comm

/-! ## A directory with a hole -/

/-- A volume with a root directory of 512 slots: the first one is deleted, the file `A` is
    in the second. -/
def holeDisk : Mem :=
  let header := [0xEB, 0x3C, 0x90] ++ List.replicate 8 0 ++
    [0, 2, 1, 1, 0, 2, 0, 2, 0x36, 0x10, 0xF8, 16, 0]
  let disk := Mem.write (fun _ => 0) partitionOffset header
  let disk := disk.write 0x104200 [dirDeleted]
  disk.write 0x104220 (letterEntry 65 attrArchive 2)

theorem holeDisk_mounted : (fat16Resolve ⟨holeDisk, fun _ => 0⟩).isSome = true := by
  decide +kernel

/-- The volume on `holeDisk` -/
def holeVolume : Volume where
  dev := ⟨holeDisk, fun _ => 0⟩
  bpb := (fat16Resolve ⟨holeDisk, fun _ => 0⟩).get holeDisk_mounted
  mounted := (Option.some_get holeDisk_mounted).symm

/-- In a root directory that is listed, the slots in front of a listed one are listed. -/
theorem RootStraight.listed_before {vol : Volume}
    (h : RootStraight vol
      (vol.rootSlots.filter fun pos => (diskEntry vol.dev.disk pos).listed)) {i j : Nat}
    (hij : i < j) (hj : j < vol.bpb.rootEntCnt) (hlisted : (vol.rootEntry j).listed = true) :
    (vol.rootEntry i).listed = true := by
  obtain ⟨k, -, heq, -⟩ := h
  have hmem : vol.rootPos + 32 * j ∈ (List.range k).map fun i => vol.rootPos + 32 * i := by
    rw [← heq, List.mem_filter]
    exact ⟨List.mem_map.mpr ⟨j, List.mem_range.mpr hj, rfl⟩, hlisted⟩
  obtain ⟨j', hj', hsame⟩ := List.mem_map.mp hmem
  have hlt := List.mem_range.mp hj'
  have hmem' : vol.rootPos + 32 * i ∈ (List.range k).map fun i => vol.rootPos + 32 * i :=
    List.mem_map.mpr ⟨i, List.mem_range.mpr (by omega), rfl⟩
  rw [← heq, List.mem_filter] at hmem'
  exact hmem'.2

/-- The file behind the deleted slot is returned twice. -/
theorem exists_listed_twice : ¬ ∀ (vol : Volume) (dir : OpenDirectory vol),
    ListsExactly vol dir := by
  intro hall
  have hsectors : rootDirSectors holeVolume.bpb = 32 := by decide +kernel
  have hmode : readsRoot holeVolume = true := by decide +kernel
  have hstraight := (lists_root_iff holeVolume hsectors hmode).mp (hall holeVolume _)
  have hcount : 1 < holeVolume.bpb.rootEntCnt := by decide +kernel
  have hfile : (holeVolume.rootEntry 1).listed = true := by decide +kernel
  have hdeleted : (holeVolume.rootEntry 0).listed = false := by decide +kernel
  rw [hstraight.listed_before Nat.zero_lt_one hcount hfile] at hdeleted
  cases hdeleted

end Icarius
