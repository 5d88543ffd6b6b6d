/-
  Icarius.Fs.Fat16.Write

  `fat16_write`: the loop over the data, the clusters that are given back when the file
  becomes shorter, and the update of the directory entry, which is searched for again by
  the name of the file.

  What the loop does is stated on the FAT and on the clusters of a volume (`Written`): it
  follows the chain of the file, links the first free clusters behind it, and puts the
  data into the clusters in the order of the chain.
-/

import Icarius.Fs.Vfs
import Icarius.Fs.Fat16.Table
import Icarius.Fs.Fat16.Read
import Icarius.Fs.Fat16.Search

namespace Icarius

open Icarius.Lib

/-! ## The driver -/

/-- `ENOSPC` -/
def enospc : BitVec 32 := 28#32

/-- What ends a write before its end: a result, a division by zero, or a walk that does
    not come to an end within the look-ups given to it. -/
inductive WriteStop where
  | result (res : BitVec 32) (dev : Ata)
  | division
  | unfinished

/-- The loop of `fat16_write` over the data that is left; each round writes a byte at
    least.  The result is the device and `curr_cluster`. -/
def fat16WriteLoop (bpb : Fat16Header) (additionalClusters : Nat) :
    Nat → Ata → Nat → Nat → List UInt8 → Except WriteStop (Ata × Nat)
  | 0, dev, currCluster, _, _ => .ok (dev, currCluster)
  | fuel + 1, dev, currCluster, clusterOffset, bytes =>
      if bytes = [] then .ok (dev, currCluster)
      else
        let freeSpaceInCluster := maxClusterSizeBytes bpb - clusterOffset
        let writeSize :=
          if bytes.length > freeSpaceInCluster then freeSpaceInCluster else bytes.length
        let dev := dev.writeAt (u32 (dataPos bpb currCluster + clusterOffset))
          (bytes.take writeSize)
        let bytes := bytes.drop writeSize
        let clusterOffset := clusterOffset + writeSize
        if clusterOffset ≥ maxClusterSizeBytes bpb ∧ bytes ≠ [] then
          let nextCluster := fat16GetNextCluster bpb dev currCluster
          if nextCluster ≥ fat16ValueEndOfChain then
            if additionalClusters = 0 then .error (.result (-enospc) dev)
            else
              let newCluster := fat16GetNextFreeCluster bpb dev
              if newCluster = 0 then .error (.result (-enospc) dev)
              else
                let dev := (fat16CreateFatEntry bpb dev currCluster newCluster).2
                let dev := (fat16CreateFatEntry bpb dev newCluster fat16ValueEndOfChain).2
                fat16WriteLoop bpb additionalClusters fuel dev newCluster 0 bytes
          else fat16WriteLoop bpb additionalClusters fuel dev nextCluster 0 bytes
        else fat16WriteLoop bpb additionalClusters fuel dev currCluster clusterOffset bytes

/-- What the data loop leaves behind. -/
structure DataWritten where
  dev : Ata
  currCluster : Nat
  existingClusters : Nat
  requiredClusters : Nat

/-- `start_cluster` of `fat16_write` -/
def entryCluster (fileEntry : DirEntry) : Nat :=
  u16 (fat16GetCombinedCluster fileEntry.highCluster fileEntry.lowCluster)

/-- `required_clusters` -/
def requiredClusters (bpb : Fat16Header) (nBytes : Nat) : Nat :=
  u32 (nBytes + maxClusterSizeBytes bpb - 1) / maxClusterSizeBytes bpb

/-- `fat16_write` up to the end of its data loop -/
def fat16WriteData (bpb : Fat16Header) (dev : Ata) (lookups : Nat) (fileEntry : DirEntry)
    (bytes : List UInt8) (nBytes : Nat) : Except WriteStop DataWritten :=
  let startCluster := entryCluster fileEntry
  match fat16GetClusterChainLength bpb dev lookups (maxClusterSizeBytes bpb) startCluster with
  | none => .error .unfinished
  | some .divideFault => .error .division
  | some (.blocks existingClusters) =>
      let requiredClusters := requiredClusters bpb nBytes
      let additionalClusters := requiredClusters - existingClusters
      match fat16WriteLoop bpb additionalClusters bytes.length dev startCluster 0 bytes with
      | .error stop => .error stop
      | .ok (dev, currCluster) => .ok ⟨dev, currCluster, existingClusters, requiredClusters⟩

/-- `fat16_get_next_cluster` with any `partition_offset` -/
def fat16GetNextClusterFrom (bpb : Fat16Header) (dev : Ata) (partitionOffset currCluster : Nat) :
    Nat :=
  let fatEntryOffset := u32 (partitionOffset + bpb.rsvdSec * bpb.bytsPerSec + currCluster * 2)
  (memOf (dev.readAt fatEntryOffset 2)).load 2 0

/-- The first loop of `fat16_free_unused_clusters`, `n` rounds before its end: the last two
    clusters.  It has the arguments of `fat16_get_next_cluster` the wrong way round. -/
def skipRequired (bpb : Fat16Header) (dev : Ata) (fatTableOffset : Nat) :
    Nat → Nat → Nat → Nat × Nat
  | 0, prevCluster, currCluster => (prevCluster, currCluster)
  | n + 1, prevCluster, currCluster =>
      if currCluster < fat16ValueEndOfChain then
        skipRequired bpb dev fatTableOffset n currCluster
          (fat16GetNextClusterFrom bpb dev currCluster (u16 fatTableOffset))
      else (prevCluster, currCluster)

/-- The second loop of `fat16_free_unused_clusters` -/
def freeChain (bpb : Fat16Header) (fatTableOffset : Nat) : Nat → Ata → Nat → Option Ata
  | 0, _, _ => none
  | lookups + 1, dev, currCluster =>
      if 2 ≤ currCluster ∧ currCluster < fat16ValueEndOfChain then
        let nextCluster := fat16GetNextClusterFrom bpb dev fatTableOffset currCluster
        let dev := (fat16CreateFatEntry bpb dev currCluster fat16ValueFree).2
        freeChain bpb fatTableOffset lookups dev nextCluster
      else some dev

/-- `fat16_free_unused_clusters` -/
def fat16FreeUnusedClusters (bpb : Fat16Header) (dev : Ata) (lookups startCluster
    requiredClusters existingClusters fatTableOffset : Nat) : Option Ata :=
  if requiredClusters ≥ existingClusters ∨ startCluster < 2 then some dev
  else
    let (prevCluster, currCluster) :=
      skipRequired bpb dev fatTableOffset requiredClusters 0 startCluster
    if currCluster ≥ fat16ValueEndOfChain then some dev
    else
      let dev := (fat16CreateFatEntry bpb dev prevCluster fat16ValueEndOfChain).2
      freeChain bpb fatTableOffset lookups dev currCluster

/-- The loop of `fat16_get_parent_cluster` over the root directory -/
def parentSearch (bpb : Fat16Header) (dev : Ata) (lookups : Nat) (filename : List UInt8)
    (buffer : List UInt8) : List Nat → Option Nat
  | [] => some 0
  | i :: is =>
      let entry := entryAt buffer i
      let folderCluster := fat16GetCombinedCluster entry.highCluster entry.lowCluster
      if entry.isDirectory ∧ folderCluster ≥ 2 then
        match fat16ScanDir bpb dev lookups folderCluster filename with
        | none => none
        | some parentCluster =>
            if parentCluster ≠ 0 then some folderCluster
            else parentSearch bpb dev lookups filename buffer is
      else parentSearch bpb dev lookups filename buffer is

/-- `fat16_get_parent_cluster` -/
def fat16GetParentCluster (bpb : Fat16Header) (dev : Ata) (lookups : Nat)
    (filename : List UInt8) : Option Nat :=
  let rootDirSector := fat16GetRootDirAbsolute bpb partitionOffset
  let buffer := dev.readAt rootDirSector (bpb.rootEntCnt * 32)
  parentSearch bpb dev lookups filename buffer (List.range bpb.rootEntCnt)

/-- An entry with bytes put at an offset of it -/
def DirEntry.put (e : DirEntry) (offset : Nat) (bytes : List UInt8) : DirEntry :=
  ⟨e.bytes.take offset ++ bytes ++ e.bytes.drop (offset + bytes.length)⟩

/-- `modification_time` and `modification_date` of now -/
structure Stamp where
  time : UInt16
  date : UInt16

/-- A little-endian number -/
def leBytes : Nat → Nat → List UInt8
  | 0, _ => []
  | k + 1, n => UInt8.ofNat n :: leBytes k (n / 256)

/-- `file_entry` with a new size -/
def DirEntry.setFileSize (e : DirEntry) (size : Nat) : DirEntry := e.put 28 (leBytes 4 size)

/-- `file_entry` with a new time of modification -/
def DirEntry.setModified (e : DirEntry) (now : Stamp) : DirEntry :=
  (e.put 22 (leBytes 2 now.time.toNat)).put 24 (leBytes 2 now.date.toNat)

/-- What a write that comes back leaves: its result, `file_entry` and the device. -/
structure WriteResult where
  res : BitVec 32
  fileEntry : DirEntry
  dev : Ata

/-- The end of `fat16_write`: the directory entry -/
def fat16WriteEntry (bpb : Fat16Header) (dev : Ata) (lookups : Nat) (now : Stamp)
    (fileEntry : DirEntry) (bytesWritten : Nat) : Option WriteResult :=
  if bytesWritten > fileEntry.fileSize then
    let fileEntry := fileEntry.setFileSize bytesWritten
    match fat16GetParentCluster bpb dev lookups fileEntry.fileName with
    | none => none
    | some parentCluster =>
        match fat16FindEntryOffset bpb dev lookups parentCluster fileEntry.fileName with
        | none => none
        | some entryOffset =>
            if entryOffset = 0 then some ⟨-eio, fileEntry, dev⟩
            else
              let fileEntry := fileEntry.setModified now
              some ⟨BitVec.ofNat 32 bytesWritten, fileEntry,
                dev.writeAt entryOffset fileEntry.bytes⟩
  else some ⟨BitVec.ofNat 32 bytesWritten, fileEntry, dev⟩

/-- `fat16_write` of `n_bytes * n_blocks` bytes at `buffer`, on a file -/
def fat16Write (bpb : Fat16Header) (dev : Ata) (lookups : Nat) (now : Stamp)
    (fileEntry : DirEntry) (buffer : Mem) (nBytes nBlocks : Nat) :
    Except WriteStop WriteResult :=
  if nBytes = 0 ∨ nBlocks = 0 then .ok ⟨-einval, fileEntry, dev⟩
  else
    let bytes := (List.range (u32 (nBytes * nBlocks))).map buffer
    match fat16WriteData bpb dev lookups fileEntry bytes nBytes with
    | .error (.result res dev) => .ok ⟨res, fileEntry, dev⟩
    | .error stop => .error stop
    | .ok r =>
        let fatTableOffset := fat16GetFatTableAbsolute bpb partitionOffset
        let freed :=
          if r.requiredClusters < r.existingClusters then
            fat16FreeUnusedClusters bpb r.dev lookups r.currCluster r.requiredClusters
              r.existingClusters fatTableOffset
          else some r.dev
        match freed with
        | none => .error .unfinished
        | some dev =>
            match fat16WriteEntry bpb dev lookups now fileEntry bytes.length with
            | none => .error .unfinished
            | some r => .ok r

end Icarius
