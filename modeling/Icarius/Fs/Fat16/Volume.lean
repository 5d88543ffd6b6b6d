/-
  Icarius.Fs.Fat16.Volume

  A FAT16 volume as `src/x86/driver/fat16/fat16.c` sees it: the header it is mounted
  with, where the tables and clusters are, directory entries and their names.

  The numbers of the header and everything computed from them are the `uint8_t`,
  `uint16_t` and `uint32_t` of the source; `u16` and `u32` mark where they wrap.
-/

import Icarius.Config
import Icarius.Fs.Stream

namespace Icarius

open Icarius.Lib

/-! ## The header -/

/-- `bpb_t` and `ebpb_t`, the fields that are used -/
structure Fat16Header where
  jmp0 : Nat
  jmp2 : Nat
  bytsPerSec : Nat
  secPerClus : Nat
  rsvdSec : Nat
  numFats : Nat
  rootEntCnt : Nat
  totSec16 : Nat
  media : Nat
  fatsz16 : Nat
  totSec32 : Nat
  drvNum : Nat
  bootSig : Nat
  deriving DecidableEq, Repr

/-- `partition_offset` -/
def partitionOffset : Nat := 0x100000

/-- A list of bytes as memory -/
def memOf (bytes : List UInt8) : Mem := fun i => bytes.getD i 0

/-- `fat16_internal_header_t` in the bytes read from the volume; it is packed. -/
def headerOf (bytes : Mem) : Fat16Header where
  jmp0 := bytes.load 1 0
  jmp2 := bytes.load 1 2
  bytsPerSec := bytes.load 2 11
  secPerClus := bytes.load 1 13
  rsvdSec := bytes.load 2 14
  numFats := bytes.load 1 16
  rootEntCnt := bytes.load 2 17
  totSec16 := bytes.load 2 19
  media := bytes.load 1 21
  fatsz16 := bytes.load 2 22
  totSec32 := bytes.load 4 32
  drvNum := bytes.load 1 36
  bootSig := bytes.load 1 38

/-- `_is_valid_fat16_header` -/
def isValidFat16Header (bpb : Fat16Header) : Bool :=
  let hasSignature := bpb.jmp0 == fat16BootSig1 && bpb.jmp2 == fat16BootSig2
  let hasHeader := hasSignature && bpb.bytsPerSec == fat16SectorSize && bpb.secPerClus ≥ 1 &&
    bpb.numFats == 2 && bpb.media != 0
  let hasEbpb := bpb.bootSig == fat16EbpbSig && bpb.drvNum == fat16HardDisk
  let totalSectors := if bpb.totSec32 ≠ 0 then bpb.totSec32 else bpb.totSec16
  let diskSize := u32 (totalSectors * bpb.bytsPerSec)
  hasHeader && !(hasEbpb && (diskSize == 0 || totalSectors == 0))

/-- The sectors of the root directory -/
def rootDirSectors (bpb : Fat16Header) : Nat :=
  u32 (bpb.rootEntCnt * 32 + bpb.bytsPerSec - 1) / bpb.bytsPerSec

/-- `total_clusters` of `fat16_resolve` -/
def totalClusters (bpb : Fat16Header) : Nat :=
  let totalSectors := if bpb.totSec16 = 0 then bpb.totSec32 else bpb.totSec16
  let dataSectors := u32 (totalSectors + 2 ^ 32
    - u32 (bpb.rsvdSec + (bpb.numFats * bpb.fatsz16 + rootDirSectors bpb)))
  dataSectors / bpb.secPerClus

/-- `fat16_resolve`: the header, when the volume is mounted with it. -/
def fat16Resolve (dev : Ata) : Option Fat16Header :=
  let bpb := headerOf (memOf (dev.readAt partitionOffset 62))
  if !isValidFat16Header bpb then none
  else if totalClusters bpb > fat16MaxClusters ∨ totalClusters bpb < fat16MinClusters then none
  else some bpb

/-- A mounted volume: `fat16_header` is the header on its device. -/
structure Volume where
  dev : Ata
  bpb : Fat16Header
  mounted : fat16Resolve dev = some bpb

/-! ## Where things are -/

/-- `fat16_get_root_dir_offset` -/
def fat16GetRootDirOffset (bpb : Fat16Header) : Nat :=
  u32 (bpb.bytsPerSec * (bpb.rsvdSec + bpb.numFats * bpb.fatsz16))

/-- `fat16_get_root_dir_absolute` -/
def fat16GetRootDirAbsolute (bpb : Fat16Header) (partitionOffset : Nat) : Nat :=
  u32 (partitionOffset + fat16GetRootDirOffset bpb)

/-- `fat16_get_fat_table_absolute`, with the offset of `fat16_get_fat_table_offset` -/
def fat16GetFatTableAbsolute (bpb : Fat16Header) (partitionOffset : Nat) : Nat :=
  u32 (partitionOffset + u32 (bpb.rsvdSec * bpb.bytsPerSec))

/-- `fat16_get_sector_from_cluster` -/
def fat16GetSectorFromCluster (bpb : Fat16Header) (cluster : Nat) : Nat :=
  let dataStartSector := bpb.rsvdSec + bpb.numFats * bpb.fatsz16 + rootDirSectors bpb
  u32 (dataStartSector + u32 (cluster + 2 ^ 32 - 2) * bpb.secPerClus)

/-- The position of a cluster, as every function of the driver computes it -/
def dataPos (bpb : Fat16Header) (cluster : Nat) : Nat :=
  u32 (partitionOffset + u32 (fat16GetSectorFromCluster bpb cluster * bpb.bytsPerSec))

/-- `max_cluster_size_bytes` -/
def maxClusterSizeBytes (bpb : Fat16Header) : Nat :=
  u16 (bpb.secPerClus * bpb.bytsPerSec)

/-- `fat16_get_next_cluster` -/
def fat16GetNextCluster (bpb : Fat16Header) (dev : Ata) (currCluster : Nat) : Nat :=
  let fatEntryOffset := u32 (partitionOffset + bpb.rsvdSec * bpb.bytsPerSec + currCluster * 2)
  (memOf (dev.readAt fatEntryOffset 2)).load 2 0

/-- `fat16_get_combined_cluster` -/
def fat16GetCombinedCluster (highCluster lowCluster : Nat) : Nat :=
  highCluster * 2 ^ 16 + lowCluster

/-! ## Directory entries -/

/-- `fat16_dir_entry_t`: its 32 bytes -/
structure DirEntry where
  bytes : List UInt8
  deriving DecidableEq

namespace DirEntry

/-- An entry of zeros -/
def zero : DirEntry := ⟨List.replicate 32 0⟩

def fileName (e : DirEntry) : List UInt8 := e.bytes.take 11

/-- `file_name[0]` -/
def first (e : DirEntry) : UInt8 := e.bytes.getD 0 0

def attributes (e : DirEntry) : UInt8 := e.bytes.getD 11 0

def highCluster (e : DirEntry) : Nat := (memOf e.bytes).load 2 20

def modificationTime (e : DirEntry) : Nat := (memOf e.bytes).load 2 22

def lowCluster (e : DirEntry) : Nat := (memOf e.bytes).load 2 26

def fileSize (e : DirEntry) : Nat := (memOf e.bytes).load 4 28

/-- `attributes & DIRECTORY` -/
def isDirectory (e : DirEntry) : Bool := e.attributes &&& attrDirectory != 0

/-- `attributes & ARCHIVE` -/
def isArchive (e : DirEntry) : Bool := e.attributes &&& attrArchive != 0

end DirEntry

/-- The entry at index `i` of a buffer of entries -/
def entryAt (buffer : List UInt8) (i : Nat) : DirEntry := ⟨(buffer.drop (32 * i)).take 32⟩

/-- `fat16_get_native_filename_from_userland` -/
def fat16GetNativeFilenameFromUserland (userland : Mem) : List UInt8 :=
  let base := ((List.range 8).map userland).takeWhile fun b => b != 0 && b != 46
  let i := base.length
  let ext :=
    if userland i = 46 then ((List.range 3).map fun j => userland (i + 1 + j)).takeWhile (· != 0)
    else []
  base ++ List.replicate (8 - i) 32 ++ ext ++ List.replicate (3 - ext.length) 32

/-- `fat16_get_userland_filename_from_native`, up to the NUL it ends with -/
def fat16GetUserlandFilenameFromNative (native : List UInt8) : List UInt8 :=
  let base := (native.take 8).takeWhile (· != 32)
  let ext := ((native.drop 8).take 3).takeWhile (· != 32)
  if native.getD 8 0 != 32 then base ++ 46 :: ext else base

theorem length_takeWhile_map_range_le {f : Nat → UInt8} {p : UInt8 → Bool} (n : Nat) :
    (((List.range n).map f).takeWhile p).length ≤ n := by
  have h := (List.takeWhile_sublist (l := (List.range n).map f) p).length_le
  simpa using h

/-! ## What mounting checks -/

namespace Volume

variable (vol : Volume)

theorem valid : isValidFat16Header vol.bpb = true ∧
    vol.bpb = headerOf (memOf (vol.dev.readAt partitionOffset 62)) := by
  have h := vol.mounted
  simp only [fat16Resolve] at h
  split at h
  · cases h
  · rename_i hvalid
    split at h
    · cases h
    · rw [← Option.some.inj h]
      exact ⟨by simpa using hvalid, rfl⟩

theorem header : vol.bpb.bytsPerSec = 512 ∧ vol.bpb.numFats = 2 ∧ 1 ≤ vol.bpb.secPerClus := by
  have h := vol.valid.1
  simp only [isValidFat16Header, Bool.and_eq_true, beq_iff_eq, decide_eq_true_eq] at h
  obtain ⟨⟨⟨⟨⟨-, hbyts⟩, hspc⟩, hfats⟩, -⟩, -⟩ := h
  exact ⟨hbyts, hfats, hspc⟩

@[simp] theorem bytsPerSec : vol.bpb.bytsPerSec = 512 := vol.header.1

@[simp] theorem numFats : vol.bpb.numFats = 2 := vol.header.2.1

theorem secPerClus_pos : 1 ≤ vol.bpb.secPerClus := vol.header.2.2

theorem secPerClus_lt : vol.bpb.secPerClus < 256 := by
  rw [vol.valid.2]
  exact Mem.load_lt _ 1 13

theorem rsvdSec_lt : vol.bpb.rsvdSec < 65536 := by
  rw [vol.valid.2]
  exact Mem.load_lt _ 2 14

theorem rootEntCnt_lt : vol.bpb.rootEntCnt < 65536 := by
  rw [vol.valid.2]
  exact Mem.load_lt _ 2 17

theorem fatsz16_lt : vol.bpb.fatsz16 < 65536 := by
  rw [vol.valid.2]
  exact Mem.load_lt _ 2 22

end Volume

end Icarius
