/-
  Icarius.Fs.Fat16.Path

  `fat16_get_node_from_path`: from a parsed path to the node of an entry.  The driver
  looks up the first component in the root directory and the last one in the clusters
  of the entry found there; the components between them are not looked at.

  What a path denotes is stated without the driver (`Resolves`): every component is an
  entry of the directory before it.  `returns_iff` says what the driver returns, and
  `resolvesEveryComponent_iff` on which volumes and paths that is the entry the path
  denotes.
-/

import Mathlib.Data.List.Find
import Icarius.Fs.PathNames
import Icarius.Fs.Fat16.Layout

namespace Icarius

open Icarius.Lib

/-! ## The driver -/

/-- `fat16_folder_t`, less `entry`: it is null until the folder is part of a node. -/
structure Fat16Folder where
  total : Nat := 0
  startSector : Nat := 0
  endSector : Nat := 0

/-- `fat16_node_t`; the folder of a directory has a copy of the entry. -/
inductive Fat16Node where
  | file (entry : DirEntry)
  | dir (folder : Fat16Folder) (entry : DirEntry)

/-- The directory entry a node carries. -/
def Fat16Node.entry : Fat16Node → DirEntry
  | .file entry => entry
  | .dir _ entry => entry

/-- `type` is `FAT16_ENTRY_TYPE_DIRECTORY` -/
def Fat16Node.isDir : Fat16Node → Bool
  | .file _ => false
  | .dir _ _ => true

/-- `first_root_dir_sector` -/
def firstRootDirSector (bpb : Fat16Header) : Nat :=
  u32 (bpb.rsvdSec + bpb.numFats * bpb.fatsz16)

/-- `fat16_get_root_dir_entry`: `entry` and `folder` as it leaves them. -/
def fat16GetRootDirEntry (bpb : Fat16Header) (dev : Ata) (path : PathNode) :
    DirEntry × Fat16Folder :=
  let rootDirAreaAbsolute := fat16GetRootDirAbsolute bpb partitionOffset
  let buffer := dev.readAt rootDirAreaAbsolute (bpb.rootEntCnt * 32)
  if path.identifier 0 = charSlash ∧ path.identifier 1 = 0 then
    (.zero, { total := bpb.rootEntCnt
              startSector := firstRootDirSector bpb
              endSector := u32 (firstRootDirSector bpb + rootDirSectors bpb) })
  else
    let nativeDirName := fat16GetNativeFilenameFromUserland path.identifier
    match (List.range bpb.rootEntCnt).find? fun i =>
        (entryAt buffer i).first != dirFree && (entryAt buffer i).fileName == nativeDirName with
    | none => (.zero, {})
    | some i =>
        let startSector := u32 (firstRootDirSector bpb + i * 32 / bpb.bytsPerSec)
        (entryAt buffer i,
          { total := bpb.rootEntCnt
            startSector := startSector
            endSector := u32 (startSector + (i + 1) * 32 / bpb.bytsPerSec) })

/-- The loop of `fat16_get_node_from_path_in_cluster_chain`; it may go on forever. -/
def fat16GetNodeFromPathInClusterChain (bpb : Fat16Header) (dev : Ata) (startCluster : Nat)
    (fat16Filename : List UInt8) : Nat → Nat → Nat → Option (Option (DirEntry × Fat16Folder))
  | 0, _, _ => none
  | fuel + 1, currCluster, totalEntries =>
      if currCluster ≤ fat16ValueEndOfChain then
        let buffer := dev.readAt (dataPos bpb currCluster) (maxClusterSizeBytes bpb)
        let numEntries := maxClusterSizeBytes bpb / 32
        match (List.range numEntries).find? fun i =>
            (entryAt buffer i).fileName == fat16Filename with
        | some i =>
            some (some (entryAt buffer i,
              { total := u32 (totalEntries + i)
                startSector := fat16GetSectorFromCluster bpb startCluster
                endSector := fat16GetSectorFromCluster bpb currCluster }))
        | none =>
            fat16GetNodeFromPathInClusterChain bpb dev startCluster fat16Filename fuel
              (fat16GetNextCluster bpb dev currCluster) (totalEntries + numEntries)
      else some none

/-- `fat16_get_node_from_path`: the node or null, when the search comes to an end
    within `fuel` clusters. -/
def fat16GetNodeFromPath (bpb : Fat16Header) (dev : Ata) (fuel : Nat) :
    List PathNode → Option (Option Fat16Node)
  | [] => some none
  | path :: next =>
      let native := fat16GetNativeFilenameFromUserland ((path :: next).getLast (by simp)).identifier
      let (entry, folder) := fat16GetRootDirEntry bpb dev path
      if u32 (folder.endSector + 2 ^ 32 - folder.startSector) = 32 then
        some (some (.dir folder entry))
      else if next = [] ∧ entry.first ≠ 0 ∧ entry.isDirectory then some (some (.dir folder entry))
      else if next = [] ∧ entry.first ≠ 0 ∧ entry.isArchive then some (some (.file entry))
      else
        -- the parameter of the search is a `uint16_t`
        let startCluster := u16 (fat16GetCombinedCluster entry.highCluster entry.lowCluster)
        match fat16GetNodeFromPathInClusterChain bpb dev startCluster native fuel startCluster 0 with
        | none => none
        | some none => some none
        | some (some (entry, folder)) =>
            if entry.first ≠ 0 ∧ entry.isDirectory then some (some (.dir folder entry))
            else if entry.first ≠ 0 ∧ entry.isArchive then some (some (.file entry))
            else some none

/-- A call returns the node. -/
def Returns (vol : Volume) (path : List PathNode) (node : Fat16Node) : Prop :=
  ∃ fuel, fat16GetNodeFromPath vol.bpb vol.dev fuel path = some (some node)

/-! ## What a path denotes -/

/-- The 8.3 name of a component -/
def PathNode.native (c : PathNode) : List UInt8 := fat16GetNativeFilenameFromUserland c.identifier

/-- The slot is in use and has the name. -/
def DirEntry.named (name : List UInt8) (e : DirEntry) : Bool :=
  e.first != dirFree && e.first != dirDeleted && e.fileName == name

/-- A directory: the root, or the chain of clusters from its first one -/
inductive Directory where
  | root
  | chain (cluster : Nat)

/-- The slot of the root directory that has the name -/
def rootIndex (vol : Volume) (name : List UInt8) : Option Nat :=
  (List.range vol.bpb.rootEntCnt).find? fun i => (vol.rootEntry i).named name

/-- `e` is the entry with the name in the chain of clusters from `c` on. -/
inductive ChainHolds (vol : Volume) (name : List UInt8) : Nat → DirEntry → Prop
  | here {c : Nat} {e : DirEntry} (hlow : 2 ≤ c) (hhigh : c < fat16ValueEndOfChain)
      (hfind : (vol.clusterEntries c).find? (·.named name) = some e) : ChainHolds vol name c e
  | next {c : Nat} {e : DirEntry} (hlow : 2 ≤ c) (hhigh : c < fat16ValueEndOfChain)
      (hmiss : (vol.clusterEntries c).find? (·.named name) = none)
      (hrest : ChainHolds vol name (vol.fatEntry c) e) : ChainHolds vol name c e

/-- `e` is the entry of the directory that has the name. -/
def Holds (vol : Volume) : Directory → List UInt8 → DirEntry → Prop
  | .root, name, e => (rootIndex vol name).map vol.rootEntry = some e
  | .chain c, name, e => ChainHolds vol name c e

/-- From the directory on, the path denotes the entry `e`: every component is an entry
    of the directory before it. -/
def Resolves (vol : Volume) : Directory → List PathNode → DirEntry → Prop
  | _, [], _ => False
  | d, [c], e => Holds vol d c.native e
  | d, c :: next, e => ∃ e', Holds vol d c.native e' ∧ e'.isDirectory ∧
      Resolves vol (.chain e'.lowCluster) next e

/-- A node is returned exactly when the path denotes an entry, and it carries that entry. -/
def ResolvesEveryComponent (vol : Volume) (path : List PathNode) : Prop :=
  ∀ e, (∃ node, Returns vol path node ∧ node.entry = e) ↔ Resolves vol .root path e

/-! ## When the driver meets that -/

/-- Entries the driver makes a node of -/
def DirEntry.typed (e : DirEntry) : Bool := e.isDirectory || e.isArchive

/-- What the driver reads as the entries of cluster `c` -/
def walkEntries (vol : Volume) (c : Nat) : List DirEntry :=
  (List.range (maxClusterSizeBytes vol.bpb / 32)).map
    (entryAt (vol.dev.readAt (dataPos vol.bpb c) (maxClusterSizeBytes vol.bpb)))

/-- `e` is the first entry with the name in the clusters that follow from `c`, whatever
    their numbers are, up to a number above `FAT16_VALUE_END_OF_CHAIN`. -/
inductive WalkFinds (vol : Volume) (name : List UInt8) : Nat → DirEntry → Prop
  | here {c : Nat} {e : DirEntry} (hle : c ≤ fat16ValueEndOfChain)
      (hfind : (walkEntries vol c).find? (·.fileName == name) = some e) : WalkFinds vol name c e
  | next {c : Nat} {e : DirEntry} (hle : c ≤ fat16ValueEndOfChain)
      (hmiss : (walkEntries vol c).find? (·.fileName == name) = none)
      (hrest : WalkFinds vol name (vol.fatEntry c) e) : WalkFinds vol name c e

/-- The sectors of an entry in slot `i` of the root directory are those by which the
    driver knows the root directory itself. -/
def looksLikeRoot (i : Nat) : Bool := (i + 1) * 32 / 512 == 32

/-- The volume holds the path where the driver looks for it. -/
def HoldsWhereLooked (vol : Volume) (c : PathNode) (next : List PathNode) : Prop :=
  let name := ((c :: next).getLast (by simp)).native
  match rootIndex vol c.native with
  | none => ∀ e, WalkFinds vol name 0 e → e.typed = false
  | some i =>
      let e₁ := vol.rootEntry i
      if looksLikeRoot i then Resolves vol .root (c :: next) e₁
      else if next = [] then e₁.typed = true
      else ∀ e, Resolves vol .root (c :: next) e ↔ WalkFinds vol name e₁.lowCluster e ∧ e.typed

/-! ## Names -/

theorem PathNode.length_native (c : PathNode) : c.native.length = 11 := by
  have hbase := length_takeWhile_map_range_le (f := c.identifier)
    (p := fun b => b != 0 && b != 46) 8
  simp only [PathNode.native, fat16GetNativeFilenameFromUserland, List.length_append,
    List.length_replicate]
  split
  · have hext := length_takeWhile_map_range_le
      (f := fun j => c.identifier
        ((((List.range 8).map c.identifier).takeWhile fun b => b != 0 && b != 46).length + 1 + j))
      (p := fun b => b != 0) 3
    omega
  · rw [List.length_nil]
    omega

/-- The name of a component of a parsed path is not that of a free or deleted slot. -/
theorem PathNode.native_first {c : PathNode} (h : StartsName c ∨ c.identifier 0 = charSlash) :
    c.native.getD 0 0 ≠ dirFree ∧ c.native.getD 0 0 ≠ dirDeleted := by
  have hrange : List.range 8 = 0 :: [1, 2, 3, 4, 5, 6, 7] := rfl
  by_cases hzero : c.identifier 0 = 0
  · -- no name: a blank
    have hbase : ((List.range 8).map c.identifier).takeWhile (fun b => b != 0 && b != 46) = [] := by
      rw [hrange, List.map_cons, List.takeWhile_cons_of_neg (by simp [hzero])]
    simp [PathNode.native, fat16GetNativeFilenameFromUserland, hbase, List.replicate_succ,
      dirFree, dirDeleted]
  · have hchar : c.identifier 0 ≠ dirDeleted ∧ c.identifier 0 ≠ 46 := by
      rcases h with (h | h) | h
      · exact absurd h hzero
      · constructor
        · intro heq
          rw [heq] at h
          exact absurd h (by decide)
        · intro heq
          rw [heq] at h
          exact absurd h (by decide)
      · rw [h]
        decide
    have hbase : ∃ rest, ((List.range 8).map c.identifier).takeWhile (fun b => b != 0 && b != 46)
        = c.identifier 0 :: rest := by
      rw [hrange, List.map_cons, List.takeWhile_cons_of_pos (by simp [hzero, hchar.2])]
      exact ⟨_, rfl⟩
    obtain ⟨rest, hbase⟩ := hbase
    have hfirst : c.native.getD 0 0 = c.identifier 0 := by
      simp [PathNode.native, fat16GetNativeFilenameFromUserland, hbase]
    rw [hfirst]
    exact ⟨hzero, hchar.1⟩

/-- An entry with the name of a component of a parsed path is in use. -/
theorem DirEntry.first_of_fileName {e : DirEntry} {name : List UInt8} (hlen : name.length = 11)
    (h : e.fileName = name) : e.first = name.getD 0 0 := by
  subst h
  rw [DirEntry.first, DirEntry.fileName, List.getD_eq_getElem?_getD, List.getD_eq_getElem?_getD,
    List.getElem?_take_of_lt (by omega)]

section Names

variable {c : PathNode} (hc : StartsName c ∨ c.identifier 0 = charSlash)
include hc

theorem first_of_native {e : DirEntry} (h : e.fileName = c.native) :
    e.first ≠ dirFree ∧ e.first ≠ dirDeleted := by
  rw [DirEntry.first_of_fileName c.length_native h]
  exact c.native_first hc

theorem named_native (e : DirEntry) : e.named c.native = (e.fileName == c.native) := by
  by_cases h : e.fileName = c.native
  · have hfirst := first_of_native hc h
    simp [DirEntry.named, h, hfirst.1, hfirst.2]
  · simp [DirEntry.named, h]

end Names

/-! ## What the driver finds -/

/-- The search in a chain of clusters finds what the walk over them finds. -/
theorem chainSearch_iff (vol : Volume) {start c total : Nat} {name : List UInt8} {e : DirEntry}
    (hc : c < 65536) :
    (∃ fuel folder, fat16GetNodeFromPathInClusterChain vol.bpb vol.dev start name fuel c total
      = some (some (e, folder))) ↔ WalkFinds vol name c e := by
  constructor
  · rintro ⟨fuel, folder, h⟩
    -- over the clusters the driver has looked at
    induction fuel generalizing c total with
    | zero => cases h
    | succ fuel ih =>
        rw [fat16GetNodeFromPathInClusterChain] at h
        by_cases hle : c ≤ fat16ValueEndOfChain
        · simp only [hle, if_true] at h
          split at h
          · rename_i i hfind
            obtain ⟨rfl, -⟩ := Prod.mk.inj (Option.some.inj (Option.some.inj h))
            refine .here hle ?_
            rw [walkEntries, List.find?_map]
            exact congrArg (Option.map _) hfind
          · rename_i hmiss
            rw [vol.nextCluster hc] at h
            refine .next hle ?_ (ih (vol.fatEntry_lt c) h)
            rw [walkEntries, List.find?_map]
            exact congrArg (Option.map _) hmiss
        · rw [if_neg hle] at h
          cases h
  · intro h
    -- over the clusters up to the one with the name
    induction h generalizing total with
    | @here c e hle hfind =>
        rw [walkEntries, List.find?_map] at hfind
        obtain ⟨i, hindex, rfl⟩ := Option.map_eq_some_iff.mp hfind
        refine ⟨1, ⟨u32 (total + i), fat16GetSectorFromCluster vol.bpb start,
          fat16GetSectorFromCluster vol.bpb c⟩, ?_⟩
        rw [fat16GetNodeFromPathInClusterChain, if_pos hle]
        simp only [Function.comp_def] at hindex
        simp only [hindex]
    | @next c e hle hmiss hrest ih =>
        rw [walkEntries, List.find?_map, Option.map_eq_none_iff] at hmiss
        obtain ⟨fuel, folder, hsearch⟩ :=
          ih (vol.fatEntry_lt c)
        refine ⟨fuel + 1, folder, ?_⟩
        rw [fat16GetNodeFromPathInClusterChain, if_pos hle]
        simp only [Function.comp_def] at hmiss
        simp only [hmiss, vol.nextCluster hc]
        exact hsearch

theorem WalkFinds.fileName {vol : Volume} {name : List UInt8} {c : Nat} {e : DirEntry}
    (h : WalkFinds vol name c e) : e.fileName = name := by
  induction h with
  | here _ hfind =>
      have hname := List.find?_some hfind
      exact beq_iff_eq.mp hname
  | next _ _ _ ih => exact ih

section Lookup

variable (vol : Volume) {c : PathNode} {next : List PathNode}
  (hnames : ∀ n ∈ c :: next, StartsName n ∨ n.identifier 0 = charSlash)
include hnames

/-- The lookup in the root directory, by the slot of the name. -/
theorem rootDirEntry_eq (hroot : ¬ (c.identifier 0 = charSlash ∧ c.identifier 1 = 0)) :
    fat16GetRootDirEntry vol.bpb vol.dev c
      = match rootIndex vol c.native with
        | none => (.zero, {})
        | some i =>
            (vol.rootEntry i,
              { total := vol.bpb.rootEntCnt
                startSector := u32 (firstRootDirSector vol.bpb + i * 32 / 512)
                endSector := u32 (u32 (firstRootDirSector vol.bpb + i * 32 / 512)
                  + (i + 1) * 32 / 512) }) := by
  have hfind : (List.range vol.bpb.rootEntCnt).find? (fun i =>
        (entryAt (vol.dev.readAt vol.rootPos (vol.bpb.rootEntCnt * 32)) i).first != dirFree &&
        (entryAt (vol.dev.readAt vol.rootPos (vol.bpb.rootEntCnt * 32)) i).fileName == c.native)
      = rootIndex vol c.native := by
    apply List.find?_congr
    intro i hi
    rw [vol.rootEntry_read (List.mem_range.mp hi), named_native (hnames c List.mem_cons_self)]
    by_cases h : (vol.rootEntry i).fileName = c.native
    · have hfirst := (first_of_native (hnames c List.mem_cons_self) h).1
      simp [h, hfirst]
    · simp [h]
  have hlt : ∀ i, rootIndex vol c.native = some i → i < vol.bpb.rootEntCnt := by
    intro i hi
    exact List.mem_range.mp (List.mem_of_find?_eq_some hi)
  simp only [PathNode.native] at hfind hlt ⊢
  simp only [fat16GetRootDirEntry, hroot, if_false, vol.rootDirAbsolute, vol.bytsPerSec, hfind]
  cases hindex : rootIndex vol (fat16GetNativeFilenameFromUserland c.identifier) with
  | none => rfl
  | some i => simp only [vol.rootEntry_read (hlt i hindex)]

/-- A search that gets to the clusters. -/
theorem returns_walk {entry : DirEntry} {folder : Fat16Folder} (e : DirEntry)
    (hlookup : fat16GetRootDirEntry vol.bpb vol.dev c = (entry, folder))
    (hmark : u32 (folder.endSector + 2 ^ 32 - folder.startSector) ≠ 32)
    (hsingle : next = [] → entry.first ≠ 0 → entry.typed = false) :
    (∃ node, Returns vol (c :: next) node ∧ node.entry = e) ↔
      WalkFinds vol ((c :: next).getLast (by simp)).native entry.lowCluster e ∧ e.typed = true := by
  have hlow : entry.lowCluster < 65536 := Mem.load_lt _ 2 26
  have hstart : u16 (fat16GetCombinedCluster entry.highCluster entry.lowCluster)
      = entry.lowCluster := by
    simp only [u16, fat16GetCombinedCluster]
    omega
  -- the two cases in which the driver stops at the entry of the root directory
  have hdir : ¬ (next = [] ∧ entry.first ≠ 0 ∧ entry.isDirectory = true) := by
    rintro ⟨hnext, hfirst, hdir⟩
    have := hsingle hnext hfirst
    simp [DirEntry.typed, hdir] at this
  have harchive : ¬ (next = [] ∧ entry.first ≠ 0 ∧ entry.isArchive = true) := by
    rintro ⟨hnext, hfirst, harchive⟩
    have := hsingle hnext hfirst
    simp [DirEntry.typed, harchive] at this
  have hlast := hnames _ (List.getLast_mem (l := c :: next) (by simp))
  simp only [Returns, fat16GetNodeFromPath, hlookup, hmark, hdir, harchive, if_false, hstart]
  constructor
  · rintro ⟨node, ⟨fuel, h⟩, rfl⟩
    split at h
    · cases h
    · cases h
    · -- the search has found an entry, and its type decides whether it is returned
      rename_i found folder' hsearch
      have hwalk := (chainSearch_iff vol hlow).mp ⟨fuel, folder', hsearch⟩
      split at h
      · rename_i htype
        rw [← Option.some.inj (Option.some.inj h)]
        exact ⟨hwalk, by simp [Fat16Node.entry, DirEntry.typed, htype.2]⟩
      · split at h
        · rename_i htype
          rw [← Option.some.inj (Option.some.inj h)]
          exact ⟨hwalk, by simp [Fat16Node.entry, DirEntry.typed, htype.2]⟩
        · cases h
  · rintro ⟨hwalk, htyped⟩
    have hfirst : e.first ≠ 0 := (first_of_native hlast hwalk.fileName).1
    obtain ⟨fuel, folder', hsearch⟩ : ∃ fuel folder,
        fat16GetNodeFromPathInClusterChain vol.bpb vol.dev entry.lowCluster
          (fat16GetNativeFilenameFromUserland ((c :: next).getLast (by simp)).identifier) fuel
          entry.lowCluster 0 = some (some (e, folder)) := (chainSearch_iff vol hlow).mpr hwalk
    by_cases hdir : e.isDirectory = true
    · refine ⟨.dir folder' e, ⟨fuel, ?_⟩, rfl⟩
      simp only [hsearch]
      rw [if_pos ⟨hfirst, hdir⟩]
    · have harchive : e.isArchive = true := by
        simpa [DirEntry.typed, hdir] using htyped
      refine ⟨.file e, ⟨fuel, ?_⟩, rfl⟩
      simp only [hsearch]
      rw [if_neg (fun h => hdir h.2), if_pos ⟨hfirst, harchive⟩]

end Lookup

/-! ## Exactly when the driver resolves a path -/

theorem ChainHolds.unique {vol : Volume} {name : List UInt8} {c : Nat} {e e' : DirEntry}
    (h : ChainHolds vol name c e) (h' : ChainHolds vol name c e') : e = e' := by
  induction h with
  | here _ _ hfind =>
      cases h' with
      | here _ _ hfind' => exact Option.some.inj (hfind.symm.trans hfind')
      | next _ _ hmiss _ =>
          rw [hfind] at hmiss
          cases hmiss
  | next _ _ hmiss _ ih =>
      cases h' with
      | here _ _ hfind' =>
          rw [hmiss] at hfind'
          cases hfind'
      | next _ _ _ hrest' => exact ih hrest'

theorem Holds.unique {vol : Volume} {d : Directory} {name : List UInt8} {e e' : DirEntry}
    (h : Holds vol d name e) (h' : Holds vol d name e') : e = e' := by
  cases d with
  | root => exact Option.some.inj (h.symm.trans h')
  | chain c => exact ChainHolds.unique h h'

theorem Resolves.unique {vol : Volume} {d : Directory} {path : List PathNode} {e e' : DirEntry}
    (h : Resolves vol d path e) (h' : Resolves vol d path e') : e = e' := by
  induction path generalizing d with
  | nil => cases h
  | cons c next ih =>
      cases next with
      | nil => exact Holds.unique h h'
      | cons c₂ next =>
          obtain ⟨f, hf, -, hrest⟩ := h
          obtain ⟨f', hf', -, hrest'⟩ := h'
          rw [← Holds.unique hf hf'] at hrest'
          exact ih hrest hrest'

/-- The first component of a path that denotes an entry is in the root directory. -/
theorem Resolves.first {vol : Volume} {c : PathNode} {next : List PathNode} {e : DirEntry}
    (h : Resolves vol .root (c :: next) e) : ∃ i, rootIndex vol c.native = some i := by
  have hholds : ∃ e', Holds vol .root c.native e' := by
    cases next with
    | nil => exact ⟨e, h⟩
    | cons c₂ next =>
        obtain ⟨e', hholds, -⟩ := h
        exact ⟨e', hholds⟩
  obtain ⟨e', hholds⟩ := hholds
  obtain ⟨i, hi, -⟩ := Option.map_eq_some_iff.mp hholds
  exact ⟨i, hi⟩

theorem rootIndex_lt {vol : Volume} {name : List UInt8} {i : Nat}
    (h : rootIndex vol name = some i) : i < 65536 := by
  have hlt := List.mem_range.mp (List.mem_of_find?_eq_some h)
  have hcnt := vol.rootEntCnt_lt
  omega

/-- The difference of the sectors of a folder, when the entry is in slot `i`. -/
theorem folder_sectors (start : Nat) {i : Nat} (hi : i < 65536) :
    u32 (u32 (u32 start + (i + 1) * 32 / 512) + 2 ^ 32 - u32 start) = (i + 1) * 32 / 512 := by
  simp only [u32]
  omega

section Lookup

variable (vol : Volume) {c : PathNode} {next : List PathNode}
  (hnames : ∀ n ∈ c :: next, StartsName n ∨ n.identifier 0 = charSlash)
  (hroot : ¬ (c.identifier 0 = charSlash ∧ c.identifier 1 = 0))
include hnames hroot

/-- The first component is not in the root directory. -/
theorem returns_missing (hmiss : rootIndex vol c.native = none) (e : DirEntry) :
    (∃ node, Returns vol (c :: next) node ∧ node.entry = e) ↔
      WalkFinds vol ((c :: next).getLast (by simp)).native 0 e ∧ e.typed = true := by
  have hlookup := rootDirEntry_eq vol hnames hroot
  rw [hmiss] at hlookup
  have hmark : u32 (({} : Fat16Folder).endSector + 2 ^ 32 - ({} : Fat16Folder).startSector) ≠ 32 := by
    decide
  have hzero : DirEntry.zero.lowCluster = 0 := by decide
  have h := returns_walk vol hnames e hlookup hmark (fun _ hfirst => absurd rfl hfirst)
  rwa [hzero] at h

section Found

variable {i : Nat} (hindex : rootIndex vol c.native = some i) (e : DirEntry)
include hindex

/-- The entry is taken for the root directory. -/
theorem returns_mark (hmark : looksLikeRoot i = true) :
    (∃ node, Returns vol (c :: next) node ∧ node.entry = e) ↔ vol.rootEntry i = e := by
  have hlookup := rootDirEntry_eq vol hnames hroot
  rw [hindex] at hlookup
  have hsectors := (folder_sectors (firstRootDirSector vol.bpb + i * 32 / 512)
    (rootIndex_lt hindex)).trans (beq_iff_eq.mp hmark)
  simp only [Returns, fat16GetNodeFromPath, hlookup, hsectors, if_true]
  constructor
  · rintro ⟨node, ⟨-, h⟩, rfl⟩
    rw [← Option.some.inj (Option.some.inj h)]
    rfl
  · rintro rfl
    exact ⟨_, ⟨0, rfl⟩, rfl⟩

/-- A single component with a node of its own. -/
theorem returns_single (hmark : looksLikeRoot i = false) (hnext : next = [])
    (htyped : (vol.rootEntry i).typed = true) :
    (∃ node, Returns vol (c :: next) node ∧ node.entry = e) ↔ vol.rootEntry i = e := by
  subst hnext
  have hlookup := rootDirEntry_eq vol hnames hroot
  rw [hindex] at hlookup
  have hsectors := folder_sectors (firstRootDirSector vol.bpb + i * 32 / 512)
    (rootIndex_lt hindex)
  have hne : (i + 1) * 32 / 512 ≠ 32 := beq_eq_false_iff_ne.mp hmark
  have hfirst : (vol.rootEntry i).first ≠ 0 := by
    have hnamed := List.find?_some hindex
    rw [named_native (hnames c List.mem_cons_self)] at hnamed
    exact (first_of_native (hnames c List.mem_cons_self) (beq_iff_eq.mp hnamed)).1
  simp only [Returns, fat16GetNodeFromPath, hlookup, hsectors, hne, if_false, true_and]
  by_cases hdir : (vol.rootEntry i).isDirectory = true
  · simp only [if_pos (And.intro hfirst hdir)]
    constructor
    · rintro ⟨node, ⟨-, h⟩, rfl⟩
      rw [← Option.some.inj (Option.some.inj h)]
      rfl
    · rintro rfl
      exact ⟨_, ⟨0, rfl⟩, rfl⟩
  · have harchive : (vol.rootEntry i).isArchive = true := by
      simpa [DirEntry.typed, hdir] using htyped
    simp only [if_neg (fun h : _ ∧ _ => hdir h.2), if_pos (And.intro hfirst harchive)]
    constructor
    · rintro ⟨node, ⟨-, h⟩, rfl⟩
      rw [← Option.some.inj (Option.some.inj h)]
      rfl
    · rintro rfl
      exact ⟨_, ⟨0, rfl⟩, rfl⟩

/-- Otherwise the clusters of the entry are searched. -/
theorem returns_chain (hmark : looksLikeRoot i = false)
    (hsingle : next = [] → (vol.rootEntry i).typed = false) :
    (∃ node, Returns vol (c :: next) node ∧ node.entry = e) ↔
      WalkFinds vol ((c :: next).getLast (by simp)).native (vol.rootEntry i).lowCluster e ∧
        e.typed = true := by
  have hlookup := rootDirEntry_eq vol hnames hroot
  rw [hindex] at hlookup
  apply returns_walk vol hnames e hlookup
  · rw [folder_sectors _ (rootIndex_lt hindex)]
    exact beq_eq_false_iff_ne.mp hmark
  · exact fun hnext _ => hsingle hnext

end Found

/-- The driver resolves a path whose names are those of a parsed one exactly when the
    volume holds it where the driver looks. -/
theorem resolves_iff_holdsWhereLooked :
    ResolvesEveryComponent vol (c :: next) ↔ HoldsWhereLooked vol c next := by
  unfold ResolvesEveryComponent HoldsWhereLooked
  cases hindex : rootIndex vol c.native with
  | none =>
      have hnone : ∀ e, ¬ Resolves vol .root (c :: next) e := by
        intro e h
        obtain ⟨i, hi⟩ := h.first
        rw [hindex] at hi
        cases hi
      simp only [returns_missing vol hnames hroot hindex, hnone, iff_false, not_and,
        Bool.not_eq_true]
  | some i =>
      simp only
      cases hmark : looksLikeRoot i with
      | true =>
          simp only [returns_mark vol hnames hroot hindex _ hmark, if_true]
          constructor
          · exact fun h => (h _).mp rfl
          · intro h e
            constructor
            · rintro rfl
              exact h
            · exact fun h' => h.unique h'
      | false =>
          simp only [Bool.false_eq_true, if_false]
          by_cases hnext : next = []
          · rw [if_pos hnext]
            subst hnext
            have hdenotes : ∀ e, Resolves vol .root [c] e ↔ vol.rootEntry i = e := by
              intro e
              show (rootIndex vol c.native).map vol.rootEntry = some e ↔ _
              rw [hindex, Option.map_some, Option.some.injEq]
            cases htyped : (vol.rootEntry i).typed with
            | true =>
                simp only [returns_single vol hnames hroot hindex _ hmark rfl htyped, hdenotes,
                  implies_true]
            | false =>
                simp only [returns_chain vol hnames hroot hindex _ hmark (fun _ => htyped), hdenotes,
                  Bool.false_eq_true, iff_false]
                -- the entry itself is denoted, and no node is made of it
                intro h
                have := ((h _).mpr rfl).2
                rw [htyped] at this
                cases this
          · rw [if_neg hnext]
            simp only [returns_chain vol hnames hroot hindex _ hmark (fun h => absurd h hnext)]
            constructor
            · exact fun h e => (h e).symm
            · exact fun h e => (h e).symm

end Lookup

/-- A path the parser has made, other than that of the root -/
structure ParsedPath where
  first : PathNode
  next : List PathNode
  parsed : ∃ text root p, 0 ∉ text ∧ pathParserParse {} text = .ok (root, p) ∧
    root.path = first :: next
  notRoot : ¬ (first.identifier 0 = charSlash ∧ first.identifier 1 = 0)

/-- The driver resolves a path exactly when the volume holds it where the driver looks. -/
theorem resolvesEveryComponent_iff (vol : Volume) (path : ParsedPath) :
    ResolvesEveryComponent vol (path.first :: path.next)
      ↔ HoldsWhereLooked vol path.first path.next := by
  obtain ⟨text, root, p, hnul, hparse, hpath⟩ := path.parsed
  have hnames := pathParserParse_starts hnul hparse
  rw [hpath] at hnames
  exact resolves_iff_holdsWhereLooked vol hnames path.notRoot

/-! ## A path of three components -/

/-- `"A:/A/B/C"`, parsed -/
def deepPath : ParsedPath where
  first := ⟨emptyNode.identifier.write 0 [65]⟩
  next := [⟨emptyNode.identifier.write 0 [66]⟩, ⟨emptyNode.identifier.write 0 [67]⟩]
  parsed := ⟨[65, 58, 47, 65, 47, 66, 47, 67], _, _, by decide, rfl, rfl⟩
  notRoot := by decide

/-- A directory entry with a name of one letter -/
def letterEntry (c attributes cluster : UInt8) : List UInt8 :=
  [c] ++ List.replicate 10 32 ++ [attributes] ++ List.replicate 14 0 ++ [cluster] ++
    List.replicate 5 0

/-- A volume with clusters of one sector, where `B` is in the directory `A`, and the file
    `C` in `B`. -/
def deepDisk : Mem :=
  let header := [0xEB, 0x3C, 0x90] ++ List.replicate 8 0 ++
    [0, 2, 1, 1, 0, 2, 16, 0, 0x17, 0x10, 0xF8, 16, 0]
  let disk := Mem.write (fun _ => 0) partitionOffset header
  let disk := disk.write 0x100204 [0xFF, 0xFF, 0xFF, 0xFF, 0xFF, 0xFF]
  let disk := disk.write 0x104200 (letterEntry 65 attrDirectory 2)
  let disk := disk.write 0x104400 (letterEntry 66 attrDirectory 3)
  disk.write 0x104600 (letterEntry 67 attrArchive 4)

theorem deepDisk_mounted : (fat16Resolve ⟨deepDisk, fun _ => 0⟩).isSome = true := by
  decide +kernel

/-- The volume on `deepDisk` -/
def deepVolume : Volume where
  dev := ⟨deepDisk, fun _ => 0⟩
  bpb := (fat16Resolve ⟨deepDisk, fun _ => 0⟩).get deepDisk_mounted
  mounted := (Option.some_get deepDisk_mounted).symm

/-- `C` is looked for in the clusters of `A`. -/
theorem exists_deep_path_missed : ¬ ∀ (vol : Volume) (path : ParsedPath),
    ResolvesEveryComponent vol (path.first :: path.next) := by
  intro hall
  have hindex : rootIndex deepVolume deepPath.first.native = some 0 := by decide +kernel
  have hdenotes : Resolves deepVolume .root (deepPath.first :: deepPath.next)
      ⟨letterEntry 67 attrArchive 4⟩ := by
    have hfirst : (rootIndex deepVolume deepPath.first.native).map deepVolume.rootEntry
        = some ⟨letterEntry 65 attrDirectory 2⟩ := by
      decide +kernel
    refine ⟨⟨letterEntry 65 attrDirectory 2⟩, hfirst, by decide +kernel, ?_⟩
    refine ⟨⟨letterEntry 66 attrDirectory 3⟩, ?_, by decide +kernel, ?_⟩
    · exact .here (by decide +kernel) (by decide +kernel) (by decide +kernel)
    · exact .here (by decide +kernel) (by decide +kernel) (by decide +kernel)
  have hwalk : ∀ e, ¬ WalkFinds deepVolume
      (PathNode.native ⟨emptyNode.identifier.write 0 [67]⟩) 2 e := by
    intro e hwalk
    have hmiss : (walkEntries deepVolume 2).find?
        (·.fileName == PathNode.native ⟨emptyNode.identifier.write 0 [67]⟩) = none := by
      decide +kernel
    cases hwalk with
    | here _ hfind =>
        rw [hmiss] at hfind
        cases hfind
    | next _ _ hrest =>
        have hend : ¬ deepVolume.fatEntry 2 ≤ fat16ValueEndOfChain := by decide +kernel
        cases hrest with
        | here hle _ => exact hend hle
        | next hle _ _ => exact hend hle
  obtain ⟨text, root, p, hnul, hparse, hpath⟩ := deepPath.parsed
  have hnames := pathParserParse_starts hnul hparse
  rw [hpath] at hnames
  have hreturned := (hall deepVolume deepPath _).mpr hdenotes
  rw [returns_chain deepVolume hnames deepPath.notRoot hindex _ (by decide) (fun h => by cases h)]
    at hreturned
  have hcluster : (deepVolume.rootEntry 0).lowCluster = 2 := by decide +kernel
  rw [hcluster] at hreturned
  exact hwalk _ hreturned.1

end Icarius
