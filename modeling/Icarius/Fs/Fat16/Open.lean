/-
  Icarius.Fs.Fat16.Open

  `fat16_open` and `fat16_close` with the objects they allocate: a node for the entry that
  is found or made, and a descriptor.  Any of these allocations may be refused.
-/

import Icarius.Lib.Ledger
import Icarius.Fs.Vfs
import Icarius.Fs.Fat16.Table
import Icarius.Fs.Fat16.Read

namespace Icarius

open Icarius.Lib

/-! ## Objects on the heap -/

/-- `fat16_node_t` with its pointer, and those of what belongs to it: `file`, or `dir` and
    `dir->entry`. -/
structure HeapNode where
  node : Fat16Node
  self : Nat
  parts : List Nat

/-- `fat16_fd_t` with its pointer -/
structure HeapFd where
  self : Nat
  entry : HeapNode
  pos : Nat

/-- `fat16_create_node_from_entry` -/
def fat16CreateNodeFromEntry (heap : Ledger) (entry : DirEntry) : Option HeapNode × Ledger :=
  match heap.request with
  | (none, heap) => (none, heap)
  | (some node, heap) =>
      match heap.request with
      | (none, heap) => (none, heap.free node)
      | (some file, heap) => (some ⟨.file entry, node, [file]⟩, heap)

/-- `fat16_create_node_from_dir` -/
def fat16CreateNodeFromDir (heap : Ledger) (folder : Fat16Folder) (entry : DirEntry) :
    Option HeapNode × Ledger :=
  match heap.request with
  | (none, heap) => (none, heap)
  | (some node, heap) =>
      match heap.request with
      | (none, heap) => (none, heap.free node)
      | (some dir, heap) =>
          match heap.request with
          | (none, heap) => (none, (heap.free dir).free node)
          | (some file, heap) => (some ⟨.dir folder entry, node, [dir, file]⟩, heap)

/-- The node that a lookup ends with -/
def fat16CreateNode (heap : Ledger) : Fat16Node → Option HeapNode × Ledger
  | .file entry => fat16CreateNodeFromEntry heap entry
  | .dir folder entry => fat16CreateNodeFromDir heap folder entry

/-! ## A new file -/

/-- A slot that can be taken -/
def DirEntry.isFree (e : DirEntry) : Bool := e.first == dirFree || e.first == dirDeleted

/-- `fat16_get_free_root_dir_entry`: the position of a slot, or 0. -/
def fat16GetFreeRootDirEntry (bpb : Fat16Header) (dev : Ata) : Nat :=
  let rootDirSector := fat16GetRootDirAbsolute bpb partitionOffset
  let buffer := dev.readAt rootDirSector (bpb.rootEntCnt * 32)
  match (List.range bpb.rootEntCnt).find? fun i => (entryAt buffer i).isFree with
  | some i => u32 (rootDirSector + i * 32)
  | none => 0

/-- The loop of `fat16_find_free_entry_in_dir`, and what it does behind the last cluster;
    it may go on forever. -/
def fat16FindFreeEntryLoop (bpb : Fat16Header) (dev : Ata) : Nat → Nat → Option (Nat × Ata)
  | 0, _ => none
  | fuel + 1, currCluster =>
      if currCluster < fat16ValueEndOfChain then
        let pos := dataPos bpb currCluster
        let buffer := dev.readAt pos (maxClusterSizeBytes bpb)
        let numEntriesPerCluster := maxClusterSizeBytes bpb / 32
        match (List.range numEntriesPerCluster).find? fun i => (entryAt buffer i).isFree with
        | some i => some (u32 (pos + i * 32), dev)
        | none => fat16FindFreeEntryLoop bpb dev fuel (fat16GetNextCluster bpb dev currCluster)
      else
        let newCluster := fat16GetNextFreeCluster bpb dev
        if newCluster = 0 then some (0, dev)
        else
          -- `curr_cluster` is an end mark by now, so there is no such entry
          let dev := (fat16CreateFatEntry bpb dev currCluster newCluster).2
          let dev := (fat16CreateFatEntry bpb dev newCluster fat16ValueEndOfChain).2
          let newDataPos := dataPos bpb newCluster
          some (newDataPos, dev.writeAt newDataPos (List.replicate (maxClusterSizeBytes bpb) 0))

/-- `fat16_find_free_entry_in_dir`: the position of a slot, or 0. -/
def fat16FindFreeEntryInDir (bpb : Fat16Header) (dev : Ata) (fuel startCluster : Nat) :
    Option (Nat × Ata) :=
  let startCluster := u16 startCluster
  if startCluster < 2 ∨ startCluster ≥ fat16MaxClusters then some (0, dev)
  else fat16FindFreeEntryLoop bpb dev fuel startCluster

/-- `new_entry` of `fat16_create_file` -/
def newDirEntry (name : List UInt8) (freeCluster : Nat) : DirEntry :=
  ⟨name ++ [attrArchive] ++ List.replicate 14 0 ++
    [UInt8.ofNat freeCluster, UInt8.ofNat (freeCluster / 256)] ++ List.replicate 4 0⟩

/-- What `fat16_create_file` does to the volume: the entry of the new file, when there is
    room for it, and the device. -/
def newFile (bpb : Fat16Header) (dev : Ata) (fuel : Nat) (path : List PathNode)
    (folder : DirEntry) : Option (Option DirEntry × Ata) :=
  match path with
  | [] => some (none, dev)
  | first :: next =>
      let curr := (first :: next).getLast (List.cons_ne_nil first next)
      let slot :=
        if next = [] then some (fat16GetFreeRootDirEntry bpb dev, dev)
        else
          fat16FindFreeEntryInDir bpb dev fuel
            (fat16GetCombinedCluster folder.highCluster folder.lowCluster)
      match slot with
      | none => none
      | some (freeEntryOffset, dev) =>
          if next = [] ∧ freeEntryOffset = 0 then some (none, dev)
          else
            let freeCluster := fat16GetNextFreeCluster bpb dev
            if freeCluster = 0 then some (none, dev)
            else
              let newEntry :=
                newDirEntry (fat16GetNativeFilenameFromUserland curr.identifier) freeCluster
              let dev := (fat16CreateFatEntry bpb dev freeCluster fat16ValueEndOfChain).2
              -- the number of bytes is `sizeof(fat16_dir_entry_t) < 0`
              some (some newEntry, dev.writeAt freeEntryOffset (newEntry.bytes.take 0))

/-- What ends a call: a fault of the path parser, a null node, descriptor or file system that
    is used, a division by zero, a copy to pages that are not there, a search that does not
    come to an end within the clusters given to it. -/
inductive OpenFault where
  | path (fault : PathFault)
  | nullEntry
  | nullFd
  | nullFs
  | division
  | pageFault
  | unfinished
  deriving DecidableEq, Repr

/-- `fat16_create_file`; a new file is a node of its own, written without a test of its
    pointers. -/
def fat16CreateFile (bpb : Fat16Header) (dev : Ata) (heap : Ledger) (fuel : Nat)
    (path : List PathNode) (node : HeapNode) :
    Except OpenFault (Option HeapNode × Ata × Ledger) :=
  match newFile bpb dev fuel path node.node.entry with
  | none => .error .unfinished
  | some (none, dev) => .ok (none, dev, heap)
  | some (some newEntry, dev) =>
      match heap.request with
      | (none, _) => .error .nullEntry
      | (some fat16Entry, heap) =>
          match heap.request with
          | (none, _) => .error .nullEntry
          | (some file, heap) => .ok (some ⟨.file newEntry, fat16Entry, [file]⟩, dev, heap)

/-! ## Opening and closing -/

/-- The end of `fat16_open`: the descriptor, or null. -/
def fat16OpenFd (dev : Ata) (heap : Ledger) (entry : HeapNode) : Option HeapFd × Ata × Ledger :=
  match heap.request with
  | (none, heap) => (none, dev, heap)
  | (some fd, heap) => (some ⟨fd, entry, 0⟩, dev, heap)

/-- `fat16_open`: the descriptor, or null.  A node that is not found and one that is not
    allocated are the same null pointer. -/
def fat16Open (bpb : Fat16Header) (dev : Ata) (heap : Ledger) (fuel : Nat)
    (path : List PathNode) (mode : VMode) :
    Except OpenFault (Option HeapFd × Ata × Ledger) :=
  if mode ≠ .read ∧ mode ≠ .write then .ok (none, dev, heap)
  else if path = [] then .ok (none, dev, heap)
  else
    match fat16GetNodeFromPath bpb dev fuel path with
    | none => .error .unfinished
    | some found =>
        let (entry, heap) := match found with
          | none => (none, heap)
          | some node => fat16CreateNode heap node
        match entry with
        | none => if mode = .read then .ok (none, dev, heap) else .error .nullEntry
        | some entry =>
            if entry.node.isDir = true ∧ mode = .write then
              match fat16CreateFile bpb dev heap fuel path entry with
              | .error fault => .error fault
              | .ok (none, dev, heap) => .ok (none, dev, heap)
              | .ok (some entry, dev, heap) => .ok (fat16OpenFd dev heap entry)
            else .ok (fat16OpenFd dev heap entry)

/-- `fat16_close`, of a descriptor with an entry -/
def fat16Close (heap : Ledger) (fat16Descriptor : HeapFd) : Ledger :=
  heap.frees (fat16Descriptor.entry.parts.reverse ++
    [fat16Descriptor.entry.self, fat16Descriptor.self])

/-- The pointers of a node -/
def HeapNode.ptrs (n : HeapNode) : List Nat := n.self :: n.parts

/-- The pointers of a descriptor -/
def HeapFd.ptrs (fd : HeapFd) : List Nat := fd.self :: fd.entry.ptrs

/-- There is room for a new file: a slot, when it is one of the root directory, and a free
    cluster, also behind the search for a slot in the folder. -/
def HasRoom (bpb : Fat16Header) (dev : Ata) (fuel : Nat) (path : List PathNode)
    (folder : DirEntry) : Prop :=
  if path.length = 1 then
    fat16GetFreeRootDirEntry bpb dev ≠ 0 ∧ fat16GetNextFreeCluster bpb dev ≠ 0
  else
    ∀ pos dev', fat16FindFreeEntryInDir bpb dev fuel
        (fat16GetCombinedCluster folder.highCluster folder.lowCluster) = some (pos, dev') →
      fat16GetNextFreeCluster bpb dev' ≠ 0

/-- The search for a slot comes to an end. -/
def SlotSearchEnds (bpb : Fat16Header) (dev : Ata) (fuel : Nat) (path : List PathNode)
    (folder : DirEntry) : Prop :=
  path.length = 1 ∨ (fat16FindFreeEntryInDir bpb dev fuel
    (fat16GetCombinedCluster folder.highCluster folder.lowCluster)).isSome

/-- The objects of a node -/
def Fat16Node.objects : Fat16Node → Nat
  | .file _ => 2
  | .dir _ _ => 3

/-- An open for writing that comes to a directory makes a file. -/
def MakesFile (mode : VMode) (node : Fat16Node) : Prop := node.isDir = true ∧ mode = .write

instance (mode : VMode) (node : Fat16Node) : Decidable (MakesFile mode node) :=
  inferInstanceAs (Decidable (_ ∧ _))

/-- What an open allocates before its descriptor -/
def openObjects (mode : VMode) (node : Fat16Node) : Nat :=
  if MakesFile mode node then node.objects + 2 else node.objects

/-- The open of the node comes back: where it makes a file, the search for a slot ends, and
    the objects of the new file are granted. -/
def OpenEnds (bpb : Fat16Header) (dev : Ata) (heap : Ledger) (fuel : Nat) (path : List PathNode)
    (mode : VMode) (node : Fat16Node) : Prop :=
  MakesFile mode node → SlotSearchEnds bpb dev fuel path node.entry ∧
    (HasRoom bpb dev fuel path node.entry → heap.Grants (openObjects mode node))

/-- The open of the node returns a descriptor: there is room for a file it makes, and its
    objects are granted. -/
def Opens (bpb : Fat16Header) (dev : Ata) (heap : Ledger) (fuel : Nat) (path : List PathNode)
    (mode : VMode) (node : Fat16Node) : Prop :=
  (MakesFile mode node → HasRoom bpb dev fuel path node.entry) ∧
    heap.Grants (openObjects mode node + 1)

theorem length_ne_one {α : Type} {a : α} {as : List α} (h : as ≠ []) : (a :: as).length ≠ 1 := by
  have hpos := List.length_pos_iff.mpr h
  rw [List.length_cons]
  omega

theorem newFile_eq_none_iff {bpb : Fat16Header} {dev : Ata} {fuel : Nat} {path : List PathNode}
    {folder : DirEntry} (hpath : path ≠ []) :
    newFile bpb dev fuel path folder = none ↔ ¬ SlotSearchEnds bpb dev fuel path folder := by
  cases path with
  | nil => exact absurd rfl hpath
  | cons first next =>
      rw [newFile, SlotSearchEnds]
      by_cases hnext : next = []
      · subst hnext
        simp only [if_true, true_and, List.length_singleton, true_or, not_true_eq_false, iff_false]
        split
        · exact Option.some_ne_none _
        · split
          · exact Option.some_ne_none _
          · exact Option.some_ne_none _
      · simp only [hnext, if_false, false_and, length_ne_one hnext, false_or]
        cases hfind : fat16FindFreeEntryInDir bpb dev fuel
            (fat16GetCombinedCluster folder.highCluster folder.lowCluster) with
        | none => exact ⟨fun _ => Bool.false_ne_true, fun _ => rfl⟩
        | some slot =>
            refine iff_of_false ?_ (not_not_intro rfl)
            simp only
            split
            · exact Option.some_ne_none _
            · exact Option.some_ne_none _

/-- A new file is made when there is room for it. -/
theorem newFile_isSome_iff {bpb : Fat16Header} {dev dev' : Ata} {fuel : Nat}
    {path : List PathNode} {folder : DirEntry} {new : Option DirEntry} (hpath : path ≠ [])
    (h : newFile bpb dev fuel path folder = some (new, dev')) :
    new.isSome ↔ HasRoom bpb dev fuel path folder := by
  cases path with
  | nil => exact absurd rfl hpath
  | cons first next =>
      rw [newFile] at h
      by_cases hnext : next = []
      · subst hnext
        simp only [if_true, true_and] at h
        rw [HasRoom, if_pos List.length_singleton]
        split at h
        · rename_i hfull
          rw [← (Prod.mk.inj (Option.some.inj h)).1]
          exact ⟨fun hsome => absurd hsome Bool.false_ne_true, fun hroom => absurd hfull hroom.1⟩
        · rename_i hslot
          split at h
          · rename_i hfull
            rw [← (Prod.mk.inj (Option.some.inj h)).1]
            exact ⟨fun hsome => absurd hsome Bool.false_ne_true, fun hroom => absurd hfull hroom.2⟩
          · rename_i hcluster
            rw [← (Prod.mk.inj (Option.some.inj h)).1]
            exact ⟨fun _ => ⟨hslot, hcluster⟩, fun _ => rfl⟩
      · simp only [hnext, if_false, false_and] at h
        rw [HasRoom, if_neg (length_ne_one hnext)]
        split at h
        · cases h
        · rename_i pos dev₁ hfind
          constructor
          · intro hsome pos' dev₂ hfind'
            obtain ⟨-, rfl⟩ := Prod.mk.inj (Option.some.inj (hfind.symm.trans hfind'))
            intro hfull
            rw [if_pos hfull] at h
            rw [← (Prod.mk.inj (Option.some.inj h)).1] at hsome
            cases hsome
          · intro hroom
            rw [if_neg (hroom pos dev₁ hfind)] at h
            rw [← (Prod.mk.inj (Option.some.inj h)).1]
            rfl

/-! ## What is allocated -/

/-- A node with its objects, when they are all granted -/
theorem createNode_pos {heap : Ledger} {node : Fat16Node} (h : heap.Grants node.objects) :
    ∃ entry heap', fat16CreateNode heap node = (some entry, heap') ∧ entry.node = node ∧
      heap.Adds entry.ptrs.toFinset heap' ∧ heap'.next = heap.next + node.objects ∧
      heap'.grants = heap.grants := by
  have htwo := heap.adds_alloc.trans heap.alloc.2.adds_alloc
  have hthree := htwo.trans heap.alloc.2.alloc.2.adds_alloc
  cases node with
  | file entry =>
      obtain ⟨hfirst, h⟩ := Ledger.grants_succ.mp h
      obtain ⟨hsecond, -⟩ := Ledger.grants_succ.mp h
      refine ⟨⟨.file entry, heap.alloc.1, [heap.alloc.2.alloc.1]⟩, heap.alloc.2.alloc.2, ?_, rfl,
        ?_, rfl, rfl⟩
      · simp only [fat16CreateNode, fat16CreateNodeFromEntry, Ledger.request_pos hfirst,
          Ledger.request_pos hsecond]
      · simpa [HeapNode.ptrs] using htwo
  | dir folder entry =>
      obtain ⟨hfirst, h⟩ := Ledger.grants_succ.mp h
      obtain ⟨hsecond, h⟩ := Ledger.grants_succ.mp h
      obtain ⟨hthird, -⟩ := Ledger.grants_succ.mp h
      refine ⟨⟨.dir folder entry, heap.alloc.1, [heap.alloc.2.alloc.1, heap.alloc.2.alloc.2.alloc.1]⟩,
        heap.alloc.2.alloc.2.alloc.2, ?_, rfl, ?_, rfl, rfl⟩
      · simp only [fat16CreateNode, fat16CreateNodeFromDir, Ledger.request_pos hfirst,
          Ledger.request_pos hsecond, Ledger.request_pos hthird]
      · simpa [HeapNode.ptrs, Finset.union_assoc] using hthree

/-- Without one of its objects there is no node, and the others are given back. -/
theorem createNode_neg {heap : Ledger} {node : Fat16Node} (h : ¬ heap.Grants node.objects) :
    ∃ heap', fat16CreateNode heap node = (none, heap') ∧ heap.Adds ∅ heap' := by
  -- the first call that is refused
  by_cases hfirst : heap.grants heap.next = true
  · by_cases hsecond : heap.alloc.2.grants heap.alloc.2.next = true
    · cases node with
      | file entry =>
          exact absurd (Ledger.grants_succ.mpr ⟨hfirst, Ledger.grants_one.mpr hsecond⟩) h
      | dir folder entry =>
          have hthird : heap.alloc.2.alloc.2.grants heap.alloc.2.alloc.2.next ≠ true :=
            fun hthird => h (Ledger.grants_succ.mpr ⟨hfirst,
              Ledger.grants_succ.mpr ⟨hsecond, Ledger.grants_one.mpr hthird⟩⟩)
          have hadds := (heap.adds_alloc.trans heap.alloc.2.adds_alloc).trans
            heap.alloc.2.alloc.2.adds_refuse
          refine ⟨_, ?_, hadds.frees_all [heap.alloc.2.alloc.1, heap.alloc.1] ?_⟩
          · simp only [fat16CreateNode, fat16CreateNodeFromDir, Ledger.request_pos hfirst,
              Ledger.request_pos hsecond, Ledger.request_neg hthird]
            rfl
          · simp [Finset.pair_comm]
    · have hadds := heap.adds_alloc.trans heap.alloc.2.adds_refuse
      refine ⟨_, ?_, hadds.frees_all [heap.alloc.1] (by simp)⟩
      cases node with
      | file entry =>
          simp only [fat16CreateNode, fat16CreateNodeFromEntry, Ledger.request_pos hfirst,
            Ledger.request_neg hsecond]
          rfl
      | dir folder entry =>
          simp only [fat16CreateNode, fat16CreateNodeFromDir, Ledger.request_pos hfirst,
            Ledger.request_neg hsecond]
          rfl
  · refine ⟨_, ?_, heap.adds_refuse⟩
    cases node with
    | file entry =>
        simp only [fat16CreateNode, fat16CreateNodeFromEntry, Ledger.request_neg hfirst]
    | dir folder entry =>
        simp only [fat16CreateNode, fat16CreateNodeFromDir, Ledger.request_neg hfirst]

/-- What an open does that allocates all but its descriptor: a descriptor that is refused
    leaves the rest behind. -/
theorem openFd_spec {heap₀ heap : Ledger} {s : Finset Nat} (dev : Ata) (entry : HeapNode)
    (hadds : heap₀.Adds s heap) (hsome : s.Nonempty) (hentry : ∀ p ∈ entry.ptrs, p ∈ s) :
    ∃ internal heap' t, fat16OpenFd dev heap entry = (internal, dev, heap') ∧
      heap₀.Adds t heap' ∧ t.Nonempty ∧ (∀ fd ∈ internal, ∀ p ∈ fd.ptrs, p ∈ t) ∧
      (internal.isSome ↔ heap.Grants 1) ∧ ∀ fd ∈ internal, fd.entry = entry := by
  by_cases hgranted : heap.grants heap.next = true
  · refine ⟨some ⟨heap.alloc.1, entry, 0⟩, heap.alloc.2, s ∪ {heap.alloc.1}, ?_,
      hadds.trans heap.adds_alloc, hsome.mono Finset.subset_union_left, ?_,
      iff_of_true rfl (Ledger.grants_one.mpr hgranted), ?_⟩
    · simp only [fat16OpenFd, Ledger.request_pos hgranted]
    · intro fd hfd p hp
      obtain rfl := Option.some.inj hfd
      rcases List.mem_cons.mp hp with rfl | hp
      · exact Finset.mem_union_right _ (Finset.mem_singleton_self _)
      · exact Finset.mem_union_left _ (hentry p hp)
    · intro fd hfd
      rw [← Option.some.inj hfd]
  · refine ⟨none, heap.refuse, s ∪ ∅, ?_, hadds.trans heap.adds_refuse,
      hsome.mono Finset.subset_union_left, ?_, ?_, ?_⟩
    · simp only [fat16OpenFd, Ledger.request_neg hgranted]
    · intro fd hfd
      cases hfd
    · exact iff_of_false Bool.false_ne_true fun h => hgranted (Ledger.grants_one.mp h)
    · intro fd hfd
      cases hfd

/-! ## What an open does -/

section Open

variable {bpb : Fat16Header} {dev dev' : Ata} {heap : Ledger} {fuel : Nat} {path : List PathNode}
  {mode : VMode} {node : Fat16Node} (hmode : mode = .read ∨ mode = .write) (hpath : path ≠ [])
  (hnode : fat16GetNodeFromPath bpb dev fuel path = some (some node))
include hmode hpath hnode

/-- The open of a node that is not allocated: for reading it is not found, for writing the
    null pointer is read. -/
theorem fat16Open_refused (hrefused : ¬ heap.Grants node.objects) :
    (mode = .read ∧ ∃ heap', fat16Open bpb dev heap fuel path mode = .ok (none, dev, heap') ∧
      heap.Adds ∅ heap') ∨
    (mode = .write ∧ fat16Open bpb dev heap fuel path mode = .error .nullEntry) := by
  obtain ⟨heap', hcreate, hadds⟩ := createNode_neg hrefused
  rcases hmode with rfl | rfl
  · refine .inl ⟨rfl, heap', ?_, hadds⟩
    rw [fat16Open, if_neg (fun h => h.1 rfl), if_neg hpath, hnode]
    simp only [hcreate, if_true]
  · refine .inr ⟨rfl, ?_⟩
    rw [fat16Open, if_neg (fun h => h.2 rfl), if_neg hpath, hnode]
    simp only [hcreate, reduceCtorEq, if_false]

variable (hgrants : heap.Grants node.objects)
include hgrants

/-- The open of a node that is allocated, up to the descriptor -/
theorem fat16Open_eq : ∃ entry heap', fat16Open bpb dev heap fuel path mode
      = (if MakesFile mode node then
          match fat16CreateFile bpb dev heap' fuel path entry with
          | .error fault => .error fault
          | .ok (none, dev, heap) => .ok (none, dev, heap)
          | .ok (some entry, dev, heap) => .ok (fat16OpenFd dev heap entry)
        else .ok (fat16OpenFd dev heap' entry)) ∧
    entry.node = node ∧ heap.Adds entry.ptrs.toFinset heap' ∧
    ∀ n, heap.Grants (node.objects + n) ↔ heap'.Grants n := by
  obtain ⟨entry, heap', hcreate, rfl, hadds, hnext, hsame⟩ := createNode_pos hgrants
  refine ⟨entry, heap', ?_, rfl, hadds, fun n => hgrants.add_iff hnext hsame⟩
  have hvalid : ¬ (mode ≠ .read ∧ mode ≠ .write) := by
    rintro ⟨hread, hwrite⟩
    rcases hmode with hmode | hmode
    · exact hread hmode
    · exact hwrite hmode
  rw [fat16Open, if_neg hvalid, if_neg hpath, hnode]
  simp only [hcreate]
  rfl

/-- An open that makes no file returns a descriptor for the node. -/
theorem fat16Open_found (hnot : ¬ MakesFile mode node) :
    ∃ internal heap' t, fat16Open bpb dev heap fuel path mode = .ok (internal, dev, heap') ∧
      heap.Adds t heap' ∧ t.Nonempty ∧ (∀ fd ∈ internal, ∀ p ∈ fd.ptrs, p ∈ t) ∧
      (internal.isSome ↔ heap.Grants (node.objects + 1)) ∧
      ∀ fd ∈ internal, fd.entry.node = node := by
  obtain ⟨entry, heap', hopen, hentry, hadds, hrest⟩ := fat16Open_eq hmode hpath hnode hgrants
  obtain ⟨internal, heap'', t, hfd, hall, hsome, hptrs, hgranted, hof⟩ :=
    openFd_spec dev entry hadds ⟨entry.self, List.mem_toFinset.mpr List.mem_cons_self⟩
      fun _ => List.mem_toFinset.mpr
  refine ⟨internal, heap'', t, ?_, hall, hsome, hptrs, hgranted.trans (hrest 1).symm, ?_⟩
  · rw [hopen, if_neg hnot, hfd]
  · intro fd hmem
    rw [hof fd hmem, hentry]

section Makes

variable (hmakes : MakesFile mode node)
include hmakes

/-- The search for a place does not end. -/
theorem fat16Open_unfinished (hnew : newFile bpb dev fuel path node.entry = none) :
    fat16Open bpb dev heap fuel path mode = .error .unfinished := by
  obtain ⟨entry, heap', hopen, rfl, -⟩ := fat16Open_eq hmode hpath hnode hgrants
  rw [hopen, if_pos hmakes, fat16CreateFile, hnew]

/-- There is no place: the node of the folder is left behind. -/
theorem fat16Open_full (hnew : newFile bpb dev fuel path node.entry = some (none, dev')) :
    ∃ heap' t, fat16Open bpb dev heap fuel path mode = .ok (none, dev', heap') ∧
      heap.Adds t heap' ∧ t.Nonempty := by
  obtain ⟨entry, heap', hopen, rfl, hadds, -⟩ := fat16Open_eq hmode hpath hnode hgrants
  refine ⟨heap', _, ?_, hadds, entry.self, List.mem_toFinset.mpr List.mem_cons_self⟩
  rw [hopen, if_pos hmakes, fat16CreateFile, hnew]

/-- There is a place: a descriptor for the new file is returned when its objects are
    granted. -/
theorem fat16Open_made {new : DirEntry}
    (hnew : newFile bpb dev fuel path node.entry = some (some new, dev')) :
    (heap.Grants (node.objects + 2) ∧ ∃ internal heap' t,
      fat16Open bpb dev heap fuel path mode = .ok (internal, dev', heap') ∧
      heap.Adds t heap' ∧ t.Nonempty ∧ (∀ fd ∈ internal, ∀ p ∈ fd.ptrs, p ∈ t) ∧
      (internal.isSome ↔ heap.Grants (node.objects + 2 + 1)) ∧
      ∀ fd ∈ internal, fd.entry.node = .file new) ∨
    (¬ heap.Grants (node.objects + 2) ∧
      fat16Open bpb dev heap fuel path mode = .error .nullEntry) := by
  obtain ⟨entry, heap', hopen, rfl, hadds, hrest⟩ := fat16Open_eq hmode hpath hnode hgrants
  rw [hopen, if_pos hmakes, fat16CreateFile, hnew]
  dsimp only
  -- the two objects of the new file
  by_cases hfirst : heap'.grants heap'.next = true
  · by_cases hsecond : heap'.alloc.2.grants heap'.alloc.2.next = true
    · have htwo : heap'.Grants 2 :=
        Ledger.grants_succ.mpr ⟨hfirst, Ledger.grants_one.mpr hsecond⟩
      have hnewAdds := (hadds.trans heap'.adds_alloc).trans heap'.alloc.2.adds_alloc
      obtain ⟨internal, heap'', t, hfd, hall, hsome, hptrs, hgranted, hof⟩ := openFd_spec dev'
        ⟨.file new, heap'.alloc.1, [heap'.alloc.2.alloc.1]⟩ hnewAdds
        ⟨entry.self, Finset.mem_union_left _ (Finset.mem_union_left _
          (List.mem_toFinset.mpr List.mem_cons_self))⟩ (by
        intro p hp
        simp only [HeapNode.ptrs, List.mem_cons, List.not_mem_nil, or_false] at hp
        rcases hp with rfl | rfl
        · exact Finset.mem_union_left _ (Finset.mem_union_right _ (Finset.mem_singleton_self _))
        · exact Finset.mem_union_right _ (Finset.mem_singleton_self _))
      refine .inl ⟨(hrest 2).mpr htwo, internal, heap'', t, ?_, hall, hsome, hptrs, ?_, ?_⟩
      · simp only [Ledger.request_pos hfirst, Ledger.request_pos hsecond, hfd]
      · have hthird : heap'.Grants (2 + 1) ↔ heap'.alloc.2.alloc.2.Grants 1 :=
          htwo.add_iff rfl rfl
        rw [hgranted, Nat.add_assoc, hrest, hthird]
      · intro fd hmem
        rw [hof fd hmem]
    · refine .inr ⟨fun h => hsecond ?_, ?_⟩
      · exact Ledger.grants_one.mp (Ledger.grants_succ.mp ((hrest 2).mp h)).2
      · simp only [Ledger.request_pos hfirst, Ledger.request_neg hsecond]
  · refine .inr ⟨fun h => hfirst (Ledger.grants_succ.mp ((hrest 2).mp h)).1, ?_⟩
    simp only [Ledger.request_neg hfirst]

end Makes

/-- The open of a node that is allocated leaves something allocated when it comes back, also
    when it returns no descriptor. -/
theorem fat16Open_of_node :
    (OpenEnds bpb dev heap fuel path mode node ∧ ∃ internal dev' heap' t,
        fat16Open bpb dev heap fuel path mode = .ok (internal, dev', heap') ∧
          heap.Adds t heap' ∧ t.Nonempty ∧ (∀ fd ∈ internal, ∀ p ∈ fd.ptrs, p ∈ t) ∧
          (internal.isSome ↔ Opens bpb dev heap fuel path mode node)) ∨
      (¬ OpenEnds bpb dev heap fuel path mode node ∧
        ∃ fault, fat16Open bpb dev heap fuel path mode = .error fault) := by
  unfold OpenEnds Opens openObjects
  by_cases hmakes : MakesFile mode node
  · simp only [hmakes, if_true, true_implies]
    cases hnew : newFile bpb dev fuel path node.entry with
    | none =>
        refine .inr ⟨fun h => (newFile_eq_none_iff hpath).mp hnew h.1, _,
          fat16Open_unfinished hmode hpath hnode hgrants hmakes hnew⟩
    | some made =>
        obtain ⟨new, dev'⟩ := made
        have hends : SlotSearchEnds bpb dev fuel path node.entry := by
          by_contra hnot
          rw [(newFile_eq_none_iff hpath).mpr hnot] at hnew
          cases hnew
        have hroom := newFile_isSome_iff hpath hnew
        cases new with
        | none =>
            have hnone : ¬ HasRoom bpb dev fuel path node.entry :=
              fun h => Bool.false_ne_true (hroom.mpr h)
            obtain ⟨heap', t, hopen, hadds, hsome⟩ :=
              fat16Open_full hmode hpath hnode hgrants hmakes hnew
            refine .inl ⟨⟨hends, fun h => absurd h hnone⟩, none, dev', heap', t, hopen, hadds, hsome,
              fun fd hfd => ?_, iff_of_false Bool.false_ne_true fun h => hnone h.1⟩
            cases hfd
        | some newEntry =>
            have hthere := hroom.mp rfl
            rcases fat16Open_made hmode hpath hnode hgrants hmakes hnew with
              ⟨hfile, internal, heap', t, hopen, hadds, hsome, hptrs, hgranted, -⟩ | ⟨hfile, hopen⟩
            · exact .inl ⟨⟨hends, fun _ => hfile⟩, internal, dev', heap', t, hopen, hadds, hsome,
                hptrs, by rw [hgranted, and_iff_right hthere]⟩
            · exact .inr ⟨fun h => hfile (h.2 hthere), _, hopen⟩
  · simp only [hmakes, if_false, false_implies, true_and, not_true_eq_false, false_and, or_false]
    obtain ⟨internal, heap', t, hopen, hadds, hsome, hptrs, hgranted, -⟩ :=
      fat16Open_found hmode hpath hnode hgrants hmakes
    exact ⟨internal, dev, heap', t, hopen, hadds, hsome, hptrs, hgranted⟩

end Open

/-- What an open allocates has the objects of the descriptor it returns in it. -/
theorem fat16Open_ok {bpb : Fat16Header} {dev dev' : Ata} {heap heap' : Ledger} {fuel : Nat}
    {path : List PathNode} {mode : VMode} {internal : Option HeapFd}
    (hmode : mode = .read ∨ mode = .write) (hpath : path ≠ [])
    (h : fat16Open bpb dev heap fuel path mode = .ok (internal, dev', heap')) :
    ∃ t, heap.Adds t heap' ∧ ∀ fd ∈ internal, ∀ p ∈ fd.ptrs, p ∈ t := by
  have hnothing : ∀ {heap'' : Ledger}, heap.Adds ∅ heap'' →
      Except.ok (none, dev, heap'') = (Except.ok (internal, dev', heap') : Except OpenFault _) →
      ∃ t, heap.Adds t heap' ∧ ∀ fd ∈ internal, ∀ p ∈ fd.ptrs, p ∈ t := by
    intro heap'' hadds heq
    obtain ⟨rfl, hrest⟩ := Prod.mk.inj (Except.ok.inj heq)
    obtain ⟨-, rfl⟩ := Prod.mk.inj hrest
    exact ⟨∅, hadds, fun _ hfd => by cases hfd⟩
  cases hnode : fat16GetNodeFromPath bpb dev fuel path with
  | some found =>
      cases found with
      | some node =>
          by_cases hgrants : heap.Grants node.objects
          · rcases fat16Open_of_node hmode hpath hnode hgrants with
              ⟨-, _, _, _, t, hopen, hadds, -, hptrs, -⟩ | ⟨-, fault, hopen⟩
            · rw [hopen] at h
              obtain ⟨rfl, hrest⟩ := Prod.mk.inj (Except.ok.inj h)
              obtain ⟨-, rfl⟩ := Prod.mk.inj hrest
              exact ⟨t, hadds, hptrs⟩
            · rw [hopen] at h
              cases h
          · rcases fat16Open_refused hmode hpath hnode hgrants with
              ⟨-, heap'', hopen, hadds⟩ | ⟨-, hopen⟩
            · exact hnothing hadds (hopen.symm.trans h)
            · rw [hopen] at h
              cases h
      | none =>
          rw [fat16Open, if_neg hpath, hnode] at h
          rcases hmode with rfl | rfl
          · exact hnothing (.refl heap) h
          · cases h
  | none =>
      rw [fat16Open, if_neg hpath, hnode] at h
      rcases hmode with rfl | rfl
      · cases h
      · cases h

end Icarius
