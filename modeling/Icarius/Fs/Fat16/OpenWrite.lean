/-
  Icarius.Fs.Fat16.OpenWrite

  `fat16_open` for writing.  A file is made when the lookup of the path comes to a
  directory, whichever it is and whether the path names it or not; when the lookup comes
  to nothing the node is null, and its type is read.
-/

import Icarius.Fs.Fat16.RootLookup
import Icarius.Fs.Fat16.ChainLookup
import Icarius.Fs.Fat16.Create

namespace Icarius

open Icarius.Lib

namespace Volume

variable (vol : Volume)

/-! ## What an open for writing is for -/

/-- The directory the last component of the path should be in -/
def IsParent (path : List PathNode) (d : Directory) : Prop :=
  match path with
  | [c] => ¬ c.isRoot ∧ d = .root
  | path => ∃ e, Resolves vol .root path.dropLast e ∧ e.isDirectory = true ∧
      d = .chain e.lowCluster

/-- The parent directory exists, and no slot of it has the name. -/
def Missing (path : List PathNode) (name : List UInt8) : Prop :=
  ∃ d, vol.IsParent path d ∧ vol.IsDir vol.dev.disk d ∧ vol.Lacks vol.dev.disk d name

/-- The path is that of a directory. -/
def NamesDirectory (path : List PathNode) : Prop :=
  (∃ c, path = [c] ∧ c.isRoot) ∨ ∃ e, Resolves vol .root path e ∧ e.isDirectory = true

/-- The open ends, and a descriptor it returns is that of an empty file in the directory. -/
def OpensNew (heap : Ledger) (path : List PathNode) (d : Directory) (name : List UInt8) : Prop :=
  ∃ fuel internal dev' heap',
    fat16Open vol.bpb vol.dev heap fuel path .write = .ok (internal, dev', heap') ∧
      ∀ fd ∈ internal, ∃ pos, vol.DirSlot dev'.disk d pos ∧
        fd.entry.node = .file (diskEntry dev'.disk pos) ∧
        (diskEntry dev'.disk pos).fileName = name ∧
        (diskEntry dev'.disk pos).attributes = attrArchive ∧
        (diskEntry dev'.disk pos).fileSize = 0

/-- The open returns a descriptor for a file to which the path does not lead: for one it
    has made. -/
def MakesEntry (heap : Ledger) (path : List PathNode) : Prop :=
  ∃ fuel fd dev' heap',
    fat16Open vol.bpb vol.dev heap fuel path .write = .ok (some fd, dev', heap') ∧
      fd.entry.node.isDir = false ∧ ¬ Returns vol path fd.entry.node

/-- A missing file is made, or null is returned; nothing is made for a directory. -/
structure WriteOpen (heap : Ledger) (path : List PathNode) (name : List UInt8) : Prop where
  missing : ∀ d, vol.IsParent path d → vol.IsDir vol.dev.disk d → vol.Lacks vol.dev.disk d name →
    vol.OpensNew heap path d name
  existing : vol.NamesDirectory path → ¬ vol.MakesEntry heap path

/-! ## What decides -/

/-- The driver takes `e` for a directory the path leads to. -/
def ComesTo (path : List PathNode) (e : DirEntry) : Prop :=
  match path with
  | [] => False
  | c :: next =>
      let walksTo := fun start =>
        WalkFinds vol ((c :: next).getLast (List.cons_ne_nil c next)).native start e ∧
          e.isDirectory = true
      (c.isRoot ∧ (rootDirSectors vol.bpb = 32 ∧ e = .zero ∨
        rootDirSectors vol.bpb ≠ 32 ∧ walksTo 0)) ∨
      (¬ c.isRoot ∧
        match rootIndex vol c.native with
        | none => walksTo 0
        | some i =>
            if looksLikeRoot i then vol.rootEntry i = e
            else if next = [] ∧ (vol.rootEntry i).typed = true then
              vol.rootEntry i = e ∧ e.isDirectory = true
            else walksTo (vol.rootEntry i).lowCluster)

/-- The search for a place for the file ends with one. -/
def RoomFor (path : List PathNode) (folder : DirEntry) : Prop :=
  ∃ fuel, SlotSearchEnds vol.bpb vol.dev fuel path folder ∧
    HasRoom vol.bpb vol.dev fuel path folder

/-- The search for a place for the file ends without one. -/
def FullFor (path : List PathNode) (folder : DirEntry) : Prop :=
  ∃ fuel, SlotSearchEnds vol.bpb vol.dev fuel path folder ∧
    ¬ HasRoom vol.bpb vol.dev fuel path folder

/-! ## More rounds do not change a result -/

variable {vol} {fuel : Nat} {path : List PathNode}

theorem clusterChain_mono {start c total : Nat} {name : List UInt8}
    {r : Option (DirEntry × Fat16Folder)} (more : Nat)
    (h : fat16GetNodeFromPathInClusterChain vol.bpb vol.dev start name fuel c total = some r) :
    fat16GetNodeFromPathInClusterChain vol.bpb vol.dev start name (fuel + more) c total
      = some r := by
  rw [← chainLookup_snd] at h ⊢
  obtain ⟨seen, hseen, rfl⟩ := Option.map_eq_some_iff.mp h
  rw [chainLookup_mono vol start name more hseen]
  rfl

theorem nodeFromPath_mono {r : Option Fat16Node} (more : Nat)
    (h : fat16GetNodeFromPath vol.bpb vol.dev fuel path = some r) :
    fat16GetNodeFromPath vol.bpb vol.dev (fuel + more) path = some r := by
  cases path with
  | nil => exact h
  | cons c next =>
      rw [fat16GetNodeFromPath] at h ⊢
      simp only at h ⊢
      split
      · rename_i hmark
        rw [if_pos hmark] at h
        exact h
      · rename_i hmark
        rw [if_neg hmark] at h
        split
        · rename_i hdir
          rw [if_pos hdir] at h
          exact h
        · rename_i hdir
          rw [if_neg hdir] at h
          split
          · rename_i hfile
            rw [if_pos hfile] at h
            exact h
          · rename_i hfile
            rw [if_neg hfile] at h
            split at h
            · cases h
            · rename_i hsearch
              rw [clusterChain_mono more hsearch]
              exact h
            · rename_i hsearch
              rw [clusterChain_mono more hsearch]
              exact h

/-- A path leads to one node. -/
theorem returns_unique {node node' : Fat16Node} (h : Returns vol path node)
    (h' : Returns vol path node') : node = node' := by
  obtain ⟨fuel, h⟩ := h
  obtain ⟨fuel', h'⟩ := h'
  have hmore := nodeFromPath_mono fuel' h
  have hmore' := nodeFromPath_mono fuel h'
  rw [Nat.add_comm, hmore] at hmore'
  exact Option.some.inj (Option.some.inj hmore')

theorem findFreeLoop_mono {dev : Ata} {c : Nat} {r : Nat × Ata} (more : Nat)
    (h : fat16FindFreeEntryLoop vol.bpb dev fuel c = some r) :
    fat16FindFreeEntryLoop vol.bpb dev (fuel + more) c = some r := by
  induction fuel generalizing c with
  | zero => cases h
  | succ fuel ih =>
      rw [Nat.add_right_comm]
      by_cases hlive : c < fat16ValueEndOfChain
      · rw [vol.findFreeEntry_round dev hlive] at h ⊢
        split at h
        · exact h
        · exact ih h
      · rw [vol.findFreeEntry_end dev (Nat.not_lt.mp hlive)] at h ⊢
        exact h

theorem newFile_mono {dev : Ata} {folder : DirEntry} {r : Option DirEntry × Ata} (more : Nat)
    (h : newFile vol.bpb dev fuel path folder = some r) :
    newFile vol.bpb dev (fuel + more) path folder = some r := by
  cases path with
  | nil => exact h
  | cons first next =>
      rw [newFile] at h ⊢
      by_cases hnext : next = []
      · simp only [hnext, if_true] at h ⊢
        exact h
      · simp only [hnext, if_false] at h ⊢
        split at h
        · cases h
        · rename_i pos dev₁ hfind
          have hmore : fat16FindFreeEntryInDir vol.bpb dev (fuel + more)
              (fat16GetCombinedCluster folder.highCluster folder.lowCluster)
              = some (pos, dev₁) := by
            rw [fat16FindFreeEntryInDir] at hfind ⊢
            split at hfind
            · rename_i hout
              rw [if_pos hout]
              exact hfind
            · rename_i hout
              rw [if_neg hout]
              exact findFreeLoop_mono more hfind
          rw [hmore]
          exact h

/-! ## The lookup -/

section Lookup

variable {c : PathNode} {next : List PathNode} {entry : DirEntry} {folder : Fat16Folder}
  (hlookup : fat16GetRootDirEntry vol.bpb vol.dev c = (entry, folder))

include hlookup

/-- A lookup that is taken for that of the root directory -/
theorem returns_of_mark (hmark : u32 (folder.endSector + 2 ^ 32 - folder.startSector) = 32)
    (node : Fat16Node) : Returns vol (c :: next) node ↔ node = .dir folder entry := by
  simp only [Returns, fat16GetNodeFromPath, hlookup, hmark, if_true, Option.some.injEq,
    exists_const]
  exact eq_comm

/-- Any other lookup gives a node of the type of its entry. -/
theorem isDir_of_returns (hmark : u32 (folder.endSector + 2 ^ 32 - folder.startSector) ≠ 32)
    {node : Fat16Node} (h : Returns vol (c :: next) node) :
    node.isDir = node.entry.isDirectory := by
  obtain ⟨fuel, h⟩ := h
  rw [fat16GetNodeFromPath, hlookup] at h
  simp only [hmark, if_false] at h
  split at h
  · rename_i hdir
    rw [← Option.some.inj (Option.some.inj h)]
    exact hdir.2.2.symm
  · rename_i hnotdir
    split at h
    · rename_i hfile
      rw [← Option.some.inj (Option.some.inj h)]
      have hdir : ¬ entry.isDirectory = true := fun hdir => hnotdir ⟨hfile.1, hfile.2.1, hdir⟩
      exact (Bool.eq_false_of_not_eq_true hdir).symm
    · split at h
      · cases h
      · cases h
      · rename_i found folder' _
        split at h
        · rename_i hdir
          rw [← Option.some.inj (Option.some.inj h)]
          exact hdir.2.symm
        · rename_i hnotdir
          split at h
          · rename_i hfile
            rw [← Option.some.inj (Option.some.inj h)]
            have hdir : ¬ found.isDirectory = true := fun hdir => hnotdir ⟨hfile.1, hdir⟩
            exact (Bool.eq_false_of_not_eq_true hdir).symm
          · cases h

/-- Such a lookup comes to a directory when it comes to an entry of one. -/
theorem returns_dir_iff (hmark : u32 (folder.endSector + 2 ^ 32 - folder.startSector) ≠ 32)
    (e : DirEntry) : (∃ f, Returns vol (c :: next) (.dir f e)) ↔
      (∃ node, Returns vol (c :: next) node ∧ node.entry = e) ∧ e.isDirectory = true := by
  constructor
  · rintro ⟨f, h⟩
    exact ⟨⟨_, h, rfl⟩, (isDir_of_returns hlookup hmark h).symm⟩
  · rintro ⟨⟨node, h, rfl⟩, hdir⟩
    have htype := isDir_of_returns hlookup hmark h
    rw [hdir] at htype
    cases node with
    | file e => cases htype
    | dir f e => exact ⟨f, h⟩

end Lookup

/-- Where the driver comes to -/
theorem comesTo_iff (hnames : ∀ n ∈ path, StartsName n ∨ n.identifier 0 = charSlash)
    (e : DirEntry) : vol.ComesTo path e ↔ ∃ f, Returns vol path (.dir f e) := by
  cases path with
  | nil =>
      refine iff_of_false id ?_
      rintro ⟨f, fuel, h⟩
      cases h
  | cons c next =>
      have htyped : ∀ {P : Prop}, (P ∧ e.typed = true) ∧ e.isDirectory = true
          ↔ P ∧ e.isDirectory = true := by
        intro P
        constructor
        · exact fun h => ⟨h.1.1, h.2⟩
        · exact fun h => ⟨⟨h.1, by rw [DirEntry.typed, h.2, Bool.true_or]⟩, h.2⟩
      -- the root directory itself, or an entry of it, is where every search starts
      by_cases hroot : c.isRoot
      · have hlookup : fat16GetRootDirEntry vol.bpb vol.dev c = (.zero, rootFolder vol) := by
          simp only [fat16GetRootDirEntry, hroot.1, hroot.2, and_self, if_true, rootFolder]
        have hsectors : u32 ((rootFolder vol).endSector + 2 ^ 32 - (rootFolder vol).startSector)
            = rootDirSectors vol.bpb := by
          have hle := vol.rootDirSectors_le
          simp only [rootFolder, firstRootDirSector, u32]
          omega
        simp only [ComesTo, hroot, true_and, not_true_eq_false, false_and, or_false]
        -- 32 sectors of root directory are taken for the mark of a directory
        by_cases hmark : rootDirSectors vol.bpb = 32
        · simp only [hmark, true_and, ne_eq, not_true_eq_false, false_and, or_false,
            returns_of_mark hlookup (hsectors.trans hmark), Fat16Node.dir.injEq, exists_eq_left]
        · have hne := fun h => hmark (hsectors.symm.trans h)
          have hlow : DirEntry.zero.lowCluster = 0 := by decide
          rw [returns_dir_iff hlookup hne, returns_walk vol hnames e hlookup hne
            (fun _ hfirst => absurd rfl hfirst), hlow, htyped]
          simp only [hmark, false_and, ne_eq, not_false_eq_true, true_and, false_or]
      · have hlookup := rootDirEntry_eq vol hnames hroot
        simp only [ComesTo, hroot, false_and, not_false_eq_true, true_and, false_or]
        cases hindex : rootIndex vol c.native with
        | none =>
            rw [hindex] at hlookup
            have hne : u32 (({} : Fat16Folder).endSector + 2 ^ 32
                - ({} : Fat16Folder).startSector) ≠ 32 := by decide
            rw [returns_dir_iff hlookup hne, returns_missing vol hnames hroot hindex, htyped]
        | some i =>
            rw [hindex] at hlookup
            have hsectors := folder_sectors (firstRootDirSector vol.bpb + i * 32 / 512)
              (rootIndex_lt hindex)
            simp only
            -- an entry whose position gives the same difference is taken for one, too
            by_cases hmark : looksLikeRoot i = true
            · rw [if_pos hmark]
              simp only [returns_of_mark hlookup (hsectors.trans (beq_iff_eq.mp hmark)),
                Fat16Node.dir.injEq, exists_eq_left]
              exact eq_comm
            · have hmark := Bool.eq_false_of_not_eq_true hmark
              have hne := fun h => beq_eq_false_iff_ne.mp hmark (hsectors.symm.trans h)
              rw [hmark, if_neg Bool.false_ne_true, returns_dir_iff hlookup hne]
              by_cases hsingle : next = [] ∧ (vol.rootEntry i).typed = true
              · rw [if_pos hsingle,
                  returns_single vol hnames hroot hindex e hmark hsingle.1 hsingle.2]
              · rw [if_neg hsingle, returns_chain vol hnames hroot hindex e hmark, htyped]
                intro hnext
                exact Bool.eq_false_of_not_eq_true fun h => hsingle ⟨hnext, h⟩

/-! ## What the open returns -/

/-- A path leads to a directory, and the search for a place for the file ends: null is
    returned, or a descriptor for the entry that is made. -/
theorem openWrite_of_newFile {heap : Ledger} (hheap : heap.Grants 6) {f : Fat16Folder}
    {e : DirEntry} {new : Option DirEntry} {dev' : Ata} (hpath : path ≠ [])
    (hnode : fat16GetNodeFromPath vol.bpb vol.dev fuel path = some (some (.dir f e)))
    (hnew : newFile vol.bpb vol.dev fuel path e = some (new, dev')) :
    ∃ internal heap',
      fat16Open vol.bpb vol.dev heap fuel path .write = .ok (internal, dev', heap') ∧
        internal.map (·.entry.node) = new.map .file := by
  have hgrants : heap.Grants (Fat16Node.dir f e).objects := hheap.mono (by decide : 3 ≤ 6)
  have hmakes : MakesFile .write (Fat16Node.dir f e) := ⟨rfl, rfl⟩
  cases new with
  | none =>
      obtain ⟨heap', t, hopen, -⟩ := fat16Open_full (.inr rfl) hpath hnode hgrants hmakes hnew
      exact ⟨none, heap', hopen, rfl⟩
  | some newEntry =>
      rcases fat16Open_made (.inr rfl) hpath hnode hgrants hmakes hnew with
        ⟨-, internal, heap', t, hopen, -, -, -, hsome, hof⟩ | ⟨hrefused, -⟩
      · obtain ⟨fd, rfl⟩ := Option.isSome_iff_exists.mp (hsome.mpr hheap)
        refine ⟨some fd, heap', hopen, ?_⟩
        rw [Option.map_some, Option.map_some, hof fd rfl]
      · exact absurd (hheap.mono (by decide : 5 ≤ 6)) hrefused

/-- An open that ends: the path leads to a file, whose descriptor is returned, or to a
    directory, and the search for a place for the file ends.  With a descriptor that is
    refused null is returned. -/
theorem openWrite_ok {heap heap' : Ledger} {internal : Option HeapFd} {dev' : Ata}
    (hpath : path ≠ [])
    (h : fat16Open vol.bpb vol.dev heap fuel path .write = .ok (internal, dev', heap')) :
    (∃ e, Returns vol path (.file e) ∧ dev' = vol.dev ∧
      (∀ fd ∈ internal, fd.entry.node = .file e) ∧ (heap.Grants 3 → internal.isSome)) ∨
    ∃ f e new, fat16GetNodeFromPath vol.bpb vol.dev fuel path = some (some (.dir f e)) ∧
      newFile vol.bpb vol.dev fuel path e = some (new, dev') ∧
      (∀ fd ∈ internal, new.map .file = some fd.entry.node) ∧
      (heap.Grants 6 → new.isSome → internal.isSome) := by
  cases hnode : fat16GetNodeFromPath vol.bpb vol.dev fuel path with
  | none =>
      rw [fat16Open, if_neg (fun h => h.2 rfl), if_neg hpath, hnode] at h
      cases h
  | some found =>
      cases found with
      | none =>
          rw [fat16Open, if_neg (fun h => h.2 rfl), if_neg hpath, hnode] at h
          cases h
      | some node =>
          by_cases hgrants : heap.Grants node.objects
          · cases node with
            | file e =>
                have hnot : ¬ MakesFile .write (Fat16Node.file e) :=
                  fun h => Bool.false_ne_true h.1
                obtain ⟨internal', heap₁, t, hopen, -, -, -, hsome, hof⟩ :=
                  fat16Open_found (.inr rfl) hpath hnode hgrants hnot
                rw [hopen] at h
                cases h
                exact .inl ⟨e, ⟨fuel, hnode⟩, rfl, hof, hsome.mpr⟩
            | dir f e =>
                have hmakes : MakesFile .write (Fat16Node.dir f e) := ⟨rfl, rfl⟩
                cases hnew : newFile vol.bpb vol.dev fuel path e with
                | none =>
                    rw [fat16Open_unfinished (.inr rfl) hpath hnode hgrants hmakes hnew] at h
                    cases h
                | some made =>
                    obtain ⟨new, dev₁⟩ := made
                    cases new with
                    | none =>
                        obtain ⟨heap₁, t, hopen, -⟩ :=
                          fat16Open_full (.inr rfl) hpath hnode hgrants hmakes hnew
                        rw [hopen] at h
                        cases h
                        refine .inr ⟨f, e, none, rfl, hnew, fun fd hfd => ?_, fun _ h => ?_⟩
                        · cases hfd
                        · cases h
                    | some newEntry =>
                        rcases fat16Open_made (.inr rfl) hpath hnode hgrants hmakes hnew with
                          ⟨-, internal', heap₁, t, hopen, -, -, -, hsome, hof⟩ | ⟨-, hopen⟩
                        · rw [hopen] at h
                          cases h
                          refine .inr ⟨f, e, some newEntry, rfl, hnew, fun fd hfd => ?_,
                            fun hheap _ => hsome.mpr hheap⟩
                          rw [hof fd hfd, Option.map_some]
                        · rw [hopen] at h
                          cases h
          · rcases fat16Open_refused (.inr rfl) hpath hnode hgrants with ⟨hread, -⟩ | ⟨-, hopen⟩
            · cases hread
            · rw [hopen] at h
              cases h

section Places

variable {e : DirEntry} (hpath : path ≠ [])
include hpath

/-- The search for a place ends with an entry when there is room, with none otherwise. -/
theorem newFile_isSome {new : Option DirEntry} {dev' : Ata}
    (h : newFile vol.bpb vol.dev fuel path e = some (new, dev')) :
    (new.isSome = true → vol.RoomFor path e) ∧ (new = none → vol.FullFor path e) := by
  have hends : SlotSearchEnds vol.bpb vol.dev fuel path e := by
    by_contra hnot
    rw [(newFile_eq_none_iff hpath).mpr hnot] at h
    cases h
  have hroom := newFile_isSome_iff hpath h
  constructor
  · exact fun hsome => ⟨fuel, hends, hroom.mp hsome⟩
  · rintro rfl
    exact ⟨fuel, hends, fun hroom' => Bool.false_ne_true (hroom.mpr hroom')⟩

theorem RoomFor.newFile (h : vol.RoomFor path e) :
    ∃ fuel new dev', newFile vol.bpb vol.dev fuel path e = some (some new, dev') := by
  obtain ⟨fuel, hends, hroom⟩ := h
  cases hnew : Icarius.newFile vol.bpb vol.dev fuel path e with
  | none => exact absurd hends ((newFile_eq_none_iff hpath).mp hnew)
  | some made =>
      obtain ⟨new, dev'⟩ := made
      obtain ⟨newEntry, rfl⟩ := Option.isSome_iff_exists.mp ((newFile_isSome_iff hpath hnew).mpr hroom)
      exact ⟨fuel, newEntry, dev', hnew⟩

theorem FullFor.newFile (h : vol.FullFor path e) :
    ∃ fuel dev', newFile vol.bpb vol.dev fuel path e = some (none, dev') := by
  obtain ⟨fuel, hends, hfull⟩ := h
  cases hnew : Icarius.newFile vol.bpb vol.dev fuel path e with
  | none => exact absurd hends ((newFile_eq_none_iff hpath).mp hnew)
  | some made =>
      obtain ⟨new, dev'⟩ := made
      cases new with
      | none => exact ⟨fuel, dev', hnew⟩
      | some newEntry => exact absurd ((newFile_isSome_iff hpath hnew).mp rfl) hfull

end Places

/-! ## When an open for writing does what it is for -/

section Open

variable {name : List UInt8} {heap : Ledger} (hheap : heap.Grants 6) (hpath : path ≠ [])
  (hnames : ∀ n ∈ path, StartsName n ∨ n.identifier 0 = charSlash)
include hheap hpath hnames

/-- Null is returned when the path leads to a directory and there is no room; a file that
    is not there is never made. -/
theorem opensNew_iff {d : Directory} (hname : Printable name) (hdir : vol.IsDir vol.dev.disk d)
    (hlacks : vol.Lacks vol.dev.disk d name) :
    vol.OpensNew heap path d name ↔ ∃ e, vol.ComesTo path e ∧ vol.FullFor path e := by
  constructor
  · rintro ⟨fuel, internal, dev', heap', hopen, hnew⟩
    rcases openWrite_ok hpath hopen with ⟨e, -, rfl, -, hsome⟩ | ⟨f, e, new, hnode, hmade, -, hsome⟩
    · -- a file that was there before
      obtain ⟨fd, rfl⟩ := Option.isSome_iff_exists.mp (hsome (hheap.mono (by decide)))
      obtain ⟨pos, hslot, -, hfile, -, -⟩ := hnew fd rfl
      exact absurd hfile (hlacks pos hslot)
    · refine ⟨e, (comesTo_iff hnames e).mpr ⟨f, fuel, hnode⟩, (newFile_isSome hpath hmade).2 ?_⟩
      cases new with
      | none => rfl
      | some newEntry =>
          obtain ⟨fd, rfl⟩ := Option.isSome_iff_exists.mp (hsome hheap rfl)
          obtain ⟨pos, hslot, -, hfile, -, -⟩ := hnew fd rfl
          have hscar := scarred_newFile hmade
          exact absurd hfile (hlacks.of_scarred hname hdir hscar pos hslot)
  · rintro ⟨e, hcomes, hfull⟩
    obtain ⟨f, fuel, hnode⟩ := (comesTo_iff hnames e).mp hcomes
    obtain ⟨fuel', dev', hmade⟩ := hfull.newFile hpath
    have hmade' := newFile_mono fuel hmade
    rw [Nat.add_comm] at hmade'
    obtain ⟨internal, heap', hopen, hmap⟩ :=
      openWrite_of_newFile hheap hpath (nodeFromPath_mono fuel' hnode) hmade'
    refine ⟨_, internal, dev', heap', hopen, ?_⟩
    rw [Option.map_eq_none_iff.mp hmap]
    intro fd hfd
    cases hfd

/-- An entry is made when the path leads to a directory and there is room. -/
theorem makesEntry_iff :
    vol.MakesEntry heap path ↔ ∃ e, vol.ComesTo path e ∧ vol.RoomFor path e := by
  constructor
  · rintro ⟨fuel, fd, dev', heap', hopen, -, hmade⟩
    rcases openWrite_ok hpath hopen with ⟨e, hreturns, -, hnode, -⟩ |
      ⟨f, e, new, hnode, hnew, hmap, -⟩
    · rw [hnode fd rfl] at hmade
      exact absurd hreturns hmade
    · refine ⟨e, (comesTo_iff hnames e).mpr ⟨f, fuel, hnode⟩, (newFile_isSome hpath hnew).1 ?_⟩
      cases new with
      | none => cases hmap fd rfl
      | some newEntry => rfl
  · rintro ⟨e, hcomes, hroom⟩
    obtain ⟨f, fuel, hnode⟩ := (comesTo_iff hnames e).mp hcomes
    obtain ⟨fuel', newEntry, dev', hnew⟩ := hroom.newFile hpath
    have hnew' := newFile_mono fuel hnew
    rw [Nat.add_comm] at hnew'
    obtain ⟨internal, heap', hopen, hmap⟩ :=
      openWrite_of_newFile hheap hpath (nodeFromPath_mono fuel' hnode) hnew'
    obtain ⟨fd, rfl, hentry⟩ := Option.map_eq_some_iff.mp hmap
    refine ⟨_, fd, dev', heap', hopen, by rw [hentry]; rfl, fun hreturns => ?_⟩
    rw [hentry] at hreturns
    cases returns_unique hreturns ⟨fuel, hnode⟩

end Open

/-- An open for writing whose allocations are granted does what it is for exactly when the
    lookup of a missing file comes to a directory without room, and that of a directory to
    none with room. -/
theorem writeOpen_iff (vol : Volume) (heap : Ledger) (hheap : heap.Grants 6)
    (path : List PathNode) (hpath : path ≠ [])
    (hparsed : ∃ text root p, 0 ∉ text ∧ pathParserParse {} text = .ok (root, p) ∧
      root.path = path) :
    vol.WriteOpen heap path (path.getLast hpath).native ↔
      (vol.Missing path (path.getLast hpath).native →
        ∃ e, vol.ComesTo path e ∧ vol.FullFor path e) ∧
      (vol.NamesDirectory path → ∀ e, vol.ComesTo path e → ¬ vol.RoomFor path e) := by
  obtain ⟨text, root, p, hnul, hparse, rfl⟩ := hparsed
  have hnames := pathParserParse_starts hnul hparse
  have hname := printable_native (pathParserParse_nameChar hnul hparse _ (List.getLast_mem hpath))
  constructor
  · intro h
    constructor
    · rintro ⟨d, hparent, hdir, hlacks⟩
      exact (opensNew_iff hheap hpath hnames hname hdir hlacks).mp (h.missing d hparent hdir hlacks)
    · intro hdir e hcomes hroom
      exact h.existing hdir ((makesEntry_iff hheap hpath hnames).mpr ⟨e, hcomes, hroom⟩)
  · rintro ⟨hmissing, hexisting⟩
    constructor
    · intro d hparent hdir hlacks
      exact (opensNew_iff hheap hpath hnames hname hdir hlacks).mpr
        (hmissing ⟨d, hparent, hdir, hlacks⟩)
    · intro hdir hmade
      obtain ⟨e, hcomes, hroom⟩ := (makesEntry_iff hheap hpath hnames).mp hmade
      exact hexisting hdir e hcomes hroom

end Volume

/-! ## A missing file in a directory -/

/-- `"A:/A/X"`, parsed -/
def newInFolder : List PathNode :=
  [⟨emptyNode.identifier.write 0 [65]⟩, ⟨emptyNode.identifier.write 0 [88]⟩]

theorem newInFolder_parsed : ∃ text root p, 0 ∉ text ∧ pathParserParse {} text = .ok (root, p) ∧
    root.path = newInFolder :=
  ⟨[65, 58, 47, 65, 47, 88], _, _, by decide, rfl, rfl⟩

/-- The directory `A` of `deepVolume` does not have the file. -/
theorem missing_newInFolder : deepVolume.Missing newInFolder
    (newInFolder.getLast (List.cons_ne_nil _ _)).native := by
  have hchain : deepVolume.DirChain deepVolume.dev.disk 2 [2] :=
    .last (by decide) (by decide +kernel)
  have hparent : (rootIndex deepVolume (PathNode.native ⟨emptyNode.identifier.write 0 [65]⟩)).map
      deepVolume.rootEntry = some ⟨letterEntry 65 attrDirectory 2⟩ := by
    decide +kernel
  have hslots : ∀ i < 16, (diskEntry deepVolume.dev.disk (deepVolume.clusterPos 2 + 32 * i)).fileName
      ≠ (newInFolder.getLast (List.cons_ne_nil _ _)).native := by
    decide +kernel
  have hcount : deepVolume.bpb.secPerClus * 16 = 16 := by decide +kernel
  refine ⟨.chain 2, ⟨⟨letterEntry 65 attrDirectory 2⟩, hparent, by decide +kernel, rfl⟩,
    ⟨[2], hchain⟩, ?_⟩
  rintro pos ⟨c, hc, i, hi, rfl⟩
  have hmem := Volume.DirChain.mem_of_reaches hchain (.refl _) hc
  obtain rfl := List.mem_singleton.mp hmem
  exact hslots i (hcount ▸ hi)

/-- The lookup finds nothing. -/
theorem not_comesTo_newInFolder (e : DirEntry) : ¬ deepVolume.ComesTo newInFolder e := by
  have hroot : ¬ PathNode.isRoot ⟨emptyNode.identifier.write 0 [65]⟩ := by
    rw [PathNode.isRoot]
    decide
  have hindex : rootIndex deepVolume (PathNode.native ⟨emptyNode.identifier.write 0 [65]⟩)
      = some 0 := by
    decide +kernel
  have hcluster : (deepVolume.rootEntry 0).lowCluster = 2 := by decide +kernel
  have hmiss : (walkEntries deepVolume 2).find?
      (·.fileName == PathNode.native ⟨emptyNode.identifier.write 0 [88]⟩) = none := by
    decide +kernel
  have hend : ¬ deepVolume.fatEntry 2 ≤ fat16ValueEndOfChain := by decide +kernel
  have hmark : ¬ looksLikeRoot 0 = true := by decide
  rintro (⟨h, -⟩ | ⟨-, h⟩)
  · exact hroot h
  · rw [hindex] at h
    simp only [hmark, hcluster] at h
    rw [if_neg Bool.false_ne_true, if_neg (fun hsingle => List.cons_ne_nil _ _ hsingle.1)] at h
    cases h.1 with
    | here _ hfind =>
        have hnone := hmiss.symm.trans hfind
        cases hnone
    | next _ _ hrest =>
        cases hrest with
        | here hle _ => exact hend hle
        | next hle _ _ => exact hend hle

theorem printable_newInFolder :
    Volume.Printable (newInFolder.getLast (List.cons_ne_nil _ _)).native :=
  printable_newPath

/-- The null node is read. -/
theorem writeOpen_newInFolder : ¬ deepVolume.WriteOpen .empty newInFolder
    (newInFolder.getLast (List.cons_ne_nil _ _)).native := by
  intro h
  obtain ⟨e, hcomes, -⟩ := ((Volume.writeOpen_iff deepVolume .empty (fun _ _ => rfl) newInFolder
    (List.cons_ne_nil _ _) newInFolder_parsed).mp h).1 missing_newInFolder
  exact not_comesTo_newInFolder e hcomes

/-- A missing file that is not made -/
theorem exists_null_node : ¬ ∀ (vol : Volume) (heap : Ledger) (path : List PathNode)
    (hpath : path ≠ []), heap.Grants 6 →
    (∃ text root p, 0 ∉ text ∧ pathParserParse {} text = .ok (root, p) ∧ root.path = path) →
    Volume.Printable (path.getLast hpath).native →
      vol.WriteOpen heap path (path.getLast hpath).native := by
  intro hall
  obtain ⟨text, root, p, hnul, hparse, hpath⟩ := newInFolder_parsed
  have hnames := pathParserParse_starts hnul hparse
  rw [hpath] at hnames
  have hgranted : Ledger.empty.Grants 6 := fun _ _ => rfl
  have hopen := hall deepVolume .empty newInFolder (List.cons_ne_nil _ _) hgranted newInFolder_parsed
    printable_newInFolder
  obtain ⟨d, hparent, hdir, hlacks⟩ := missing_newInFolder
  obtain ⟨e, hcomes, -⟩ := (Volume.opensNew_iff hgranted (List.cons_ne_nil _ _) hnames
    printable_newInFolder hdir hlacks).mp (hopen.missing d hparent hdir hlacks)
  exact not_comesTo_newInFolder e hcomes

end Icarius
