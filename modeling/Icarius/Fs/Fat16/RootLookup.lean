/-
  Icarius.Fs.Fat16.RootLookup

  Paths of one component: that of the root directory, and those of the entries in it.  The
  driver knows the root directory by the difference of two sector numbers, which is 32 for
  one size of the root directory only, and for some entries also.
-/

import Icarius.Fs.Fat16.Geometry
import Icarius.Fs.Fat16.Readdir

namespace Icarius

open Icarius.Lib

/-! ## What a lookup is for -/

/-- A parsed path of one component -/
structure SinglePath where
  node : PathNode
  parsed : ∃ text root p, 0 ∉ text ∧ pathParserParse {} text = .ok (root, p) ∧ root.path = [node]

/-- `strcmp(path->identifier, "/") == 0` -/
def PathNode.isRoot (c : PathNode) : Prop := c.identifier 0 = charSlash ∧ c.identifier 1 = 0

/-- The node is made for the entry: it has the entry, and the type it has. -/
def Fat16Node.Carries (node : Fat16Node) (e : DirEntry) : Prop :=
  node.entry = e ∧ node.isDir = e.isDirectory

/-- The path of the root gives the node of the root directory; the path of an entry in
    any slot gives a node of that entry, and not the one of the root directory. -/
structure LooksUp (vol : Volume) (c : PathNode) : Prop where
  root : c.isRoot → ∀ node, Returns vol [c] node ↔ node = rootNode vol
  entry : ¬ c.isRoot → ∀ i, rootIndex vol c.native = some i →
    ∃ node, Returns vol [c] node ∧ node.Carries (vol.rootEntry i) ∧ node ≠ rootNode vol

/-! ## The path of the root -/

/-- An entry of zeros is never what a path of the root comes to behind the root directory. -/
theorem not_returns_rootNode (vol : Volume) {c : PathNode}
    (hname : StartsName c ∨ c.identifier 0 = charSlash) (hroot : c.isRoot)
    (hne : rootDirSectors vol.bpb ≠ 32) : ¬ Returns vol [c] (rootNode vol) := by
  intro hreturns
  have hlookup : fat16GetRootDirEntry vol.bpb vol.dev c = (.zero, rootFolder vol) := by
    simp only [fat16GetRootDirEntry, hroot.1, hroot.2, and_self, if_true, rootFolder]
  have hsectors : u32 ((rootFolder vol).endSector + 2 ^ 32 - (rootFolder vol).startSector) ≠ 32 := by
    have hle := vol.rootDirSectors_le
    simp only [rootFolder, firstRootDirSector, u32]
    omega
  have hnames : ∀ n ∈ [c], StartsName n ∨ n.identifier 0 = charSlash := by
    intro n hn
    obtain rfl := List.mem_singleton.mp hn
    exact hname
  have hwalk := (returns_walk vol hnames .zero hlookup hsectors
    (fun _ hfirst => absurd rfl hfirst)).mp ⟨rootNode vol, hreturns, rfl⟩
  have huntyped : DirEntry.zero.typed = false := by decide
  rw [huntyped] at hwalk
  exact absurd hwalk.2 Bool.false_ne_true

theorem rootDirSectors_eq_iff (vol : Volume) (hcnt : vol.bpb.rootEntCnt % 16 = 0) :
    rootDirSectors vol.bpb = 32 ↔ vol.bpb.rootEntCnt = 512 := by
  have hlt := vol.rootEntCnt_lt
  simp only [rootDirSectors, u32, vol.bytsPerSec]
  omega

/-! ## The path of an entry -/

section Entry

variable (vol : Volume) {c : PathNode} {i : Nat}
  (hname : StartsName c ∨ c.identifier 0 = charSlash) (hroot : ¬ c.isRoot)
  (hindex : rootIndex vol c.native = some i)
include hname hroot hindex

/-- The folder the driver makes for the entry in slot `i` -/
theorem exists_lookup : ∃ folder : Fat16Folder,
    fat16GetRootDirEntry vol.bpb vol.dev c = (vol.rootEntry i, folder) ∧
      u32 (folder.endSector + 2 ^ 32 - folder.startSector) = (i + 1) * 32 / 512 := by
  have hnames : ∀ n ∈ [c], StartsName n ∨ n.identifier 0 = charSlash := by simpa using hname
  have hlookup := rootDirEntry_eq vol hnames hroot
  rw [hindex] at hlookup
  exact ⟨_, hlookup, folder_sectors _ (rootIndex_lt hindex)⟩

omit hroot in
theorem rootEntry_first : (vol.rootEntry i).first ≠ 0 := by
  have hnamed := List.find?_some hindex
  rw [named_native hname] at hnamed
  exact (first_of_native hname (beq_iff_eq.mp hnamed)).1

/-- An entry that is taken for the root directory, or is one of a directory, is given a
    node of a directory. -/
theorem returns_dir (hdir : looksLikeRoot i = true ∨ (vol.rootEntry i).isDirectory = true) :
    ∃ folder, ∀ node, Returns vol [c] node ↔ node = .dir folder (vol.rootEntry i) := by
  obtain ⟨folder, hlookup, hsectors⟩ := exists_lookup vol hname hroot hindex
  have hfirst := rootEntry_first vol hname hindex
  refine ⟨folder, fun node => ?_⟩
  simp only [Returns, fat16GetNodeFromPath, hlookup, hsectors, true_and]
  by_cases hmark : (i + 1) * 32 / 512 = 32
  · simp only [hmark, if_true, Option.some.injEq, exists_const]
    exact eq_comm
  · have hisdir := hdir.resolve_left fun h => hmark (beq_iff_eq.mp h)
    simp only [hmark, if_false, if_pos (And.intro hfirst hisdir), Option.some.injEq, exists_const]
    exact eq_comm

/-- A file in another slot is given a node of a file. -/
theorem returns_file (hmark : looksLikeRoot i = false)
    (hdir : (vol.rootEntry i).isDirectory = false) (hfile : (vol.rootEntry i).isArchive = true)
    (node : Fat16Node) : Returns vol [c] node ↔ node = .file (vol.rootEntry i) := by
  obtain ⟨folder, hlookup, hsectors⟩ := exists_lookup vol hname hroot hindex
  have hfirst := rootEntry_first vol hname hindex
  have hne : (i + 1) * 32 / 512 ≠ 32 := beq_eq_false_iff_ne.mp hmark
  have hnotdir : ¬ ((vol.rootEntry i).first ≠ 0 ∧ (vol.rootEntry i).isDirectory = true) := by
    rw [hdir]
    exact fun h => Bool.false_ne_true h.2
  simp only [Returns, fat16GetNodeFromPath, hlookup, hsectors, hne, hnotdir, if_false, true_and,
    if_pos (And.intro hfirst hfile), Option.some.injEq, exists_const]
  exact eq_comm

omit hroot in
theorem entry_ne_zero : vol.rootEntry i ≠ .zero := by
  intro h
  have hfirst := rootEntry_first vol hname hindex
  rw [h] at hfirst
  exact hfirst rfl

/-- The path of an entry gives a node of it exactly when the entry has one of the two
    attributes, and a file is not in a slot that is taken for the root directory. -/
theorem carries_iff :
    (∃ node, Returns vol [c] node ∧ node.Carries (vol.rootEntry i) ∧ node ≠ rootNode vol) ↔
      (vol.rootEntry i).isDirectory = true ∨
        ((vol.rootEntry i).isArchive = true ∧ looksLikeRoot i = false) := by
  have hzero := entry_ne_zero vol hname hindex
  have hnames : ∀ n ∈ [c], StartsName n ∨ n.identifier 0 = charSlash := by simpa using hname
  constructor
  · rintro ⟨node, hreturns, ⟨hentry, htype⟩, -⟩
    by_cases hdir : (vol.rootEntry i).isDirectory = true
    · exact .inl hdir
    · have hnotdir := Bool.not_eq_true _ ▸ hdir
      by_cases hmark : looksLikeRoot i = true
      · -- a file with the node of a directory
        obtain ⟨folder, hnode⟩ := returns_dir vol hname hroot hindex (.inl hmark)
        rw [(hnode node).mp hreturns] at htype
        rw [← htype] at hdir
        exact absurd rfl hdir
      · have hnotmark := Bool.not_eq_true _ ▸ hmark
        refine .inr ⟨?_, hnotmark⟩
        by_contra harchive
        have huntyped : (vol.rootEntry i).typed = false := by
          rw [DirEntry.typed, hnotdir, Bool.false_or]
          exact Bool.not_eq_true _ ▸ harchive
        have hwalk := (returns_chain vol hnames hroot hindex (vol.rootEntry i) hnotmark
          fun _ => huntyped).mp ⟨node, hreturns, hentry⟩
        rw [huntyped] at hwalk
        exact absurd hwalk.2 Bool.false_ne_true
  · have hother : ∀ folder, Fat16Node.dir folder (vol.rootEntry i) ≠ rootNode vol := by
      intro folder h
      exact hzero (Fat16Node.dir.inj h).2
    rintro (hdir | ⟨hfile, hmark⟩)
    · obtain ⟨folder, hnode⟩ := returns_dir vol hname hroot hindex (.inr hdir)
      exact ⟨_, (hnode _).mpr rfl, ⟨rfl, hdir.symm⟩, hother folder⟩
    · by_cases hdir : (vol.rootEntry i).isDirectory = true
      · obtain ⟨folder, hnode⟩ := returns_dir vol hname hroot hindex (.inr hdir)
        exact ⟨_, (hnode _).mpr rfl, ⟨rfl, hdir.symm⟩, hother folder⟩
      · have hnotdir := Bool.not_eq_true _ ▸ hdir
        refine ⟨_, (returns_file vol hname hroot hindex hmark hnotdir hfile _).mpr rfl,
          ⟨rfl, hnotdir.symm⟩, ?_⟩
        exact Fat16Node.noConfusion

end Entry

/-- A path of one component is looked up rightly exactly when, for the root, it has 512
    slots, and for an entry, it is that of a directory, or of an archive file in a slot
    other than 511 to 526. -/
theorem looksUp_iff (vol : Volume) (path : SinglePath) (hcnt : vol.bpb.rootEntCnt % 16 = 0) :
    LooksUp vol path.node ↔
      (path.node.isRoot → vol.bpb.rootEntCnt = 512) ∧
      (¬ path.node.isRoot → ∀ i, rootIndex vol path.node.native = some i →
        (vol.rootEntry i).isDirectory = true ∨
          ((vol.rootEntry i).isArchive = true ∧ ¬ (511 ≤ i ∧ i ≤ 526))) := by
  obtain ⟨text, root, p, hnul, hparse, hpath⟩ := path.parsed
  have hname := pathParserParse_starts hnul hparse
  rw [hpath] at hname
  replace hname := hname path.node (List.mem_singleton_self _)
  have hslots : ∀ i, looksLikeRoot i = false ↔ ¬ (511 ≤ i ∧ i ≤ 526) := by
    intro i
    rw [looksLikeRoot, beq_eq_false_iff_ne]
    omega
  constructor
  · intro h
    refine ⟨fun hroot => ?_, fun hroot i hindex => ?_⟩
    · rw [← rootDirSectors_eq_iff vol hcnt]
      by_contra hne
      exact not_returns_rootNode vol hname hroot hne ((h.root hroot _).mpr rfl)
    · rw [← hslots]
      exact (carries_iff vol hname hroot hindex).mp (h.entry hroot i hindex)
  · rintro ⟨hsize, hentries⟩
    refine ⟨fun hroot node => ?_, fun hroot i hindex => ?_⟩
    · exact returns_root vol hroot ((rootDirSectors_eq_iff vol hcnt).mpr (hsize hroot))
    · rw [carries_iff vol hname hroot hindex, hslots]
      exact hentries hroot i hindex

/-! ## A root directory of another size -/

/-- `"A:/"`, parsed -/
def slashPath : SinglePath where
  node := ⟨emptyNode.identifier.write 0 (charSlash :: List.replicate 10 0)⟩
  parsed := ⟨[65, 58, charSlash], _, _, by decide, rfl, rfl⟩

/-- The path of a root directory of 512 slots -/
theorem looksUp_hole : LooksUp holeVolume slashPath.node := by
  refine (looksUp_iff holeVolume slashPath (by decide +kernel)).mpr ⟨fun _ => ?_, fun hroot => ?_⟩
  · decide +kernel
  · exact absurd ⟨rfl, rfl⟩ hroot

/-- The path of a root directory of 16 slots -/
theorem exists_root_missed : ¬ ∀ (vol : Volume) (path : SinglePath),
    vol.bpb.rootEntCnt % 16 = 0 → LooksUp vol path.node := by
  intro hall
  have hroot : slashPath.node.isRoot := ⟨rfl, rfl⟩
  have hsectors : rootDirSectors deepVolume.bpb ≠ 32 := by decide +kernel
  exact not_returns_rootNode deepVolume (.inr hroot.1) hroot hsectors
    (((hall deepVolume slashPath (by decide +kernel)).root hroot _).mpr rfl)

end Icarius
