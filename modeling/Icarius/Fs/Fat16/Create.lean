/-
  Icarius.Fs.Fat16.Create

  `fat16_create_file` and the directory the file should be in.  The driver looks for a
  slot and a cluster, and writes the end mark of the cluster; of the directory entry it
  writes `sizeof(fat16_dir_entry_t) < 0` bytes.
-/

import Icarius.Fs.Fat16.Slots

namespace Icarius

open Icarius.Lib

namespace Volume

variable (vol : Volume)

/-! ## Entries of a directory -/

/-- There is a slot of the directory at `pos` on the disk. -/
def DirSlot (disk : Mem) : Directory → Nat → Prop
  | .root, pos => ∃ i < vol.bpb.rootEntCnt, pos = vol.rootPos + 32 * i
  | .chain start, pos => ∃ c, vol.Reaches disk start c ∧
      ∃ i < vol.bpb.secPerClus * 16, pos = vol.clusterPos c + 32 * i

/-- Cluster `c` is one of the directory on the disk. -/
def InDir (disk : Mem) : Directory → Nat → Prop
  | .root, _ => False
  | .chain start, c => vol.Reaches disk start c

/-- The directory is the root, or a chain of clusters. -/
def IsDir (disk : Mem) : Directory → Prop
  | .root => True
  | .chain start => ∃ cs, vol.DirChain disk start cs

/-- No slot of the directory has the name. -/
def Lacks (disk : Mem) (d : Directory) (name : List UInt8) : Prop :=
  ∀ pos, vol.DirSlot disk d pos → (diskEntry disk pos).fileName ≠ name

/-- A file has been made: the directory has its entry at `pos`, in a slot that was free or
    is new, with cluster `c`, which was free and has an end mark; all other entries and
    the FAT, other than for the clusters of the directory, are as they were. -/
structure FileCreated (d : Directory) (disk disk' : Mem) (name : List UInt8) (c pos : Nat) :
    Prop where
  slot : vol.DirSlot disk' d pos
  free : vol.DirSlot disk d pos → (diskEntry disk pos).isFree = true
  fileName : (diskEntry disk' pos).fileName = name
  attributes : (diskEntry disk' pos).attributes = attrArchive
  fileSize : (diskEntry disk' pos).fileSize = 0
  cluster : fat16GetCombinedCluster (diskEntry disk' pos).highCluster
    (diskEntry disk' pos).lowCluster = c
  fat_free : vol.fatOn disk c = fat16ValueFree
  fat_mark : fat16ValueEndOfChain ≤ vol.fatOn disk' c
  entries : ∀ d' pos', vol.DirSlot disk d' pos' → pos' ≠ pos →
    diskEntry disk' pos' = diskEntry disk pos'
  fat : ∀ x < 65536, x ≠ c → ¬ vol.InDir disk' d x → vol.fatOn disk' x = vol.fatOn disk x

/-- Characters of a name -/
def Printable (name : List UInt8) : Prop := ∀ b ∈ name, 32 ≤ b.toNat ∧ b.toNat < 127

/-- Where the new file should be: in the root directory, for a path of one component, or
    in the folder -/
def targetDir (path : List PathNode) (folder : DirEntry) : Directory :=
  if path.length = 1 then .root
  else .chain (u16 (fat16GetCombinedCluster folder.highCluster folder.lowCluster))

/-- A file is made when the driver returns a node. -/
def CreatesFile (dev : Ata) (heap : Ledger) (fuel : Nat) (path : List PathNode)
    (node : HeapNode) (name : List UInt8) : Prop :=
  ∀ node' dev' heap',
    fat16CreateFile vol.bpb dev heap fuel path node = .ok (some node', dev', heap') →
      ∃ c pos, vol.FileCreated (targetDir path node.node.entry) dev.disk dev'.disk name c pos

/-! ## What the driver leaves on the disk -/

variable {vol}

theorem writeAt_nil (dev : Ata) (pos : Nat) : dev.writeAt pos [] = dev := rfl

/-- The search for a slot, along any walk: it changes the disk behind the last cluster
    only. -/
theorem scarred_findFreeLoop {dev : Ata} {fuel c : Nat} {r : Nat × Ata}
    (h : fat16FindFreeEntryLoop vol.bpb dev fuel c = some r) : vol.Scarred dev.disk r.2.disk := by
  induction fuel generalizing c with
  | zero => cases h
  | succ fuel ih =>
      by_cases hlive : c < fat16ValueEndOfChain
      · rw [vol.findFreeEntry_round dev hlive] at h
        split at h
        · rw [← Option.some.inj h]
          exact .refl _
        · exact ih h
      · rw [vol.findFreeEntry_end dev (Nat.not_lt.mp hlive)] at h
        rw [← Option.some.inj h]
        exact vol.scarred_behindLast

theorem scarred_findFreeEntry {dev : Ata} {fuel start : Nat} {r : Nat × Ata}
    (h : fat16FindFreeEntryInDir vol.bpb dev fuel start = some r) :
    vol.Scarred dev.disk r.2.disk := by
  rw [fat16FindFreeEntryInDir] at h
  split at h
  · rw [← Option.some.inj h]
    exact .refl _
  · exact scarred_findFreeLoop h

/-- The driver leaves marks and zeros on the disk, whether it makes a node or not. -/
theorem scarred_newFile {dev dev' : Ata} {fuel : Nat} {path : List PathNode}
    {folder : DirEntry} {new : Option DirEntry}
    (h : newFile vol.bpb dev fuel path folder = some (new, dev')) :
    vol.Scarred dev.disk dev'.disk := by
  have hmax : fat16MaxClusters = 65525 := rfl
  -- the free cluster, behind the search for a slot
  have htake : ∀ (dev₁ : Ata) (pos : Nat) (entry : DirEntry),
      fat16GetNextFreeCluster vol.bpb dev₁ ≠ 0 →
      vol.Scarred dev₁.disk ((fat16CreateFatEntry vol.bpb dev₁
        (fat16GetNextFreeCluster vol.bpb dev₁) fat16ValueEndOfChain).2.writeAt pos
          (entry.bytes.take 0)).disk := by
    intro dev₁ pos entry hne
    rw [List.take_zero, writeAt_nil]
    rw [vol.nextFreeCluster_on] at hne ⊢
    cases hfree : vol.freeClusters dev₁.disk with
    | nil =>
        rw [hfree] at hne
        exact absurd rfl hne
    | cons c rest =>
        obtain ⟨hlow, hhigh, -⟩ := vol.mem_freeClusters.mp (hfree ▸ List.mem_cons_self)
        exact .mark dev₁ (by simp only [List.head?_cons, Option.getD_some]; omega) hhigh
  cases path with
  | nil =>
      rw [← (Prod.mk.inj (Option.some.inj h)).2]
      exact .refl _
  | cons first next =>
      rw [newFile] at h
      by_cases hnext : next = []
      · subst hnext
        simp only [if_true, true_and] at h
        split at h
        · rw [← (Prod.mk.inj (Option.some.inj h)).2]
          exact .refl _
        · split at h
          · rw [← (Prod.mk.inj (Option.some.inj h)).2]
            exact .refl _
          · rename_i hcluster
            rw [← (Prod.mk.inj (Option.some.inj h)).2]
            exact htake dev _ _ hcluster
      · simp only [hnext, if_false, false_and] at h
        split at h
        · cases h
        · rename_i pos dev₁ hfind
          have hscar : vol.Scarred dev.disk dev₁.disk := scarred_findFreeEntry hfind
          split at h
          · rw [← (Prod.mk.inj (Option.some.inj h)).2]
            exact hscar
          · rename_i hcluster
            rw [← (Prod.mk.inj (Option.some.inj h)).2]
            exact hscar.trans (htake dev₁ _ _ hcluster)

/-! ## The name is still missing -/

/-- Names the parser makes are made of such characters. -/
theorem printable_native {c : PathNode} (h : ∀ i, NameChar (c.identifier i)) :
    Printable c.native := by
  have hchar : ∀ {i}, c.identifier i ≠ 0 →
      32 ≤ (c.identifier i).toNat ∧ (c.identifier i).toNat < 127 :=
    fun {i} hne => (h i).resolve_left hne
  have hblank : ∀ {n : Nat} {b : UInt8}, b ∈ List.replicate n 32 → 32 ≤ b.toNat ∧ b.toNat < 127 := by
    intro n b hb
    rw [List.eq_of_mem_replicate hb]
    decide
  intro b hb
  simp only [PathNode.native, fat16GetNativeFilenameFromUserland, List.mem_append] at hb
  rcases hb with ((hb | hb) | hb) | hb
  · have htake := List.mem_takeWhile_imp hb
    obtain ⟨i, -, rfl⟩ := List.mem_map.mp ((List.takeWhile_sublist _).subset hb)
    rw [Bool.and_eq_true, bne_iff_ne] at htake
    exact hchar htake.1
  · exact hblank hb
  · split at hb
    · have htake := List.mem_takeWhile_imp hb
      obtain ⟨j, -, rfl⟩ := List.mem_map.mp ((List.takeWhile_sublist _).subset hb)
      exact hchar (bne_iff_ne.mp htake)
    · cases hb
  · exact hblank hb

theorem DirSlot.of_scarred {disk disk' : Mem} {d : Directory} {pos : Nat}
    (hdir : vol.IsDir disk d) (hscar : vol.Scarred disk disk') (h : vol.DirSlot disk' d pos) :
    vol.DirSlot disk d pos := by
  cases d with
  | root => exact h
  | chain start =>
      obtain ⟨cs, hchain⟩ := hdir
      obtain ⟨c, hc, hslot⟩ := h
      exact ⟨c, hchain.reaches (hchain.mem_of_reaches hscar hc), hslot⟩

/-- A name of printable characters is not made by marks and zeros. -/
theorem fileName_of_scarred {disk disk' : Mem} {pos : Nat} {name : List UInt8}
    (hname : Printable name) (hscar : vol.Scarred disk disk')
    (h : (diskEntry disk' pos).fileName = name) : (diskEntry disk pos).fileName = name := by
  have hmap : ∀ disk : Mem,
      (diskEntry disk pos).fileName = (List.range 11).map fun i => disk (pos + i) := by
    intro disk
    have hfirst := take_drop_map_range (fun i => disk (pos + i)) (show 0 + 11 ≤ 32 by decide)
    simp only [List.drop_zero, Nat.zero_add] at hfirst
    exact hfirst
  rw [hmap] at h ⊢
  rw [← h]
  apply List.map_congr_left
  intro i hi
  obtain ⟨hlow, hhigh⟩ := hname (disk' (pos + i)) (by
    rw [← h]
    exact List.mem_map.mpr ⟨i, hi, rfl⟩)
  rcases hscar.byte (pos + i) with heq | hzero | hmark | hmark
  · exact heq.symm
  · rw [hzero] at hlow
    exact absurd hlow (by decide)
  · rw [hmark] at hhigh
    exact absurd hhigh (by decide)
  · rw [hmark] at hhigh
    exact absurd hhigh (by decide)

theorem Lacks.of_scarred {disk disk' : Mem} {d : Directory} {name : List UInt8}
    (hlacks : vol.Lacks disk d name) (hname : Printable name) (hdir : vol.IsDir disk d)
    (hscar : vol.Scarred disk disk') : vol.Lacks disk' d name := by
  intro pos hslot hfile
  exact hlacks pos (hslot.of_scarred hdir hscar) (fileName_of_scarred hname hscar hfile)

/-! ## When a file is made -/

section Create

variable {dev : Ata} {fuel : Nat} {path : List PathNode} {node : HeapNode} {name : List UInt8}
  (heap : Ledger) (hpath : path ≠ []) (hdir : vol.IsDir dev.disk (targetDir path node.node.entry))

include hdir in
/-- The search for a slot in a directory ends. -/
theorem slotSearchEnds (hfuel : 65536 ≤ fuel) :
    SlotSearchEnds vol.bpb dev fuel path node.node.entry := by
  by_cases hone : path.length = 1
  · exact .inl hone
  · rw [targetDir, if_neg hone] at hdir
    obtain ⟨cs, hchain⟩ := hdir
    have hlen := hchain.length_lt
    have hsame : ∀ n, fat16FindFreeEntryInDir vol.bpb dev fuel (u16 n)
        = fat16FindFreeEntryInDir vol.bpb dev fuel n := by
      intro n
      have htwice : u16 (u16 n) = u16 n := Nat.mod_mod n _
      rw [fat16FindFreeEntryInDir, fat16FindFreeEntryInDir, htwice]
    refine .inr ?_
    rw [← hsame, vol.findFreeEntryInDir_eq hchain]
    split
    · rfl
    · rcases vol.findFreeEntry_cases hchain fuel with ⟨-, hle⟩ | hsome
      · omega
      · rw [hsome]
        rfl

include hpath in
/-- A node is returned exactly when there is room for the file, the search for a slot ends,
    and the two objects of the node are granted. -/
theorem createFile_isSome_iff :
    (∃ node' dev' heap',
      fat16CreateFile vol.bpb dev heap fuel path node = .ok (some node', dev', heap')) ↔
      (HasRoom vol.bpb dev fuel path node.node.entry ∧ heap.Grants 2) ∧
        SlotSearchEnds vol.bpb dev fuel path node.node.entry := by
  rw [fat16CreateFile]
  cases hnew : newFile vol.bpb dev fuel path node.node.entry with
  | none =>
      have hends := (newFile_eq_none_iff hpath).mp hnew
      refine iff_of_false ?_ fun h => hends h.2
      rintro ⟨node', dev', heap', h⟩
      cases h
  | some made =>
      obtain ⟨new, dev'⟩ := made
      have hroom := newFile_isSome_iff hpath hnew
      have hends : SlotSearchEnds vol.bpb dev fuel path node.node.entry := by
        by_contra hnot
        rw [(newFile_eq_none_iff hpath).mpr hnot] at hnew
        cases hnew
      cases new with
      | none =>
          refine iff_of_false ?_ fun h => Bool.false_ne_true (hroom.mpr h.1.1)
          rintro ⟨node', dev'', heap', h⟩
          cases h
      | some newEntry =>
          -- a null pointer is written for an object that is refused
          by_cases hfirst : heap.grants heap.next = true
          · by_cases hsecond : heap.alloc.2.grants heap.alloc.2.next = true
            · simp only [Ledger.request_pos hfirst, Ledger.request_pos hsecond]
              refine iff_of_true ⟨_, _, _, rfl⟩ ⟨⟨hroom.mp rfl, ?_⟩, hends⟩
              exact Ledger.grants_succ.mpr ⟨hfirst, Ledger.grants_one.mpr hsecond⟩
            · simp only [Ledger.request_pos hfirst, Ledger.request_neg hsecond]
              refine iff_of_false ?_ fun h => hsecond ?_
              · rintro ⟨node', dev'', heap', h⟩
                cases h
              · exact Ledger.grants_one.mp (Ledger.grants_succ.mp h.1.2).2
          · simp only [Ledger.request_neg hfirst]
            refine iff_of_false ?_ fun h => hfirst (Ledger.grants_succ.mp h.1.2).1
            rintro ⟨node', dev'', heap', h⟩
            cases h

include hdir in
/-- A node is returned for a file that is not there. -/
theorem not_fileCreated (hname : Printable name)
    (hlacks : vol.Lacks dev.disk (targetDir path node.node.entry) name) {node' : HeapNode}
    {dev' : Ata} {heap' : Ledger}
    (h : fat16CreateFile vol.bpb dev heap fuel path node = .ok (some node', dev', heap'))
    (c pos : Nat) :
    ¬ vol.FileCreated (targetDir path node.node.entry) dev.disk dev'.disk name c pos := by
  intro hcreated
  rw [fat16CreateFile] at h
  split at h
  · cases h
  · cases h
  · rename_i newEntry dev₁ hnew
    obtain rfl : dev₁ = dev' := by
      split at h
      · cases h
      · split at h
        · cases h
        · cases h
          rfl
    have hscar := scarred_newFile hnew
    exact hlacks.of_scarred hname hdir hscar pos hcreated.slot hcreated.fileName

end Create

end Volume

/-! ## A file in the root directory -/

/-- The path `X` -/
def newPath : List PathNode := [⟨emptyNode.identifier.write 0 [88]⟩]

/-- A node to pass for a path in the root directory -/
def noFolder : HeapNode := ⟨.file .zero, 0, []⟩

theorem newPath_native : (newPath.getLast (List.cons_ne_nil _ _)).native
    = 88 :: List.replicate 10 32 := by
  decide +kernel

theorem printable_newPath :
    Volume.Printable (newPath.getLast (List.cons_ne_nil _ _)).native := by
  rw [newPath_native]
  intro b hb
  rcases List.mem_cons.mp hb with rfl | hpad
  · exact ⟨by decide, by decide⟩
  · rw [List.eq_of_mem_replicate hpad]
    exact ⟨by decide, by decide⟩

theorem lacks_newPath : deepVolume.Lacks deepVolume.dev.disk .root
    (newPath.getLast (List.cons_ne_nil _ _)).native := by
  rw [newPath_native]
  have hcount : deepVolume.bpb.rootEntCnt = 16 := by decide +kernel
  have hslots : ∀ i < 16, (diskEntry deepVolume.dev.disk (deepVolume.rootPos + 32 * i)).fileName
      ≠ 88 :: List.replicate 10 32 := by
    decide +kernel
  rintro pos ⟨i, hi, rfl⟩
  exact hslots i (hcount ▸ hi)

theorem hasRoom_newPath :
    HasRoom deepVolume.bpb deepVolume.dev 65536 newPath noFolder.node.entry := by
  have hone : newPath.length = 1 := rfl
  rw [HasRoom, if_pos hone]
  exact ⟨by decide +kernel, by decide +kernel⟩

end Icarius
