/-
  Icarius.Fs.Fat16.Seek

  `fat16_seek`.  A `fat16_node_t` is a union: it points to the directory entry of a file, or
  to the `fat16_folder_t` of a directory.  `fat16_seek` takes it for the latter and does not
  look at the type, so for a file the first characters of the name are the address whose
  `file_size` the offset is compared with.

  `seeksRight_iff` says that calls treat the position as they should exactly when there is
  no seek among them, and `keepsPosition_iff` when a seek is right but for what it reads.
-/

import Icarius.Lib.Run
import Icarius.Fs.Fat16.OpenWrite

namespace Icarius

open Icarius.Lib

/-! ## The driver -/

def seekSet : Nat := 0

def seekCur : Nat := 1

def seekEnd : Nat := 2

/-- `fat16_fd_t` with its node: the pointer in the union of `file` and `dir` -/
structure UnionFd where
  dir : Nat
  pos : Nat

/-- What a seek leaves: the result, the position of the descriptor, and the addresses and
    lengths of what it has read behind the node. -/
structure SeekResult where
  res : BitVec 32
  pos : Nat
  looked : List (Nat × Nat)
  deriving DecidableEq

/-- `fat16_seek`; `entry` is the first field of `fat16_folder_t`, and `file_size` is at
    offset 28 of a directory entry. -/
def fat16Seek (mem : Mem) (fat16Descriptor : UnionFd) (offset origin : Nat) : SeekResult :=
  let entry := mem.load 4 fat16Descriptor.dir
  let fileSize := u32 (entry + 28)
  let looked := [(fat16Descriptor.dir, 4), (fileSize, 4)]
  let pos := fat16Descriptor.pos
  if offset ≥ mem.load 4 fileSize then ⟨-eio, pos, looked⟩
  else if origin = seekSet then ⟨0, offset, looked⟩
  -- the sign is missing here
  else if origin = seekEnd then ⟨enoent, pos, looked⟩
  else if origin = seekCur then ⟨0, u32 (pos + offset), looked⟩
  else ⟨-einval, pos, looked⟩

/-! ## Open files in memory -/

/-- The nodes of a text that has been parsed -/
def FromParser (path : List PathNode) : Prop :=
  ∃ text root p, 0 ∉ text ∧ pathParserParse {} text = .ok (root, p) ∧ root.path = path

/-- A regular file that has been opened, and the address of its directory entry in the
    kernel heap -/
structure SeekFile (vol : Volume) where
  entry : DirEntry
  address : Nat
  opened : ∃ path heap fuel mode fd dev' heap', FromParser path ∧
    fat16Open vol.bpb vol.dev heap fuel path mode = .ok (some fd, dev', heap') ∧
      fd.entry.node = .file entry
  inHeap : kernelHeapStart ≤ address

/-- A call with the memory or the disk it finds -/
inductive SeekCall where
  | seek (mem : Mem) (offset origin : Nat)
  | read (dev : Ata) (nBytes nBlocks : Nat)

def SeekCall.isSeek : SeekCall → Bool
  | .seek _ _ _ => true
  | .read _ _ _ => false

/-- The position of the descriptor, and whether a seek has succeeded. -/
structure SeekState where
  pos : Nat
  sought : Bool
  deriving DecidableEq

namespace SeekFile

variable {vol : Volume} (file : SeekFile vol)

/-- The directory entry of the file is in memory. -/
def InMemory (mem : Mem) : Prop :=
  ∀ i < 32, mem (file.address + i) = file.entry.bytes.getD i 0

/-- What a call finds -/
def Finds (_ : SeekState) : SeekCall → Prop
  | .seek mem _ _ => file.InMemory mem
  | .read _ _ _ => True

/-- The seek of the file, at a position -/
def seek (mem : Mem) (pos offset origin : Nat) : SeekResult :=
  fat16Seek mem ⟨file.address, pos⟩ offset origin

def step (s : SeekState) : SeekCall → Option SeekState
  | .seek mem offset origin =>
      let r := file.seek mem s.pos offset origin
      some ⟨r.pos, s.sought || r.res == 0⟩
  | .read dev nBytes nBlocks =>
      (fat16Read vol.bpb dev ⟨.file file.entry, s.pos⟩ nBytes nBlocks).map fun r =>
        ⟨r.pos, s.sought⟩

/-! ## What a seek is for -/

/-- A seek looks only at the directory entry. -/
def LooksAtEntry (r : SeekResult) : Prop :=
  ∀ p ∈ r.looked, file.address ≤ p.1 ∧ p.1 + p.2 ≤ file.address + 32

/-- What a seek does to the position: one within the file is taken, one that fails or is not
    supported leaves the position, and none leads behind the end of the file. -/
structure KeepsPosition (pos offset origin : Nat) (r : SeekResult) : Prop where
  set : origin = seekSet → offset < file.entry.fileSize → r.res = 0 ∧ r.pos = offset
  unsupported : origin ≠ seekSet → origin ≠ seekCur → origin ≠ seekEnd → r.res ≠ 0
  failing : r.res ≠ 0 → IsError r.res ∧ r.pos = pos
  bound : r.res = 0 → r.pos ≤ file.entry.fileSize

/-- Every seek of the calls looks at the entry only and keeps the position, and from the
    first one that succeeds on the position is within the file. -/
def SeeksRight (pos : Nat) (calls : List SeekCall) : Prop :=
  (∀ before mem offset origin after s, calls = before ++ .seek mem offset origin :: after →
    Runs file.step file.Finds ⟨pos, false⟩ before s →
      file.LooksAtEntry (file.seek mem s.pos offset origin) ∧
        file.KeepsPosition s.pos offset origin (file.seek mem s.pos offset origin)) ∧
  ∀ before after s, calls = before ++ after →
    Runs file.step file.Finds ⟨pos, false⟩ before s →
      s.sought = true → s.pos ≤ file.entry.fileSize

end SeekFile

/-! ## Names of open files -/

namespace Volume

variable {vol : Volume} {path : List PathNode} {fuel : Nat}

/-- A file is found by the name of the last component. -/
theorem fileName_of_returns {e : DirEntry} (hpath : path ≠ []) (h : Returns vol path (.file e)) :
    e.fileName = (path.getLast hpath).native := by
  obtain ⟨fuel, h⟩ := h
  cases path with
  | nil => exact absurd rfl hpath
  | cons c next =>
      -- the entry of the root directory has been found by its name
      have hroot : ∀ {entry folder}, fat16GetRootDirEntry vol.bpb vol.dev c = (entry, folder) →
          entry.first ≠ 0 → entry.fileName = c.native := by
        intro entry folder hlookup hfirst
        unfold fat16GetRootDirEntry at hlookup
        simp only at hlookup
        split at hlookup
        · rw [← (Prod.mk.inj hlookup).1] at hfirst
          exact absurd rfl hfirst
        · split at hlookup
          · rw [← (Prod.mk.inj hlookup).1] at hfirst
            exact absurd rfl hfirst
          · rename_i i hfind
            have hname := List.find?_some hfind
            rw [Bool.and_eq_true, beq_iff_eq] at hname
            rw [← (Prod.mk.inj hlookup).1]
            exact hname.2
      rw [fat16GetNodeFromPath] at h
      rcases hlookup : fat16GetRootDirEntry vol.bpb vol.dev c with ⟨entry, folder⟩
      rw [hlookup] at h
      simp only at h
      split at h
      · cases h
      · split at h
        · cases h
        · -- a path of one name ends at the root directory, others in the clusters
          split at h
          · rename_i hsingle
            obtain ⟨rfl, hfirst, -⟩ := hsingle
            obtain rfl : entry = e := by
              simpa using h
            exact hroot hlookup hfirst
          · split at h
            · cases h
            · cases h
            · rename_i entry' folder' hsearch
              have hwalk := (chainSearch_iff vol (Nat.mod_lt _ (by decide))).mp ⟨_, _, hsearch⟩
              split at h
              · cases h
              · split at h
                · obtain rfl : entry' = e := by
                    simpa using h
                  exact hwalk.fileName
                · cases h

/-- A file that is made has that name. -/
theorem fileName_of_newFile {folder e : DirEntry} {dev' : Ata} (hpath : path ≠ [])
    (h : newFile vol.bpb vol.dev fuel path folder = some (some e, dev')) :
    e.fileName = (path.getLast hpath).native := by
  cases path with
  | nil => exact absurd rfl hpath
  | cons c next =>
      rw [newFile] at h
      simp only at h
      split at h
      · cases h
      · split at h
        · cases h
        · split at h
          · cases h
          · obtain ⟨hentry, -⟩ := Prod.mk.inj (Option.some.inj h)
            rw [← Option.some.inj hentry, DirEntry.fileName, newDirEntry]
            have hlen := ((c :: next).getLast hpath).length_native
            simp only [List.append_assoc]
            exact List.take_left' hlen

/-- The file of an open has the name of the last component. -/
theorem fileName_of_open {heap heap' : Ledger} {mode : VMode} {fd : HeapFd} {dev' : Ata}
    {e : DirEntry} (h : fat16Open vol.bpb vol.dev heap fuel path mode = .ok (some fd, dev', heap'))
    (hfile : fd.entry.node = .file e) :
    ∃ hpath : path ≠ [], e.fileName = (path.getLast hpath).native := by
  have hpath : path ≠ [] := by
    rintro rfl
    rw [fat16Open] at h
    split at h <;> cases h
  refine ⟨hpath, ?_⟩
  by_cases hwrite : mode = .write
  · subst hwrite
    rcases openWrite_ok hpath h with ⟨e', hreturns, -, hnode, -⟩ | ⟨f, e', new, -, hnew, hmap, -⟩
    · obtain rfl := Fat16Node.file.inj ((hnode fd rfl).symm.trans hfile)
      exact fileName_of_returns hpath hreturns
    · have hentry := hmap fd rfl
      rw [hfile] at hentry
      obtain ⟨new', rfl, hsame⟩ := Option.map_eq_some_iff.mp hentry
      obtain rfl := Fat16Node.file.inj hsame
      exact fileName_of_newFile hpath hnew
  · by_cases hread : mode = .read
    · subst hread
      cases hnode : fat16GetNodeFromPath vol.bpb vol.dev fuel path with
      | none =>
          rw [fat16Open, if_neg fun h => h.1 rfl, if_neg hpath, hnode] at h
          cases h
      | some found =>
          cases found with
          | none =>
              rw [fat16Open, if_neg fun h => h.1 rfl, if_neg hpath, hnode] at h
              cases h
          | some node =>
              by_cases hgrants : heap.Grants node.objects
              · obtain ⟨internal, heap₁, t, hopen, -, -, -, -, hof⟩ := fat16Open_found (.inl rfl)
                  hpath hnode hgrants fun h => hwrite h.2
                rw [hopen] at h
                cases h
                obtain rfl : node = .file e := (hof fd rfl).symm.trans hfile
                exact fileName_of_returns hpath ⟨fuel, hnode⟩
              · rcases fat16Open_refused (.inl rfl) hpath hnode hgrants with
                  ⟨-, heap₁, hopen, -⟩ | ⟨hmode, -⟩
                · rw [hopen] at h
                  cases h
                · exact absurd hmode hwrite
    · rw [fat16Open, if_pos ⟨hread, hwrite⟩] at h
      cases h

end Volume

/-! ## What a seek reads -/

namespace SeekFile

variable {vol : Volume} (file : SeekFile vol)

/-- The name of an open file is made of characters that are found in names. -/
theorem printable : Volume.Printable file.entry.fileName := by
  obtain ⟨path, heap, fuel, mode, fd, dev', heap', ⟨text, root, p, hnul, hparse, rfl⟩, hopen,
    hfile⟩ := file.opened
  obtain ⟨hpath, hname⟩ := Volume.fileName_of_open hopen hfile
  rw [hname]
  exact Volume.printable_native (pathParserParse_nameChar hnul hparse _ (List.getLast_mem hpath))

theorem length_fileName : file.entry.fileName.length = 11 := by
  obtain ⟨path, heap, fuel, mode, fd, dev', heap', -, hopen, hfile⟩ := file.opened
  obtain ⟨hpath, hname⟩ := Volume.fileName_of_open hopen hfile
  rw [hname]
  exact PathNode.length_native _

/-- What a seek takes for the address of a directory entry is below the kernel. -/
theorem load_lt_heap {mem : Mem} (hmem : file.InMemory mem) :
    mem.load 4 file.address + 28 < kernelHeapStart := by
  have hlen := file.length_fileName
  have hbyte : ∀ i < 4, (mem (file.address + i)).toNat < 127 := by
    intro i hi
    have hlt : i < file.entry.fileName.length := by omega
    have hget : file.entry.fileName[i] = file.entry.bytes.getD i 0 := by
      have hlt' : i < file.entry.bytes.length := by
        rw [DirEntry.fileName, List.length_take] at hlt
        omega
      rw [List.getD_eq_getElem?_getD, List.getElem?_eq_getElem hlt', Option.getD_some]
      exact List.getElem_take
    rw [hmem i (by omega), ← hget]
    exact (file.printable _ (List.getElem_mem hlt)).2
  have h₀ := hbyte 0 (by omega)
  have h₁ := hbyte 1 (by omega)
  have h₂ := hbyte 2 (by omega)
  have h₃ := hbyte 3 (by omega)
  have hstart : kernelHeapStart = 0xC1000000 := rfl
  rw [Nat.add_zero] at h₀
  simp only [Mem.load, Nat.add_assoc, Nat.reduceAdd]
  omega

theorem seek_looked (mem : Mem) (pos offset origin : Nat) :
    (file.seek mem pos offset origin).looked
      = [(file.address, 4), (u32 (mem.load 4 file.address + 28), 4)] := by
  unfold seek fat16Seek
  simp only
  split_ifs <;> rfl

/-- A seek does not look at the directory entry only. -/
theorem not_looksAtEntry {mem : Mem} (hmem : file.InMemory mem) (pos offset origin : Nat) :
    ¬ file.LooksAtEntry (file.seek mem pos offset origin) := by
  intro hlooks
  have hlow := file.load_lt_heap hmem
  have hheap := file.inHeap
  have hlooked : (u32 (mem.load 4 file.address + 28), 4)
      ∈ (file.seek mem pos offset origin).looked := by
    rw [file.seek_looked]
    exact List.mem_cons_of_mem _ List.mem_cons_self
  obtain ⟨hge, -⟩ := hlooks _ hlooked
  have hle := Nat.mod_le (mem.load 4 file.address + 28) (2 ^ 32)
  simp only [u32] at hge
  omega

/-! ## What a seek does to the position -/

/-- The size a seek of the file compares the offset with -/
def sizeSeen (mem : Mem) : Nat := mem.load 4 (u32 (mem.load 4 file.address + 28))

theorem seek_eq (mem : Mem) (pos offset origin : Nat) :
    file.seek mem pos offset origin =
      let looked := [(file.address, 4), (u32 (mem.load 4 file.address + 28), 4)]
      if file.sizeSeen mem ≤ offset then ⟨-eio, pos, looked⟩
      else if origin = seekSet then ⟨0, offset, looked⟩
      else if origin = seekEnd then ⟨enoent, pos, looked⟩
      else if origin = seekCur then ⟨0, u32 (pos + offset), looked⟩
      else ⟨-einval, pos, looked⟩ := rfl

theorem seek_refused {mem : Mem} {offset : Nat} (h : file.sizeSeen mem ≤ offset) (pos origin : Nat) :
    (file.seek mem pos offset origin).res = -eio ∧
      (file.seek mem pos offset origin).pos = pos := by
  rw [seek_eq, if_pos h]
  exact ⟨rfl, rfl⟩

theorem seek_set {mem : Mem} {offset : Nat} (h : offset < file.sizeSeen mem) (pos : Nat) :
    (file.seek mem pos offset seekSet).res = 0 ∧
      (file.seek mem pos offset seekSet).pos = offset := by
  rw [seek_eq, if_neg (Nat.not_le.mpr h), if_pos rfl]
  exact ⟨rfl, rfl⟩

theorem seek_end {mem : Mem} {offset : Nat} (h : offset < file.sizeSeen mem) (pos : Nat) :
    (file.seek mem pos offset seekEnd).res = enoent := by
  rw [seek_eq, if_neg (Nat.not_le.mpr h), if_neg (by decide), if_pos rfl]

theorem seek_cur {mem : Mem} {offset : Nat} (h : offset < file.sizeSeen mem) (pos : Nat) :
    (file.seek mem pos offset seekCur).res = 0 ∧
      (file.seek mem pos offset seekCur).pos = u32 (pos + offset) := by
  rw [seek_eq, if_neg (Nat.not_le.mpr h), if_neg (by decide), if_neg (by decide), if_pos rfl]
  exact ⟨rfl, rfl⟩

theorem seek_other {mem : Mem} {offset origin : Nat} (h : offset < file.sizeSeen mem) (pos : Nat)
    (hset : origin ≠ seekSet) (hcur : origin ≠ seekCur) (hend : origin ≠ seekEnd) :
    (file.seek mem pos offset origin).res = -einval ∧
      (file.seek mem pos offset origin).pos = pos := by
  rw [seek_eq, if_neg (Nat.not_le.mpr h), if_neg hset, if_neg hend, if_neg hcur]
  exact ⟨rfl, rfl⟩

/-- A seek that fails with a negative value and leaves the position, where no seek has to
    succeed -/
theorem keepsPosition_of_error {pos offset origin : Nat} {r : SeekResult}
    (hset : origin = seekSet → file.entry.fileSize ≤ offset) (hres : IsError r.res)
    (hpos : r.pos = pos) : file.KeepsPosition pos offset origin r where
  set h hlt := absurd hlt (Nat.not_lt.mpr (hset h))
  unsupported _ _ _ hzero := by
    rw [hzero] at hres
    exact absurd hres (by decide)
  failing _ := ⟨hres, hpos⟩
  bound hzero := by
    rw [hzero] at hres
    exact absurd hres (by decide)

/-- A seek treats the position as it should exactly when the size it has seen decides for
    the offset as the size of the file does; relative to the end it has to fail. -/
theorem keepsPosition_iff (mem : Mem) (pos offset origin : Nat) :
    file.KeepsPosition pos offset origin (file.seek mem pos offset origin) ↔
      (origin = seekSet → (offset < file.entry.fileSize → offset < file.sizeSeen mem) ∧
        (offset < file.sizeSeen mem → offset ≤ file.entry.fileSize)) ∧
      (origin = seekEnd → file.sizeSeen mem ≤ offset) ∧
      (origin = seekCur → offset < file.sizeSeen mem →
        u32 (pos + offset) ≤ file.entry.fileSize) := by
  have heio : IsError (-eio) := by decide
  have heinval : IsError (-einval) := by decide
  rcases Nat.lt_or_ge offset (file.sizeSeen mem) with hlt | hge
  · by_cases hset : origin = seekSet
    · subst hset
      obtain ⟨hres, hpos⟩ := file.seek_set hlt pos
      constructor
      · intro h
        refine ⟨fun _ => ⟨fun _ => hlt, fun _ => ?_⟩, nofun, nofun⟩
        exact hpos ▸ h.bound hres
      · rintro ⟨h, -⟩
        exact ⟨fun _ _ => ⟨hres, hpos⟩, fun hne => absurd rfl hne, fun hne => absurd hres hne,
          fun _ => hpos.symm ▸ (h rfl).2 hlt⟩
    by_cases hend : origin = seekEnd
    · subst hend
      have hres := file.seek_end hlt pos
      constructor
      · intro h
        -- the error is a positive value
        have herr := (h.failing (by rw [hres]; decide)).1
        rw [hres] at herr
        exact absurd herr (by decide)
      · rintro ⟨-, h, -⟩
        exact absurd (h rfl) (Nat.not_le.mpr hlt)
    by_cases hcur : origin = seekCur
    · subst hcur
      obtain ⟨hres, hpos⟩ := file.seek_cur hlt pos
      constructor
      · intro h
        refine ⟨nofun, nofun, fun _ _ => ?_⟩
        rw [← hpos]
        exact h.bound hres
      · rintro ⟨-, -, h⟩
        exact ⟨nofun, fun _ hne => absurd rfl hne, fun hne => absurd hres hne,
          fun _ => hpos.symm ▸ h rfl hlt⟩
    · obtain ⟨hres, hpos⟩ := file.seek_other hlt pos hset hcur hend
      refine iff_of_true (file.keepsPosition_of_error (fun h => absurd h hset) (hres ▸ heinval) hpos)
        ⟨fun h => absurd h hset, fun h => absurd h hend, fun h => absurd h hcur⟩
  · obtain ⟨hres, hpos⟩ := file.seek_refused hge pos origin
    have herr : IsError (file.seek mem pos offset origin).res := hres ▸ heio
    constructor
    · intro h
      refine ⟨fun hset => ⟨fun hin => ?_, fun hlt => absurd hlt (Nat.not_lt.mpr hge)⟩, fun _ => hge,
        fun _ hlt => absurd hlt (Nat.not_lt.mpr hge)⟩
      have hzero := (h.set hset hin).1
      rw [hzero] at herr
      exact absurd herr (by decide)
    · rintro ⟨h, -, -⟩
      exact file.keepsPosition_of_error
        (fun hset => Nat.not_lt.mp fun hin => Nat.not_lt.mpr hge ((h hset).1 hin)) herr hpos

/-! ## Runs -/

/-- Only a seek can have succeeded. -/
theorem exists_seek_of_sought {pos : Nat} {calls : List SeekCall} {s : SeekState}
    (hrun : Runs file.step file.Finds ⟨pos, false⟩ calls s) (hsought : s.sought = true) :
    ∃ call ∈ calls, call.isSeek = true := by
  induction hrun with
  | nil => cases hsought
  | @snoc calls s s' call _ _ hstep ih =>
      cases call with
      | seek mem offset origin =>
          exact ⟨_, List.mem_append_right _ (List.mem_singleton_self _), rfl⟩
      | read dev nBytes nBlocks =>
          obtain ⟨r, -, rfl⟩ := Option.map_eq_some_iff.mp hstep
          obtain ⟨call, hcall, hseek⟩ := ih hsought
          exact ⟨call, List.mem_append_left _ hcall, hseek⟩

/-- Calls that have been made treat the position as they should exactly when no seek is
    among them. -/
theorem seeksRight_iff (pos : Nat) (calls : List SeekCall) (s : SeekState)
    (hrun : Runs file.step file.Finds ⟨pos, false⟩ calls s) :
    file.SeeksRight pos calls ↔ ∀ call ∈ calls, call.isSeek = false := by
  constructor
  · intro hright call hcall
    cases call with
    | read dev nBytes nBlocks => rfl
    | seek mem offset origin =>
        obtain ⟨before, after, rfl⟩ := List.append_of_mem hcall
        obtain ⟨s₁, hbefore, hlater⟩ := hrun.of_append
        -- the seek has found the entry in memory
        have hmem : file.InMemory mem := hlater.of_cons.1
        exact absurd (hright.1 before mem offset origin after s₁ rfl hbefore).1
          (file.not_looksAtEntry hmem s₁.pos offset origin)
  · intro hnone
    refine ⟨fun before mem offset origin after s hcalls _ => ?_,
      fun before after s hcalls hbefore hsought => ?_⟩
    · have hseek := hnone (.seek mem offset origin) (hcalls ▸ List.mem_append_right before
        List.mem_cons_self)
      cases hseek
    · obtain ⟨call, hcall, hseek⟩ := file.exists_seek_of_sought hbefore hsought
      rw [hnone call (hcalls ▸ List.mem_append_left after hcall)] at hseek
      cases hseek

end SeekFile

/-! ## A file of five bytes -/

/-- `deepDisk` with the file `D` of five bytes in the root directory -/
def sizedDisk : Mem :=
  deepDisk.write 0x104220 ((letterEntry 68 attrArchive 5).set 28 5)

theorem sizedDisk_mounted : (fat16Resolve ⟨sizedDisk, fun _ => 0⟩).isSome = true := by
  decide +kernel

/-- The volume on `sizedDisk` -/
def sizedVolume : Volume where
  dev := ⟨sizedDisk, fun _ => 0⟩
  bpb := (fat16Resolve ⟨sizedDisk, fun _ => 0⟩).get sizedDisk_mounted
  mounted := (Option.some_get sizedDisk_mounted).symm

/-- `"A:/D"`, parsed -/
def sizedPath : PathNode := ⟨emptyNode.identifier.write 0 [68]⟩

theorem sizedPath_parsed : FromParser [sizedPath] :=
  ⟨[65, 58, 47, 68], _, _, by decide, rfl, rfl⟩

def sizedEntry : DirEntry := ⟨(letterEntry 68 attrArchive 5).set 28 5⟩

theorem sizedNode : fat16GetNodeFromPath sizedVolume.bpb sizedVolume.dev 0 [sizedPath]
    = some (some (.file sizedEntry)) := by
  have hlookup : (fat16GetRootDirEntry sizedVolume.bpb sizedVolume.dev sizedPath).1 = sizedEntry := by
    decide +kernel
  have hmark : u32 ((fat16GetRootDirEntry sizedVolume.bpb sizedVolume.dev sizedPath).2.endSector
      + 2 ^ 32 - (fat16GetRootDirEntry sizedVolume.bpb sizedVolume.dev sizedPath).2.startSector)
      ≠ 32 := by
    decide +kernel
  have hfirst : sizedEntry.first ≠ 0 := by decide
  have hdir : sizedEntry.isDirectory = false := by decide
  have harchive : sizedEntry.isArchive = true := by decide
  rw [fat16GetNodeFromPath]
  rcases hentry : fat16GetRootDirEntry sizedVolume.bpb sizedVolume.dev sizedPath with ⟨entry, folder⟩
  rw [hentry] at hlookup hmark
  obtain rfl : entry = sizedEntry := hlookup
  simp only [hmark, hfirst, hdir, harchive, if_false, if_true, ne_eq, not_false_eq_true,
    Bool.false_eq_true, and_false, and_self]

/-- The file `D`, with its entry at the start of the kernel heap -/
def sizedFile : SeekFile sizedVolume where
  entry := sizedEntry
  address := kernelHeapStart
  opened := by
    refine ⟨[sizedPath], .empty, 0, .read, ?_⟩
    rw [fat16Open, if_neg fun h => h.1 rfl, if_neg (List.cons_ne_nil _ _), sizedNode]
    exact ⟨_, _, _, sizedPath_parsed, rfl, rfl⟩
  inHeap := Nat.le_refl _

/-- Memory with that entry in it, and zeros elsewhere -/
def sizedMem : Mem := Mem.write (fun _ => 0) kernelHeapStart sizedEntry.bytes

theorem sizedMem_inMemory : sizedFile.InMemory sizedMem := by
  intro i _
  have hle : kernelHeapStart ≤ kernelHeapStart + i := Nat.le_add_right _ _
  have haddr : sizedFile.address = kernelHeapStart := rfl
  have hentry : sizedFile.entry = sizedEntry := rfl
  rw [haddr, hentry, sizedMem, Mem.write, if_pos hle, Nat.add_sub_cancel_left,
    List.getD_eq_getElem?_getD]

theorem sized_run : Runs sizedFile.step sizedFile.Finds ⟨0, false⟩ [.seek sizedMem 2 seekSet]
    ⟨0, false⟩ :=
  .cons sizedMem_inMemory (by decide +kernel) .nil

/-- A seek to the third byte -/
theorem seeksRight_sized : sizedFile.SeeksRight 0 [.seek sizedMem 2 seekSet] ↔
    ∀ call ∈ [SeekCall.seek sizedMem 2 seekSet], call.isSeek = false :=
  sizedFile.seeksRight_iff 0 _ _ sized_run

/-- It is refused: the offset is compared with what is at another address. -/
theorem exists_seek_refused : ¬ ∀ (vol : Volume) (file : SeekFile vol) (pos : Nat)
    (calls : List SeekCall) (s : SeekState),
    Runs file.step file.Finds ⟨pos, false⟩ calls s → file.SeeksRight pos calls := by
  intro hall
  obtain ⟨hseeks, -⟩ := hall sizedVolume sizedFile 0 _ _ sized_run
  have hkeeps := (hseeks [] sizedMem 2 seekSet [] ⟨0, false⟩ rfl .nil).2
  have hin : 2 < sizedFile.entry.fileSize := by decide +kernel
  have hres := (hkeeps.set rfl hin).1
  revert hres
  decide +kernel

end Icarius
