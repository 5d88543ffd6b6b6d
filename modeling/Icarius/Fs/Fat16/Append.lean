/-
  Icarius.Fs.Fat16.Append

  Two writes on one descriptor.  `fat16_write` does not look at the position of the
  descriptor, and starts with the first cluster of the file each time: the second write
  goes over the first one.
-/

import Icarius.Fs.Fat16.WriteEntry

namespace Icarius

open Icarius.Lib

/-! ## Bytes written over others -/

/-- `b`, written over the start of `a` and of the bytes `old` behind `a`, leaves `a` and
    `b` in a row. -/
structure StartsOver (a b old : List UInt8) : Prop where
  room : a.length + b.length ≤ old.length
  begins : b <+: a ++ b
  behind : ∀ i, a.length ≤ i → b.length ≤ i → i < a.length + b.length → old[i]? = (a ++ b)[i]?

theorem startsOver_iff {a b old : List UInt8} (ha : a.length ≤ old.length)
    (hb : b.length ≤ old.length) :
    (b ++ (a ++ old.drop a.length).drop b.length).take (a.length + b.length) = a ++ b
      ↔ StartsOver a b old := by
  -- what the file reads after both writes, position by position
  have hget : ∀ i, (b ++ (a ++ old.drop a.length).drop b.length)[i]?
      = if i < b.length then b[i]? else if i < a.length then a[i]? else old[i]? := by
    intro i
    split
    · exact List.getElem?_append_left (by assumption)
    · rw [List.getElem?_append_right (by omega), List.getElem?_drop,
        Nat.add_sub_cancel' (by omega)]
      split
      · exact List.getElem?_append_left (by assumption)
      · rw [List.getElem?_append_right (by omega), List.getElem?_drop,
          Nat.add_sub_cancel' (by omega)]
  have hlen : (b ++ (a ++ old.drop a.length).drop b.length).length = old.length := by
    simp only [List.length_append, List.length_drop]
    omega
  constructor
  · intro h
    have hat : ∀ i < a.length + b.length,
        (b ++ (a ++ old.drop a.length).drop b.length)[i]? = (a ++ b)[i]? := by
      intro i hi
      rw [← h, List.getElem?_take_of_lt hi]
    refine ⟨?_, ?_, ?_⟩
    · have hlength := congrArg List.length h
      rw [List.length_take, hlen, List.length_append] at hlength
      omega
    · rw [List.prefix_iff_getElem?]
      intro i hi
      rw [← hat i (by omega), hget, if_pos hi, List.getElem?_eq_getElem hi]
    · intro i hla hlb hi
      rw [← hat i hi, hget, if_neg (by omega), if_neg (by omega)]
  · intro h
    apply List.ext_getElem?
    intro i
    -- up to the end of both texts the positions are compared, behind it there are none
    by_cases hi : i < a.length + b.length
    · rw [List.getElem?_take_of_lt hi, hget]
      split
      · rename_i hlt
        rw [List.prefix_iff_getElem?.mp h.begins i hlt, List.getElem?_eq_getElem hlt]
      · split
        · rw [List.getElem?_append_left (by assumption)]
        · exact h.behind i (by omega) (by omega) hi
    · rw [List.getElem?_eq_none, List.getElem?_eq_none]
      · rw [List.length_append]
        omega
      · rw [List.length_take]
        omega

/-- A list without its first elements -/
theorem filter_notMem_take {α : Type} [DecidableEq α] {l : List α} (h : l.Nodup) (k : Nat) :
    l.filter (fun x => decide (x ∉ l.take k)) = l.drop k := by
  obtain ⟨hfirst, hrest, hdisj⟩ : (l.take k).Nodup ∧ (l.drop k).Nodup ∧
      List.Disjoint (l.take k) (l.drop k) := by
    rw [← List.nodup_append']
    rw [List.take_append_drop]
    exact h
  have hsplit : l.filter (fun x => decide (x ∉ l.take k))
      = (l.take k ++ l.drop k).filter (fun x => decide (x ∉ l.take k)) := by
    rw [List.take_append_drop]
  rw [hsplit, List.filter_append]
  have hnone : (l.take k).filter (fun x => decide (x ∉ l.take k)) = [] := by
    rw [List.filter_eq_nil_iff]
    intro x hx
    simpa using hx
  have hall : (l.drop k).filter (fun x => decide (x ∉ l.take k)) = l.drop k := by
    rw [List.filter_eq_self]
    intro x hx
    simpa using fun hmem => hdisj hmem hx
  rw [hnone, hall, List.nil_append]

namespace Volume

variable {vol : Volume}

/-! ## The free clusters after a write -/

theorem Written.freeClusters {disk disk' : Mem} {start k : Nat} {cs : List Nat}
    {bytes : List UInt8}
    (h : vol.Written disk start cs ((vol.freeClusters disk).take k) bytes disk')
    (hchain : vol.FileChain disk start cs) :
    vol.freeClusters disk' = (vol.freeClusters disk).drop k := by
  have hmax : fat16MaxClusters = 65525 := rfl
  have hnodup : (vol.freeClusters disk).Nodup := List.Nodup.filter _ List.nodup_range'
  rw [← filter_notMem_take hnodup k]
  conv_rhs => rw [Volume.freeClusters, List.filter_filter]
  rw [Volume.freeClusters]
  apply List.filter_congr
  intro c hc
  have hlt := (List.mem_range'_1.mp hc).2
  rw [Bool.eq_iff_iff, Bool.and_eq_true, beq_iff_eq, beq_iff_eq, decide_eq_true_iff]
  by_cases hnew : c ∈ (vol.freeClusters disk).take k
  · -- it has been linked
    have hused := h.chain.not_free (List.mem_append_right cs hnew)
    constructor
    · exact fun hfree => absurd hfree hused
    · exact fun hboth => absurd hnew hboth.1
  · by_cases hin : c ∈ cs
    · have hused := h.chain.not_free (List.mem_append_left _ hin)
      have hbefore := hchain.not_free hin
      constructor
      · exact fun hfree => absurd hfree hused
      · exact fun hboth => absurd hboth.2 hbefore
    · rw [h.fat c (by omega) hnew fun hlast => absurd (List.mem_of_getLast? hlast) hin]
      exact ⟨fun hfree => ⟨hnew, hfree⟩, And.right⟩

/-! ## Clusters given back -/

/-- Entries of the FAT have been set to an end mark or to free, and nothing else has
    changed. -/
structure FatCut (vol : Volume) (disk disk' : Mem) : Prop where
  fat : ∀ c < 65536, vol.fatOn disk' c = vol.fatOn disk c ∨ vol.fatOn disk' c = fat16ValueFree ∨
    fat16ValueEndOfChain ≤ vol.fatOn disk' c
  frame : ∀ x, x < vol.fatPos 2 ∨ vol.fatPos fat16MaxClusters ≤ x → disk' x = disk x

namespace FatCut

variable {disk disk₁ disk₂ : Mem}

theorem refl (disk : Mem) : vol.FatCut disk disk := ⟨fun _ _ => .inl rfl, fun _ _ => rfl⟩

theorem trans (h : vol.FatCut disk disk₁) (h' : vol.FatCut disk₁ disk₂) : vol.FatCut disk disk₂ where
  fat := by
    intro c hc
    rcases h'.fat c hc with heq | hcut
    · rw [heq]
      exact h.fat c hc
    · exact .inr hcut
  frame := fun x hx => (h'.frame x hx).trans (h.frame x hx)

theorem create (dev : Ata) (c : Nat) {value : Nat}
    (hvalue : value = fat16ValueFree ∨ value = fat16ValueEndOfChain) :
    vol.FatCut dev.disk (fat16CreateFatEntry vol.bpb dev c value).2.disk := by
  have hmax : fat16MaxClusters = 65525 := rfl
  have hmark : fat16ValueEndOfChain = 0xFFF8 := rfl
  have hfree : fat16ValueFree = 0 := rfl
  by_cases hout : c < 2 ∨ c ≥ fat16MaxClusters
  · rw [fat16CreateFatEntry, if_pos hout]
    exact refl dev.disk
  · rw [vol.createFatEntry_on dev value (by omega) (by omega)]
    refine ⟨fun x _ => ?_, fun x hx => ?_⟩
    · by_cases hx : x = c
      · subst hx
        right
        rw [vol.setFat_self _ _ (by omega)]
        omega
      · exact .inl (vol.setFat_of_ne _ _ hx)
    · apply vol.setFat_apply
      simp only [fatPos] at hx ⊢
      omega

theorem freeChain {fatTableOffset lookups : Nat} {dev dev' : Ata} {c : Nat}
    (h : Icarius.freeChain vol.bpb fatTableOffset lookups dev c = some dev') :
    vol.FatCut dev.disk dev'.disk := by
  induction lookups generalizing dev c with
  | zero => cases h
  | succ lookups ih =>
      rw [Icarius.freeChain] at h
      split at h
      · exact (create dev c (.inl rfl)).trans (ih h)
      · rw [← Option.some.inj h]
        exact refl dev.disk

theorem givenBack {dev dev' : Ata} {lookups last required existing : Nat}
    (h : Volume.givenBack vol.bpb dev lookups last required existing = some dev') :
    vol.FatCut dev.disk dev'.disk := by
  rw [Volume.givenBack] at h
  split at h
  · rw [fat16FreeUnusedClusters] at h
    split at h
    · rw [← Option.some.inj h]
      exact refl dev.disk
    · simp only at h
      split at h
      · rw [← Option.some.inj h]
        exact refl dev.disk
      · exact (create dev _ (.inr rfl)).trans (freeChain h)
  · rw [← Option.some.inj h]
    exact refl dev.disk

end FatCut

/-- What is left of a chain after that -/
theorem FileChain.cut {disk disk' : Mem} {c : Nat} {cs cs' : List Nat}
    (h : vol.FileChain disk c cs)
    (hcut : ∀ x ∈ cs, vol.fatOn disk' x = vol.fatOn disk x ∨ vol.fatOn disk' x = fat16ValueFree ∨
      fat16ValueEndOfChain ≤ vol.fatOn disk' x)
    (h' : vol.FileChain disk' c cs') : cs' <+: cs := by
  have hmax : fat16MaxClusters = 65525 := rfl
  have hmark : fat16ValueEndOfChain = 0xFFF8 := rfl
  have hfree : fat16ValueFree = 0 := rfl
  induction h generalizing cs' with
  | @last c _ hend =>
      cases h' with
      | last => exact List.prefix_refl _
      | link _ hrest =>
          have hlive := hrest.live_head
          have hcases := hcut c (List.mem_singleton_self c)
          omega
  | @link c cs _ hrest ih =>
      cases h' with
      | last => exact ⟨cs, rfl⟩
      | @link _ rest' hlive' hrest' =>
          have hlive := hrest'.live_head
          have hsame : vol.fatOn disk' c = vol.fatOn disk c := by
            have hcases := hcut c List.mem_cons_self
            omega
          rw [hsame] at hrest'
          obtain ⟨more, hmore⟩ := ih (fun x hx => hcut x (List.mem_cons_of_mem c hx)) hrest'
          exact ⟨more, by rw [List.cons_append, hmore]⟩

/-! ## The update of the entry -/

/-- The entry `e` may have been put into one of the cells of the search; the rest of the
    disk has not changed. -/
structure EntryWritten (vol : Volume) (disk disk' : Mem) (cells : Set Nat) (e : DirEntry) :
    Prop where
  fat : ∀ c < 65536, vol.fatOn disk' c = vol.fatOn disk c
  data : ∀ c, 2 ≤ c → c ∉ cells → vol.dataOn disk' c = vol.dataOn disk c
  root : ∀ k < vol.bpb.rootEntCnt,
    diskEntry disk' (vol.rootPos + 32 * k) = diskEntry disk (vol.rootPos + 32 * k) ∨
      diskEntry disk' (vol.rootPos + 32 * k) = e

section Steps

variable (hspc : vol.bpb.secPerClus ≤ 64) (hfat : 256 ≤ vol.bpb.fatsz16)
include hspc hfat

theorem writeEntry_frame {dev : Ata} {cells : Set Nat} (hs : vol.Searched dev.disk cells)
    {lookups n : Nat} {now : Stamp} {e : DirEntry} {r : WriteResult} (hlen : e.bytes.length = 32)
    (h : fat16WriteEntry vol.bpb dev lookups now e n = some r) (hres : 0 < r.res.toInt) :
    (r.fileEntry = e ∨ r.fileEntry = e.grown n now) ∧
      vol.EntryWritten dev.disk r.dev.disk cells r.fileEntry := by
  rcases (writeEntry_cases hlen h hres).2 with ⟨-, hdev, he⟩ | ⟨-, q, hq, hfound, he, hdev⟩
  · refine ⟨.inl he, ?_⟩
    rw [hdev]
    exact ⟨fun _ _ => rfl, fun _ _ _ => rfl, fun _ _ => .inl rfl⟩
  · have hgrown := DirEntry.length_grown n now hlen
    have hqmod := hs.aligned hspc hfat hfound hq
    obtain ⟨c, hc, i, hi, hqpos⟩ := searchEntry_pos hspc hfat hs hfound hq
    rw [writeAt_entry dev hgrown hqmod] at hdev
    refine ⟨.inr he, ?_⟩
    rw [hdev, he]
    refine ⟨fun x hx => ?_, fun x hlow hx => ?_, fun k hk => ?_⟩
    · apply Mem.load_congr
      apply Mem.agree_write
      have hle := fatPos_le_searchPos hspc hfat c (x := 65536) (Nat.le_refl 65536)
      simp only [fatPos] at hle ⊢
      omega
    · have hout : vol.clusterPos x + vol.clusterBytes ≤ vol.searchPos c ∨
          vol.searchPos c + vol.clusterBytes ≤ vol.clusterPos x := by
        rcases hs.bounds c hc with rfl | ⟨hclow, -⟩
        · exact .inr (searchPos_zero_le hspc x)
        · rw [searchPos_of_ge hclow]
          refine vol.clusterPos_disjoint hlow hclow ?_
          rintro rfl
          exact hx hc
      apply vol.dataOn_congr
      intro j hj
      rcases hout with hout | hout
      · exact Mem.write_of_lt (by omega)
      · exact Mem.write_of_ge (by omega)
    · by_cases hat : vol.rootPos + 32 * k = q
      · right
        rw [hat]
        exact diskEntry_write_self dev.disk q hgrown
      · left
        have hmod : (vol.rootPos + 32 * k) % 32 = 0 := by
          simp only [rootPos, partitionOffset]
          omega
        exact diskEntry_write_of_ne dev.disk hgrown hmod hqmod.1 hat

end Steps

theorem Directories.entryWritten {disk disk' : Mem} {dirs cells : Set Nat} {e : DirEntry}
    (h : vol.Directories disk dirs) (hw : vol.EntryWritten disk disk' cells e)
    (he : e.isDirectory = false) : vol.Directories disk' dirs where
  bounds := h.bounds
  next := by
    intro c hc
    rw [hw.fat c (h.searched.lt (Set.mem_insert_of_mem 0 hc))]
    exact h.next c hc
  mark := by
    rw [hw.fat 0 (by decide)]
    exact h.mark
  root := by
    intro k hk
    rcases hw.root k hk with heq | heq
    · rw [heq]
      exact h.root k hk
    · intro hdir
      rw [heq, he] at hdir
      cases hdir

theorem Directories.congr {disk disk' : Mem} {dirs : Set Nat} (h : vol.Directories disk dirs)
    (hsame : vol.SameSearch disk disk' (insert 0 dirs)) : vol.Directories disk' dirs where
  bounds := h.bounds
  next := by
    intro c hc
    rw [hsame.fat c (Set.mem_insert_of_mem 0 hc)]
    exact h.next c hc
  mark := by
    rw [hsame.fat 0 (Set.mem_insert 0 dirs)]
    exact h.mark
  root := by
    intro k hk
    have hentry : diskEntry disk' (vol.rootPos + 32 * k) = diskEntry disk (vol.rootPos + 32 * k) := by
      apply diskEntry_congr
      intro i hi
      rw [Nat.add_assoc]
      exact hsame.root _ (by omega)
    rw [hentry]
    exact h.root k hk

theorem Searched.cut {disk disk' : Mem} {cells : Set Nat} (hfat : 256 ≤ vol.bpb.fatsz16)
    (h : vol.Searched disk cells) (hcut : vol.FatCut disk disk') : vol.Searched disk' cells where
  zero := h.zero
  bounds := h.bounds
  next := by
    intro c hc hlive
    rcases hcut.fat c (h.lt hc) with heq | hfree | hend
    · rw [heq] at hlive ⊢
      exact h.next c hc hlive
    · rw [hfree]
      exact h.zero
    · omega
  root := by
    intro k hk
    have hentry : diskEntry disk' (vol.rootPos + 32 * k) = diskEntry disk (vol.rootPos + 32 * k) := by
      apply diskEntry_congr
      intro i _
      apply hcut.frame
      have hle := (fatEnd_le hfat 0).1
      omega
    rw [hentry]
    exact h.root k hk

/-! ## One write on an open file -/

/-- An open file: its chain, and that none of its clusters belongs to a directory. -/
structure FileOn (vol : Volume) (disk : Mem) (dirs : Set Nat) (e : DirEntry) (cs : List Nat) :
    Prop where
  length : e.bytes.length = 32
  file : e.isDirectory = false
  chain : vol.FileChain disk (entryCluster e) cs
  tree : vol.Directories disk dirs
  apart : ∀ c ∈ cs, c ∉ dirs

/-- What a write leaves, with the clusters `new` linked behind the chain: `disk₁` is the disk
    after the data, before clusters are given back and the entry is updated. -/
structure Rewritten (vol : Volume) (disk disk₁ disk' : Mem) (dirs : Set Nat) (e : DirEntry)
    (cs new : List Nat) (bytes : List UInt8) : Prop where
  chain : vol.FileChain disk₁ (entryCluster e) (cs ++ new)
  cut : ∀ c < 65536, vol.fatOn disk' c = vol.fatOn disk₁ c ∨ vol.fatOn disk' c = fat16ValueFree ∨
    fat16ValueEndOfChain ≤ vol.fatOn disk' c
  content : (cs ++ new).flatMap (vol.dataOn disk')
    = bytes ++ ((cs ++ new).flatMap (vol.dataOn disk)).drop bytes.length
  data : ∀ c, 2 ≤ c → c ∉ cs ++ new → c ∉ dirs → vol.dataOn disk' c = vol.dataOn disk c

section Write

variable (hspc : vol.bpb.secPerClus ≤ 64) (hfat : 256 ≤ vol.bpb.fatsz16)
include hspc hfat

theorem FileOn.write {dev : Ata} {dirs : Set Nat} {e : DirEntry} {cs : List Nat}
    (h : vol.FileOn dev.disk dirs e cs) {lookups nBytes nBlocks : Nat} {now : Stamp} {buffer : Mem}
    {r : WriteResult} (hlookups : 65536 ≤ lookups)
    (hwrite : fat16Write vol.bpb dev lookups now e buffer nBytes nBlocks = .ok r)
    (hres : 0 < r.res.toInt) :
    HasClusters vol dev.disk (requiredClusters vol.bpb nBytes - cs.length) (cs.length - 1)
      (bytesOf buffer nBytes nBlocks).length ∧
    ∃ disk₁ k, k = vol.needed (bytesOf buffer nBytes nBlocks).length - cs.length ∧
      vol.Rewritten dev.disk disk₁ r.dev.disk dirs e cs ((vol.freeClusters dev.disk).take k)
        (bytesOf buffer nBytes nBlocks) ∧
      entryCluster r.fileEntry = entryCluster e ∧
      (cs.length ≤ requiredClusters vol.bpb nBytes →
        vol.FileOn r.dev.disk dirs r.fileEntry (cs ++ (vol.freeClusters dev.disk).take k) ∧
        vol.freeClusters r.dev.disk = (vol.freeClusters dev.disk).drop k) := by
  obtain ⟨new, dev₁, last, dev₂, hroom, hnewdef, hwritten, hback, hentry⟩ :=
    fat16Write_ok hspc hfat h.chain hlookups hwrite hres
  refine ⟨hroom, ?_⟩
  -- the bytes and the number of new clusters, by name
  obtain ⟨bytes, hbytes⟩ : ∃ l, l = bytesOf buffer nBytes nBlocks := ⟨_, rfl⟩
  rw [← hbytes] at hwritten hentry hnewdef ⊢
  obtain ⟨k, hk⟩ : ∃ k, k = vol.needed bytes.length - cs.length := ⟨_, rfl⟩
  rw [← hk] at hnewdef
  -- the clusters of the file stay apart from the directories, the new ones were free
  have hapart : ∀ c ∈ cs ++ new, c ∉ dirs := by
    intro c hc hdir
    rcases List.mem_append.mp hc with hc | hc
    · exact h.apart c hc hdir
    · rw [hnewdef] at hc
      exact h.tree.used hdir (vol.mem_freeClusters.mp (List.mem_of_mem_take hc)).2.2
  have hdirs₁ := h.tree.congr (hwritten.sameSearch hspc hfat h.tree hapart)
  have hcut := FatCut.givenBack hback
  have hsearched := hdirs₁.searched.cut hfat hcut
  obtain ⟨he, hupdate⟩ := writeEntry_frame hspc hfat hsearched h.length hentry hres
  have hcluster : entryCluster r.fileEntry = entryCluster e := by
    rcases he with he | he
    · rw [he]
    · rw [he, DirEntry.entryCluster_grown _ now h.length]
  -- giving clusters back writes in the FAT only
  have hdata₂ : ∀ c, 2 ≤ c → vol.dataOn dev₂.disk c = vol.dataOn dev₁.disk c := by
    intro c _
    apply vol.dataOn_congr
    intro i _
    apply hcut.frame
    have hle := (fatEnd_le hfat c).2
    omega
  -- the entry is written in a directory
  have hdata : ∀ c, 2 ≤ c → c ∉ dirs → vol.dataOn r.dev.disk c = vol.dataOn dev₁.disk c := by
    intro c hlow hc
    have hcell : c ∉ insert 0 dirs := by
      rw [Set.mem_insert_iff, not_or]
      exact ⟨by omega, hc⟩
    rw [hupdate.data c hlow hcell, hdata₂ c hlow]
  have hnewmem : ∀ c ∈ cs ++ new, 2 ≤ c ∧ c ∉ dirs := fun c hc =>
    ⟨(hwritten.chain.bounds hc).1, hapart c hc⟩
  have hcontent : (cs ++ new).flatMap (vol.dataOn r.dev.disk)
      = (cs ++ new).flatMap (vol.dataOn dev₁.disk) :=
    List.flatMap_congr fun c hc => hdata c (hnewmem c hc).1 (hnewmem c hc).2
  refine ⟨dev₁.disk, k, hk, ?_, hcluster, fun hkeep => ?_⟩
  · rw [← hnewdef]
    refine ⟨hwritten.chain, fun c hc => ?_, ?_, fun c hlow hc hdir => ?_⟩
    · rw [hupdate.fat c hc]
      exact hcut.fat c hc
    · rw [hcontent, hwritten.content]
    · rw [hdata c hlow hdir, hwritten.data hfat hlow hc]
  · -- nothing is given back
    have hsame : dev₂ = dev₁ := by
      rw [givenBack, if_neg (by omega)] at hback
      exact (Option.some.inj hback).symm
    subst hsame
    have hfile : r.fileEntry.isDirectory = false := by
      rcases he with he | he
      · rw [he, h.file]
      · rw [he, DirEntry.isDirectory_grown _ now h.length, h.file]
    have hlength : r.fileEntry.bytes.length = 32 := by
      rcases he with he | he
      · rw [he, h.length]
      · rw [he, DirEntry.length_grown _ now h.length]
    have hmax : fat16MaxClusters = 65525 := rfl
    rw [← hnewdef]
    refine ⟨⟨hlength, hfile, ?_, hdirs₁.entryWritten hupdate hfile, hapart⟩, ?_⟩
    · rw [hcluster]
      refine hwritten.chain.congr fun x hx => hupdate.fat x ?_
      have hlt := (hwritten.chain.bounds hx).2
      omega
    · rw [vol.freeClusters_congr hupdate.fat]
      rw [hnewdef] at hwritten
      exact hwritten.freeClusters h.chain

end Write

/-! ## Two writes -/

theorem length_content (disk : Mem) (cs : List Nat) :
    (cs.flatMap (vol.dataOn disk)).length = cs.length * vol.clusterBytes := by
  induction cs with
  | nil => rw [List.flatMap_nil, List.length_nil, List.length_nil, Nat.zero_mul]
  | cons c cs ih =>
      rw [List.flatMap_cons, List.length_append, ih, length_dataOn, List.length_cons, Nat.succ_mul,
        Nat.add_comm]

theorem needed_mono {m n : Nat} (h : m ≤ n) : vol.needed m ≤ vol.needed n := by
  apply Nat.div_le_div_right
  omega

theorem needed_max (m n : Nat) : vol.needed (max m n) = max (vol.needed m) (vol.needed n) := by
  rcases Nat.le_total m n with h | h
  · rw [Nat.max_eq_right h, Nat.max_eq_right (needed_mono h)]
  · rw [Nat.max_eq_left h, Nat.max_eq_left (needed_mono h)]

/-- A write that has gone through has data. -/
theorem fat16Write_pos {dev : Ata} {lookups nBytes nBlocks : Nat} {now : Stamp} {e : DirEntry}
    {buffer : Mem} {r : WriteResult}
    (h : fat16Write vol.bpb dev lookups now e buffer nBytes nBlocks = .ok r)
    (hres : 0 < r.res.toInt) : 0 < nBytes ∧ 0 < nBlocks := by
  by_cases hzero : nBytes = 0 ∨ nBlocks = 0
  · rw [fat16Write, if_pos hzero] at h
    obtain rfl := Except.ok.inj h
    exact absurd rfl (not_error_of_pos hres).2.2.1
  · omega

/-- What the clusters that two writes come to hold before the first one: the first cluster
    of the file, and the free ones in their order -/
def before (vol : Volume) (disk : Mem) (start m n : Nat) : List UInt8 :=
  (start :: (vol.freeClusters disk).take (vol.needed (max m n) - 1)).flatMap (vol.dataOn disk)

/-- The clusters of the file from `start` on hold `bytes` first. -/
def Holds (vol : Volume) (disk : Mem) (start : Nat) (bytes : List UInt8) : Prop :=
  ∃ cs, vol.FileChain disk start cs ∧
    (cs.flatMap (vol.dataOn disk)).take bytes.length = bytes

section Twice

variable (hspc : vol.bpb.secPerClus ≤ 64) (hfat : 256 ≤ vol.bpb.fatsz16)
include hspc hfat

/-- After two writes on a file of one cluster, its clusters hold the data of the first and
    of the second one in a row only when the second one starts over with what is there
    already; and then they do, when no cluster is given back. -/
theorem FileOn.write_twice {dev : Ata} {dirs : Set Nat} {e : DirEntry} {start : Nat}
    (h : vol.FileOn dev.disk dirs e [start]) {lookups : Nat} (hlookups : 65536 ≤ lookups)
    {n₁ m₁ n₂ m₂ : Nat} {now₁ now₂ : Stamp} {buffer₁ buffer₂ : Mem} {r₁ r₂ : WriteResult}
    (hfits : n₁ * m₁ < 2 ^ 32)
    (hwrite₁ : fat16Write vol.bpb dev lookups now₁ e buffer₁ n₁ m₁ = .ok r₁)
    (hres₁ : 0 < r₁.res.toInt)
    (hwrite₂ : fat16Write vol.bpb r₁.dev lookups now₂ r₁.fileEntry buffer₂ n₂ m₂ = .ok r₂)
    (hres₂ : 0 < r₂.res.toInt) {a b : List UInt8} (ha : a = bytesOf buffer₁ n₁ m₁)
    (hb : b = bytesOf buffer₂ n₂ m₂) :
    (vol.Holds r₂.dev.disk start (a ++ b) →
      StartsOver a b (vol.before dev.disk start a.length b.length)) ∧
    (vol.needed a.length ≤ requiredClusters vol.bpb n₂ →
      StartsOver a b (vol.before dev.disk start a.length b.length) →
        vol.Holds r₂.dev.disk start (a ++ b)) := by
  have hmax : fat16MaxClusters = 65525 := rfl
  have hcluster := vol.clusterBytes_pos
  have hstart : entryCluster e = start := by
    obtain ⟨rest, hrest⟩ := h.chain.head
    exact (List.cons.inj hrest).1.symm
  -- the first write
  obtain ⟨hn₁, hm₁⟩ := fat16Write_pos hwrite₁ hres₁
  obtain ⟨hroom₁, disk₁, k₁, hk₁, hfirst, hentry₁, hkeep₁⟩ :=
    h.write hspc hfat hlookups hwrite₁ hres₁
  rw [← ha] at hroom₁ hk₁ hfirst
  rw [List.length_singleton] at hroom₁ hk₁ hkeep₁
  have hla : a.length = n₁ * m₁ := by
    rw [ha, length_bytesOf]
    exact Nat.mod_eq_of_lt hfits
  have hle : n₁ ≤ a.length := by
    rw [hla]
    exact Nat.le_mul_of_pos_right n₁ hm₁
  have hfree : (vol.freeClusters dev.disk).length < fat16MaxClusters :=
    length_freeClusters_lt dev.disk
  have hneeded₁ : vol.needed n₁ ≤ vol.needed a.length := needed_mono hle
  have hpos₁ := vol.needed_pos hn₁
  have hhas₁ : vol.needed a.length ≤ 1 + (vol.freeClusters dev.disk).length := by
    rw [HasClusters] at hroom₁
    omega
  have hrequired := vol.requiredClusters_eq hspc (n := n₁) (by omega)
  obtain ⟨hfile, hfree₁⟩ := hkeep₁ (by omega)
  obtain ⟨free, hfreedef⟩ : ∃ l, l = vol.freeClusters dev.disk := ⟨_, rfl⟩
  rw [← hfreedef] at hfile hfirst hfree₁ hhas₁
  obtain ⟨cs₁, hcs₁⟩ : ∃ l, l = [start] ++ free.take k₁ := ⟨_, rfl⟩
  rw [← hcs₁] at hfile
  have hlen₁ : cs₁.length = vol.needed a.length := by
    rw [hcs₁, List.length_append, List.length_singleton, List.length_take]
    omega
  -- the second write
  obtain ⟨hroom₂, disk₂, k₂, hk₂, hsecond, hentry₂, hkeep₂⟩ :=
    hfile.write hspc hfat hlookups hwrite₂ hres₂
  rw [← hb] at hk₂ hsecond hroom₂
  rw [hfree₁] at hsecond hkeep₂
  obtain ⟨new, hnew⟩ : ∃ l, l = (free.drop k₁).take k₂ := ⟨_, rfl⟩
  rw [← hnew] at hsecond hkeep₂
  have hcells : cs₁ ++ new = start :: free.take (vol.needed (max a.length b.length) - 1) := by
    have hcount : vol.needed (max a.length b.length) - 1 = k₁ + k₂ := by
      rw [needed_max]
      omega
    rw [hcount, List.take_add, hcs₁, hnew, List.append_assoc, List.singleton_append]
  have hlen₂ : vol.needed b.length ≤ (cs₁ ++ new).length ∧
      vol.needed a.length ≤ (cs₁ ++ new).length := by
    rw [HasClusters, hfree₁, List.length_drop] at hroom₂
    rw [List.length_append, hnew, List.length_take, List.length_drop]
    omega
  have hsame : new.flatMap (vol.dataOn r₁.dev.disk) = new.flatMap (vol.dataOn dev.disk) := by
    apply List.flatMap_congr
    intro c hc
    have hdrop : c ∈ free.drop k₁ := List.mem_of_mem_take (hnew ▸ hc)
    have hmem : c ∈ vol.freeClusters dev.disk := hfreedef ▸ List.mem_of_mem_drop hdrop
    obtain ⟨hlow, -, hzero⟩ := vol.mem_freeClusters.mp hmem
    refine hfirst.data c (by omega) ?_ fun hdir => h.tree.used hdir hzero
    rw [List.mem_append, List.mem_singleton, not_or]
    refine ⟨?_, fun htake => ?_⟩
    · rintro rfl
      exact h.chain.not_free (List.mem_singleton_self c) hzero
    · have hnodup : (vol.freeClusters dev.disk).Nodup := List.Nodup.filter _ List.nodup_range'
      rw [← hfreedef, ← List.take_append_drop k₁ free, List.nodup_append'] at hnodup
      exact hnodup.2.2 htake hdrop
  obtain ⟨old, hold⟩ : ∃ l, l = vol.before dev.disk start a.length b.length := ⟨_, rfl⟩
  have holdcells : old = cs₁.flatMap (vol.dataOn dev.disk) ++ new.flatMap (vol.dataOn dev.disk) := by
    rw [hold, before, ← hfreedef, ← hcells, List.flatMap_append]
  have hneedle : ∀ l : List UInt8, vol.needed l.length ≤ (cs₁ ++ new).length →
      l.length ≤ old.length := by
    intro l hl
    rw [holdcells, ← List.flatMap_append, length_content]
    exact Nat.le_trans (le_needed l.length) (Nat.mul_le_mul_right _ hl)
  have hcontent₁ : (cs₁ ++ new).flatMap (vol.dataOn r₁.dev.disk) = a ++ old.drop a.length := by
    have hin : a.length ≤ (cs₁.flatMap (vol.dataOn dev.disk)).length := by
      rw [length_content, hlen₁]
      exact le_needed a.length
    have hheld := hfirst.content
    rw [← hcs₁] at hheld
    rw [List.flatMap_append, hheld, hsame, holdcells, List.drop_append_of_le_length hin,
      List.append_assoc]
  have hcontent₂ := hsecond.content
  rw [hcontent₁] at hcontent₂
  have hover := startsOver_iff (hneedle a hlen₂.2) (hneedle b hlen₂.1)
  rw [← hold]
  constructor
  · rintro ⟨cs, hchain, hholds⟩
    have hprefix : cs <+: cs₁ ++ new := by
      refine hsecond.chain.cut (fun x hx => hsecond.cut x ?_) (c := entryCluster r₁.fileEntry) ?_
      · have hlt := (hsecond.chain.bounds hx).2
        omega
      · rw [hentry₁, hstart]
        exact hchain
    obtain ⟨more, hmore⟩ := hprefix
    rw [← hover, ← hcontent₂, ← hmore, List.flatMap_append]
    rw [List.length_append] at hholds
    have hlong : a.length + b.length ≤ (cs.flatMap (vol.dataOn r₂.dev.disk)).length := by
      have hlength := congrArg List.length hholds
      rw [List.length_take, List.length_append] at hlength
      omega
    rw [List.take_append_of_le_length hlong, hholds]
  · intro hkeep hstarts
    obtain ⟨hfile₂, -⟩ := hkeep₂ (by omega)
    refine ⟨cs₁ ++ new, ?_, ?_⟩
    · have hchain := hfile₂.chain
      rwa [hentry₂, hentry₁, hstart] at hchain
    · rw [List.length_append, hcontent₂]
      exact hover.mpr hstarts

end Twice

end Volume

/-! ## `vfs_fwrite` on the drive -/

/-- The drive: its device, `fd->entry->file` of the `fat16_fd_t` at an address, and the
    memory of the buffers -/
structure Drive where
  dev : Ata
  file : Nat → DirEntry
  memory : Mem

/-- `fat16_write` as a callback of the drive; no drive is left by a call that does not come
    back. -/
def Drive.write (bpb : Fat16Header) (lookups : Nat) (now : Stamp) (drive : Option Drive)
    (internal buffer nBytes nBlocks : Nat) : BitVec 32 × Option Drive :=
  match drive with
  | none => (0, none)
  | some drive =>
      match fat16Write bpb drive.dev lookups now (drive.file internal)
        (fun i => drive.memory (buffer + i)) nBytes nBlocks with
      | .error _ => (0, none)
      | .ok r =>
          (r.res, some { drive with
            dev := r.dev, file := Function.update drive.file internal r.fileEntry })

/-- A file system with `fat16_write` as `write_cb` -/
def Fs.withFat16Write (fs : Fs (Option Drive)) (bpb : Fat16Header) (lookups : Nat) (now : Stamp) :
    Fs (Option Drive) :=
  { fs with writeCb := some (Drive.write bpb lookups now) }

/-- What a call of `vfs_fwrite` with a result above zero has done -/
theorem vfsFwrite_drive {fs : Fs (Option Drive)} {bpb : Fat16Header} {lookups : Nat} {now : Stamp}
    {vfs vfs' : Vfs (Option Drive)} {drive : Drive} {slot : Nat} {d : Fd} {fd : Int}
    {buffer nBytes nBlocks : Nat} {res : BitVec 32} (hdev : vfs.device = some drive)
    (hfd : vfs.getFd fd = some (slot, d))
    (h : vfsFwrite (some (fs.withFat16Write bpb lookups now)) vfs buffer nBytes nBlocks fd
      = .ok (res, vfs'))
    (hres : 0 < res.toInt) :
    ∃ r, fat16Write bpb drive.dev lookups now (drive.file d.internal)
        (fun i => drive.memory (buffer + i)) nBytes nBlocks = .ok r ∧ r.res = res ∧
      vfs' = { vfs with device := some { drive with
        dev := r.dev, file := Function.update drive.file d.internal r.fileEntry } } := by
  rw [vfsFwrite] at h
  split at h
  · have heq := congrArg Prod.fst (Except.ok.inj h)
    exact absurd heq.symm (not_error_of_pos hres).2.2.1
  · simp only [vfsOn, hfd, Fs.withFat16Write, hdev, Drive.write] at h
    cases hwrite : fat16Write bpb drive.dev lookups now (drive.file d.internal)
        (fun i => drive.memory (buffer + i)) nBytes nBlocks with
    | error stop =>
        rw [hwrite] at h
        have heq := congrArg Prod.fst (Except.ok.inj h)
        exact absurd heq.symm (not_error_of_pos hres).2.2.2
    | ok r =>
        rw [hwrite] at h
        obtain ⟨heq, hvfs⟩ := Prod.mk.inj (Except.ok.inj h)
        exact ⟨r, rfl, heq, hvfs.symm⟩

/-- Two writes on a descriptor of a file of one cluster leave their data in a row only when
    the second one starts over with what is there already, and then they do, when the
    second one gives no cluster back. -/
theorem second_write_starts_over (vol : Volume) (fs : Fs (Option Drive)) (lookups : Nat)
    (now₁ now₂ : Stamp) (vfs vfs₁ vfs₂ : Vfs (Option Drive)) (drive : Drive) (slot : Nat) (d : Fd)
    (fd : Int) (dirs : Set Nat) (start buffer₁ n₁ m₁ buffer₂ n₂ m₂ : Nat) (res₁ res₂ : BitVec 32)
    (hspc : vol.bpb.secPerClus ≤ 64) (hfat : 256 ≤ vol.bpb.fatsz16) (hlookups : 65536 ≤ lookups)
    (hdev : vfs.device = some drive) (hfd : vfs.getFd fd = some (slot, d))
    (hfile : vol.FileOn drive.dev.disk dirs (drive.file d.internal) [start])
    (hfits : n₁ * m₁ < 2 ^ 32)
    (hfirst : vfsFwrite (some (fs.withFat16Write vol.bpb lookups now₁)) vfs buffer₁ n₁ m₁ fd
      = .ok (res₁, vfs₁))
    (hres₁ : 0 < res₁.toInt)
    (hsecond : vfsFwrite (some (fs.withFat16Write vol.bpb lookups now₂)) vfs₁ buffer₂ n₂ m₂ fd
      = .ok (res₂, vfs₂))
    (hres₂ : 0 < res₂.toInt) :
    let a := bytesOf (fun i => drive.memory (buffer₁ + i)) n₁ m₁
    let b := bytesOf (fun i => drive.memory (buffer₂ + i)) n₂ m₂
    ∃ drive₂, vfs₂.device = some drive₂ ∧
      (vol.Holds drive₂.dev.disk start (a ++ b) →
        StartsOver a b (vol.before drive.dev.disk start a.length b.length)) ∧
      (vol.needed a.length ≤ requiredClusters vol.bpb n₂ →
        StartsOver a b (vol.before drive.dev.disk start a.length b.length) →
          vol.Holds drive₂.dev.disk start (a ++ b)) := by
  intro a b
  obtain ⟨r₁, hwrite₁, hr₁, hvfs₁⟩ := vfsFwrite_drive hdev hfd hfirst hres₁
  have hfd₁ : vfs₁.getFd fd = some (slot, d) := by
    rw [hvfs₁]
    exact hfd
  have hdev₁ := congrArg Vfs.device hvfs₁
  obtain ⟨r₂, hwrite₂, hr₂, hvfs₂⟩ := vfsFwrite_drive hdev₁ hfd₁ hsecond hres₂
  subst hvfs₂
  simp only [Function.update_self] at hwrite₂
  exact ⟨_, rfl, hfile.write_twice hspc hfat hlookups hfits hwrite₁ (hr₁ ▸ hres₁) hwrite₂
    (hr₂ ▸ hres₂) rfl rfl⟩

/-! ## Two bytes, one after the other -/

/-- A file system without callbacks -/
def bareFs : Fs (Option Drive) where
  openCb := fun drive _ _ => (0, drive)
  readCb := fun drive _ _ _ _ => (0, drive)
  closeCb := fun drive _ => (0, drive)
  statCb := fun drive _ _ => (0, drive)
  seekCb := fun drive _ _ _ => (0, drive)
  writeCb := none
  readdirCb := none

/-- `twinVolume` with its file in `A` open, and `"xy"` in memory -/
def twinDrive : Drive where
  dev := twinVolume.dev
  file := fun _ => diskEntry twinVolume.dev.disk 0x140400
  memory := fun x => if x = 1 then 120 else 121

/-- The descriptor 1 is open on it. -/
def twinVfs : Vfs (Option Drive) where
  device := some twinDrive
  fdescriptors := fun i => if i = 0 then some ⟨1, 0x1000, 0, false⟩ else none

theorem twin_fileOn : twinVolume.FileOn twinDrive.dev.disk {2, 3} (twinDrive.file 0x1000) [4] where
  length := by decide +kernel
  file := by decide +kernel
  chain := .last (by decide +kernel) (by decide +kernel)
  tree := twin_directories
  apart := by
    intro c hc
    rw [List.mem_singleton.mp hc]
    rintro (h | h) <;> cases h

/-- `"x"` is written, and then `"y"`, which is the first byte of the file then. -/
theorem twin_writes : ∃ vfs₁ vfs₂,
    vfsFwrite (some (bareFs.withFat16Write twinVolume.bpb 65536 ⟨0, 0⟩)) twinVfs 1 1 1 1
      = .ok (1#32, vfs₁) ∧
    vfsFwrite (some (bareFs.withFat16Write twinVolume.bpb 65536 ⟨0, 0⟩)) vfs₁ 2 1 1 1
      = .ok (1#32, vfs₂) ∧
    vfs₂.device.map (fun drive => drive.dev.disk (twinVolume.clusterPos 4)) = some 121 := by
  have hrun : (match vfsFwrite (some (bareFs.withFat16Write twinVolume.bpb 65536 ⟨0, 0⟩)) twinVfs
      1 1 1 1 with
    | .error _ => none
    | .ok (res₁, vfs₁) =>
        match vfsFwrite (some (bareFs.withFat16Write twinVolume.bpb 65536 ⟨0, 0⟩)) vfs₁ 2 1 1 1 with
        | .error _ => none
        | .ok (res₂, vfs₂) => some (res₁, res₂,
            vfs₂.device.map fun drive => drive.dev.disk (twinVolume.clusterPos 4)))
      = some (1#32, 1#32, some 121) := by
    decide +kernel
  split at hrun
  · cases hrun
  · rename_i res₁ vfs₁ hfirst
    split at hrun
    · cases hrun
    · rename_i res₂ vfs₂ hsecond
      obtain ⟨rfl, hrest⟩ := Prod.mk.inj (Option.some.inj hrun)
      obtain ⟨rfl, hbyte⟩ := Prod.mk.inj hrest
      exact ⟨vfs₁, vfs₂, hfirst, hsecond, hbyte⟩

theorem second_write_starts_over_twin : ∃ vfs₁ vfs₂ drive₂,
    vfsFwrite (some (bareFs.withFat16Write twinVolume.bpb 65536 ⟨0, 0⟩)) twinVfs 1 1 1 1
      = .ok (1#32, vfs₁) ∧
    vfsFwrite (some (bareFs.withFat16Write twinVolume.bpb 65536 ⟨0, 0⟩)) vfs₁ 2 1 1 1
      = .ok (1#32, vfs₂) ∧ vfs₂.device = some drive₂ ∧
    (twinVolume.Holds drive₂.dev.disk 4 ([120] ++ [121]) →
      StartsOver [120] [121] (twinVolume.before twinVolume.dev.disk 4 1 1)) ∧
    (twinVolume.needed 1 ≤ requiredClusters twinVolume.bpb 1 →
      StartsOver [120] [121] (twinVolume.before twinVolume.dev.disk 4 1 1) →
        twinVolume.Holds drive₂.dev.disk 4 ([120] ++ [121])) := by
  obtain ⟨vfs₁, vfs₂, hfirst, hsecond, -⟩ := twin_writes
  obtain ⟨drive₂, hdrive₂, hover⟩ := second_write_starts_over twinVolume bareFs 65536 ⟨0, 0⟩ ⟨0, 0⟩
    twinVfs vfs₁ vfs₂ twinDrive 0 ⟨1, 0x1000, 0, false⟩ 1 {2, 3} 4 1 1 1 2 1 1 1#32 1#32
    (by decide +kernel) (by decide +kernel) (Nat.le_refl 65536) rfl rfl twin_fileOn (by decide)
    hfirst (by decide) hsecond (by decide)
  exact ⟨vfs₁, vfs₂, drive₂, hfirst, hsecond, hdrive₂, hover⟩

/-- The clusters of the file do not hold `"xy"`. -/
theorem exists_write_over : ¬ ∀ (vol : Volume) (fs : Fs (Option Drive)) (lookups : Nat)
    (now₁ now₂ : Stamp) (vfs vfs₁ vfs₂ : Vfs (Option Drive)) (drive : Drive) (slot : Nat) (d : Fd)
    (fd : Int) (dirs : Set Nat) (start buffer₁ n₁ m₁ buffer₂ n₂ m₂ : Nat) (res₁ res₂ : BitVec 32)
    (a b : List UInt8),
    65536 ≤ lookups → vfs.device = some drive → vfs.getFd fd = some (slot, d) →
    vol.FileOn drive.dev.disk dirs (drive.file d.internal) [start] →
    (drive.file d.internal).fileSize = 0 →
    a = bytesOf (fun i => drive.memory (buffer₁ + i)) n₁ m₁ →
    b = bytesOf (fun i => drive.memory (buffer₂ + i)) n₂ m₂ →
    vol.needed (a.length + b.length) ≤ 1 + (vol.freeClusters drive.dev.disk).length →
    vfsFwrite (some (fs.withFat16Write vol.bpb lookups now₁)) vfs buffer₁ n₁ m₁ fd
      = .ok (res₁, vfs₁) → 0 < res₁.toInt →
    vfsFwrite (some (fs.withFat16Write vol.bpb lookups now₂)) vfs₁ buffer₂ n₂ m₂ fd
      = .ok (res₂, vfs₂) → 0 < res₂.toInt →
    ∃ drive₂, vfs₂.device = some drive₂ ∧ vol.Holds drive₂.dev.disk start (a ++ b) := by
  intro hall
  obtain ⟨vfs₁, vfs₂, hfirst, hsecond, hbyte⟩ := twin_writes
  have hone : twinVolume.needed 2 = 1 := by decide +kernel
  obtain ⟨drive₂, hdrive₂, cs, hchain, hholds⟩ := hall twinVolume bareFs 65536 ⟨0, 0⟩ ⟨0, 0⟩ twinVfs
    vfs₁ vfs₂ twinDrive 0 ⟨1, 0x1000, 0, false⟩ 1 {2, 3} 4 1 1 1 2 1 1 1#32 1#32 [120] [121]
    (Nat.le_refl 65536) rfl rfl twin_fileOn (by decide +kernel) (by decide) (by decide)
    (by
      show twinVolume.needed 2 ≤ _
      rw [hone]
      exact Nat.le_add_right 1 _)
    hfirst (by decide) hsecond (by decide)
  rw [hdrive₂, Option.map_some] at hbyte
  obtain ⟨rest, hrest⟩ := hchain.head
  have hhead : (cs.flatMap (twinVolume.dataOn drive₂.dev.disk))[0]?
      = some (drive₂.dev.disk (twinVolume.clusterPos 4)) := by
    have hpos := twinVolume.clusterBytes_pos
    rw [hrest, List.flatMap_cons, List.getElem?_append_left (by rw [Volume.length_dataOn]; exact hpos),
      Volume.dataOn, List.getElem?_map, List.getElem?_range hpos]
    rfl
  have htake : ((cs.flatMap (twinVolume.dataOn drive₂.dev.disk)).take 2)[0]? = some 120 :=
    congrArg (fun l => l[0]?) hholds
  rw [List.getElem?_take_of_lt (by decide), hhead, Option.some.inj hbyte] at htake
  exact absurd htake (by decide)

end Icarius
