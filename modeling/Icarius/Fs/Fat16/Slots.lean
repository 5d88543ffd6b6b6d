/-
  Icarius.Fs.Fat16.Slots

  Free slots for directory entries: what `fat16_find_free_entry_in_dir` returns, and where
  that is in the directory.  When all clusters of the directory are full the driver takes a
  new cluster, but the one it would link it to is the end mark it has read, so the new
  cluster is not part of the directory.

  What the driver does to a volume on the way is stated for every mounted volume
  (`Scarred`): it writes end marks of the FAT and zeros, and no chain gets longer.
-/

import Mathlib.Logic.Relation
import Icarius.Fs.Fat16.Open
import Icarius.Fs.Fat16.WriteExact

namespace Icarius

open Icarius.Lib

namespace Volume

variable (vol : Volume)

/-! ## What is written -/

/-- The disk after end marks of the FAT and zeros have been written to it -/
structure Scarred (disk disk' : Mem) : Prop where
  byte : ∀ x, disk' x = disk x ∨ disk' x = 0 ∨ disk' x = 0xF8 ∨ disk' x = 0xFF
  fat : ∀ c < 65536, vol.fatOn disk' c = vol.fatOn disk c ∨ vol.fatOn disk' c = fat16ValueFree ∨
    fat16ValueEndOfChain ≤ vol.fatOn disk' c

variable {vol}

namespace Scarred

variable {disk disk₁ disk₂ : Mem}

theorem refl (disk : Mem) : vol.Scarred disk disk := ⟨fun _ => .inl rfl, fun _ _ => .inl rfl⟩

theorem trans (h : vol.Scarred disk disk₁) (h' : vol.Scarred disk₁ disk₂) :
    vol.Scarred disk disk₂ where
  byte := by
    intro x
    rcases h'.byte x with heq | hscar
    · rw [heq]
      exact h.byte x
    · exact .inr hscar
  fat := by
    intro c hc
    rcases h'.fat c hc with heq | hscar
    · rw [heq]
      exact h.fat c hc
    · exact .inr hscar

/-- An end mark -/
theorem mark (dev : Ata) {c : Nat} (hlow : 2 ≤ c) (hhigh : c < fat16MaxClusters) :
    vol.Scarred dev.disk (fat16CreateFatEntry vol.bpb dev c fat16ValueEndOfChain).2.disk := by
  rw [vol.createFatEntry_on dev _ hlow hhigh]
  constructor
  · intro x
    have hlen : [UInt8.ofNat fat16ValueEndOfChain, UInt8.ofNat (fat16ValueEndOfChain / 256)]
        = [0xF8, 0xFF] := by decide
    simp only [setFat, hlen]
    have hcases : x < vol.fatPos c ∨ x = vol.fatPos c + 0 ∨ x = vol.fatPos c + 1 ∨
        vol.fatPos c + 2 ≤ x := by omega
    rcases hcases with hlt | rfl | rfl | hge
    · exact .inl (Mem.write_of_lt hlt)
    · exact .inr (.inr (.inl (Mem.write_add (by decide))))
    · exact .inr (.inr (.inr (Mem.write_add (by decide))))
    · exact .inl (Mem.write_of_ge hge)
  · intro c' _
    by_cases hc : c' = c
    · subst hc
      refine .inr (.inr ?_)
      rw [setFat_self vol dev.disk c' (by decide)]
    · exact .inl (setFat_of_ne vol dev.disk _ hc)

/-- Zeros in whole sectors -/
theorem zeros (dev : Ata) {pos n : Nat} (hpos : pos % 512 = 0) (hn : n % 512 = 0) :
    vol.Scarred dev.disk (dev.writeAt pos (List.replicate n 0)).disk := by
  have hlen : (List.replicate n (0 : UInt8)).length % 512 = 0 := by
    rw [List.length_replicate]
    exact hn
  have hsector := writeAt_sector dev hpos hlen
  constructor
  · intro x
    have hx : 512 * (x / 512) + x % 512 = x := Nat.div_add_mod x 512
    have hlt : x % 512 < 512 := Nat.mod_lt _ (by decide)
    rcases hsector (x / 512) with hsame | hzero
    · have := hsame _ hlt
      rw [hx] at this
      exact .inl this
    · have := hzero _ hlt
      rw [hx] at this
      exact .inr (.inl (List.eq_of_mem_replicate this))
  · intro c hc
    -- the two bytes of an entry are in one sector
    have hfirst : 512 * (vol.fatPos c / 512) + vol.fatPos c % 512 = vol.fatPos c := Nat.div_add_mod _ _
    have hin : vol.fatPos c % 512 + 1 < 512 := by
      simp only [fatPos, partitionOffset]
      omega
    rcases hsector (vol.fatPos c / 512) with hsame | hzero
    · refine .inl (Mem.load_congr fun x hlow hhigh => ?_)
      have := hsame (x - 512 * (vol.fatPos c / 512)) (by omega)
      rwa [Nat.add_sub_cancel' (by omega)] at this
    · refine .inr (.inl ?_)
      have hbyte : ∀ i < 2, (dev.writeAt pos (List.replicate n 0)).disk (vol.fatPos c + i) = 0 := by
        intro i hi
        have := hzero (vol.fatPos c % 512 + i) (by omega)
        rw [← Nat.add_assoc, hfirst] at this
        exact List.eq_of_mem_replicate this
      have hload := Mem.load_of_bytes (v := 0) fun i hi => (hbyte i hi).trans (by
        rw [Nat.zero_div]
        rfl)
      exact hload

end Scarred

/-! ## Directories on such a disk -/

/-- A cluster that is reached from `start`: the FAT leads from every cluster to the next -/
def Reaches (vol : Volume) (disk : Mem) : Nat → Nat → Prop :=
  Relation.ReflTransGen fun a b => vol.fatOn disk a = b ∧ 2 ≤ b ∧ b < fat16ValueEndOfChain

/-- A chain of the clusters of a directory, on a disk that may have been written since -/
def DirChain (vol : Volume) (disk : Mem) : Nat → List Nat → Prop :=
  IsChain (vol.fatOn disk) (fun c => 2 ≤ c ∧ c < fat16ValueEndOfChain) (fat16ValueEndOfChain ≤ ·)

section Dir

variable {disk disk' : Mem} {start : Nat} {cs : List Nat}

theorem DirChain.reaches (h : vol.DirChain disk start cs) {c : Nat} (hc : c ∈ cs) :
    vol.Reaches disk start c := by
  induction h with
  | last =>
      obtain rfl := List.mem_singleton.mp hc
      exact .refl
  | @link a cs _ hrest ih =>
      rcases List.mem_cons.mp hc with rfl | hc
      · exact .refl
      · exact Relation.ReflTransGen.head ⟨rfl, hrest.live_head⟩ (ih hc)

/-- Nothing is reached that was not in the chain. -/
theorem DirChain.mem_of_reaches (h : vol.DirChain disk start cs) (hscar : vol.Scarred disk disk')
    {c : Nat} (hc : vol.Reaches disk' start c) : c ∈ cs := by
  have hmark : fat16ValueEndOfChain = 0xFFF8 := rfl
  induction hc with
  | refl =>
      obtain ⟨rest, rfl⟩ := IsChain.head h
      exact List.mem_cons_self
  | @tail a b _ hstep ih =>
      obtain ⟨rfl, hlow, hhigh⟩ := hstep
      have ha := (IsChain.live_of_mem h a ih).2
      rcases hscar.fat a (by omega) with heq | hfree | hend
      · rw [heq] at hhigh ⊢
        exact IsChain.next_mem h ih (Nat.not_le.mpr hhigh)
      · rw [hfree] at hlow
        exact absurd hlow (by decide)
      · omega

/-- A cluster of a chain is not free. -/
theorem DirChain.not_free (h : vol.DirChain disk start cs) {c : Nat} (hc : c ∈ cs) :
    vol.fatOn disk c ≠ fat16ValueFree := by
  intro hfree
  have hnext := IsChain.next_mem h hc (by rw [hfree]; decide)
  rw [hfree] at hnext
  exact absurd (IsChain.live_of_mem h _ hnext).1 (by decide)

/-- There are not more clusters in a chain than there are numbers for them. -/
theorem DirChain.length_lt (h : vol.DirChain disk start cs) : cs.length < 65536 := by
  have hmark : fat16ValueEndOfChain = 0xFFF8 := rfl
  have hnodup : cs.Nodup := by
    apply IsChain.nodup _ h
    intro x hlive hend
    omega
  have hsub : cs ⊆ List.range fat16ValueEndOfChain := by
    intro x hx
    exact List.mem_range.mpr (IsChain.live_of_mem h x hx).2
  have hle := (List.subperm_of_subset hnodup hsub).length_le
  rw [List.length_range] at hle
  omega

end Dir

/-! ## The search for a slot -/

section Search

variable (vol : Volume) (dev : Ata)

/-- The position of the first free slot the driver sees in cluster `c` -/
def freeSlot (c : Nat) : Option Nat :=
  ((List.range (maxClusterSizeBytes vol.bpb / 32)).map fun i =>
      u32 (dataPos vol.bpb c + i * 32)).find? fun pos =>
    dev.disk pos == dirFree || dev.disk pos == dirDeleted

/-- The device after the driver has taken a new cluster for a directory -/
def newCluster (c : Nat) : Ata :=
  (fat16CreateFatEntry vol.bpb dev c fat16ValueEndOfChain).2.writeAt (dataPos vol.bpb c)
    (List.replicate (maxClusterSizeBytes vol.bpb) 0)

/-- What the driver comes to when there is no free slot in the directory -/
def behindLast : Nat × Ata :=
  match vol.freeClusters dev.disk with
  | [] => (0, dev)
  | c :: _ => (dataPos vol.bpb c, vol.newCluster dev c)

theorem dataPos_mod (c : Nat) : dataPos vol.bpb c % 512 = 0 := by
  simp only [dataPos, vol.bytsPerSec, u32, partitionOffset]
  omega

theorem maxClusterSize_mod : maxClusterSizeBytes vol.bpb % 512 = 0 := by
  simp only [maxClusterSizeBytes, vol.bytsPerSec, u16]
  omega

/-- The driver sees a slot by its first byte. -/
theorem entryAt_isFree (c : Nat) {i : Nat} (hi : i < maxClusterSizeBytes vol.bpb / 32) :
    (entryAt (dev.readAt (dataPos vol.bpb c) (maxClusterSizeBytes vol.bpb)) i).isFree
      = (dev.disk (u32 (dataPos vol.bpb c + i * 32)) == dirFree ||
          dev.disk (u32 (dataPos vol.bpb c + i * 32)) == dirDeleted) := by
  have hmod := vol.dataPos_mod c
  have hpos : dataPos vol.bpb c < 2 ^ 32 := Nat.mod_lt _ (by decide)
  have hfirst : (entryAt (dev.readAt (dataPos vol.bpb c) (maxClusterSizeBytes vol.bpb)) i).first
      = dev.disk (u32 (dataPos vol.bpb c + i * 32)) := by
    have hrange : List.range 32 = 0 :: (List.range 31).map (· + 1) := by decide
    rw [readAt_eq, entryAt, take_drop_map_range _ (show 32 * i + 32 ≤ _ by omega), DirEntry.first,
      hrange, List.map_cons, List.getD_cons_zero, Nat.mod_eq_of_lt hpos, Nat.add_zero,
      Ata.byteFrom, if_pos (by omega), u32, Nat.mul_comm]
  rw [DirEntry.isFree, hfirst]

theorem freeSlot_eq (c : Nat) :
    vol.freeSlot dev c = ((List.range (maxClusterSizeBytes vol.bpb / 32)).find? fun i =>
        (entryAt (dev.readAt (dataPos vol.bpb c) (maxClusterSizeBytes vol.bpb)) i).isFree).map
      fun i => u32 (dataPos vol.bpb c + i * 32) := by
  rw [freeSlot, List.find?_map]
  congr 1
  apply List.find?_congr
  intro i hi
  exact (vol.entryAt_isFree dev c (List.mem_range.mp hi)).symm

/-- A round of the loop over the clusters -/
theorem findFreeEntry_round {fuel c : Nat} (hlive : c < fat16ValueEndOfChain) :
    fat16FindFreeEntryLoop vol.bpb dev (fuel + 1) c
      = match vol.freeSlot dev c with
        | some pos => some (pos, dev)
        | none => fat16FindFreeEntryLoop vol.bpb dev fuel (vol.fatOn dev.disk c) := by
  have hmark : fat16ValueEndOfChain = 0xFFF8 := rfl
  rw [fat16FindFreeEntryLoop, if_pos hlive, freeSlot_eq]
  simp only [vol.nextCluster_on dev (show c < 65536 by omega)]
  cases (List.range (maxClusterSizeBytes vol.bpb / 32)).find? fun i =>
      (entryAt (dev.readAt (dataPos vol.bpb c) (maxClusterSizeBytes vol.bpb)) i).isFree with
  | none => rfl
  | some i => rfl

/-- The end of the loop: the end mark is no cluster the driver makes an entry for. -/
theorem findFreeEntry_end {fuel c : Nat} (hend : fat16ValueEndOfChain ≤ c) :
    fat16FindFreeEntryLoop vol.bpb dev (fuel + 1) c = some (vol.behindLast dev) := by
  have hmark : fat16ValueEndOfChain = 0xFFF8 := rfl
  have hmax : fat16MaxClusters = 65525 := rfl
  have hnolink : ∀ v, (fat16CreateFatEntry vol.bpb dev c v).2 = dev := by
    intro v
    rw [fat16CreateFatEntry, if_pos (.inr (by omega))]
  rw [fat16FindFreeEntryLoop, if_neg (by omega), vol.nextFreeCluster_on, behindLast]
  cases hfree : vol.freeClusters dev.disk with
  | nil => rfl
  | cons new rest =>
      have hnew : new ≠ 0 := by
        have hmem := vol.mem_freeClusters.mp (hfree ▸ List.mem_cons_self)
        omega
      simp only [List.head?_cons, Option.getD_some, hnew, if_false, hnolink]
      rfl

variable {dev} {start : Nat} {cs : List Nat}

/-- A search in a chain returns the first free slot or what is behind the last cluster,
    when it is given enough rounds, and otherwise does not return. -/
theorem findFreeEntry_cases (hchain : vol.DirChain dev.disk start cs) (fuel : Nat) :
    (fat16FindFreeEntryLoop vol.bpb dev fuel start = none ∧ fuel ≤ cs.length) ∨
      fat16FindFreeEntryLoop vol.bpb dev fuel start
        = some (match cs.findSome? (vol.freeSlot dev) with
          | some pos => (pos, dev)
          | none => vol.behindLast dev) := by
  induction fuel generalizing start cs with
  | zero => exact .inl ⟨rfl, Nat.zero_le _⟩
  | succ fuel ih =>
      have hlive := (IsChain.live_head hchain).2
      rw [vol.findFreeEntry_round dev hlive]
      cases hchain with
      | last _ hend =>
          rw [List.findSome?_cons]
          cases hslot : vol.freeSlot dev start with
          | some pos => exact .inr rfl
          | none =>
              cases fuel with
              | zero => exact .inl ⟨rfl, by rw [List.length_singleton]⟩
              | succ fuel => exact .inr (vol.findFreeEntry_end dev hend)
      | @link _ later _ hrest =>
          rw [List.findSome?_cons]
          cases hslot : vol.freeSlot dev start with
          | some pos => exact .inr rfl
          | none =>
              rcases ih hrest with ⟨hnone, hle⟩ | hsome
              · exact .inl ⟨hnone, by rw [List.length_cons]; omega⟩
              · exact .inr hsome

end Search

/-! ## Where the slot is -/

/-- The 32 bytes at `pos` are in cluster `c`. -/
def InCluster (vol : Volume) (c pos : Nat) : Prop :=
  vol.clusterPos c ≤ pos ∧ pos + 32 ≤ vol.clusterPos c + vol.bpb.secPerClus * 512

/-- A slot that is found is one of the directory, as it is after the search, and free. -/
def FindsInside (vol : Volume) (dev : Ata) (start : Nat) : Prop :=
  ∀ fuel pos dev', fat16FindFreeEntryInDir vol.bpb dev fuel start = some (pos, dev') → pos ≠ 0 →
    (∃ c, vol.Reaches dev'.disk start c ∧ vol.InCluster c pos) ∧
      (dev'.disk pos = dirFree ∨ dev'.disk pos = dirDeleted)

/-- The directory has a free slot where the driver looks, or there is no free cluster it
    could take for it; from a start cluster without an entry of the FAT it does not look. -/
def SlotToTake (vol : Volume) (dev : Ata) (start : Nat) (cs : List Nat) : Prop :=
  fat16MaxClusters ≤ start ∨
    match cs.findSome? (vol.freeSlot dev) with
    | some pos => pos = 0 ∨ ∃ c ∈ cs, vol.InCluster c pos
    | none => vol.freeClusters dev.disk = []

section Inside

variable (vol : Volume) {dev : Ata} {start : Nat} {cs : List Nat}
  (hchain : vol.DirChain dev.disk start cs)
include hchain

theorem findFreeEntryInDir_eq (fuel : Nat) :
    fat16FindFreeEntryInDir vol.bpb dev fuel start
      = if fat16MaxClusters ≤ start then some (0, dev)
        else fat16FindFreeEntryLoop vol.bpb dev fuel start := by
  have hmark : fat16ValueEndOfChain = 0xFFF8 := rfl
  obtain ⟨hlow, hhigh⟩ := IsChain.live_head hchain
  have hstart : u16 start = start := Nat.mod_eq_of_lt (by omega)
  rw [fat16FindFreeEntryInDir, hstart]
  by_cases hbig : fat16MaxClusters ≤ start
  · rw [if_pos hbig, if_pos (.inr hbig)]
  · rw [if_neg hbig, if_neg (by omega)]

/-- A search with enough rounds returns. -/
theorem findFreeEntryLoop_eq :
    fat16FindFreeEntryLoop vol.bpb dev (cs.length + 1) start
      = some (match cs.findSome? (vol.freeSlot dev) with
        | some pos => (pos, dev)
        | none => vol.behindLast dev) := by
  rcases vol.findFreeEntry_cases hchain (cs.length + 1) with ⟨-, hle⟩ | heq
  · omega
  · exact heq

omit hchain in
theorem free_of_freeSlot {c pos : Nat} (h : vol.freeSlot dev c = some pos) :
    dev.disk pos = dirFree ∨ dev.disk pos = dirDeleted := by
  have hfree := List.find?_some h
  simpa only [Bool.or_eq_true, beq_iff_eq] using hfree

omit hchain in
/-- What the driver does behind the last cluster leaves marks and zeros only. -/
theorem scarred_behindLast : vol.Scarred dev.disk (vol.behindLast dev).2.disk := by
  rw [behindLast]
  cases hfree : vol.freeClusters dev.disk with
  | nil => exact .refl _
  | cons c rest =>
      obtain ⟨hlow, hhigh, -⟩ := vol.mem_freeClusters.mp (hfree ▸ List.mem_cons_self)
      exact (Scarred.mark dev (by omega) hhigh).trans
        (.zeros _ (vol.dataPos_mod c) vol.maxClusterSize_mod)

/-- A free cluster below 4 GiB is not in the directory, nor is anything in it. -/
theorem not_inside_of_free {c x : Nat} (hfree : c ∈ vol.freeClusters dev.disk) (hx : x ∈ cs) :
    ¬ vol.InCluster x (vol.clusterPos c) := by
  obtain ⟨hlow, -, hzero⟩ := vol.mem_freeClusters.mp hfree
  have hlive := IsChain.live_of_mem hchain x hx
  have hne : x ≠ c := by
    rintro rfl
    exact DirChain.not_free hchain hx hzero
  have hapart := vol.clusterPos_disjoint hlive.1 (show 2 ≤ c by omega) hne
  have hpos := vol.clusterBytes_pos
  rintro ⟨hle, hend⟩
  simp only [clusterBytes] at hapart hpos
  omega

theorem SlotToTake.findsInside (h : vol.SlotToTake dev start cs) : vol.FindsInside dev start := by
  intro fuel pos dev' hfind hpos
  rw [vol.findFreeEntryInDir_eq hchain] at hfind
  split at hfind
  · obtain ⟨rfl, -⟩ := Prod.mk.inj (Option.some.inj hfind)
    exact absurd rfl hpos
  · rename_i hsmall
    have htake := h.resolve_left hsmall
    rcases vol.findFreeEntry_cases hchain fuel with ⟨hnone, -⟩ | hsome
    · rw [hnone] at hfind
      cases hfind
    · rw [hsome] at hfind
      cases hslot : cs.findSome? (vol.freeSlot dev) with
      | some p =>
          rw [hslot] at hfind htake
          obtain ⟨rfl, rfl⟩ := Prod.mk.inj (Option.some.inj hfind)
          obtain ⟨c, hc, hin⟩ := htake.resolve_left hpos
          obtain ⟨pre, x, post, -, hx, -⟩ := List.findSome?_eq_some_iff.mp hslot
          exact ⟨⟨c, hchain.reaches hc, hin⟩, vol.free_of_freeSlot hx⟩
      | none =>
          rw [hslot] at hfind htake
          simp only [behindLast] at htake hfind
          rw [htake] at hfind
          obtain ⟨rfl, -⟩ := Prod.mk.inj (Option.some.inj hfind)
          exact absurd rfl hpos

/-- When the first free cluster is below 4 GiB, a new cluster is never found inside. -/
theorem FindsInside.slotToTake
    (hlow : ∀ c ∈ (vol.freeClusters dev.disk).head?, vol.clusterPos c + 512 ≤ 2 ^ 32)
    (h : vol.FindsInside dev start) : vol.SlotToTake dev start cs := by
  by_cases hbig : fat16MaxClusters ≤ start
  · exact .inl hbig
  · refine .inr ?_
    have hrun := vol.findFreeEntryInDir_eq hchain (cs.length + 1)
    rw [if_neg hbig, vol.findFreeEntryLoop_eq hchain] at hrun
    cases hslot : cs.findSome? (vol.freeSlot dev) with
    | some pos =>
        rw [hslot] at hrun
        by_cases hpos : pos = 0
        · exact .inl hpos
        · obtain ⟨⟨c, hc, hin⟩, -⟩ := h _ pos dev hrun hpos
          exact .inr ⟨c, hchain.mem_of_reaches (.refl _) hc, hin⟩
    | none =>
        rw [hslot] at hrun
        have hscar : vol.Scarred dev.disk (vol.behindLast dev).2.disk := vol.scarred_behindLast
        simp only [behindLast] at hrun hscar ⊢
        cases hfree : vol.freeClusters dev.disk with
        | nil => rfl
        | cons c rest =>
            have hmem : c ∈ vol.freeClusters dev.disk := hfree ▸ List.mem_cons_self
            obtain ⟨hthree, hmax, -⟩ := vol.mem_freeClusters.mp hmem
            rw [hfree] at hrun hlow hscar
            have hmaxval : fat16MaxClusters = 65525 := rfl
            have hpos := hlow c rfl
            have heq := vol.dataPos_eq (show 2 ≤ c by omega) (by omega) (by omega)
            have hne : dataPos vol.bpb c ≠ 0 := by
              rw [heq]
              simp only [clusterPos, rootPos, partitionOffset]
              omega
            -- the new cluster would have to be one of the chain
            obtain ⟨⟨x, hx, hin⟩, -⟩ := h _ _ _ hrun hne
            rw [heq] at hin
            exact absurd hin (vol.not_inside_of_free hchain hmem (hchain.mem_of_reaches hscar hx))

end Inside

/-- The 32 bytes of a slot the driver sees are in the cluster, below 4 GiB. -/
theorem inCluster_of_freeSlot (vol : Volume) (dev : Ata) {c pos : Nat} (hlow : 2 ≤ c)
    (hhigh : c < 65536) (hend : vol.clusterPos c + maxClusterSizeBytes vol.bpb ≤ 2 ^ 32)
    (h : vol.freeSlot dev c = some pos) : vol.InCluster c pos := by
  have hsize : maxClusterSizeBytes vol.bpb ≤ vol.bpb.secPerClus * 512 := by
    rw [maxClusterSizeBytes, vol.bytsPerSec]
    exact Nat.mod_le _ _
  obtain ⟨i, hi, rfl⟩ := List.mem_map.mp (List.mem_of_find?_eq_some h)
  have hlt := List.mem_range.mp hi
  rw [vol.dataPos_eq hlow hhigh (by omega), u32, Nat.mod_eq_of_lt (by omega)]
  exact ⟨by omega, by omega⟩

/-- With at most 64 sectors in a cluster: a slot of the directory is free, or no cluster
    is. -/
theorem slotToTake_iff (vol : Volume) {dev : Ata} {start : Nat} {cs : List Nat}
    (hchain : vol.DirChain dev.disk start cs) (hspc : vol.bpb.secPerClus ≤ 64) :
    vol.SlotToTake dev start cs ↔
      fat16MaxClusters ≤ start ∨
      (∃ c ∈ cs, ∃ i < vol.bpb.secPerClus * 16,
        (diskEntry dev.disk (vol.clusterPos c + 32 * i)).isFree = true) ∨
      vol.freeClusters dev.disk = [] := by
  have hmark : fat16ValueEndOfChain = 0xFFF8 := rfl
  have hsize : maxClusterSizeBytes vol.bpb = vol.bpb.secPerClus * 512 := by
    rw [maxClusterSizeBytes, vol.bytsPerSec, u16]
    omega
  -- what the driver sees in a cluster is what is on the disk
  have hslots : ∀ c ∈ cs, (vol.freeSlot dev c).isSome ↔ ∃ i < vol.bpb.secPerClus * 16,
      (diskEntry dev.disk (vol.clusterPos c + 32 * i)).isFree = true := by
    intro c hc
    obtain ⟨hlow, hhigh⟩ := IsChain.live_of_mem hchain c hc
    have hend := vol.clusterEnd_le hspc (show c < 65536 by omega)
    have hcount : vol.bpb.secPerClus * 512 / 32 = vol.bpb.secPerClus * 16 := by omega
    have hpos := vol.dataPos_eq hlow (by omega) (by have := vol.secPerClus_pos; omega)
    rw [freeSlot_eq, Option.isSome_map, List.find?_isSome, hsize, hcount, hpos]
    have hentry : ∀ i < vol.bpb.secPerClus * 16,
        entryAt (dev.readAt (vol.clusterPos c) (vol.bpb.secPerClus * 512)) i
          = diskEntry dev.disk (vol.clusterPos c + 32 * i) := by
      intro i hi
      rw [readAt_disk dev hend (.inl (vol.clusterPos_mod c)), entryAt_map_range (by omega)]
    constructor
    · rintro ⟨i, hi, hfree⟩
      have hlt := List.mem_range.mp hi
      rw [hentry i hlt] at hfree
      exact ⟨i, hlt, hfree⟩
    · rintro ⟨i, hlt, hfree⟩
      rw [← hentry i hlt] at hfree
      exact ⟨i, List.mem_range.mpr hlt, hfree⟩
  rw [SlotToTake]
  apply or_congr_right
  -- the first cluster with a free slot decides, and without one the free clusters do
  cases hslot : cs.findSome? (vol.freeSlot dev) with
  | some pos =>
      obtain ⟨pre, c, post, heq, hc, -⟩ := List.findSome?_eq_some_iff.mp hslot
      have hmem : c ∈ cs := heq ▸ List.mem_append_right pre List.mem_cons_self
      obtain ⟨hlow, hhigh⟩ := IsChain.live_of_mem hchain c hmem
      have hin := vol.inCluster_of_freeSlot dev hlow (by omega)
        (by rw [hsize]; exact vol.clusterEnd_le hspc (by omega)) hc
      refine iff_of_true (.inr ⟨c, hmem, hin⟩) (.inl ⟨c, hmem, (hslots c hmem).mp ?_⟩)
      rw [hc]
      rfl
  | none =>
      have hfull := List.findSome?_eq_none_iff.mp hslot
      constructor
      · exact .inr
      · rintro (⟨c, hc, hfree⟩ | hnone)
        · have hsome := (hslots c hc).mpr hfree
          rw [hfull c hc] at hsome
          cases hsome
        · exact hnone

/-- A slot that is found is inside the directory when the directory has a free slot the
    driver sees or no cluster is free, and, unless the position of the new cluster wraps,
    only then. -/
theorem findsInside_iff (vol : Volume) (dev : Ata) (start : Nat) (cs : List Nat)
    (hchain : vol.DirChain dev.disk start cs) :
    (vol.SlotToTake dev start cs → vol.FindsInside dev start) ∧
      ((∀ c ∈ (vol.freeClusters dev.disk).head?, vol.clusterPos c + 512 ≤ 2 ^ 32) →
        vol.FindsInside dev start → vol.SlotToTake dev start cs) :=
  ⟨SlotToTake.findsInside vol hchain, FindsInside.slotToTake vol hchain⟩

end Volume

/-- The directory `A` of `deepVolume` has free slots. -/
theorem findsInside_deep : deepVolume.FindsInside deepVolume.dev 2 := by
  have hchain : deepVolume.DirChain deepVolume.dev.disk 2 [2] :=
    .last (by decide) (by decide +kernel)
  refine (Volume.findsInside_iff deepVolume deepVolume.dev 2 [2] hchain).1 ?_
  rw [deepVolume.slotToTake_iff hchain (by decide +kernel)]
  exact .inr (.inl ⟨2, List.mem_singleton_self 2, 1, by decide +kernel, by decide +kernel⟩)

/-! ## A full directory -/

/-- `deepDisk`, but all slots of the directory `A` are in use. -/
def crowdedDisk : Mem := deepDisk.write 0x104400 (List.replicate 512 65)

theorem crowdedDisk_mounted : (fat16Resolve ⟨crowdedDisk, fun _ => 0⟩).isSome = true := by
  decide +kernel

/-- The volume on `crowdedDisk` -/
def crowdedVolume : Volume where
  dev := ⟨crowdedDisk, fun _ => 0⟩
  bpb := (fat16Resolve ⟨crowdedDisk, fun _ => 0⟩).get crowdedDisk_mounted
  mounted := (Option.some_get crowdedDisk_mounted).symm

/-- The slot that is found for it is in no cluster of the directory. -/
theorem exists_slot_outside : ¬ ∀ (vol : Volume) (dev : Ata) (start : Nat) (cs : List Nat),
    vol.DirChain dev.disk start cs → vol.FindsInside dev start := by
  intro hall
  have hchain : crowdedVolume.DirChain crowdedVolume.dev.disk 2 [2] :=
    .last (by decide) (by decide +kernel)
  have hspc : crowdedVolume.bpb.secPerClus ≤ 64 := by decide +kernel
  have htake := Volume.FindsInside.slotToTake crowdedVolume hchain ?_ (hall _ _ _ _ hchain)
  · rw [crowdedVolume.slotToTake_iff hchain hspc] at htake
    rcases htake with hbig | ⟨c, hc, hfree⟩ | hnone
    · exact absurd hbig (by decide)
    · obtain rfl := List.mem_singleton.mp hc
      exact absurd hfree (by decide +kernel)
    · have hfive : 5 ∈ crowdedVolume.freeClusters crowdedVolume.dev.disk :=
        crowdedVolume.mem_freeClusters.mpr ⟨by decide, by decide, by decide +kernel⟩
      rw [hnone] at hfive
      cases hfive
  · intro c hc
    have hmem := List.mem_of_mem_head? hc
    obtain ⟨-, hhigh, -⟩ := crowdedVolume.mem_freeClusters.mp hmem
    have hmax : fat16MaxClusters = 65525 := rfl
    have hend := crowdedVolume.clusterEnd_le hspc (show c < 65536 by omega)
    have hone : crowdedVolume.bpb.secPerClus = 1 := by decide +kernel
    rw [hone] at hend
    omega

end Icarius
