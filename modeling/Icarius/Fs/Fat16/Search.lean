/-
  Icarius.Fs.Fat16.Search

  The walks of the driver along a cluster chain that look at nothing but the FAT for
  their end: the length of a chain, and the two searches for a directory entry by its
  name.  None of them counts its steps.

  A walk is given a number of look-ups in the FAT, and has no result when it needs more
  of them.
-/

import Icarius.Fs.Fat16.Path
import Icarius.Lib.Walk

namespace Icarius

open Icarius.Lib

/-! ## The walks -/

/-- What `fat16_get_cluster_chain_length` comes to: its first line divides. -/
inductive ChainLength
  | divideFault
  | blocks (usedBlocks : Nat)
  deriving DecidableEq, Repr

/-- The loop of `fat16_get_cluster_chain_length`, with the look-up before it -/
def chainLengthLoop (bpb : Fat16Header) (dev : Ata) : Nat → Nat → Nat → Option Nat
  | 0, _, _ => none
  | lookups + 1, usedBlocks, currCluster =>
      let nextCluster := fat16GetNextCluster bpb dev currCluster
      if nextCluster < fat16ValueEndOfChain then
        chainLengthLoop bpb dev lookups (u16 (usedBlocks + 1)) nextCluster
      else some usedBlocks

/-- `fat16_get_cluster_chain_length` -/
def fat16GetClusterChainLength (bpb : Fat16Header) (dev : Ata) (lookups : Nat)
    (maxClusterSizeBytes startCluster : Nat) : Option ChainLength :=
  if maxClusterSizeBytes = 0 then some .divideFault
  else
    (chainLengthLoop bpb dev lookups 1 (u16 (0 / maxClusterSizeBytes + startCluster))).map
      .blocks

/-- The search of a cluster for an entry with the name: its index -/
def clusterSearch (bpb : Fat16Header) (dev : Ata) (filename : List UInt8) (cluster : Nat) :
    Option Nat :=
  let buffer := dev.readAt (dataPos bpb cluster) (maxClusterSizeBytes bpb)
  let numEntries := maxClusterSizeBytes bpb / 32
  (List.range numEntries).find? fun i => (entryAt buffer i).fileName == filename

/-- A search of the clusters from `currCluster` on; `found` is what it returns for an
    entry, by its cluster and index. -/
def searchClusters (found : Nat → Nat → Nat) (bpb : Fat16Header) (dev : Ata) (lookups : Nat)
    (filename : List UInt8) (currCluster : Nat) : Option Nat :=
  walk (fat16GetNextCluster bpb dev)
    (fun c =>
      if c < fat16ValueEndOfChain then (clusterSearch bpb dev filename c).map (found c)
      else some 0)
    lookups (u16 currCluster)

/-- `fat16_scan_dir` -/
def fat16ScanDir (bpb : Fat16Header) (dev : Ata) (lookups dirCluster : Nat)
    (filename : List UInt8) : Option Nat :=
  searchClusters (fun currCluster _ => currCluster) bpb dev lookups filename dirCluster

/-- `fat16_find_entry_offset` -/
def fat16FindEntryOffset (bpb : Fat16Header) (dev : Ata) (lookups folderCluster : Nat)
    (filename : List UInt8) : Option Nat :=
  searchClusters (fun currCluster i => u32 (dataPos bpb currCluster + i * 32)) bpb dev lookups
    filename folderCluster

/-! ## Where they end -/

namespace Volume

variable (vol : Volume)

/-- The `i`-th cluster the FAT leads to from cluster `c` -/
def clusterAfter (c i : Nat) : Nat := vol.fatEntry^[i] c

/-- The driver reads an entry with the name in cluster `c`. -/
def HasName (filename : List UInt8) (c : Nat) : Prop :=
  ∃ e ∈ walkEntries vol c, e.fileName = filename

theorem clusterAfter_lt {c : Nat} (h : c < 65536) (i : Nat) : vol.clusterAfter c i < 65536 := by
  cases i with
  | zero => exact h
  | succ i =>
      rw [clusterAfter, Function.iterate_succ_apply']
      exact vol.fatEntry_lt _

/-- The driver's look-ups lead where the FAT leads. -/
theorem iterate_getNextCluster {c : Nat} (h : c < 65536) (i : Nat) :
    (fat16GetNextCluster vol.bpb vol.dev)^[i] c = vol.clusterAfter c i := by
  induction i with
  | zero => rfl
  | succ i ih =>
      rw [Function.iterate_succ_apply', ih, vol.nextCluster (vol.clusterAfter_lt h i), clusterAfter,
        clusterAfter, Function.iterate_succ_apply']

theorem clusterSearch_isSome_iff (filename : List UInt8) (c : Nat) :
    (clusterSearch vol.bpb vol.dev filename c).isSome ↔ vol.HasName filename c := by
  rw [clusterSearch, List.find?_isSome, HasName, walkEntries]
  simp only [List.mem_map, beq_iff_eq]
  constructor
  · rintro ⟨i, hi, hname⟩
    exact ⟨_, ⟨i, hi, rfl⟩, hname⟩
  · rintro ⟨e, ⟨i, hi, rfl⟩, hname⟩
    exact ⟨i, hi, hname⟩

/-- The length of a chain is found when an entry of the FAT on the way is an end mark. -/
theorem chainLengthLoop_isSome (lookups usedBlocks currCluster : Nat) :
    (chainLengthLoop vol.bpb vol.dev (lookups + 1) usedBlocks currCluster).isSome
      = (walk (fat16GetNextCluster vol.bpb vol.dev)
          (fun c => if c < fat16ValueEndOfChain then none else some ()) lookups
          (fat16GetNextCluster vol.bpb vol.dev currCluster)).isSome := by
  induction lookups generalizing usedBlocks currCluster with
  | zero =>
      rw [chainLengthLoop, walk]
      by_cases hlive : fat16GetNextCluster vol.bpb vol.dev currCluster < fat16ValueEndOfChain
      · simp only [hlive, if_true, chainLengthLoop, Option.isSome_none]
      · simp only [hlive, if_false, Option.isSome_some]
  | succ lookups ih =>
      rw [chainLengthLoop, walk]
      by_cases hlive : fat16GetNextCluster vol.bpb vol.dev currCluster < fat16ValueEndOfChain
      · simp only [hlive, if_true, Option.none_or]
        exact ih _ _
      · simp only [hlive, if_false, Option.isSome_some, Option.some_or]

/-- 65536 look-ups are enough for a walk that goes on below the end mark only. -/
theorem walk_isSome {β : Type} {answer : Nat → Option β} {c budget : Nat}
    (hbudget : fat16ValueEndOfChain ≤ budget)
    (hend : ∀ c, answer c = none → c < fat16ValueEndOfChain) :
    (walk (fat16GetNextCluster vol.bpb vol.dev) answer budget c).isSome ↔
      ∃ i, (answer ((fat16GetNextCluster vol.bpb vol.dev)^[i] c)).isSome := by
  apply walk_isSome_of_card_le (Finset.range fat16ValueEndOfChain)
  · rwa [Finset.card_range]
  · intro i hnone
    exact Finset.mem_range.mpr (hend _ hnone)

theorem searchClusters_isSome_iff (found : Nat → Nat → Nat) (start : Nat)
    (filename : List UInt8) :
    (searchClusters found vol.bpb vol.dev 65536 filename start).isSome ↔
      ∃ i, fat16ValueEndOfChain ≤ vol.clusterAfter (u16 start) i ∨
        vol.HasName filename (vol.clusterAfter (u16 start) i) := by
  have hstart : u16 start < 65536 := Nat.mod_lt _ (by decide)
  rw [searchClusters, vol.walk_isSome (by decide)]
  · apply exists_congr
    intro i
    rw [vol.iterate_getNextCluster hstart]
    generalize vol.clusterAfter (u16 start) i = c
    by_cases hlive : c < fat16ValueEndOfChain
    · rw [if_pos hlive, Option.isSome_map, vol.clusterSearch_isSome_iff]
      constructor
      · exact Or.inr
      · rintro (hend | hname)
        · omega
        · exact hname
    · rw [if_neg hlive]
      simp only [Option.isSome_some, true_iff]
      exact .inl (by omega)
  · intro c hnone
    by_contra hend
    rw [if_neg hend] at hnone
    cases hnone

theorem chainLength_isSome_iff (maxSize start : Nat) :
    (fat16GetClusterChainLength vol.bpb vol.dev 65536 maxSize start).isSome ↔
      maxSize = 0 ∨ ∃ i, fat16ValueEndOfChain ≤ vol.clusterAfter (u16 start) (i + 1) := by
  have hstart : u16 start < 65536 := Nat.mod_lt _ (by decide)
  rw [fat16GetClusterChainLength]
  by_cases hzero : maxSize = 0
  · simp only [hzero, if_true, Option.isSome_some, true_or]
  · rw [if_neg hzero, Option.isSome_map, Nat.zero_div, Nat.zero_add,
      vol.chainLengthLoop_isSome 65535, vol.walk_isSome (by decide)]
    · simp only [hzero, false_or]
      apply exists_congr
      intro i
      rw [← Function.iterate_succ_apply, vol.iterate_getNextCluster hstart]
      generalize vol.clusterAfter (u16 start) (i + 1) = c
      by_cases hlive : c < fat16ValueEndOfChain
      · rw [if_pos hlive]
        simp only [Option.isSome_none, Bool.false_eq_true, false_iff]
        omega
      · rw [if_neg hlive]
        simp only [Option.isSome_some, true_iff]
        omega
    · intro c hnone
      by_contra hend
      rw [if_neg hend] at hnone
      cases hnone

/-- The walks end within 65536 look-ups exactly when the FAT leads from the start
    cluster to an end mark, behind the start for the length of a chain; a search ends
    also at a cluster with the name. -/
theorem walks_end_iff (maxSize start : Nat) (filename : List UInt8) :
    ((fat16GetClusterChainLength vol.bpb vol.dev 65536 maxSize start).isSome ↔
      maxSize = 0 ∨ ∃ i, fat16ValueEndOfChain ≤ vol.clusterAfter (u16 start) (i + 1)) ∧
    ((fat16ScanDir vol.bpb vol.dev 65536 start filename).isSome ↔
      ∃ i, fat16ValueEndOfChain ≤ vol.clusterAfter (u16 start) i ∨
        vol.HasName filename (vol.clusterAfter (u16 start) i)) ∧
    ((fat16FindEntryOffset vol.bpb vol.dev 65536 start filename).isSome ↔
      ∃ i, fat16ValueEndOfChain ≤ vol.clusterAfter (u16 start) i ∨
        vol.HasName filename (vol.clusterAfter (u16 start) i)) :=
  ⟨vol.chainLength_isSome_iff maxSize start, vol.searchClusters_isSome_iff _ start filename,
    vol.searchClusters_isSome_iff _ start filename⟩

end Volume

/-! ## A cluster in front of itself -/

/-- `deepDisk`, but the FAT says that cluster 2 is behind cluster 2. -/
def loopDisk : Mem := deepDisk.write 0x100204 [2, 0]

theorem loopDisk_mounted : (fat16Resolve ⟨loopDisk, fun _ => 0⟩).isSome = true := by
  decide +kernel

/-- The volume on `loopDisk` -/
def loopVolume : Volume where
  dev := ⟨loopDisk, fun _ => 0⟩
  bpb := (fat16Resolve ⟨loopDisk, fun _ => 0⟩).get loopDisk_mounted
  mounted := (Option.some_get loopDisk_mounted).symm

/-- From cluster 2 no walk for a name that is not in it ends. -/
theorem exists_endless_walk : ¬ ∀ (vol : Volume) (start : Nat) (filename : List UInt8),
    (fat16GetClusterChainLength vol.bpb vol.dev 65536 (maxClusterSizeBytes vol.bpb) start).isSome ∧
      (fat16ScanDir vol.bpb vol.dev 65536 start filename).isSome ∧
      (fat16FindEntryOffset vol.bpb vol.dev 65536 start filename).isSome := by
  intro hall
  have hlen := (hall loopVolume 2 []).1
  have hself : loopVolume.fatEntry 2 = 2 := by decide +kernel
  have hstay : ∀ i, loopVolume.clusterAfter (u16 2) i = 2 := fun i => Function.iterate_fixed hself i
  have hsize : maxClusterSizeBytes loopVolume.bpb ≠ 0 := by decide +kernel
  rw [loopVolume.chainLength_isSome_iff] at hlen
  rcases hlen with hzero | ⟨i, hend⟩
  · exact hsize hzero
  · rw [hstay] at hend
    exact absurd hend (by decide)

end Icarius
