/-
  Icarius.Fs.Fat16.ChainLookup

  `fat16_get_node_from_path_in_cluster_chain` on a directory that is a chain of clusters:
  which clusters it reads, that it ends, and which entry it returns.  Its loop goes on at
  `FAT16_VALUE_END_OF_CHAIN` itself, the mark this driver writes.
-/

import Icarius.Fs.Fat16.Path

namespace Icarius

open Icarius.Lib

/-! ## The clusters of a search -/

/-- The loop of `fat16_get_node_from_path_in_cluster_chain`, with the clusters it reads -/
def chainLookup (bpb : Fat16Header) (dev : Ata) (startCluster : Nat)
    (fat16Filename : List UInt8) :
    Nat → Nat → Nat → Option (List Nat × Option (DirEntry × Fat16Folder))
  | 0, _, _ => none
  | fuel + 1, currCluster, totalEntries =>
      if currCluster ≤ fat16ValueEndOfChain then
        let buffer := dev.readAt (dataPos bpb currCluster) (maxClusterSizeBytes bpb)
        let numEntries := maxClusterSizeBytes bpb / 32
        match (List.range numEntries).find? fun i =>
            (entryAt buffer i).fileName == fat16Filename with
        | some i =>
            some ([currCluster], some (entryAt buffer i,
              { total := u32 (totalEntries + i)
                startSector := fat16GetSectorFromCluster bpb startCluster
                endSector := fat16GetSectorFromCluster bpb currCluster }))
        | none =>
            (chainLookup bpb dev startCluster fat16Filename fuel
              (fat16GetNextCluster bpb dev currCluster) (totalEntries + numEntries)).map
              fun r => (currCluster :: r.1, r.2)
      else some ([], none)

/-- It is the loop of the driver. -/
theorem chainLookup_snd (bpb : Fat16Header) (dev : Ata) (start : Nat) (name : List UInt8)
    (fuel c total : Nat) :
    (chainLookup bpb dev start name fuel c total).map Prod.snd
      = fat16GetNodeFromPathInClusterChain bpb dev start name fuel c total := by
  induction fuel generalizing c total with
  | zero => rfl
  | succ fuel ih =>
      rw [chainLookup, fat16GetNodeFromPathInClusterChain]
      by_cases hle : c ≤ fat16ValueEndOfChain
      · simp only [hle, if_true]
        cases (List.range (maxClusterSizeBytes bpb / 32)).find? fun i =>
            (entryAt (dev.readAt (dataPos bpb c) (maxClusterSizeBytes bpb)) i).fileName == name with
        | some i => rfl
        | none =>
            simp only [Option.map_map, ← ih]
            rfl
      · simp only [hle, if_false, Option.map_some]

/-! ## What is asked of it -/

/-- The driver reads cluster `c` where it is: every byte it reads for it is one of its
    bytes. -/
def ReadsOwnBytes (vol : Volume) (c : Nat) : Prop :=
  ∀ j < maxClusterSizeBytes vol.bpb,
    vol.clusterPos c ≤ (dataPos vol.bpb c + j) % 2 ^ 32 ∧
      (dataPos vol.bpb c + j) % 2 ^ 32 < vol.clusterPos c + vol.bpb.secPerClus * 512

/-- The first entry with the name in the clusters of a chain -/
def firstNamed (vol : Volume) (cs : List Nat) (name : List UInt8) : Option DirEntry :=
  (cs.flatMap vol.clusterEntries).find? (·.fileName == name)

/-- A search of the chain `cs` ends, reads clusters of the chain only, and returns the first
    entry with the name, if there is one. -/
def LooksUpExactly (vol : Volume) (start : Nat) (cs : List Nat) (name : List UInt8) : Prop :=
  ∃ fuel visited found,
    fat16GetNodeFromPathInClusterChain vol.bpb vol.dev start name fuel start 0 = some found ∧
    chainLookup vol.bpb vol.dev start name fuel start 0 = some (visited, found) ∧
    (∀ c ∈ visited, c ∈ cs ∧ ReadsOwnBytes vol c) ∧
    found.map Prod.fst = firstNamed vol cs name

/-- The entries of cluster `c` within its size as a `uint16_t` -/
def seenEntries (vol : Volume) (c : Nat) : List DirEntry :=
  (List.range (maxClusterSizeBytes vol.bpb / 32)).map fun i =>
    diskEntry vol.dev.disk (vol.clusterPos c + 32 * i)

/-- The first of them with the name -/
def seenNamed (vol : Volume) (name : List UInt8) (c : Nat) : Option DirEntry :=
  (seenEntries vol c).find? (·.fileName == name)

/-- Cluster `c` ends below 4 GiB, as far as it is read. -/
def InReach (vol : Volume) (c : Nat) : Prop :=
  maxClusterSizeBytes vol.bpb = 0 ∨ vol.clusterPos c + maxClusterSizeBytes vol.bpb ≤ 2 ^ 32

/-- What a chain must be for the search to be exact: the name is in it or the mark at its
    end is above `FAT16_VALUE_END_OF_CHAIN`; the size of a cluster as a `uint16_t` does not
    hide the entry; and the clusters up to that entry are in reach. -/
structure Searchable (vol : Volume) (cs : List Nat) (name : List UInt8) : Prop where
  mark : (∃ c ∈ cs, (seenNamed vol name c).isSome) ∨
    vol.fatEntry (cs.getLastD 0) ≠ fat16ValueEndOfChain
  seen : cs.findSome? (seenNamed vol name) = firstNamed vol cs name
  reach : ∀ pre c post, cs = pre ++ c :: post → (∀ x ∈ pre, seenNamed vol name x = none) →
    InReach vol c

/-! ## Reading a cluster in its place -/

section Place

variable (vol : Volume) {c : Nat} (hlow : 2 ≤ c) (hhigh : c < fat16ValueEndOfChain)
include hlow hhigh

theorem readsOwnBytes_iff : ReadsOwnBytes vol c ↔ InReach vol c := by
  have hmark : fat16ValueEndOfChain = 0xFFF8 := rfl
  have hsize : maxClusterSizeBytes vol.bpb ≤ vol.bpb.secPerClus * 512 := by
    rw [maxClusterSizeBytes, vol.bytsPerSec]
    exact Nat.mod_le _ _
  have hbase : 0 < vol.clusterPos c := by
    simp only [Volume.clusterPos, Volume.rootPos, partitionOffset]
    omega
  constructor
  · intro h
    by_cases hzero : maxClusterSizeBytes vol.bpb = 0
    · exact .inl hzero
    · have hfirst := h 0 (by omega)
      have hmod : (dataPos vol.bpb c + 0) % 2 ^ 32 < 2 ^ 32 := Nat.mod_lt _ (by decide)
      have hpos := vol.dataPos_eq hlow (by omega) (Nat.lt_of_le_of_lt hfirst.1 hmod)
      refine .inr ?_
      by_contra hend
      -- the byte at 4 GiB is read at 0
      have hwrap := (h (2 ^ 32 - vol.clusterPos c) (by omega)).1
      rw [hpos] at hwrap hfirst
      omega
  · rintro (hzero | hend) j hj
    · omega
    · rw [vol.dataPos_eq hlow (by omega) (by omega), Nat.mod_eq_of_lt (by omega)]
      omega

/-- A cluster in reach is seen as it is on the disk. -/
theorem walkEntries_of_reach (h : InReach vol c) : walkEntries vol c = seenEntries vol c := by
  have hmark : fat16ValueEndOfChain = 0xFFF8 := rfl
  rcases h with hzero | hend
  · rw [walkEntries, seenEntries, hzero]
    rfl
  · by_cases hzero : maxClusterSizeBytes vol.bpb = 0
    · rw [walkEntries, seenEntries, hzero]
      rfl
    · have hmod : vol.clusterPos c % 512 = 0 := by
        simp only [Volume.clusterPos, Volume.rootPos, partitionOffset]
        omega
      rw [walkEntries, seenEntries, vol.dataPos_eq hlow (by omega) (by omega),
        readAt_disk _ hend (.inl hmod)]
      apply List.map_congr_left
      intro i hi
      have hlt := List.mem_range.mp hi
      exact entryAt_map_range (by omega)

end Place

/-! ## The run of a search -/

section Run

variable (vol : Volume) (start : Nat) (name : List UInt8)

/-- What the driver finds in cluster `c` -/
def walkNamed (c : Nat) : Option DirEntry := (walkEntries vol c).find? (·.fileName == name)

theorem chainLookup_hit {fuel c total : Nat} {e : DirEntry} (hle : c ≤ fat16ValueEndOfChain)
    (hhit : walkNamed vol name c = some e) :
    ∃ folder, chainLookup vol.bpb vol.dev start name (fuel + 1) c total
      = some ([c], some (e, folder)) := by
  rw [walkNamed, walkEntries, List.find?_map] at hhit
  obtain ⟨i, hindex, rfl⟩ := Option.map_eq_some_iff.mp hhit
  simp only [Function.comp_def] at hindex
  rw [chainLookup, if_pos hle]
  simp only [hindex]
  exact ⟨_, rfl⟩

theorem chainLookup_miss {c : Nat} (fuel total : Nat) (hle : c ≤ fat16ValueEndOfChain)
    (hmiss : walkNamed vol name c = none) :
    ∃ total', chainLookup vol.bpb vol.dev start name (fuel + 1) c total
      = (chainLookup vol.bpb vol.dev start name fuel (vol.fatEntry c) total').map
          fun r => (c :: r.1, r.2) := by
  have hmark : fat16ValueEndOfChain = 0xFFF8 := rfl
  rw [walkNamed, walkEntries, List.find?_map, Option.map_eq_none_iff] at hmiss
  simp only [Function.comp_def] at hmiss
  rw [chainLookup, if_pos hle]
  simp only [hmiss, vol.nextCluster (show c < 65536 by omega)]
  exact ⟨_, rfl⟩

/-- The name is found in a cluster of the chain. -/
theorem chainLookup_found {pre post : List Nat} {c x : Nat} {e : DirEntry} (fuel total : Nat)
    (hchain : vol.Chain c (pre ++ x :: post)) (hmiss : ∀ y ∈ pre, walkNamed vol name y = none)
    (hhit : walkNamed vol name x = some e) :
    ∃ folder, chainLookup vol.bpb vol.dev start name (fuel + 1 + pre.length) c total
      = some (pre ++ [x], some (e, folder)) := by
  induction pre generalizing c total with
  | nil =>
      obtain ⟨rest, hrest⟩ := hchain.head
      obtain ⟨rfl, -⟩ := List.cons.inj hrest
      exact chainLookup_hit vol start name (Nat.le_of_lt hchain.live_head.2) hhit
  | cons y pre ih =>
      obtain ⟨rest, hrest⟩ := hchain.head
      obtain ⟨rfl, -⟩ := List.cons.inj hrest
      have hle := Nat.le_of_lt hchain.live_head.2
      obtain ⟨total', hround⟩ := chainLookup_miss vol start name (fuel + 1 + pre.length)
        total hle (hmiss y List.mem_cons_self)
      have hlater : vol.Chain (vol.fatEntry y) (pre ++ x :: post) :=
        hchain.tail (List.append_ne_nil_of_right_ne_nil pre (List.cons_ne_nil x post))
      obtain ⟨folder, hrun⟩ := ih total' hlater fun z hz => hmiss z (List.mem_cons_of_mem y hz)
      refine ⟨folder, ?_⟩
      rw [List.length_cons, ← Nat.add_assoc, hround, hrun]
      rfl

/-- The name is in no cluster of the chain: the search comes to its end mark. -/
theorem chainLookup_missed {cs : List Nat} {c : Nat} (fuel total : Nat) (hchain : vol.Chain c cs)
    (hmiss : ∀ y ∈ cs, walkNamed vol name y = none) :
    ∃ total', chainLookup vol.bpb vol.dev start name (fuel + cs.length) c total
      = (chainLookup vol.bpb vol.dev start name fuel (vol.fatEntry (cs.getLastD 0)) total').map
          fun r => (cs ++ r.1, r.2) := by
  induction hchain generalizing total with
  | @last c hlive _ =>
      exact chainLookup_miss vol start name fuel total (Nat.le_of_lt hlive.2)
        (hmiss c (List.mem_singleton_self c))
  | @link c cs hlive hrest ih =>
      obtain ⟨total', hround⟩ := chainLookup_miss vol start name (fuel + cs.length) total
        (Nat.le_of_lt hlive.2) (hmiss c List.mem_cons_self)
      obtain ⟨total'', hlater⟩ := ih total' fun y hy => hmiss y (List.mem_cons_of_mem c hy)
      obtain ⟨rest, rfl⟩ := hrest.head
      refine ⟨total'', ?_⟩
      rw [List.length_cons, ← Nat.add_assoc, hround, hlater, Option.map_map, List.getLastD_cons,
        List.getLastD_cons, List.getLastD_cons]
      rfl

/-- More rounds do not change a search that has ended. -/
theorem chainLookup_mono {fuel c total : Nat} {r : List Nat × Option (DirEntry × Fat16Folder)}
    (more : Nat) (h : chainLookup vol.bpb vol.dev start name fuel c total = some r) :
    chainLookup vol.bpb vol.dev start name (fuel + more) c total = some r := by
  induction fuel generalizing c total r with
  | zero => cases h
  | succ fuel ih =>
      rw [Nat.add_right_comm, chainLookup]
      rw [chainLookup] at h
      by_cases hle : c ≤ fat16ValueEndOfChain
      · simp only [hle, if_true] at h ⊢
        split at h
        · exact h
        · obtain ⟨r', hr', rfl⟩ := Option.map_eq_some_iff.mp h
          rw [ih hr']
          rfl
      · rw [if_neg hle] at h ⊢
        exact h

/-- A search that starts at `FAT16_VALUE_END_OF_CHAIN` or below reads that cluster. -/
theorem mem_of_chainLookup {fuel c total : Nat} {r : List Nat × Option (DirEntry × Fat16Folder)}
    (hle : c ≤ fat16ValueEndOfChain)
    (h : chainLookup vol.bpb vol.dev start name fuel c total = some r) : c ∈ r.1 := by
  cases fuel with
  | zero => cases h
  | succ fuel =>
      rw [chainLookup, if_pos hle] at h
      simp only at h
      split at h
      · rw [← Option.some.inj h]
        exact List.mem_singleton_self c
      · obtain ⟨r', -, rfl⟩ := Option.map_eq_some_iff.mp h
        exact List.mem_cons_self

/-- A search that starts above it reads nothing. -/
theorem chainLookup_end {fuel c total : Nat} (hgt : fat16ValueEndOfChain < c) :
    chainLookup vol.bpb vol.dev start name (fuel + 1) c total = some ([], none) := by
  rw [chainLookup, if_neg (Nat.not_le.mpr hgt)]

end Run

/-! ## Exactly when a search is exact -/

theorem firstNamed_eq (vol : Volume) (cs : List Nat) (name : List UInt8) :
    firstNamed vol cs name
      = cs.findSome? fun c => (vol.clusterEntries c).find? (·.fileName == name) := by
  rw [firstNamed, List.find?_flatMap]

section Exactly

variable {vol : Volume} {start : Nat} {cs : List Nat} {name : List UInt8}
  (hchain : vol.Chain start cs)
include hchain

/-- In reach, the driver finds in a cluster what is seen there. -/
theorem walkNamed_of_reach {c : Nat} (hc : c ∈ cs) (h : InReach vol c) :
    walkNamed vol name c = seenNamed vol name c := by
  obtain ⟨hlow, hhigh⟩ := hchain.live_of_mem c hc
  rw [walkNamed, walkEntries_of_reach vol hlow hhigh h, seenNamed]

theorem Searchable.looksUp (h : Searchable vol cs name) : LooksUpExactly vol start cs name := by
  -- the clusters up to the first one with the name are read where they are
  have hplace : ∀ pre post, cs = pre ++ post → (∀ x ∈ pre, seenNamed vol name x = none) →
      (∀ x ∈ pre, walkNamed vol name x = none ∧ x ∈ cs ∧ ReadsOwnBytes vol x) ∧
        ∀ c rest, post = c :: rest →
          walkNamed vol name c = seenNamed vol name c ∧ ReadsOwnBytes vol c := by
    intro pre post heq hmiss
    constructor
    · intro x hx
      obtain ⟨pre₁, pre₂, rfl⟩ := List.append_of_mem hx
      have hmem : x ∈ cs := heq ▸ List.mem_append_left post hx
      have hreach := h.reach pre₁ x (pre₂ ++ post) (by rw [heq, List.append_assoc]; rfl)
        fun y hy => hmiss y (List.mem_append_left _ hy)
      obtain ⟨hlow, hhigh⟩ := hchain.live_of_mem x hmem
      rw [walkNamed_of_reach hchain hmem hreach]
      exact ⟨hmiss x hx, hmem, (readsOwnBytes_iff vol hlow hhigh).mpr hreach⟩
    · rintro c rest rfl
      have hmem : c ∈ cs := heq ▸ List.mem_append_right pre List.mem_cons_self
      have hreach := h.reach pre c rest heq hmiss
      obtain ⟨hlow, hhigh⟩ := hchain.live_of_mem c hmem
      exact ⟨walkNamed_of_reach hchain hmem hreach, (readsOwnBytes_iff vol hlow hhigh).mpr hreach⟩
  cases hfirst : cs.findSome? (seenNamed vol name) with
  | some e =>
      obtain ⟨pre, x, post, heq, hhit, hmiss⟩ := List.findSome?_eq_some_iff.mp hfirst
      obtain ⟨hpre, hx⟩ := hplace pre (x :: post) heq hmiss
      obtain ⟨hwalk, hreads⟩ := hx x post rfl
      obtain ⟨folder, hrun⟩ := chainLookup_found vol start name 0 0 (heq ▸ hchain)
        (fun y hy => (hpre y hy).1) (hwalk.trans hhit)
      refine ⟨_, _, _, ?_, hrun, ?_, ?_⟩
      · rw [← chainLookup_snd, hrun, Option.map_some]
      · intro c hc
        rcases List.mem_append.mp hc with hc | hc
        · exact (hpre c hc).2
        · obtain rfl := List.mem_singleton.mp hc
          exact ⟨heq ▸ List.mem_append_right pre List.mem_cons_self, hreads⟩
      · rw [← h.seen, hfirst]
        rfl
  | none =>
      have hmiss := List.findSome?_eq_none_iff.mp hfirst
      obtain ⟨hall, -⟩ := hplace cs [] (List.append_nil cs).symm hmiss
      have hmark : vol.fatEntry (cs.getLastD 0) ≠ fat16ValueEndOfChain := by
        refine h.mark.resolve_left ?_
        rintro ⟨c, hc, hsome⟩
        rw [hmiss c hc] at hsome
        exact Bool.false_ne_true hsome
      have hend : fat16ValueEndOfChain ≤ vol.fatEntry (cs.getLastD 0) := hchain.ended_getLastD 0
      obtain ⟨total', hrun⟩ := chainLookup_missed vol start name 1 0 hchain fun y hy => (hall y hy).1
      rw [chainLookup_end vol start name (by omega), Option.map_some, List.append_nil] at hrun
      refine ⟨_, _, _, ?_, hrun, fun c hc => (hall c hc).2, ?_⟩
      · rw [← chainLookup_snd, hrun, Option.map_some]
      · rw [← h.seen, hfirst]
        rfl

theorem LooksUpExactly.searchable (h : LooksUpExactly vol start cs name) :
    Searchable vol cs name := by
  obtain ⟨fuel, visited, found, -, hrun, hvisited, hfound⟩ := h
  -- where the driver read the cluster it meant, what it saw is what is there
  have hreach : ∀ c ∈ visited, InReach vol c := by
    intro c hc
    obtain ⟨hmem, hreads⟩ := hvisited c hc
    obtain ⟨hlow, hhigh⟩ := hchain.live_of_mem c hmem
    exact (readsOwnBytes_iff vol hlow hhigh).mp hreads
  have hwalk : ∀ c ∈ visited, walkNamed vol name c = seenNamed vol name c :=
    fun c hc => walkNamed_of_reach hchain (hvisited c hc).1 (hreach c hc)
  cases hfirst : cs.findSome? (walkNamed vol name) with
  -- a hit: the driver stops at the first cluster with the name
  | some e =>
      obtain ⟨pre, x, post, heq, hhit, hmiss⟩ := List.findSome?_eq_some_iff.mp hfirst
      obtain ⟨folder, hrun'⟩ := chainLookup_found vol start name fuel 0 (heq ▸ hchain) hmiss hhit
      have hmono := chainLookup_mono vol start name (1 + pre.length) hrun
      rw [← Nat.add_assoc, hrun'] at hmono
      obtain ⟨rfl, rfl⟩ := Prod.mk.inj (Option.some.inj hmono)
      have hx : x ∈ pre ++ [x] := List.mem_append_right pre (List.mem_singleton_self x)
      have hseen : seenNamed vol name x = some e := (hwalk x hx).symm.trans hhit
      have hpre : ∀ y ∈ pre, seenNamed vol name y = none :=
        fun y hy => (hwalk y (List.mem_append_left _ hy)).symm.trans (hmiss y hy)
      refine ⟨.inl ⟨x, heq ▸ List.mem_append_right pre List.mem_cons_self, ?_⟩, ?_, ?_⟩
      · rw [hseen]
        rfl
      · rw [← hfound, heq, List.findSome?_eq_some_iff.mpr ⟨pre, x, post, rfl, hseen, hpre⟩]
        rfl
      · -- a cluster behind `x` has `x` in front of it
        intro pre' c post' heq' hmiss'
        apply hreach c
        rw [heq] at heq'
        rcases List.append_eq_append_iff.mp heq' with ⟨mid, hpre', hpost⟩ | ⟨mid, hpre', hpost⟩
        · cases mid with
          | nil =>
              obtain ⟨rfl, -⟩ := List.cons.inj hpost
              exact hx
          | cons z mid =>
              obtain ⟨rfl, -⟩ := List.cons.inj hpost
              have hnone := hmiss' x (hpre' ▸ List.mem_append_right pre List.mem_cons_self)
              rw [hseen] at hnone
              cases hnone
        · cases mid with
          | nil =>
              obtain ⟨rfl, -⟩ := List.cons.inj hpost
              exact hx
          | cons z mid =>
              obtain ⟨rfl, -⟩ := List.cons.inj hpost
              refine List.mem_append_left [x] ?_
              rw [hpre']
              exact List.mem_append_right pre' List.mem_cons_self
  -- no hit: the driver comes to the end of the chain
  | none =>
      have hmiss := List.findSome?_eq_none_iff.mp hfirst
      obtain ⟨total', hrun'⟩ := chainLookup_missed vol start name fuel 0 hchain hmiss
      rw [chainLookup_mono vol start name cs.length hrun] at hrun'
      obtain ⟨r, hr, hpair⟩ := Option.map_eq_some_iff.mp hrun'.symm
      obtain ⟨rfl, rfl⟩ := Prod.mk.inj hpair
      have hend : fat16ValueEndOfChain ≤ vol.fatEntry (cs.getLastD 0) := hchain.ended_getLastD 0
      -- an end mark of 0xFFF8 itself would have been read as a cluster
      have hmark : vol.fatEntry (cs.getLastD 0) ≠ fat16ValueEndOfChain := by
        intro heq
        have hmem := mem_of_chainLookup vol start name (Nat.le_of_eq heq) hr
        have hlive := hchain.live_of_mem _ (hvisited _ (List.mem_append_right cs hmem)).1
        omega
      have hnone : r.2 = none := by
        cases fuel with
        | zero => cases hr
        | succ fuel =>
            rw [chainLookup_end vol start name (by omega)] at hr
            rw [← Option.some.inj hr]
      have hseen : ∀ c ∈ cs, seenNamed vol name c = none :=
        fun c hc => (hwalk c (List.mem_append_left _ hc)).symm.trans (hmiss c hc)
      refine ⟨.inr hmark, ?_, ?_⟩
      · rw [List.findSome?_eq_none_iff.mpr hseen, ← hfound, hnone]
        rfl
      · intro pre c post heq _
        exact hreach c (List.mem_append_left _ (heq ▸ List.mem_append_right pre List.mem_cons_self))

end Exactly

/-- With at most 64 sectors in a cluster, only the mark at the end of the chain matters. -/
theorem searchable_iff {vol : Volume} {start : Nat} {cs : List Nat} (name : List UInt8)
    (hchain : vol.Chain start cs) (hspc : vol.bpb.secPerClus ≤ 64) :
    Searchable vol cs name ↔
      (firstNamed vol cs name).isSome ∨
        vol.fatEntry (cs.getLastD 0) ≠ fat16ValueEndOfChain := by
  have hmark : fat16ValueEndOfChain = 0xFFF8 := rfl
  have hsize : maxClusterSizeBytes vol.bpb = vol.bpb.secPerClus * 512 := by
    rw [maxClusterSizeBytes, vol.bytsPerSec, u16]
    omega
  have hentries : ∀ c, seenEntries vol c = vol.clusterEntries c := by
    intro c
    have hcount : vol.bpb.secPerClus * 512 / 32 = vol.bpb.secPerClus * 16 := by omega
    rw [seenEntries, Volume.clusterEntries, hsize, hcount]
  have hnamed : seenNamed vol name
      = fun c => (vol.clusterEntries c).find? (·.fileName == name) := by
    funext c
    rw [seenNamed, hentries]
  have hseen : cs.findSome? (seenNamed vol name) = firstNamed vol cs name := by
    rw [firstNamed_eq, hnamed]
  have hany : (∃ c ∈ cs, (seenNamed vol name c).isSome) ↔ (firstNamed vol cs name).isSome := by
    rw [← hseen, List.findSome?_isSome_iff]
  rw [← hany]
  refine ⟨fun h => h.mark, fun h => ⟨h, hseen, ?_⟩⟩
  intro pre c post heq _
  obtain ⟨hlow, hhigh⟩ := hchain.live_of_mem c (heq ▸ List.mem_append_right pre List.mem_cons_self)
  right
  rw [hsize]
  exact vol.clusterEnd_le hspc (by omega)

/-- A search of a chain is exact exactly when the chain is searchable. -/
theorem looksUpExactly_iff (vol : Volume) (start : Nat) (cs : List Nat) (name : List UInt8)
    (hchain : vol.Chain start cs) : LooksUpExactly vol start cs name ↔ Searchable vol cs name :=
  ⟨fun h => h.searchable hchain, fun h => h.looksUp hchain⟩

/-- The directory `A` of `deepVolume`, which has one cluster and a mark above
    `FAT16_VALUE_END_OF_CHAIN` -/
theorem looksUpExactly_deep :
    LooksUpExactly deepVolume 2 [2] (PathNode.native ⟨emptyNode.identifier.write 0 [67]⟩) := by
  have hchain : deepVolume.Chain 2 [2] := .last (by decide) (by decide +kernel)
  refine (looksUpExactly_iff deepVolume 2 [2] _ hchain).mpr ?_
  exact (searchable_iff _ hchain (by decide +kernel)).mpr (.inr (by decide +kernel))

/-! ## The mark the driver writes -/

/-- `deepDisk`, but the directory `A` ends with `FAT16_VALUE_END_OF_CHAIN`. -/
def markedDisk : Mem := deepDisk.write 0x100204 [0xF8, 0xFF]

theorem markedDisk_mounted : (fat16Resolve ⟨markedDisk, fun _ => 0⟩).isSome = true := by
  decide +kernel

/-- The volume on `markedDisk` -/
def markedVolume : Volume where
  dev := ⟨markedDisk, fun _ => 0⟩
  bpb := (fat16Resolve ⟨markedDisk, fun _ => 0⟩).get markedDisk_mounted
  mounted := (Option.some_get markedDisk_mounted).symm

/-- A search for a name that is not in the directory leaves its chain. -/
theorem exists_chain_left : ¬ ∀ (vol : Volume) (start : Nat) (cs : List Nat) (name : List UInt8),
    vol.Chain start cs → name.length = 11 → LooksUpExactly vol start cs name := by
  intro hall
  have hchain : markedVolume.Chain 2 [2] := .last (by decide) (by decide +kernel)
  have hsearchable := (hall markedVolume 2 [2]
    (PathNode.native ⟨emptyNode.identifier.write 0 [67]⟩) hchain (by decide)).searchable hchain
  rw [searchable_iff _ hchain (by decide +kernel)] at hsearchable
  exact absurd hsearchable (by decide +kernel)

end Icarius
