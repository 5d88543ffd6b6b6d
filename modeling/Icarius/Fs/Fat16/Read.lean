/-
  Icarius.Fs.Fat16.Read

  `fat16_read`.  The driver takes the first cluster of a file plus `pos` divided by the
  size of a cluster for the cluster `pos` is in, reads every cluster from the offset of
  `pos` on, and does not look at the size of the file.  `readsContent_iff` says when what
  it reads is the content of the file, and `readsInPlace_of_contiguous` that files without
  fragments are such a case.
-/

import Icarius.Fs.Fat16.Path

namespace Icarius

open Icarius.Lib

/-! ## The driver -/

/-- `fat16_fd_t` -/
structure Fat16Fd where
  entry : Fat16Node
  pos : Nat

/-- What a read leaves: the bytes put in the buffer, the count that is returned, and the
    position of the descriptor. -/
structure ReadResult where
  buffer : List UInt8
  bytesRead : Nat
  pos : Nat
  deriving DecidableEq

/-- `fat16_get_cluster_from_descriptor` -/
def fat16GetClusterFromDescriptor (fat16Descriptor : Fat16Fd) : Nat :=
  let entry := fat16Descriptor.entry.entry
  fat16GetCombinedCluster entry.highCluster entry.lowCluster

/-- The loop of `fat16_read`; each round reads a byte at least. -/
def fat16ReadLoop (bpb : Fat16Header) (dev : Ata) (firstClusterOffset : Nat) :
    Nat → Nat → Nat → Nat → List UInt8 × Nat
  | 0, _, _, pos => ([], pos)
  | fuel + 1, currCluster, remainingBytes, pos =>
      if remainingBytes = 0 then ([], pos)
      else
        let readSize :=
          if remainingBytes < maxClusterSizeBytes bpb then remainingBytes
          else maxClusterSizeBytes bpb
        let bytes := dev.readAt (u32 (dataPos bpb currCluster + firstClusterOffset)) readSize
        let pos := u32 (pos + readSize)
        let nextCluster := fat16GetNextCluster bpb dev currCluster
        if nextCluster ≥ fat16ValueEndOfChain then (bytes, pos)
        else
          let (rest, pos) := fat16ReadLoop bpb dev firstClusterOffset fuel nextCluster
            (remainingBytes - readSize) pos
          (bytes ++ rest, pos)

/-- The file is read to its end. -/
def atFileEnd (fat16Descriptor : Fat16Fd) : Bool :=
  match fat16Descriptor.entry with
  | .file entry => fat16Descriptor.pos ≥ entry.fileSize
  | .dir _ _ => false

/-- `fat16_read`; `none` is the fault of a division by zero. -/
def fat16Read (bpb : Fat16Header) (dev : Ata) (fat16Descriptor : Fat16Fd) (nBytes nBlocks : Nat) :
    Option ReadResult :=
  let pos := fat16Descriptor.pos
  if atFileEnd fat16Descriptor then some ⟨[], 0, pos⟩
  else if maxClusterSizeBytes bpb = 0 then none
  else
    let startCluster := fat16GetClusterFromDescriptor fat16Descriptor
    let currCluster := u16 (pos / maxClusterSizeBytes bpb + startCluster)
    let firstClusterOffset := pos % maxClusterSizeBytes bpb
    let remainingBytes := u32 (nBytes * nBlocks)
    let (buffer, pos) :=
      fat16ReadLoop bpb dev firstClusterOffset remainingBytes currCluster remainingBytes pos
    some ⟨buffer, buffer.length, pos⟩

/-! ## Files and their content -/

/-- The size of a cluster in bytes -/
def Volume.clusterBytes (vol : Volume) : Nat := vol.bpb.secPerClus * 512

/-- The bytes of cluster `c` -/
def Volume.clusterData (vol : Volume) (c : Nat) : List UInt8 :=
  (List.range vol.clusterBytes).map fun i => vol.dev.disk (vol.clusterPos c + i)

/-- An open file: its clusters are a chain and hold all of it. -/
structure OpenFile (vol : Volume) where
  entry : DirEntry
  pos : Nat
  clusters : List Nat
  pos_lt : pos < 2 ^ 32
  chain : vol.Chain entry.lowCluster clusters
  covers : entry.fileSize ≤ clusters.length * vol.clusterBytes

namespace OpenFile

variable {vol : Volume} (file : OpenFile vol)

/-- The clusters of the file, in the order of its chain -/
def content : List UInt8 := file.clusters.flatMap vol.clusterData

/-- How many bytes a read has to return. -/
def wanted (nBytes nBlocks : Nat) : Nat :=
  min (nBytes * nBlocks) (file.entry.fileSize - file.pos)

end OpenFile

/-- A read returns the content of the file behind its position, as far as the file and the
    request go, and moves the position behind it. -/
def ReadsContent (vol : Volume) (file : OpenFile vol) (nBytes nBlocks : Nat) : Prop :=
  let result := file.wanted nBytes nBlocks
  fat16Read vol.bpb vol.dev ⟨.file file.entry, file.pos⟩ nBytes nBlocks
    = some ⟨(file.content.drop file.pos).take result, result, file.pos + result⟩

/-! ## When a read does that -/

/-- From cluster `c` on, following the FAT, a read of `asked` bytes ends after `r` bytes:
    all of them, or whole clusters up to the end of the chain. -/
def ReadEnds (vol : Volume) (c asked r : Nat) : Prop :=
  (r = asked ∧ ∀ k, (k + 1) * maxClusterSizeBytes vol.bpb < asked →
    vol.fatEntry^[k + 1] c < fat16ValueEndOfChain) ∨
  (r < asked ∧ ∃ k, r = (k + 1) * maxClusterSizeBytes vol.bpb ∧
    fat16ValueEndOfChain ≤ vol.fatEntry^[k + 1] c ∧
    ∀ i < k, vol.fatEntry^[i + 1] c < fat16ValueEndOfChain)

/-- The byte `off` behind the start of cluster `c` and `j` further, with a step to the next
    cluster of the FAT after every cluster length -/
def byteBehind (vol : Volume) (c off j : Nat) : UInt8 :=
  vol.dev.byteFrom
    (u32 (dataPos vol.bpb (vol.fatEntry^[j / maxClusterSizeBytes vol.bpb] c) + off))
    (j % maxClusterSizeBytes vol.bpb)

/-- The cluster with the number of the first one of the file and that of the clusters in
    front of the position added -/
def OpenFile.startCluster {vol : Volume} (file : OpenFile vol) : Nat :=
  u16 (file.pos / maxClusterSizeBytes vol.bpb + file.entry.lowCluster)

/-- The content wanted lies where it is read: behind the offset of the position in the
    clusters from `startCluster` on. -/
def ReadsInPlace (vol : Volume) (file : OpenFile vol) (nBytes nBlocks : Nat) : Prop :=
  file.entry.fileSize ≤ file.pos ∨
    maxClusterSizeBytes vol.bpb ≠ 0 ∧
    ReadEnds vol file.startCluster (u32 (nBytes * nBlocks)) (file.wanted nBytes nBlocks) ∧
    ∀ j < file.wanted nBytes nBlocks,
      some (byteBehind vol file.startCluster (file.pos % maxClusterSizeBytes vol.bpb) j)
        = file.content[file.pos + j]?

/-! ## The loop -/

theorem ReadEnds.unique {vol : Volume} {c asked r r' : Nat} (h : ReadEnds vol c asked r)
    (h' : ReadEnds vol c asked r') : r = r' := by
  have hone : ∀ {r k}, r = (k + 1) * maxClusterSizeBytes vol.bpb → r < asked →
      fat16ValueEndOfChain ≤ vol.fatEntry^[k + 1] c →
      ¬ ∀ k, (k + 1) * maxClusterSizeBytes vol.bpb < asked →
        vol.fatEntry^[k + 1] c < fat16ValueEndOfChain := by
    intro r k hr hlt hend hgoes
    have := hgoes k (by omega)
    omega
  rcases h with ⟨rfl, hgoes⟩ | ⟨hlt, k, hr, hend, hbefore⟩
  · rcases h' with ⟨rfl, -⟩ | ⟨hlt, k, hr, hend, -⟩
    · rfl
    · exact absurd hgoes (hone hr hlt hend)
  · rcases h' with ⟨rfl, hgoes⟩ | ⟨hlt', k', hr', hend', hbefore'⟩
    · exact absurd hgoes (hone hr hlt hend)
    · have hk : k = k' := by
        rcases Nat.lt_trichotomy k k' with h | h | h
        · have := hbefore' k h
          omega
        · exact h
        · have := hbefore k' h
          omega
      rw [hr, hr', hk]

theorem ReadEnds.le {vol : Volume} {c asked r : Nat} (h : ReadEnds vol c asked r) : r ≤ asked := by
  rcases h with ⟨rfl, -⟩ | ⟨hlt, -⟩
  · exact Nat.le_refl r
  · exact Nat.le_of_lt hlt

section Loop

variable (vol : Volume)

theorem byteBehind_first {c off j : Nat} (hj : j < maxClusterSizeBytes vol.bpb) :
    byteBehind vol c off j = vol.dev.byteFrom (u32 (dataPos vol.bpb c + off)) j := by
  rw [byteBehind, Nat.div_eq_of_lt hj, Nat.mod_eq_of_lt hj]
  rfl

/-- A round that reads a whole cluster and goes on. -/
theorem ReadEnds.next {c m r : Nat} (hm : 0 < m)
    (hgoes : vol.fatEntry c < fat16ValueEndOfChain) (h : ReadEnds vol (vol.fatEntry c) m r) :
    ReadEnds vol c (maxClusterSizeBytes vol.bpb + m) (maxClusterSizeBytes vol.bpb + r) := by
  rcases h with ⟨rfl, hall⟩ | ⟨hlt, k, hr, hend, hbefore⟩
  · refine Or.inl ⟨rfl, fun k hk => ?_⟩
    cases k with
    | zero => exact hgoes
    | succ k =>
        apply hall k
        rw [Nat.succ_mul] at hk
        omega
  · refine Or.inr ⟨by omega, k + 1, ?_, hend, fun i hi => ?_⟩
    · rw [hr, Nat.succ_mul (k + 1)]
      omega
    · cases i with
      | zero => exact hgoes
      | succ i => exact hbefore i (by omega)

variable (hsize : 0 < maxClusterSizeBytes vol.bpb)
include hsize

theorem byteBehind_next {c off j : Nat} :
    byteBehind vol c off (maxClusterSizeBytes vol.bpb + j)
      = byteBehind vol (vol.fatEntry c) off j := by
  rw [byteBehind, Nat.add_mod_left, Nat.add_div_left j hsize]
  rfl

/-- What the loop reads, and how far it gets. -/
theorem readLoop_spec (fuel off : Nat) {c remaining pos : Nat} (hc : c < 65536)
    (hpos : pos < 2 ^ 32) (hfuel : remaining ≤ fuel) :
    ∃ r, ReadEnds vol c remaining r ∧
      fat16ReadLoop vol.bpb vol.dev off fuel c remaining pos
        = ((List.range r).map (byteBehind vol c off), u32 (pos + r)) := by
  have hdone : ∀ c, ReadEnds vol c 0 0 := fun c => Or.inl ⟨rfl, fun k hk => by omega⟩
  have hstay : u32 (pos + 0) = pos := Nat.mod_eq_of_lt hpos
  -- on the rounds left; `off` is where the loop reads in every cluster
  induction fuel generalizing c remaining pos with
  | zero =>
      obtain rfl := Nat.le_zero.mp hfuel
      exact ⟨0, hdone c, by rw [hstay]; rfl⟩
  | succ fuel ih =>
      by_cases hzero : remaining = 0
      · subst hzero
        exact ⟨0, hdone c, by rw [hstay, fat16ReadLoop, if_pos rfl]; rfl⟩
      have hread : ∀ n ≤ maxClusterSizeBytes vol.bpb,
          vol.dev.readAt (u32 (dataPos vol.bpb c + off)) n
            = (List.range n).map (byteBehind vol c off) := by
        intro n hn
        have hlt : u32 (dataPos vol.bpb c + off) < 2 ^ 32 := Nat.mod_lt _ (by decide)
        rw [readAt_eq, Nat.mod_eq_of_lt hlt]
        apply List.map_congr_left
        intro j hj
        have := List.mem_range.mp hj
        rw [byteBehind_first vol (by omega)]
      rw [fat16ReadLoop, if_neg hzero]
      simp only [vol.nextCluster hc]
      by_cases hlast : remaining ≤ maxClusterSizeBytes vol.bpb
      · -- the last round
        have hmin : (if remaining < maxClusterSizeBytes vol.bpb then remaining
            else maxClusterSizeBytes vol.bpb) = remaining := by
          split <;> omega
        have hends : ReadEnds vol c remaining remaining :=
          Or.inl ⟨rfl, fun k hk => by rw [Nat.succ_mul] at hk; omega⟩
        refine ⟨remaining, hends, ?_⟩
        rw [hmin, hread remaining hlast, Nat.sub_self]
        have hempty : ∀ next p, fat16ReadLoop vol.bpb vol.dev off fuel next 0 p = ([], p) := by
          intro next p
          cases fuel <;> rfl
        simp only [hempty, List.append_nil, ite_self]
      · -- a whole cluster, and the chain decides whether there is another round
        have hmin : (if remaining < maxClusterSizeBytes vol.bpb then remaining
            else maxClusterSizeBytes vol.bpb) = maxClusterSizeBytes vol.bpb := if_neg (by omega)
        obtain ⟨m, rfl⟩ : ∃ m, remaining = maxClusterSizeBytes vol.bpb + m :=
          ⟨remaining - maxClusterSizeBytes vol.bpb, by omega⟩
        rw [hmin, hread _ (Nat.le_refl _), Nat.add_sub_cancel_left]
        by_cases hend : vol.fatEntry c ≥ fat16ValueEndOfChain
        · rw [if_pos hend]
          exact ⟨maxClusterSizeBytes vol.bpb,
            Or.inr ⟨by omega, 0, by omega, hend, fun i hi => by omega⟩, rfl⟩
        · rw [if_neg hend]
          have hpos' : u32 (pos + maxClusterSizeBytes vol.bpb) < 2 ^ 32 := Nat.mod_lt _ (by decide)
          obtain ⟨r, hends, heq⟩ := ih (vol.fatEntry_lt c) hpos' (show m ≤ fuel by omega)
            (Nat.mod_eq_of_lt hpos')
          refine ⟨maxClusterSizeBytes vol.bpb + r,
            hends.next vol (by omega) (by omega), ?_⟩
          rw [heq, map_range_add]
          have hsum : u32 (u32 (pos + maxClusterSizeBytes vol.bpb) + r)
              = u32 (pos + (maxClusterSizeBytes vol.bpb + r)) := by
            simp only [u32]
            omega
          simp only [hsum, byteBehind_next vol hsize]

end Loop

/-! ## Exactly when a read returns the content -/

theorem OpenFile.wanted_le {vol : Volume} (file : OpenFile vol) (nBytes nBlocks : Nat) :
    file.wanted nBytes nBlocks ≤ file.entry.fileSize - file.pos :=
  Nat.min_le_right _ _

/-- A list of bytes, by its elements -/
theorem map_range_eq_take {f : Nat → UInt8} {l : List UInt8} {a n : Nat} :
    (List.range n).map f = (l.drop a).take n ↔
      n ≤ (l.drop a).length ∧ ∀ j < n, some (f j) = l[a + j]? := by
  constructor
  · intro h
    have hlen := congrArg List.length h
    rw [List.length_map, List.length_range, List.length_take] at hlen
    refine ⟨by omega, fun j hj => ?_⟩
    have hget := congrArg (·[j]?) h
    simpa [hj, List.getElem?_take, List.getElem?_drop] using hget
  · rintro ⟨-, h⟩
    apply List.ext_getElem?
    intro j
    by_cases hj : j < n
    · have := h j hj
      simpa [hj, List.getElem?_take, List.getElem?_drop] using this
    · rw [List.getElem?_eq_none (by simp; omega), List.getElem?_eq_none (by simp; omega)]

/-- A read of the driver returns the content of the file exactly when that lies where it
    is read. -/
theorem readsContent_iff (vol : Volume) (file : OpenFile vol) (nBytes nBlocks : Nat) :
    ReadsContent vol file nBytes nBlocks ↔ ReadsInPlace vol file nBytes nBlocks := by
  have hwanted := file.wanted_le nBytes nBlocks
  have hpos := file.pos_lt
  have hsize : file.entry.fileSize < 2 ^ 32 := Mem.load_lt _ 4 28
  unfold ReadsContent ReadsInPlace
  by_cases hend : file.entry.fileSize ≤ file.pos
  · have hzero : file.wanted nBytes nBlocks = 0 := by omega
    have hat : atFileEnd ⟨.file file.entry, file.pos⟩ = true := decide_eq_true hend
    simp only [fat16Read, hat, if_true, hzero, List.take_zero, Nat.add_zero, hend, true_or]
  have hat : atFileEnd ⟨.file file.entry, file.pos⟩ = false := decide_eq_false (by omega)
  by_cases hzero : maxClusterSizeBytes vol.bpb = 0
  · simp only [fat16Read, hat, Bool.false_eq_true, if_false, hzero, if_true, reduceCtorEq, hend,
      ne_eq, not_true_eq_false, false_and, or_self]
  -- the first cluster that is read
  have hstart : u16 (file.pos / maxClusterSizeBytes vol.bpb
      + fat16GetClusterFromDescriptor ⟨.file file.entry, file.pos⟩) = file.startCluster := by
    simp only [OpenFile.startCluster, fat16GetClusterFromDescriptor, fat16GetCombinedCluster,
      Fat16Node.entry, u16]
    omega
  have hlt : file.startCluster < 65536 := Nat.mod_lt _ (by decide)
  obtain ⟨r, hends, hloop⟩ := readLoop_spec vol (by omega) (u32 (nBytes * nBlocks))
    (file.pos % maxClusterSizeBytes vol.bpb) hlt hpos (Nat.le_refl _)
  simp only [fat16Read, hat, Bool.false_eq_true, if_false, hzero, hstart, hloop, hend, false_or,
    ne_eq, not_false_eq_true, true_and, Option.some.injEq, ReadResult.mk.injEq, List.length_map,
    List.length_range]
  constructor
  · rintro ⟨hbytes, hr, -⟩
    rw [hr] at hbytes hends
    exact ⟨hends, (map_range_eq_take.mp hbytes).2⟩
  · rintro ⟨hends', hbytes⟩
    obtain rfl := hends.unique hends'
    have hcontent : file.entry.fileSize ≤ file.content.length := by
      have hlen : file.content.length = file.clusters.length * vol.clusterBytes := by
        simp [OpenFile.content, Volume.clusterData, List.length_flatMap]
      have := file.covers
      omega
    refine ⟨map_range_eq_take.mpr ⟨?_, hbytes⟩, rfl, Nat.mod_eq_of_lt (by omega)⟩
    rw [List.length_drop]
    omega

/-! ## A read behind the end of the file -/

/-- The file `C` of `deepVolume`, with five bytes -/
def shortFile : OpenFile deepVolume where
  entry := ⟨(letterEntry 67 attrArchive 4).set 28 5⟩
  pos := 0
  clusters := [4]
  pos_lt := by decide
  chain := .last (by decide +kernel) (by decide +kernel)
  covers := by decide +kernel

/-- Ten bytes are read from it. -/
theorem exists_read_behind_end : ¬ ∀ (vol : Volume) (file : OpenFile vol) (nBytes nBlocks : Nat),
    ReadsContent vol file nBytes nBlocks := by
  intro hall
  have hread : (fat16Read deepVolume.bpb deepVolume.dev ⟨.file shortFile.entry, shortFile.pos⟩
      10 1).map ReadResult.bytesRead = some 10 := by
    decide +kernel
  have hwanted : shortFile.wanted 10 1 = 5 := by decide +kernel
  have hcontent := hall deepVolume shortFile 10 1
  unfold ReadsContent at hcontent
  rw [hcontent, Option.map_some, hwanted] at hread
  exact absurd (Option.some.inj hread) (by decide)

/-! ## Files whose clusters are next to each other -/

theorem getElem?_flatMap {α β : Type} {f : α → List β} {n : Nat} (hlen : ∀ a, (f a).length = n)
    {l : List α} {q i : Nat} (hi : i < n) {a : α} (ha : l[q]? = some a) :
    (l.flatMap f)[q * n + i]? = (f a)[i]? := by
  induction l generalizing q with
  | nil => cases ha
  | cons b l ih =>
      rw [List.flatMap_cons]
      cases q with
      | zero =>
          obtain rfl : b = a := by simpa using ha
          rw [Nat.zero_mul, Nat.zero_add, List.getElem?_append_left (by rw [hlen]; exact hi)]
      | succ q =>
          have hge : (f b).length ≤ (q + 1) * n + i := by
            rw [hlen, Nat.succ_mul]
            omega
          have hrest : (q + 1) * n + i - (f b).length = q * n + i := by
            rw [hlen, Nat.succ_mul]
            omega
          rw [List.getElem?_append_right hge, hrest]
          exact ih ha

section Contiguous

variable {vol : Volume} (file : OpenFile vol)

theorem OpenFile.content_at {q i c : Nat} (hi : i < vol.clusterBytes)
    (hc : file.clusters[q]? = some c) :
    file.content[q * vol.clusterBytes + i]? = some (vol.dev.disk (vol.clusterPos c + i)) := by
  rw [OpenFile.content, getElem?_flatMap (fun c => by simp [Volume.clusterData]) hi hc]
  simp [Volume.clusterData, hi]

/-- What a read of a file without a wrap needs: the position is in the cluster that is
    taken for it, clusters the read runs out of lie in front of the next one, a position
    inside a sector is not followed by bytes of another sector, and the request does not
    go behind the end of the file. -/
structure LiesInRow (nBytes nBlocks : Nat) : Prop where
  small : vol.clusterBytes < 65536
  first : file.clusters[file.pos / vol.clusterBytes]?
    = some (file.entry.lowCluster + file.pos / vol.clusterBytes)
  row : file.pos % vol.clusterBytes = 0 ∨ ∀ q, file.pos / vol.clusterBytes ≤ q →
    (q + 1) * vol.clusterBytes < file.pos + nBytes * nBlocks →
    file.clusters[q + 1]? = file.clusters[q]?.map (· + 1)
  sector : file.pos % 512 = 0 ∨ file.pos % 512 + nBytes * nBlocks ≤ 512
  inside : file.pos + nBytes * nBlocks ≤ file.entry.fileSize
  below : ∀ c ∈ file.clusters, vol.clusterPos (c + 1) ≤ 2 ^ 32

theorem readsInPlace_of_row {nBytes nBlocks : Nat} (h : LiesInRow file nBytes nBlocks) :
    ReadsInPlace vol file nBytes nBlocks := by
  obtain ⟨hsmall, hfirst, hrow, hsector, hinside, hbelow⟩ := h
  have hspc := vol.secPerClus_pos
  have hsize : file.entry.fileSize < 2 ^ 32 := Mem.load_lt _ 4 28
  have hcovers := file.covers
  have hlive := file.chain.live_of_mem
  have hmax : maxClusterSizeBytes vol.bpb = vol.clusterBytes := by
    rw [maxClusterSizeBytes, vol.bytsPerSec]
    exact Nat.mod_eq_of_lt hsmall
  have hC : 0 < vol.clusterBytes ∧ vol.clusterBytes % 512 = 0 := by
    rw [Volume.clusterBytes]
    omega
  have hoff : file.pos % vol.clusterBytes % 512 = file.pos % 512 :=
    Nat.mod_mod_of_dvd _ (Nat.dvd_of_mod_eq_zero hC.2)
  have hasked : u32 (nBytes * nBlocks) = nBytes * nBlocks := Nat.mod_eq_of_lt (by omega)
  have hwanted : file.wanted nBytes nBlocks = nBytes * nBlocks := Nat.min_eq_left (by omega)
  have hdecomp : file.pos / vol.clusterBytes * vol.clusterBytes + file.pos % vol.clusterBytes
      = file.pos := Nat.div_add_mod' _ _
  have hstart : file.startCluster = file.entry.lowCluster + file.pos / vol.clusterBytes := by
    have := (hlive _ (List.mem_of_getElem? hfirst)).2
    rw [OpenFile.startCluster, hmax, Nat.add_comm]
    exact Nat.mod_eq_of_lt (Nat.lt_trans this (by decide))
  have hlt := Nat.mod_lt file.pos hC.1
  rw [ReadsInPlace, hasked, hwanted, hmax, hstart]
  generalize file.pos / vol.clusterBytes = q₀ at *
  generalize file.pos % vol.clusterBytes = off at *
  generalize nBytes * nBlocks = n at *
  -- the clusters from the first one on, in the order of the chain
  have hcluster : ∀ k, (q₀ + k) * vol.clusterBytes < file.entry.fileSize →
      file.clusters[q₀ + k]? = some (vol.fatEntry^[k] (file.entry.lowCluster + q₀)) := by
    intro k hk
    have hin : q₀ + k < file.clusters.length := by
      by_contra hge
      have := Nat.mul_le_mul_right vol.clusterBytes (show file.clusters.length ≤ q₀ + k by omega)
      omega
    have hq : file.clusters[q₀]? = some (vol.fatEntry^[q₀] file.entry.lowCluster) :=
      file.chain.getElem?_iterate (by omega)
    rw [hfirst] at hq
    rw [file.chain.getElem?_iterate hin, Option.some.inj hq, Nat.add_comm q₀ k,
      Function.iterate_add_apply]
  refine Or.inr ⟨by omega, Or.inl ⟨rfl, fun k hk => ?_⟩, fun j hj => ?_⟩
  · rw [hmax] at hk
    have hbytes : (q₀ + (k + 1)) * vol.clusterBytes
        = q₀ * vol.clusterBytes + (k + 1) * vol.clusterBytes := Nat.add_mul _ _ _
    exact (hlive _ (List.mem_of_getElem? (hcluster (k + 1) (by omega)))).2
  · -- byte `j` is byte `i` behind the offset in the `k`-th cluster
    rw [byteBehind, hmax]
    have hj' : j / vol.clusterBytes * vol.clusterBytes + j % vol.clusterBytes = j :=
      Nat.div_add_mod' _ _
    have hi := Nat.mod_lt j hC.1
    generalize j / vol.clusterBytes = k at *
    generalize j % vol.clusterBytes = i at *
    have hbytes : (q₀ + k) * vol.clusterBytes
        = q₀ * vol.clusterBytes + k * vol.clusterBytes := Nat.add_mul _ _ _
    have hc := hcluster k (by omega)
    generalize vol.fatEntry^[k] (file.entry.lowCluster + q₀) = c at *
    have hcmem := List.mem_of_getElem? hc
    have hclive := hlive c hcmem
    have hcbelow := hbelow c hcmem
    have hsucc := vol.clusterPos_succ hclive.1
    rw [← Volume.clusterBytes] at hsucc
    have hcEnd : c < 65536 := Nat.lt_trans hclive.2 (by decide)
    have hpos : u32 (dataPos vol.bpb c + off) = vol.clusterPos c + off := by
      rw [vol.dataPos_eq hclive.1 hcEnd (by omega)]
      exact Nat.mod_eq_of_lt (by omega)
    have haligned : vol.clusterPos c % 512 = 0 := by
      simp only [Volume.clusterPos, Volume.rootPos, partitionOffset]
      omega
    have hin : (vol.clusterPos c + off) % 512 + i % 512 < 512 := by
      have := Nat.mod_le i 512
      omega
    rw [hpos, Ata.byteFrom, if_pos hin]
    by_cases hover : off + i < vol.clusterBytes
    · rw [Nat.mod_eq_of_lt (by omega)]
      have hbyte := file.content_at hover hc
      rw [show (q₀ + k) * vol.clusterBytes + (off + i) = file.pos + j by omega,
        ← Nat.add_assoc] at hbyte
      exact hbyte.symm
    · -- it runs into the next cluster
      have hsuccq : (q₀ + k + 1) * vol.clusterBytes
          = (q₀ + k) * vol.clusterBytes + vol.clusterBytes := Nat.succ_mul _ _
      have hnext : file.clusters[q₀ + k + 1]? = some (c + 1) := by
        rcases hrow with hzero | hrow
        · omega
        · rw [hrow (q₀ + k) (by omega) (by omega), hc, Option.map_some]
      have hnmem := List.mem_of_getElem? hnext
      have hnbelow := hbelow (c + 1) hnmem
      have hnsucc := vol.clusterPos_succ (hlive (c + 1) hnmem).1
      rw [← Volume.clusterBytes] at hnsucc
      rw [Nat.mod_eq_of_lt (by omega)]
      have hbyte := file.content_at (show off + i - vol.clusterBytes < vol.clusterBytes by omega)
        hnext
      rw [show (q₀ + k + 1) * vol.clusterBytes + (off + i - vol.clusterBytes) = file.pos + j
        by omega, show vol.clusterPos (c + 1) + (off + i - vol.clusterBytes)
          = vol.clusterPos c + off + i by omega] at hbyte
      exact hbyte.symm

end Contiguous

end Icarius
