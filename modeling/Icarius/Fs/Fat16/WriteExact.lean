/-
  Icarius.Fs.Fat16.WriteExact

  The data loop of `fat16_write` on a volume: it follows the chain of the file, links the
  first free clusters behind it, and puts the data into the clusters in the order of the
  chain.  `write_exact` says so of a volume whose files have disjoint chains.
-/

import Icarius.Fs.Fat16.Write

namespace Icarius

open Icarius.Lib

namespace Volume

/-! ## Clusters on a disk that is written -/

/-- The bytes of cluster `c` -/
def dataOn (vol : Volume) (disk : Mem) (c : Nat) : List UInt8 :=
  (List.range vol.clusterBytes).map fun i => disk (vol.clusterPos c + i)

/-- A chain of clusters the driver can make entries of the FAT for -/
def FileChain (vol : Volume) (disk : Mem) : Nat → List Nat → Prop :=
  IsChain (vol.fatOn disk) (fun c => 2 ≤ c ∧ c < fat16MaxClusters) (fat16ValueEndOfChain ≤ ·)

@[simp] theorem length_dataOn (vol : Volume) (disk : Mem) (c : Nat) :
    (vol.dataOn disk c).length = vol.clusterBytes := by
  rw [dataOn, List.length_map, List.length_range]

section Sizes

variable (vol : Volume) (hspc : vol.bpb.secPerClus ≤ 64)
include hspc

theorem maxClusterSize_eq : maxClusterSizeBytes vol.bpb = vol.clusterBytes := by
  rw [maxClusterSizeBytes, vol.bytsPerSec, clusterBytes, u16]
  omega

omit hspc in
theorem clusterBytes_pos : 0 < vol.clusterBytes := by
  have hpos := vol.secPerClus_pos
  rw [clusterBytes]
  omega

/-- The clusters with an entry in the FAT are below 4 GiB. -/
theorem clusterPos_le {c : Nat} (hhigh : c < fat16MaxClusters) :
    vol.clusterPos c + vol.clusterBytes ≤ 2 ^ 32 := by
  have hmax : fat16MaxClusters = 65525 := rfl
  exact vol.clusterEnd_le hspc (by omega)

omit hspc in
theorem clusterPos_mod (c : Nat) : vol.clusterPos c % 512 = 0 := by
  simp only [clusterPos, rootPos, partitionOffset]
  omega

omit hspc in
/-- The clusters lie one behind the other. -/
theorem clusterPos_disjoint {c c' : Nat} (hlow : 2 ≤ c) (hlow' : 2 ≤ c') (hne : c ≠ c') :
    vol.clusterPos c + vol.clusterBytes ≤ vol.clusterPos c' ∨
      vol.clusterPos c' + vol.clusterBytes ≤ vol.clusterPos c := by
  rcases Nat.lt_or_gt_of_ne hne with hlt | hgt
  · exact .inl (vol.clusterPos_le_of_lt hlow hlt)
  · exact .inr (vol.clusterPos_le_of_lt hlow' hgt)

/-- A write to the start of a cluster, not longer than it -/
theorem writeAt_cluster (dev : Ata) {c : Nat} {bytes : List UInt8} (hlow : 2 ≤ c)
    (hhigh : c < fat16MaxClusters) (hlen : bytes.length ≤ vol.clusterBytes) :
    dev.writeAt (u32 (dataPos vol.bpb c + 0)) bytes
      = ⟨dev.disk.write (vol.clusterPos c) bytes, dev.behind⟩ := by
  have hmax : fat16MaxClusters = 65525 := rfl
  have hend := vol.clusterPos_le hspc hhigh
  have hpos := vol.clusterBytes_pos
  rw [Nat.add_zero, vol.dataPos_eq hlow (by omega) (by omega), u32, Nat.mod_eq_of_lt (by omega)]
  exact writeAt_disk dev (by omega) (.inl (vol.clusterPos_mod c))

end Sizes

section Frames

variable (vol : Volume)

/-- The bytes written to a cluster, and what is left behind them -/
theorem dataOn_write (disk : Mem) {c : Nat} {bytes : List UInt8}
    (hlen : bytes.length ≤ vol.clusterBytes) :
    vol.dataOn (disk.write (vol.clusterPos c) bytes) c
      = bytes ++ (vol.dataOn disk c).drop bytes.length := by
  apply List.ext_getElem
  · rw [List.length_append, List.length_drop, length_dataOn, length_dataOn]
    omega
  · intro i hi hi'
    rw [length_dataOn] at hi
    by_cases hin : i < bytes.length
    · rw [List.getElem_append_left hin]
      simp only [dataOn, List.getElem_map, List.getElem_range]
      exact Mem.write_add hin
    · rw [List.getElem_append_right (by omega), List.getElem_drop]
      simp only [dataOn, List.getElem_map, List.getElem_range]
      rw [Mem.write_of_ge (by omega)]
      congr 1
      omega

/-- A disk that is the same in a cluster holds the same data there. -/
theorem dataOn_congr {disk disk' : Mem} {c : Nat}
    (h : ∀ i < vol.clusterBytes, disk' (vol.clusterPos c + i) = disk (vol.clusterPos c + i)) :
    vol.dataOn disk' c = vol.dataOn disk c := by
  apply List.map_congr_left
  intro i hi
  exact h i (List.mem_range.mp hi)

theorem dataOn_write_of_ne (disk : Mem) {c c' : Nat} {bytes : List UInt8} (hlow : 2 ≤ c)
    (hlow' : 2 ≤ c') (hne : c' ≠ c) (hlen : bytes.length ≤ vol.clusterBytes) :
    vol.dataOn (disk.write (vol.clusterPos c) bytes) c' = vol.dataOn disk c' := by
  apply vol.dataOn_congr
  intro i hi
  rcases vol.clusterPos_disjoint hlow hlow' hne.symm with h | h
  · exact Mem.write_of_ge (by omega)
  · exact Mem.write_of_lt (by omega)

variable (hfat : 256 ≤ vol.bpb.fatsz16)
include hfat

/-- The first FAT ends before the clusters. -/
theorem fatPos_le_clusterPos {c : Nat} (c' : Nat) (h : c < 65536) :
    vol.fatPos c + 2 ≤ vol.clusterPos c' := by
  simp only [fatPos, clusterPos, rootPos]
  omega

theorem fatOn_write (disk : Mem) {c c' : Nat} {bytes : List UInt8} (h : c' < 65536) :
    vol.fatOn (disk.write (vol.clusterPos c) bytes) c' = vol.fatOn disk c' := by
  have hle := vol.fatPos_le_clusterPos hfat c h
  exact Mem.load_congr (Mem.agree_write disk (by omega))

theorem dataOn_setFat (disk : Mem) {c c' : Nat} (value : Nat) (h : c < 65536) :
    vol.dataOn (vol.setFat disk c value) c' = vol.dataOn disk c' := by
  have hle := vol.fatPos_le_clusterPos hfat c' h
  apply vol.dataOn_congr
  intro i _
  exact vol.setFat_apply disk value (by omega)

end Frames

/-! ## What the data loop does -/

/-- The number of clusters `n` bytes need -/
def needed (vol : Volume) (n : Nat) : Nat := (n + vol.clusterBytes - 1) / vol.clusterBytes

/-- `bytes` have been written to the chain `cs` from cluster `c` on, with the clusters
    `new` linked behind it: the clusters hold them, and behind them what they held before;
    nothing else has changed. -/
structure Written (vol : Volume) (disk : Mem) (c : Nat) (cs new : List Nat)
    (bytes : List UInt8) (disk' : Mem) : Prop where
  chain : vol.FileChain disk' c (cs ++ new)
  content : (cs ++ new).flatMap (vol.dataOn disk')
    = bytes ++ ((cs ++ new).flatMap (vol.dataOn disk)).drop bytes.length
  fat : ∀ x < 65536, x ∉ new → (x ∈ cs.getLast? → new = []) →
    vol.fatOn disk' x = vol.fatOn disk x
  frame : ∀ x, (x < vol.fatPos 2 ∨ vol.fatPos fat16MaxClusters ≤ x) →
    (∀ c ∈ cs ++ new, x < vol.clusterPos c ∨ vol.clusterPos c + vol.clusterBytes ≤ x) →
      disk' x = disk x

section Loop

variable (vol : Volume)

theorem needed_of_le {n : Nat} (hpos : 0 < n) (hle : n ≤ vol.clusterBytes) : vol.needed n = 1 := by
  rw [needed]
  apply Nat.div_eq_of_lt_le
  · omega
  · omega

theorem needed_of_gt {n : Nat} (hgt : vol.clusterBytes < n) :
    vol.needed n = vol.needed (n - vol.clusterBytes) + 1 := by
  have hpos := vol.clusterBytes_pos
  have hsplit : n + vol.clusterBytes - 1 = n - vol.clusterBytes + vol.clusterBytes - 1
      + vol.clusterBytes := by omega
  rw [needed, hsplit, Nat.add_div_right _ hpos, needed]

theorem needed_zero : vol.needed 0 = 0 := by
  have hpos := vol.clusterBytes_pos
  rw [needed]
  exact Nat.div_eq_of_lt (by omega)

/-- More than one cluster is needed for more than a cluster. -/
theorem lt_of_one_lt_needed {n : Nat} (h : 1 < vol.needed n) : vol.clusterBytes < n := by
  by_contra hle
  rcases Nat.eq_zero_or_pos n with rfl | hpos
  · rw [needed_zero] at h
    omega
  · rw [vol.needed_of_le hpos (Nat.not_lt.mp hle)] at h
    omega

theorem needed_pos {n : Nat} (hpos : 0 < n) : 0 < vol.needed n := by
  rw [needed]
  apply Nat.div_pos
  · omega
  · exact vol.clusterBytes_pos

theorem freeClusters_congr {disk disk' : Mem}
    (h : ∀ c < 65536, vol.fatOn disk' c = vol.fatOn disk c) :
    vol.freeClusters disk' = vol.freeClusters disk := by
  have hmax : fat16MaxClusters = 65525 := rfl
  apply List.filter_congr
  intro c hc
  have hlt := (List.mem_range'_1.mp hc).2
  rw [h c (by omega)]

variable {vol}

/-- A cluster of a chain is not free. -/
theorem FileChain.not_free {disk : Mem} {c x : Nat} {cs : List Nat} (h : vol.FileChain disk c cs)
    (hx : x ∈ cs) : vol.fatOn disk x ≠ 0 := by
  induction h with
  | @last c _ hend =>
      have hmark : fat16ValueEndOfChain = 0xFFF8 := rfl
      rw [List.mem_singleton.mp hx]
      omega
  | @link c cs _ hrest ih =>
      rcases List.mem_cons.mp hx with rfl | hx
      · have hlive := hrest.live_head
        omega
      · exact ih hx

/-- The second cluster of a chain -/
theorem FileChain.next_cons {disk : Mem} {c l : Nat} {ls : List Nat}
    (h : vol.FileChain disk c (c :: l :: ls)) :
    vol.fatOn disk c = l ∧ vol.FileChain disk l (l :: ls) := by
  have hrest := IsChain.tail h (List.cons_ne_nil l ls)
  obtain ⟨ls', hls'⟩ := hrest.head
  have heq := (List.cons.inj hls').1.symm
  exact ⟨heq, heq ▸ hrest⟩

theorem FileChain.bounds {disk : Mem} {c x : Nat} {cs : List Nat} (h : vol.FileChain disk c cs)
    (hx : x ∈ cs) : 2 ≤ x ∧ x < fat16MaxClusters :=
  h.live_of_mem x hx

theorem FileChain.nodup {disk : Mem} {c : Nat} {cs : List Nat} (h : vol.FileChain disk c cs) :
    cs.Nodup := by
  apply IsChain.nodup _ h
  intro x hlive hend
  have hmax : fat16MaxClusters = 65525 := rfl
  have hmark : fat16ValueEndOfChain = 0xFFF8 := rfl
  omega

section Frame

variable (hfat : 256 ≤ vol.bpb.fatsz16)
include hfat

/-- The data of the other clusters has not changed. -/
theorem Written.data {disk disk' : Mem} {c x : Nat} {cs new : List Nat} {bytes : List UInt8}
    (h : vol.Written disk c cs new bytes disk') (hlow : 2 ≤ x) (hx : x ∉ cs ++ new) :
    vol.dataOn disk' x = vol.dataOn disk x := by
  apply vol.dataOn_congr
  intro i hi
  apply h.frame
  · right
    have hmax : fat16MaxClusters = 65524 + 1 := rfl
    have hle := vol.fatPos_le_clusterPos hfat (c := 65524) x (by decide)
    have hlast : vol.fatPos fat16MaxClusters = vol.fatPos 65524 + 2 := by
      rw [hmax]
      simp only [fatPos]
    omega
  · intro y hy
    have hne : x ≠ y := fun heq => hx (heq ▸ hy)
    have hdisj := vol.clusterPos_disjoint hlow (h.chain.bounds hy).1 hne
    omega

end Frame

/-- The content of a chain whose first cluster has been filled -/
theorem content_cons {disk disk' : Mem} {c : Nat} {cs : List Nat} {chunk rest : List UInt8}
    (hchunk : chunk.length = vol.clusterBytes) (hfirst : vol.dataOn disk' c = chunk)
    (hrest : cs.flatMap (vol.dataOn disk')
      = rest ++ (cs.flatMap (vol.dataOn disk)).drop rest.length) :
    (c :: cs).flatMap (vol.dataOn disk')
      = (chunk ++ rest) ++ ((c :: cs).flatMap (vol.dataOn disk)).drop (chunk ++ rest).length := by
  have hlen : (vol.dataOn disk c).length = chunk.length := by rw [length_dataOn, hchunk]
  rw [List.flatMap_cons, List.flatMap_cons, hfirst, hrest, List.length_append, ← hlen,
    List.drop_length_add_append, List.append_assoc]

section Rounds

variable (hspc : vol.bpb.secPerClus ≤ 64) (hfat : 256 ≤ vol.bpb.fatsz16)
include hspc hfat

omit hfat in
/-- A round for data that fits the cluster is the last one. -/
theorem writeLoop_fits {fuel : Nat} (additional : Nat) (dev : Ata) {curr : Nat}
    {bytes : List UInt8} (hlow : 2 ≤ curr) (hhigh : curr < fat16MaxClusters)
    (hbytes : bytes ≠ []) (hfuel : 0 < fuel) (hle : bytes.length ≤ vol.clusterBytes) :
    fat16WriteLoop vol.bpb additional fuel dev curr 0 bytes
      = .ok (⟨dev.disk.write (vol.clusterPos curr) bytes, dev.behind⟩, curr) := by
  obtain ⟨fuel, rfl⟩ : ∃ k, fuel = k + 1 := ⟨fuel - 1, by omega⟩
  have hdone : ∀ dev' offset, fat16WriteLoop vol.bpb additional fuel dev' curr offset []
      = .ok (dev', curr) := by
    intro dev' offset
    cases fuel with
    | zero => rfl
    | succ fuel => rw [fat16WriteLoop, if_pos rfl]
  have hfits : ¬ bytes.length > maxClusterSizeBytes vol.bpb - 0 := by
    rw [vol.maxClusterSize_eq hspc]
    omega
  have hwrite := vol.writeAt_cluster hspc dev hlow hhigh hle
  rw [fat16WriteLoop, if_neg hbytes]
  simp only [hfits, if_false, List.take_length, List.drop_length, hwrite, ne_eq,
    not_true_eq_false, and_false]
  exact hdone _ _

/-- The last round: the data that is left fits the cluster. -/
theorem writeLoop_last {fuel additional : Nat} {dev : Ata} {curr : Nat} {later : List Nat}
    {bytes : List UInt8} (hchain : vol.FileChain dev.disk curr (curr :: later))
    (hbytes : bytes ≠ []) (hfuel : bytes.length ≤ fuel) (hle : bytes.length ≤ vol.clusterBytes) :
    ∃ dev', fat16WriteLoop vol.bpb additional fuel dev curr 0 bytes = .ok (dev', curr) ∧
      vol.Written dev.disk curr (curr :: later) [] bytes dev'.disk := by
  obtain ⟨hlow, hhigh⟩ := hchain.bounds List.mem_cons_self
  have hpos := List.length_pos_iff.mpr hbytes
  refine ⟨⟨dev.disk.write (vol.clusterPos curr) bytes, dev.behind⟩, ?_, ?_⟩
  · exact writeLoop_fits hspc additional dev hlow hhigh hbytes (by omega) hle
  · have hsame : ∀ x < 65536, vol.fatOn (dev.disk.write (vol.clusterPos curr) bytes) x
        = vol.fatOn dev.disk x := fun x hx => vol.fatOn_write hfat dev.disk hx
    have hmax : fat16MaxClusters = 65525 := rfl
    refine ⟨?_, ?_, fun x hx _ _ => hsame x hx, ?_⟩
    · rw [List.append_nil]
      refine hchain.congr fun x hx => hsame x ?_
      have hlt := (hchain.bounds hx).2
      omega
    · have hothers : later.flatMap (vol.dataOn (dev.disk.write (vol.clusterPos curr) bytes))
          = later.flatMap (vol.dataOn dev.disk) := by
        apply List.flatMap_congr
        intro x hx
        have hne : x ≠ curr := by
          rintro rfl
          exact (List.nodup_cons.mp hchain.nodup).1 hx
        exact vol.dataOn_write_of_ne dev.disk hlow
          (hchain.bounds (List.mem_cons_of_mem curr hx)).1 hne hle
      rw [List.append_nil, List.flatMap_cons, List.flatMap_cons, hothers,
        vol.dataOn_write dev.disk hle, List.drop_append_of_le_length (by rw [length_dataOn]; exact hle),
        List.append_assoc]
    · intro x _ hout
      rcases hout curr (List.mem_append_left _ List.mem_cons_self) with h | h
      · exact Mem.write_of_lt h
      · exact Mem.write_of_ge (by omega)

omit hspc in
/-- A round that fills the cluster, and the rounds behind it, which go on at cluster `z`. -/
theorem Written.behind_round {disk disk₂ disk' : Mem} {curr z : Nat} {cs new : List Nat}
    {chunk rest : List UInt8} (h : vol.Written disk₂ z cs new rest disk')
    (hlow : 2 ≤ curr) (hhigh : curr < fat16MaxClusters) (hchunk : chunk.length = vol.clusterBytes)
    (hz : vol.fatOn disk₂ curr = z) (hcurr : curr ∉ cs ++ new)
    (hdata : ∀ y, 2 ≤ y → vol.dataOn disk₂ y
      = vol.dataOn (disk.write (vol.clusterPos curr) chunk) y)
    (hframe : ∀ x, (x < vol.fatPos 2 ∨ vol.fatPos fat16MaxClusters ≤ x) →
      disk₂ x = disk.write (vol.clusterPos curr) chunk x) :
    vol.FileChain disk' curr (curr :: (cs ++ new)) ∧
      (curr :: (cs ++ new)).flatMap (vol.dataOn disk') = (chunk ++ rest) ++
        ((curr :: (cs ++ new)).flatMap (vol.dataOn disk)).drop (chunk ++ rest).length ∧
      ∀ x, (x < vol.fatPos 2 ∨ vol.fatPos fat16MaxClusters ≤ x) →
        (∀ c ∈ curr :: (cs ++ new), x < vol.clusterPos c ∨ vol.clusterPos c + vol.clusterBytes ≤ x) →
          disk' x = disk x := by
  have hmax : fat16MaxClusters = 65525 := rfl
  have hnew : curr ∉ new := fun hmem => hcurr (List.mem_append_right _ hmem)
  have hlast : curr ∈ cs.getLast? → new = [] := by
    intro hmem
    exact absurd (List.mem_append_left _ (List.mem_of_getLast? hmem)) hcurr
  refine ⟨?_, ?_, ?_⟩
  · refine .link ⟨hlow, hhigh⟩ ?_
    rw [h.fat curr (by omega) hnew hlast, hz]
    exact h.chain
  · apply content_cons hchunk
    · rw [h.data hfat hlow hcurr, hdata curr hlow, vol.dataOn_write disk (by omega), hchunk,
        List.drop_eq_nil_of_le (by rw [length_dataOn]), List.append_nil]
    · have hbefore : (cs ++ new).flatMap (vol.dataOn disk₂)
          = (cs ++ new).flatMap (vol.dataOn disk) := by
        apply List.flatMap_congr
        intro x hx
        have hne : x ≠ curr := fun heq => hcurr (heq ▸ hx)
        have hxlow := (h.chain.bounds hx).1
        rw [hdata x hxlow, vol.dataOn_write_of_ne disk hlow hxlow hne (by omega)]
      rw [h.content, hbefore]
  · intro x hx hout
    rw [h.frame x hx fun c hc => hout c (List.mem_cons_of_mem curr hc), hframe x hx]
    rcases hout curr List.mem_cons_self with h' | h'
    · exact Mem.write_of_lt h'
    · exact Mem.write_of_ge (by omega)

omit hspc in
/-- A filled cluster in front of a chain that has been written -/
theorem Written.link {disk disk' : Mem} {curr l : Nat} {ls new : List Nat}
    {chunk rest : List UInt8} (hchain : vol.FileChain disk curr (curr :: l :: ls))
    (hchunk : chunk.length = vol.clusterBytes)
    (hnew : ∀ x ∈ new, vol.fatOn disk x = 0)
    (h : vol.Written (disk.write (vol.clusterPos curr) chunk) l (l :: ls) new rest disk') :
    vol.Written disk curr (curr :: l :: ls) new (chunk ++ rest) disk' := by
  have hmax : fat16MaxClusters = 65525 := rfl
  obtain ⟨hlow, hhigh⟩ := hchain.bounds List.mem_cons_self
  have hsame : ∀ x < 65536, vol.fatOn (disk.write (vol.clusterPos curr) chunk) x
      = vol.fatOn disk x := fun x hx => vol.fatOn_write hfat disk hx
  have hl : vol.fatOn disk curr = l := by
    cases hchain with
    | link _ hrest =>
        obtain ⟨rest, hrest⟩ := hrest.head
        exact (List.cons.inj hrest).1.symm
  have hcurr : curr ∉ (l :: ls) ++ new := by
    rw [List.mem_append, not_or]
    refine ⟨(List.nodup_cons.mp hchain.nodup).1, fun hmem => ?_⟩
    exact hchain.not_free List.mem_cons_self (hnew curr hmem)
  obtain ⟨hchain', hcontent, hframe⟩ := h.behind_round hfat hlow hhigh hchunk
    ((hsame curr (by omega)).trans hl) hcurr (fun _ _ => rfl) (fun _ _ => rfl)
  refine ⟨hchain', hcontent, fun x hx hxnew hlast => ?_, hframe⟩
  rw [h.fat x hx hxnew fun hmem => hlast (by rw [List.getLast?_cons_cons]; exact hmem), hsame x hx]

omit hspc in
/-- A filled cluster at the end of its chain, with a free cluster linked behind it that has
    been written -/
theorem Written.extend {disk disk₂ disk' : Mem} {curr new : Nat} {others : List Nat}
    {chunk rest : List UInt8} (hchain : vol.FileChain disk curr [curr])
    (hchunk : chunk.length = vol.clusterBytes) (hnew : new ∈ vol.freeClusters disk)
    (hothers : ∀ x ∈ others, vol.fatOn disk x = 0)
    (hdisk₂ : disk₂ = vol.setFat (vol.setFat (disk.write (vol.clusterPos curr) chunk) curr new) new
      fat16ValueEndOfChain)
    (h : vol.Written disk₂ new [new] others rest disk') :
    vol.Written disk curr [curr] (new :: others) (chunk ++ rest) disk' := by
  have hmax : fat16MaxClusters = 65525 := rfl
  obtain ⟨hlow, hhigh⟩ := hchain.bounds List.mem_cons_self
  obtain ⟨hnewlow, hnewhigh, hnewfree⟩ := vol.mem_freeClusters.mp hnew
  have hused := hchain.not_free List.mem_cons_self
  have hne : curr ≠ new := by
    rintro rfl
    exact hused hnewfree
  have hatcurr : vol.fatOn disk₂ curr = new := by
    rw [hdisk₂, vol.setFat_of_ne _ _ hne]
    exact vol.setFat_self _ _ (by omega)
  have hcurr : curr ∉ [new] ++ others := by
    rw [List.mem_append, List.mem_singleton, not_or]
    exact ⟨hne, fun hmem => hused (hothers curr hmem)⟩
  -- the links are in the FAT, below the data of every cluster
  have hdata : ∀ y, 2 ≤ y → vol.dataOn disk₂ y
      = vol.dataOn (disk.write (vol.clusterPos curr) chunk) y := by
    intro y _
    rw [hdisk₂, vol.dataOn_setFat hfat _ _ (by omega), vol.dataOn_setFat hfat _ _ (by omega)]
  have hframe₂ : ∀ x, (x < vol.fatPos 2 ∨ vol.fatPos fat16MaxClusters ≤ x) →
      disk₂ x = disk.write (vol.clusterPos curr) chunk x := by
    intro x hx
    simp only [fatPos, hmax] at hx
    rw [hdisk₂, vol.setFat_apply _ _ (by simp only [fatPos]; omega),
      vol.setFat_apply _ _ (by simp only [fatPos]; omega)]
  obtain ⟨hchain', hcontent, hframe⟩ :=
    h.behind_round hfat hlow hhigh hchunk hatcurr hcurr hdata hframe₂
  -- what is left is the FAT: two entries are new, all others as `h` has them
  refine ⟨hchain', hcontent, fun x hx hxnew hlast => ?_, hframe⟩
  have hxn : x ≠ new := by
    rintro rfl
    exact hxnew List.mem_cons_self
  have hxothers : x ∉ others := fun hmem => hxnew (List.mem_cons_of_mem new hmem)
  have hxc : x ≠ curr := by
    rintro rfl
    exact List.cons_ne_nil _ _ (hlast rfl)
  have hxlast : x ∈ [new].getLast? → others = [] := by
    intro hmem
    exact absurd (Option.some.inj hmem).symm hxn
  rw [h.fat x hx hxothers hxlast, hdisk₂, vol.setFat_of_ne _ _ hxn, vol.setFat_of_ne _ _ hxc,
    vol.fatOn_write hfat disk hx]

omit hfat in
/-- A round that fills the cluster -/
theorem writeLoop_round (fuel additional : Nat) (dev : Ata) {curr : Nat} {bytes : List UInt8}
    (hlow : 2 ≤ curr) (hhigh : curr < fat16MaxClusters)
    (hgt : vol.clusterBytes < bytes.length) :
    fat16WriteLoop vol.bpb additional (fuel + 1) dev curr 0 bytes
      = let dev : Ata :=
          ⟨dev.disk.write (vol.clusterPos curr) (bytes.take vol.clusterBytes), dev.behind⟩
        let bytes := bytes.drop vol.clusterBytes
        let nextCluster := vol.fatOn dev.disk curr
        if nextCluster ≥ fat16ValueEndOfChain then
          if additional = 0 then .error (.result (-enospc) dev)
          else
            let newCluster := (vol.freeClusters dev.disk).head?.getD 0
            if newCluster = 0 then .error (.result (-enospc) dev)
            else
              let dev := (fat16CreateFatEntry vol.bpb dev curr newCluster).2
              let dev := (fat16CreateFatEntry vol.bpb dev newCluster fat16ValueEndOfChain).2
              fat16WriteLoop vol.bpb additional fuel dev newCluster 0 bytes
        else fat16WriteLoop vol.bpb additional fuel dev nextCluster 0 bytes := by
  have hmax : fat16MaxClusters = 65525 := rfl
  have hbytes : bytes ≠ [] := by
    rintro rfl
    rw [List.length_nil] at hgt
    omega
  have htake : (bytes.take vol.clusterBytes).length ≤ vol.clusterBytes := by
    rw [List.length_take]
    omega
  have hrest : bytes.drop vol.clusterBytes ≠ [] := by
    intro hnil
    have hlen := congrArg List.length hnil
    rw [List.length_drop, List.length_nil] at hlen
    omega
  have hsize : bytes.length > vol.clusterBytes := hgt
  have hfull : 0 + vol.clusterBytes ≥ vol.clusterBytes := by omega
  have hwrite := vol.writeAt_cluster hspc dev hlow hhigh htake
  rw [fat16WriteLoop, if_neg hbytes]
  simp only [vol.maxClusterSize_eq hspc, hsize, if_true, Nat.sub_zero, hwrite, hfull, ne_eq, hrest,
    not_false_eq_true, and_self, vol.nextCluster_on _ (show curr < 65536 by omega),
    vol.nextFreeCluster_on]

/-- There are clusters for `n` bytes: `later` of them behind the first one of the chain, and
    free ones, when `additional_clusters` is not 0. -/
def HasClusters (vol : Volume) (disk : Mem) (additional later n : Nat) : Prop :=
  vol.needed n ≤ later + 1 ∨
    (additional ≠ 0 ∧ vol.needed n ≤ later + 1 + (vol.freeClusters disk).length)

/-- What the data loop does: it writes the data to the chain, and takes as many of the
    free clusters, in their order, as are missing; when they are too few it ends with an
    error. -/
theorem writeLoop_cases {fuel : Nat} (additional : Nat) (dev : Ata) {curr : Nat}
    {later : List Nat} {bytes : List UInt8} (hchain : vol.FileChain dev.disk curr (curr :: later))
    (hbytes : bytes ≠ []) (hfuel : bytes.length ≤ fuel) :
    (HasClusters vol dev.disk additional later.length bytes.length →
      ∃ dev' last, fat16WriteLoop vol.bpb additional fuel dev curr 0 bytes = .ok (dev', last) ∧
        vol.Written dev.disk curr (curr :: later)
          ((vol.freeClusters dev.disk).take (vol.needed bytes.length - (later.length + 1)))
          bytes dev'.disk) ∧
    (¬ HasClusters vol dev.disk additional later.length bytes.length →
      ∃ dev', fat16WriteLoop vol.bpb additional fuel dev curr 0 bytes
        = .error (.result (-enospc) dev')) := by
  have hmax : fat16MaxClusters = 65525 := rfl
  have hmark : fat16ValueEndOfChain = 0xFFF8 := rfl
  simp only [HasClusters]
  induction fuel generalizing dev curr later bytes with
  | zero =>
      exact absurd (List.eq_nil_of_length_eq_zero (Nat.le_zero.mp hfuel)) hbytes
  | succ fuel ih =>
      have hpos := List.length_pos_iff.mpr hbytes
      rcases Nat.lt_or_ge vol.clusterBytes bytes.length with hgt | hle
      · obtain ⟨hlow, hhigh⟩ := hchain.bounds List.mem_cons_self
        have hneeded := vol.needed_of_gt hgt
        have hround := writeLoop_round hspc fuel additional dev hlow hhigh hgt
        obtain ⟨chunk, hchunkdef⟩ : ∃ l, l = bytes.take vol.clusterBytes := ⟨_, rfl⟩
        obtain ⟨rest, hrestdef⟩ : ∃ l, l = bytes.drop vol.clusterBytes := ⟨_, rfl⟩
        have hsplit : chunk ++ rest = bytes := by
          rw [hchunkdef, hrestdef, List.take_append_drop]
        have hchunk : chunk.length = vol.clusterBytes := by
          rw [hchunkdef, List.length_take]
          omega
        have hrestlen : rest.length = bytes.length - vol.clusterBytes := by
          rw [hrestdef, List.length_drop]
        have hcluster := vol.clusterBytes_pos
        have hrestne : rest ≠ [] := by
          intro hnil
          rw [hnil, List.length_nil] at hrestlen
          omega
        rw [← hrestlen] at hneeded
        rw [← hchunkdef, ← hrestdef] at hround
        obtain ⟨disk₁, hdisk₁⟩ : ∃ d, d = dev.disk.write (vol.clusterPos curr) chunk := ⟨_, rfl⟩
        rw [← hdisk₁] at hround
        have hfat₁ : ∀ x < 65536, vol.fatOn disk₁ x = vol.fatOn dev.disk x := by
          intro x hx
          rw [hdisk₁]
          exact vol.fatOn_write hfat dev.disk hx
        have hfree₁ := vol.freeClusters_congr hfat₁
        have hnext := hfat₁ curr (by omega)
        have hrestpos := vol.needed_pos (List.length_pos_iff.mpr hrestne)
        cases later with
        | cons l ls =>
            -- the chain goes on
            obtain ⟨hl, hlink⟩ := hchain.next_cons
            have hlive := hlink.live_head
            have hnot : ¬ l ≥ fat16ValueEndOfChain := by omega
            have hlink₁ : vol.FileChain disk₁ l (l :: ls) := by
              refine hlink.congr fun x hx => hfat₁ x ?_
              have hlt := (hlink.bounds hx).2
              omega
            simp only [hnext, hl, hnot, if_false] at hround
            obtain ⟨hyes, hno⟩ := @ih ⟨disk₁, dev.behind⟩ l ls rest hlink₁ hrestne (by omega)
            simp only [hfree₁] at hyes hno
            simp only [List.length_cons]
            refine ⟨fun hroom => ?_, fun hnoroom => ?_⟩
            · obtain ⟨dev', last, hloop, hwritten⟩ := hyes (by omega)
              refine ⟨dev', last, hround.trans hloop, ?_⟩
              have hmissing : vol.needed rest.length - (ls.length + 1)
                  = vol.needed bytes.length - (ls.length + 1 + 1) := by omega
              rw [hmissing, hdisk₁] at hwritten
              rw [← hsplit] at hwritten ⊢
              refine hwritten.link hfat hchain hchunk fun x hx => ?_
              exact (vol.mem_freeClusters.mp (List.mem_of_mem_take hx)).2.2
            · obtain ⟨dev', hloop⟩ := hno (by omega)
              exact ⟨dev', hround.trans hloop⟩
        | nil =>
            -- the chain is at its end: the first free cluster is linked behind it
            have hend : vol.fatOn dev.disk curr ≥ fat16ValueEndOfChain := by
              cases hchain with
              | last _ hend => exact hend
              | link _ hrest => exact absurd rfl hrest.ne_nil
            rw [List.length_nil]
            simp only [hnext, hend, if_true, hfree₁] at hround
            by_cases hsome : additional = 0
            · rw [if_pos hsome] at hround
              exact ⟨fun hroom => by omega, fun _ => ⟨_, hround⟩⟩
            rw [if_neg hsome] at hround
            cases hclusters : vol.freeClusters dev.disk with
            | nil =>
                simp only [hclusters, List.head?_nil, Option.getD_none, if_true] at hround
                rw [List.length_nil]
                exact ⟨fun hroom => by omega, fun _ => ⟨_, hround⟩⟩
            | cons new others =>
                have hnew : new ∈ vol.freeClusters dev.disk := by
                  rw [hclusters]
                  exact List.mem_cons_self
                obtain ⟨hnewlow, hnewhigh, hnewfree⟩ := vol.mem_freeClusters.mp hnew
                have hne : new ≠ 0 := by omega
                have hnc : curr ≠ new := by
                  rintro rfl
                  omega
                rw [hclusters] at hround
                simp only [List.head?_cons, Option.getD_some, hne, if_false,
                  vol.createFatEntry_on _ _ hlow hhigh,
                  vol.createFatEntry_on _ _ (show 2 ≤ new by omega) hnewhigh] at hround
                obtain ⟨disk₂, hdisk₂⟩ : ∃ d, d = vol.setFat (vol.setFat disk₁ curr new) new
                    fat16ValueEndOfChain := ⟨_, rfl⟩
                rw [← hdisk₂] at hround
                have hatnew : vol.fatOn disk₂ new = fat16ValueEndOfChain := by
                  rw [hdisk₂]
                  exact vol.setFat_self _ _ (by omega)
                have hatcurr : vol.fatOn disk₂ curr = new := by
                  rw [hdisk₂, vol.setFat_of_ne _ _ hnc]
                  exact vol.setFat_self _ _ (by omega)
                have hfree₂ : vol.freeClusters disk₂ = others := by
                  refine vol.freeClusters_taken hclusters (by omega) fun x hlt hx => ?_
                  by_cases hxc : x = curr
                  · subst hxc
                    omega
                  · rw [hdisk₂, vol.setFat_of_ne _ _ hx, vol.setFat_of_ne _ _ hxc, hfat₁ x hlt]
                have hchain₂ : vol.FileChain disk₂ new [new] :=
                  .last ⟨by omega, hnewhigh⟩ (by rw [hatnew])
                obtain ⟨hyes, hno⟩ := @ih ⟨disk₂, dev.behind⟩ new [] rest hchain₂ hrestne (by omega)
                simp only [hfree₂, List.length_nil] at hyes hno
                rw [List.length_cons]
                refine ⟨fun hroom => ?_, fun hnoroom => ?_⟩
                · obtain ⟨dev', last, hloop, hwritten⟩ := hyes (by omega)
                  refine ⟨dev', last, hround.trans hloop, ?_⟩
                  have hcount : vol.needed bytes.length - (0 + 1)
                      = vol.needed rest.length - (0 + 1) + 1 := by omega
                  rw [hcount, List.take_succ_cons, ← hsplit]
                  rw [hdisk₁] at hdisk₂
                  refine hwritten.extend hfat hchain hchunk hnew (fun x hx => ?_) hdisk₂
                  have hmem : x ∈ vol.freeClusters dev.disk := by
                    rw [hclusters]
                    exact List.mem_cons_of_mem new (List.mem_of_mem_take hx)
                  exact (vol.mem_freeClusters.mp hmem).2.2
                · obtain ⟨dev', hloop⟩ := hno (by omega)
                  exact ⟨dev', hround.trans hloop⟩
      · obtain ⟨dev', hloop, hwritten⟩ := writeLoop_last hspc hfat hchain
          hbytes hfuel hle
        have hone := vol.needed_of_le hpos hle
        refine ⟨fun _ => ⟨dev', curr, hloop, ?_⟩, fun hnoroom => by omega⟩
        have hnone : vol.needed bytes.length - (later.length + 1) = 0 := by omega
        rw [hnone, List.take_zero]
        exact hwritten

end Rounds

/-! ## The data part of a write -/

/-- The driver counts the clusters of a chain. -/
theorem chainLengthLoop_chain {dev : Ata} {lookups used c : Nat} {cs : List Nat}
    (hchain : vol.FileChain dev.disk c cs) (hlookups : cs.length ≤ lookups)
    (hused : used + cs.length ≤ 65536) :
    chainLengthLoop vol.bpb dev lookups used c = some (used + cs.length - 1) := by
  have hmax : fat16MaxClusters = 65525 := rfl
  have hmark : fat16ValueEndOfChain = 0xFFF8 := rfl
  induction hchain generalizing lookups used with
  | @last c hlive hend =>
      obtain ⟨lookups, rfl⟩ : ∃ k, lookups = k + 1 := ⟨lookups - 1, by
        rw [List.length_singleton] at hlookups
        omega⟩
      rw [chainLengthLoop, vol.nextCluster_on dev (by omega)]
      simp only [List.length_singleton, show ¬ vol.fatOn dev.disk c < fat16ValueEndOfChain by omega,
        if_false, Nat.add_sub_cancel]
  | @link c cs hlive hrest ih =>
      have hnext := hrest.live_head
      have hpos := List.length_pos_iff.mpr hrest.ne_nil
      rw [List.length_cons] at hlookups hused
      obtain ⟨lookups, rfl⟩ : ∃ k, lookups = k + 1 := ⟨lookups - 1, by omega⟩
      have hwrap : u16 (used + 1) = used + 1 := Nat.mod_eq_of_lt (by omega)
      rw [chainLengthLoop, vol.nextCluster_on dev (by omega)]
      simp only [show vol.fatOn dev.disk c < fat16ValueEndOfChain by omega, if_true, hwrap]
      rw [ih (by omega) (by omega), List.length_cons]
      congr 1
      omega

/-- A chain has fewer clusters than the FAT has entries. -/
theorem FileChain.length_lt {disk : Mem} {c : Nat} {cs : List Nat}
    (h : vol.FileChain disk c cs) : cs.length < fat16MaxClusters := by
  have hmax : fat16MaxClusters = 65525 := rfl
  have hsub : cs ⊆ List.range' 2 (fat16MaxClusters - 2) := by
    intro x hx
    have hbounds := h.bounds hx
    rw [List.mem_range'_1]
    omega
  have hle := (h.nodup.subperm hsub).length_le
  rw [List.length_range'] at hle
  omega

theorem length_freeClusters_lt (disk : Mem) :
    (vol.freeClusters disk).length < fat16MaxClusters := by
  have hmax : fat16MaxClusters = 65525 := rfl
  have hle := List.length_filter_le (fun c => vol.fatOn disk c == fat16ValueFree)
    (List.range' 3 (fat16MaxClusters - 3))
  rw [List.length_range'] at hle
  rw [freeClusters]
  omega

/-- The bytes fit the clusters they need. -/
theorem le_needed (n : Nat) : n ≤ vol.needed n * vol.clusterBytes := by
  have hpos := vol.clusterBytes_pos
  have hdiv := Nat.div_add_mod (n + vol.clusterBytes - 1) vol.clusterBytes
  have hmod := Nat.mod_lt (n + vol.clusterBytes - 1) hpos
  rw [Nat.mul_comm] at hdiv
  rw [needed]
  omega

/-- As many bytes as there are clusters for are less than 4 GiB. -/
theorem add_clusterBytes_lt (hspc : vol.bpb.secPerClus ≤ 64) {n : Nat}
    (h : vol.needed n ≤ 2 * fat16MaxClusters - 2) : n + vol.clusterBytes < 2 ^ 32 := by
  have hmax : fat16MaxClusters = 65525 := rfl
  have hsize : vol.clusterBytes ≤ 32768 := by
    rw [clusterBytes]
    omega
  have hbytes : vol.needed n * vol.clusterBytes ≤ 131048 * 32768 := Nat.mul_le_mul (by omega) hsize
  have hle := vol.le_needed n
  omega

/-- `required_clusters` does not wrap. -/
theorem requiredClusters_eq (hspc : vol.bpb.secPerClus ≤ 64) {n : Nat}
    (h : vol.needed n ≤ 2 * fat16MaxClusters - 2) : requiredClusters vol.bpb n = vol.needed n := by
  have hlt := vol.add_clusterBytes_lt hspc h
  rw [requiredClusters, vol.maxClusterSize_eq hspc, u32, Nat.mod_eq_of_lt (by omega), needed]

section Data

variable (hspc : vol.bpb.secPerClus ≤ 64) (hfat : 256 ≤ vol.bpb.fatsz16)
include hspc hfat

omit hfat in
theorem chainLength_chain {dev : Ata} {lookups start : Nat} {cs : List Nat}
    (hchain : vol.FileChain dev.disk start cs) (hlookups : 65536 ≤ lookups) :
    fat16GetClusterChainLength vol.bpb dev lookups (maxClusterSizeBytes vol.bpb) start
      = some (.blocks cs.length) := by
  have hmax : fat16MaxClusters = 65525 := rfl
  have hlen := hchain.length_lt
  have hsize : maxClusterSizeBytes vol.bpb ≠ 0 := by
    have hpos := vol.clusterBytes_pos
    rw [vol.maxClusterSize_eq hspc]
    omega
  have hlt := hchain.live_head.2
  have hstart : u16 (0 / maxClusterSizeBytes vol.bpb + start) = start := by
    rw [Nat.zero_div, Nat.zero_add]
    exact Nat.mod_eq_of_lt (by omega)
  rw [fat16GetClusterChainLength, if_neg hsize, hstart,
    chainLengthLoop_chain hchain (by omega) (by omega), Nat.add_sub_cancel_left, Option.map_some]

/-- The part of `fat16_write` before the directory entry: the data is in the clusters of the
    chain and in the ones that were missing, or there were too few. -/
theorem writeData_cases {dev : Ata} {lookups nBytes : Nat} {fileEntry : DirEntry} {cs : List Nat}
    {bytes : List UInt8} (hchain : vol.FileChain dev.disk (entryCluster fileEntry) cs)
    (hlookups : 65536 ≤ lookups) (hbytes : bytes ≠ []) :
    (HasClusters vol dev.disk (requiredClusters vol.bpb nBytes - cs.length) (cs.length - 1)
        bytes.length →
      ∃ dev' last,
        fat16WriteData vol.bpb dev lookups fileEntry bytes nBytes
          = .ok ⟨dev', last, cs.length, requiredClusters vol.bpb nBytes⟩ ∧
        vol.Written dev.disk (entryCluster fileEntry) cs
          ((vol.freeClusters dev.disk).take (vol.needed bytes.length - cs.length)) bytes
          dev'.disk) ∧
    (¬ HasClusters vol dev.disk (requiredClusters vol.bpb nBytes - cs.length) (cs.length - 1)
        bytes.length →
      ∃ dev', fat16WriteData vol.bpb dev lookups fileEntry bytes nBytes
        = .error (.result (-enospc) dev')) := by
  have hmax : fat16MaxClusters = 65525 := rfl
  have hlen := hchain.length_lt
  have hcount := chainLength_chain hspc hchain hlookups
  obtain ⟨later, hlater⟩ := hchain.head
  have hlaterlen : cs.length = later.length + 1 := by rw [hlater, List.length_cons]
  obtain ⟨hyes, hno⟩ := writeLoop_cases hspc hfat _ dev (hlater ▸ hchain) hbytes
    (Nat.le_refl bytes.length)
  have hback : cs.length - 1 = later.length := by omega
  rw [hback]
  refine ⟨fun hroom => ?_, fun hnoroom => ?_⟩
  · obtain ⟨dev', last, hloop, hwritten⟩ := hyes hroom
    refine ⟨dev', last, ?_, ?_⟩
    · simp only [fat16WriteData, hcount, hloop]
    · rw [hlaterlen, hlater]
      exact hwritten
  · obtain ⟨dev', hloop⟩ := hno hnoroom
    exact ⟨dev', by simp only [fat16WriteData, hcount, hloop]⟩

end Data

end Loop

/-! ## Files that do not share clusters -/

/-- Every file has a chain of clusters, and no two files have a cluster in common. -/
structure Chained {ι : Type} (vol : Volume) (disk : Mem) (files : ι → List Nat) : Prop where
  chain : ∀ i, ∃ c, vol.FileChain disk c (files i)
  disjoint : ∀ i j, i ≠ j → List.Disjoint (files i) (files j)

/-- `data` has been written to file `i`, with the clusters `new` linked behind it. -/
structure WrittenExactly {ι : Type} [DecidableEq ι] (vol : Volume) (files : ι → List Nat) (i : ι)
    (new : List Nat) (data : List UInt8) (disk' : Mem) : Prop where
  chained : vol.Chained disk' (Function.update files i (files i ++ new))
  free : ∀ c ∈ new, 3 ≤ c ∧ c < totalClusters vol.bpb + 2 ∧ vol.fatOn vol.dev.disk c = fat16ValueFree
  length : (files i ++ new).length = vol.needed data.length
  content : ((files i ++ new).flatMap (vol.dataOn disk')).take data.length = data
  fat : ∀ c < 256 * vol.bpb.fatsz16, c ∉ new → c ∉ (files i).getLast? →
    vol.fatOn disk' c = vol.fatOn vol.dev.disk c
  clusters : ∀ c, 2 ≤ c → c ∉ files i ++ new → vol.dataOn disk' c = vol.dataOn vol.dev.disk c

section Files

variable {ι : Type} [DecidableEq ι] {vol : Volume} {files : ι → List Nat} {i : ι} {new : List Nat}
  {bytes : List UInt8} {disk disk' : Mem} {c : Nat}

/-- The chains after the new clusters have been linked behind one of them -/
theorem Written.chained (h : vol.Written disk c (files i) new bytes disk')
    (hfiles : vol.Chained disk files) (hnew : ∀ x ∈ new, vol.fatOn disk x = 0) :
    vol.Chained disk' (Function.update files i (files i ++ new)) := by
  have hmax : fat16MaxClusters = 65525 := rfl
  have hfresh : ∀ j, List.Disjoint new (files j) := by
    intro j x hx hxj
    obtain ⟨d, hchain⟩ := hfiles.chain j
    exact hchain.not_free hxj (hnew x hx)
  have happend : ∀ j, j ≠ i → List.Disjoint (files i ++ new) (files j) := by
    intro j hj
    rw [List.disjoint_append_left]
    exact ⟨hfiles.disjoint i j hj.symm, hfresh j⟩
  refine ⟨fun j => ?_, fun j k hjk => ?_⟩
  · by_cases hj : j = i
    · subst hj
      rw [Function.update_self]
      exact ⟨c, h.chain⟩
    · rw [Function.update_of_ne hj]
      obtain ⟨d, hchain⟩ := hfiles.chain j
      refine ⟨d, hchain.congr fun x hx => h.fat x ?_ (fun hmem => hfresh j hmem hx) fun hlast => ?_⟩
      · have hlt := (hchain.bounds hx).2
        omega
      · exact absurd hx (hfiles.disjoint i j (Ne.symm hj) (List.mem_of_getLast? hlast))
  · by_cases hj : j = i
    · subst hj
      rw [Function.update_self, Function.update_of_ne (Ne.symm hjk)]
      exact happend k (Ne.symm hjk)
    · rw [Function.update_of_ne hj]
      by_cases hk : k = i
      · subst hk
        rw [Function.update_self]
        exact (happend j hj).symm
      · rw [Function.update_of_ne hk]
        exact hfiles.disjoint j k hjk

omit [DecidableEq ι] in
/-- The entries of the first FAT that do not belong to the chain -/
theorem Written.fatEntries (h : vol.Written disk c (files i) new bytes disk') {x : Nat}
    (hx : x < 256 * vol.bpb.fatsz16) (hnew : x ∉ new) (hlast : x ∉ (files i).getLast?) :
    vol.fatOn disk' x = vol.fatOn disk x := by
  have hmax : fat16MaxClusters = 65525 := rfl
  rcases Nat.lt_or_ge x 65536 with hlt | hge
  · exact h.fat x hlt hnew fun hmem => absurd hmem hlast
  · apply Mem.load_congr
    intro k hlow hhigh
    simp only [fatPos] at hlow hhigh
    apply h.frame
    · right
      simp only [fatPos]
      omega
    · intro y _
      left
      simp only [clusterPos, rootPos]
      omega

end Files

/-- A write that does not shrink the file writes the data, and links free clusters behind
    the chain of the file until it has as many as the data needs. -/
theorem write_exact {ι : Type} [DecidableEq ι] (vol : Volume) (files : ι → List Nat) (i : ι)
    (fileEntry : DirEntry) (buffer : Mem) (n lookups : Nat) (now : Stamp)
    (hspc : vol.bpb.secPerClus ≤ 64) (hfatsz : 256 ≤ vol.bpb.fatsz16)
    (hfiles : vol.Chained vol.dev.disk files)
    (hnone : ∀ c, totalClusters vol.bpb + 2 ≤ c → c < fat16MaxClusters →
      vol.fatOn vol.dev.disk c ≠ fat16ValueFree)
    (hstart : (files i).head? = some (entryCluster fileEntry))
    (hgrow : (files i).length ≤ vol.needed n)
    (hroom : vol.needed n - (files i).length ≤ (vol.freeClusters vol.dev.disk).length)
    (hlookups : 65536 ≤ lookups) :
    let data := (List.range n).map buffer
    ∃ r new, fat16WriteData vol.bpb vol.dev lookups fileEntry data n = .ok r ∧
      vol.WrittenExactly files i new data r.dev.disk ∧
      fat16Write vol.bpb vol.dev lookups now fileEntry buffer n 1 =
        match fat16WriteEntry vol.bpb r.dev lookups now fileEntry n with
        | none => .error .unfinished
        | some r => .ok r := by
  have hmax : fat16MaxClusters = 65525 := rfl
  obtain ⟨data, hdata⟩ : ∃ l, l = (List.range n).map buffer := ⟨_, rfl⟩
  have hlen : data.length = n := by rw [hdata, List.length_map, List.length_range]
  show ∃ r new, fat16WriteData vol.bpb vol.dev lookups fileEntry ((List.range n).map buffer) n
    = .ok r ∧ _
  rw [← hdata]
  -- the chain of the file is the one the entry starts
  obtain ⟨c, hchain⟩ := hfiles.chain i
  have hc : c = entryCluster fileEntry := by
    obtain ⟨rest, hrest⟩ := hchain.head
    rw [hrest, List.head?_cons] at hstart
    exact Option.some.inj hstart
  subst hc
  rw [← hlen] at hgrow hroom ⊢
  have hcspos := List.length_pos_iff.mpr hchain.ne_nil
  have hcslt := hchain.length_lt
  have hfreelt : (vol.freeClusters vol.dev.disk).length < fat16MaxClusters :=
    length_freeClusters_lt vol.dev.disk
  have hpos : data.length ≠ 0 := by
    intro hzero
    rw [hzero, vol.needed_zero] at hgrow
    omega
  have hsmall := vol.add_clusterBytes_lt hspc (n := data.length) (by omega)
  have hne : data ≠ [] := fun hnil => hpos (by rw [hnil, List.length_nil])
  obtain ⟨hyes, -⟩ := writeData_cases hspc hfatsz hchain hlookups hne
  rw [vol.requiredClusters_eq hspc (n := data.length) (by omega)] at hyes
  -- there are as many free clusters as the data needs
  have hclusters : HasClusters vol vol.dev.disk (vol.needed data.length - (files i).length)
      ((files i).length - 1) data.length := by
    rw [HasClusters]
    omega
  obtain ⟨dev', last, hok, hwritten⟩ := hyes hclusters
  have hfree : ∀ x ∈ (vol.freeClusters vol.dev.disk).take (vol.needed data.length - (files i).length),
      3 ≤ x ∧ x < fat16MaxClusters ∧ vol.fatOn vol.dev.disk x = 0 :=
    fun x hx => vol.mem_freeClusters.mp (List.mem_of_mem_take hx)
  have hlong : (files i ++ (vol.freeClusters vol.dev.disk).take
      (vol.needed data.length - (files i).length)).length = vol.needed data.length := by
    rw [List.length_append, List.length_take]
    omega
  refine ⟨_, _, hok, ⟨hwritten.chained hfiles fun x hx => (hfree x hx).2.2, ?_, hlong, ?_,
    fun x hx => hwritten.fatEntries hx, fun x hlow hx => hwritten.data hfatsz hlow hx⟩, ?_⟩
  · -- a free number that is not among the first free ones lies beyond the volume
    intro x hx
    obtain ⟨hlow, hhigh, hzero⟩ := hfree x hx
    refine ⟨hlow, ?_, hzero⟩
    by_contra hge
    exact hnone x (by omega) hhigh hzero
  · rw [hwritten.content, List.take_left' rfl]
  · -- nothing is given back
    have hbuffer : (List.range (u32 (data.length * 1))).map buffer = data := by
      rw [Nat.mul_one, u32, Nat.mod_eq_of_lt (by omega), hlen, hdata]
    have hkeep : ¬ vol.needed data.length < (files i).length := by omega
    simp only [fat16Write, hpos, Nat.one_ne_zero, or_self, if_false, hbuffer, hok]
    rewrite [if_neg hkeep]
    rfl

end Volume

/-! ## A file that grows by a cluster -/

/-- `deepDisk` with a FAT of 256 sectors, in which the file in the root directory has one
    cluster, and the entries of the clusters that do not exist are used. -/
def grownDisk : Mem :=
  let header := [0xEB, 0x3C, 0x90] ++ List.replicate 8 0 ++
    [0, 2, 1, 1, 0, 2, 16, 0, 0, 0x12, 0xF8, 0, 1]
  let disk := Mem.write (fun x => if 0x102200 ≤ x then 0xFF else 0) partitionOffset header
  disk.write 0x100204 [0xFF, 0xFF]

theorem grownDisk_mounted : (fat16Resolve ⟨grownDisk, fun _ => 0⟩).isSome = true := by
  decide +kernel

/-- The volume on `grownDisk` -/
def grownVolume : Volume where
  dev := ⟨grownDisk, fun _ => 0⟩
  bpb := (fat16Resolve ⟨grownDisk, fun _ => 0⟩).get grownDisk_mounted
  mounted := (Option.some_get grownDisk_mounted).symm

theorem grownDisk_tail {x : Nat} (h : 0x102200 ≤ x) : grownDisk x = 0xFF := by
  have hmark : [(0xFF : UInt8), 0xFF].length = 2 := rfl
  rw [grownDisk, Mem.write_of_ge (by rw [hmark]; omega), Mem.write_of_ge ?_, if_pos h]
  simp only [partitionOffset, List.length_append, List.length_cons, List.length_nil,
    List.length_replicate]
  omega

/-- 513 bytes for the file in cluster 2 -/
theorem write_exact_grown :
    ∃ r new, fat16WriteData grownVolume.bpb grownVolume.dev 65536 ⟨letterEntry 65 attrArchive 2⟩
        ((List.range 513).map fun _ => 7) 513 = .ok r ∧
      grownVolume.WrittenExactly (fun _ : Unit => [2]) () new ((List.range 513).map fun _ => 7)
        r.dev.disk ∧
      fat16Write grownVolume.bpb grownVolume.dev 65536 ⟨0, 0⟩ ⟨letterEntry 65 attrArchive 2⟩
          (fun _ => 7) 513 1 =
        match fat16WriteEntry grownVolume.bpb r.dev 65536 ⟨0, 0⟩ ⟨letterEntry 65 attrArchive 2⟩ 513 with
        | none => .error .unfinished
        | some r => .ok r := by
  have htotal : totalClusters grownVolume.bpb = 4094 := by decide +kernel
  have hrsvd : grownVolume.bpb.rsvdSec = 1 := by decide +kernel
  have hneeded : grownVolume.needed 513 = 2 := by decide +kernel
  apply Volume.write_exact grownVolume (fun _ : Unit => [2]) ()
  · decide +kernel
  · decide +kernel
  · refine ⟨fun _ => ⟨2, .last (by decide) (by decide +kernel)⟩, fun i j h => absurd rfl h⟩
  · intro c hlow _
    have hpos : 0x102200 ≤ grownVolume.fatPos c := by
      simp only [Volume.fatPos, partitionOffset, hrsvd]
      omega
    have hbyte : grownVolume.dev.disk (grownVolume.fatPos c) = 0xFF := grownDisk_tail hpos
    rw [Volume.fatOn, Mem.load, hbyte]
    have hvalue : (0xFF : UInt8).toNat = 255 := rfl
    rw [hvalue]
    intro hzero
    have hfree : fat16ValueFree = 0 := rfl
    omega
  · decide +kernel
  · rw [hneeded]
    decide
  · rw [hneeded]
    have hthree : 3 ∈ grownVolume.freeClusters grownVolume.dev.disk :=
      grownVolume.mem_freeClusters.mpr ⟨Nat.le_refl 3, by decide, by decide +kernel⟩
    exact List.length_pos_of_mem hthree
  · decide

end Icarius
