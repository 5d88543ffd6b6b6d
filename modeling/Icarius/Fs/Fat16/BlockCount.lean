/-
  Icarius.Fs.Fat16.BlockCount

  `fat16_write` of `n_bytes` times `n_blocks` against one block of all the bytes.  The data
  is the same, but `required_clusters` is computed from `n_bytes` alone: whether the file
  may grow, and what is given back, depends on how the bytes are counted.
-/

import Icarius.Fs.Fat16.Shrink

namespace Icarius

open Icarius.Lib

/-- The result and the disk of a write that comes back -/
def writeOutcome (x : Except WriteStop WriteResult) : Option (BitVec 32 × Mem) :=
  match x with
  | .ok r => some (r.res, r.dev.disk)
  | .error _ => none

namespace Volume

/-- The blocks can be written as one. -/
def Interchangeable (vol : Volume) (dev : Ata) (lookups : Nat) (now : Stamp) (e : DirEntry)
    (buffer : Mem) (nBytes nBlocks : Nat) : Prop :=
  writeOutcome (fat16Write vol.bpb dev lookups now e buffer nBytes nBlocks)
    = writeOutcome (fat16Write vol.bpb dev lookups now e buffer (nBytes * nBlocks) 1)

/-- `fat16_free_unused_clusters` changes nothing, when it is given cluster `last`: its first
    loop comes to an end mark, or its numbers are none of clusters. -/
def GivesNothing (vol : Volume) (dev : Ata) (last required : Nat) : Prop :=
  (∃ i ≤ required, fat16ValueEndOfChain ≤ (vol.strayNext dev)^[i] last) ∨
    ((vol.strayNext dev)^[required] last < 2 ∧
      ¬ (2 ≤ (vol.strayNext dev)^[required - 1] last ∧
        (vol.strayNext dev)^[required - 1] last < fat16MaxClusters))

/-- Both numbers of clusters allow the same of a file with the chain `cs`: to grow, when it
    has to and can, and to give nothing back, when they differ and the data fits. -/
structure SameClusters (vol : Volume) (dev : Ata) (cs : List Nat) (nBytes nBlocks : Nat) : Prop where
  growth : cs.length < vol.needed (nBytes * nBlocks) →
    (requiredClusters vol.bpb nBytes ≤ cs.length ↔
      requiredClusters vol.bpb (nBytes * nBlocks) ≤ cs.length) ∨ vol.freeClusters dev.disk = []
  surplus : vol.needed (nBytes * nBlocks) ≤ cs.length →
    requiredClusters vol.bpb nBytes = requiredClusters vol.bpb (nBytes * nBlocks) ∨
      ∀ n, n = nBytes ∨ n = nBytes * nBlocks → requiredClusters vol.bpb n < cs.length →
        vol.GivesNothing dev (cs.getD (vol.needed (nBytes * nBlocks) - 1) 0)
          (requiredClusters vol.bpb n)

theorem bytesOf_one (buffer : Mem) (n m : Nat) : bytesOf buffer (n * m) 1 = bytesOf buffer n m := by
  rw [bytesOf, Nat.mul_one]
  rfl

/-! ## Numbers of clusters that allow the same -/

/-- The data loop knows no more of `additional_clusters` than whether it is 0. -/
theorem writeLoop_additional {bpb : Fat16Header} {additional additional' : Nat}
    (hsome : additional ≠ 0) (hsome' : additional' ≠ 0) (fuel : Nat) (dev : Ata)
    (curr offset : Nat) (bytes : List UInt8) :
    fat16WriteLoop bpb additional fuel dev curr offset bytes
      = fat16WriteLoop bpb additional' fuel dev curr offset bytes := by
  induction fuel generalizing dev curr offset bytes with
  | zero => rfl
  | succ fuel ih =>
      rw [fat16WriteLoop, fat16WriteLoop]
      simp only [hsome, hsome', if_false, ih]

/-- On every volume: the same number of clusters, or more than the file has both times. -/
theorem interchangeable_of_required {vol : Volume} {dev : Ata} {lookups : Nat} {now : Stamp}
    {e : DirEntry} {buffer : Mem} {n m : Nat} (hn : 0 < n) (hm : 0 < m)
    (h : ∀ k, fat16GetClusterChainLength vol.bpb dev lookups (maxClusterSizeBytes vol.bpb)
        (entryCluster e) = some (.blocks k) →
      requiredClusters vol.bpb n = requiredClusters vol.bpb (n * m) ∨
        (k < requiredClusters vol.bpb n ∧ k < requiredClusters vol.bpb (n * m))) :
    vol.Interchangeable dev lookups now e buffer n m := by
  have hcall : ¬ (n = 0 ∨ m = 0) := by omega
  have hpos := Nat.mul_pos hn hm
  have hcall' : ¬ (n * m = 0 ∨ 1 = 0) := by omega
  rw [Interchangeable, fat16Write, fat16Write, if_neg hcall, if_neg hcall', Nat.mul_one]
  simp only [fat16WriteData]
  cases hlength : fat16GetClusterChainLength vol.bpb dev lookups (maxClusterSizeBytes vol.bpb)
      (entryCluster e) with
  | none => rfl
  | some length =>
      cases length with
      | divideFault => rfl
      | blocks k =>
          rcases h k hlength with hsame | ⟨hmore, hmore'⟩
          · rw [hsame]
          · -- the file grows both times, and nothing is given back
            have hadditional : requiredClusters vol.bpb n - k ≠ 0 := by omega
            have hadditional' : requiredClusters vol.bpb (n * m) - k ≠ 0 := by omega
            simp only [writeLoop_additional hadditional hadditional']
            cases fat16WriteLoop vol.bpb (requiredClusters vol.bpb (n * m) - k)
                ((List.range (u32 (n * m))).map buffer).length dev (entryCluster e) 0
                ((List.range (u32 (n * m))).map buffer) with
            | error stop => rfl
            | ok r =>
                simp only [if_neg (show ¬ requiredClusters vol.bpb n < k by omega),
                  if_neg (show ¬ requiredClusters vol.bpb (n * m) < k by omega)]

section Sound

variable {vol : Volume} (hspc : vol.bpb.secPerClus ≤ 64) (hfat : 256 ≤ vol.bpb.fatsz16)
include hspc hfat

/-! ## Data that fits the chain -/

omit hspc hfat in
theorem givenBack_nothing {dev₁ : Ata} {lookups last required existing : Nat} (hlow : 2 ≤ last)
    (hlast : last < 65536) (hlookups : 0 < lookups) (hpos : 0 < required)
    (h : required < existing → vol.GivesNothing dev₁ last required) :
    givenBack vol.bpb dev₁ lookups last required existing = some dev₁ := by
  rw [givenBack]
  by_cases hless : required < existing
  · rw [if_pos hless]
    obtain ⟨k, rfl⟩ : ∃ k, required = k + 1 := ⟨required - 1, by omega⟩
    have hcall : ¬ (k + 1 ≥ existing ∨ last < 2) := by omega
    rw [fat16FreeUnusedClusters, if_neg hcall]
    simp only
    by_cases hend : ∃ i ≤ k + 1, fat16ValueEndOfChain ≤ (vol.strayNext dev₁)^[i] last
    · obtain ⟨i, hi, hge⟩ := hend
      rw [if_pos (skipRequired_ended hlast hi hge)]
    · obtain ⟨hcurr, hprev⟩ := (h hless).resolve_left hend
      have hlive : ∀ i ≤ k, (vol.strayNext dev₁)^[i] last < fat16ValueEndOfChain := by
        intro i hi
        exact Nat.not_le.mp fun hge => hend ⟨i, Nat.le_succ_of_le hi, hge⟩
      have hmark : fat16ValueEndOfChain = 0xFFF8 := rfl
      obtain ⟨lookups, rfl⟩ : ∃ k, lookups = k + 1 := ⟨lookups - 1, by omega⟩
      rw [skipRequired_live hlast hlive]
      simp only [if_neg (show ¬ (vol.strayNext dev₁)^[k + 1] last ≥ fat16ValueEndOfChain by omega)]
      rw [Nat.add_sub_cancel] at hprev
      rw [fat16CreateFatEntry, if_pos (by omega), freeChain, if_neg (by omega)]
  · rw [if_neg hless]

/-- Nothing is given back, or the same. -/
theorem interchangeable_of_fits {dev : Ata} {lookups n m : Nat} {now : Stamp} {e : DirEntry}
    {cs : List Nat} {buffer : Mem} (hchain : vol.FileChain dev.disk (entryCluster e) cs)
    (hlookups : 65536 ≤ lookups) (hn : 0 < n) (hm : 0 < m) (hfits : n * m < 2 ^ 32)
    (hshort : vol.needed (n * m) ≤ cs.length) (h : vol.SameClusters dev cs n m) :
    vol.Interchangeable dev lookups now e buffer n m := by
  have hmax : fat16MaxClusters = 65525 := rfl
  have hpos := Nat.mul_pos hn hm
  have hcount := hchain.length_lt
  have hneeded := vol.needed_pos hpos
  have hle : vol.needed n ≤ vol.needed (n * m) := needed_mono (Nat.le_mul_of_pos_right n hm)
  have hfirst := vol.requiredClusters_eq hspc (n := n) (by omega)
  have hsecond := vol.requiredClusters_eq hspc (n := n * m) (by omega)
  have hpos₁ := vol.needed_pos hn
  rcases h.surplus hshort with hsame | hnothing
  · exact interchangeable_of_required hn hm fun _ _ => .inl hsame
  · have hlen : vol.needed (n * m) - 1 < cs.length := by omega
    obtain ⟨last, hlast⟩ : ∃ c, c = cs.getD (vol.needed (n * m) - 1) 0 := ⟨_, rfl⟩
    have hmem : last ∈ cs := by
      rw [hlast, List.getD_eq_getElem cs 0 hlen]
      exact List.getElem_mem hlen
    obtain ⟨hlow, hhigh⟩ := hchain.bounds hmem
    rw [← hlast] at hnothing
    have hback : ∀ k, k = n ∨ k = n * m → 0 < requiredClusters vol.bpb k →
        givenBack vol.bpb ⟨vol.putData dev.disk cs (bytesOf buffer n m), dev.behind⟩ lookups last
          (requiredClusters vol.bpb k) cs.length
          = some ⟨vol.putData dev.disk cs (bytesOf buffer n m), dev.behind⟩ := by
      intro k hk hkpos
      apply givenBack_nothing hlow (by omega) (by omega) hkpos
      intro hless
      have hgives := hnothing k hk hless
      simpa only [GivesNothing, vol.iterate_strayNext_putData dev cs _ (show last < 65536 by omega)]
        using hgives
    rw [Interchangeable, fat16Write_chain hspc hfat hchain hlookups hn hm hfits hshort,
      fat16Write_chain hspc hfat hchain hlookups hpos Nat.one_pos (by omega)
        (by rw [Nat.mul_one]; exact hshort), Nat.mul_one, bytesOf_one, ← hlast,
      hback n (.inl rfl) (by omega), hback (n * m) (.inr rfl) (by omega)]

/-! ## Data that needs more clusters -/

/-- The data loop on a chain that is too short fills it, and then decides. -/
theorem writeLoop_beyond {fuel : Nat} (dev : Ata) {curr : Nat} {later : List Nat}
    {bytes : List UInt8} (hchain : vol.FileChain dev.disk curr (curr :: later))
    (hfuel : bytes.length ≤ fuel) (hmore : later.length + 1 < vol.needed bytes.length) :
    ∃ fuel' rest, ∀ additional, fat16WriteLoop vol.bpb additional fuel dev curr 0 bytes
      = let dev₁ : Ata := ⟨vol.putData dev.disk (curr :: later) bytes, dev.behind⟩
        if additional = 0 then .error (.result (-enospc) dev₁)
        else
          match vol.freeClusters dev.disk with
          | [] => .error (.result (-enospc) dev₁)
          | new :: _ =>
              fat16WriteLoop vol.bpb additional fuel'
                ⟨vol.setFat (vol.setFat dev₁.disk ((curr :: later).getLastD 0) new) new
                  fat16ValueEndOfChain, dev.behind⟩ new 0 rest := by
  have hmax : fat16MaxClusters = 65525 := rfl
  have hmark : fat16ValueEndOfChain = 0xFFF8 := rfl
  induction later generalizing fuel dev curr bytes with
  -- the last cluster of the file: the loop looks for a free one, if it may
  | nil =>
      obtain ⟨hlow, hhigh⟩ := hchain.bounds List.mem_cons_self
      rw [List.length_nil] at hmore
      have hgt : vol.clusterBytes < bytes.length := vol.lt_of_one_lt_needed (by omega)
      obtain ⟨fuel, rfl⟩ : ∃ k, fuel = k + 1 := ⟨fuel - 1, by omega⟩
      have hfat₁ : ∀ x < 65536, vol.fatOn (dev.disk.write (vol.clusterPos curr)
          (bytes.take vol.clusterBytes)) x = vol.fatOn dev.disk x := fun x hx =>
        vol.fatOn_write hfat dev.disk hx
      have hend : vol.fatOn dev.disk curr ≥ fat16ValueEndOfChain := hchain.ended_getLastD 0
      refine ⟨fuel, bytes.drop vol.clusterBytes, fun additional => ?_⟩
      rw [writeLoop_round hspc fuel additional dev hlow hhigh hgt]
      simp only [hfat₁ curr (by omega), hend, if_true, vol.freeClusters_congr hfat₁, putData]
      by_cases hsome : additional = 0
      · rw [if_pos hsome, if_pos hsome]
      · rw [if_neg hsome, if_neg hsome]
        cases hclusters : vol.freeClusters dev.disk with
        | nil => rfl
        | cons new others =>
            obtain ⟨hnewlow, hnewhigh, -⟩ := vol.mem_freeClusters.mp (hclusters ▸ List.mem_cons_self)
            have hne : new ≠ 0 := by omega
            simp only [List.head?_cons, Option.getD_some, hne, if_false,
              vol.createFatEntry_on _ _ hlow hhigh,
              vol.createFatEntry_on _ _ (show 2 ≤ new by omega) hnewhigh]
            rfl
  -- a cluster with one behind it takes a cluster's worth of bytes
  | cons l ls ih =>
      obtain ⟨hlow, hhigh⟩ := hchain.bounds List.mem_cons_self
      rw [List.length_cons] at hmore
      have hgt : vol.clusterBytes < bytes.length := vol.lt_of_one_lt_needed (by omega)
      obtain ⟨fuel, rfl⟩ : ∃ k, fuel = k + 1 := ⟨fuel - 1, by omega⟩
      have hcluster := vol.clusterBytes_pos
      have hlen : (bytes.drop vol.clusterBytes).length = bytes.length - vol.clusterBytes :=
        List.length_drop
      have hneeded := vol.needed_of_gt hgt
      rw [← hlen] at hneeded
      obtain ⟨hl, hlink⟩ := hchain.next_cons
      have hlive := hlink.live_head
      have hfat₁ : ∀ x < 65536, vol.fatOn (dev.disk.write (vol.clusterPos curr)
          (bytes.take vol.clusterBytes)) x = vol.fatOn dev.disk x := fun x hx =>
        vol.fatOn_write hfat dev.disk hx
      have hlink' : vol.FileChain (dev.disk.write (vol.clusterPos curr)
          (bytes.take vol.clusterBytes)) l (l :: ls) := by
        refine hlink.congr fun x hx => hfat₁ x ?_
        have hlt := (hlink.bounds hx).2
        omega
      obtain ⟨fuel', rest, hbeyond⟩ := ih ⟨dev.disk.write (vol.clusterPos curr)
        (bytes.take vol.clusterBytes), dev.behind⟩ hlink' (show (bytes.drop vol.clusterBytes).length
          ≤ fuel by omega) (by omega)
      refine ⟨fuel', rest, fun additional => ?_⟩
      rw [writeLoop_round hspc fuel additional dev hlow hhigh hgt]
      simp only [hfat₁ curr (by omega), hl, if_neg (show ¬ l ≥ fat16ValueEndOfChain by omega),
        hbeyond, vol.freeClusters_congr hfat₁]
      rfl

omit hspc hfat in
/-- A data loop that fails behind the chain does not change the entries of other clusters
    that are in use. -/
theorem fatOn_of_writeLoop_error (hspc : vol.bpb.secPerClus ≤ 64) (hfat : 256 ≤ vol.bpb.fatsz16)
    {fuel additional : Nat} {dev dev' : Ata} {new : Nat} {bytes : List UInt8} {res : BitVec 32}
    (hchain : vol.FileChain dev.disk new [new])
    (h : fat16WriteLoop vol.bpb additional fuel dev new 0 bytes = .error (.result res dev')) {x : Nat}
    (hx : x < 65536) (hne : x ≠ new) (hused : vol.fatOn dev.disk x ≠ fat16ValueFree) :
    vol.fatOn dev'.disk x = vol.fatOn dev.disk x := by
  have hmax : fat16MaxClusters = 65525 := rfl
  have hmark : fat16ValueEndOfChain = 0xFFF8 := rfl
  -- over the rounds; what a round links is its own cluster and the one it takes
  induction fuel generalizing dev new bytes with
  | zero => cases h
  | succ fuel ih =>
      obtain ⟨hlow, hhigh⟩ := hchain.bounds (List.mem_singleton_self new)
      rcases Nat.lt_or_ge vol.clusterBytes bytes.length with hgt | hle
      · have hfat₁ : ∀ x < 65536, vol.fatOn (dev.disk.write (vol.clusterPos new)
            (bytes.take vol.clusterBytes)) x = vol.fatOn dev.disk x := fun x hx =>
          vol.fatOn_write hfat dev.disk hx
        have hend : vol.fatOn dev.disk new ≥ fat16ValueEndOfChain := hchain.ended_getLastD 0
        rw [writeLoop_round hspc fuel additional dev hlow hhigh hgt] at h
        simp only [hfat₁ new (by omega), hend, if_true, vol.freeClusters_congr hfat₁] at h
        by_cases hsome : additional = 0
        · rw [if_pos hsome] at h
          obtain ⟨-, rfl⟩ := WriteStop.result.inj (Except.error.inj h)
          exact hfat₁ x hx
        · rw [if_neg hsome] at h
          cases hclusters : vol.freeClusters dev.disk with
          | nil =>
              simp only [hclusters, List.head?_nil, Option.getD_none, if_true] at h
              obtain ⟨-, rfl⟩ := WriteStop.result.inj (Except.error.inj h)
              exact hfat₁ x hx
          | cons next others =>
              obtain ⟨hnextlow, hnexthigh, hfree⟩ :=
                vol.mem_freeClusters.mp (hclusters ▸ List.mem_cons_self)
              have hnz : next ≠ 0 := by omega
              -- a cluster that is taken was free, so it is not `x`
              have hxnext : x ≠ next := fun heq => hused (heq ▸ hfree)
              simp only [hclusters, List.head?_cons, Option.getD_some, hnz, if_false,
                vol.createFatEntry_on _ _ hlow hhigh,
                vol.createFatEntry_on _ _ (show 2 ≤ next by omega) hnexthigh] at h
              have hsame : vol.fatOn (vol.setFat (vol.setFat (dev.disk.write (vol.clusterPos new)
                  (bytes.take vol.clusterBytes)) new next) next fat16ValueEndOfChain) x
                  = vol.fatOn dev.disk x := by
                rw [vol.setFat_of_ne _ _ hxnext, vol.setFat_of_ne _ _ hne, hfat₁ x hx]
              rw [← hsame] at hused ⊢
              refine ih (.last ⟨by omega, hnexthigh⟩ ?_) h hxnext hused
              rw [vol.setFat_self _ _ (by decide)]
      · by_cases hbytes : bytes = []
        · rw [fat16WriteLoop, if_pos hbytes] at h
          cases h
        · rw [writeLoop_fits hspc additional dev hlow hhigh hbytes (Nat.succ_pos fuel) hle] at h
          cases h

omit hspc hfat in
/-- The results of the update of the entry -/
theorem writeEntry_res {bpb : Fat16Header} {dev : Ata} {lookups n : Nat} {now : Stamp}
    {e : DirEntry} {r : WriteResult} (h : fat16WriteEntry bpb dev lookups now e n = some r) :
    r.res = BitVec.ofNat 32 n ∨ r.res = -eio := by
  rw [fat16WriteEntry] at h
  split at h
  · simp only at h
    split at h
    · cases h
    · split at h
      · cases h
      · split at h
        · rw [← Option.some.inj h]
          exact .inr rfl
        · rw [← Option.some.inj h]
          exact .inl rfl
  · rw [← Option.some.inj h]
    exact .inl rfl

section Beyond

variable {dev : Ata} {lookups n m : Nat} {now : Stamp} {e : DirEntry} {cs : List Nat} {buffer : Mem}
  (hchain : vol.FileChain dev.disk (entryCluster e) cs) (hlookups : 65536 ≤ lookups) (hn : 0 < n)
  (hm : 0 < m) (hfits : n * m < 2 ^ 32) (hmore : cs.length < vol.needed (n * m))
include hchain hlookups hn hm

omit hfat in
/-- The loop of a write, and what is done behind it -/
theorem fat16Write_loop : fat16Write vol.bpb dev lookups now e buffer n m
    = match fat16WriteLoop vol.bpb (requiredClusters vol.bpb n - cs.length)
        (bytesOf buffer n m).length dev (entryCluster e) 0 (bytesOf buffer n m) with
      | .error (.result res dev) => .ok ⟨res, e, dev⟩
      | .error stop => .error stop
      | .ok (dev₁, last) =>
          match givenBack vol.bpb dev₁ lookups last (requiredClusters vol.bpb n) cs.length with
          | none => .error .unfinished
          | some dev₂ =>
              match fat16WriteEntry vol.bpb dev₂ lookups now e (bytesOf buffer n m).length with
              | none => .error .unfinished
              | some r => .ok r := by
  have hdef : (List.range (u32 (n * m))).map buffer = bytesOf buffer n m := rfl
  have hcall : ¬ (n = 0 ∨ m = 0) := by omega
  rw [fat16Write, if_neg hcall]
  simp only [hdef, fat16WriteData, chainLength_chain hspc hchain hlookups]
  cases fat16WriteLoop vol.bpb (requiredClusters vol.bpb n - cs.length)
      (bytesOf buffer n m).length dev (entryCluster e) 0 (bytesOf buffer n m) with
  | error stop => cases stop <;> rfl
  | ok r => rfl

variable (now buffer)
include hfits hmore

/-- A file that may not grow, or cannot: the chain is filled, and there is an error. -/
theorem write_beyond_stuck
    (h : requiredClusters vol.bpb n ≤ cs.length ∨ vol.freeClusters dev.disk = []) :
    fat16Write vol.bpb dev lookups now e buffer n m
      = .ok ⟨-enospc, e, ⟨vol.putData dev.disk cs (bytesOf buffer n m), dev.behind⟩⟩ := by
  have hlen : (bytesOf buffer n m).length = n * m := length_bytesOf_of_lt hfits
  obtain ⟨later, hlater⟩ := hchain.head
  obtain ⟨fuel', rest, hbeyond⟩ := writeLoop_beyond hspc hfat dev (hlater ▸ hchain)
    (Nat.le_refl (bytesOf buffer n m).length) (by
      rw [hlen]
      rw [hlater, List.length_cons] at hmore
      exact hmore)
  rw [← hlater] at hbeyond
  rw [fat16Write_loop hspc hchain hlookups hn hm, hbeyond]
  simp only
  rcases h with hle | hnone
  · rw [if_pos (Nat.sub_eq_zero_of_le hle)]
  · rw [hnone]
    by_cases hzero : requiredClusters vol.bpb n - cs.length = 0
    · rw [if_pos hzero]
    · rw [if_neg hzero]

/-- A file that grows: the result is another one, or the last cluster of the chain has
    another one behind it. -/
theorem write_beyond_grows {new : Nat} {others : List Nat}
    (hgrows : cs.length < requiredClusters vol.bpb n)
    (hfree : vol.freeClusters dev.disk = new :: others) :
    writeOutcome (fat16Write vol.bpb dev lookups now e buffer n m)
      ≠ some (-enospc, vol.putData dev.disk cs (bytesOf buffer n m)) := by
  have hmax : fat16MaxClusters = 65525 := rfl
  have hmark : fat16ValueEndOfChain = 0xFFF8 := rfl
  have hlen : (bytesOf buffer n m).length = n * m := length_bytesOf_of_lt hfits
  have hbytes : bytesOf buffer n m ≠ [] := by
    intro hnil
    rw [hnil, List.length_nil] at hlen
    exact absurd hlen.symm (Nat.mul_pos hn hm).ne'
  have hsome : requiredClusters vol.bpb n - cs.length ≠ 0 := by omega
  obtain ⟨hnewlow, hnewhigh, hnewfree⟩ := vol.mem_freeClusters.mp (hfree ▸ List.mem_cons_self)
  obtain ⟨later, hlater⟩ := hchain.head
  subst hlater
  rw [List.length_cons] at hmore hgrows hsome
  -- the last cluster of the chain
  obtain ⟨last, hlast⟩ : ∃ c, c = (entryCluster e :: later).getLastD 0 := ⟨_, rfl⟩
  have hmem : last ∈ entryCluster e :: later := by
    rw [hlast, List.getLastD_cons]
    exact List.getLastD_mem_cons
  have hend : fat16ValueEndOfChain ≤ vol.fatOn dev.disk last := hlast ▸ hchain.ended_getLastD 0
  have hltlast := (hchain.bounds hmem).2
  have hne : last ≠ new := by
    rintro rfl
    exact hchain.not_free hmem hnewfree
  obtain ⟨fuel', rest, hbeyond⟩ := writeLoop_beyond hspc hfat dev hchain
    (Nat.le_refl (bytesOf buffer n m).length) (by rw [hlen]; exact hmore)
  have hgrown := hbeyond (requiredClusters vol.bpb n - (later.length + 1))
  simp only [if_neg hsome, hfree, ← hlast] at hgrown
  obtain ⟨hyes, hno⟩ := writeLoop_cases hspc hfat
    (requiredClusters vol.bpb n - (later.length + 1)) dev hchain hbytes
    (Nat.le_refl (bytesOf buffer n m).length)
  intro hsame
  rw [fat16Write_loop hspc hchain hlookups hn hm, List.length_cons] at hsame
  by_cases hroom : HasClusters vol dev.disk (requiredClusters vol.bpb n - (later.length + 1))
      later.length (bytesOf buffer n m).length
  · -- the result is that of the update of the entry
    obtain ⟨dev₁, last', hloop, -⟩ := hyes hroom
    rw [hloop] at hsame
    simp only at hsame
    have hfreelen := vol.length_freeClusters_lt dev.disk
    have hchainlen := hchain.length_lt
    rw [List.length_cons] at hchainlen
    have hsmall := vol.add_clusterBytes_lt hspc (n := (bytesOf buffer n m).length) (by
      rw [HasClusters] at hroom
      omega)
    have hcluster := vol.secPerClus_pos
    rw [hlen, clusterBytes] at hsmall
    split at hsame
    · cases hsame
    · split at hsame
      · cases hsame
      · rename_i r hentry
        have hres : r.res = -enospc := (Prod.mk.inj (Option.some.inj hsame)).1
        rcases writeEntry_res hentry with heq | heq
        · rw [heq, hlen] at hres
          have hnat := congrArg BitVec.toNat hres
          have hcode : (-enospc).toNat = 4294967268 := by decide
          rw [BitVec.toNat_ofNat, Nat.mod_eq_of_lt hfits, hcode] at hnat
          omega
        · rw [heq] at hres
          exact absurd hres (by decide)
  · obtain ⟨dev₁, hloop⟩ := hno hroom
    rw [hloop] at hsame hgrown
    have hdisk : dev₁.disk = vol.putData dev.disk (entryCluster e :: later) (bytesOf buffer n m) :=
      (Prod.mk.inj (Option.some.inj hsame)).2
    have hatlast : ∀ disk : Mem, vol.fatOn (vol.setFat (vol.setFat disk last new) new
        fat16ValueEndOfChain) last = new := by
      intro disk
      rw [vol.setFat_of_ne _ _ hne]
      exact vol.setFat_self _ _ (by omega)
    have hkept := fatOn_of_writeLoop_error hspc hfat
      (.last ⟨by omega, hnewhigh⟩ (by rw [vol.setFat_self _ _ (by decide)])) hgrown.symm
      (show last < 65536 by omega) hne (by
        rw [hatlast]
        have hzero : fat16ValueFree = 0 := rfl
        omega)
    rw [hatlast, hdisk, vol.fatOn_putData hfat dev.disk _ _ (by omega)] at hkept
    omega

end Beyond

end Sound

/-- The blocks can be written as one when both counts allow the same of the file, also on
    volumes of any other size when they come to the same number of clusters, or to more than
    the file has; when the data needs more clusters than the file has, then only. -/
theorem interchangeable_iff (vol : Volume) (dev : Ata) (lookups : Nat) (now : Stamp) (e : DirEntry)
    (buffer : Mem) (n m : Nat) (hn : 0 < n) (hm : 0 < m) (hfits : n * m < 2 ^ 32) :
    ((∀ k, fat16GetClusterChainLength vol.bpb dev lookups (maxClusterSizeBytes vol.bpb)
        (entryCluster e) = some (.blocks k) →
      requiredClusters vol.bpb n = requiredClusters vol.bpb (n * m) ∨
        (k < requiredClusters vol.bpb n ∧ k < requiredClusters vol.bpb (n * m))) →
      vol.Interchangeable dev lookups now e buffer n m) ∧
    (∀ cs, vol.bpb.secPerClus ≤ 64 → 256 ≤ vol.bpb.fatsz16 → 65536 ≤ lookups →
      vol.FileChain dev.disk (entryCluster e) cs →
      (vol.SameClusters dev cs n m → vol.Interchangeable dev lookups now e buffer n m) ∧
      (cs.length < vol.needed (n * m) → vol.Interchangeable dev lookups now e buffer n m →
        vol.SameClusters dev cs n m)) := by
  have hpos := Nat.mul_pos hn hm
  have hfits' : n * m * 1 < 2 ^ 32 := by
    rw [Nat.mul_one]
    exact hfits
  refine ⟨interchangeable_of_required hn hm, fun cs hspc hfat hlookups hchain => ⟨fun h => ?_,
    fun hmore hsame => ⟨fun _ => ?_, fun hshort => absurd hmore (Nat.not_lt.mpr hshort)⟩⟩⟩
  · rcases Nat.lt_or_ge cs.length (vol.needed (n * m)) with hmore | hshort
    · have hone := bytesOf_one buffer n m
      have hmore' : cs.length < vol.needed (n * m * 1) := by
        rw [Nat.mul_one]
        exact hmore
      have hstuck := write_beyond_stuck hspc hfat now buffer hchain hlookups
        hn hm hfits hmore
      have hstuck' := write_beyond_stuck hspc hfat now buffer (m := 1) hchain
        hlookups hpos Nat.one_pos hfits' hmore'
      rw [hone] at hstuck'
      -- both are stuck at the end of the chain, or neither is, or no cluster is free
      rcases h.growth hmore with hiff | hnone
      · by_cases hle : requiredClusters vol.bpb n ≤ cs.length
        · rw [Interchangeable, hstuck (.inl hle), hstuck' (.inl (hiff.mp hle))]
        · apply interchangeable_of_required hn hm
          intro k hk
          rw [chainLength_chain hspc hchain hlookups] at hk
          have hlen := ChainLength.blocks.inj (Option.some.inj hk)
          have hle' := fun h => hle (hiff.mpr h)
          omega
      · rw [Interchangeable, hstuck (.inr hnone), hstuck' (.inr hnone)]
    · -- inside the chain nothing is allocated
      exact interchangeable_of_fits hspc hfat hchain hlookups hn hm hfits hshort h
  · -- a call that grows the file and one that does not leave different results
    by_contra hnot
    rw [not_or] at hnot
    obtain ⟨hdiffer, hsome⟩ := hnot
    obtain ⟨new, others, hfree⟩ := List.exists_cons_of_ne_nil hsome
    have hmore' : cs.length < vol.needed (n * m * 1) := by
      rw [Nat.mul_one]
      exact hmore
    by_cases hle : requiredClusters vol.bpb n ≤ cs.length
    · -- the file may grow for one block only
      have hgt : cs.length < requiredClusters vol.bpb (n * m) :=
        Nat.not_le.mp fun h => hdiffer (iff_of_true hle h)
      have hgrows := write_beyond_grows hspc hfat now buffer (m := 1) hchain
        hlookups hpos Nat.one_pos hfits' hmore' hgt hfree
      rw [bytesOf_one] at hgrows
      apply hgrows
      rw [← hsame, write_beyond_stuck hspc hfat now buffer hchain hlookups hn hm hfits hmore (.inl hle)]
      rfl
    · -- the number of clusters of all bytes has wrapped
      have hle' : requiredClusters vol.bpb (n * m) ≤ cs.length := by
        by_contra hgt
        exact hdiffer (iff_of_false hle hgt)
      apply write_beyond_grows hspc hfat now buffer hchain hlookups hn hm hfits hmore
        (Nat.not_le.mp hle) hfree
      have hstuck := write_beyond_stuck hspc hfat now buffer (m := 1) hchain
        hlookups hpos Nat.one_pos hfits' hmore' (.inl hle')
      rw [bytesOf_one] at hstuck
      rw [hsame, hstuck]
      rfl

end Volume

/-! ## Two blocks of one cluster -/

theorem twin_chain : twinVolume.FileChain twinVolume.dev.disk
    (entryCluster (diskEntry twinVolume.dev.disk 0x140400)) [4] :=
  .last (by decide +kernel) (by decide +kernel)

/-- Two bytes, for the file of one cluster in `A` -/
theorem interchangeable_twin : twinVolume.Interchangeable twinVolume.dev 65536 ⟨0, 0⟩
    (diskEntry twinVolume.dev.disk 0x140400) (fun _ => 120) 1 2 := by
  have hneeded : twinVolume.needed (1 * 2) = 1 := by decide +kernel
  refine ((Volume.interchangeable_iff twinVolume twinVolume.dev 65536 ⟨0, 0⟩
    (diskEntry twinVolume.dev.disk 0x140400) (fun _ => 120) 1 2 (by decide) (by decide)
    (by decide)).2 [4] (by decide +kernel) (by decide +kernel) (Nat.le_refl _) twin_chain).1 ⟨?_, ?_⟩
  · intro hmore
    rw [hneeded] at hmore
    exact absurd hmore (Nat.lt_irrefl 1)
  · exact fun _ => .inl (by decide +kernel)

/-- Two blocks of one cluster are too much for that file, and one of two clusters is not. -/
theorem exists_blocks_differ : ¬ ∀ (vol : Volume) (dev : Ata) (lookups : Nat) (now : Stamp)
    (e : DirEntry) (buffer : Mem) (n m : Nat) (cs : List Nat), 65536 ≤ lookups →
    vol.FileChain dev.disk (entryCluster e) cs → 0 < n → 0 < m → n * m < 2 ^ 32 →
      vol.Interchangeable dev lookups now e buffer n m := by
  intro hall
  have hsame := hall twinVolume twinVolume.dev 65536 ⟨0, 0⟩
    (diskEntry twinVolume.dev.disk 0x140400) (fun _ => 120) 512 2 [4] (Nat.le_refl _) twin_chain
    (by decide) (by decide) (by decide)
  have hspc : twinVolume.bpb.secPerClus ≤ 64 := by decide +kernel
  have hfat : 256 ≤ twinVolume.bpb.fatsz16 := by decide +kernel
  have hneeded : twinVolume.needed (512 * 2) = 2 := by decide +kernel
  have hone : requiredClusters twinVolume.bpb 512 = 1 := by decide +kernel
  have htwo : requiredClusters twinVolume.bpb (512 * 2) = 2 := by decide +kernel
  have hmore : [4].length < twinVolume.needed (512 * 2) := by
    rw [hneeded]
    decide
  have hsix : 6 ∈ twinVolume.freeClusters twinVolume.dev.disk :=
    twinVolume.mem_freeClusters.mpr ⟨by decide, by decide, by decide +kernel⟩
  obtain ⟨new, others, hfree⟩ := List.exists_cons_of_ne_nil (List.ne_nil_of_mem hsix)
  have hstuck := Volume.write_beyond_stuck hspc hfat ⟨0, 0⟩ (fun _ => 120)
    (n := 512) (m := 2) twin_chain (Nat.le_refl 65536) (by decide) (by decide) (by decide) hmore
    (.inl (by rw [hone]; decide))
  have hgrows := Volume.write_beyond_grows hspc hfat ⟨0, 0⟩ (fun _ => 120)
    (n := 512 * 2) (m := 1) twin_chain (Nat.le_refl 65536) (by decide) (by decide) (by decide) hmore
    (by rw [htwo]; decide) hfree
  rw [Volume.Interchangeable, hstuck] at hsame
  exact hgrows hsame.symm

end Icarius
