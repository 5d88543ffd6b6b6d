/-
  Icarius.Fs.Fat16.Table

  The functions of the driver that change the FAT: the search for a free cluster and the
  write of an entry.  The driver writes the first FAT and leaves the second one alone.
-/

import Icarius.Fs.Fat16.Layout

namespace Icarius

open Icarius.Lib

/-! ## The driver -/

/-- `fat16_get_next_free_cluster`: 0 when there is none. -/
def fat16GetNextFreeCluster (bpb : Fat16Header) (dev : Ata) : Nat :=
  ((List.range' 3 (fat16MaxClusters - 3)).find? fun cluster =>
    fat16GetNextCluster bpb dev cluster == fat16ValueFree).getD 0

/-- `fat16_create_fat_entry` -/
def fat16CreateFatEntry (bpb : Fat16Header) (dev : Ata) (cluster value : Nat) : Bool × Ata :=
  if cluster < 2 ∨ cluster ≥ fat16MaxClusters then (false, dev)
  else
    let fatOffset := fat16GetFatTableAbsolute bpb partitionOffset
    let fatEntryOffset := u32 (fatOffset + cluster * 2)
    (true, dev.writeAt fatEntryOffset [UInt8.ofNat value, UInt8.ofNat (value / 256)])

/-! ## The FAT after a write -/

namespace Volume

variable (vol : Volume)

/-- A disk with the number of the next cluster put in the entry of cluster `c` -/
def setFat (disk : Mem) (c value : Nat) : Mem :=
  disk.write (vol.fatPos c) [UInt8.ofNat value, UInt8.ofNat (value / 256)]

theorem createFatEntry_on (dev : Ata) {c : Nat} (value : Nat) (hlow : 2 ≤ c)
    (hhigh : c < fat16MaxClusters) :
    (fat16CreateFatEntry vol.bpb dev c value).2 = ⟨vol.setFat dev.disk c value, dev.behind⟩ := by
  have hmax : fat16MaxClusters = 65525 := rfl
  have hrsvd := vol.rsvdSec_lt
  have hout : ¬ (c < 2 ∨ c ≥ fat16MaxClusters) := by omega
  have hpos : u32 (fat16GetFatTableAbsolute vol.bpb partitionOffset + c * 2) = vol.fatPos c := by
    simp only [fat16GetFatTableAbsolute, u32, partitionOffset, fatPos, vol.bytsPerSec]
    omega
  have hin : vol.fatPos c % 512 + 2 ≤ 512 ∧ vol.fatPos c + 2 ≤ 2 ^ 32 := by
    simp only [partitionOffset, fatPos]
    omega
  rw [fat16CreateFatEntry, if_neg hout]
  simp only [hpos]
  exact writeAt_disk dev hin.2 (Or.inr hin.1)

theorem setFat_self (disk : Mem) (c : Nat) {value : Nat} (h : value < 65536) :
    vol.fatOn (vol.setFat disk c value) c = value := by
  have hbytes : ∀ i < 2, vol.setFat disk c value (vol.fatPos c + i)
      = UInt8.ofNat (value / 256 ^ i) := by
    intro i hi
    have hcases : i = 0 ∨ i = 1 := by omega
    rcases hcases with rfl | rfl
    · rw [setFat, Mem.write_add Nat.zero_lt_two, Nat.pow_zero, Nat.div_one]
      rfl
    · rw [setFat, Mem.write_add Nat.one_lt_two, Nat.pow_one]
      rfl
  rw [fatOn, Mem.load_of_bytes hbytes]
  exact Nat.mod_eq_of_lt h

theorem setFat_of_ne (disk : Mem) {c c' : Nat} (value : Nat) (h : c' ≠ c) :
    vol.fatOn (vol.setFat disk c value) c' = vol.fatOn disk c' := by
  apply Mem.load_congr
  apply Mem.agree_write
  simp only [fatPos, List.length_cons, List.length_nil]
  omega

/-- Only the two bytes of the entry change. -/
theorem setFat_apply (disk : Mem) {c x : Nat} (value : Nat)
    (h : x < vol.fatPos c ∨ vol.fatPos c + 2 ≤ x) : vol.setFat disk c value x = disk x := by
  rcases h with h | h
  · exact Mem.write_of_lt h
  · exact Mem.write_of_ge h

/-! ## Free clusters -/

/-- The clusters the search for a free one looks at, as far as they are free -/
def freeClusters (disk : Mem) : List Nat :=
  (List.range' 3 (fat16MaxClusters - 3)).filter fun c => vol.fatOn disk c == fat16ValueFree

theorem mem_freeClusters {disk : Mem} {c : Nat} :
    c ∈ vol.freeClusters disk ↔ 3 ≤ c ∧ c < fat16MaxClusters ∧ vol.fatOn disk c = 0 := by
  have hmax : fat16MaxClusters = 65525 := rfl
  rw [freeClusters, List.mem_filter, List.mem_range'_1, beq_iff_eq]
  constructor
  · rintro ⟨⟨hlow, hhigh⟩, hfree⟩
    exact ⟨hlow, by omega, hfree⟩
  · rintro ⟨hlow, hhigh, hfree⟩
    exact ⟨⟨hlow, by omega⟩, hfree⟩

/-- The search returns the first free cluster. -/
theorem nextFreeCluster_on (dev : Ata) :
    fat16GetNextFreeCluster vol.bpb dev = (vol.freeClusters dev.disk).head?.getD 0 := by
  have hmax : fat16MaxClusters = 65525 := rfl
  have hsame : ((List.range' 3 (fat16MaxClusters - 3)).filter fun c =>
      fat16GetNextCluster vol.bpb dev c == fat16ValueFree) = vol.freeClusters dev.disk := by
    apply List.filter_congr
    intro c hc
    have hlt := (List.mem_range'_1.mp hc).2
    rw [vol.nextCluster_on dev (by omega)]
  rw [fat16GetNextFreeCluster, ← List.head?_filter, hsame]

end Volume

/-- A filter that leaves out the first element it had -/
theorem filter_eq_tail {α : Type} {l t : List α} {a : α} {p q : α → Bool} (hnodup : l.Nodup)
    (h : l.filter p = a :: t) (hq : ∀ x ∈ l, x ≠ a → q x = p x) (ha : q a = false) :
    l.filter q = t := by
  induction l with
  | nil => cases h
  | cons x l ih =>
      obtain ⟨hnot, hrest⟩ := List.nodup_cons.mp hnodup
      by_cases hx : p x = true
      · rw [List.filter_cons_of_pos hx] at h
        obtain ⟨rfl, rfl⟩ := List.cons.inj h
        rw [List.filter_cons_of_neg (by rw [ha]; exact Bool.false_ne_true)]
        apply List.filter_congr
        intro y hy
        apply hq y (List.mem_cons_of_mem x hy)
        rintro rfl
        exact hnot hy
      · rw [List.filter_cons_of_neg hx] at h
        have hxa : x ≠ a := by
          rintro rfl
          apply hx
          have hmem : x ∈ l.filter p := h ▸ List.mem_cons_self
          exact (List.mem_filter.mp hmem).2
        rw [List.filter_cons_of_neg (by rw [hq x List.mem_cons_self hxa]; exact hx)]
        exact ih hrest h fun y hy => hq y (List.mem_cons_of_mem x hy)

namespace Volume

variable (vol : Volume)

/-- A cluster that is taken is not free any more, and the others are as they were. -/
theorem freeClusters_taken {disk disk' : Mem} {new : Nat} {rest : List Nat}
    (hfree : vol.freeClusters disk = new :: rest) (htaken : vol.fatOn disk' new ≠ 0)
    (hothers : ∀ c < 65536, c ≠ new → (vol.fatOn disk' c = 0 ↔ vol.fatOn disk c = 0)) :
    vol.freeClusters disk' = rest := by
  have hmax : fat16MaxClusters = 65525 := rfl
  refine filter_eq_tail List.nodup_range' hfree ?_ ?_
  · intro c hmem hc
    have hlt := (List.mem_range'_1.mp hmem).2
    rw [Bool.eq_iff_iff, beq_iff_eq, beq_iff_eq]
    exact hothers c (by omega) hc
  · exact beq_eq_false_iff_ne.mpr htaken

end Volume

end Icarius
