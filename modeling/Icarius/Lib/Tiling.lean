/-
  Icarius.Lib.Tiling

  Pieces of an address range that lie one behind the other and fill it, seen through
  the two functions that read where a piece starts and how long it is.  Allocators, page
  maps and record files keep such lists; what they need of one is that its pieces are
  within the range, apart from each other, and known by their positions.

  Splitting a piece and joining two neighbours are `tiles_append` and `tiles_cons`.
-/

import Mathlib.Data.List.Basic

namespace Icarius.Lib

universe u

variable {α : Type u} {pos len : α → Nat} {lo hi : Nat} {a b : α} {l l₁ l₂ : List α}

/-- The pieces `l` fill the range from `lo` to `hi`. -/
def Tiles (pos len : α → Nat) : Nat → List α → Nat → Prop
  | lo, [], hi => lo = hi
  | lo, a :: l, hi => pos a = lo ∧ Tiles pos len (lo + len a) l hi

@[simp] theorem tiles_nil : Tiles pos len lo [] hi ↔ lo = hi := Iff.rfl

theorem tiles_cons :
    Tiles pos len lo (a :: l) hi ↔ pos a = lo ∧ Tiles pos len (lo + len a) l hi :=
  Iff.rfl

/-- Two tilings with a seam between them are one. -/
theorem tiles_append :
    Tiles pos len lo (l₁ ++ l₂) hi ↔
      ∃ mid, Tiles pos len lo l₁ mid ∧ Tiles pos len mid l₂ hi := by
  induction l₁ generalizing lo with
  | nil => simp
  | cons a l₁ ih => simp only [List.cons_append, tiles_cons, ih, exists_and_left, and_assoc]

namespace Tiles

theorem le (h : Tiles pos len lo l hi) : lo ≤ hi := by
  induction l generalizing lo with
  | nil => exact Nat.le_of_eq h
  | cons a l ih => exact Nat.le_trans (Nat.le_add_right _ _) (ih h.2)

/-- Every piece is within the range. -/
theorem bounds (h : Tiles pos len lo l hi) (ha : a ∈ l) : lo ≤ pos a ∧ pos a + len a ≤ hi := by
  induction l generalizing lo with
  | nil => exact absurd ha List.not_mem_nil
  | cons c l ih =>
      obtain ⟨hpos, hrest⟩ := h
      have hle := le hrest
      rcases List.mem_cons.mp ha with rfl | ha
      · omega
      · have hin := ih hrest ha
        omega

/-- Two pieces are the same or do not overlap. -/
theorem apart (h : Tiles pos len lo l hi) (ha : a ∈ l) (hb : b ∈ l) :
    a = b ∨ pos a + len a ≤ pos b ∨ pos b + len b ≤ pos a := by
  induction l generalizing lo with
  | nil => exact absurd ha List.not_mem_nil
  | cons c l ih =>
      obtain ⟨hpos, hrest⟩ := h
      rcases List.mem_cons.mp ha with rfl | ha' <;> rcases List.mem_cons.mp hb with rfl | hb'
      · exact .inl rfl
      · have hin := bounds hrest hb'
        omega
      · have hin := bounds hrest ha'
        omega
      · exact ih hrest ha' hb'

/-- As many pieces fit as the range has room for. -/
theorem length_le {k : Nat} (h : Tiles pos len lo l hi) (hlen : ∀ a, k ≤ len a) :
    lo + k * l.length ≤ hi := by
  induction l generalizing lo with
  | nil => exact Nat.le_of_eq h
  | cons a l ih =>
      have hrest := ih h.2
      have hla := hlen a
      rw [List.length_cons, Nat.mul_succ]
      omega

/-- Pieces of a common unit start at multiples of it. -/
theorem dvd_pos {k : Nat} (h : Tiles pos len lo l hi) (hlo : k ∣ lo) (hlen : ∀ a ∈ l, k ∣ len a)
    (ha : a ∈ l) : k ∣ pos a := by
  induction l generalizing lo with
  | nil => exact absurd ha List.not_mem_nil
  | cons c l ih =>
      obtain ⟨hpos, hrest⟩ := h
      rcases List.mem_cons.mp ha with rfl | ha'
      · rw [hpos]
        exact hlo
      · exact ih hrest (Nat.dvd_add hlo (hlen c List.mem_cons_self))
          (fun d hd => hlen d (List.mem_cons_of_mem c hd)) ha'

/-- A piece is known by its position. -/
theorem eq_of_pos (h : Tiles pos len lo l hi) (hlen : ∀ a, 0 < len a) (ha : a ∈ l) (hb : b ∈ l)
    (hpos : pos a = pos b) : a = b := by
  have hla := hlen a
  have hlb := hlen b
  rcases h.apart ha hb with heq | hap | hap
  · exact heq
  · omega
  · omega

/-- The positions are distinct. -/
theorem nodup_map (h : Tiles pos len lo l hi) (hlen : ∀ a, 0 < len a) : (l.map pos).Nodup := by
  induction l generalizing lo with
  | nil => exact List.nodup_nil
  | cons c l ih =>
      obtain ⟨hpos, hrest⟩ := h
      rw [List.map_cons, List.nodup_cons]
      refine ⟨fun hmem => ?_, ih hrest⟩
      obtain ⟨b, hb, heq⟩ := List.mem_map.mp hmem
      have hin := bounds hrest hb
      have hlc := hlen c
      omega

end Tiles

end Icarius.Lib
