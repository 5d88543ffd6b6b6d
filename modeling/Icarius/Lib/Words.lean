/-
  Icarius.Lib.Words

  Words: the runs of positions on which a predicate holds, taken as long as they can be.
  A scan that skips up to the next position of the predicate, and goes from there up to the
  next one that is none, comes to the words one after the other (`WordsFrom.cons`).
-/

import Mathlib.Data.List.Basic
import Mathlib.Data.Nat.Find

namespace Icarius.Lib

/-- From `i` on there are `k` positions of `P`, with no further one at either end. -/
structure Word (P : Nat → Prop) (i k : Nat) : Prop where
  pos : 0 < k
  all : ∀ j, i ≤ j → j < i + k → P j
  before : ∀ j, j + 1 = i → ¬ P j
  after : ¬ P (i + k)

/-- No word goes across the beginning of position `c`. -/
def Boundary (P : Nat → Prop) (c : Nat) : Prop := ∀ j, j + 1 = c → P j → ¬ P c

/-- The words from `c` on, in their order -/
structure WordsFrom (P : Nat → Prop) (c : Nat) (words : List (Nat × Nat)) : Prop where
  mem_iff : ∀ i k, (i, k) ∈ words ↔ Word P i k ∧ c ≤ i
  sorted : words.Pairwise fun u v => u.1 + u.2 < v.1

variable {P : Nat → Prop} {c i k : Nat}

theorem exists_first (h : ∃ j, c ≤ j ∧ P j) : ∃ i, c ≤ i ∧ P i ∧ ∀ j, c ≤ j → j < i → ¬ P j := by
  classical
  exact ⟨Nat.find h, (Nat.find_spec h).1, (Nat.find_spec h).2,
    fun j hle hlt hP => Nat.find_min h hlt ⟨hle, hP⟩⟩

theorem boundary_zero : Boundary P 0 := fun _ hj => absurd hj (Nat.succ_ne_zero _)

theorem boundary_succ (h : ¬ P c) : Boundary P (c + 1) := by
  intro j hj hP
  obtain rfl : j = c := by omega
  exact absurd hP h

theorem Word.first (h : Word P i k) : P i :=
  h.all i (Nat.le_refl i) (Nat.lt_add_of_pos_right h.pos)

/-- The first position of the predicate begins a word. -/
theorem Word.of_first (hc : Boundary P c) (hle : c ≤ i) (hskip : ∀ j, c ≤ j → j < i → ¬ P j)
    (hpos : 0 < k) (hall : ∀ j, i ≤ j → j < i + k → P j) (hafter : ¬ P (i + k)) :
    Word P i k := by
  refine ⟨hpos, hall, fun j hj hP => ?_, hafter⟩
  rcases Nat.lt_or_ge j c with hlt | hge
  · -- the word begins where the scan does
    obtain rfl : c = i := by omega
    exact hc j hj hP (hall c (Nat.le_refl c) (by omega))
  · exact hskip j hge (by omega) hP

/-- A word is the only one that begins in it or right behind it. -/
theorem Word.eq_or_lt (h : Word P i k) {i' k' : Nat} (h' : Word P i' k') (hle : i ≤ i') :
    (i' = i ∧ k' = k) ∨ i + k < i' := by
  rcases Nat.lt_trichotomy i' (i + k) with hlt | heq | hgt
  · -- it begins where `h` does, and ends where `h` does
    have hi : i' = i := by
      rcases Nat.eq_or_lt_of_le hle with heq | hlt'
      · exact heq.symm
      · exact absurd (h.all (i' - 1) (by omega) (by omega)) (h'.before (i' - 1) (by omega))
    subst hi
    rcases Nat.lt_trichotomy k' k with hk | hk | hk
    · exact absurd (h.all _ (by omega) (by omega)) h'.after
    · exact .inl ⟨rfl, hk⟩
    · exact absurd (h'.all _ (by omega) (by omega)) h.after
  · exact absurd (heq ▸ h'.first) h.after
  · exact .inr hgt

theorem WordsFrom.nil (h : ∀ j, c ≤ j → ¬ P j) : WordsFrom P c [] := by
  refine ⟨fun i k => ⟨fun hmem => absurd hmem List.not_mem_nil, fun ⟨hword, hle⟩ => ?_⟩, .nil⟩
  exact absurd hword.first (h i hle)

/-- The first word from `c` on, and then those from `c'` on, where the positions of the
    predicate behind the word are those from `c'` on -/
theorem WordsFrom.cons {c' : Nat} {words : List (Nat × Nat)} (hword : Word P i k) (hle : c ≤ i)
    (hskip : ∀ j, c ≤ j → j < i → ¬ P j) (hc' : ∀ j, P j → (c' ≤ j ↔ i + k < j))
    (hwords : WordsFrom P c' words) : WordsFrom P c ((i, k) :: words) := by
  refine ⟨fun i' k' => ⟨fun hmem => ?_, fun ⟨hword', hle'⟩ => ?_⟩,
    List.pairwise_cons.mpr ⟨fun w hmem => ?_, hwords.sorted⟩⟩
  · -- a word of the list begins behind `c`, and a word from `c` on is in the list
    rcases List.mem_cons.mp hmem with heq | hmem
    · cases heq
      exact ⟨hword, hle⟩
    · obtain ⟨hword', hle'⟩ := (hwords.mem_iff _ _).mp hmem
      have hlt := (hc' i' hword'.first).mp hle'
      exact ⟨hword', by omega⟩
  · have hge : i ≤ i' := Nat.le_of_not_lt fun hlt => hskip i' hle' hlt hword'.first
    rcases hword.eq_or_lt hword' hge with ⟨rfl, rfl⟩ | hlt
    · exact List.mem_cons_self
    · have hle'' := (hc' i' hword'.first).mpr hlt
      exact List.mem_cons_of_mem _ ((hwords.mem_iff _ _).mpr ⟨hword', hle''⟩)
  · obtain ⟨hword', hle'⟩ := (hwords.mem_iff w.1 w.2).mp hmem
    exact (hc' w.1 hword'.first).mp hle'

end Icarius.Lib
