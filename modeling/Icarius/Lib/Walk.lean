/-
  Icarius.Lib.Walk

  Walks along a table that gives every cell the next one, with a budget of look-ups.
  A walk asks each cell it comes to for an answer and looks up the next cell when
  there is none.

  A walk that ends at all ends before it comes to a cell a second time, so as many
  look-ups as there are cells without an answer are enough.
-/

import Mathlib.Data.Finset.Card
import Mathlib.Data.Nat.Find
import Mathlib.Logic.Function.Iterate

namespace Icarius.Lib

variable {α β : Type*}

/-- The answer of the first cell from `c` on that has one, after at most `budget`
    look-ups. -/
def walk (next : α → α) (answer : α → Option β) : Nat → α → Option β
  | 0, c => answer c
  | budget + 1, c => (answer c).or (walk next answer budget (next c))

variable {next : α → α} {answer : α → Option β} {c : α}

/-- A walk ends within its budget when a cell it comes to has an answer. -/
theorem walk_isSome_iff {budget : Nat} :
    (walk next answer budget c).isSome ↔ ∃ i ≤ budget, (answer (next^[i] c)).isSome := by
  induction budget generalizing c with
  | zero =>
      constructor
      · intro h
        exact ⟨0, Nat.le_refl 0, h⟩
      · rintro ⟨i, hi, h⟩
        obtain rfl := Nat.le_zero.mp hi
        exact h
  | succ budget ih =>
      rw [walk, Option.isSome_or, Bool.or_eq_true, ih]
      constructor
      · rintro (h | ⟨i, hi, h⟩)
        · exact ⟨0, Nat.zero_le _, h⟩
        · exact ⟨i + 1, Nat.succ_le_succ hi, h⟩
      · rintro ⟨i, hi, h⟩
        cases i with
        | zero => exact .inl h
        | succ i => exact .inr ⟨i, Nat.le_of_succ_le_succ hi, h⟩

/-- The cells in front of the first one with a property are all different. -/
theorem iterate_injOn_of_first {P : α → Prop} {k : Nat} (hk : P (next^[k] c))
    (hfirst : ∀ j < k, ¬ P (next^[j] c)) {i j : Nat} (hi : i < k) (hj : j < k)
    (heq : next^[i] c = next^[j] c) : i = j := by
  -- a repeated cell would have the property as many steps before `k`
  have hlt : ∀ {i j : Nat}, i < j → j < k → next^[i] c ≠ next^[j] c := by
    intro i j hij hj heq
    have hback : next^[k - j + i] c = next^[k] c := by
      rw [Function.iterate_add_apply, heq, ← Function.iterate_add_apply]
      congr 1
      omega
    exact hfirst (k - j + i) (by omega) (hback ▸ hk)
  rcases Nat.lt_trichotomy i j with hij | hij | hij
  · exact absurd heq (hlt hij hj)
  · exact hij
  · exact absurd heq.symm (hlt hij hi)

/-- Where the cells without an answer are among finitely many, that many look-ups are
    enough for every walk that ends. -/
theorem walk_isSome_of_card_le (cells : Finset α) {budget : Nat} (hcard : cells.card ≤ budget)
    (hcells : ∀ i, answer (next^[i] c) = none → next^[i] c ∈ cells) :
    (walk next answer budget c).isSome ↔ ∃ i, (answer (next^[i] c)).isSome := by
  rw [walk_isSome_iff]
  constructor
  · rintro ⟨i, -, h⟩
    exact ⟨i, h⟩
  · intro hsome
    classical
    obtain ⟨k, hk, hfirst⟩ : ∃ k, (answer (next^[k] c)).isSome ∧
        ∀ j < k, ¬ (answer (next^[j] c)).isSome :=
      ⟨Nat.find hsome, Nat.find_spec hsome, fun j hj => Nat.find_min hsome hj⟩
    refine ⟨k, Nat.le_trans ?_ hcard, hk⟩
    have hmaps : ∀ j ∈ Finset.range k, next^[j] c ∈ cells := by
      intro j hj
      apply hcells j
      have hnone := hfirst j (Finset.mem_range.mp hj)
      rwa [Option.not_isSome_iff_eq_none] at hnone
    have hinj : Set.InjOn (fun j => next^[j] c) (Finset.range k : Set Nat) := by
      intro i hi j hj heq
      have hi' : i < k := Finset.mem_range.mp (Finset.mem_coe.mp hi)
      have hj' : j < k := Finset.mem_range.mp (Finset.mem_coe.mp hj)
      exact iterate_injOn_of_first (P := fun x => (answer x).isSome) hk hfirst hi' hj' heq
    have hle := Finset.card_le_card_of_injOn _ hmaps hinj
    rwa [Finset.card_range] at hle

section Closed

variable {P : α → Prop}

/-- The answer of a walk is that of a cell it comes to. -/
theorem walk_mem {budget : Nat} {b : β} (hstep : ∀ x, P x → answer x = none → P (next x))
    (hc : P c) (h : walk next answer budget c = some b) : ∃ x, P x ∧ answer x = some b := by
  induction budget generalizing c with
  | zero => exact ⟨c, hc, h⟩
  | succ budget ih =>
      rw [walk] at h
      cases hanswer : answer c with
      | some a =>
          rw [hanswer, Option.some_or] at h
          exact ⟨c, hc, hanswer.trans h⟩
      | none =>
          rw [hanswer, Option.none_or] at h
          exact ih (hstep c hc hanswer) h

/-- A walk depends on the cells it may come to only. -/
theorem walk_congr {next' : α → α} {answer' : α → Option β} {budget : Nat}
    (hstep : ∀ x, P x → answer x = none → P (next x))
    (hanswer : ∀ x, P x → answer' x = answer x)
    (hnext : ∀ x, P x → answer x = none → next' x = next x) (hc : P c) :
    walk next' answer' budget c = walk next answer budget c := by
  induction budget generalizing c with
  | zero => exact hanswer c hc
  | succ budget ih =>
      rw [walk, walk, hanswer c hc]
      cases hnone : answer c with
      | some a => rw [Option.some_or, Option.some_or]
      | none =>
          rw [Option.none_or, Option.none_or, hnext c hc hnone]
          exact ih (hstep c hc hnone)

end Closed

end Icarius.Lib
