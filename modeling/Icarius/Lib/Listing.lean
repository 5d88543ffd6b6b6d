/-
  Icarius.Lib.Listing

  Listing by offsets: a reader is called with the offsets 0, 1, 2, … until it answers
  that there is nothing left.  Each call may look ahead: from the slot at its offset on,
  the reader takes the first slot it likes, unless it halts on the way (`nextTaken`).

  Since the caller does not learn how far the reader looked, a slot taken from behind its
  offset is taken again by the next call.  A listing without repetition is therefore the
  slots 0, …, k - 1, where the call at offset k finds nothing (`listing_iff`).
-/

import Mathlib.Data.List.Nodup
import Mathlib.Data.List.Range

namespace Icarius.Lib

variable {α : Type*}

/-- `l` are the answers to the calls with offset `d`, `d + 1`, …, up to the call that
    finds nothing. -/
inductive Listing (answers : Nat → Option α → Prop) : Nat → List α → Prop
  | done {d : Nat} (h : answers d none) : Listing answers d []
  | more {d : Nat} {a : α} {l : List α} (h : answers d (some a))
      (hrest : Listing answers (d + 1) l) : Listing answers d (a :: l)

/-- What a reader does at a slot. -/
inductive Look where
  | take
  | skip
  | halt
  deriving DecidableEq

/-- The slot taken from slot `d` on, when there are `k` slots from there on. -/
def nextTaken (look : Nat → Look) : Nat → Nat → Option Nat
  | 0, _ => none
  | k + 1, d =>
      match look d with
      | .take => some d
      | .skip => nextTaken look k (d + 1)
      | .halt => none

section Next

variable {look : Nat → Look}

theorem nextTaken_take {k d : Nat} (h : look d = .take) : nextTaken look (k + 1) d = some d := by
  simp only [nextTaken, h]

theorem nextTaken_skip {k d : Nat} (h : look d = .skip) :
    nextTaken look (k + 1) d = nextTaken look k (d + 1) := by
  simp only [nextTaken, h]

theorem le_of_nextTaken {k d j : Nat} (h : nextTaken look k d = some j) : d ≤ j := by
  induction k generalizing d with
  | zero => cases h
  | succ k ih =>
      simp only [nextTaken] at h
      split at h
      · exact (Option.some.inj h).le
      · have := ih h
        omega
      · cases h

/-- A slot that is not at the offset is taken from the next offset too. -/
theorem nextTaken_later {k d j : Nat} (h : nextTaken look (k + 1) d = some j) (hne : j ≠ d) :
    nextTaken look k (d + 1) = some j := by
  simp only [nextTaken] at h
  split at h
  · exact absurd (Option.some.inj h).symm hne
  · exact h
  · cases h

/-- Nothing is taken: the reader halts before every slot it would take. -/
theorem nextTaken_eq_none {k d : Nat} :
    nextTaken look k d = none ↔ ∀ i, d ≤ i → i < d + k → look i = .take →
      ∃ j, d ≤ j ∧ j < i ∧ look j = .halt ∧ ∀ m, d ≤ m → m < j → look m ≠ .take := by
  -- over the positions; the first one decides, or is skipped
  induction k generalizing d with
  | zero =>
      simp only [nextTaken, true_iff]
      intro i hlo hhi
      omega
  | succ k ih =>
      cases hd : look d with
      | take =>
          simp only [nextTaken_take hd, reduceCtorEq, false_iff]
          intro h
          obtain ⟨j, hlo, hhi, -⟩ := h d (Nat.le_refl d) (by omega) hd
          omega
      | skip =>
          rw [nextTaken_skip hd, ih]
          constructor
          · intro h i hlo hhi htake
            have hne : i ≠ d := by
              rintro rfl
              rw [hd] at htake
              cases htake
            obtain ⟨j, hj, hji, hhalt, hskip⟩ := h i (by omega) (by omega) htake
            refine ⟨j, by omega, hji, hhalt, fun m hm hmj => ?_⟩
            by_cases hmd : m = d
            · rw [hmd, hd]
              exact Look.noConfusion
            · exact hskip m (by omega) hmj
          · intro h i hlo hhi htake
            obtain ⟨j, hj, hji, hhalt, hskip⟩ := h i (by omega) (by omega) htake
            have hne : j ≠ d := by
              rintro rfl
              rw [hd] at hhalt
              cases hhalt
            exact ⟨j, by omega, hji, hhalt, fun m hm hmj => hskip m (by omega) hmj⟩
      | halt =>
          simp only [nextTaken, hd, true_iff]
          intro i hlo _ htake
          have hne : i ≠ d := by
            rintro rfl
            rw [hd] at htake
            cases htake
          exact ⟨d, Nat.le_refl d, by omega, hd, fun m hm hmd => by omega⟩

end Next

section Listing

variable {answers : Nat → Option α → Prop} {look : Nat → Look} {n : Nat} {slot : Nat → α}
  {ends : Prop}

/-- A reader of `n` slots: below `n` it looks ahead, and behind them it answers, if it
    does, that there is nothing. -/
structure LooksAhead (answers : Nat → Option α → Prop) (look : Nat → Look) (n : Nat)
    (slot : Nat → α) (ends : Prop) : Prop where
  below : ∀ d < n, ∀ r, answers d r ↔ (nextTaken look (n - d) d).map slot = r
  behind : ∀ d, n ≤ d → ∀ r, answers d r ↔ r = none ∧ ends

/-- The slots from `d` to `k` are taken each by its own offset, and there the reader finds
    nothing. -/
structure Straight (look : Nat → Look) (n : Nat) (ends : Prop) (d k : Nat) : Prop where
  le : k ≤ n
  take : ∀ i, d ≤ i → i < k → look i = .take
  stop : nextTaken look (n - k) k = none
  ends : k = n → ends

theorem Straight.step {d k : Nat} (h : Straight look n ends d k) : Straight look n ends (d + 1) k :=
  ⟨h.le, fun i hlo hhi => h.take i (by omega) hhi, h.stop, h.ends⟩

/-- A listing without repetition takes every slot by its own offset. -/
theorem Listing.straight (hreads : LooksAhead answers look n slot ends) {d : Nat} {l : List α}
    (h : Listing answers d l) (hd : d ≤ n) (hnodup : l.Nodup) :
    Straight look n ends d (d + l.length) ∧ l = (List.range l.length).map fun i => slot (d + i) := by
  induction h with
  | @done d hnone =>
      refine ⟨⟨hd, fun i hlo hhi => absurd hhi (by simpa using hlo), ?_, ?_⟩, rfl⟩
      · by_cases hlt : d < n
        · have := (hreads.below d hlt none).mp hnone
          exact Option.map_eq_none_iff.mp this
        · have hzero : n - d = 0 := by omega
          rw [List.length_nil, Nat.add_zero, hzero]
          rfl
      · rintro hend
        exact ((hreads.behind d (by simpa using hend.ge) none).mp hnone).2
  | @more d a l hsome hrest ih =>
      have hlt : d < n := by
        by_contra hge
        have := ((hreads.behind d (by omega) (some a)).mp hsome).1
        cases this
      have hnext := (hreads.below d hlt (some a)).mp hsome
      obtain ⟨j, hj, rfl⟩ := Option.map_eq_some_iff.mp hnext
      obtain ⟨m, hm⟩ : ∃ m, n - d = m + 1 := ⟨n - d - 1, by omega⟩
      rw [hm] at hj
      obtain ⟨hfirst, hnodup'⟩ := List.nodup_cons.mp hnodup
      -- taken from behind the offset, the slot is the next answer too
      have hown : j = d := by
        by_contra hne
        have hlater := nextTaken_later hj hne
        have hanswer : answers (d + 1) (some (slot j)) := by
          by_cases hlt' : d + 1 < n
          · rw [hreads.below (d + 1) hlt']
            rw [show n - (d + 1) = m by omega, hlater]
            rfl
          · have hzero : m = 0 := by omega
            subst hzero
            cases hlater
        cases hrest with
        | done hnone =>
            by_cases hlt' : d + 1 < n
            · rw [hreads.below (d + 1) hlt'] at hnone hanswer
              rw [hnone] at hanswer
              cases hanswer
            · have := ((hreads.behind (d + 1) (by omega) _).mp hanswer).1
              cases this
        | more hsome' hrest' =>
            apply hfirst
            by_cases hlt' : d + 1 < n
            · rw [hreads.below (d + 1) hlt'] at hsome' hanswer
              rw [Option.some.inj (hanswer.symm.trans hsome')]
              exact List.mem_cons_self
            · have := ((hreads.behind (d + 1) (by omega) _).mp hanswer).1
              cases this
      subst hown
      have htake : look j = .take := by
        simp only [nextTaken] at hj
        split at hj
        · assumption
        · have := le_of_nextTaken hj
          omega
        · cases hj
      obtain ⟨hstraight, heq⟩ := ih (by omega) hnodup'
      have hlen : j + (slot j :: l).length = j + 1 + l.length := by
        rw [List.length_cons]
        omega
      refine ⟨⟨?_, ?_, ?_, ?_⟩, ?_⟩
      · rw [hlen]
        exact hstraight.le
      · intro i hlo hhi
        by_cases hi : i = j
        · rw [hi]
          exact htake
        · exact hstraight.take i (by omega) (by omega)
      · rw [hlen]
        exact hstraight.stop
      · rw [hlen]
        exact hstraight.ends
      · rw [List.length_cons, List.range_succ_eq_map, List.map_cons, List.map_map]
        refine congrArg (slot j :: ·) ?_
        conv => lhs; rw [heq]
        apply List.map_congr_left
        intro i _
        simp only [Function.comp, Nat.succ_eq_add_one]
        rw [show j + (i + 1) = j + 1 + i by omega]

/-- Slots taken each by its own offset make a listing. -/
theorem Straight.listing (hreads : LooksAhead answers look n slot ends) {d k : Nat} (hd : d ≤ k)
    (h : Straight look n ends d k) :
    Listing answers d ((List.range (k - d)).map fun i => slot (d + i)) := by
  obtain ⟨m, rfl⟩ : ∃ m, k = d + m := ⟨k - d, by omega⟩
  rw [Nat.add_sub_cancel_left]
  have hle := h.le
  induction m generalizing d with
  | zero =>
      apply Listing.done
      by_cases hlt : d < n
      · rw [hreads.below d hlt]
        exact Option.map_eq_none_iff.mpr h.stop
      · exact (hreads.behind d (by omega) none).mpr ⟨rfl, h.ends (by omega)⟩
  | succ m ih =>
      rw [List.range_succ_eq_map, List.map_cons, List.map_map]
      apply Listing.more
      · rw [hreads.below d (by omega)]
        obtain ⟨j, hj⟩ : ∃ j, n - d = j + 1 := ⟨n - d - 1, by omega⟩
        rw [hj, nextTaken_take (h.take d (Nat.le_refl d) (by omega))]
        rfl
      · have hshift : d + (m + 1) = d + 1 + m := by omega
        have hnext := h.step
        rw [hshift] at hnext hle
        have hrest := ih (by omega) hnext hle
        refine Eq.mp (congrArg _ ?_) hrest
        apply List.map_congr_left
        intro i _
        simp only [Function.comp, Nat.succ_eq_add_one]
        rw [show d + (i + 1) = d + 1 + i by omega]

/-- Exactly the listings without repetition. -/
theorem listing_iff (hreads : LooksAhead answers look n slot ends) {l : List α} (hnodup : l.Nodup) :
    Listing answers 0 l ↔
      ∃ k, Straight look n ends 0 k ∧ l = (List.range k).map slot := by
  constructor
  · intro h
    obtain ⟨hstraight, heq⟩ := h.straight hreads (Nat.zero_le n) hnodup
    rw [Nat.zero_add] at hstraight
    simp only [Nat.zero_add] at heq
    exact ⟨l.length, hstraight, heq⟩
  · rintro ⟨k, hstraight, rfl⟩
    have h := hstraight.listing hreads (Nat.zero_le k)
    simpa using h

end Listing

end Icarius.Lib
