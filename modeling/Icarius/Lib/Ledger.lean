/-
  Icarius.Lib.Ledger

  Accounts of an allocator: what is allocated is known by the number of the call that
  allocated it.  An address that is used again later is another allocation.  Which calls are
  granted is up to the allocator; the accounts hold for any choice.

  What a piece of code has allocated and not freed is a set (`Adds`); it is empty exactly
  when the code leaves the accounts as it found them.
-/

import Mathlib.Data.Finset.Basic
import Mathlib.Data.Finset.Lattice.Lemmas

namespace Icarius.Lib

/-- The allocations that are live, the number of the next call, and the calls for which the
    allocator has room. -/
structure Ledger where
  next : Nat
  live : Finset Nat
  lt_next : ∀ p ∈ live, p < next
  grants : Nat → Bool := fun _ => true

namespace Ledger

/-- An allocator nothing has been taken from, with room for every call -/
def empty : Ledger where
  next := 0
  live := ∅
  lt_next := fun _ h => absurd h (Finset.notMem_empty _)

/-- A call that is granted, and its number -/
def alloc (l : Ledger) : Nat × Ledger :=
  (l.next, { next := l.next + 1
             live := insert l.next l.live
             grants := l.grants
             lt_next := by
               intro p hp
               rcases Finset.mem_insert.mp hp with rfl | hp
               · exact Nat.lt_succ_self _
               · exact Nat.lt_succ_of_lt (l.lt_next p hp) })

/-- A call that is refused -/
def refuse (l : Ledger) : Ledger where
  next := l.next + 1
  live := l.live
  grants := l.grants
  lt_next := fun p hp => Nat.lt_succ_of_lt (l.lt_next p hp)

/-- A call, and its number when it is granted -/
def request (l : Ledger) : Option Nat × Ledger :=
  if l.grants l.next then (some l.alloc.1, l.alloc.2) else (none, l.refuse)

/-- `n` calls in a row, and the numbers of those that are granted -/
def requests (l : Ledger) : Nat → List Nat × Ledger
  | 0 => ([], l)
  | n + 1 =>
      let (p, l) := l.request
      let (ps, l) := l.requests n
      (p.toList ++ ps, l)

/-- The next `n` calls are granted. -/
def Grants (l : Ledger) (n : Nat) : Prop := ∀ i < n, l.grants (l.next + i) = true

instance (l : Ledger) (n : Nat) : Decidable (l.Grants n) :=
  inferInstanceAs (Decidable (∀ i < n, _))

/-- Give an allocation back. -/
def free (l : Ledger) (p : Nat) : Ledger where
  next := l.next
  live := l.live.erase p
  grants := l.grants
  lt_next := fun q hq => l.lt_next q (Finset.mem_of_mem_erase hq)

/-- Give allocations back, one after the other. -/
def frees (l : Ledger) (ps : List Nat) : Ledger := ps.foldl free l

/-! ## Calls that are granted -/

theorem request_pos {l : Ledger} (h : l.grants l.next = true) :
    l.request = (some l.alloc.1, l.alloc.2) := if_pos h

theorem request_neg {l : Ledger} (h : l.grants l.next ≠ true) : l.request = (none, l.refuse) :=
  if_neg h

theorem grants_zero (l : Ledger) : l.Grants 0 := fun _ h => absurd h (Nat.not_lt_zero _)

/-- The first of some calls, and the others -/
theorem grants_succ {l : Ledger} {n : Nat} :
    l.Grants (n + 1) ↔ l.grants l.next = true ∧ l.alloc.2.Grants n := by
  constructor
  · intro h
    refine ⟨h 0 (Nat.zero_lt_succ n), fun i hi => ?_⟩
    have hnext := h (i + 1) (Nat.succ_lt_succ hi)
    rw [← Nat.add_assoc, Nat.add_right_comm] at hnext
    exact hnext
  · rintro ⟨hfirst, hrest⟩ i hi
    cases i with
    | zero => exact hfirst
    | succ i =>
        have hnext := hrest i (Nat.lt_of_succ_lt_succ hi)
        rw [← Nat.add_assoc, Nat.add_right_comm]
        exact hnext

theorem Grants.mono {l : Ledger} {m n : Nat} (h : l.Grants n) (hle : m ≤ n) : l.Grants m :=
  fun i hi => h i (Nat.lt_of_lt_of_le hi hle)

/-- Calls behind some that are granted -/
theorem Grants.add_iff {l l' : Ledger} {m n : Nat} (h : l.Grants m) (hnext : l'.next = l.next + m)
    (hgrants : l'.grants = l.grants) : l.Grants (m + n) ↔ l'.Grants n := by
  constructor
  · intro hall i hi
    rw [hgrants, hnext, Nat.add_assoc]
    exact hall (m + i) (Nat.add_lt_add_left hi m)
  · intro hrest i hi
    by_cases hlt : i < m
    · exact h i hlt
    · have hi' := hrest (i - m) (by omega)
      rw [hgrants, hnext, Nat.add_assoc, Nat.add_sub_cancel' (Nat.le_of_not_lt hlt)] at hi'
      exact hi'

theorem grants_one {l : Ledger} : l.Grants 1 ↔ l.grants l.next = true :=
  ⟨fun h => h 0 Nat.one_pos, fun h => grants_succ.mpr ⟨h, grants_zero _⟩⟩

/-! ## What a piece of code adds -/

/-- Between the two moments the allocations in `s` were made, and are still live; all
    others are as they were. -/
structure Adds (l : Ledger) (s : Finset Nat) (l' : Ledger) : Prop where
  live : l'.live = l.live ∪ s
  new : ∀ p ∈ s, l.next ≤ p
  next_le : l.next ≤ l'.next

theorem Adds.refl (l : Ledger) : Adds l ∅ l :=
  ⟨(Finset.union_eq_left.mpr (Finset.empty_subset _)).symm, fun _ h => absurd h (Finset.notMem_empty _), Nat.le_refl _⟩

/-- What is added was not live before. -/
theorem Adds.not_live {l l' : Ledger} {s : Finset Nat} (h : Adds l s l') {p : Nat} (hp : p ∈ s) :
    p ∉ l.live := by
  intro hlive
  have hlt := l.lt_next p hlive
  have hle := h.new p hp
  omega

/-- The accounts are as before exactly when nothing is added. -/
theorem Adds.live_eq_iff {l l' : Ledger} {s : Finset Nat} (h : Adds l s l') :
    l'.live = l.live ↔ s = ∅ := by
  rw [h.live, Finset.union_eq_left]
  constructor
  · intro hsub
    apply Finset.eq_empty_of_forall_notMem
    intro p hp
    exact h.not_live hp (hsub hp)
  · intro hempty
    rw [hempty]
    exact Finset.empty_subset _

/-- One piece of code after the other -/
theorem Adds.trans {l l' l'' : Ledger} {s t : Finset Nat} (h : Adds l s l') (h' : Adds l' t l'') :
    Adds l (s ∪ t) l'' where
  live := by rw [h'.live, h.live, Finset.union_assoc]
  new := by
    intro p hp
    rcases Finset.mem_union.mp hp with hp | hp
    · exact h.new p hp
    · exact Nat.le_trans h.next_le (h'.new p hp)
  next_le := Nat.le_trans h.next_le h'.next_le

theorem adds_alloc (l : Ledger) : Adds l {l.alloc.1} l.alloc.2 where
  live := by
    rw [Finset.union_comm]
    rfl
  new := by
    intro p hp
    rw [Finset.mem_singleton.mp hp]
    exact Nat.le_refl _
  next_le := Nat.le_succ _

theorem adds_refuse (l : Ledger) : Adds l ∅ l.refuse where
  live := (Finset.union_empty _).symm
  new := fun _ h => absurd h (Finset.notMem_empty _)
  next_le := Nat.le_succ _

theorem adds_request (l : Ledger) : Adds l l.request.1.toList.toFinset l.request.2 := by
  by_cases h : l.grants l.next = true
  · rw [request_pos h]
    exact l.adds_alloc
  · rw [request_neg h]
    exact l.adds_refuse

theorem adds_requests (l : Ledger) (n : Nat) :
    Adds l (l.requests n).1.toFinset (l.requests n).2 := by
  induction n generalizing l with
  | zero => exact Adds.refl l
  | succ n ih =>
      have h := l.adds_request.trans (ih l.request.2)
      rw [requests]
      rw [← List.toFinset_append] at h
      exact h

theorem frees_live (l : Ledger) (ps : List Nat) : (l.frees ps).live = l.live \ ps.toFinset := by
  induction ps generalizing l with
  | nil => exact Finset.sdiff_empty.symm
  | cons p ps ih =>
      have hrest := ih (l.free p)
      have hfree : (l.free p).live = l.live.erase p := rfl
      rw [List.toFinset_cons, Finset.sdiff_insert, ← Finset.erase_sdiff_comm, ← hfree]
      exact hrest

@[simp] theorem frees_next (l : Ledger) (ps : List Nat) : (l.frees ps).next = l.next := by
  induction ps generalizing l with
  | nil => rfl
  | cons p ps ih => exact ih (l.free p)

/-- Giving back what was added -/
theorem Adds.frees {l l' : Ledger} {s : Finset Nat} (ps : List Nat) (h : Adds l s l')
    (hps : ∀ p ∈ ps, p ∈ s) : Adds l (s \ ps.toFinset) (l'.frees ps) where
  live := by
    have hkept : l.live \ ps.toFinset = l.live := by
      apply Finset.sdiff_eq_self_of_disjoint
      rw [Finset.disjoint_right]
      intro p hp
      exact h.not_live (hps p (List.mem_toFinset.mp hp))
    rw [frees_live, h.live, Finset.union_sdiff_distrib, hkept]
  new := fun p hp => h.new p (Finset.mem_sdiff.mp hp).1
  next_le := by
    rw [frees_next]
    exact h.next_le

/-- Giving back all that was added -/
theorem Adds.frees_all {l l' : Ledger} {s : Finset Nat} (ps : List Nat) (h : Adds l s l')
    (hps : ps.toFinset = s) : Adds l ∅ (l'.frees ps) := by
  have hback := h.frees ps fun p hp => hps ▸ List.mem_toFinset.mpr hp
  rw [hps, Finset.sdiff_self] at hback
  exact hback

/-- What a second piece of code adds is not what the first one added. -/
theorem Adds.disjoint {l l' l'' : Ledger} {s t : Finset Nat} (h : Adds l s l')
    (h' : Adds l' t l'') : Disjoint s t := by
  rw [Finset.disjoint_left]
  intro p hs ht
  apply h'.not_live ht
  rw [h.live]
  exact Finset.mem_union_right _ hs

/-- Behind a second piece of code, what the first one added is given back. -/
theorem Adds.frees_first {l l' l'' : Ledger} {ps : List Nat} {s t : Finset Nat} (h : Adds l s l')
    (h' : Adds l' t l'') (hps : ps.toFinset = s) : Adds l t (l''.frees ps) := by
  have hboth := (h.trans h').frees ps (by
    intro p hp
    rw [← hps]
    exact Finset.mem_union_left _ (List.mem_toFinset.mpr hp))
  rw [hps, Finset.union_sdiff_left, (h.disjoint h').sdiff_eq_right] at hboth
  exact hboth

end Ledger

end Icarius.Lib
