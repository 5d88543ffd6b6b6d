/-
  Icarius.Lib.Ring

  A bounded ring buffer: `count` occupied cells starting at `tail`, the next
  free one at `head`.  The three indices carry their invariant, so a ring with
  `head` out of step with `tail` and `count` cannot be built.  `contents` reads
  the occupied cells in queue order; `push` appends to it and `pop` removes its
  first element.
-/

import Mathlib.Data.List.Basic
import Mathlib.Data.List.Range

namespace Icarius.Lib

universe u

/-- A ring of `cap` cells. -/
structure Ring (α : Type u) (cap : Nat) where
  /-- Cell contents; only the indices below `cap` are ever used. -/
  cells : Nat → α
  /-- Where to write. -/
  head : Nat
  /-- Where to read. -/
  tail : Nat
  /-- Number of occupied cells. -/
  count : Nat
  tail_lt : tail < cap
  count_le : count ≤ cap
  head_eq : head = (tail + count) % cap

namespace Ring

variable {α : Type u} {cap : Nat}

/-- The empty ring over the given cells. -/
def empty (cells : Nat → α) (hcap : 0 < cap) : Ring α cap where
  cells := cells
  head := 0
  tail := 0
  count := 0
  tail_lt := hcap
  count_le := Nat.zero_le _
  head_eq := (Nat.zero_mod cap).symm

/-- The occupied cells, oldest first. -/
def contents (r : Ring α cap) : List α :=
  (List.range r.count).map fun i => r.cells ((r.tail + i) % cap)

/-- The oldest cell. -/
def front (r : Ring α cap) : α := r.cells r.tail

/-- Write `a` at `head` and advance it. -/
def push (r : Ring α cap) (a : α) (h : r.count < cap) : Ring α cap where
  cells := fun i => if i = r.head then a else r.cells i
  head := (r.head + 1) % cap
  tail := r.tail
  count := r.count + 1
  tail_lt := r.tail_lt
  count_le := h
  head_eq := by rw [r.head_eq, Nat.mod_add_mod, Nat.add_assoc]

/-- Leave `blank` in the oldest cell and advance `tail` past it. -/
def pop (r : Ring α cap) (blank : α) (h : 0 < r.count) : Ring α cap where
  cells := fun i => if i = r.tail then blank else r.cells i
  head := r.head
  tail := (r.tail + 1) % cap
  count := r.count - 1
  tail_lt := Nat.mod_lt _ (Nat.lt_of_le_of_lt (Nat.zero_le _) r.tail_lt)
  count_le := Nat.le_trans (Nat.sub_le _ _) r.count_le
  head_eq := by
    have hsum : r.tail + 1 + (r.count - 1) = r.tail + r.count := by omega
    rw [r.head_eq, Nat.mod_add_mod, hsum]

@[simp] theorem empty_count (cells : Nat → α) (hcap : 0 < cap) :
    (empty cells hcap).count = 0 := rfl

@[simp] theorem push_count (r : Ring α cap) (a : α) (h : r.count < cap) :
    (r.push a h).count = r.count + 1 := rfl

@[simp] theorem pop_count (r : Ring α cap) (blank : α) (h : 0 < r.count) :
    (r.pop blank h).count = r.count - 1 := rfl

@[simp] theorem contents_length (r : Ring α cap) : r.contents.length = r.count := by
  simp [contents]

@[simp] theorem contents_empty (cells : Nat → α) (hcap : 0 < cap) :
    (empty cells hcap).contents = [] := rfl

/-- Two offsets less than one revolution apart name different cells. -/
theorem offset_ne {t i j : Nat} (hij : i < j) (hj : j < i + cap) :
    (t + i) % cap ≠ (t + j) % cap := by
  intro h
  have hdvd : (t + j - (t + i)) % cap = 0 := Nat.sub_mod_eq_zero_of_mod_eq h.symm
  have hle : cap ≤ t + j - (t + i) :=
    Nat.le_of_dvd (by omega) (Nat.dvd_of_mod_eq_zero hdvd)
  omega

/-- Pushing appends to the queue. -/
theorem contents_push (r : Ring α cap) (a : α) (h : r.count < cap) :
    (r.push a h).contents = r.contents ++ [a] := by
  have hold : ∀ i ∈ List.range r.count,
      (r.push a h).cells ((r.tail + i) % cap) = r.cells ((r.tail + i) % cap) := by
    intro i hi
    have hi' : i < r.count := List.mem_range.mp hi
    have hne : (r.tail + i) % cap ≠ r.head := by
      rw [r.head_eq]
      exact offset_ne hi' (by omega)
    simp [push, hne]
  have hnew : (r.push a h).cells ((r.tail + r.count) % cap) = a := by
    simp [push, r.head_eq]
  calc (r.push a h).contents
      = (List.range (r.count + 1)).map fun i => (r.push a h).cells ((r.tail + i) % cap) := rfl
    _ = ((List.range r.count).map fun i => (r.push a h).cells ((r.tail + i) % cap)) ++ [a] := by
        rw [List.range_succ, List.map_append, List.map_singleton, hnew]
    _ = r.contents ++ [a] := by rw [List.map_congr_left hold]; rfl

/-- Popping removes the oldest element. -/
theorem contents_pop (r : Ring α cap) (blank : α) (h : 0 < r.count) :
    r.contents = r.front :: (r.pop blank h).contents := by
  obtain ⟨n, hn⟩ : ∃ n, r.count = n + 1 := ⟨r.count - 1, by omega⟩
  have hrest : ∀ i ∈ List.range n,
      r.cells ((r.tail + (i + 1)) % cap)
        = (r.pop blank h).cells (((r.tail + 1) % cap + i) % cap) := by
    intro i hi
    have hi' : i < n := List.mem_range.mp hi
    have hcap := r.count_le
    have hne : (r.tail + (i + 1)) % cap ≠ r.tail := by
      intro heq
      have hwrap : (r.tail + 0) % cap ≠ (r.tail + (i + 1)) % cap :=
        offset_ne (by omega) (by omega)
      rw [heq, Nat.add_zero, Nat.mod_eq_of_lt r.tail_lt] at hwrap
      exact hwrap rfl
    rw [Nat.mod_add_mod, Nat.add_assoc, Nat.add_comm 1 i]
    simp [pop, hne]
  calc r.contents
      = (List.range (n + 1)).map fun i => r.cells ((r.tail + i) % cap) := by
        rw [contents, hn]
    _ = r.cells ((r.tail + 0) % cap) ::
          (List.range n).map fun i => r.cells ((r.tail + (i + 1)) % cap) := by
        rw [List.range_succ_eq_map, List.map_cons, List.map_map]
        rfl
    _ = r.front :: (r.pop blank h).contents := by
        rw [List.map_congr_left hrest, Nat.add_zero, Nat.mod_eq_of_lt r.tail_lt]
        simp [front, contents, pop, hn]

end Ring

end Icarius.Lib
