/-
  Icarius.Lib.Pool

  A pool of names: a set of names is used, the others can be had.  A caller marks a
  name, gives one back, or asks for one and is handed the least name that is not
  used; with none left it is refused.  What an allocator has to refine.
-/

import Icarius.Lib.Run
import Mathlib.Data.Set.Insert
import Mathlib.Order.Bounds.Basic

namespace Icarius.Lib

universe u

/-- What the callers of a pool see. -/
inductive PoolEvent (ν : Type u) where
  | mark (x : ν)
  | free (x : ν)
  | take (x : ν)
  | refuse
  deriving DecidableEq, Repr

open Classical in
/-- One event, from the used names to the used names behind it. -/
noncomputable def poolStep {ν : Type u} [Preorder ν] (names used : Set ν) :
    PoolEvent ν → Option (Set ν)
  | .mark x => some (insert x used)
  | .free x => some (used \ {x})
  | .take x => if IsLeast (names \ used) x then some (insert x used) else none
  | .refuse => if names ⊆ used then some used else none

/-- Events in a row. -/
abbrev PoolRun {ν : Type u} [Preorder ν] (names : Set ν) : Set ν → List (PoolEvent ν) → Set ν → Prop :=
  Runs (poolStep names) always

section Rules

variable {ν : Type u} [Preorder ν] {names used used' : Set ν} {es : List (PoolEvent ν)} {x : ν}

/-! ## What a step leaves -/

/-- A name is handed out exactly when it is the least one that is not used. -/
theorem poolStep_take :
    poolStep names used (.take x) = some used'
      ↔ IsLeast (names \ used) x ∧ insert x used = used' := by
  rw [poolStep]
  split
  · rename_i hleast
    exact ⟨fun h => ⟨hleast, Option.some.inj h⟩, fun h => congrArg some h.2⟩
  · rename_i hleast
    exact ⟨nofun, fun h => absurd h.1 hleast⟩

theorem poolStep_refuse :
    poolStep names used .refuse = some used' ↔ names ⊆ used ∧ used = used' := by
  rw [poolStep]
  split
  · rename_i hfull
    exact ⟨fun h => ⟨hfull, Option.some.inj h⟩, fun h => congrArg some h.2⟩
  · rename_i hfull
    exact ⟨nofun, fun h => absurd h.1 hfull⟩

/-- Only giving a name back makes it unused. -/
theorem mem_of_poolStep {e : PoolEvent ν} (hstep : poolStep names used e = some used')
    (hx : x ∈ used) (hne : e ≠ .free x) : x ∈ used' := by
  cases e with
  | mark y =>
      obtain rfl := Option.some.inj hstep
      exact Set.mem_insert_of_mem y hx
  | free y =>
      obtain rfl := Option.some.inj hstep
      refine ⟨hx, fun hsame => hne ?_⟩
      rw [Set.mem_singleton_iff.mp hsame]
  | take y =>
      obtain ⟨-, rfl⟩ := poolStep_take.mp hstep
      exact Set.mem_insert_of_mem y hx
  | refuse =>
      obtain ⟨-, rfl⟩ := poolStep_refuse.mp hstep
      exact hx

/-! ## Runs -/

/-- A used name stays used until it is given back. -/
theorem PoolRun.mem (hrun : PoolRun names used es used') (hx : x ∈ used)
    (hkept : .free x ∉ es) : x ∈ used' := by
  induction hrun with
  | nil => exact hx
  | @snoc es used₁ used₂ e hrun hok hstep ih =>
      have hbefore : .free x ∉ es := fun h => hkept (List.mem_append_left [e] h)
      refine mem_of_poolStep hstep (ih hbefore) fun hlast => hkept ?_
      rw [hlast]
      exact List.mem_append_right es List.mem_cons_self

/-- A name that is handed out twice has been given back in between. -/
theorem PoolRun.free_between {before between after : List (PoolEvent ν)}
    (hrun : PoolRun names used (before ++ .take x :: (between ++ .take x :: after)) used') :
    .free x ∈ between := by
  obtain ⟨used₁, -, hrest⟩ := Runs.of_append hrun
  obtain ⟨-, used₂, hfirst, hrest⟩ := hrest.of_cons
  obtain ⟨used₃, hbetween, hrest⟩ := hrest.of_append
  obtain ⟨-, used₄, hsecond, -⟩ := hrest.of_cons
  obtain ⟨-, rfl⟩ := poolStep_take.mp hfirst
  by_contra hkept
  -- the second one is handed a name that is used since the first
  have hused : x ∈ used₃ := PoolRun.mem hbetween (Set.mem_insert x used₁) hkept
  exact (poolStep_take.mp hsecond).1.1.2 hused

end Rules

end Icarius.Lib
