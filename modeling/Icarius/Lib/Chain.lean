/-
  Icarius.Lib.Chain

  Chains in a table that gives every cell the next one: the cells from one on, up to a
  cell whose next is an end mark.  A cell has one chain at most, so a chain repeats no
  cell; a chain depends on the entries of its own cells only; and a chain whose last
  entry is set to a new cell goes on there.
-/

import Mathlib.Data.List.Nodup
import Mathlib.Logic.Function.Iterate

namespace Icarius.Lib

variable {α : Type*}

/-- `cs` are the cells from `c` on. -/
inductive IsChain (next : α → α) (live ended : α → Prop) : α → List α → Prop
  | last {c : α} (hlive : live c) (hend : ended (next c)) : IsChain next live ended c [c]
  | link {c : α} {cs : List α} (hlive : live c) (hrest : IsChain next live ended (next c) cs) :
      IsChain next live ended c (c :: cs)

namespace IsChain

variable {next next' : α → α} {live ended : α → Prop} {c : α} {cs cs' : List α}

theorem ne_nil (h : IsChain next live ended c cs) : cs ≠ [] := by
  cases h <;> exact List.cons_ne_nil _ _

theorem head (h : IsChain next live ended c cs) : ∃ rest, cs = c :: rest := by
  cases h with
  | last => exact ⟨[], rfl⟩
  | link => exact ⟨_, rfl⟩

theorem live_of_mem (h : IsChain next live ended c cs) : ∀ x ∈ cs, live x := by
  induction h with
  | last hlive _ =>
      intro x hx
      rwa [List.mem_singleton.mp hx]
  | link hlive _ ih =>
      intro x hx
      rcases List.mem_cons.mp hx with rfl | hx
      · exact hlive
      · exact ih x hx

theorem live_head (h : IsChain next live ended c cs) : live c := by
  cases h <;> assumption

/-- Behind the first cell of a longer chain -/
theorem tail {x : α} (h : IsChain next live ended c (x :: cs)) (hne : cs ≠ []) :
    IsChain next live ended (next c) cs := by
  cases h with
  | last => exact absurd rfl hne
  | link _ hrest => exact hrest

/-- The last cell of a chain has an end mark. -/
theorem ended_getLastD (h : IsChain next live ended c cs) (d : α) :
    ended (next (cs.getLastD d)) := by
  induction h generalizing d with
  | last _ hend => exact hend
  | link _ _ ih =>
      rw [List.getLastD_cons]
      exact ih _

/-- Behind a cell of a chain comes a cell of it or the end. -/
theorem next_mem (h : IsChain next live ended c cs) {x : α} (hx : x ∈ cs)
    (hnext : ¬ ended (next x)) : next x ∈ cs := by
  induction h with
  | last _ hend =>
      obtain rfl := List.mem_singleton.mp hx
      exact absurd hend hnext
  | link _ hrest ih =>
      rcases List.mem_cons.mp hx with rfl | hx
      · obtain ⟨rest, rfl⟩ := hrest.head
        exact List.mem_cons_of_mem _ List.mem_cons_self
      · exact List.mem_cons_of_mem _ (ih hx)

/-- A cell has one chain at most. -/
theorem unique (hdisj : ∀ x, live x → ¬ ended x) (h : IsChain next live ended c cs)
    (h' : IsChain next live ended c cs') : cs = cs' := by
  induction h generalizing cs' with
  | last _ hend =>
      cases h' with
      | last => rfl
      | link _ hrest => exact absurd hend (hdisj _ hrest.live_head)
  | link _ hrest ih =>
      cases h' with
      | last _ hend => exact absurd hend (hdisj _ hrest.live_head)
      | link _ hrest' => rw [ih hrest']

/-- A chain depends on the entries of its cells only. -/
theorem congr (h : IsChain next live ended c cs) (hsame : ∀ x ∈ cs, next' x = next x) :
    IsChain next' live ended c cs := by
  induction h with
  | last hlive hend =>
      refine .last hlive ?_
      rw [hsame _ (List.mem_singleton_self _)]
      exact hend
  | @link c cs hlive _ ih =>
      refine .link hlive ?_
      rw [hsame c List.mem_cons_self]
      exact ih fun x hx => hsame x (List.mem_cons_of_mem c hx)

/-- A chain ends at a cell that is given an end mark. -/
theorem cut (h : IsChain next live ended c cs) {k : Nat} (hk : k < cs.length)
    (hsame : ∀ x ∈ cs.take k, next' x = next x) (hend : ended (next' cs[k])) :
    IsChain next' live ended c (cs.take (k + 1)) := by
  induction h generalizing k with
  | last hlive _ =>
      obtain rfl : k = 0 := by simpa using hk
      exact .last hlive hend
  | @link c cs hlive hrest ih =>
      cases k with
      | zero => exact .last hlive hend
      | succ k =>
          refine .link hlive ?_
          rw [hsame c List.mem_cons_self]
          exact ih (Nat.lt_of_succ_lt_succ hk)
            (fun x hx => hsame x (List.mem_cons_of_mem c hx)) hend

/-- From a cell of a chain on there is a chain, and it is not longer. -/
theorem from_mem (h : IsChain next live ended c cs) {x : α} (hx : x ∈ cs) :
    ∃ rest, IsChain next live ended x rest ∧ rest.length ≤ cs.length := by
  induction h with
  | last hlive hend =>
      rw [List.mem_singleton.mp hx]
      exact ⟨_, .last hlive hend, Nat.le_refl _⟩
  | @link c cs hlive hrest ih =>
      rcases List.mem_cons.mp hx with rfl | hx
      · exact ⟨_, .link hlive hrest, Nat.le_refl _⟩
      · obtain ⟨rest, hchain, hle⟩ := ih hx
        exact ⟨rest, hchain, Nat.le_succ_of_le hle⟩

/-- A chain repeats no cell. -/
theorem nodup (hdisj : ∀ x, live x → ¬ ended x) (h : IsChain next live ended c cs) :
    cs.Nodup := by
  induction h with
  | last => exact List.nodup_singleton _
  | @link c cs hlive hrest ih =>
      refine List.nodup_cons.mpr ⟨fun hmem => ?_, ih⟩
      -- the chain from the second `c` on would be the whole one
      obtain ⟨rest, hchain, hle⟩ := hrest.from_mem hmem
      have hsame := unique hdisj (.link hlive hrest) hchain
      rw [← hsame, List.length_cons] at hle
      omega

/-- The cells of a chain are the first one, its next, the next of that, …. -/
theorem getElem?_iterate (h : IsChain next live ended c cs) {k : Nat} (hk : k < cs.length) :
    cs[k]? = some (next^[k] c) := by
  induction h generalizing k with
  | last =>
      obtain rfl : k = 0 := by simpa using hk
      rfl
  | link _ _ ih =>
      cases k with
      | zero => rfl
      | succ k => exact ih (by simpa using hk)

end IsChain

end Icarius.Lib
