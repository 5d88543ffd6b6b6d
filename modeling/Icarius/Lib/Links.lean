/-
  Icarius.Lib.Links

  Doubly linked lists, seen through the two functions that read the links of a
  node.  `Linked next prev p l n` is a segment with the nodes `l`, entered from
  `p` and left to `n`; a whole list is a segment from and to the null pointer.

  Every list operation of an allocator replaces a middle segment and touches the
  two links at its seams.  `Linked.splice` is that one argument: inserting,
  unlinking, pushing in front and appending are instances.
-/

import Mathlib.Data.List.Basic

namespace Icarius.Lib

universe u

variable {α : Type u} {next prev next' prev' : α → α}

/-- The segment `l` between `p` and `n`. -/
def Linked (next prev : α → α) : α → List α → α → Prop
  | _, [], _ => True
  | p, a :: l, n => prev a = p ∧ next a = l.headD n ∧ Linked next prev a l n

@[simp] theorem linked_nil (p n : α) : Linked next prev p [] n := trivial

theorem linked_cons {p a n : α} {l : List α} :
    Linked next prev p (a :: l) n ↔ prev a = p ∧ next a = l.headD n ∧ Linked next prev a l n :=
  Iff.rfl

theorem headD_append (l₁ l₂ : List α) (n : α) : (l₁ ++ l₂).headD n = l₁.headD (l₂.headD n) := by
  cases l₁ <;> rfl

theorem getLastD_append (l₁ l₂ : List α) (p : α) :
    (l₁ ++ l₂).getLastD p = l₂.getLastD (l₁.getLastD p) := by
  induction l₁ generalizing p with
  | nil => rfl
  | cons a l₁ ih => simpa only [List.cons_append, List.getLastD_cons] using ih a

theorem mem_middle {l₁ l₂ : List α} {a b : α} : b ∈ l₁ ++ a :: l₂ ↔ b = a ∨ b ∈ l₁ ++ l₂ := by
  rw [List.mem_append, List.mem_cons, List.mem_append, or_left_comm]

/-- What is in front of the last node is another one. -/
theorem ne_getLastD_of_mem_dropLast {l : List α} {a d : α} (hnodup : l.Nodup)
    (ha : a ∈ l.dropLast) : a ≠ l.getLastD d := by
  rintro rfl
  cases hlast : l.getLast? with
  | none =>
      rw [List.getLast?_eq_none_iff.mp hlast] at ha
      exact absurd ha List.not_mem_nil
  | some c =>
      rw [List.getLastD_eq_getLast?, hlast] at ha
      rw [← List.dropLast_append_getLast? c hlast, List.nodup_append] at hnodup
      exact hnodup.2.2 c ha c List.mem_cons_self rfl

/-- A concatenation is linked when both parts and the seam are. -/
theorem linked_append {p n : α} {l₁ l₂ : List α} :
    Linked next prev p (l₁ ++ l₂) n ↔
      Linked next prev p l₁ (l₂.headD n) ∧ Linked next prev (l₁.getLastD p) l₂ n := by
  induction l₁ generalizing p with
  | nil => simp
  | cons a l₁ ih =>
      simp only [List.cons_append, linked_cons, headD_append, ih, List.getLastD_cons, and_assoc]

/-- Only the links of the nodes matter. -/
theorem Linked.congr {p n : α} {l : List α} (h : Linked next prev p l n)
    (hnext : ∀ a ∈ l, next' a = next a) (hprev : ∀ a ∈ l, prev' a = prev a) :
    Linked next' prev' p l n := by
  induction l generalizing p with
  | nil => trivial
  | cons a l ih =>
      obtain ⟨hp, hn, hl⟩ := h
      refine ⟨?_, ?_, ih hl (fun b hb => ?_) (fun b hb => ?_)⟩
      · rw [hprev a List.mem_cons_self, hp]
      · rw [hnext a List.mem_cons_self, hn]
      · exact hnext b (List.mem_cons_of_mem a hb)
      · exact hprev b (List.mem_cons_of_mem a hb)

/-- Redirect the link that leaves a segment. -/
theorem Linked.leave {p n n' : α} {l : List α} (h : Linked next prev p l n)
    (hnext : ∀ a ∈ l.dropLast, next' a = next a) (hlast : ∀ a ∈ l.getLast?, next' a = n')
    (hprev : ∀ a ∈ l, prev' a = prev a) : Linked next' prev' p l n' := by
  induction l generalizing p with
  | nil => trivial
  | cons a l ih =>
      obtain ⟨hp, hn, hl⟩ := h
      have hp' : prev' a = p := by rw [hprev a List.mem_cons_self, hp]
      cases l with
      | nil => exact ⟨hp', hlast a (by simp), trivial⟩
      | cons b l =>
          refine ⟨hp', ?_, ih hl (fun c hc => ?_) (fun c hc => ?_) (fun c hc => ?_)⟩
          · rw [hnext a (by simp), hn]
            rfl
          · exact hnext c (by simpa using .inr hc)
          · exact hlast c (by simpa using hc)
          · exact hprev c (List.mem_cons_of_mem a hc)

/-- Redirect the link that enters a segment. -/
theorem Linked.enter {p p' n : α} {l : List α} (h : Linked next prev p l n)
    (hnext : ∀ a ∈ l, next' a = next a) (hhead : ∀ a ∈ l.head?, prev' a = p')
    (hprev : ∀ a ∈ l.tail, prev' a = prev a) : Linked next' prev' p' l n := by
  cases l with
  | nil => trivial
  | cons a l =>
      obtain ⟨-, hn, hl⟩ := h
      refine ⟨hhead a (by simp), ?_, hl.congr (fun b hb => ?_) hprev⟩
      · rw [hnext a List.mem_cons_self, hn]
      · exact hnext b (List.mem_cons_of_mem a hb)

/-- Replace a middle segment: the new middle is linked to its surroundings, the
    last node before it and the first one after it point at it, and no other
    link of the surroundings changed. -/
theorem Linked.splice {p n : α} {l₁ mid mid' l₂ : List α}
    (h : Linked next prev p (l₁ ++ mid ++ l₂) n)
    (hmid : Linked next' prev' (l₁.getLastD p) mid' (l₂.headD n))
    (hnext₁ : ∀ a ∈ l₁.dropLast, next' a = next a)
    (hlast : ∀ a ∈ l₁.getLast?, next' a = (mid' ++ l₂).headD n)
    (hprev₁ : ∀ a ∈ l₁, prev' a = prev a)
    (hnext₂ : ∀ a ∈ l₂, next' a = next a)
    (hhead : ∀ a ∈ l₂.head?, prev' a = (l₁ ++ mid').getLastD p)
    (hprev₂ : ∀ a ∈ l₂.tail, prev' a = prev a) :
    Linked next' prev' p (l₁ ++ mid' ++ l₂) n := by
  rw [List.append_assoc, linked_append, linked_append] at h
  obtain ⟨h₁, -, h₂⟩ := h
  rw [List.append_assoc, linked_append, linked_append]
  refine ⟨h₁.leave hnext₁ hlast hprev₁, hmid, ?_⟩
  rw [← getLastD_append]
  exact h₂.enter hnext₂ hhead hprev₂

/-- Unlink a node: the node before it gets its `next` link, the one after it its
    `prev` link, and no other link changes. -/
theorem Linked.unlink [DecidableEq α] {p n a : α} {l₁ l₂ : List α}
    (h : Linked next prev p (l₁ ++ a :: l₂) n) (hnodup : (l₁ ++ a :: l₂).Nodup)
    (hp : p ∉ l₁ ++ a :: l₂) (hn : n ∉ l₁ ++ a :: l₂)
    (hnext : ∀ b ∈ l₁ ++ a :: l₂, next' b = if b = prev a then next a else next b)
    (hprev : ∀ b ∈ l₁ ++ a :: l₂, prev' b = if b = next a then prev a else prev b) :
    Linked next' prev' p (l₁ ++ l₂) n := by
  have hlinks := h
  rw [linked_append, linked_cons] at hlinks
  obtain ⟨-, hprevIs, hnextIs, -⟩ := hlinks
  rw [hprevIs] at hnext
  rw [hnextIs] at hprev
  rw [List.nodup_append, List.nodup_cons] at hnodup
  obtain ⟨hnodup₁, ⟨-, hnodup₂⟩, hdisjoint⟩ := hnodup
  have hmem₁ : ∀ b ∈ l₁, b ∈ l₁ ++ a :: l₂ := fun b => List.mem_append_left _
  have hmem₂ : ∀ b ∈ l₂, b ∈ l₁ ++ a :: l₂ := fun b hb =>
    List.mem_append_right _ (List.mem_cons_of_mem a hb)
  have hapart : ∀ b ∈ l₁, b ∉ l₂ := fun b h₁ h₂ =>
    hdisjoint b h₁ b (List.mem_cons_of_mem a h₂) rfl
  -- only the last node in front sees its `next` link change, only the first node behind
  -- its `prev` link
  have hlast : ∀ b ∈ l₁ ++ a :: l₂, (∀ c ∈ l₁.getLast?, b ≠ c) → b ≠ l₁.getLastD p := by
    rintro b hb hne rfl
    rw [List.getLastD_eq_getLast?] at hb hne
    cases hlast : l₁.getLast? with
    | none =>
        rw [hlast] at hb
        exact hp hb
    | some c => exact hne c hlast (by rw [hlast]; rfl)
  have hfirst : ∀ b ∈ l₁ ++ a :: l₂, (∀ c ∈ l₂.head?, b ≠ c) → b ≠ l₂.headD n := by
    rintro b hb hne rfl
    rw [List.headD_eq_head?_getD] at hb hne
    cases hhead : l₂.head? with
    | none =>
        rw [hhead] at hb
        exact hn hb
    | some c => exact hne c hhead (by rw [hhead]; rfl)
  have hsplice : Linked next prev p (l₁ ++ [a] ++ l₂) n := by
    rw [List.append_assoc]
    exact h
  have hmid : Linked next' prev' (l₁.getLastD p) [] (l₂.headD n) := trivial
  have hdone := hsplice.splice hmid
    (fun b hb => ?_) (fun b hb => ?_) (fun b hb => ?_) (fun b hb => ?_) (fun b hb => ?_)
    (fun b hb => ?_)
  · rwa [List.append_nil] at hdone
  · have hb₁ := List.dropLast_subset l₁ hb
    rw [hnext b (hmem₁ b hb₁), if_neg (hlast b (hmem₁ b hb₁) fun c hc heq => ?_)]
    rw [← List.dropLast_append_getLast? c hc, List.nodup_append] at hnodup₁
    exact hnodup₁.2.2 b hb c List.mem_cons_self heq
  · have heq : b = l₁.getLastD p := by
      rw [List.getLastD_eq_getLast?, hb]
      rfl
    rw [hnext b (hmem₁ b (List.mem_of_mem_getLast? hb)), if_pos heq, hnextIs]
    rfl
  · rw [hprev b (hmem₁ b hb), if_neg (hfirst b (hmem₁ b hb) fun c hc heq => ?_)]
    exact hapart b hb (heq ▸ List.mem_of_mem_head? hc)
  · rw [hnext b (hmem₂ b hb), if_neg (hlast b (hmem₂ b hb) fun c hc heq => ?_)]
    exact hapart c (List.mem_of_mem_getLast? hc) (heq ▸ hb)
  · have heq : b = l₂.headD n := by
      rw [List.headD_eq_head?_getD, hb]
      rfl
    rw [hprev b (hmem₂ b (List.mem_of_mem_head? hb)), if_pos heq, hprevIs, List.append_nil]
  · have hb₂ := List.mem_of_mem_tail hb
    rw [hprev b (hmem₂ b hb₂), if_neg (hfirst b (hmem₂ b hb₂) fun c hc heq => ?_)]
    cases l₂ with
    | nil => cases hb
    | cons d l₂ =>
        have hcd : c = d := (Option.some.inj hc).symm
        rw [List.nodup_cons] at hnodup₂
        exact hnodup₂.1 (hcd ▸ heq ▸ hb)

/-- Insert a node behind another one: four links change. -/
theorem Linked.insert [DecidableEq α] {p n a b : α} {l₁ l₂ : List α}
    (h : Linked next prev p (l₁ ++ a :: l₂) n) (hnodup : (l₁ ++ a :: b :: l₂).Nodup)
    (hn : n ∉ l₁ ++ a :: b :: l₂)
    (hnext : ∀ c ∈ l₁ ++ a :: b :: l₂,
      next' c = if c = a then b else if c = b then next a else next c)
    (hprev : ∀ c ∈ l₁ ++ a :: b :: l₂,
      prev' c = if c = next a then b else if c = b then a else prev c) :
    Linked next' prev' p (l₁ ++ a :: b :: l₂) n := by
  rw [linked_append, linked_cons] at h
  obtain ⟨h₁, hprevIs, hnextIs, h₂⟩ := h
  rw [hnextIs] at hprev
  rw [List.nodup_append, List.nodup_cons, List.nodup_cons] at hnodup
  obtain ⟨-, ⟨ha, hb, hnodup₂⟩, hdisjoint⟩ := hnodup
  have hab : a ≠ b := fun heq => ha (heq ▸ List.mem_cons_self)
  have ha₂ : a ∉ l₂ := fun hx => ha (List.mem_cons_of_mem b hx)
  have hmem₁ : ∀ c ∈ l₁, c ∈ l₁ ++ a :: b :: l₂ := fun c => List.mem_append_left _
  have hmem₂ : ∀ c ∈ l₂, c ∈ l₁ ++ a :: b :: l₂ := fun c hc => by simp [hc]
  -- the node behind `a` was a node of `l₂` or the end
  have hseam : ∀ c ∈ l₁ ++ a :: b :: l₂, c ∉ l₂ → c ≠ l₂.headD n := by
    rintro c hc hout rfl
    cases l₂ with
    | nil => exact hn hc
    | cons d l₂ => exact hout List.mem_cons_self
  rw [linked_append, linked_cons, linked_cons]
  refine ⟨h₁.congr (fun c hc => ?_) (fun c hc => ?_), ?_, ?_, ?_, ?_, ?_⟩
  · rw [hnext c (hmem₁ c hc), if_neg (hdisjoint c hc a (by simp)),
      if_neg (hdisjoint c hc b (by simp))]
  · have hout : c ∉ l₂ := fun hx => hdisjoint c hc c (by simp [hx]) rfl
    rw [hprev c (hmem₁ c hc), if_neg (hseam c (hmem₁ c hc) hout),
      if_neg (hdisjoint c hc b (by simp))]
  · rw [hprev a (by simp), if_neg (hseam a (by simp) ha₂), if_neg hab, hprevIs]
  · rw [hnext a (by simp), if_pos rfl]
    rfl
  · rw [hprev b (by simp), if_neg (hseam b (by simp) hb), if_pos rfl]
  · rw [hnext b (by simp), if_neg hab.symm, if_pos rfl, hnextIs]
  · refine h₂.enter (fun c hc => ?_) (fun c hc => ?_) (fun c hc => ?_)
    · have hca : c ≠ a := fun heq => ha₂ (heq ▸ hc)
      have hcb : c ≠ b := fun heq => hb (heq ▸ hc)
      rw [hnext c (hmem₂ c hc), if_neg hca, if_neg hcb]
    · have heq : c = l₂.headD n := by
        rw [List.headD_eq_head?_getD, hc]
        rfl
      rw [hprev c (hmem₂ c (List.mem_of_mem_head? hc)), if_pos heq]
    · have hc₂ := List.mem_of_mem_tail hc
      have hfirst : c ≠ l₂.headD n := by
        rintro rfl
        cases l₂ with
        | nil => exact absurd hc List.not_mem_nil
        | cons d l₂ => exact (List.nodup_cons.mp hnodup₂).1 hc
      have hcb : c ≠ b := fun heq => hb (heq ▸ hc₂)
      rw [hprev c (hmem₂ c hc₂), if_neg hfirst, if_neg hcb]

end Icarius.Lib
