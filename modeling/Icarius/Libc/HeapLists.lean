/-
  Icarius.Libc.HeapLists

  What the memory of the user heap says when it is in order: the list of all blocks
  (`Blocks`) and the list of the free ones (`FreeList`), each with its links in the
  headers, and what the updates of the allocator do to them.

  The blocks are a ghost list, in the order of their addresses.  A block that `free` has
  marked but not yet put into the free list is the one address by which the free blocks
  and the free list differ; `Exact` therefore takes the addresses as a list.
-/

import Icarius.Libc.Malloc
import Icarius.Lib.Links
import Icarius.Lib.Tiling

namespace Icarius

open Icarius.Lib

namespace Libc

/-! ## Headers in memory -/

theorem Field.offset_le (f : Field) : f.offset + 4 ≤ headerSize := by
  cases f <;> decide

theorem Field.offset_apart {f g : Field} (h : g ≠ f) :
    g.offset + 4 ≤ f.offset ∨ f.offset + 4 ≤ g.offset := by
  cases f <;> cases g <;> first | exact absurd rfl h | decide

/-- A field is written in its header only. -/
theorem set_apply (m : Mem) {f : Field} {a v x : Nat} (h : x < a ∨ a + headerSize ≤ x) :
    set m f a v x = m x := by
  have hoff := f.offset_le
  rcases h with h | h
  · exact Mem.store_of_lt m (by omega)
  · exact Mem.store_of_ge m (by omega)

theorem get_set_self (m : Mem) (f : Field) (a v : Nat) : get (set m f a v) f a = v % 2 ^ 32 := by
  have hload := Mem.load_store_self m 4 (a + f.offset) v
  have hpow : (256 : Nat) ^ 4 = 2 ^ 32 := by decide
  rw [hpow] at hload
  exact hload

theorem get_set_field (m : Mem) {f g : Field} {a v : Nat} (h : g ≠ f) :
    get (set m f a v) g a = get m g a := by
  have hapart := Field.offset_apart h
  exact Mem.load_store_of_disjoint m (by omega)

theorem get_set_apart (m : Mem) {f g : Field} {a b v : Nat}
    (h : a + headerSize ≤ b ∨ b + headerSize ≤ a) : get (set m f a v) g b = get m g b := by
  have hf := f.offset_le
  have hg := g.offset_le
  exact Mem.load_store_of_disjoint m (by omega)

theorem get_lt (m : Mem) (f : Field) (a : Nat) : get m f a < 2 ^ 32 :=
  Mem.load_lt m 4 (a + f.offset)

/-- The two memories hold the same header at `a`. -/
theorem get_congr {m m' : Mem} {f : Field} {a : Nat} (h : Agree m m' a headerSize) :
    get m' f a = get m f a := by
  have hoff := f.offset_le
  exact Mem.load_congr fun x hlo hhi => h x (by omega) (by omega)

/-- The addresses of headers: none is null and no two overlap. -/
structure Headers (H : List Nat) : Prop where
  apart : ∀ a ∈ H, ∀ b ∈ H, a = b ∨ a + headerSize ≤ b ∨ b + headerSize ≤ a
  pos : ∀ a ∈ H, 0 < a
  lt : ∀ a ∈ H, a < 2 ^ 32

/-- Among headers, a write changes one field of one header. -/
theorem Headers.get_set_mod {H : List Nat} (hH : Headers H) {a b : Nat} (m : Mem) (f g : Field)
    (v : Nat) (ha : a ∈ H) (hb : b ∈ H) :
    get (set m f a v) g b = if g = f ∧ b = a then v % 2 ^ 32 else get m g b := by
  by_cases hba : b = a
  · subst hba
    by_cases hgf : g = f
    · subst hgf
      rw [if_pos ⟨rfl, rfl⟩, get_set_self]
    · rw [if_neg fun h => hgf h.1, get_set_field m hgf]
  · rw [if_neg fun h => hba h.2]
    rcases hH.apart a ha b hb with heq | hap
    · exact absurd heq.symm hba
    · exact get_set_apart m hap

theorem Headers.get_set {H : List Nat} (hH : Headers H) {a b v : Nat} (m : Mem) (f g : Field)
    (ha : a ∈ H) (hb : b ∈ H) (hv : v < 2 ^ 32) :
    get (set m f a v) g b = if g = f ∧ b = a then v else get m g b := by
  rw [hH.get_set_mod m f g v ha hb, Nat.mod_eq_of_lt hv]

/-- `m'` differs from `m` in the headers `H` only. -/
def HeadersOnly (H : List Nat) (m m' : Mem) : Prop :=
  ∀ x, (∀ a ∈ H, x < a ∨ a + headerSize ≤ x) → m' x = m x

theorem HeadersOnly.refl (H : List Nat) (m : Mem) : HeadersOnly H m m := fun _ _ => rfl

theorem HeadersOnly.trans {H : List Nat} {m m' m'' : Mem} (h₁ : HeadersOnly H m m')
    (h₂ : HeadersOnly H m' m'') : HeadersOnly H m m'' :=
  fun x hx => (h₂ x hx).trans (h₁ x hx)

theorem HeadersOnly.mono {H H' : List Nat} {m m' : Mem} (h : HeadersOnly H m m')
    (hsub : ∀ a ∈ H, a ∈ H') : HeadersOnly H' m m' :=
  fun x hx => h x fun a ha => hx a (hsub a ha)

theorem HeadersOnly.set {H : List Nat} {m m' : Mem} (h : HeadersOnly H m m') {a : Nat}
    (ha : a ∈ H) (f : Field) (v : Nat) : HeadersOnly H m (set m' f a v) :=
  fun x hx => (set_apply m' (hx a ha)).trans (h x hx)

/-! ## The free list -/

/-- The free list holds the headers `fl`, in this order. -/
structure FreeList (s : Heap) (fl : List Nat) : Prop where
  head : s.freeList = fl.headD 0
  linked : Linked (get s.mem .nextFree) (get s.mem .prevFree) 0 fl 0
  nodup : fl.Nodup

/-- What an update of the free list leaves alone: the list of all blocks, and every byte
    outside the headers. -/
structure ListUpdate (H : List Nat) (s s' : Heap) : Prop where
  heapHead : s'.heapHead = s.heapHead
  heapTail : s'.heapTail = s.heapTail
  heapCurr : s'.heapCurr = s.heapCurr
  fields : ∀ b ∈ H, ∀ g, g ≠ .nextFree → g ≠ .prevFree → get s'.mem g b = get s.mem g b
  only : HeadersOnly H s.mem s'.mem

section Lists

variable {s : Heap} {H fl l₁ l₂ : List Nat} {a b : Nat}

theorem FreeList.head_mem (h : FreeList s fl) (hne : s.freeList ≠ 0) : s.freeList ∈ fl := by
  rw [h.head] at hne ⊢
  cases fl with
  | nil => exact absurd rfl hne
  | cons c fl => exact List.mem_cons_self

theorem Headers.ne_zero (hH : Headers H) (ha : a ∈ H) : a ≠ 0 :=
  Nat.pos_iff_ne_zero.mp (hH.pos a ha)

/-- A link is null or an address of a header. -/
theorem Headers.link_lt (hH : Headers H) (h : a ≠ 0 → a ∈ H) : a < 2 ^ 32 := by
  by_cases ha : a = 0
  · omega
  · exact hH.lt a (h ha)

/-! ### Putting a block in front -/

/-- The fields after `pushFree` -/
theorem pushFree_get (hH : Headers H) (ha : a ∈ H) (hhead : s.freeList ≠ 0 → s.freeList ∈ H)
    (hb : b ∈ H) (g : Field) :
    get (s.pushFree a).mem g b =
      if g = .prevFree ∧ b = s.freeList then a
      else if g = .prevFree ∧ b = a then 0
      else if g = .nextFree ∧ b = a then s.freeList
      else get s.mem g b := by
  simp only [Heap.pushFree]
  by_cases hnull : s.freeList = 0
  · have hbne : ¬ (g = .prevFree ∧ b = s.freeList) := by
      rw [hnull]
      exact fun h => hH.ne_zero hb h.2
    rw [if_neg hbne, if_neg (not_not_intro hnull), hH.get_set _ _ _ ha hb (by omega),
      hH.get_set _ _ _ ha hb (hH.link_lt hhead)]
  · rw [if_pos hnull, hH.get_set _ _ _ (hhead hnull) hb (hH.lt a ha),
      hH.get_set _ _ _ ha hb (by omega), hH.get_set _ _ _ ha hb (hH.link_lt hhead)]

theorem pushFree_update (hH : Headers H) (ha : a ∈ H)
    (hhead : s.freeList ≠ 0 → s.freeList ∈ H) : ListUpdate H s (s.pushFree a) where
  heapHead := rfl
  heapTail := rfl
  heapCurr := rfl
  fields b hb g hn hp := by
    rw [pushFree_get hH ha hhead hb, if_neg fun h => hp h.1, if_neg fun h => hp h.1,
      if_neg fun h => hn h.1]
  only := by
    have htwo := ((HeadersOnly.refl H s.mem).set ha .nextFree s.freeList).set ha .prevFree 0
    simp only [Heap.pushFree]
    split
    · rename_i hnull
      exact htwo.set (hhead hnull) _ _
    · exact htwo

theorem FreeList.push (h : FreeList s fl) (hH : Headers H) (hsub : ∀ x ∈ fl, x ∈ H)
    (ha : a ∈ H) (hnew : a ∉ fl) : FreeList (s.pushFree a) (a :: fl) := by
  have hget := fun b hb => pushFree_get (b := b) hH ha (fun hne => hsub _ (h.head_mem hne)) hb
  have hne : ∀ x ∈ fl, x ≠ a := fun x hx heq => hnew (heq ▸ hx)
  have hahead : a ≠ s.freeList := fun heq =>
    hnew (heq ▸ h.head_mem fun hz => hH.ne_zero ha (heq.trans hz))
  refine ⟨rfl, linked_cons.mpr ⟨?_, ?_, ?_⟩, List.nodup_cons.mpr ⟨hnew, h.nodup⟩⟩
  · rw [hget a ha, if_neg fun hx => hahead hx.2, if_pos ⟨rfl, rfl⟩]
  · rw [hget a ha, if_neg (by simp), if_neg (by simp), if_pos ⟨rfl, rfl⟩, h.head]
  · -- only the old head sees a link change
    refine h.linked.enter (fun x hx => ?_) (fun x hx => ?_) (fun x hx => ?_)
    · rw [hget x (hsub x hx), if_neg (by simp), if_neg (by simp),
        if_neg fun hx' => hne x hx hx'.2]
    · have hhead : x = s.freeList := by
        rw [h.head, List.headD_eq_head?_getD, hx]
        rfl
      rw [hget x (hsub x (List.mem_of_mem_head? hx)), if_pos ⟨rfl, hhead⟩]
    · have hmem := List.mem_of_mem_tail hx
      have hhead : x ≠ s.freeList := by
        rw [h.head]
        have hnodup := h.nodup
        cases fl with
        | nil => exact absurd hx List.not_mem_nil
        | cons c fl =>
            rintro rfl
            exact (List.nodup_cons.mp hnodup).1 hx
      rw [hget x (hsub x hmem), if_neg fun hx' => hhead hx'.2, if_neg fun hx' => hne x hmem hx'.2,
        if_neg (by simp)]

/-! ### Taking a block out -/

/-- The links of a block in the list -/
theorem FreeList.links (h : FreeList s (l₁ ++ a :: l₂)) :
    get s.mem .prevFree a = l₁.getLastD 0 ∧ get s.mem .nextFree a = l₂.headD 0 := by
  obtain ⟨-, hprev, hnext, -⟩ := linked_append.mp h.linked
  exact ⟨hprev, hnext⟩

theorem getLastD_mem {l : List Nat} (h : l.getLastD 0 ≠ 0) : l.getLastD 0 ∈ l := by
  rcases List.mem_cons.mp (List.getLastD_mem_cons (l := l) (a := 0)) with heq | hmem
  · exact absurd heq h
  · exact hmem

theorem headD_mem {l : List Nat} (h : l.headD 0 ≠ 0) : l.headD 0 ∈ l := by
  cases l with
  | nil => exact absurd rfl h
  | cons c l => exact List.mem_cons_self

/-- A block of the free list and its two links are headers, and the links lead elsewhere. -/
structure Neighbours (H : List Nat) (m : Mem) (a : Nat) : Prop where
  mem : a ∈ H
  prev : get m .prevFree a ≠ 0 → get m .prevFree a ∈ H
  next : get m .nextFree a ≠ 0 → get m .nextFree a ∈ H
  prev_ne : get m .prevFree a ≠ a
  next_ne : get m .nextFree a ≠ a

theorem FreeList.neighbours (h : FreeList s (l₁ ++ a :: l₂)) (hH : Headers H)
    (hsub : ∀ x ∈ l₁ ++ a :: l₂, x ∈ H) : Neighbours H s.mem a := by
  obtain ⟨hprev, hnext⟩ := h.links
  have hmem : a ∈ H := hsub a (by simp)
  have hnodup := h.nodup
  rw [List.nodup_append, List.nodup_cons] at hnodup
  obtain ⟨-, ⟨ha₂, -⟩, hdisjoint⟩ := hnodup
  have ha₁ : a ∉ l₁ := fun ha => hdisjoint a ha a List.mem_cons_self rfl
  refine ⟨hmem, fun hne => ?_, fun hne => ?_, fun heq => ?_, fun heq => ?_⟩
  · rw [hprev] at hne ⊢
    exact hsub _ (List.mem_append_left _ (getLastD_mem hne))
  · rw [hnext] at hne ⊢
    exact hsub _ (List.mem_append_right _ (List.mem_cons_of_mem a (headD_mem hne)))
  · rw [hprev] at heq
    have hin := getLastD_mem (l := l₁) (heq ▸ hH.ne_zero hmem)
    exact ha₁ (heq ▸ hin)
  · rw [hnext] at heq
    have hin := headD_mem (l := l₂) (heq ▸ hH.ne_zero hmem)
    exact ha₂ (heq ▸ hin)

/-- `p` and `n` point at each other, as far as they are there. -/
def bridge (m : Mem) (p n : Nat) : Mem :=
  let m := if p ≠ 0 then set m .nextFree p n else m
  if n ≠ 0 then set m .prevFree n p else m

theorem bridge_get (hH : Headers H) (m : Mem) {p n : Nat} (hp : p ≠ 0 → p ∈ H)
    (hn : n ≠ 0 → n ∈ H) (hb : b ∈ H) (g : Field) :
    get (bridge m p n) g b =
      if g = .prevFree ∧ b = n then p
      else if g = .nextFree ∧ b = p then n
      else get m g b := by
  have hfirst : get (if p ≠ 0 then set m .nextFree p n else m) g b
      = if g = .nextFree ∧ b = p then n else get m g b := by
    split
    · rename_i hne
      exact hH.get_set m _ _ (hp hne) hb (hH.link_lt hn)
    · rename_i hnull
      rw [if_neg fun h => hH.ne_zero hb (h.2.trans (not_not.mp hnull))]
  simp only [bridge]
  by_cases hnull : n = 0
  · have hbn : ¬ (g = .prevFree ∧ b = n) := fun h => hH.ne_zero hb (h.2.trans hnull)
    rw [if_neg (not_not_intro hnull), if_neg hbn, hfirst]
  · rw [if_pos hnull, hH.get_set _ _ _ (hn hnull) hb (hH.link_lt hp), hfirst]

theorem bridge_only (m : Mem) {p n : Nat} (hp : p ≠ 0 → p ∈ H) (hn : n ≠ 0 → n ∈ H) :
    HeadersOnly H m (bridge m p n) := by
  have hfirst : HeadersOnly H m (if p ≠ 0 then set m .nextFree p n else m) := by
    split
    · rename_i hne
      exact (HeadersOnly.refl H m).set (hp hne) _ _
    · exact .refl H m
  simp only [bridge]
  split
  · rename_i hne
    exact hfirst.set (hn hne) _ _
  · exact hfirst

/-- A list whose links are bridged around a block is linked without it. -/
theorem FreeList.unlink (h : FreeList s (l₁ ++ a :: l₂)) (hH : Headers H)
    (hsub : ∀ x ∈ l₁ ++ a :: l₂, x ∈ H) {next' prev' : Nat → Nat}
    (hnext : ∀ b ∈ l₁ ++ l₂, next' b
      = get (bridge s.mem (get s.mem .prevFree a) (get s.mem .nextFree a)) .nextFree b)
    (hprev : ∀ b ∈ l₁ ++ l₂, prev' b
      = get (bridge s.mem (get s.mem .prevFree a) (get s.mem .nextFree a)) .prevFree b) :
    Linked next' prev' 0 (l₁ ++ l₂) 0 := by
  have hzero : 0 ∉ l₁ ++ a :: l₂ := fun hz => hH.ne_zero (hsub 0 hz) rfl
  have hn := h.neighbours hH hsub
  refine Linked.congr ?_ hnext hprev
  refine h.linked.unlink h.nodup hzero hzero (fun b hb => ?_) (fun b hb => ?_)
  · rw [bridge_get hH s.mem hn.prev hn.next (hsub b hb), if_neg (by simp)]
    simp only [true_and]
  · rw [bridge_get hH s.mem hn.prev hn.next (hsub b hb)]
    simp only [true_and, reduceCtorEq, false_and, if_false]

/-- The head of the list without a block -/
theorem FreeList.head_unlink (h : FreeList s (l₁ ++ a :: l₂)) :
    (l₁ ++ l₂).headD 0 = if s.freeList = a then get s.mem .nextFree a else s.freeList := by
  have hnext := h.links.2
  have hhead := h.head
  have hnodup := h.nodup
  cases l₁ with
  | nil =>
      have hheadIs : s.freeList = a := hhead
      rw [if_pos hheadIs, hnext, List.nil_append]
  | cons c l₁ =>
      have hheadIs : s.freeList = c := hhead
      have hca : c ≠ a := fun heq => (List.nodup_cons.mp hnodup).1 (by simp [heq])
      rw [if_neg fun heq => hca (hheadIs.symm.trans heq), hheadIs]
      rfl

theorem bridgeFree_mem (hH : Headers H) (hn : Neighbours H s.mem a) :
    (s.bridgeFree a).mem
      = bridge s.mem (get s.mem .prevFree a) (get s.mem .nextFree a) := by
  -- the first store does not change the links of `a` itself
  have hfirst : ∀ f, get (if get s.mem .prevFree a ≠ 0 then
      set s.mem .nextFree (get s.mem .prevFree a) (get s.mem .nextFree a) else s.mem) f a
        = get s.mem f a := by
    intro f
    split
    · rename_i hne
      rw [hH.get_set _ _ _ (hn.prev hne) hn.mem (get_lt _ _ _), if_neg fun h => hn.prev_ne h.2.symm]
    · rfl
  simp only [Heap.bridgeFree, hfirst, bridge]

theorem bridgeFree_update (hH : Headers H) (hn : Neighbours H s.mem a) :
    ListUpdate H s (s.bridgeFree a) where
  heapHead := by simp only [Heap.bridgeFree]
  heapTail := by simp only [Heap.bridgeFree]
  heapCurr := by simp only [Heap.bridgeFree]
  fields b hb g hnf hpf := by
    rw [bridgeFree_mem hH hn, bridge_get hH s.mem hn.prev hn.next hb, if_neg fun h => hpf h.1,
      if_neg fun h => hnf h.1]
  only := by
    rw [bridgeFree_mem hH hn]
    exact bridge_only s.mem hn.prev hn.next

theorem FreeList.bridge (h : FreeList s (l₁ ++ a :: l₂)) (hH : Headers H)
    (hsub : ∀ x ∈ l₁ ++ a :: l₂, x ∈ H) : FreeList (s.bridgeFree a) (l₁ ++ l₂) := by
  have hn := h.neighbours hH hsub
  have hmem := bridgeFree_mem hH hn
  have hfreeList : (s.bridgeFree a).freeList
      = if s.freeList = a then get (s.bridgeFree a).mem .nextFree a else s.freeList := by
    simp only [Heap.bridgeFree]
  refine ⟨?_, h.unlink hH hsub (fun b _ => by rw [hmem]) (fun b _ => by rw [hmem]), ?_⟩
  · have hlink : get (s.bridgeFree a).mem .nextFree a = get s.mem .nextFree a := by
      rw [hmem, bridge_get hH s.mem hn.prev hn.next hn.mem, if_neg (by simp),
        if_neg fun heq => hn.prev_ne heq.2.symm]
    rw [h.head_unlink, ← hlink, hfreeList]
  · exact h.nodup.sublist (List.Sublist.append_left (List.sublist_cons_self a l₂) l₁)

/-- `_remove_from_free_list` bridges, and clears the links of the block. -/
theorem removeFromFreeList_eq (hne : a ≠ 0) :
    s.removeFromFreeList a =
      { s with
        freeList := if get s.mem .prevFree a = 0 then get s.mem .nextFree a else s.freeList
        mem := set (set (Libc.bridge s.mem (get s.mem .prevFree a) (get s.mem .nextFree a))
          .nextFree a 0) .prevFree a 0 } := by
  by_cases hp : get s.mem .prevFree a = 0 <;> by_cases hx : get s.mem .nextFree a = 0 <;>
    simp [Heap.removeFromFreeList, Heap.setMem, Libc.bridge, hne, hp, hx]

theorem removeFromFreeList_update (hH : Headers H) (hn : Neighbours H s.mem a) :
    ListUpdate H s (s.removeFromFreeList a) := by
  rw [removeFromFreeList_eq (hH.ne_zero hn.mem)]
  refine ⟨rfl, rfl, rfl, fun b hb g hnf hpf => ?_, ?_⟩
  · simp only
    rw [hH.get_set _ _ _ hn.mem hb (by omega), if_neg fun h => hpf h.1,
      hH.get_set _ _ _ hn.mem hb (by omega), if_neg fun h => hnf h.1,
      bridge_get hH s.mem hn.prev hn.next hb, if_neg fun h => hpf h.1, if_neg fun h => hnf h.1]
  · exact ((bridge_only s.mem hn.prev hn.next).set hn.mem _ _).set hn.mem _ _

theorem FreeList.remove (h : FreeList s (l₁ ++ a :: l₂)) (hH : Headers H)
    (hsub : ∀ x ∈ l₁ ++ a :: l₂, x ∈ H) : FreeList (s.removeFromFreeList a) (l₁ ++ l₂) := by
  have hn := h.neighbours hH hsub
  have hnodup := h.nodup
  rw [List.nodup_append, List.nodup_cons] at hnodup
  obtain ⟨-, ⟨ha₂, -⟩, hdisjoint⟩ := hnodup
  have hgone : ∀ b ∈ l₁ ++ l₂, b ≠ a := by
    rintro b hb rfl
    rcases List.mem_append.mp hb with hb | hb
    · exact hdisjoint b hb b List.mem_cons_self rfl
    · exact ha₂ hb
  have hin : ∀ b ∈ l₁ ++ l₂, b ∈ H := fun b hb => hsub b <| by
    rcases List.mem_append.mp hb with hb | hb
    · exact List.mem_append_left _ hb
    · exact List.mem_append_right _ (List.mem_cons_of_mem a hb)
  have hclear : ∀ f, ∀ b ∈ l₁ ++ l₂, get (s.removeFromFreeList a).mem f b
      = get (Libc.bridge s.mem (get s.mem .prevFree a) (get s.mem .nextFree a)) f b := by
    intro f b hb
    rw [removeFromFreeList_eq (hH.ne_zero hn.mem)]
    simp only
    rw [hH.get_set _ _ _ hn.mem (hin b hb) (by omega), if_neg fun h => hgone b hb h.2,
      hH.get_set _ _ _ hn.mem (hin b hb) (by omega), if_neg fun h => hgone b hb h.2]
  refine ⟨?_, h.unlink hH hsub (hclear .nextFree) (hclear .prevFree), ?_⟩
  · -- the block is the head exactly when nothing is linked in front of it
    have hiff : get s.mem .prevFree a = 0 ↔ s.freeList = a := by
      rw [h.links.1, h.head]
      cases l₁ with
      | nil => exact ⟨fun _ => rfl, fun _ => rfl⟩
      | cons c l₁ =>
          have hca : c ≠ a := hgone c (by simp)
          have hlast : (c :: l₁).getLastD 0 ∈ c :: l₁ := by
            rw [List.getLastD_cons]
            exact List.getLastD_mem_cons
          have hpos := hH.ne_zero (hsub _ (List.mem_append_left _ hlast))
          exact ⟨fun hz => absurd hz hpos, fun heq => absurd heq hca⟩
    rw [h.head_unlink, removeFromFreeList_eq (hH.ne_zero hn.mem)]
    simp only [hiff]
  · exact h.nodup.sublist (List.Sublist.append_left (List.sublist_cons_self a l₂) l₁)

end Lists

end Libc

end Icarius
