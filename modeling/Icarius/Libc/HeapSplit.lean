/-
  Icarius.Libc.HeapSplit

  The two ways `malloc` makes a block: `_split_block` cuts one off a free block, and
  `_make_new_block` puts one behind the last.  What is said of each is the list of blocks
  and the free list it leaves, and that nothing but headers was written.
-/

import Icarius.Libc.HeapBlocks

namespace Icarius

open Icarius.Lib

namespace Libc

section Rules

variable {s s' : Heap} {bs l₁ l₂ : List Block} {b c : Block} {fl : List Nat}

/-! ## Splitting a block -/

/-- What `_split_block` does to the list of all blocks: the block `n` comes behind `a`. -/
def linkAfter (m : Mem) (a n : Nat) : Mem :=
  let m := set m .next n (get m .next a)
  let m := set m .prev n a
  let m := if get m .next a ≠ 0 then set m .prev (get m .next a) n else m
  set m .next a n

theorem linkAfter_get {H : List Nat} (hH : Headers H) (m : Mem) {a n x : Nat} (ha : a ∈ H)
    (hn : n ∈ H) (hne : a ≠ n) (hnext : get m .next a ≠ 0 → get m .next a ∈ H) (hx : x ∈ H)
    (g : Field) :
    get (linkAfter m a n) g x =
      if g = .next ∧ x = a then n
      else if g = .prev ∧ x = get m .next a then n
      else if g = .prev ∧ x = n then a
      else if g = .next ∧ x = n then get m .next a
      else get m g x := by
  have hlt := get_lt m .next a
  have hnlt := hH.lt n hn
  have halt := hH.lt a ha
  have hkeep : get (set (set m .next n (get m .next a)) .prev n a) .next a = get m .next a := by
    rw [hH.get_set _ _ _ hn ha halt, if_neg fun h => hne h.2, hH.get_set _ _ _ hn ha hlt,
      if_neg fun h => hne h.2]
  simp only [linkAfter, hkeep]
  rw [hH.get_set _ _ _ ha hx hnlt]
  split
  · rfl
  · split
    · rename_i hnull
      rw [hH.get_set _ _ _ (hnext hnull) hx hnlt, hH.get_set _ _ _ hn hx halt,
        hH.get_set _ _ _ hn hx hlt]
    · rename_i hnull
      have hxn : ¬ (g = .prev ∧ x = get m .next a) := fun h =>
        hH.ne_zero hx (h.2.trans (not_not.mp hnull))
      rw [if_neg hxn, hH.get_set _ _ _ hn hx halt, hH.get_set _ _ _ hn hx hlt]

theorem linkAfter_only {H : List Nat} (hH : Headers H) (m : Mem) {a n : Nat} (ha : a ∈ H)
    (hn : n ∈ H) (hne : a ≠ n) (hnext : get m .next a ≠ 0 → get m .next a ∈ H) :
    HeadersOnly H m (linkAfter m a n) := by
  have hkeep : get (set (set m .next n (get m .next a)) .prev n a) .next a = get m .next a := by
    rw [hH.get_set _ _ _ hn ha (hH.lt a ha), if_neg fun h => hne h.2,
      hH.get_set _ _ _ hn ha (get_lt m .next a), if_neg fun h => hne h.2]
  have htwo := ((HeadersOnly.refl H m).set hn .next (get m .next a)).set hn .prev a
  simp only [linkAfter, hkeep]
  split
  · rename_i hnull
    exact (htwo.set (hnext hnull) _ _).set ha _ _
  · exact htwo.set ha _ _

/-- The header of a block that is split off, and the block in front of the free list -/
def carve (s : Heap) (n size : Nat) : Heap :=
  (s.setMem (set (set s.mem .free n 1) .size n size)).pushFree n

/-- `_split_block`, when the new block is within the heap -/
theorem splitBlock_eq {a A n : Nat} (hn : n = a + headerSize + A)
    (hin : n + headerSize ≤ userHeapEnd) (hne : a + headerSize ≤ n) :
    s.splitBlock a A =
      let t := carve s n (get s.mem .size a + 2 ^ 32 - A - headerSize)
      let m := set (linkAfter t.mem a n) .size a A
      { t with mem := m, heapTail := if get m .next n = 0 then n else t.heapTail } := by
  have hend : userHeapEnd < 2 ^ 32 := by decide
  have hlt : (a + headerSize + A) % 2 ^ 32 = n := by
    rw [hn]
    exact Nat.mod_eq_of_lt (by omega)
  have hroom : ¬ (n + headerSize) % 2 ^ 32 > userHeapEnd := by
    rw [Nat.mod_eq_of_lt (by omega)]
    omega
  have hsize : get (set s.mem .free n 1) .size a = get s.mem .size a :=
    get_set_apart s.mem (.inr hne)
  simp only [Heap.splitBlock, hlt, if_neg hroom, hsize]
  rfl

section Split

variable {A : Nat}

theorem tiles_split {lo hi : Nat} (h : Tiles Block.addr Block.len lo (l₁ ++ b :: l₂) hi)
    (hA : A + headerSize ≤ b.size) :
    Tiles Block.addr Block.len lo (l₁ ++ b.front A :: b.rest A :: l₂) hi := by
  rw [tiles_append] at h ⊢
  obtain ⟨mid, hfront, hpos, hback⟩ := h
  have hlen : mid + (b.front A).len + (b.rest A).len = mid + b.len := by
    simp only [Block.front, Block.rest, Block.len]
    omega
  refine ⟨mid, hfront, hpos, ?_, ?_⟩
  · simp only [Block.front, Block.rest, Block.len]
    omega
  · rw [hlen]
    exact hback

theorem Blocks.split_headers (h : Blocks s (l₁ ++ b :: l₂)) (hA : A + headerSize ≤ b.size) :
    Headers (addrs (l₁ ++ b.front A :: b.rest A :: l₂)) :=
  headers_of_tiles (tiles_split h.tiles hA) h.room

/-- The headers of the list before the split are headers of the list after it. -/
theorem mem_addrs_split {x : Nat} (hx : x ∈ addrs (l₁ ++ b :: l₂)) :
    x ∈ addrs (l₁ ++ b.front A :: b.rest A :: l₂) := by
  simp only [addrs_append, addrs_cons, List.mem_append, List.mem_cons, Block.front] at hx ⊢
  tauto

theorem Blocks.rest_new (h : Blocks s (l₁ ++ b :: l₂)) (hA : A + headerSize ≤ b.size) :
    ∀ x ∈ addrs (l₁ ++ b :: l₂), x ≠ (b.rest A).addr := by
  have hnodup := (tiles_split h.tiles hA).nodup_map Block.len_pos
  rw [List.map_append, List.map_cons, List.map_cons, List.nodup_append, List.nodup_cons,
    List.nodup_cons] at hnodup
  obtain ⟨-, ⟨hfront, hback, -⟩, hdisjoint⟩ := hnodup
  intro x hx heq
  rw [addrs_append, addrs_cons] at hx
  rcases List.mem_append.mp hx with hx | hx
  · exact hdisjoint x hx _ (by simp) heq
  · rcases List.mem_cons.mp hx with hx | hx
    · exact hfront (List.mem_cons.mpr (.inl (hx.symm.trans heq)))
    · exact hback (heq ▸ hx)

/-- The fields of the block list after the header of the new block is written -/
theorem carve_get {H : List Nat} (hH : Headers H) {n v x : Nat} (hn : n ∈ H) (hx : x ∈ H)
    (hhead : s.freeList ≠ 0 → s.freeList ∈ H) {g : Field} (hnf : g ≠ .nextFree)
    (hpf : g ≠ .prevFree) :
    get (carve s n v).mem g x =
      if g = .size ∧ x = n then v % 2 ^ 32
      else if g = .free ∧ x = n then 1
      else get s.mem g x := by
  have hup := pushFree_update (s := s.setMem (set (set s.mem .free n 1) .size n v)) hH hn hhead
  refine (hup.fields x hx g hnf hpf).trans ?_
  simp only [Heap.setMem]
  rw [hH.get_set_mod _ _ _ _ hn hx, hH.get_set _ _ _ hn hx (by omega)]

theorem carve_list {H : List Nat} (hH : Headers H) (h : FreeList s fl)
    (hsub : ∀ x ∈ fl, x ∈ H) {n v : Nat} (hn : n ∈ H) (hnew : n ∉ fl) :
    FreeList (carve s n v) (n :: fl) := by
  have hkeep : ∀ g, g ≠ .size → g ≠ .free → ∀ x ∈ fl,
      get (set (set s.mem .free n 1) .size n v) g x = get s.mem g x := by
    intro g hsize hfree x hx
    rw [hH.get_set_mod _ _ _ _ hn (hsub x hx), if_neg fun heq => hsize heq.1,
      hH.get_set _ _ _ hn (hsub x hx) (by omega), if_neg fun heq => hfree heq.1]
  have hframed : FreeList (s.setMem (set (set s.mem .free n 1) .size n v)) fl :=
    h.congr rfl (hkeep .nextFree (by simp) (by simp)) (hkeep .prevFree (by simp) (by simp))
  exact hframed.push hH hsub hn hnew

theorem carve_only {H : List Nat} (hH : Headers H) {n v : Nat} (hn : n ∈ H)
    (hhead : s.freeList ≠ 0 → s.freeList ∈ H) : HeadersOnly H s.mem (carve s n v).mem := by
  have hup := pushFree_update (s := s.setMem (set (set s.mem .free n 1) .size n v)) hH hn hhead
  exact (((HeadersOnly.refl H s.mem).set hn .free 1).set hn .size v).trans hup.only

/-- What `_split_block` leaves behind -/
structure Split (s : Heap) (l₁ l₂ : List Block) (b : Block) (A : Nat) (fl : List Nat)
    (s' : Heap) : Prop where
  blocks : Blocks s' (l₁ ++ b.front A :: b.rest A :: l₂)
  list : FreeList s' ((b.rest A).addr :: fl)
  only : HeadersOnly (addrs (l₁ ++ b.front A :: b.rest A :: l₂)) s.mem s'.mem
  heapCurr : s'.heapCurr = s.heapCurr
  tail : s.heapTail = (addrs (l₁ ++ b :: l₂)).getLastD 0 →
    s'.heapTail = (addrs (l₁ ++ b.front A :: b.rest A :: l₂)).getLastD 0

theorem Blocks.split (h : Blocks s (l₁ ++ b :: l₂)) (hlist : FreeList s fl)
    (hsub : ∀ x ∈ fl, x ∈ addrs (l₁ ++ b :: l₂)) (hA : A + headerSize ≤ b.size) :
    Split s l₁ l₂ b A fl (s.splitBlock b.addr A) := by
  have hH := h.split_headers hA
  have htiles := tiles_split h.tiles hA
  have hb : b ∈ l₁ ++ b :: l₂ := by simp
  have hfront : b.addr ∈ addrs (l₁ ++ b.front A :: b.rest A :: l₂) := by simp [Block.front]
  have hrest : (b.rest A).addr ∈ addrs (l₁ ++ b.front A :: b.rest A :: l₂) := by simp
  have hbn : b.addr ≠ (b.rest A).addr := h.rest_new hA _ (mem_addrs hb)
  have hsub' : ∀ x ∈ fl, x ∈ addrs (l₁ ++ b.front A :: b.rest A :: l₂) := fun x hx =>
    mem_addrs_split (hsub x hx)
  have hhead : s.freeList ≠ 0 → s.freeList ∈ addrs (l₁ ++ b.front A :: b.rest A :: l₂) :=
    fun hne => hsub' _ (hlist.head_mem hne)
  have hnew : (b.rest A).addr ∉ fl := fun hx => h.rest_new hA _ (hsub _ hx) rfl
  have hin := (htiles.bounds (a := b.rest A) (by simp)).2
  have hroom := h.room
  have hend : userHeapEnd < 2 ^ 32 := by decide
  have hsize := h.size b hb
  have hlen := (h.bounds hb).2
  simp only [Block.len] at hin hlen
  have heq := splitBlock_eq (s := s) (a := b.addr) (A := A) (n := (b.rest A).addr) rfl
    (by omega) (by simp only [Block.rest]; omega)
  have hv : (get s.mem .size b.addr + 2 ^ 32 - A - headerSize) % 2 ^ 32
      = b.size - A - headerSize := by
    rw [hsize]
    omega
  set v := get s.mem .size b.addr + 2 ^ 32 - A - headerSize with hvdef
  set t := carve s (b.rest A).addr v with ht
  have htget := fun x hx g (hnf : g ≠ Field.nextFree) (hpf : g ≠ Field.prevFree) =>
    carve_get (v := v) (x := x) hH hrest hx hhead hnf hpf
  have htlist := carve_list (v := v) hH hlist hsub' hrest hnew
  rw [← ht] at htlist htget
  have hnextIs : get t.mem .next b.addr = (addrs l₂).headD 0 := by
    rw [htget _ hfront .next (by simp) (by simp), if_neg (by simp), if_neg (by simp)]
    exact h.links.2
  have hnextIn : get t.mem .next b.addr ≠ 0
      → get t.mem .next b.addr ∈ addrs (l₁ ++ b.front A :: b.rest A :: l₂) := by
    rw [hnextIs]
    intro hne
    have hmem := headD_mem hne
    simp only [addrs_append, addrs_cons, List.mem_append, List.mem_cons]
    exact .inr (.inr (.inr hmem))
  have hAlt : A < 2 ^ 32 := by omega
  -- every field after the split, from what `_split_block` stores
  have hget : ∀ x ∈ addrs (l₁ ++ b.front A :: b.rest A :: l₂), ∀ g,
      get (s.splitBlock b.addr A).mem g x =
        if g = .size ∧ x = b.addr then A
        else if g = .next ∧ x = b.addr then (b.rest A).addr
        else if g = .prev ∧ x = get t.mem .next b.addr then (b.rest A).addr
        else if g = .prev ∧ x = (b.rest A).addr then b.addr
        else if g = .next ∧ x = (b.rest A).addr then get t.mem .next b.addr
        else get t.mem g x := by
    intro x hx g
    rw [heq]
    simp only
    rw [hH.get_set _ _ _ hfront hx hAlt, linkAfter_get hH _ hfront hrest hbn hnextIn hx]
  have hold : ∀ x ∈ addrs (l₁ ++ b :: l₂), ∀ g, g ≠ .nextFree → g ≠ .prevFree →
      get t.mem g x = get s.mem g x := by
    intro x hx g hnf hpf
    have hxn := h.rest_new hA x hx
    rw [htget x (mem_addrs_split hx) g hnf hpf, if_neg fun hx' => hxn hx'.2,
      if_neg fun hx' => hxn hx'.2]
  have hcurr : (s.splitBlock b.addr A).heapCurr = s.heapCurr := by
    rw [heq]
    rfl
  have hheads : (s.splitBlock b.addr A).heapHead = s.heapHead := by
    rw [heq]
    rfl
  have hothers : ∀ c ∈ l₁ ++ l₂, c.addr ≠ b.addr ∧ c.addr ≠ (b.rest A).addr := fun c hc =>
    ⟨h.others c hc, h.rest_new hA _ (mem_addrs (mem_middle.mpr (.inr hc)))⟩
  refine ⟨⟨?_, ?_, ?_, ?_, fun c hc => ?_, fun c hc => ?_⟩, ?_, ?_, hcurr, fun htail => ?_⟩
  · rw [hcurr]
    exact htiles
  · rw [hcurr]
    exact hroom
  · rw [hheads, h.head]
    simp only [addrs_append, addrs_cons, headD_append, List.headD_cons, Block.front]
  · have hlinked : Linked (get t.mem .next) (get t.mem .prev) 0 (addrs l₁ ++ b.addr :: addrs l₂) 0 := by
      rw [← addrs_cons, ← addrs_append]
      exact h.linked.congr (fun x hx => hold x hx .next (by simp) (by simp))
        (fun x hx => hold x hx .prev (by simp) (by simp))
    have hnodup := htiles.nodup_map Block.len_pos
    have hins : addrs (l₁ ++ b.front A :: b.rest A :: l₂)
        = addrs l₁ ++ b.addr :: (b.rest A).addr :: addrs l₂ := by
      simp [Block.front]
    rw [hins] at hH hget ⊢
    refine hlinked.insert ?_ (fun hz => hH.ne_zero hz rfl) (fun x hx => ?_) (fun x hx => ?_)
    · rw [← hins]
      exact hnodup
    · rw [hget x hx]
      simp only [true_and, reduceCtorEq, false_and, if_false]
    · rw [hget x hx]
      simp only [true_and, reduceCtorEq, false_and, if_false]
  · rw [hget _ (mem_addrs hc)]
    rcases mem_middle.mp hc with rfl | hc
    · exact if_pos ⟨rfl, rfl⟩
    · have hnb : c.addr ≠ b.addr := by
        rcases mem_middle.mp hc with rfl | hc
        · exact hbn.symm
        · exact (hothers c hc).1
      rw [if_neg fun hx => hnb hx.2]
      simp only [reduceCtorEq, false_and, if_false]
      rcases mem_middle.mp hc with rfl | hc
      · rw [htget _ hrest .size (by simp) (by simp), if_pos ⟨rfl, rfl⟩, hv]
        rfl
      · have hin' : c ∈ l₁ ++ b :: l₂ := mem_middle.mpr (.inr hc)
        rw [hold _ (mem_addrs hin') .size (by simp) (by simp)]
        exact h.size c hin'
  · rw [hget _ (mem_addrs hc)]
    simp only [reduceCtorEq, false_and, if_false]
    rcases mem_middle.mp hc with rfl | hc
    · exact (hold _ (mem_addrs hb) .free (by simp) (by simp)).trans (h.free b hb)
    · rcases mem_middle.mp hc with rfl | hc
      · rw [htget _ hrest .free (by simp) (by simp), if_neg (by simp), if_pos ⟨rfl, rfl⟩]
        rfl
      · have hin' : c ∈ l₁ ++ b :: l₂ := mem_middle.mpr (.inr hc)
        rw [hold _ (mem_addrs hin') .free (by simp) (by simp)]
        exact h.free c hin'
  · have hall : ∀ x ∈ (b.rest A).addr :: fl, x ∈ addrs (l₁ ++ b.front A :: b.rest A :: l₂) := by
      intro x hx
      rcases List.mem_cons.mp hx with rfl | hx
      · exact hrest
      · exact hsub' x hx
    refine htlist.congr ?_ (fun x hx => ?_) (fun x hx => ?_)
    · rw [heq]
    · rw [hget x (hall x hx)]
      simp only [reduceCtorEq, false_and, if_false]
    · rw [hget x (hall x hx)]
      simp only [reduceCtorEq, false_and, if_false]
  · rw [heq]
    exact ((carve_only hH hrest hhead).trans
      (linkAfter_only hH t.mem hfront hrest hbn hnextIn)).set hfront .size A
  · have hlink := hget _ hrest .next
    simp only [true_and, reduceCtorEq, false_and, if_false, if_neg hbn.symm, if_true] at hlink
    rw [hnextIs] at hlink
    have htailIs : (s.splitBlock b.addr A).heapTail
        = if get (s.splitBlock b.addr A).mem .next (b.rest A).addr = 0 then (b.rest A).addr
          else s.heapTail := by
      rw [heq]
      rfl
    rw [htailIs, hlink, htail]
    cases l₂ with
    | nil => simp
    | cons d l₂ =>
        have hd : d.addr ≠ 0 := hH.ne_zero (mem_addrs (by simp))
        simp only [addrs_cons, List.headD_cons, if_neg hd, addrs_append, getLastD_append,
          List.getLastD_cons]

end Split

/-! ## Appending a block -/

section Append

variable {A : Nat}

/-- The header `_make_new_block` writes behind the block `tail` -/
def freshField (tail alignedSize : Nat) : Field → Nat
  | .size => alignedSize
  | .prev => tail
  | _ => 0

/-- `_make_new_block`, when there is room -/
theorem makeNewBlock_eq (hroom : s.heapCurr + (A + headerSize) < userHeapEnd) :
    s.makeNewBlock A = (s.heapCurr + headerSize,
      let n := s.heapCurr
      let m := set (set (set (set s.mem .free n 0) .size n A) .next n 0) .prev n s.heapTail
      let m := if s.heapHead = 0 then m else set (set m .next s.heapTail n) .prev n s.heapTail
      { s with
        mem := set (set m .prevFree n 0) .nextFree n 0
        heapHead := if s.heapHead = 0 then n else s.heapHead
        heapTail := n
        heapCurr := n + (A + headerSize) }) := by
  have hend : userHeapEnd < 2 ^ 32 := by decide
  have hsize : (A + headerSize) % 2 ^ 32 = A + headerSize := Nat.mod_eq_of_lt (by omega)
  have hsum : (s.heapCurr + (A + headerSize)) % 2 ^ 32 = s.heapCurr + (A + headerSize) :=
    Nat.mod_eq_of_lt (by omega)
  have hguard : ¬ s.heapCurr + (A + headerSize) ≥ userHeapEnd := by omega
  simp only [Heap.makeNewBlock, hsize, hsum, if_neg hguard]
  by_cases hh : s.heapHead = 0
  · simp only [hh, if_true, hsum]
  · simp only [hh, if_false, hsum]

theorem makeNewBlock_get {H : List Nat} (hH : Headers H) (hcurr : s.heapCurr ∈ H)
    (htail : s.heapHead ≠ 0 → s.heapTail ∈ H ∧ s.heapTail ≠ s.heapCurr)
    (hlt : s.heapTail < 2 ^ 32) (hroom : s.heapCurr + (A + headerSize) < userHeapEnd) {x : Nat}
    (hx : x ∈ H) (g : Field) :
    get (s.makeNewBlock A).2.mem g x =
      if x = s.heapCurr then freshField s.heapTail A g
      else if g = .next ∧ s.heapHead ≠ 0 ∧ x = s.heapTail then s.heapCurr
      else get s.mem g x := by
  have hend : userHeapEnd < 2 ^ 32 := by decide
  have hA : A < 2 ^ 32 := by omega
  have hcurrlt := hH.lt _ hcurr
  rw [makeNewBlock_eq hroom]
  simp only
  rw [hH.get_set _ _ _ hcurr hx (by omega), hH.get_set _ _ _ hcurr hx (by omega)]
  have hfour : ∀ f, get (set (set (set (set s.mem .free s.heapCurr 0) .size s.heapCurr A)
      .next s.heapCurr 0) .prev s.heapCurr s.heapTail) f x
        = if f = .prev ∧ x = s.heapCurr then s.heapTail
          else if f = .next ∧ x = s.heapCurr then 0
          else if f = .size ∧ x = s.heapCurr then A
          else if f = .free ∧ x = s.heapCurr then 0
          else get s.mem f x := by
    intro f
    rw [hH.get_set _ _ _ hcurr hx hlt, hH.get_set _ _ _ hcurr hx (by omega),
      hH.get_set _ _ _ hcurr hx hA, hH.get_set _ _ _ hcurr hx (by omega)]
  by_cases hh : s.heapHead = 0
  · rw [if_pos hh, hfour]
    by_cases hxc : x = s.heapCurr
    · cases g <;> simp [hxc, freshField]
    · simp [hxc, hh]
  · obtain ⟨htailIn, htailNe⟩ := htail hh
    rw [if_neg hh, hH.get_set _ _ _ hcurr hx hlt, hH.get_set _ _ _ htailIn hx hcurrlt, hfour]
    by_cases hxc : x = s.heapCurr
    · cases g <;> simp [hxc, freshField, htailNe.symm]
    · simp [hxc, hh]

theorem makeNewBlock_only {H : List Nat} (hcurr : s.heapCurr ∈ H)
    (htail : s.heapHead ≠ 0 → s.heapTail ∈ H)
    (hroom : s.heapCurr + (A + headerSize) < userHeapEnd) :
    HeadersOnly H s.mem (s.makeNewBlock A).2.mem := by
  rw [makeNewBlock_eq hroom]
  have hfour := ((((HeadersOnly.refl H s.mem).set hcurr .free 0).set hcurr .size A).set hcurr
    .next 0).set hcurr .prev s.heapTail
  by_cases hh : s.heapHead = 0
  · simp only [if_pos hh]
    exact (hfour.set hcurr _ _).set hcurr _ _
  · simp only [if_neg hh]
    exact (((hfour.set (htail hh) _ _).set hcurr _ _).set hcurr _ _).set hcurr _ _

/-- The block `_make_new_block` makes -/
def Heap.freshBlock (s : Heap) (alignedSize : Nat) : Block := ⟨s.heapCurr, alignedSize, false⟩

theorem WellFormed.makeNewBlock (h : WellFormed s bs fl)
    (hroom : s.heapCurr + (A + headerSize) < userHeapEnd) :
    WellFormed (s.makeNewBlock A).2 (bs ++ [s.freshBlock A]) fl ∧
      HeadersOnly (addrs (bs ++ [s.freshBlock A])) s.mem (s.makeNewBlock A).2.mem := by
  have htiles : Tiles Block.addr Block.len userHeapStart (bs ++ [s.freshBlock A])
      (s.heapCurr + (A + headerSize)) := by
    rw [tiles_append]
    refine ⟨s.heapCurr, h.blocks.tiles, rfl, ?_⟩
    simp only [tiles_nil, Block.len, Heap.freshBlock]
    omega
  have hH := headers_of_tiles htiles (Nat.le_of_lt hroom)
  have hcurr : s.heapCurr ∈ addrs (bs ++ [s.freshBlock A]) := by simp [Heap.freshBlock]
  -- the blocks there were lie below `heap_curr`, so the new header is none of theirs
  have hold : ∀ x ∈ addrs bs, x ∈ addrs (bs ++ [s.freshBlock A]) ∧ x ≠ s.heapCurr := by
    intro x hx
    obtain ⟨c, hc, rfl⟩ := List.mem_map.mp hx
    have hin := (h.blocks.bounds hc).2
    have hpos := c.len_pos
    exact ⟨by simp [mem_addrs hc], by omega⟩
  have hheadIff : s.heapHead = 0 ↔ bs = [] := by
    rw [h.blocks.head]
    cases bs with
    | nil => simp
    | cons c bs =>
        have hc := h.blocks.headers.ne_zero (mem_addrs (b := c) (by simp))
        simpa using hc
  have htail : s.heapHead ≠ 0 → s.heapTail ∈ addrs bs := by
    intro hne
    have hbs : bs ≠ [] := fun heq => hne (hheadIff.mpr heq)
    rw [h.tail]
    cases bs with
    | nil => exact absurd rfl hbs
    | cons c bs =>
        rw [addrs_cons, List.getLastD_cons]
        exact List.getLastD_mem_cons
  -- the old tail is an address of 32 bits, or null on an empty list
  have hlt : s.heapTail < 2 ^ 32 := by
    by_cases hz : s.heapTail = 0
    · omega
    · refine h.blocks.headers.lt _ ?_
      rw [h.tail] at hz ⊢
      exact getLastD_mem hz
  -- of the old headers only the `next` of the old tail is written
  have hget := fun x hx g => makeNewBlock_get (A := A) (x := x) hH hcurr
    (fun hne => hold _ (htail hne)) hlt hroom hx g
  have hgetOld : ∀ x ∈ addrs bs, ∀ g, g ≠ .next →
      get (s.makeNewBlock A).2.mem g x = get s.mem g x := by
    intro x hx g hg
    rw [hget x (hold x hx).1, if_neg (hold x hx).2, if_neg fun hx' => hg hx'.1]
  have hgetNew := fun g => (hget _ hcurr g).trans (if_pos rfl)
  have heq := makeNewBlock_eq hroom
  refine ⟨⟨⟨⟨?_, ?_, ?_, ?_, fun c hc => ?_, fun c hc => ?_⟩, ?_, fun a => ?_⟩, ?_⟩, ?_⟩
  · rw [heq]
    exact htiles
  · rw [heq]
    exact Nat.le_of_lt hroom
  · -- the head stays, or the new block is the first one
    rw [heq]
    simp only [addrs_append, headD_append, hheadIff]
    cases bs with
    | nil => rfl
    | cons c bs => exact h.blocks.head
  · rw [addrs_append, linked_append]
    refine ⟨h.blocks.linked.leave (fun x hx => ?_) (fun x hx => ?_) (fun x hx => ?_), ?_⟩
    · -- the nodes in front of the tail
      have hxin := List.dropLast_subset _ hx
      have hxt : x ≠ s.heapTail := by
        rw [h.tail]
        exact ne_getLastD_of_mem_dropLast (h.blocks.tiles.nodup_map Block.len_pos) hx
      rw [hget x (hold x hxin).1, if_neg (hold x hxin).2, if_neg fun hx' => hxt hx'.2.2]
    · -- the old tail, which is linked to the new block
      have hxin := List.mem_of_mem_getLast? hx
      have hne : s.heapHead ≠ 0 := by
        rw [Ne, hheadIff]
        rintro rfl
        exact absurd hxin List.not_mem_nil
      have hxt : x = s.heapTail := by
        rw [h.tail, List.getLastD_eq_getLast?, hx]
        rfl
      rw [hget x (hold x hxin).1, if_neg (hold x hxin).2, if_pos ⟨rfl, hne, hxt⟩]
      rfl
    · exact hgetOld x hx .prev (by simp)
    · exact ⟨(hgetNew .prev).trans h.tail, hgetNew .next, trivial⟩
  · rcases List.mem_append.mp hc with hc | hc
    · exact (hgetOld _ (mem_addrs hc) .size (by simp)).trans (h.blocks.size c hc)
    · obtain rfl := List.mem_singleton.mp hc
      exact hgetNew .size
  · rcases List.mem_append.mp hc with hc | hc
    · exact (hgetOld _ (mem_addrs hc) .free (by simp)).trans (h.blocks.free c hc)
    · obtain rfl := List.mem_singleton.mp hc
      exact hgetNew .free
  · -- the free list does not notice: the new block is in use
    refine h.list.congr (by rw [heq]) (fun x hx => ?_) (fun x hx => ?_)
    · exact hgetOld x (h.exact.sub x hx) .nextFree (by simp)
    · exact hgetOld x (h.exact.sub x hx) .prevFree (by simp)
  · rw [h.exact a]
    refine ⟨fun ⟨c, hc, hfree⟩ => ⟨c, List.mem_append_left _ hc, hfree⟩, ?_⟩
    rintro ⟨c, hc, hfree, haddr⟩
    rcases List.mem_append.mp hc with hc | hc
    · exact ⟨c, hc, hfree, haddr⟩
    · obtain rfl := List.mem_singleton.mp hc
      exact absurd hfree (by simp [Heap.freshBlock])
  · rw [heq]
    simp [Heap.freshBlock]
  · exact makeNewBlock_only hcurr (fun hne => (hold _ (htail hne)).1) hroom

/-- `malloc`, when no free block is large enough -/
theorem malloc_of_noFit {size : Nat} (hsize : size ≠ 0)
    (hfit : s.findBestFitFreeBlock (align8 size) = some 0) :
    s.malloc size = some (s.makeNewBlock (align8 size)) := by
  unfold Heap.malloc
  rw [if_neg hsize]
  extract_lets alignedSize
  have hfit' : s.findBestFitFreeBlock alignedSize = some 0 := hfit
  rw [hfit']
  exact if_neg (by simp)

end Append

end Rules

end Libc

end Icarius
