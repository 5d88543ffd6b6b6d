/-
  Icarius.Libc.Realloc

  `realloc`: the block is large enough and stays, or its payload is copied to a new one and
  it is freed.  The copy is within the payload of the new block, so it is a write of a user
  to a live block (`WellFormed.setMem`); `malloc` before it and `free` after it write to
  headers only.
-/

import Icarius.Libc.Requests

namespace Icarius

open Icarius.Lib

namespace Libc

section Payload

variable {s : Heap} {bs : List Block} {fl : List Nat} {b : Block} {m : Mem}

/-- Only the headers matter. -/
theorem WellFormed.setMem (h : WellFormed s bs fl)
    (hsame : ∀ a ∈ addrs bs, Agree s.mem m a headerSize) : WellFormed (s.setMem m) bs fl := by
  have hget : ∀ a ∈ addrs bs, ∀ f, get m f a = get s.mem f a := fun a ha _ =>
    get_congr (hsame a ha)
  refine ⟨⟨⟨h.blocks.tiles, h.blocks.room, h.blocks.head, ?_, fun c hc => ?_, fun c hc => ?_⟩,
    ?_, h.exact⟩, h.tail⟩
  · exact h.blocks.linked.congr (fun a ha => hget a ha .next) (fun a ha => hget a ha .prev)
  · exact (hget _ (mem_addrs hc) .size).trans (h.blocks.size c hc)
  · exact (hget _ (mem_addrs hc) .free).trans (h.blocks.free c hc)
  · exact h.list.congr rfl (fun a ha => hget a (h.exact.sub a ha) .nextFree)
      (fun a ha => hget a (h.exact.sub a ha) .prevFree)

/-- No header overlaps the payload of a block. -/
theorem Blocks.header_outside (h : Blocks s bs) (hb : b ∈ bs) :
    ∀ a ∈ addrs bs, a + headerSize ≤ b.payload ∨ b.addr + b.len ≤ a := by
  intro a ha
  obtain ⟨c, hc, rfl⟩ := List.mem_map.mp ha
  simp only [Block.payload]
  rcases h.tiles.apart hb hc with rfl | hap | hap
  · exact .inl (Nat.le_refl _)
  · exact .inr hap
  · simp only [Block.len] at hap
    exact .inl (by omega)

/-- A write into the payload of a block -/
theorem WellFormed.write (h : WellFormed s bs fl) (hb : b ∈ bs) {at' : Nat} {bytes : List UInt8}
    (hlo : b.payload ≤ at') (hhi : at' + bytes.length ≤ b.payload + b.size) :
    WellFormed (s.setMem (s.mem.write at' bytes)) bs fl := by
  refine h.setMem fun a ha => Mem.agree_write s.mem ?_
  rcases h.blocks.header_outside hb a ha with hap | hap
  · exact .inl (by omega)
  · refine .inr ?_
    simp only [Block.payload, Block.len] at hhi hap
    omega

/-- leaves the payloads of the others alone. -/
theorem Blocks.agree_write (h : Blocks s bs) (hb : b ∈ bs) {at' : Nat} {bytes : List UInt8}
    (hlo : b.payload ≤ at') (hhi : at' + bytes.length ≤ b.payload + b.size) {u : Block}
    (hu : u ∈ bs) (hne : u ≠ b) : Agree s.mem (s.mem.write at' bytes) u.payload u.size := by
  refine Mem.agree_write s.mem ?_
  simp only [Block.payload] at hlo hhi ⊢
  rcases h.tiles.apart hu hb with heq | hap | hap
  · exact absurd heq hne
  · simp only [Block.len] at hap
    exact .inl (by omega)
  · simp only [Block.len] at hap
    exact .inr (by omega)

end Payload

/-! ## realloc -/

/-- `free` of a block without payload returns. -/
theorem free_of_empty {s : Heap} {ptr : Nat} (h : get s.mem .size (Heap.blockOf ptr) = 0) :
    s.free ptr = s := by
  unfold Heap.free
  extract_lets block
  split
  · rfl
  · exact if_pos (.inl h)

/-- What `realloc` of `b` to `size` bytes means for the user, who had the heap `s`: the
    payloads of the other live blocks are as before; the result is null and `b` is as it
    was, or it is the payload of a live block of at least `size` bytes that starts with the
    bytes of `b`. -/
structure Reallocated (s : Heap) (bs : List Block) (b : Block) (size : Nat) (ptr : Nat)
    (s' : Heap) (bs' : List Block) : Prop where
  others : ∀ u ∈ bs, u.isFree = false → u ≠ b →
    u ∈ bs' ∧ Agree s.mem s'.mem u.payload u.size
  result : ptr = 0 ∧ b ∈ bs' ∧ Agree s.mem s'.mem b.payload b.size ∨
    ∃ c ∈ bs', c.isFree = false ∧ ptr = c.payload ∧ size ≤ c.size ∧
      ∀ i < min b.size size, s'.mem (ptr + i) = s.mem (b.payload + i)

section Realloc

variable {s : Heap} {bs : List Block} {fl : List Nat} {b : Block} {size : Nat}

/-- The used blocks after a `free`, as `realloc` needs them: also a block without payload
    leaves the others alone. -/
theorem WellFormed.free_others (h : WellFormed s bs fl) (hb : b ∈ bs) (hused : b.isFree = false) :
    ∃ bs' fl', Chained (s.free b.payload) bs' fl' ∧ ∀ u ∈ bs, u.isFree = false → u ≠ b →
      u ∈ bs' ∧ Agree s.mem (s.free b.payload).mem u.payload u.size := by
  by_cases hsize : b.size = 0
  · have hnone : s.free b.payload = s := free_of_empty <| by
      rw [blockOf_payload h.blocks hb, h.blocks.size b hb, hsize]
    rw [hnone]
    exact ⟨bs, fl, h.toChained, fun u hu _ _ => ⟨hu, fun _ _ _ => rfl⟩⟩
  · obtain ⟨l₁, l₂, rfl⟩ := List.append_of_mem hb
    obtain ⟨fl', hchained, hquiet⟩ := h.toChained.free hused hsize
    refine ⟨_, _, hchained, fun u hu hulive hne => ⟨?_, h.blocks.agree hu hquiet.only⟩⟩
    exact (mem_freed hulive).mpr ((mem_middle.mp hu).resolve_left hne)

/-- Every `realloc` of a live block, to any size within `USER_HEAP_SIZE` -/
theorem realloc_keeps (h : WellFormed s bs fl) (hb : b ∈ bs) (hused : b.isFree = false)
    (hpos : 1 ≤ size) (hmax : size ≤ userHeapSize) :
    ∃ ptr s' bs' fl', s.realloc b.payload size = some (ptr, s') ∧ Chained s' bs' fl' ∧
      Reallocated s bs b size ptr s' bs' := by
  have hptr : b.payload ≠ 0 := by
    simp only [Block.payload, headerSize]
    omega
  have hsize : size ≠ 0 := Nat.pos_iff_ne_zero.mp hpos
  have hblock := blockOf_payload h.blocks hb
  have hbsize := h.blocks.size b hb
  unfold Heap.realloc
  rw [if_neg hptr, if_neg hsize, hblock, hbsize]
  -- `realloc` moves a block only to make it longer
  by_cases hfits : b.size ≥ size
  · rw [if_pos hfits]
    exact ⟨_, s, bs, fl, rfl, h.toChained, fun u hu _ _ => ⟨hu, fun _ _ _ => rfl⟩,
      .inr ⟨b, hb, hused, rfl, hfits, fun _ _ => rfl⟩⟩
  · rw [if_neg hfits]
    have hwrap : s.heapCurr + blockBytes size < 2 ^ 32 := by
      have hroom := h.blocks.room
      have hend : userHeapEnd + userHeapSize + 64 < 2 ^ 32 := by decide
      simp only [blockBytes, headerSize]
      omega
    rcases malloc_cases h hsize hwrap with hrefused | ⟨c, s₁, bs₁, fl₁, hmalloc, hdone⟩
    · refine ⟨0, s, bs, fl, ?_, h.toChained, fun u hu _ _ => ⟨hu, fun _ _ _ => rfl⟩,
        .inl ⟨rfl, hb, fun _ _ _ => rfl⟩⟩
      simp only [Heap.moveBlock, hrefused, if_true]
    · -- the old block is live beside the new one
      have hb₁ : b ∈ bs₁ := (hdone.used b hused).mpr (.inr hb)
      have hbc : b ≠ c := by
        rintro rfl
        exact hdone.fresh b hb hused rfl
      have hcsize := hdone.holds
      have hcptr : c.payload ≠ 0 := by
        simp only [Block.payload, headerSize]
        omega
      -- what `memcpy` copies, before the old block is freed
      set bytes := (List.range b.size).map fun i => s₁.mem (b.payload + i) with hbytes
      have hlen : bytes.length = b.size := by simp [hbytes]
      have hin : c.payload + bytes.length ≤ c.payload + c.size := by omega
      have hcopied := hdone.wellFormed.write hdone.mem (Nat.le_refl _) hin
      obtain ⟨bs', fl', hchained, hkept⟩ := hcopied.free_others hb₁ hused
      have hmove : s.moveBlock b.payload size
          = some (c.payload, s₁.setMem (s₁.mem.write c.payload bytes)) := by
        simp only [Heap.moveBlock, hmalloc, if_neg hcptr, hblock,
          hdone.wellFormed.blocks.size b hb₁, hbytes]
      -- `malloc` writes in no payload
      have hmalloced : ∀ u ∈ bs₁, Agree s.mem s₁.mem u.payload u.size := by
        intro u hu x hlo hhi
        refine hdone.only x (hdone.wellFormed.blocks.payload_outside hu hlo ?_)
        simp only [Block.payload, Block.len] at hhi ⊢
        omega
      refine ⟨c.payload, _, bs', fl', ?_, hchained, ?_, .inr ⟨c, ?_⟩⟩
      · simp only [hmove, if_neg hcptr]
      · -- the blocks of others: neither copied to nor freed
        intro u hu hulive hne
        have hu₁ : u ∈ bs₁ := (hdone.used u hulive).mpr (.inr hu)
        have huc : u ≠ c := by
          rintro rfl
          exact hdone.fresh u hu hulive rfl
        obtain ⟨hu', hfreed⟩ := hkept u hu₁ hulive hne
        have hwritten := hdone.wellFormed.blocks.agree_write hdone.mem (Nat.le_refl _) hin hu₁ huc
        refine ⟨hu', fun x hlo hhi => ?_⟩
        rw [hfreed x hlo hhi]
        exact (hwritten x hlo hhi).trans (hmalloced u hu₁ x hlo hhi)
      · obtain ⟨hc', hfreed⟩ := hkept c hdone.mem hdone.isUsed hbc.symm
        refine ⟨hc', hdone.isUsed, rfl, hcsize, fun i hi => ?_⟩
        have hi' : i < b.size := by omega
        rw [hfreed (c.payload + i) (by omega) (by omega)]
        simp only [Heap.setMem]
        rw [Mem.write_add (by omega)]
        simp only [hbytes, List.getElem_map, List.getElem_range]
        exact hmalloced b hb₁ _ (by omega) (by omega)

end Realloc

/-- A block of eight bytes, alone in the heap, grows to 100. -/
theorem realloc_keeps_only : ∃ s : Heap, ∃ bs b, bs = [b] ∧ b.size = 8 ∧ ∃ ptr s' bs' fl',
    s.realloc b.payload 100 = some (ptr, s') ∧ Chained s' bs' fl' ∧
      Reallocated s bs b 100 ptr s' bs' := by
  have h := ((wellFormed_empty fun _ => 0).makeNewBlock (A := 8) (by decide)).1
  have hmax : 100 ≤ userHeapSize := by decide
  exact ⟨_, _, _, rfl, rfl, realloc_keeps h List.mem_cons_self rfl (by decide) hmax⟩

end Libc

end Icarius
