/-
  Icarius.Kernel.Memmove

  `memmove` of `src/x86/lib/string.c`.  It copies from the front where the destination
  lies below the source and from the back where it lies above, so that a byte of the
  source is read before the loop overwrites it.
-/

import Icarius.Config
import Icarius.Lib.Bytes

namespace Icarius

open Icarius.Lib

/-! ## string.c -/

/-- `d[i] = s[i]` -/
def copyByte (d s i : Nat) (m : Mem) : Mem := m.write (u32 (d + i)) [m (u32 (s + i))]

/-- The loop of `memmove` that counts up, `k` rounds before its end -/
def moveForward (d s : Nat) : Nat → Nat → Mem → Mem
  | 0, _, m => m
  | k + 1, i, m => moveForward d s k (i + 1) (copyByte d s i m)

/-- The loop of `memmove` that counts down -/
def moveBackward (d s : Nat) : Nat → Mem → Mem
  | 0, m => m
  | i + 1, m => moveBackward d s i (copyByte d s i m)

/-- `memmove`: the pointer it returns, and the memory it leaves -/
def memmove (m : Mem) (dest src count : Nat) : Nat × Mem :=
  if dest = src ∨ count = 0 then (dest, m)
  else if dest < src then (dest, moveForward dest src count 0 m)
  else (dest, moveBackward dest src count m)

/-! ## What has been copied -/

/-- Of `m`, the bytes `[lo, hi)` of the source are at the destination, and nothing else
    is changed. -/
structure Moved (m : Mem) (d s lo hi : Nat) (m' : Mem) : Prop where
  copied : ∀ i, lo ≤ i → i < hi → m' (d + i) = m (s + i)
  frame : ∀ a, a < d + lo ∨ d + hi ≤ a → m' a = m a

section Moved

variable {m m' : Mem} {d s lo hi count : Nat}

theorem Moved.refl (m : Mem) (d s i : Nat) : Moved m d s i i m :=
  ⟨fun _ hlo hhi => absurd hhi (Nat.not_lt.mpr hlo), fun _ _ => rfl⟩

theorem copyByte_eq {i : Nat} (hd : d + i < 2 ^ 32) (hs : s + i < 2 ^ 32) :
    copyByte d s i m = m.write (d + i) [m (s + i)] := by
  unfold copyByte u32
  rw [Nat.mod_eq_of_lt hd, Nat.mod_eq_of_lt hs]

theorem copyByte_self {i : Nat} (hd : d + i < 2 ^ 32) (hs : s + i < 2 ^ 32) :
    copyByte d s i m (d + i) = m (s + i) := by
  rw [copyByte_eq hd hs, Mem.write_byte_self]

theorem copyByte_of_ne {i a : Nat} (hd : d + i < 2 ^ 32) (hs : s + i < 2 ^ 32)
    (hne : a ≠ d + i) : copyByte d s i m a = m a := by
  rw [copyByte_eq hd hs, Mem.write_byte_of_ne hne]

/-- Upwards, the next byte of the source lies behind everything written so far. -/
theorem Moved.forward {i : Nat} (h : Moved m d s 0 i m') (hlt : d < s)
    (hd : d + i < 2 ^ 32) (hs : s + i < 2 ^ 32) : Moved m d s 0 (i + 1) (copyByte d s i m') := by
  have hread : m' (s + i) = m (s + i) := h.frame _ (.inr (by omega))
  refine ⟨fun j _ hj => ?_, fun a ha => ?_⟩
  · -- the byte of this round, and those of the rounds before it
    by_cases heq : j = i
    · rw [heq, copyByte_self hd hs, hread]
    · rw [copyByte_of_ne hd hs (by omega)]
      exact h.copied j (Nat.zero_le j) (by omega)
  · rw [copyByte_of_ne hd hs (by omega)]
    exact h.frame a (by omega)

/-- Downwards, the next byte of the source lies before everything written so far. -/
theorem Moved.backward {i : Nat} (h : Moved m d s (i + 1) hi m') (hlt : s < d) (hi' : i < hi)
    (hd : d + i < 2 ^ 32) (hs : s + i < 2 ^ 32) : Moved m d s i hi (copyByte d s i m') := by
  have hread : m' (s + i) = m (s + i) := h.frame _ (.inl (by omega))
  refine ⟨fun j hlo hj => ?_, fun a ha => ?_⟩
  · -- the byte of this round, and those of the rounds before it
    by_cases heq : j = i
    · rw [heq, copyByte_self hd hs, hread]
    · rw [copyByte_of_ne hd hs (by omega)]
      exact h.copied j (by omega) hj
  · rw [copyByte_of_ne hd hs (by omega)]
    exact h.frame a (by omega)

theorem moved_moveForward {k i : Nat} (h : Moved m d s 0 i m') (hlt : d < s)
    (hd : d + (i + k) ≤ 2 ^ 32) (hs : s + (i + k) ≤ 2 ^ 32) :
    Moved m d s 0 (i + k) (moveForward d s k i m') := by
  -- over the rounds to come, with what the rounds before have copied
  induction k generalizing i m' with
  | zero => exact h
  | succ k ih =>
      have hstep := h.forward hlt (by omega) (by omega)
      have hrest := ih hstep (by omega) (by omega)
      rwa [Nat.add_right_comm i 1 k] at hrest

theorem moved_moveBackward {i : Nat} (h : Moved m d s i hi m') (hlt : s < d) (hle : i ≤ hi)
    (hd : d + i ≤ 2 ^ 32) (hs : s + i ≤ 2 ^ 32) :
    Moved m d s 0 hi (moveBackward d s i m') := by
  induction i generalizing m' with
  | zero => exact h
  | succ i ih => exact ih (h.backward hlt hle (by omega) (by omega)) (by omega) (by omega) (by omega)

end Moved

/-! ## The whole call -/

theorem moved_memmove (m : Mem) {dest src count : Nat} (hdest : dest + count ≤ 2 ^ 32)
    (hsrc : src + count ≤ 2 ^ 32) : Moved m dest src 0 count (memmove m dest src count).2 := by
  unfold memmove
  -- the call returns at once where the two are the same, or nothing is to be copied
  by_cases hnone : dest = src ∨ count = 0
  · rw [if_pos hnone]
    refine ⟨fun i _ hi => ?_, fun _ _ => rfl⟩
    obtain rfl := hnone.resolve_right (by omega)
    rfl
  · rw [if_neg hnone]
    obtain ⟨hne, -⟩ := not_or.mp hnone
    by_cases hlt : dest < src
    · rw [if_pos hlt]
      have hrun := moved_moveForward (k := count) (.refl m dest src 0) hlt (by omega) (by omega)
      rwa [Nat.zero_add] at hrun
    · rw [if_neg hlt]
      exact moved_moveBackward (.refl m dest src count) (by omega) (Nat.le_refl _) hdest hsrc

/-- `memmove` for every overlap: the destination holds what the source held, and no other
    byte is changed. -/
theorem memmove_exact (m : Mem) (dest src count : Nat) (hdest : dest + count ≤ 2 ^ 32)
    (hsrc : src + count ≤ 2 ^ 32) :
    (∀ i < count, (memmove m dest src count).2 (dest + i) = m (src + i)) ∧
      ∀ a, a < dest ∨ dest + count ≤ a → (memmove m dest src count).2 a = m a := by
  have hmoved := moved_memmove m hdest hsrc
  exact ⟨fun i hi => hmoved.copied i (Nat.zero_le i) hi, hmoved.frame⟩

/-- Eight bytes are moved up by three. -/
theorem memmove_exact_up :
    (∀ i < 8, (memmove (fun a => UInt8.ofNat a) 7 4 8).2 (7 + i) = UInt8.ofNat (4 + i)) ∧
      ∀ a, a < 7 ∨ 7 + 8 ≤ a → (memmove (fun a => UInt8.ofNat a) 7 4 8).2 a = UInt8.ofNat a :=
  memmove_exact (fun a => UInt8.ofNat a) 7 4 8 (by decide) (by decide)

end Icarius
