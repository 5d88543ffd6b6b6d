/-
  Icarius.Kernel.Dtoa

  `dtoa` of `src/x86/lib/stdlib.c`: a sign, the integer part, a point, and the digits behind it
  as one more integer.  What the floating-point instructions make of the double, its sign and
  the two numbers that are cast to `int32_t`, is given.  Everything else is here.
-/

import Icarius.Kernel.Numbers

namespace Icarius

open Icarius.Lib

/-! ## stdlib.c -/

/-- `'.'` -/
def charPoint : UInt8 := 46

/-- What `dtoa` finds of a double: whether it is below 0, the integer part of its absolute value,
    and the part behind the point for a number of digits, with 0.5 added for the rounding. -/
structure FloatParts where
  isNegative : Bool
  ipart : BitVec 32
  fpart : Nat → BitVec 32

/-- `slen` from the index `i` on, for strings that end within `fuel` characters -/
def slen (str : Mem) : Nat → Nat → Option Nat
  | 0, _ => none
  | fuel + 1, i => if str i = 0 then some i else slen str fuel (i + 1)

/-- The loop of `dtoa` that makes room for the sign, `n` rounds before its end -/
def shiftLoop : Nat → Mem → Mem
  | 0, res => res
  | j + 1, res => shiftLoop j (res.write (j + 1) [res j])

/-- `dtoa` -/
def dtoa (parts : FloatParts) (res : Mem) (afterpoint : BitVec 32) : Option Mem := do
  let res ← itoa parts.ipart res 10
  let i ← slen res 64 0
  let (res, i) :=
    if parts.isNegative then ((shiftLoop (i + 1) res).write 0 [charMinus], i + 1) else (res, i)
  if afterpoint ≠ 0 then
    let res := res.write i [charPoint]
    let i := i + 1
    -- `res + i`
    let behind ← itoa (parts.fpart afterpoint.toInt.toNat) (fun a => res (i + a)) 10
    return fun a => if a < i then res a else behind (a - i)
  else return res.write i [0]

/-! ## The text of an int -/

/-- The decimal text of an `int` -/
def intText (num : BitVec 32) : List UInt8 :=
  (uvalueOf num 10).1 ++ numeralText 10 (uvalueOf num 10).2

theorem itoa_decimal (num : BitVec 32) (str : Mem) :
    itoa num str 10 = some (str.write 0 (intText num ++ [0])) :=
  itoa_eq ⟨by decide, by decide⟩ num str

theorem length_intText (num : BitVec 32) : (intText num).length ≤ 11 := by
  have hsize : (uvalueOf num 10).1.length ≤ 1 ∧ (uvalueOf num 10).2 < 2 ^ 32 := by
    unfold uvalueOf
    split
    · refine ⟨Nat.le_refl 1, ?_⟩
      have hlo := num.le_toInt
      dsimp only
      omega
    · exact ⟨Nat.zero_le 1, num.isLt⟩
  have hdigits := (length_numeral_le_iff (show 2 ≤ 10 by decide) (show 0 < 10 by decide)).mpr
    (Nat.lt_trans hsize.2 (show 2 ^ 32 < 10 ^ 10 by decide))
  unfold intText numeralText
  rw [List.length_append, List.length_map]
  omega

theorem zero_not_mem_intText (num : BitVec 32) : 0 ∉ intText num :=
  zero_not_mem_itoa ⟨by decide, by decide⟩ num

/-! ## The loops -/

/-- A string that is written is as long as its text. -/
theorem slen_write {text : List UInt8} (hnul : 0 ∉ text) (m : Mem) (fuel : Nat)
    (hlt : text.length < fuel) : slen (m.write 0 (text ++ [0])) fuel 0 = some text.length := by
  have hchar : ∀ i < text.length, m.write 0 (text ++ [0]) i ≠ 0 := by
    intro i hi
    rw [Mem.write_zero (by rw [List.length_append]; omega), List.getElem_append_left hi]
    exact fun hzero => hnul (hzero ▸ List.getElem_mem hi)
  have hend : m.write 0 (text ++ [0]) text.length = 0 := by
    rw [Mem.write_zero (by rw [List.length_append, List.length_singleton]; omega),
      List.getElem_append_right (Nat.le_refl _)]
    simp only [Nat.sub_self, List.getElem_singleton]
  -- from any character of the text on, over the characters that are left
  have hfrom : ∀ fuel i, i ≤ text.length → text.length < i + fuel →
      slen (m.write 0 (text ++ [0])) fuel i = some text.length := by
    intro fuel
    induction fuel with
    | zero => intro i hle hlt; omega
    | succ fuel ih =>
        intro i hle hlt
        rw [slen]
        by_cases hi : i = text.length
        · rw [hi, if_pos hend]
        · rw [if_neg (hchar i (by omega))]
          exact ih (i + 1) (by omega) (by omega)
  exact hfrom fuel 0 (Nat.zero_le _) (by omega)

/-- The loop moves everything up to the last place one place on. -/
theorem shiftLoop_apply (n : Nat) (m : Mem) (x : Nat) :
    shiftLoop n m x = if 1 ≤ x ∧ x ≤ n then m (x - 1) else m x := by
  induction n generalizing m with
  | zero => rw [shiftLoop, if_neg (by omega)]
  | succ n ih =>
      rw [shiftLoop, ih]
      by_cases hlast : x = n + 1
      · rw [hlast, if_neg (by omega), if_pos (by omega), Mem.write_byte_self, Nat.add_sub_cancel]
      · rw [Mem.write_byte_of_ne hlast]
        by_cases hin : 1 ≤ x ∧ x ≤ n
        · rw [if_pos hin, if_pos (by omega), Mem.write_byte_of_ne (by omega)]
        · rw [if_neg hin, if_neg (by omega)]

/-- A text with its NUL, and a sign put in front of it -/
theorem shiftLoop_write (m : Mem) (text : List UInt8) (c : UInt8) :
    (shiftLoop (text.length + 1) (m.write 0 (text ++ [0]))).write 0 [c]
      = m.write 0 (c :: text ++ [0]) := by
  have hlen : (text ++ [0]).length = text.length + 1 := by
    rw [List.length_append, List.length_singleton]
  funext x
  by_cases hzero : x = 0
  · rw [hzero, Mem.write_byte_self]
    rfl
  · rw [Mem.write_byte_of_ne hzero, shiftLoop_apply, List.cons_append]
    by_cases hin : x ≤ text.length + 1
    · obtain ⟨i, rfl⟩ : ∃ i, x = i + 1 := ⟨x - 1, by omega⟩
      rw [if_pos ⟨Nat.succ_pos i, hin⟩, Nat.add_sub_cancel, Mem.write_zero (by omega),
        Mem.write_zero (by rw [List.length_cons]; omega), List.getElem_cons_succ]
    · rw [if_neg (by omega), Mem.write_of_ge (by omega),
        Mem.write_of_ge (by rw [List.length_cons]; omega)]

/-- What is written from a place on, as a memory of its own -/
theorem write_behind (m : Mem) (a : Nat) (bytes : List UInt8) :
    (fun x => if x < a then m x else Mem.write (fun i => m (a + i)) 0 bytes (x - a))
      = m.write a bytes := by
  funext x
  by_cases hx : x < a
  · rw [if_pos hx, Mem.write_of_lt hx]
  · rw [if_neg hx]
    obtain ⟨i, rfl⟩ : ∃ i, x = a + i := ⟨x - a, by omega⟩
    rw [Nat.add_sub_cancel_left]
    by_cases hi : i < bytes.length
    · rw [Mem.write_zero hi, Mem.write_add hi]
    · rw [Mem.write_of_ge (by omega), Mem.write_of_ge (by omega)]

/-- The last of two bytes written to a place counts. -/
theorem write_byte_twice (m : Mem) (a : Nat) (b c : UInt8) :
    (m.write a [b]).write a [c] = m.write a [c] := by
  funext x
  by_cases hx : x = a
  · rw [hx, Mem.write_byte_self, Mem.write_byte_self]
  · rw [Mem.write_byte_of_ne hx, Mem.write_byte_of_ne hx, Mem.write_byte_of_ne hx]

/-! ## The function -/

/-- The text of a double -/
def doubleText (parts : FloatParts) (afterpoint : BitVec 32) : List UInt8 :=
  (if parts.isNegative then charMinus :: intText parts.ipart else intText parts.ipart) ++
    if afterpoint ≠ 0 then charPoint :: intText (parts.fpart afterpoint.toInt.toNat) else []

theorem length_doubleText (parts : FloatParts) (afterpoint : BitVec 32) :
    (doubleText parts afterpoint).length < 64 := by
  have hint := length_intText parts.ipart
  have hfloat := length_intText (parts.fpart afterpoint.toInt.toNat)
  unfold doubleText
  rw [List.length_append]
  split <;> split <;> simp only [List.length_cons, List.length_nil] <;> omega

theorem zero_not_mem_doubleText (parts : FloatParts) (afterpoint : BitVec 32) :
    0 ∉ doubleText parts afterpoint := by
  have hcons : ∀ {c : UInt8} {text : List UInt8}, c ≠ 0 → 0 ∉ text → 0 ∉ c :: text :=
    fun hc htext hmem => (List.mem_cons.mp hmem).elim (fun h => hc h.symm) htext
  intro hmem
  rcases List.mem_append.mp hmem with hmem | hmem
  · split at hmem
    · exact hcons (by decide) (zero_not_mem_intText _) hmem
    · exact zero_not_mem_intText _ hmem
  · split at hmem
    · exact hcons (by decide) (zero_not_mem_intText _) hmem
    · cases hmem

/-- `dtoa` writes the text of the double, and the NUL behind it. -/
theorem dtoa_eq (parts : FloatParts) (res : Mem) (afterpoint : BitVec 32) :
    dtoa parts res afterpoint = some (res.write 0 (doubleText parts afterpoint ++ [0])) := by
  obtain ⟨front, hfront⟩ : ∃ front, front = if parts.isNegative
    then charMinus :: intText parts.ipart else intText parts.ipart := ⟨_, rfl⟩
  have hlen := slen_write (zero_not_mem_intText parts.ipart) res 64
    (Nat.lt_of_le_of_lt (length_intText parts.ipart) (by decide))
  -- the integer part with its sign
  have hsign : (if parts.isNegative
      then ((shiftLoop ((intText parts.ipart).length + 1)
        (res.write 0 (intText parts.ipart ++ [0]))).write 0 [charMinus],
        (intText parts.ipart).length + 1)
      else (res.write 0 (intText parts.ipart ++ [0]), (intText parts.ipart).length))
        = (res.write 0 (front ++ [0]), front.length) := by
    rw [hfront]
    split
    · rw [shiftLoop_write, List.length_cons]
    · rfl
  have hend : res.write 0 (front ++ [0]) = (res.write 0 front).write front.length [0] := by
    rw [Mem.write_append, Nat.zero_add]
  unfold dtoa
  simp only [itoa_decimal, Option.bind_eq_bind, Option.bind_some, hlen, hsign, doubleText, ← hfront]
  by_cases hpoint : afterpoint ≠ 0
  · -- the point takes the place of the NUL
    have hplace : (res.write 0 (front ++ [0])).write front.length [charPoint]
        = res.write 0 (front ++ [charPoint]) := by
      rw [hend, write_byte_twice, Mem.write_append, Nat.zero_add]
    obtain ⟨digits, hdigits⟩ :
        ∃ digits, digits = intText (parts.fpart afterpoint.toInt.toNat) := ⟨_, rfl⟩
    have hsplit : res.write 0 (front ++ charPoint :: digits ++ [0])
        = (res.write 0 (front ++ [charPoint])).write (front.length + 1) (digits ++ [0]) := by
      rw [← List.singleton_append, ← List.append_assoc, List.append_assoc, Mem.write_append,
        Nat.zero_add, List.length_append, List.length_singleton]
    rw [if_pos hpoint, if_pos hpoint, hplace, Option.pure_def, write_behind, ← hdigits, hsplit]
  · rw [if_neg hpoint, if_neg hpoint, List.append_nil, hend, write_byte_twice, Option.pure_def]

end Icarius
