/-
  Icarius.Kernel.Numbers

  The numbers of `src/x86/lib/stdlib.c`: `itoa`, `utoa` and `atoi`.  The digits are written
  from the last one on and turned around in place.

  `str` is the memory from the pointer the functions are given on, `int` and `unsigned int`
  are the 32 bits they are kept in.
-/

import Icarius.Lib.Bytes
import Icarius.Lib.Numeral

namespace Icarius

open Icarius.Lib

/-! ## stdlib.c -/

/-- `'-'` -/
def charMinus : UInt8 := 45

/-- The character of a digit: `'0'` to `'9'`, and `'a'` on -/
def digitChar (rem : Nat) : UInt8 :=
  if rem > 9 then UInt8.ofNat (rem - 10 + 97) else UInt8.ofNat (rem + 48)

/-- The loop of `reverse_string`, `k` rounds before its end at most -/
def swapLoop : Nat → Nat → Nat → Mem → Mem
  | 0, _, _, str => str
  | k + 1, start, last, str =>
      if start < last then
        let temp := str start
        let str := str.write start [str last]
        let str := str.write last [temp]
        swapLoop k (start + 1) (last - 1) str
      else str

/-- `reverse_string`; `end`, here `last`, is a `size_t`. -/
def reverseString (str : Mem) (length : Nat) : Mem :=
  let last := (length + 2 ^ 32 - 1) % 2 ^ 32
  swapLoop last 0 last str

/-- The loop over the digits, which `itoa` and `utoa` share: the string and the length of it.
    A base of 2 or more takes 32 rounds at most; in base 1 the loop does not end, and in base
    0 the division traps. -/
def digitLoop (base : Nat) : Nat → Nat → Mem → Nat → Option (Mem × Nat)
  | 0, _, _, _ => none
  | k + 1, uvalue, str, i =>
      if uvalue = 0 then some (str, i)
      else if base = 0 then none
      else digitLoop base k (uvalue / base) (str.write i [digitChar (uvalue % base)]) (i + 1)

/-- `itoa` -/
def itoa (value : BitVec 32) (str : Mem) (base : BitVec 32) : Option Mem :=
  if base.toInt < 2 ∨ base.toInt > 36 then some (str.write 0 [0])
  else if value = 0 then some (str.write 0 [48, 0])
  else
    let isNegative := value.toInt < 0 ∧ base = 10
    let uvalue := if isNegative then -(value + 1) + 1 else value
    match digitLoop base.toNat 33 uvalue.toNat str 0 with
    | none => none
    | some (str, i) =>
        let (str, i) := if isNegative then (str.write i [charMinus], i + 1) else (str, i)
        some (reverseString (str.write i [0]) i)

/-- `utoa`, which does not look at its base -/
def utoa (num : BitVec 32) (str : Mem) (base : BitVec 32) : Option Mem :=
  if num = 0 then some (str.write 0 [48, 0])
  else
    match digitLoop base.toNat 33 num.toNat str 0 with
    | none => none
    | some (str, i) => some (reverseString (str.write i [0]) i)

/-- The loop of `atoi`, over the text up to the NUL -/
def atoiLoop : List UInt8 → BitVec 32 → BitVec 32
  | [], res => res
  | c :: str, res =>
      if 48 ≤ c ∧ c ≤ 57 then atoiLoop str (res * 10 + BitVec.ofNat 32 (c.toNat - 48)) else res

/-- `atoi` -/
def atoi (str : List UInt8) : BitVec 32 := atoiLoop str 0

/-! ## What a text denotes -/

/-- The digit a character stands for, and 36 for a character that is none -/
def charDigit (c : UInt8) : Nat :=
  if 48 ≤ c ∧ c ≤ 57 then c.toNat - 48
  else if 97 ≤ c ∧ c ≤ 122 then c.toNat - 87
  else 36

/-- The text denotes the number in the base. -/
def Denotes (base : Nat) (text : List UInt8) (n : Nat) : Prop :=
  Numeral base (text.map charDigit) n

/-- The text denotes the number in base 10, with a sign in front of a negative one. -/
def DenotesInt (text : List UInt8) (v : Int) : Prop :=
  if v < 0 then ∃ digits, text = charMinus :: digits ∧ Denotes 10 digits v.natAbs
  else Denotes 10 text v.toNat

/-- The text of a number -/
def numeralText (base n : Nat) : List UInt8 := (numeral base n).map digitChar

theorem charDigit_digitChar : ∀ d < 36, charDigit (digitChar d) = d := by decide

theorem digitChar_ne_zero : ∀ d < 36, digitChar d ≠ 0 := by decide

section Text

variable {base : Nat} (hlo : 2 ≤ base) (hhi : base ≤ 36)
include hlo hhi

theorem denotes_numeralText (n : Nat) : Denotes base (numeralText base n) n := by
  have hspec := numeral_spec hlo n
  have hdigits : (numeralText base n).map charDigit = numeral base n := by
    rw [numeralText, List.map_map]
    refine (List.map_congr_left fun d hd => ?_).trans (List.map_id _)
    exact charDigit_digitChar d (Nat.lt_of_lt_of_le (hspec.lt_base d hd) hhi)
  rw [Denotes, hdigits]
  exact hspec

theorem zero_not_mem_numeralText (n : Nat) : 0 ∉ numeralText base n := by
  intro hmem
  obtain ⟨d, hd, hzero⟩ := List.mem_map.mp hmem
  exact digitChar_ne_zero d (Nat.lt_of_lt_of_le ((numeral_spec hlo n).lt_base d hd) hhi) hzero

end Text

/-! ## The loops -/

/-- The digits are written from the last one on. -/
theorem digitLoop_eq {base : Nat} (hbase : 2 ≤ base) {k n : Nat} (hn : n < 2 ^ k) (m : Mem)
    (i : Nat) : digitLoop base (k + 1) n m i
      = some (m.write i ((Nat.digits base n).map digitChar), i + (Nat.digits base n).length) := by
  -- over the bits that the number can have; every round takes one off at least
  induction k generalizing n m i with
  | zero =>
      obtain rfl : n = 0 := by omega
      rw [digitLoop, if_pos rfl, Nat.digits_zero, List.map_nil, Mem.write_nil]
      rfl
  | succ k ih =>
      by_cases hzero : n = 0
      · subst hzero
        rw [digitLoop, if_pos rfl, Nat.digits_zero, List.map_nil, Mem.write_nil]
        rfl
      · have hne : base ≠ 0 := by omega
        rw [digitLoop, if_neg hzero, if_neg hne, ih (div_lt_two_pow hbase hn),
          Nat.digits_eq_cons_digits_div hbase hzero, List.map_cons, List.length_cons]
        have hwrite := Mem.write_append m i [digitChar (n % base)]
          ((Nat.digits base (n / base)).map digitChar)
        rw [List.singleton_append, List.length_singleton] at hwrite
        rw [hwrite, Nat.add_right_comm, Nat.add_assoc]

/-- The loop turns around what lies between its two indices. -/
theorem swapLoop_apply {k s e : Nat} (hk : e - s ≤ k) (m : Mem) (x : Nat) :
    swapLoop k s e m x = if s ≤ x ∧ x ≤ e then m (s + e - x) else m x := by
  -- over the rounds, each of which brings the two indices nearer to each other
  induction k generalizing s e m with
  | zero =>
      rw [swapLoop]
      split
      · have hx : s + e - x = x := by omega
        rw [hx]
      · rfl
  | succ k ih =>
      rw [swapLoop]
      by_cases hlt : s < e
      · rw [if_pos hlt]
        -- the two ends are swapped, and the loop goes on between them
        have hmid : ∀ y, y ≠ s → y ≠ e → ((m.write s [m e]).write e [m s]) y = m y := by
          intro y hs he
          rw [Mem.write_byte_of_ne he, Mem.write_byte_of_ne hs]
        have hend : ((m.write s [m e]).write e [m s]) e = m s := Mem.write_byte_self _ e _
        have hstart : ((m.write s [m e]).write e [m s]) s = m e := by
          rw [Mem.write_byte_of_ne (Nat.ne_of_lt hlt), Mem.write_byte_self]
        rw [ih (by omega)]
        -- the two ends, what is between them, and what is outside
        by_cases hxs : x = s
        · have hend' : s + e - s = e := by omega
          rw [hxs, if_neg (by omega), if_pos ⟨Nat.le_refl s, by omega⟩, hstart, hend']
        · by_cases hxe : x = e
          · have hstart' : s + e - e = s := by omega
            rw [hxe, if_neg (by omega), if_pos ⟨by omega, Nat.le_refl e⟩, hend, hstart']
          · by_cases hin : s ≤ x ∧ x ≤ e
            · have hsum : s + 1 + (e - 1) - x = s + e - x := by omega
              rw [if_pos (by omega), if_pos hin, hsum, hmid _ (by omega) (by omega)]
            · rw [if_neg (by omega), if_neg hin, hmid x hxs hxe]
      · rw [if_neg hlt]
        split
        · have hx : s + e - x = x := by omega
          rw [hx]
        · rfl

/-- A text and its NUL, the text turned around -/
theorem reverseString_write (m : Mem) {text : List UInt8} (hne : text ≠ [])
    (hlt : text.length < 2 ^ 32) :
    reverseString (m.write 0 (text ++ [0])) text.length = m.write 0 (text.reverse ++ [0]) := by
  have hpos : 0 < text.length := List.length_pos_iff.mpr hne
  have hend : (text.length + 2 ^ 32 - 1) % 2 ^ 32 = text.length - 1 := by omega
  unfold reverseString
  rw [hend]
  funext x
  rw [swapLoop_apply (by omega)]
  by_cases hx : x < text.length
  · have hx' : text.length - 1 - x < text.length := by omega
    have hlen : 0 + (text.length - 1) - x = text.length - 1 - x := by omega
    rw [if_pos ⟨Nat.zero_le x, by omega⟩, hlen,
      Mem.write_zero (by rw [List.length_append]; omega), List.getElem_append_left hx',
      Mem.write_zero (by rw [List.length_append, List.length_reverse]; omega),
      List.getElem_append_left (by rw [List.length_reverse]; exact hx), List.getElem_reverse]
  · -- the NUL and what is behind it
    rw [if_neg (by omega)]
    simp only [Mem.write, Nat.zero_le, if_true, Nat.sub_zero]
    rw [List.getElem?_append_right (by omega), List.getElem?_append_right
      (by rw [List.length_reverse]; omega), List.length_reverse]

/-- The digits of a number other than 0, and a sign in front of them -/
theorem reverse_digits {base n : Nat} (hbase : 2 ≤ base) (hzero : n ≠ 0) (hn : n < 2 ^ 32)
    (m : Mem) (sign : List UInt8) (hsign : sign.length ≤ 1) :
    reverseString (((m.write 0 ((Nat.digits base n).map digitChar)).write
        (Nat.digits base n).length sign).write ((Nat.digits base n).length + sign.length) [0])
        ((Nat.digits base n).length + sign.length)
      = m.write 0 (sign ++ numeralText base n ++ [0]) := by
  have hlen : (Nat.digits base n).length ≤ 32 := by
    rw [Nat.digits_length_le_iff hbase]
    exact Nat.lt_of_lt_of_le hn (Nat.pow_le_pow_left hbase 32)
  have hdigits : ((Nat.digits base n).map digitChar ++ sign).length
      = (Nat.digits base n).length + sign.length := by
    rw [List.length_append, List.length_map]
  have hne : (Nat.digits base n).map digitChar ++ sign ≠ [] :=
    List.append_ne_nil_of_left_ne_nil
      (fun h => Nat.digits_ne_nil_iff_ne_zero.mpr hzero (List.map_eq_nil_iff.mp h)) _
  have hwrite : ((m.write 0 ((Nat.digits base n).map digitChar)).write
        (Nat.digits base n).length sign).write ((Nat.digits base n).length + sign.length) [0]
      = m.write 0 ((Nat.digits base n).map digitChar ++ sign ++ [0]) := by
    rw [Mem.write_append, Mem.write_append, Nat.zero_add, Nat.zero_add, hdigits, List.length_map]
  have hsign' : sign.reverse = sign := by
    -- a sign is one character at most, and is its own reverse
    rcases sign with _ | ⟨c, _ | ⟨d, rest⟩⟩
    · rfl
    · rfl
    · simp at hsign
  rw [hwrite, ← hdigits, reverseString_write m hne (by omega), List.reverse_append, hsign',
    ← List.map_reverse, ← numeral_of_ne_zero hzero]
  rfl

/-! ## The functions -/

/-- A base the functions are made for -/
structure GoodBase (base : BitVec 32) : Prop where
  lo : 2 ≤ base.toInt
  hi : base.toInt ≤ 36

theorem GoodBase.toNat {base : BitVec 32} (h : GoodBase base) :
    2 ≤ base.toNat ∧ base.toNat ≤ 36 := by
  have hlo := h.lo
  have hhi := h.hi
  rw [BitVec.toInt_eq_toNat_cond] at hlo hhi
  split at hlo <;> split at hhi <;> omega

/-- The number `itoa` writes the digits of, and the sign it writes -/
def uvalueOf (value base : BitVec 32) : List UInt8 × Nat :=
  if value.toInt < 0 ∧ base = 10 then ([charMinus], value.toInt.natAbs) else ([], value.toNat)

theorem itoa_eq {base : BitVec 32} (hbase : GoodBase base) (value : BitVec 32) (str : Mem) :
    itoa value str base = some (str.write 0 ((uvalueOf value base).1
      ++ numeralText base.toNat (uvalueOf value base).2 ++ [0])) := by
  have hguard : ¬ (base.toInt < 2 ∨ base.toInt > 36) := by
    have hlo := hbase.lo
    have hhi := hbase.hi
    omega
  rw [itoa, if_neg hguard]
  -- zero is written without the loop
  by_cases hzero : value = 0
  · subst hzero
    rfl
  · rw [if_neg hzero]
    have hne : value.toNat ≠ 0 := fun h => hzero (BitVec.eq_of_toNat_eq h)
    by_cases hneg : value.toInt < 0 ∧ base = 10
    · -- the digits are those of the absolute value, also for the smallest `int`
      have habs : (-(value + 1) + 1).toNat = value.toInt.natAbs := by
        have hminus : -(value + 1) + 1 = -value := by
          rw [BitVec.neg_add, BitVec.sub_add_cancel]
        have hlt := value.isLt
        have hneg' := hneg.1
        rw [hminus, BitVec.toNat_neg, BitVec.toInt_eq_toNat_cond]
        rw [BitVec.toInt_eq_toNat_cond] at hneg'
        split <;> omega
      have hpos : value.toInt.natAbs ≠ 0 := by omega
      have hlt : value.toInt.natAbs < 2 ^ 32 := by
        rw [← habs]
        exact (-(value + 1) + 1).isLt
      simp only [if_pos hneg, uvalueOf, habs]
      rw [digitLoop_eq hbase.toNat.1 hlt]
      simp only [Nat.zero_add]
      exact congrArg some (reverse_digits hbase.toNat.1 hpos hlt str [charMinus] (Nat.le_refl 1))
    · simp only [if_neg hneg, uvalueOf]
      rw [digitLoop_eq hbase.toNat.1 value.isLt]
      have hrev := reverse_digits hbase.toNat.1 hne value.isLt str [] (Nat.zero_le 1)
      rw [Mem.write_nil, List.length_nil, Nat.add_zero] at hrev
      simp only [Nat.zero_add]
      exact congrArg some hrev

/-- What `itoa` writes has no NUL in it. -/
theorem zero_not_mem_itoa {base : BitVec 32} (hbase : GoodBase base) (value : BitVec 32) :
    0 ∉ (uvalueOf value base).1 ++ numeralText base.toNat (uvalueOf value base).2 := by
  intro hmem
  rcases List.mem_append.mp hmem with hmem | hmem
  · unfold uvalueOf at hmem
    split at hmem
    · exact absurd (List.mem_singleton.mp hmem) (by decide)
    · cases hmem
  · exact zero_not_mem_numeralText hbase.toNat.1 hbase.toNat.2 _ hmem

theorem utoa_eq {base : BitVec 32} (hbase : GoodBase base) (num : BitVec 32) (str : Mem) :
    utoa num str base = some (str.write 0 (numeralText base.toNat num.toNat ++ [0])) := by
  rw [utoa]
  -- zero is written without the loop
  by_cases hzero : num = 0
  · subst hzero
    rfl
  · rw [if_neg hzero]
    have hne : num.toNat ≠ 0 := fun h => hzero (BitVec.eq_of_toNat_eq h)
    have hrev := reverse_digits hbase.toNat.1 hne num.isLt str [] (Nat.zero_le 1)
    rw [Mem.write_nil, List.length_nil, Nat.add_zero] at hrev
    rw [digitLoop_eq hbase.toNat.1 num.isLt]
    simp only [Nat.zero_add]
    exact congrArg some hrev

/-- `atoi` reads the decimal digits by Horner's rule. -/
theorem atoiLoop_digits (digits : List Nat) (h : ∀ d ∈ digits, d < 10) (acc : Nat) :
    atoiLoop (digits.map digitChar) (BitVec.ofNat 32 acc)
      = BitVec.ofNat 32 (digits.foldl (fun r d => r * 10 + d) acc) := by
  have hchar : ∀ d < 10, (48 ≤ digitChar d ∧ digitChar d ≤ 57) ∧ (digitChar d).toNat - 48 = d := by
    decide
  induction digits generalizing acc with
  | nil => rfl
  | cons d digits ih =>
      obtain ⟨hdigit, hvalue⟩ := hchar d (h d List.mem_cons_self)
      rw [List.map_cons, atoiLoop, if_pos hdigit, hvalue, List.foldl_cons,
        ← ih fun d hd => h d (List.mem_cons_of_mem _ hd), BitVec.ofNat_add, BitVec.ofNat_mul]
      rfl

theorem atoi_numeralText (n : Nat) : atoi (numeralText 10 n) = BitVec.ofNat 32 n := by
  have hspec := @numeral_spec 10 (by decide) n
  have hloop := atoiLoop_digits (numeral 10 n) hspec.lt_base 0
  rw [foldl_horner, Nat.zero_mul, Nat.zero_add, hspec.value] at hloop
  exact hloop

/-- The numbers are written exactly: without a superfluous zero in front, with digits below
    the base, NUL-terminated, and `atoi` reads `itoa` back. -/
theorem numbers_exact (base : BitVec 32) (hbase : GoodBase base) (value num : BitVec 32)
    (str : Mem) :
    (∃ text, itoa value str base = some (str.write 0 (text ++ [0])) ∧ 0 ∉ text ∧
      if base = 10 then DenotesInt text value.toInt else Denotes base.toNat text value.toNat) ∧
    (∃ text, utoa num str base = some (str.write 0 (text ++ [0])) ∧ 0 ∉ text ∧
      Denotes base.toNat text num.toNat) ∧
    ∃ text, itoa value str 10 = some (str.write 0 (text ++ [0])) ∧ 0 ∉ text ∧
      (0 ≤ value.toInt → atoi text = value) := by
  obtain ⟨hlo, hhi⟩ := hbase.toNat
  have hten : GoodBase 10 := ⟨by decide, by decide⟩
  refine ⟨⟨_, itoa_eq hbase value str, zero_not_mem_itoa hbase value, ?_⟩,
    ⟨_, utoa_eq hbase num str, zero_not_mem_numeralText hlo hhi _, denotes_numeralText hlo hhi _⟩,
    ⟨_, itoa_eq hten value str, zero_not_mem_itoa hten value, fun hpos => ?_⟩⟩
  · by_cases hbase' : base = 10
    · subst hbase'
      rw [if_pos rfl, DenotesInt, uvalueOf]
      by_cases hneg : value.toInt < 0
      · rw [if_pos hneg, if_pos ⟨hneg, rfl⟩]
        exact ⟨_, rfl, denotes_numeralText hlo hhi _⟩
      · have hsame : value.toInt.toNat = value.toNat := by
          rw [BitVec.toInt_eq_toNat_cond] at hneg ⊢
          split at hneg <;> omega
        rw [if_neg hneg, if_neg fun h => hneg h.1, hsame]
        exact denotes_numeralText hlo hhi _
    · rw [if_neg hbase', uvalueOf, if_neg fun h => hbase' h.2]
      exact denotes_numeralText hlo hhi _
  · rw [uvalueOf, if_neg fun h => absurd h.1 (Int.not_lt.mpr hpos)]
    have hread := atoi_numeralText value.toNat
    rw [BitVec.ofNat_toNat, BitVec.setWidth_eq] at hread
    exact hread

/-- The smallest `int` and the largest `unsigned int` in base 10, and a number that `atoi` reads
    back -/
theorem numbers_exact_decimal :
    (∃ text, itoa 0x80000000 (fun _ => 0xFF) 10 = some (Mem.write (fun _ => 0xFF) 0 (text ++ [0])) ∧
      0 ∉ text ∧ DenotesInt text (-2147483648)) ∧
    (∃ text, utoa 0xFFFFFFFF (fun _ => 0xFF) 10
      = some (Mem.write (fun _ => 0xFF) 0 (text ++ [0])) ∧ 0 ∉ text ∧ Denotes 10 text 4294967295) ∧
    ∃ text, itoa 2147483647 (fun _ => 0xFF) 10 = some (Mem.write (fun _ => 0xFF) 0 (text ++ [0])) ∧
      0 ∉ text ∧ atoi text = 2147483647 := by
  have hten : GoodBase 10 := ⟨by decide, by decide⟩
  obtain ⟨hsmallest, hlargest, -⟩ := numbers_exact 10 hten 0x80000000 0xFFFFFFFF fun _ => 0xFF
  obtain ⟨-, -, text, htext, hnul, hread⟩ := numbers_exact 10 hten 2147483647 0 fun _ => 0xFF
  exact ⟨hsmallest, hlargest, text, htext, hnul, hread (by decide)⟩

end Icarius
