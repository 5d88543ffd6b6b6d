/-
  Icarius.Libc.Itoa

  `itoa` of `src/x86/user/libc/stdio.c`, and how far it agrees with `itoa` of the kernel.
  Its loop runs while the number is above zero, so it writes no digit of a negative number
  in base 16, nor of the smallest `int`, which is its own negative.
-/

import Icarius.Kernel.Numbers

namespace Icarius

open Icarius.Lib

/-! ## stdio.c -/

namespace Libc

/-- `digits`, and the NUL behind it -/
def digits : List UInt8 :=
  [48, 49, 50, 51, 52, 53, 54, 55, 56, 57, 97, 98, 99, 100, 101, 102, 0]

/-- The loop over the digits, with `room` bytes of `buffer` left.  It must not divide by 0,
    read behind `digits` or write behind `buffer`. -/
def digitLoop (base : Int) : Nat → Int → List UInt8 → Option (List UInt8)
  | 0, num, buffer => if num > 0 then none else some buffer
  | room + 1, num, buffer =>
      if num > 0 then
        if base = 0 then none
        else
          match digits[(num.tmod base).toNat]? with
          | none => none
          | some c => digitLoop base room (num.tdiv base) (buffer ++ [c])
      else some buffer

/-- The loop that copies `buffer` from its end on, `k` rounds before its own, and the NUL -/
def turnLoop (buffer : List UInt8) : Nat → Nat → Mem → Mem
  | 0, j, str => str.write j [0]
  | k + 1, j, str =>
      turnLoop buffer k (j + 1) (str.write j [buffer.getD (buffer.length - j - 1) 0])

/-- `itoa`, with its `buffer` of 32 bytes -/
def itoa (num : BitVec 32) (str : Mem) (base : BitVec 32) : Option Mem :=
  if num = 0 then some (str.write 0 [48, 0])
  else
    let isNegative := num.toInt < 0 ∧ base = 10
    let num := if isNegative then -num else num
    match digitLoop base.toInt 32 num.toInt [] with
    | none => none
    | some buffer =>
        let buffer := if isNegative then buffer ++ [charMinus] else buffer
        if buffer.length < 32 then some (turnLoop buffer buffer.length 0 str) else none

end Libc

/-- The calls have left the same string. -/
def SameString (r r' : Option Mem) : Prop :=
  ∃ m ∈ r, ∃ m' ∈ r', ∃ text, 0 ∉ text ∧ m.IsText text ∧ m'.IsText text

/-! ## The loops -/

namespace Libc

theorem turnLoop_eq {buffer : List UInt8} {k j : Nat} (hlen : j + k = buffer.length) (str : Mem) :
    turnLoop buffer k j str = str.write j (buffer.reverse.drop j ++ [0]) := by
  -- over the rounds; the characters go to the string from the last one on
  induction k generalizing j str with
  | zero =>
      rw [turnLoop, List.drop_of_length_le (by rw [List.length_reverse]; omega), List.nil_append]
  | succ k ih =>
      have hj : j < buffer.reverse.length := by
        rw [List.length_reverse]
        omega
      have hlast : buffer.length - j - 1 < buffer.length := by omega
      have hchar : buffer.getD (buffer.length - j - 1) 0 = buffer.reverse[j] := by
        have hpos : buffer.length - j - 1 = buffer.length - 1 - j := by omega
        rw [List.getD_eq_getElem?_getD, List.getElem?_eq_getElem hlast, Option.getD_some,
          List.getElem_reverse]
        simp only [hpos]
      have hwrite := Mem.write_append str j [buffer.reverse[j]] (buffer.reverse.drop (j + 1) ++ [0])
      rw [List.length_singleton] at hwrite
      rw [turnLoop, ih (by omega), hchar, ← hwrite, List.drop_eq_getElem_cons hj]
      rfl

/-- A character for every digit of the two bases -/
theorem digits_getElem? : ∀ d < 16, digits[d]? = some (digitChar d) := by decide

/-- The digits of a number above zero are those the kernel writes. -/
theorem digitLoop_ofNat {base : Nat} (hlo : 2 ≤ base) (hhi : base ≤ 16) {room n : Nat}
    (hn : n < 2 ^ room) (buffer : List UInt8) :
    digitLoop base room n buffer = some (buffer ++ (Nat.digits base n).map digitChar) := by
  -- over the bytes that are left of `buffer`; a round takes one bit off at least
  induction room generalizing n buffer with
  | zero =>
      obtain rfl : n = 0 := by omega
      rw [digitLoop, if_neg (by decide), Nat.digits_zero, List.map_nil, List.append_nil]
  | succ room ih =>
      by_cases hzero : n = 0
      · subst hzero
        rw [digitLoop, if_neg (by decide), Nat.digits_zero, List.map_nil, List.append_nil]
      · have hpos : (n : Int) > 0 := by omega
        have hne : (base : Int) ≠ 0 := by omega
        have hdigit : n % base < 16 := Nat.lt_of_lt_of_le (Nat.mod_lt _ (by omega)) hhi
        rw [digitLoop, if_pos hpos, if_neg hne, ← Int.ofNat_tmod, ← Int.ofNat_tdiv, Int.toNat_natCast,
          digits_getElem? _ hdigit]
        dsimp only
        rw [ih (div_lt_two_pow hlo hn), Nat.digits_eq_cons_digits_div hlo hzero, List.map_cons,
          List.append_assoc, List.singleton_append]

/-- There is no digit of a number below zero. -/
theorem digitLoop_of_nonpos {base num : Int} (h : num ≤ 0) (room : Nat) (buffer : List UInt8) :
    digitLoop base room num buffer = some buffer := by
  cases room <;> rw [digitLoop, if_neg (Int.not_lt.mpr h)]

/-! ## The function -/

variable {num base : BitVec 32} {str : Mem}

/-- What `itoa` writes, once its loop has run -/
theorem itoa_of_digitLoop (hne : num ≠ 0) {sign buffer : List UInt8}
    (hsign : sign = if num.toInt < 0 ∧ base = 10 then [charMinus] else [])
    (hloop : digitLoop base.toInt 32 (if num.toInt < 0 ∧ base = 10 then -num else num).toInt []
      = some buffer) (hroom : buffer.length + sign.length < 32) :
    itoa num str base = some (str.write 0 (sign ++ buffer.reverse ++ [0])) := by
  have hbuffer : (if num.toInt < 0 ∧ base = 10 then buffer ++ [charMinus] else buffer)
      = buffer ++ sign := by
    rw [hsign]
    split
    · rfl
    · exact (List.append_nil _).symm
  have hrev : (buffer ++ sign).reverse = sign ++ buffer.reverse := by
    rw [List.reverse_append, hsign]
    split <;> rfl
  rw [itoa, if_neg hne]
  dsimp only
  rw [hloop]
  dsimp only
  rw [hbuffer, if_pos (by rw [List.length_append]; exact hroom), turnLoop_eq (Nat.zero_add _),
    List.drop_zero, hrev]

/-- The two bases are good ones, with characters for their digits. -/
theorem goodBase_of_eq (hbase : base = 10 ∨ base = 16) :
    GoodBase base ∧ base.toNat ≤ 16 ∧ base.toInt = (base.toNat : Int) := by
  rcases hbase with rfl | rfl
  · exact ⟨⟨by decide, by decide⟩, by decide, by decide⟩
  · exact ⟨⟨by decide, by decide⟩, by decide, by decide⟩

/-- A number below zero that is not its own negative, in base 10 -/
theorem itoa_eq_kernel_of_neg (hneg : num.toInt < 0) (hmin : num ≠ 0x80000000) :
    itoa num str 10 = Icarius.itoa num str 10 := by
  obtain ⟨hgood, hsixteen, hten⟩ := goodBase_of_eq (.inl rfl)
  have hzero : num ≠ 0 := by
    rintro rfl
    exact absurd hneg (by decide)
  have hmin' : num.toNat ≠ 2 ^ 31 := fun h => hmin (BitVec.eq_of_toNat_eq h)
  have hsign : num.toInt < 0 ∧ (10 : BitVec 32) = 10 := ⟨hneg, rfl⟩
  have habs : (-num).toInt = (num.toInt.natAbs : Int) ∧ num.toInt.natAbs < 2 ^ 31
      ∧ num.toInt.natAbs ≠ 0 := by
    have hlt := num.isLt
    rw [BitVec.toInt_eq_toNat_cond] at hneg
    rw [BitVec.toInt_eq_toNat_cond, BitVec.toInt_eq_toNat_cond, BitVec.toNat_neg]
    split at hneg
    · omega
    · rw [Nat.mod_eq_of_lt (by omega), if_pos (by omega)]
      omega
  have hlen : (Nat.digits (10 : BitVec 32).toNat num.toInt.natAbs).length ≤ 10 := by
    rw [Nat.digits_length_le_iff hgood.toNat.1]
    exact Nat.lt_trans habs.2.1 (by decide)
  have hloop := digitLoop_ofNat hgood.toNat.1 hsixteen
    (show num.toInt.natAbs < 2 ^ 32 from Nat.lt_trans habs.2.1 (by decide)) []
  rw [← habs.1, ← hten] at hloop
  rw [itoa_of_digitLoop hzero rfl (by rw [if_pos hsign, hloop, List.nil_append])
    (by rw [if_pos hsign, List.length_map, List.length_singleton]; omega), Icarius.itoa_eq hgood]
  rw [uvalueOf, if_pos hsign, if_pos hsign, numeralText, numeral_of_ne_zero habs.2.2,
    List.map_reverse]

/-- A number that is not below zero, in either base -/
theorem itoa_eq_kernel_of_nonneg (hbase : base = 10 ∨ base = 16) (hnum : 0 ≤ num.toInt) :
    itoa num str base = Icarius.itoa num str base := by
  obtain ⟨hgood, hsixteen, hint⟩ := goodBase_of_eq hbase
  rw [Icarius.itoa_eq hgood]
  by_cases hzero : num = 0
  · subst hzero
    rfl
  · have hpos : num.toNat ≠ 0 := fun h => hzero (BitVec.eq_of_toNat_eq h)
    have hsign : ¬ (num.toInt < 0 ∧ base = 10) := fun h => Int.not_lt.mpr hnum h.1
    have hnat : num.toInt = (num.toNat : Int) ∧ num.toNat < 2 ^ 31 := by
      have hlt := num.isLt
      rw [BitVec.toInt_eq_toNat_cond] at hnum ⊢
      split at hnum <;> omega
    have hlen : (Nat.digits base.toNat num.toNat).length ≤ 31 := by
      rw [Nat.digits_length_le_iff hgood.toNat.1]
      exact Nat.lt_of_lt_of_le hnat.2 (Nat.pow_le_pow_left hgood.toNat.1 31)
    have hloop := digitLoop_ofNat hgood.toNat.1 hsixteen num.isLt []
    rw [← hnat.1, ← hint] at hloop
    rw [itoa_of_digitLoop hzero rfl (by rw [if_neg hsign, hloop, List.nil_append])
      (by rw [if_neg hsign, List.length_map, List.length_nil]; omega)]
    rw [uvalueOf, if_neg hsign, if_neg hsign, numeralText, numeral_of_ne_zero hpos,
      List.map_reverse]

/-- In the two bases, a number whose digits the loop comes to is written as the kernel
    does. -/
theorem itoa_eq_kernel (hbase : base = 10 ∨ base = 16)
    (hnum : 0 ≤ num.toInt ∨ (base = 10 ∧ num ≠ 0x80000000)) :
    itoa num str base = Icarius.itoa num str base := by
  rcases Int.lt_or_le num.toInt 0 with hneg | hnonneg
  · obtain ⟨rfl, hmin⟩ := hnum.resolve_left (Int.not_le.mpr hneg)
    exact itoa_eq_kernel_of_neg hneg hmin
  · exact itoa_eq_kernel_of_nonneg hbase hnonneg

/-- A negative number in base 16, and the smallest `int`: nothing but the sign is written. -/
theorem itoa_of_no_digit (hneg : num.toInt < 0) (hbase : base = 16 ∨ num = 0x80000000) :
    itoa num str base
      = some (str.write 0 ((if base = 10 then [charMinus] else []) ++ [0])) := by
  have hne : num ≠ 0 := by
    rintro rfl
    exact absurd hneg (by decide)
  have hstays : (if num.toInt < 0 ∧ base = 10 then -num else num).toInt ≤ 0 := by
    rcases hbase with rfl | rfl
    · rw [if_neg fun h => absurd h.2 (by decide)]
      exact Int.le_of_lt hneg
    · split <;> decide
  have hloop := @digitLoop_of_nonpos base.toInt _ hstays 32 []
  rw [itoa_of_digitLoop hne rfl hloop (by split <;> decide), List.reverse_nil, List.append_nil]
  simp only [hneg, true_and]

end Libc

/-! ## Where the two agree -/

/-- Texts and their NUL are the same string exactly when they are the same. -/
theorem sameString_write {str : Mem} {text text' : List UInt8} (h : 0 ∉ text) (h' : 0 ∉ text') :
    SameString (some (str.write 0 (text ++ [0]))) (some (str.write 0 (text' ++ [0])))
      ↔ text = text' := by
  constructor
  · rintro ⟨m, hm, m', hm', both, hboth, htext, htext'⟩
    obtain rfl := Option.some.inj hm
    obtain rfl := Option.some.inj hm'
    have hone := (Mem.isText_write str rfl).unique htext h hboth
    have hother := (Mem.isText_write str rfl).unique htext' h' hboth
    exact hone.trans hother.symm
  · rintro rfl
    exact ⟨_, rfl, _, rfl, text, h, Mem.isText_write str rfl, Mem.isText_write str rfl⟩

/-- What is written for a negative number in one of the bases is its sign and its digits in
    the kernel, but the sign alone here. -/
theorem not_sameString_of_no_digit {num base : BitVec 32} (str : Mem) (hneg : num.toInt < 0)
    (hbase : base = 16 ∨ (base = 10 ∧ num = 0x80000000)) :
    ¬ SameString (Libc.itoa num str base) (itoa num str base) := by
  have hgood : GoodBase base := by
    rcases hbase with rfl | ⟨rfl, -⟩
    · exact ⟨by decide, by decide⟩
    · exact ⟨by decide, by decide⟩
  have hsign : (if base = 10 then [charMinus] else []) = (uvalueOf num base).1 := by
    rw [uvalueOf]
    by_cases hten : base = 10
    · rw [if_pos hten, if_pos ⟨hneg, hten⟩]
    · rw [if_neg hten, if_neg fun h => hten h.2]
  have hnul := zero_not_mem_itoa hgood num
  have hnul' : 0 ∉ (uvalueOf num base).1 := fun hmem => hnul (List.mem_append_left _ hmem)
  rw [Libc.itoa_of_no_digit hneg (hbase.imp_right And.right), itoa_eq hgood, hsign,
    sameString_write hnul' hnul]
  intro heq
  -- the kernel writes one digit at least
  have hnone := List.append_right_eq_self.mp heq.symm
  exact (numeral_spec hgood.toNat.1 _).ne_nil (List.map_eq_nil_iff.mp hnone)

/-- The two write the same string in base 10 for every number but the smallest, and in base
    16 for the numbers that are not negative. -/
theorem itoa_agrees_iff (num : BitVec 32) (str : Mem) :
    (SameString (Libc.itoa num str 10) (itoa num str 10) ↔ num ≠ 0x80000000) ∧
      (SameString (Libc.itoa num str 16) (itoa num str 16) ↔ 0 ≤ num.toInt) := by
  have hsame : ∀ base : BitVec 32, base = 10 ∨ base = 16 →
      (0 ≤ num.toInt ∨ (base = 10 ∧ num ≠ 0x80000000)) →
      SameString (Libc.itoa num str base) (itoa num str base) := by
    intro base hbase hnum
    have hgood := (Libc.goodBase_of_eq hbase).1
    rw [Libc.itoa_eq_kernel hbase hnum, itoa_eq hgood]
    exact (sameString_write (zero_not_mem_itoa hgood num) (zero_not_mem_itoa hgood num)).mpr rfl
  constructor
  · constructor
    · rintro h rfl
      exact not_sameString_of_no_digit str (by decide) (.inr ⟨rfl, rfl⟩) h
    · exact fun hmin => hsame 10 (.inl rfl) (.inr ⟨rfl, hmin⟩)
  · constructor
    · intro h
      by_contra hneg
      exact not_sameString_of_no_digit str (Int.not_le.mp hneg) (.inl rfl) h
    · exact fun hpos => hsame 16 (.inr rfl) (.inl hpos)

/-- `-1` in base 16: `"ffffffff"` in the kernel, and no character here -/
theorem exists_itoa_differs : ¬ ∀ (num : BitVec 32) (str : Mem) (base : BitVec 32),
    base = 10 ∨ base = 16 → SameString (Libc.itoa num str base) (itoa num str base) := by
  intro hall
  obtain ⟨m, hm, m', hm', text, -, htext, htext'⟩ := hall (-1) (fun _ => 0) 16 (.inr rfl)
  have hnone : (Libc.itoa (-1) (fun _ => 0) 16).map (fun m => m 0) = some 0 := by decide
  have hletter : (itoa (-1) (fun _ => 0) 16).map (fun m => m 0) = some 102 := by decide
  rw [Option.mem_def.mp hm] at hnone
  rw [Option.mem_def.mp hm'] at hletter
  have hfirst : m' 0 = m 0 := (htext' 0 (Nat.zero_le _)).trans (htext 0 (Nat.zero_le _)).symm
  have hzero : m 0 = 0 := Option.some.inj hnone
  have hother : m' 0 = 102 := Option.some.inj hletter
  rw [hfirst, hzero] at hother
  exact absurd hother (by decide)

end Icarius
