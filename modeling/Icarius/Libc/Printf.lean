/-
  Icarius.Libc.Printf

  `vsnprintf` of `src/x86/user/libc/stdio.c`.  A string is the text up to its NUL, the
  arguments behind `...` are a list, and `dtoa` is the text that `dtoa` makes of a double.

  Every loop that writes to the buffer stops where it is full, so what is in the buffer is
  always the beginning of one text that does not depend on the size (`outOf`).
-/

import Icarius.Libc.Itoa

namespace Icarius.Libc

open Icarius.Lib

/-! ## stdio.c -/

/-- `'%'` -/
def charPercent : UInt8 := 37

/-- `'0'` -/
def charZero : UInt8 := 48

/-- `' '` -/
def charSpace : UInt8 := 32

/-- A character between `'0'` and `'9'` -/
def isDigit (c : UInt8) : Bool := 48 ≤ c && c ≤ 57

/-- An argument: an `int`, a `char*` to a text or null, or the bits of a `double` -/
inductive VaArg where
  | int (num : BitVec 32)
  | string (str : Option (List UInt8))
  | double (bits : UInt64)

/-- `buffer` and `pos` -/
structure Out where
  buffer : Mem
  pos : Nat

/-- `left_align`, `zero_pad` and `width` -/
structure FormatSpec where
  leftAlign : Bool
  zeroPad : Bool
  width : BitVec 32

/-- `buffer[pos++] = c` -/
def Out.put (o : Out) (c : UInt8) : Out := ⟨o.buffer.write o.pos [c], o.pos + 1⟩

/-- `if (pos < size - 1) buffer[pos++] = c`, with `limit` for `size - 1` -/
def Out.putBelow (limit : Nat) (c : UInt8) (o : Out) : Out :=
  if o.pos < limit then o.put c else o

/-- A loop over `pad`, `k` rounds before its end -/
def padLoop (limit : Nat) (c : UInt8) : Nat → Out → Out
  | 0, o => o
  | k + 1, o => if o.pos < limit then padLoop limit c k (o.put c) else o

/-- A loop that copies a string -/
def copyLoop (limit : Nat) : List UInt8 → Out → Out
  | [], o => o
  | c :: str, o => if o.pos < limit then copyLoop limit str (o.put c) else o

/-- Pad a string of length `len` where `cond` says so; the comparison is one of `size_t`. -/
def padTo (limit : Nat) (cond : Bool) (c : UInt8) (spec : FormatSpec) (len : Nat) (o : Out) : Out :=
  if cond ∧ spec.width.toNat > len then padLoop limit c (spec.width.toNat - len) o else o

/-- The string at the beginning of an array of `size` bytes -/
def cstring (m : Mem) (size : Nat) : List UInt8 := ((List.range size).map m).takeWhile (· ≠ 0)

/-- The case `'d'`, for what `itoa` leaves in `temp` -/
def formatD (limit : Nat) (spec : FormatSpec) (temp : List UInt8) (o : Out) : Out :=
  let len := temp.length
  let o := padTo limit (!spec.leftAlign) (if spec.zeroPad then charZero else charSpace) spec len o
  let o := copyLoop limit temp o
  padTo limit spec.leftAlign charSpace spec len o

/-- The case `'x'`, which pads with zeros only -/
def formatX (limit : Nat) (spec : FormatSpec) (temp : List UInt8) (o : Out) : Out :=
  let len := temp.length
  let o := padTo limit spec.zeroPad charZero spec len o
  copyLoop limit temp o

/-- The case `'s'`; a null pointer is printed as `"0x0"`. -/
def formatS (limit : Nat) (spec : FormatSpec) (str : Option (List UInt8)) (o : Out) : Out :=
  let str := str.getD [48, 120, 48]
  let len := str.length
  let o := padTo limit (spec.width.toInt > 0 && !spec.leftAlign) charSpace spec len o
  let o := copyLoop limit str o
  padTo limit (spec.width.toInt > 0 && spec.leftAlign) charSpace spec len o

/-- The loop over the width; an `int` wraps. -/
def parseWidth : List UInt8 → BitVec 32 → BitVec 32 × List UInt8
  | [], width => (width, [])
  | c :: format, width =>
      if isDigit c then parseWidth format (width * 10 + BitVec.ofNat 32 (c.toNat - 48))
      else (width, c :: format)

/-- The optional `'0'` and the width -/
def parseZero (leftAlign : Bool) (format : List UInt8) : FormatSpec × List UInt8 :=
  if format.headD 0 = charZero then
    let (width, format) := parseWidth format.tail 0
    (⟨leftAlign, true, width⟩, format)
  else
    let (width, format) := parseWidth format 0
    (⟨leftAlign, false, width⟩, format)

/-- The flags and the width of a conversion, and the format from its character on -/
def parseSpec (format : List UInt8) : FormatSpec × List UInt8 :=
  if format.headD 0 = charMinus then parseZero true format.tail else parseZero false format

section Vsnprintf

variable (dtoa : UInt64 → List UInt8) (temp : Mem)

/-- The `switch` over the character of a conversion, with `temp` as it is found.  An argument
    of another type is not read. -/
def convert (limit : Nat) (spec : FormatSpec) (ch : UInt8) (args : List VaArg) (o : Out) :
    Option (Out × List VaArg) :=
  if ch = 100 then
    match args with
    | .int num :: args =>
        (itoa num temp 10).map fun temp => (formatD limit spec (cstring temp 128) o, args)
    | _ => none
  else if ch = 120 then
    match args with
    | .int num :: args =>
        (itoa num temp 16).map fun temp => (formatX limit spec (cstring temp 128) o, args)
    | _ => none
  else if ch = 115 then
    match args with
    | .string str :: args => some (formatS limit spec str o, args)
    | _ => none
  else if ch = 99 then
    match args with
    | .int num :: args => some (o.putBelow limit (UInt8.ofNat num.toNat), args)
    | _ => none
  else if ch = 102 then
    match args with
    | .double bits :: args => some (copyLoop limit (dtoa bits) o, args)
    | _ => none
  else if ch = charPercent then some (o.putBelow limit charPercent, args)
  else some (o.putBelow limit ch, args)

/-- The loop of `vsnprintf`.  Each round takes a character of the format at least; a
    conversion that the NUL ends would read behind the format. -/
def formatLoop (limit : Nat) : Nat → List UInt8 → List VaArg → Out → Option Out
  | _, [], _, o => some o
  | 0, _ :: _, _, _ => none
  | fuel + 1, c :: format, args, o =>
      if o.pos < limit then
        if c = charPercent then
          if format.headD 0 = charPercent then
            formatLoop limit fuel format.tail args (o.put charPercent)
          else
            let (spec, format) := parseSpec format
            match format with
            | [] => none
            | ch :: format =>
                match convert dtoa temp limit spec ch args o with
                | none => none
                | some (o, args) => formatLoop limit fuel format args o
        else formatLoop limit fuel format args (o.put c)
      else some o

/-- `vsnprintf`: the buffer, and the `int` it returns.  `size - 1` is one of `size_t`. -/
def vsnprintf (buffer : Mem) (size : Nat) (format : List UInt8) (args : List VaArg) :
    Option (Mem × BitVec 32) :=
  let limit := (size + 2 ^ 32 - 1) % 2 ^ 32
  (formatLoop dtoa temp limit format.length format args ⟨buffer, 0⟩).map fun o =>
    (o.buffer.write o.pos [0], BitVec.ofNat 32 o.pos)

end Vsnprintf

/-! ## Formats -/

/-- The conversions of integers, strings and characters, and the one of `'%'` -/
inductive Conversion where
  | d
  | x
  | s
  | c
  | percent

/-- The character of a conversion -/
def Conversion.char : Conversion → UInt8
  | .d => 100
  | .x => 120
  | .s => 115
  | .c => 99
  | .percent => charPercent

/-- The arguments a conversion takes; a string has no NUL in it. -/
inductive Conversion.Takes : Conversion → List VaArg → Prop
  | d (num : BitVec 32) : Takes .d [.int num]
  | x (num : BitVec 32) : Takes .x [.int num]
  | s (str : Option (List UInt8)) (hnul : ∀ text ∈ str, 0 ∉ text) : Takes .s [.string str]
  | c (num : BitVec 32) : Takes .c [.int num]
  | percent : Takes .percent []

/-- The value of a decimal width -/
def widthValue (width : List UInt8) : Nat := width.foldl (fun w c => w * 10 + (c.toNat - 48)) 0

/-- A format each `'%'` of which starts a conversion, with arguments that match it -/
inductive Formats : List UInt8 → List VaArg → Prop
  | nil (args : List VaArg) : Formats [] args
  | char {c : UInt8} {format : List UInt8} {args : List VaArg} (hnul : c ≠ 0)
      (hpercent : c ≠ charPercent) (h : Formats format args) : Formats (c :: format) args
  | conversion {minus zero : Bool} {width : List UInt8} {kind : Conversion}
      {taken args : List VaArg} {format : List UInt8} (hwidth : ∀ c ∈ width, isDigit c = true)
      (hlt : widthValue width < 2 ^ 31) (htakes : kind.Takes taken) (h : Formats format args) :
      Formats (charPercent :: ((if minus then [charMinus] else [])
        ++ ((if zero then [charZero] else []) ++ (width ++ kind.char :: format)))) (taken ++ args)

/-! ## The buffer -/

/-- The buffer and the position, when `text` is to be written and there is room for `limit`
    characters of it -/
def outOf (buffer : Mem) (limit : Nat) (text : List UInt8) : Out :=
  ⟨buffer.write 0 (text.take limit), min limit text.length⟩

/-- The characters that pad a string of length `len` -/
def padding (cond : Bool) (c : UInt8) (spec : FormatSpec) (len : Nat) : List UInt8 :=
  if cond ∧ spec.width.toNat > len then List.replicate (spec.width.toNat - len) c else []

section Buffer

variable {buffer : Mem} {limit : Nat} {text : List UInt8}

theorem outOf_pos_lt : (outOf buffer limit text).pos < limit ↔ text.length < limit := by
  show min limit text.length < limit ↔ _
  omega

/-- A full buffer does not change any more. -/
theorem outOf_of_full (h : ¬ text.length < limit) (more : List UInt8) :
    outOf buffer limit (text ++ more) = outOf buffer limit text := by
  have htake : (text ++ more).take limit = text.take limit :=
    List.take_append_of_le_length (Nat.le_of_not_lt h)
  have hpos : min limit (text ++ more).length = min limit text.length := by
    rw [List.length_append]
    omega
  rw [outOf, outOf, htake, hpos]

theorem put_outOf (h : text.length < limit) (c : UInt8) :
    (outOf buffer limit text).put c = outOf buffer limit (text ++ [c]) := by
  have htake : text.take limit = text := List.take_of_length_le (Nat.le_of_lt h)
  have htake' : (text ++ [c]).take limit = text ++ [c] :=
    List.take_of_length_le (by rw [List.length_append, List.length_singleton]; omega)
  have hpos : min limit text.length = text.length := Nat.min_eq_right (Nat.le_of_lt h)
  have hpos' : min limit (text ++ [c]).length = text.length + 1 := by
    rw [List.length_append, List.length_singleton]
    omega
  rw [Out.put, outOf, outOf, htake, htake', hpos, hpos', Mem.write_append, Nat.zero_add]

theorem putBelow_outOf (c : UInt8) :
    (outOf buffer limit text).putBelow limit c = outOf buffer limit (text ++ [c]) := by
  unfold Out.putBelow
  by_cases hroom : text.length < limit
  · rw [if_pos (outOf_pos_lt.mpr hroom), put_outOf hroom]
  · rw [if_neg (mt outOf_pos_lt.mp hroom), outOf_of_full hroom]

theorem padLoop_outOf (c : UInt8) (k : Nat) :
    padLoop limit c k (outOf buffer limit text)
      = outOf buffer limit (text ++ List.replicate k c) := by
  induction k generalizing text with
  | zero => rw [List.replicate_zero, List.append_nil, padLoop]
  | succ k ih =>
      rw [padLoop]
      by_cases hroom : text.length < limit
      · rw [if_pos (outOf_pos_lt.mpr hroom), put_outOf hroom, ih, List.append_assoc,
          List.replicate_succ, List.singleton_append]
      · rw [if_neg (mt outOf_pos_lt.mp hroom), outOf_of_full hroom]

theorem copyLoop_outOf (str : List UInt8) :
    copyLoop limit str (outOf buffer limit text) = outOf buffer limit (text ++ str) := by
  induction str generalizing text with
  | nil => rw [List.append_nil, copyLoop]
  | cons c str ih =>
      rw [copyLoop]
      by_cases hroom : text.length < limit
      · rw [if_pos (outOf_pos_lt.mpr hroom), put_outOf hroom, ih, List.append_assoc,
          List.singleton_append]
      · rw [if_neg (mt outOf_pos_lt.mp hroom), outOf_of_full hroom]

/-- The padding, as far as there is room for it -/
theorem padTo_outOf (cond : Bool) (c : UInt8) (spec : FormatSpec) (len : Nat) :
    padTo limit cond c spec len (outOf buffer limit text)
      = outOf buffer limit (text ++ padding cond c spec len) := by
  unfold padTo padding
  split
  · exact padLoop_outOf c _
  · rw [List.append_nil]

end Buffer

/-! ## One conversion -/

/-- `f` writes `more`, as far as there is room for it. -/
def Renders (f : Nat → Out → Out) (more : List UInt8) : Prop :=
  ∀ buffer limit text, f limit (outOf buffer limit text) = outOf buffer limit (text ++ more)

/-- What `%d` writes -/
def textD (spec : FormatSpec) (temp : List UInt8) : List UInt8 :=
  padding (!spec.leftAlign) (if spec.zeroPad then charZero else charSpace) spec temp.length
    ++ (temp ++ padding spec.leftAlign charSpace spec temp.length)

/-- What `%x` writes -/
def textX (spec : FormatSpec) (temp : List UInt8) : List UInt8 :=
  padding spec.zeroPad charZero spec temp.length ++ temp

/-- What `%s` writes of a string -/
def textS (spec : FormatSpec) (str : List UInt8) : List UInt8 :=
  padding (spec.width.toInt > 0 && !spec.leftAlign) charSpace spec str.length
    ++ (str ++ padding (spec.width.toInt > 0 && spec.leftAlign) charSpace spec str.length)

theorem renders_formatD (spec : FormatSpec) (temp : List UInt8) :
    Renders (fun limit => formatD limit spec temp) (textD spec temp) := by
  intro buffer limit text
  simp only [formatD]
  rw [padTo_outOf, copyLoop_outOf, padTo_outOf, List.append_assoc, List.append_assoc, textD]

theorem renders_formatX (spec : FormatSpec) (temp : List UInt8) :
    Renders (fun limit => formatX limit spec temp) (textX spec temp) := by
  intro buffer limit text
  simp only [formatX]
  rw [padTo_outOf, copyLoop_outOf, List.append_assoc, textX]

theorem renders_formatS (spec : FormatSpec) (str : Option (List UInt8)) :
    Renders (fun limit => formatS limit spec str) (textS spec (str.getD [48, 120, 48])) := by
  intro buffer limit text
  simp only [formatS]
  rw [padTo_outOf, copyLoop_outOf, padTo_outOf, List.append_assoc, List.append_assoc, textS]

/-- `itoa` returns in the bases of `%d` and `%x`. -/
theorem exists_itoa (num base : BitVec 32) (str : Mem) (hbase : base = 10 ∨ base = 16) :
    ∃ m, itoa num str base = some m := by
  -- a number below zero may leave nothing but its sign
  by_cases hneg : num.toInt < 0
  · by_cases hten : base = 10 ∧ num ≠ 0x80000000
    · rw [itoa_eq_kernel hbase (.inr hten)]
      exact ⟨_, Icarius.itoa_eq (hten.1 ▸ ⟨by decide, by decide⟩) num str⟩
    · refine ⟨_, itoa_of_no_digit hneg ?_⟩
      rcases hbase with rfl | rfl
      · exact .inr (Classical.not_not.mp fun hne => hten ⟨rfl, hne⟩)
      · exact .inl rfl
  · rw [itoa_eq_kernel hbase (.inl (Int.not_lt.mp hneg))]
    exact ⟨_, Icarius.itoa_eq (goodBase_of_eq hbase).1 num str⟩

section Convert

variable (dtoa : UInt64 → List UInt8) (temp : Mem)

/-- A conversion takes its arguments and writes a text that the size of the buffer has no
    part in. -/
theorem exists_convert {kind : Conversion} {taken : List VaArg} (h : kind.Takes taken)
    (spec : FormatSpec) : ∃ more, ∀ buffer limit text args,
      convert dtoa temp limit spec kind.char (taken ++ args) (outOf buffer limit text)
        = some (outOf buffer limit (text ++ more), args) := by
  cases h with
  | d num =>
      obtain ⟨m, hm⟩ := exists_itoa num 10 temp (.inl rfl)
      refine ⟨textD spec (cstring m 128), fun buffer limit text args => ?_⟩
      rw [← renders_formatD spec (cstring m 128)]
      show (itoa num temp 10).map (fun temp =>
        (formatD limit spec (cstring temp 128) (outOf buffer limit text), args)) = _
      rw [hm]
      rfl
  | x num =>
      obtain ⟨m, hm⟩ := exists_itoa num 16 temp (.inr rfl)
      refine ⟨textX spec (cstring m 128), fun buffer limit text args => ?_⟩
      rw [← renders_formatX spec (cstring m 128)]
      show (itoa num temp 16).map (fun temp =>
        (formatX limit spec (cstring temp 128) (outOf buffer limit text), args)) = _
      rw [hm]
      rfl
  | s str hnul =>
      refine ⟨textS spec (str.getD [48, 120, 48]), fun buffer limit text args => ?_⟩
      rw [← renders_formatS spec str]
      rfl
  | c num =>
      refine ⟨[UInt8.ofNat num.toNat], fun buffer limit text args => ?_⟩
      rw [← putBelow_outOf]
      rfl
  | percent =>
      refine ⟨[charPercent], fun buffer limit text args => ?_⟩
      rw [← putBelow_outOf]
      rfl

end Convert

/-! ## The flags and the width -/

theorem Conversion.char_spec (kind : Conversion) : isDigit kind.char = false ∧
    kind.char ≠ charMinus ∧ kind.char ≠ charZero := by
  cases kind <;> decide

theorem exists_parseWidth {width : List UInt8} (hwidth : ∀ c ∈ width, isDigit c = true)
    {c : UInt8} (hc : isDigit c = false) (format : List UInt8) (w : BitVec 32) :
    ∃ w', parseWidth (width ++ c :: format) w = (w', c :: format) := by
  induction width generalizing w with
  | nil =>
      refine ⟨w, ?_⟩
      rw [List.nil_append, parseWidth, hc]
      rfl
  | cons d width ih =>
      obtain ⟨w', hw'⟩ := ih (fun c hc => hwidth c (List.mem_cons_of_mem _ hc))
        (w * 10 + BitVec.ofNat 32 (d.toNat - 48))
      refine ⟨w', ?_⟩
      rw [List.cons_append, parseWidth, if_pos (hwidth d List.mem_cons_self), hw']

/-- A zero in front is the flag, and the digits behind it are the width. -/
theorem exists_parseZero {digits : List UInt8} (hdigits : ∀ c ∈ digits, isDigit c = true)
    (kind : Conversion) (leftAlign : Bool) (format : List UInt8) :
    ∃ spec, parseZero leftAlign (digits ++ kind.char :: format) = (spec, kind.char :: format) := by
  obtain ⟨hchar, -, hzero⟩ := kind.char_spec
  unfold parseZero
  -- the first zero is the flag, also where it was meant for the width
  by_cases hfirst : (digits ++ kind.char :: format).headD 0 = charZero
  · obtain ⟨d, rest, rfl⟩ : ∃ d rest, digits = d :: rest := by
      cases digits with
      | nil => exact absurd hfirst hzero
      | cons d rest => exact ⟨d, rest, rfl⟩
    obtain ⟨w, hw⟩ := exists_parseWidth
      (fun c hc => hdigits c (List.mem_cons_of_mem _ hc)) hchar format 0
    refine ⟨⟨leftAlign, true, w⟩, ?_⟩
    rw [if_pos hfirst, List.cons_append, List.tail_cons, hw]
  · obtain ⟨w, hw⟩ := exists_parseWidth hdigits hchar format 0
    refine ⟨⟨leftAlign, false, w⟩, ?_⟩
    rw [if_neg hfirst, hw]

/-- The parser stops at the character of the conversion. -/
theorem exists_parseSpec (minus zero : Bool) {width : List UInt8}
    (hwidth : ∀ c ∈ width, isDigit c = true) (kind : Conversion) (format : List UInt8) :
    ∃ spec, parseSpec ((if minus then [charMinus] else [])
        ++ ((if zero then [charZero] else []) ++ (width ++ kind.char :: format)))
      = (spec, kind.char :: format) := by
  have hzeros : ∀ c ∈ (if zero then [charZero] else []) ++ width, isDigit c = true := by
    intro c hc
    rcases List.mem_append.mp hc with hc | hc
    · split at hc
      · rw [List.mem_singleton.mp hc]
        rfl
      · cases hc
    · exact hwidth c hc
  rw [← List.append_assoc (if zero then [charZero] else [])]
  generalize (if zero then [charZero] else []) ++ width = digits at hzeros
  unfold parseSpec
  -- the sign is the first thing the parser looks for
  cases minus with
  | true => exact exists_parseZero hzeros kind true format
  | false =>
      -- without the flag, a digit or the character of the conversion is in front
      have hhead : (digits ++ kind.char :: format).headD 0 ≠ charMinus := by
        cases digits with
        | nil => exact kind.char_spec.2.1
        | cons d digits =>
            intro hd
            have hdigit := hzeros d List.mem_cons_self
            rw [List.cons_append, List.headD_cons] at hd
            rw [hd] at hdigit
            exact absurd hdigit (by decide)
      simp only [Bool.false_eq_true, if_false, List.nil_append]
      rw [if_neg hhead]
      exact exists_parseZero hzeros kind false format

/-- Two `'%'` in a row are a conversion without flags. -/
theorem eq_of_head_percent {minus zero : Bool} {width : List UInt8} {kind : Conversion}
    {format : List UInt8} (hwidth : ∀ c ∈ width, isDigit c = true)
    (h : ((if minus then [charMinus] else []) ++ ((if zero then [charZero] else [])
      ++ (width ++ kind.char :: format))).headD 0 = charPercent) :
    minus = false ∧ zero = false ∧ width = [] ∧ kind = .percent := by
  cases minus with
  | true => exact absurd h (by decide : charMinus ≠ charPercent)
  | false =>
      cases zero with
      | true => exact absurd h (by decide : charZero ≠ charPercent)
      | false =>
          cases width with
          | nil =>
              have hkind : kind.char = charPercent := h
              refine ⟨rfl, rfl, rfl, ?_⟩
              cases kind with
              | percent => rfl
              | _ => exact absurd hkind (by decide)
          | cons d width =>
              obtain rfl : d = charPercent := h
              exact absurd (hwidth charPercent List.mem_cons_self) (by decide)

/-! ## The whole format -/

section Whole

variable (dtoa : UInt64 → List UInt8) (temp : Mem)

/-- A format with arguments that match it stands for a text; the loop writes as much of it as
    there is room for. -/
theorem exists_formatLoop {format : List UInt8} {args : List VaArg} (h : Formats format args) :
    ∃ more, ∀ buffer limit text fuel, format.length ≤ fuel →
      formatLoop dtoa temp limit fuel format args (outOf buffer limit text)
        = some (outOf buffer limit (text ++ more)) := by
  -- over the format; each piece of it adds the text it stands for
  induction h with
  | nil args =>
      refine ⟨[], fun buffer limit text fuel _ => ?_⟩
      rw [List.append_nil]
      cases fuel <;> rfl
  | @char c format args hnul hpercent _ ih =>
      obtain ⟨more, hmore⟩ := ih
      refine ⟨c :: more, fun buffer limit text fuel hfuel => ?_⟩
      obtain ⟨fuel, rfl⟩ : ∃ k, fuel = k + 1 := ⟨fuel - 1, by rw [List.length_cons] at hfuel; omega⟩
      rw [formatLoop]
      by_cases hroom : text.length < limit
      · rw [if_pos (outOf_pos_lt.mpr hroom), if_neg hpercent, put_outOf hroom,
          hmore _ _ _ _ (Nat.le_of_succ_le_succ hfuel), List.append_assoc, List.singleton_append]
      · rw [if_neg (mt outOf_pos_lt.mp hroom), outOf_of_full hroom]
  | @conversion minus zero width kind taken args format hwidth hlt htakes _ ih =>
      obtain ⟨more, hmore⟩ := ih
      -- a pair of two `'%'` is taken before the flags are looked for
      by_cases hpair : ((if minus then [charMinus] else []) ++ ((if zero then [charZero] else [])
          ++ (width ++ kind.char :: format))).headD 0 = charPercent
      · obtain ⟨rfl, rfl, rfl, rfl⟩ := eq_of_head_percent hwidth hpair
        cases htakes
        refine ⟨charPercent :: more, fun buffer limit text fuel hfuel => ?_⟩
        obtain ⟨fuel, rfl⟩ : ∃ k, fuel = k + 1 :=
          ⟨fuel - 1, by rw [List.length_cons] at hfuel; omega⟩
        rw [formatLoop]
        by_cases hroom : text.length < limit
        · have hfuel' : format.length ≤ fuel := by
            simp only [Bool.false_eq_true, if_false, List.nil_append, List.length_cons] at hfuel
            omega
          rw [if_pos (outOf_pos_lt.mpr hroom), if_pos rfl, if_pos hpair, put_outOf hroom]
          have hrest := hmore buffer limit (text ++ [charPercent]) fuel hfuel'
          rw [List.append_assoc, List.singleton_append] at hrest
          exact hrest
        · rw [if_neg (mt outOf_pos_lt.mp hroom), outOf_of_full hroom]
      · obtain ⟨spec, hspec⟩ := exists_parseSpec minus zero hwidth kind format
        obtain ⟨field, hfield⟩ := exists_convert dtoa temp htakes spec
        refine ⟨field ++ more, fun buffer limit text fuel hfuel => ?_⟩
        obtain ⟨fuel, rfl⟩ : ∃ k, fuel = k + 1 :=
          ⟨fuel - 1, by rw [List.length_cons] at hfuel; omega⟩
        rw [formatLoop]
        by_cases hroom : text.length < limit
        · have hfuel' : format.length ≤ fuel := by
            simp only [List.length_append, List.length_cons] at hfuel
            omega
          rw [if_pos (outOf_pos_lt.mpr hroom), if_pos rfl, if_neg hpair, hspec]
          simp only [hfield]
          rw [hmore _ _ _ _ hfuel', List.append_assoc]
        · rw [if_neg (mt outOf_pos_lt.mp hroom), outOf_of_full hroom]

/-- A format with arguments that match it stands for one text.  With a buffer of any size,
    `vsnprintf` writes as much of it as leaves room for the NUL, the NUL behind it and
    nothing else, and returns how much that is; a buffer larger than the text gets all of
    it. -/
theorem vsnprintf_truncates (format : List UInt8) (args : List VaArg) (h : Formats format args) :
    ∃ text : List UInt8, ∀ (size : Nat) (buffer : Mem), 1 ≤ size → size < 2 ^ 32 →
      vsnprintf dtoa temp buffer size format args
        = some (buffer.write 0 (text.take (size - 1) ++ [0]),
          BitVec.ofNat 32 (min (size - 1) text.length)) := by
  obtain ⟨text, htext⟩ := exists_formatLoop dtoa temp h
  refine ⟨text, fun size buffer hpos hlt => ?_⟩
  have hlimit : (size + 2 ^ 32 - 1) % 2 ^ 32 = size - 1 := by omega
  have hstart : (⟨buffer, 0⟩ : Out) = outOf buffer (size - 1) [] := by
    rw [outOf, List.take_nil, Mem.write_nil, List.length_nil, Nat.min_zero]
  have hend : (text.take (size - 1)).length = min (size - 1) text.length := List.length_take
  rw [vsnprintf, hlimit, hstart, htext _ _ _ _ (Nat.le_refl _), List.nil_append, Option.map_some,
    Mem.write_append, hend, Nat.zero_add]
  rfl

/-- `"%-03d|%s"` with `7` and `"ok"` -/
theorem vsnprintf_truncates_padded :
    ∃ text : List UInt8, ∀ (size : Nat) (buffer : Mem), 1 ≤ size → size < 2 ^ 32 →
      vsnprintf (fun _ => []) (fun _ => 0) buffer size [37, 45, 48, 51, 100, 124, 37, 115]
        [.int 7, .string (some [111, 107])]
        = some (buffer.write 0 (text.take (size - 1) ++ [0]),
          BitVec.ofNat 32 (min (size - 1) text.length)) := by
  have hstring : Formats [37, 115] [.string (some [111, 107])] :=
    @Formats.conversion false false [] _ _ _ _ (fun c hc => absurd hc List.not_mem_nil) (by decide)
      (.s (some [111, 107]) (by simp)) (.nil [])
  have hbar : Formats [124, 37, 115] [.string (some [111, 107])] :=
    .char (by decide) (by decide) hstring
  have hdigits : ∀ c ∈ [51], isDigit c = true := List.forall_mem_singleton.mpr rfl
  exact vsnprintf_truncates _ _ _ _ (@Formats.conversion true true [51] _ _ _ _ hdigits
    (by decide) (.d 7) hbar)

end Whole

end Icarius.Libc
