/-
  Icarius.Fs.PathLexer

  The path lexer of `src/x86/fs/pathlexer.c`.  A pointer into the path is the text
  from there on, without the NUL that ends it; reading at the end gives that NUL.
  The tokens of a whole text (`pathTokens`) are what the parser is compared with.
-/

import Mathlib.Data.List.TakeWhile

namespace Icarius

/-! ## Characters -/

/-- `isalpha` of `lib/ctype.c` -/
def isalpha (c : UInt8) : Bool :=
  (65 ≤ c && c ≤ 90) || (97 ≤ c && c ≤ 122)

/-- `'/'` -/
def charSlash : UInt8 := 47

/-- `':'` -/
def charColon : UInt8 := 58

/-- `'.'` -/
def charDot : UInt8 := 46

/-! ## Tokens -/

/-- `pathtype_t` -/
inductive PathType where
  | ptIdentifier
  | ptLetter
  | ptColon
  | ptSlash
  | ptDot
  | ptEnd
  | ptErr
  deriving DecidableEq, Repr

/-- `pathtoken_t` -/
structure PathToken where
  type : PathType
  start : List UInt8
  len : Nat
  deriving DecidableEq, Repr

/-- `pathlexer_t` -/
structure PathLexer where
  start : List UInt8
  curr : List UInt8

namespace PathLexer

/-- `path_lexer_init` -/
def init (path : List UInt8) : PathLexer := ⟨path, path⟩

/-- `_path_lexer_peek` -/
def peek (self : PathLexer) : UInt8 := self.curr.headD 0

/-- `_path_lexer_is_eof` -/
def isEof (self : PathLexer) : Bool := self.peek == 0

/-- `_path_lexer_peek_next` -/
def peekNext (self : PathLexer) : UInt8 :=
  if self.isEof then 0 else self.curr.tail.headD 0

/-- `_path_lexer_advance`, the pointer of it -/
def advance (self : PathLexer) : PathLexer :=
  { self with curr := self.curr.tail }

/-- `_path_lexer_create_token`: the length is a difference of pointers. -/
def createToken (self : PathLexer) (type : PathType) : PathToken where
  type := type
  start := self.start
  len := self.start.length - self.curr.length

/-- `_path_lexer_lex_identifier` -/
def lexIdentifier (self : PathLexer) : PathToken × PathLexer :=
  let self := { self with curr := self.curr.dropWhile isalpha }
  (self.createToken .ptIdentifier, self)

end PathLexer

/-- `path_lexer_lex` -/
def pathLexerLex (self : PathLexer) : PathToken × PathLexer :=
  let self := { self with start := self.curr }
  if self.isEof then (self.createToken .ptEnd, self)
  else if isalpha self.peek && self.peekNext == charColon then
    let self := self.advance
    (self.createToken .ptLetter, self)
  else
    let ch := self.peek
    let self := self.advance
    if ch == charSlash then (self.createToken .ptSlash, self)
    else if ch == charColon then (self.createToken .ptColon, self)
    else if ch == charDot then (self.createToken .ptDot, self)
    else if isalpha ch then self.lexIdentifier
    else (self.createToken .ptErr, self)

/-! ## One token -/

/-- The text behind a token starts with a character that ends a word. -/
def EndsWord (rest : List UInt8) : Prop :=
  isalpha (rest.headD 0) = false

section Lex

variable {s : List UInt8} {c : UInt8} {cs : List UInt8}

/-- A letter in front of a colon is a drive letter. -/
theorem lex_letter (h : isalpha c) :
    pathLexerLex ⟨s, c :: charColon :: cs⟩
      = (⟨.ptLetter, c :: charColon :: cs, 1⟩, ⟨c :: charColon :: cs, charColon :: cs⟩) := by
  have hne : (c == 0) = false := by
    rw [beq_eq_false_iff_ne]
    rintro rfl
    exact Bool.false_ne_true h
  simp [pathLexerLex, PathLexer.isEof, PathLexer.peek, PathLexer.peekNext, PathLexer.advance,
    PathLexer.createToken, hne, h]

/-- The type of a character that is a token by itself. -/
def charType (c : UInt8) : PathType :=
  if c == charSlash then .ptSlash
  else if c == charColon then .ptColon
  else if c == charDot then .ptDot
  else .ptErr

theorem charType_ne : charType c ≠ .ptEnd ∧ charType c ≠ .ptIdentifier := by
  unfold charType
  split <;> (try split) <;> (try split) <;> decide

theorem lex_char (hne : c ≠ 0) (h : isalpha c = false) :
    pathLexerLex ⟨s, c :: cs⟩ = (⟨charType c, c :: cs, 1⟩, ⟨c :: cs, cs⟩) := by
  have hne' : (c == 0) = false := beq_eq_false_iff_ne.mpr hne
  have hlen : (c :: cs).length - cs.length = 1 := by
    rw [List.length_cons]
    omega
  simp only [pathLexerLex, PathLexer.isEof, PathLexer.peek, PathLexer.peekNext, PathLexer.advance,
    PathLexer.createToken, charType, List.headD_cons, List.tail_cons, hne', h, hlen]
  simp only [Bool.false_and, Bool.false_eq_true, if_false]
  split
  · rfl
  · split
    · rfl
    · split <;> rfl

/-- Letters up to a character that is neither a letter nor a colon behind a single
    letter are an identifier. -/
theorem lex_identifier {w rest : List UInt8} (hw : ∀ c ∈ w, isalpha c) (hne : w ≠ [])
    (hrest : EndsWord rest) (hcolon : w.length = 1 → rest.headD 0 ≠ charColon) :
    pathLexerLex ⟨s, w ++ rest⟩
      = (⟨.ptIdentifier, w ++ rest, w.length⟩, ⟨w ++ rest, rest⟩) := by
  obtain ⟨c, cs, rfl⟩ := List.exists_cons_of_ne_nil hne
  have hc : isalpha c = true := hw c List.mem_cons_self
  have hcs : ∀ x ∈ cs, isalpha x := fun x hx => hw x (List.mem_cons_of_mem c hx)
  have hzero : (c == 0) = false := by
    rw [beq_eq_false_iff_ne]
    rintro rfl
    exact Bool.false_ne_true hc
  have hchar : (c == charSlash) = false ∧ (c == charColon) = false ∧ (c == charDot) = false := by
    refine ⟨?_, ?_, ?_⟩ <;>
      · rw [beq_eq_false_iff_ne]
        rintro rfl
        exact absurd hc (by decide)
  -- the character behind the first letter is a letter or the end of the word
  have hnext : ((cs ++ rest).headD 0 == charColon) = false := by
    rw [beq_eq_false_iff_ne]
    cases cs with
    | nil => exact hcolon rfl
    | cons d ds =>
        intro hd
        have := hcs d List.mem_cons_self
        rw [List.cons_append, List.headD_cons] at hd
        rw [hd] at this
        exact absurd this (by decide)
  have hdrop : (cs ++ rest).dropWhile isalpha = rest := by
    rw [List.dropWhile_append_of_pos hcs]
    cases rest with
    | nil => rfl
    | cons d ds =>
        exact List.dropWhile_cons_of_neg (by rw [show isalpha d = false from hrest]; simp)
  have hlen : (c :: (cs ++ rest)).length - rest.length = (c :: cs).length := by
    simp only [List.length_cons, List.length_append]
    omega
  simp only [pathLexerLex, PathLexer.isEof, PathLexer.peek, PathLexer.peekNext, PathLexer.advance,
    PathLexer.createToken, PathLexer.lexIdentifier, List.cons_append, List.headD_cons,
    List.tail_cons, hzero, hc, hnext, hchar.1, hchar.2.1, hchar.2.2, hdrop, hlen,
    Bool.and_false, Bool.false_eq_true, if_false, if_true]

/-- The three ways to lex a text without a NUL: a letter in front of a colon, as many
    letters as there are, and one character that is no letter -/
theorem lex_cases (hnul : (0 : UInt8) ∉ c :: cs) :
    (isalpha c ∧ (∃ tail, cs = charColon :: tail) ∧
      pathLexerLex ⟨s, c :: cs⟩ = (⟨.ptLetter, c :: cs, 1⟩, ⟨c :: cs, cs⟩)) ∨
    (∃ w rest, c :: cs = w ++ rest ∧ w ≠ [] ∧ (∀ x ∈ w, isalpha x) ∧ EndsWord rest ∧
      pathLexerLex ⟨s, c :: cs⟩ = (⟨.ptIdentifier, c :: cs, w.length⟩, ⟨c :: cs, rest⟩)) ∨
    (isalpha c = false ∧
      pathLexerLex ⟨s, c :: cs⟩ = (⟨charType c, c :: cs, 1⟩, ⟨c :: cs, cs⟩)) := by
  have hne : c ≠ 0 := fun h => hnul (h ▸ List.mem_cons_self)
  by_cases halpha : isalpha c = true
  · -- a letter in front of a colon is a drive, any other one starts a word
    by_cases hcolon : cs.headD 0 = charColon
    · obtain ⟨d, tail, rfl⟩ : ∃ d tail, cs = d :: tail := by
        cases cs with
        | nil => exact absurd hcolon (by decide)
        | cons d tail => exact ⟨d, tail, rfl⟩
      obtain rfl : d = charColon := hcolon
      exact .inl ⟨halpha, ⟨tail, rfl⟩, lex_letter halpha⟩
    · -- the word goes up to the first character that is not a letter
      have hsplit : c :: cs = (c :: cs).takeWhile isalpha ++ (c :: cs).dropWhile isalpha :=
        List.takeWhile_append_dropWhile.symm
      have hword : (c :: cs).takeWhile isalpha = c :: cs.takeWhile isalpha :=
        List.takeWhile_cons_of_pos halpha
      have hdrop : (c :: cs).dropWhile isalpha = cs.dropWhile isalpha :=
        List.dropWhile_cons_of_pos halpha
      rw [hword, hdrop] at hsplit
      have hw : ∀ x ∈ c :: cs.takeWhile isalpha, isalpha x = true := by
        intro x hx
        rcases List.mem_cons.mp hx with rfl | hx
        · exact halpha
        · exact List.mem_takeWhile_imp hx
      -- the word ends where the lexer stops
      have hends : EndsWord (cs.dropWhile isalpha) := by
        rw [EndsWord]
        cases hrest : cs.dropWhile isalpha with
        | nil => rfl
        | cons d ds =>
            have hhead := List.head?_dropWhile_not isalpha cs
            rw [hrest] at hhead
            simpa using hhead
      -- a word of one letter is no drive
      have hone : (c :: cs.takeWhile isalpha).length = 1 →
          (cs.dropWhile isalpha).headD 0 ≠ charColon := by
        intro hlen
        have hnil : cs.takeWhile isalpha = [] := by
          rw [List.length_cons] at hlen
          exact List.length_eq_zero_iff.mp (by omega)
        have hsame : cs.dropWhile isalpha = cs := by
          have := List.takeWhile_append_dropWhile (p := isalpha) (l := cs)
          rwa [hnil, List.nil_append] at this
        rwa [hsame]
      have hlex := lex_identifier (s := s) hw (List.cons_ne_nil _ _) hends hone
      rw [← hsplit] at hlex
      exact .inr (.inl ⟨_, _, hsplit, List.cons_ne_nil _ _, hw, hends, hlex⟩)
  · rw [Bool.not_eq_true] at halpha
    exact .inr (.inr ⟨halpha, lex_char hne halpha⟩)

/-- A token of a text without a NUL: it starts where the text does, it is not empty,
    and the lexer goes on behind it. -/
theorem lex_cons (hnul : (0 : UInt8) ∉ c :: cs) : ∃ type w rest,
    pathLexerLex ⟨s, c :: cs⟩ = (⟨type, c :: cs, w.length⟩, ⟨c :: cs, rest⟩) ∧
      c :: cs = w ++ rest ∧ w ≠ [] ∧ type ≠ .ptEnd ∧
      (type = .ptLetter → isalpha c ∧ w = [c] ∧ ∃ tail, rest = charColon :: tail) ∧
      (type = .ptIdentifier → ∀ x ∈ w, isalpha x) ∧ (type = .ptDot → w = [charDot]) := by
  rcases lex_cases (s := s) hnul with ⟨halpha, htail, hlex⟩ |
    ⟨w, rest, hsplit, hne, hw, -, hlex⟩ | ⟨-, hlex⟩
  · exact ⟨.ptLetter, [c], cs, hlex, rfl, List.cons_ne_nil _ _, by decide,
      fun _ => ⟨halpha, rfl, htail⟩, nofun, nofun⟩
  · exact ⟨.ptIdentifier, w, rest, hlex, hsplit, hne, by decide, nofun, fun _ => hw, nofun⟩
  · -- one character, that is no letter
    refine ⟨charType c, [c], cs, hlex, rfl, List.cons_ne_nil _ _, charType_ne.1, ?_,
      fun h => absurd h charType_ne.2, ?_⟩
    · unfold charType
      intro h
      split at h <;> (try split at h) <;> (try split at h) <;> cases h
    · unfold charType
      intro h
      split at h
      · cases h
      · split at h
        · cases h
        · split at h
          · rename_i hdot
            rw [eq_of_beq hdot]
          · cases h

end Lex

/-! ## All tokens of a text -/

/-- The tokens of a text, as long as there is fuel. -/
def lexTokens : Nat → List UInt8 → List PathToken
  | 0, _ => []
  | _ + 1, [] => []
  | fuel + 1, c :: cs =>
      let (token, lexer) := pathLexerLex (.init (c :: cs))
      token :: lexTokens fuel lexer.curr

/-- The tokens in front of the end of a text.  Every token takes a character. -/
def pathTokens (text : List UInt8) : List PathToken :=
  lexTokens text.length text

theorem lexTokens_of_le {fuel : Nat} {text : List UInt8} (hnul : 0 ∉ text)
    (hle : text.length ≤ fuel) : lexTokens fuel text = pathTokens text := by
  induction fuel using Nat.strongRecOn generalizing text with
  | ind fuel ih =>
      cases text with
      | nil => cases fuel <;> rfl
      | cons c cs =>
          obtain ⟨type, w, rest, hlex, hsplit, hne, -⟩ := lex_cons (s := c :: cs) hnul
          have hlen : (c :: cs).length = w.length + rest.length := by
            rw [hsplit, List.length_append]
          have hpos : 0 < w.length := List.length_pos_iff.mpr hne
          have hrest : 0 ∉ rest := fun h => hnul (hsplit ▸ List.mem_append_right w h)
          rw [List.length_cons] at hle hlen
          obtain ⟨f, rfl⟩ : ∃ f, fuel = f + 1 := ⟨fuel - 1, by omega⟩
          rw [pathTokens, List.length_cons, lexTokens, lexTokens, PathLexer.init, hlex]
          simp only
          rw [ih f (by omega) hrest (by omega), ih cs.length (by omega) hrest (by omega)]

/-- The first token of a text, and the tokens of the rest. -/
theorem pathTokens_cons {s : List UInt8} {c : UInt8} {cs rest : List UInt8} {t : PathToken}
    (hnul : 0 ∉ c :: cs) (hlex : pathLexerLex ⟨s, c :: cs⟩ = (t, ⟨c :: cs, rest⟩)) :
    pathTokens (c :: cs) = t :: pathTokens rest := by
  obtain ⟨type, w, rest', hlex', hsplit, hne, -⟩ := lex_cons (s := s) hnul
  rw [hlex] at hlex'
  obtain ⟨rfl, hlexer⟩ := Prod.mk.inj hlex'
  obtain rfl : rest = rest' := (PathLexer.mk.inj hlexer).2
  have hlen : (c :: cs).length = w.length + rest.length := by
    rw [hsplit, List.length_append]
  have hpos : 0 < w.length := List.length_pos_iff.mpr hne
  have hrest : 0 ∉ rest := fun h => hnul (hsplit ▸ List.mem_append_right w h)
  have hinit : pathLexerLex (.init (c :: cs)) = pathLexerLex ⟨s, c :: cs⟩ := rfl
  rw [List.length_cons] at hlen
  rw [pathTokens, List.length_cons, lexTokens, hinit, hlex]
  simp only
  rw [lexTokens_of_le hrest (by omega)]

theorem length_pathTokens_le {text : List UInt8} (hnul : 0 ∉ text) :
    (pathTokens text).length ≤ text.length := by
  obtain ⟨n, hn⟩ : ∃ n, text.length ≤ n := ⟨_, Nat.le_refl _⟩
  induction n generalizing text with
  | zero =>
      rw [List.length_eq_zero_iff.mp (Nat.le_zero.mp hn)]
      exact Nat.le_refl 0
  | succ n ih =>
      cases text with
      | nil => exact Nat.le_refl 0
      | cons c cs =>
          obtain ⟨type, w, rest, hlex, hsplit, hne, -⟩ := lex_cons (s := c :: cs) hnul
          have hlen : (c :: cs).length = w.length + rest.length := by
            rw [hsplit, List.length_append]
          have hpos : 0 < w.length := List.length_pos_iff.mpr hne
          have hrest : 0 ∉ rest := fun h => hnul (hsplit ▸ List.mem_append_right w h)
          have hle := ih hrest (by omega)
          rw [pathTokens_cons hnul hlex, List.length_cons]
          omega

end Icarius
