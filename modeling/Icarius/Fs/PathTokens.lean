/-
  Icarius.Fs.PathTokens

  The path lexer loses nothing.  Every call takes at least one character until the text is
  at its end, also where the token is an error: this is what ends the loop of
  `_path_parser_advance` that skips such tokens.
-/

import Icarius.Fs.PathLexer
import Icarius.Lib.Words

namespace Icarius

open Icarius.Lib

/-- `path_lexer_lex` until it gives `PT_END`, in `calls` calls at most: the tokens before it -/
def lexUntilEnd : Nat → PathLexer → Option (List PathToken × PathLexer)
  | 0, _ => none
  | calls + 1, self =>
      let (token, self) := pathLexerLex self
      if token.type = .ptEnd then some ([], self)
      else do
        let (tokens, self) ← lexUntilEnd calls self
        return (token :: tokens, self)

/-- The characters of a token -/
def PathToken.text (self : PathToken) : List UInt8 := self.start.take self.len

/-- There is a letter at position `j` of the text. -/
def LetterAt (text : List UInt8) (j : Nat) : Prop := ∃ c ∈ text[j]?, isalpha c = true

section Letters

variable {done rest w : List UInt8} {c : UInt8}

theorem letterAt_append (done rest : List UInt8) (j : Nat) :
    LetterAt (done ++ rest) (done.length + j) ↔ LetterAt rest j := by
  rw [LetterAt, List.getElem?_append_right (Nat.le_add_right _ _), Nat.add_sub_cancel_left]
  rfl

/-- What ends a word is no letter. -/
theorem EndsWord.not_letterAt (h : EndsWord rest) (done : List UInt8) :
    ¬ LetterAt (done ++ rest) done.length := by
  rintro ⟨c, hc, halpha⟩
  rw [List.getElem?_append_right (Nat.le_refl _), Nat.sub_self] at hc
  cases rest with
  | nil => cases hc
  | cons d ds =>
      obtain rfl : d = c := Option.some.inj hc
      exact Bool.false_ne_true ((show isalpha d = false from h).symm.trans halpha)

/-- Letters from a boundary on, up to the end of the word, are as many as there can be. -/
theorem word_of_letters (hbound : Boundary (LetterAt (done ++ (w ++ rest))) done.length)
    (hne : w ≠ []) (hw : ∀ x ∈ w, isalpha x = true) (hends : EndsWord rest) :
    Word (LetterAt (done ++ (w ++ rest))) done.length w.length := by
  refine .of_first hbound (Nat.le_refl _) (fun j hle hlt => absurd hlt (Nat.not_lt.mpr hle))
    (List.length_pos_iff.mpr hne) (fun j hle hlt => ?_) ?_
  · obtain ⟨i, rfl⟩ := Nat.exists_eq_add_of_le hle
    have hi : i < w.length := by omega
    rw [letterAt_append]
    exact ⟨w[i], by rw [List.getElem?_append_left hi, List.getElem?_eq_getElem hi]; rfl,
      hw _ (List.getElem_mem hi)⟩
  · have hafter := hends.not_letterAt (done ++ w)
    rwa [List.append_assoc, List.length_append] at hafter

end Letters

/-! ## The whole text -/

/-- What is known of a token of the text -/
structure PathToken.Good (token : PathToken) (text : List UInt8) : Prop where
  pos : 1 ≤ token.len
  suffix : token.start <:+ text
  letters : token.type = .ptIdentifier →
    Word (LetterAt text) (text.length - token.start.length) token.len

/-- One token, in front of a boundary: it is good, and there is a boundary behind it. -/
theorem lex_good {done rest : List UInt8} (s : List UInt8) (hne : rest ≠ []) (hnul : 0 ∉ rest)
    (hbound : Boundary (LetterAt (done ++ rest)) done.length) :
    ∃ token w rest', pathLexerLex ⟨s, rest⟩ = (token, ⟨rest, rest'⟩) ∧ token.type ≠ .ptEnd ∧
      rest = w ++ rest' ∧ w ≠ [] ∧ token.text = w ∧ token.Good (done ++ rest) ∧
      Boundary (LetterAt (done ++ rest)) (done ++ w).length := by
  obtain ⟨c, cs, rfl⟩ := List.exists_cons_of_ne_nil hne
  have hstart : (done ++ c :: cs).length - (c :: cs).length = done.length := by
    rw [List.length_append, Nat.add_sub_cancel]
  have hsuffix : c :: cs <:+ done ++ c :: cs := List.suffix_append _ _
  have hassoc : done ++ c :: cs = (done ++ [c]) ++ cs := by
    rw [List.append_assoc, List.singleton_append]
  rcases lex_cases (s := s) hnul with ⟨-, ⟨tail, rfl⟩, hlex⟩ |
    ⟨w, rest', hsplit, hw, hletters, hends, hlex⟩ | ⟨halpha, hlex⟩
  · -- the colon behind a drive letter is no letter
    have hcolon : EndsWord (charColon :: tail) := rfl
    refine ⟨_, [c], _, hlex, nofun, rfl, List.cons_ne_nil _ _, rfl,
      ⟨Nat.le_refl 1, hsuffix, nofun⟩, fun _ _ _ => ?_⟩
    rw [hassoc]
    exact hcolon.not_letterAt _
  · rw [hsplit] at hbound hstart hsuffix hlex ⊢
    refine ⟨_, w, rest', hlex, nofun, rfl, hw, List.take_left,
      ⟨List.length_pos_iff.mpr hw, hsuffix, fun _ => ?_⟩, fun _ _ _ => ?_⟩
    · show Word _ ((done ++ (w ++ rest')).length - (w ++ rest').length) w.length
      rw [hstart]
      exact word_of_letters hbound hw hletters hends
    · rw [← List.append_assoc]
      exact hends.not_letterAt _
  · -- a character that is no letter is a boundary on either side
    have hends : EndsWord (c :: cs) := halpha
    refine ⟨_, [c], cs, hlex, charType_ne.1, rfl, List.cons_ne_nil _ _, rfl,
      ⟨Nat.le_refl 1, hsuffix, fun h => absurd h charType_ne.2⟩, ?_⟩
    rw [List.length_append, List.length_singleton]
    exact boundary_succ (hends.not_letterAt done)

/-- The text behind what is done comes out as tokens. -/
theorem lexUntilEnd_spec {done rest : List UInt8} (s : List UInt8) (hnul : 0 ∉ rest)
    (hbound : Boundary (LetterAt (done ++ rest)) done.length) {calls : Nat}
    (hcalls : rest.length < calls) :
    ∃ tokens, lexUntilEnd calls ⟨s, rest⟩ = some (tokens, ⟨[], []⟩) ∧
      tokens.flatMap PathToken.text = rest ∧ ∀ token ∈ tokens, token.Good (done ++ rest) := by
  -- over the calls; what is done only matters for the words that go across the end of it
  induction calls generalizing done rest s with
  | zero => exact absurd hcalls (Nat.not_lt_zero _)
  | succ calls ih =>
      by_cases hne : rest = []
      · subst hne
        exact ⟨[], rfl, rfl, fun _ hmem => absurd hmem List.not_mem_nil⟩
      · obtain ⟨token, w, rest', hlex, hend, rfl, hw, htext, hgood, hbound'⟩ :=
          lex_good s hne hnul hbound
        rw [← List.append_assoc] at hbound' hgood ⊢
        have hpos := List.length_pos_iff.mpr hw
        rw [List.length_append] at hcalls
        obtain ⟨tokens, hrun, htexts, hgoods⟩ := ih (w ++ rest')
          (fun h => hnul (List.mem_append_right w h)) hbound' (by omega)
        refine ⟨token :: tokens, ?_, ?_, fun t hmem => ?_⟩
        · rw [lexUntilEnd, hlex]
          dsimp only
          rw [if_neg hend, hrun]
          rfl
        · rw [List.flatMap_cons, htext, htexts]
        · rcases List.mem_cons.mp hmem with rfl | hmem
          · exact hgood
          · exact hgoods t hmem

/-- The lexer loses nothing: it comes to the end, and the tokens on the way are not empty,
    make up the text, and are as long as they can be where they are identifiers. -/
theorem lex_lossless {text : List UInt8} (hnul : 0 ∉ text) :
    ∃ tokens lexer, lexUntilEnd (text.length + 1) (.init text) = some (tokens, lexer) ∧
      tokens.flatMap (fun token => token.start.take token.len) = text ∧
      (∀ token ∈ tokens, 1 ≤ token.len ∧ token.start <:+ text ∧ (token.type = .ptIdentifier →
        Word (LetterAt text) (text.length - token.start.length) token.len)) ∧
      (pathLexerLex lexer).1.type = .ptEnd := by
  obtain ⟨tokens, hrun, htext, hgood⟩ := @lexUntilEnd_spec [] text text hnul
    boundary_zero _ (Nat.lt_succ_self text.length)
  exact ⟨tokens, _, hrun, htext, fun token hmem =>
    ⟨(hgood token hmem).pos, (hgood token hmem).suffix, (hgood token hmem).letters⟩, rfl⟩

/-- `"C:/ab."` -/
theorem lex_lossless_drive :
    ∃ tokens lexer, lexUntilEnd 7 (.init [67, 58, 47, 97, 98, 46]) = some (tokens, lexer) ∧
      tokens.flatMap (fun token => token.start.take token.len) = [67, 58, 47, 97, 98, 46] ∧
      (∀ token ∈ tokens, 1 ≤ token.len ∧ token.start <:+ [67, 58, 47, 97, 98, 46] ∧
        (token.type = .ptIdentifier →
          Word (LetterAt [67, 58, 47, 97, 98, 46]) (6 - token.start.length) token.len)) ∧
      (pathLexerLex lexer).1.type = .ptEnd :=
  @lex_lossless [67, 58, 47, 97, 98, 46] (by decide)

end Icarius
