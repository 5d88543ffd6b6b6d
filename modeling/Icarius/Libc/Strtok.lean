/-
  Icarius.Libc.Strtok

  `strtok` of `src/x86/user/libc/string.c`.  The static pointer stands in front of the part
  of the text that no call has read; what a call does with that part is
  `NextToken`, whatever the calls before it were given as delimiters.
-/

import Icarius.Config
import Icarius.Lib.Bytes
import Icarius.Lib.Words

namespace Icarius.Libc

open Icarius.Lib

/-! ## string.c -/

/-- `strchr`, as a position in the string, of which `str` holds the characters in front of
    the NUL -/
def strchr : List UInt8 → UInt8 → Option Nat
  | [], c => if c = 0 then some 0 else none
  | b :: str, c => if b = c then some 0 else (strchr str c).map (· + 1)

/-- The memory, and `strtok_ptr` -/
structure Strtok where
  mem : Mem
  strtokPtr : Nat

/-- A loop that moves the pointer on while the character it points to passes the test.  In
    2^32 rounds it has seen every address. -/
def scan (p : UInt8 → Bool) (mem : Mem) : Nat → Nat → Option Nat
  | 0, _ => none
  | rounds + 1, ptr => if p (mem ptr) then scan p mem rounds (u32 (ptr + 1)) else some ptr

/-- `strtok` -/
def strtok (str : Nat) (delim : List UInt8) (self : Strtok) : Option (Nat × Strtok) :=
  let self := if str ≠ 0 then { self with strtokPtr := str } else self
  if self.strtokPtr = 0 ∨ self.mem self.strtokPtr = 0 then some (0, self)
  else
    match scan (fun c => c != 0 && (strchr delim c).isSome) self.mem (2 ^ 32) self.strtokPtr with
    | none => none
    | some ptr =>
        if self.mem ptr = 0 then some (0, { self with strtokPtr := ptr })
        else
          let tokenStart := ptr
          match scan (fun c => c != 0 && !(strchr delim c).isSome) self.mem (2 ^ 32) ptr with
          | none => none
          | some ptr =>
              if self.mem ptr ≠ 0 then some (tokenStart, ⟨self.mem.write ptr [0], u32 (ptr + 1)⟩)
              else some (tokenStart, { self with strtokPtr := ptr })

/-- A call with `str`, and calls with the null pointer behind it, each with its delimiters -/
def strtokCalls : Nat → List (List UInt8) → Strtok → Option (List Nat × Strtok)
  | _, [], self => some ([], self)
  | str, delim :: delims, self => do
      let (token, self) ← strtok str delim self
      let (tokens, self) ← strtokCalls 0 delims self
      return (token :: tokens, self)

/-! ## What a call is for -/

/-- The memory holds the text and a NUL behind it at `s`. -/
def TextAt (mem : Mem) (s : Nat) (text : List UInt8) : Prop :=
  Mem.IsText (fun x => mem (s + x)) text

/-- A string in the memory of the process -/
structure IsString (mem : Mem) (s : Nat) (text : List UInt8) : Prop where
  ne_null : s ≠ 0
  fits : s + text.length < 2 ^ 32
  no_nul : 0 ∉ text
  text : TextAt mem s text

/-- The character at `j` is no delimiter. -/
def Inside (text delim : List UInt8) (j : Nat) : Prop := ∃ c ∈ text[j]?, c ∉ delim

/-- The next token, its position and its length, of what is unread from `c` on, and what is
    unread behind it -/
inductive NextToken (text delim : List UInt8) (c : Nat) : Option (Nat × Nat) → Nat → Prop
  | none (h : ∀ j, c ≤ j → ¬ Inside text delim j) : NextToken text delim c none text.length
  | word {i k : Nat} (hle : c ≤ i) (hskip : ∀ j, c ≤ j → j < i → ¬ Inside text delim j)
      (hpos : 0 < k) (hall : ∀ j, i ≤ j → j < i + k → Inside text delim j)
      (hafter : ¬ Inside text delim (i + k)) :
      NextToken text delim c (some (i, k)) (min (i + k + 1) text.length)

/-- The tokens of one call after the other -/
inductive NextTokens (text : List UInt8) :
    Nat → List (List UInt8) → List (Option (Nat × Nat)) → Nat → Prop
  | nil (c : Nat) : NextTokens text c [] [] c
  | cons {c c' c'' : Nat} {delim : List UInt8} {delims : List (List UInt8)}
      {token : Option (Nat × Nat)} {tokens : List (Option (Nat × Nat))}
      (h : NextToken text delim c token c') (hrest : NextTokens text c' delims tokens c'') :
      NextTokens text c (delim :: delims) (token :: tokens) c''

/-- The pointer that is returned for a token of the string at `s` -/
def pointer (s : Nat) : Option (Nat × Nat) → Nat
  | none => 0
  | some (i, _) => s + i

/-- The string at `s` has been read up to `c`, and not changed from there on. -/
structure Unread (state : Strtok) (s : Nat) (text : List UInt8) (c : Nat) : Prop where
  ptr : state.strtokPtr = s + c
  le : c ≤ text.length
  rest : ∀ j, c ≤ j → j ≤ text.length → state.mem (s + j) = text.getD j 0

/-! ## Positions of the text -/

section Positions

variable {text delim : List UInt8} {c i j k : Nat}

theorem Inside.lt (h : Inside text delim j) : j < text.length := by
  obtain ⟨b, hb, -⟩ := h
  exact (List.getElem?_eq_some_iff.mp hb).1

theorem inside_iff (hlt : j < text.length) : Inside text delim j ↔ text.getD j 0 ∉ delim := by
  rw [Inside, List.getD_eq_getElem?_getD, List.getElem?_eq_getElem hlt, Option.getD_some]
  simp

theorem getD_ne_zero (hnul : 0 ∉ text) (hlt : j < text.length) : text.getD j 0 ≠ 0 := by
  rw [List.getD_eq_getElem?_getD, List.getElem?_eq_getElem hlt, Option.getD_some]
  exact fun heq => hnul (heq ▸ List.getElem_mem hlt)

theorem getD_length : text.getD text.length 0 = 0 := by
  rw [List.getD_eq_getElem?_getD, List.getElem?_eq_none (Nat.le_refl _), Option.getD_none]

/-- There is a next token, or there is none. -/
theorem exists_nextToken (text delim : List UInt8) (c : Nat) :
    ∃ token c', NextToken text delim c token c' := by
  by_cases h : ∃ j, c ≤ j ∧ Inside text delim j
  · obtain ⟨i, hle, hin, hskip⟩ := exists_first h
    -- the end of the text ends the token at the latest
    obtain ⟨e, hie, hout, hall⟩ := exists_first (P := fun j => ¬ Inside text delim j) (c := i)
      ⟨text.length, Nat.le_of_lt hin.lt, fun hin => Nat.lt_irrefl _ hin.lt⟩
    have hne : i ≠ e := by
      rintro rfl
      exact hout hin
    obtain ⟨k, rfl⟩ := Nat.exists_eq_add_of_le hie
    exact ⟨_, _, .word hle hskip (by omega) (fun j hij hj => not_not.mp (hall j hij hj)) hout⟩
  · exact ⟨_, _, .none fun j hle hin => h ⟨j, hle, hin⟩⟩

theorem exists_nextTokens (text : List UInt8) (delims : List (List UInt8)) (c : Nat) :
    ∃ tokens c', NextTokens text c delims tokens c' := by
  induction delims generalizing c with
  | nil => exact ⟨_, _, .nil c⟩
  | cons delim delims ih =>
      obtain ⟨token, c', htok⟩ := exists_nextToken text delim c
      obtain ⟨tokens, c'', htoks⟩ := ih c'
      exact ⟨_, _, .cons htok htoks⟩

/-- A token ends in the text. -/
theorem end_le (hpos : 0 < k) (hall : ∀ j, i ≤ j → j < i + k → Inside text delim j) :
    i + k ≤ text.length := by
  have hlt := (hall (i + k - 1) (by omega) (by omega)).lt
  omega

theorem NextToken.le {token : Option (Nat × Nat)} {c' : Nat} (h : NextToken text delim c token c')
    (hc : c ≤ text.length) : c ≤ c' ∧ c' ≤ text.length := by
  -- a call leaves the text read up to its end, or up to behind the NUL it writes
  cases h with
  | none h => exact ⟨hc, Nat.le_refl _⟩
  | word hle hskip hpos hall hafter =>
      have hend := end_le hpos hall
      omega

/-- The tokens lie behind each other. -/
theorem NextTokens.le_of_mem {delims : List (List UInt8)} {tokens : List (Option (Nat × Nat))}
    {c' : Nat} (h : NextTokens text c delims tokens c') (hc : c ≤ text.length)
    (hmem : some (i, k) ∈ tokens) : c ≤ i ∧ 0 < k := by
  induction h with
  | nil => exact absurd hmem List.not_mem_nil
  | cons htok _ ih =>
      rcases List.mem_cons.mp hmem with heq | hmem
      · subst heq
        cases htok with
        | word hle hskip hpos => exact ⟨hle, hpos⟩
      · have hle := htok.le hc
        obtain ⟨hle', hpos⟩ := ih hle.2 hmem
        exact ⟨Nat.le_trans hle.1 hle', hpos⟩

end Positions

/-! ## The loops -/

theorem strchr_isSome {delim : List UInt8} {c : UInt8} (hne : c ≠ 0) :
    (strchr delim c).isSome ↔ c ∈ delim := by
  induction delim with
  | nil =>
      rw [strchr, if_neg hne]
      simp
  | cons b delim ih =>
      rw [strchr]
      split
      · next heq => simp [heq]
      · next hbc =>
          rw [Option.isSome_map, ih, List.mem_cons]
          exact ⟨.inr, fun h => h.resolve_left fun heq => hbc heq.symm⟩

/-- The loop stops at the first character that fails the test. -/
theorem scan_eq {p : UInt8 → Bool} {mem : Mem} {s i : Nat} (hfit : s + i < 2 ^ 32)
    (hstop : p (mem (s + i)) = false) {rounds c : Nat} (hle : c ≤ i) (hrounds : i < c + rounds)
    (hpass : ∀ j, c ≤ j → j < i → p (mem (s + j)) = true) :
    scan p mem rounds (s + c) = some (s + i) := by
  induction rounds generalizing c with
  | zero => omega
  | succ rounds ih =>
      rw [scan]
      -- a round at a character in front of `i` goes on, the one at `i` is the last
      by_cases heq : c = i
      · subst heq
        rw [hstop, if_neg Bool.false_ne_true]
      · have hnext : u32 (s + c + 1) = s + (c + 1) := Nat.mod_eq_of_lt (by omega)
        rw [hpass c (Nat.le_refl c) (by omega), if_pos rfl, hnext]
        exact ih (by omega) (by omega) fun j hj => hpass j (by omega)

section Call

variable {state : Strtok} {s c i e : Nat} {text delim : List UInt8}

theorem Unread.nul (h : Unread state s text c) : state.mem (s + text.length) = 0 := by
  rw [h.rest _ h.le (Nat.le_refl _), getD_length]

/-- The characters that the two loops stop at, in what is unread of the text -/
theorem Unread.tests (h : Unread state s text c) (delim : List UInt8) (hnul : 0 ∉ text) {j : Nat}
    (hcj : c ≤ j) (hj : j < text.length) :
    state.mem (s + j) ≠ 0 ∧
      ((strchr delim (state.mem (s + j))).isSome ↔ ¬ Inside text delim j) := by
  have hne := getD_ne_zero hnul hj
  rw [h.rest j hcj (Nat.le_of_lt hj)]
  exact ⟨hne, by rw [strchr_isSome hne, inside_iff hj, not_not]⟩

variable (hs : s ≠ 0) (hnul : 0 ∉ text) (hfit : s + text.length < 2 ^ 32)

include hnul hfit

/-- The loop over the delimiters in front of a token -/
theorem Unread.skip (h : Unread state s text c) (hle : c ≤ i) (hi : i ≤ text.length)
    (hskip : ∀ j, c ≤ j → j < i → ¬ Inside text delim j)
    (hin : i < text.length → Inside text delim i) :
    scan (fun b => b != 0 && (strchr delim b).isSome) state.mem (2 ^ 32) (s + c)
      = some (s + i) := by
  refine scan_eq (by omega) ?_ hle (by omega) fun j hcj hj => ?_
  · -- the loop stops at the token, or at the NUL behind the text
    rcases Nat.lt_or_eq_of_le hi with hlt | rfl
    · refine Bool.and_eq_false_iff.mpr (.inr (Bool.eq_false_iff.mpr fun hsome => ?_))
      exact (h.tests delim hnul hle hlt).2.mp hsome (hin hlt)
    · rw [h.nul]
      rfl
  · have htests := h.tests delim hnul hcj (by omega)
    rw [Bool.and_eq_true, bne_iff_ne]
    exact ⟨htests.1, htests.2.mpr (hskip j hcj hj)⟩

/-- The loop over a token -/
theorem Unread.over (h : Unread state s text c) (hle : c ≤ i) (hie : i ≤ e) (he : e ≤ text.length)
    (hall : ∀ j, i ≤ j → j < e → Inside text delim j) (hout : ¬ Inside text delim e) :
    scan (fun b => b != 0 && !(strchr delim b).isSome) state.mem (2 ^ 32) (s + i)
      = some (s + e) := by
  refine scan_eq (by omega) ?_ hie (by omega) fun j hij hj => ?_
  · -- the loop stops at a delimiter, or at the NUL behind the text
    rcases Nat.lt_or_eq_of_le he with hlt | rfl
    · rw [(h.tests delim hnul (Nat.le_trans hle hie) hlt).2.mpr hout, Bool.not_true, Bool.and_false]
    · rw [h.nul]
      rfl
  · have htests := h.tests delim hnul (Nat.le_trans hle hij) (by omega)
    rw [Bool.and_eq_true, bne_iff_ne, Bool.not_eq_true', Bool.eq_false_iff]
    exact ⟨htests.1, fun hsome => htests.2.mp hsome (hall j hij hj)⟩

include hs

/-- A call with the null pointer, in front of delimiters only -/
theorem Unread.strtok_none (h : Unread state s text c)
    (hnone : ∀ j, c ≤ j → ¬ Inside text delim j) :
    strtok 0 delim state = some (0, { state with strtokPtr := s + text.length }) := by
  have hne : state.strtokPtr ≠ 0 := by
    rw [h.ptr]
    omega
  simp only [strtok]
  rw [if_neg (not_not.mpr rfl)]
  -- at the end of the text the call returns before the loop, with the pointer where it is
  rcases Nat.lt_or_eq_of_le h.le with hlt | heq
  · have hskip := h.skip hnul hfit h.le (Nat.le_refl _) (fun j hcj _ => hnone j hcj)
      fun hlt => absurd hlt (Nat.lt_irrefl _)
    have hchar := (h.tests delim hnul (Nat.le_refl c) hlt).1
    rw [h.ptr] at hne ⊢
    rw [if_neg (not_or.mpr ⟨hne, hchar⟩), hskip]
    dsimp only
    rw [if_pos h.nul]
  · have hend := h.nul
    rw [← heq, ← h.ptr] at hend ⊢
    rw [if_pos (.inr hend)]

/-- A call with the null pointer, in front of a token -/
theorem Unread.strtok_word (h : Unread state s text c) (hle : c ≤ i) (hie : i < e)
    (hskip : ∀ j, c ≤ j → j < i → ¬ Inside text delim j)
    (hall : ∀ j, i ≤ j → j < e → Inside text delim j) (hout : ¬ Inside text delim e) :
    strtok 0 delim state
      = some (s + i, ⟨if e < text.length then state.mem.write (s + e) [0] else state.mem,
          s + min (e + 1) text.length⟩) := by
  have hin := hall i (Nat.le_refl i) hie
  have hend : e ≤ text.length := by
    have hlt := (hall (e - 1) (by omega) (by omega)).lt
    omega
  have hne : s + c ≠ 0 := by omega
  have hfirst := (h.tests delim hnul (Nat.le_refl c) (Nat.lt_of_le_of_lt hle hin.lt)).1
  have hchar := (h.tests delim hnul hle hin.lt).1
  simp only [strtok]
  rw [if_neg (not_not.mpr rfl), h.ptr, if_neg (not_or.mpr ⟨hne, hfirst⟩),
    h.skip hnul hfit hle (Nat.le_of_lt hin.lt) hskip fun _ => hin]
  dsimp only
  rw [if_neg hchar, h.over hnul hfit hle (Nat.le_of_lt hie) hend hall hout]
  dsimp only
  -- a delimiter is overwritten and passed, the NUL of the text is neither
  rcases Nat.lt_or_eq_of_le hend with hlt | rfl
  · have hnext : u32 (s + e + 1) = s + min (e + 1) text.length := by
      rw [Nat.min_eq_left hlt]
      exact Nat.mod_eq_of_lt (by omega)
    rw [if_pos (h.tests delim hnul (by omega) hlt).1, if_pos hlt, hnext]
  · rw [if_neg (not_not.mpr h.nul), if_neg (Nat.lt_irrefl _), Nat.min_eq_right (Nat.le_succ _)]

end Call

/-! ## One call after the other -/

section Calls

variable {state : Strtok} {s c c' i k : Nat} {text delim : List UInt8}
  {token : Option (Nat × Nat)}

/-- What a token is in the memory -/
theorem textAt_token {mem : Mem} (hend : i + k ≤ text.length)
    (hchars : ∀ j, j < k → mem (s + (i + j)) = text.getD (i + j) 0) (hnul : mem (s + (i + k)) = 0) :
    TextAt mem (s + i) ((text.drop i).take k) := by
  have hlen : ((text.drop i).take k).length = k := by
    rw [List.length_take, List.length_drop]
    omega
  intro j hj
  rw [hlen] at hj
  show mem (s + i + j) = _
  rw [Nat.add_assoc]
  rcases Nat.lt_or_eq_of_le hj with hlt | rfl
  · rw [hchars j hlt, List.getD_eq_getElem?_getD, List.getD_eq_getElem?_getD,
      List.getElem?_take_of_lt hlt, List.getElem?_drop]
  · rw [hnul, List.getD_eq_getElem?_getD, List.getElem?_eq_none (Nat.le_of_eq hlen),
      Option.getD_none]

variable (hs : s ≠ 0) (hnul : 0 ∉ text) (hfit : s + text.length < 2 ^ 32)
include hs hnul hfit

/-- A call returns the token, ends it in place, and leaves what is unread behind it. -/
theorem Unread.call (h : Unread state s text c) (htok : NextToken text delim c token c') :
    ∃ state', strtok 0 delim state = some (pointer s token, state') ∧ Unread state' s text c' ∧
      (∀ i k, token = some (i, k) → TextAt state'.mem (s + i) ((text.drop i).take k)) ∧
      ∀ x, state'.mem x ≠ state.mem x →
        ∃ i k, token = some (i, k) ∧ i + k < text.length ∧ x = s + i + k := by
  cases htok with
  | none hnone =>
      refine ⟨_, h.strtok_none hs hnul hfit hnone, ⟨rfl, Nat.le_refl _, fun j hj hle => ?_⟩,
        fun i k heq => (Option.some_ne_none _ heq.symm).elim, fun x hx => absurd rfl hx⟩
      exact h.rest j (Nat.le_trans h.le hj) hle
  | @word i k hle hskip hpos hall hafter =>
      have hend := end_le hpos hall
      -- the NUL is the only byte that is written, and it is read already
      have hmem : ∀ x, (if i + k < text.length then state.mem.write (s + (i + k)) [0]
          else state.mem) x = if i + k < text.length ∧ x = s + (i + k) then 0 else state.mem x := by
        intro x
        by_cases hlt : i + k < text.length
        · by_cases hx : x = s + (i + k)
          · rw [if_pos hlt, if_pos ⟨hlt, hx⟩, hx]
            exact Mem.write_byte_self _ _ _
          · rw [if_pos hlt, if_neg fun h => hx h.2, Mem.write_byte_of_ne hx]
        · rw [if_neg hlt, if_neg fun h => hlt h.1]
      have hcall := h.strtok_word hs hnul hfit hle (Nat.lt_add_of_pos_right hpos) hskip hall hafter
      generalize (if i + k < text.length then state.mem.write (s + (i + k)) [0] else state.mem)
        = mem at hcall hmem
      refine ⟨_, hcall, ⟨rfl, Nat.min_le_right _ _, fun j hj hjle => ?_⟩, ?_, fun x hx => ?_⟩
      · rw [← h.rest j (by omega) hjle]
        exact (hmem _).trans (if_neg (by omega))
      · rintro _ _ ⟨⟩
        refine textAt_token hend (fun j hj => ?_) ((hmem _).trans ?_)
        · rw [← h.rest (i + j) (by omega) (by omega)]
          exact (hmem _).trans (if_neg (by omega))
        · split
          · rfl
          · -- the text ends where the token does
            have hlast : i + k = text.length := by omega
            rw [hlast, h.nul]
      · have hat : i + k < text.length ∧ x = s + (i + k) := by
          by_contra hne
          exact hx ((hmem x).trans (if_neg hne))
        exact ⟨i, k, rfl, hat.1, by omega⟩

/-- What the calls return are the next tokens, one after the other.  A token that has been
    returned stays what it is, since all that is written later lies behind it. -/
theorem Unread.calls {delims : List (List UInt8)} {tokens : List (Option (Nat × Nat))}
    (htoks : NextTokens text c delims tokens c') (h : Unread state s text c) :
    ∃ state', strtokCalls 0 delims state = some (tokens.map (pointer s), state') ∧
      Unread state' s text c' ∧
      (∀ i k, some (i, k) ∈ tokens → TextAt state'.mem (s + i) ((text.drop i).take k)) ∧
      ∀ x, state'.mem x ≠ state.mem x →
        ∃ i k, some (i, k) ∈ tokens ∧ i + k < text.length ∧ x = s + i + k := by
  -- over the calls; a later one writes behind the tokens of those before it
  induction htoks generalizing state with
  | nil c =>
      exact ⟨state, rfl, h, fun _ _ hmem => absurd hmem List.not_mem_nil, fun x hx => absurd rfl hx⟩
  | @cons c c₁ c₂ delim delims token tokens htok hrest ih =>
      obtain ⟨state₁, hcall, h₁, htext, hframe⟩ := h.call hs hnul hfit htok
      obtain ⟨state₂, hcalls, h₂, htexts, hframes⟩ := ih h₁
      have hrun : strtokCalls 0 (delim :: delims) state
          = some ((token :: tokens).map (pointer s), state₂) := by
        rw [strtokCalls, hcall]
        show (strtokCalls 0 delims state₁).bind _ = _
        rw [hcalls]
        rfl
      refine ⟨state₂, hrun, h₂, fun i k hmem => ?_, fun x hx => ?_⟩
      · rcases List.mem_cons.mp hmem with heq | hmem
        · have hlen : ((text.drop i).take k).length ≤ k := List.length_take_le _ _
          intro j hj
          rw [← htext i k heq.symm j hj]
          refine Classical.byContradiction fun hne => ?_
          obtain ⟨i', k', hmem', hend', hx'⟩ := hframes _ hne
          obtain ⟨hle', hpos'⟩ := hrest.le_of_mem h₁.le hmem'
          subst heq
          cases htok
          omega
        · exact htexts i k hmem
      · -- a byte that differs in the end has been written by the first call or by a later one
        by_cases hfirst : state₁.mem x = state.mem x
        · obtain ⟨i, k, hmem, hend⟩ := hframes x fun heq => hx (heq.trans hfirst)
          exact ⟨i, k, List.mem_cons_of_mem _ hmem, hend⟩
        · obtain ⟨i, k, heq, hend⟩ := hframe x hfirst
          exact ⟨i, k, heq ▸ List.mem_cons_self, hend⟩

end Calls

/-! ## The same delimiters throughout -/

section Same

variable {text delim : List UInt8} {c : Nat}

/-- Without a token there is none in any number of calls. -/
theorem nextTokens_none (hnone : ∀ j, c ≤ j → ¬ Inside text delim j) (n : Nat) :
    ∃ c', NextTokens text c (List.replicate n delim) (List.replicate n none) c' := by
  induction n generalizing c with
  | zero => exact ⟨c, .nil c⟩
  | succ n ih =>
      have hend : ∀ j, text.length ≤ j → ¬ Inside text delim j :=
        fun j hj hin => Nat.not_lt.mpr hj hin.lt
      obtain ⟨c', hrest⟩ := ih hend
      exact ⟨c', .cons (.none hnone) hrest⟩

/-- Calls with the same delimiters return the words of what is unread, and then nothing. -/
theorem exists_words (delim : List UInt8) {c : Nat} (hc : c ≤ text.length)
    (hbound : Boundary (Inside text delim) c) :
    ∃ words, WordsFrom (Inside text delim) c words ∧ ∀ n, ∃ c',
      NextTokens text c (List.replicate n delim)
        ((words.map some).take n ++ List.replicate (n - words.length) none) c' := by
  obtain ⟨left, hleft⟩ : ∃ left, text.length - c = left := ⟨_, rfl⟩
  -- over what is unread, which a token makes shorter
  induction left using Nat.strongRecOn generalizing c with
  | ind left ih =>
      obtain ⟨token, c', htok⟩ := exists_nextToken text delim c
      cases htok with
      | none hnone =>
          refine ⟨[], .nil hnone, fun n => ?_⟩
          obtain ⟨c', htoks⟩ := nextTokens_none hnone n
          exact ⟨c', by simpa using htoks⟩
      | @word i k hle hskip hpos hall hafter =>
          have hin := (hall i (Nat.le_refl i) (Nat.lt_add_of_pos_right hpos)).lt
          have hend := end_le hpos hall
          have hnext : Boundary (Inside text delim) (min (i + k + 1) text.length) := by
            rcases Nat.lt_or_eq_of_le hend with hlt | heq
            · rw [Nat.min_eq_left hlt]
              exact boundary_succ hafter
            · rw [Nat.min_eq_right (by omega)]
              exact fun _ _ _ hin => Nat.lt_irrefl _ hin.lt
          obtain ⟨words, hwords, htoks⟩ := ih _ (by omega) (Nat.min_le_right _ _) hnext rfl
          refine ⟨(i, k) :: words, hwords.cons (.of_first hbound hle hskip hpos hall hafter) hle
            hskip fun j hj => ?_, fun n => ?_⟩
          · have hlt := hj.lt
            omega
          · cases n with
            | zero => exact ⟨c, by simpa using NextTokens.nil c⟩
            | succ n =>
                obtain ⟨c', hrest⟩ := htoks n
                refine ⟨c', ?_⟩
                rw [List.length_cons, Nat.add_sub_add_right, List.replicate_succ]
                exact .cons (.word hle hskip hpos hall hafter) hrest

end Same

/-! ## The whole string -/

/-- A call with a string starts over at its beginning. -/
theorem strtokCalls_string {state : Strtok} {s : Nat} (hs : s ≠ 0) (delim : List UInt8)
    (delims : List (List UInt8)) :
    strtokCalls s (delim :: delims) state
      = strtokCalls 0 (delim :: delims) { state with strtokPtr := s } := by
  have hcall : strtok s delim state = strtok 0 delim { state with strtokPtr := s } := by
    simp only [strtok]
    rw [if_pos hs, if_neg (not_not.mpr rfl)]
  rw [strtokCalls, strtokCalls, hcall]

theorem IsString.unread {state : Strtok} {s : Nat} {text : List UInt8}
    (h : IsString state.mem s text) : Unread { state with strtokPtr := s } s text 0 :=
  ⟨rfl, Nat.zero_le _, fun j _ hj => h.text j hj⟩

/-- `strtok` splits exactly.  With the same delimiters throughout, the calls return the maximal
    runs of other characters in their order and the null pointer ever after; whatever the
    delimiters of the calls are, the next call goes on with what they have left unread. -/
theorem strtok_exact {state : Strtok} {s : Nat} {text : List UInt8}
    (h : IsString state.mem s text) :
    (∀ delim, ∃ words, WordsFrom (Inside text delim) 0 words ∧ ∀ n, ∃ state',
      strtokCalls s (List.replicate n delim) state
        = some ((words.map fun w => s + w.1).take n ++ List.replicate (n - words.length) 0,
          state') ∧
      ∀ w ∈ words.take n, TextAt state'.mem (s + w.1) ((text.drop w.1).take w.2)) ∧
    ∀ delim delims, ∃ tokens c state', NextTokens text 0 (delim :: delims) tokens c ∧
      strtokCalls s (delim :: delims) state = some (tokens.map (pointer s), state') ∧
      (∀ i k, some (i, k) ∈ tokens → TextAt state'.mem (s + i) ((text.drop i).take k)) ∧
      (∀ x, state'.mem x ≠ state.mem x →
        ∃ i k, some (i, k) ∈ tokens ∧ i + k < text.length ∧ x = s + i + k) ∧
      Unread state' s text c ∧ ∀ delim', ∃ token c' state'', NextToken text delim' c token c' ∧
        strtok 0 delim' state' = some (pointer s token, state'') ∧ Unread state'' s text c' := by
  constructor
  · intro delim
    obtain ⟨words, hwords, htoks⟩ := exists_words delim (Nat.zero_le text.length) boundary_zero
    refine ⟨words, hwords, fun n => ?_⟩
    -- without a call the string stands as it is
    cases n with
    | zero => exact ⟨state, by simp [strtokCalls], by simp⟩
    | succ n =>
        obtain ⟨c, htoks⟩ := htoks (n + 1)
        obtain ⟨state', hcalls, -, htexts, -⟩ :=
          h.unread.calls h.ne_null h.no_nul h.fits htoks
        refine ⟨state', ?_, fun w hw => htexts w.1 w.2 ?_⟩
        · rw [List.replicate_succ, strtokCalls_string h.ne_null, ← List.replicate_succ, hcalls,
            List.map_append, List.map_take, List.map_map, List.map_replicate]
          rfl
        · refine List.mem_append_left _ ?_
          rw [← List.map_take]
          exact List.mem_map_of_mem hw
  · intro delim delims
    obtain ⟨tokens, c, htoks⟩ := exists_nextTokens text (delim :: delims) 0
    obtain ⟨state', hcalls, hunread, htexts, hframe⟩ :=
      h.unread.calls h.ne_null h.no_nul h.fits htoks
    refine ⟨tokens, c, state', htoks, (strtokCalls_string h.ne_null _ _).trans hcalls, htexts,
      hframe, hunread, fun delim' => ?_⟩
    obtain ⟨token, c', htok⟩ := exists_nextToken text delim' c
    obtain ⟨state'', hcall, hunread', -⟩ := hunread.call h.ne_null h.no_nul h.fits htok
    exact ⟨token, c', state'', htok, hcall, hunread'⟩

/-- `",a,"` at address 1, with `","` -/
theorem strtok_exact_comma :
    ∃ words, WordsFrom (Inside [44, 97, 44] [44]) 0 words ∧ ∀ n, ∃ state',
      strtokCalls 1 (List.replicate n [44]) ⟨fun x => [0, 44, 97, 44].getD x 0, 0⟩
        = some ((words.map fun w => 1 + w.1).take n ++ List.replicate (n - words.length) 0,
          state') ∧
      ∀ w ∈ words.take n, TextAt state'.mem (1 + w.1) (([44, 97, 44].drop w.1).take w.2) := by
  have hstring : IsString (fun x => [0, 44, 97, 44].getD x 0) 1 [44, 97, 44] := by
    refine ⟨by decide, by decide, by decide, ?_⟩
    show ∀ j, j ≤ 3 → _
    decide
  exact (@strtok_exact ⟨_, 0⟩ 1 [44, 97, 44] hstring).1 [44]

end Icarius.Libc
