/-
  Icarius.Fs.PathGrammar

  The documented grammar of paths, and what the parser makes of texts in it and
  outside it.  The parser has no grammar of its own to compare with: it reads
  tokens as long as they continue a path, skips error tokens on its way, and stops
  without a look at what follows.  `PathState` says where it is, `meetsError` which
  texts make it report an error.
-/

import Icarius.Fs.PathRead
import Icarius.Fs.Vfs

namespace Icarius

/-! ## The grammar -/

/-- `identifier -> ( letter )*` -/
def IsIdentifier (w : List UInt8) : Prop := ∀ c ∈ w, isalpha c

/-- `entry -> identifier | identifier '.' identifier` -/
def IsEntry (w : List UInt8) : Prop :=
  IsIdentifier w ∨ ∃ name ext, IsIdentifier name ∧ IsIdentifier ext ∧ w = name ++ charDot :: ext

/-- `path -> letter ':' ( '/' entry )*` -/
def InGrammar (text : List UInt8) : Prop :=
  ∃ (letter : UInt8) (entries : List (List UInt8)), isalpha letter ∧ (∀ e ∈ entries, IsEntry e) ∧
    text = letter :: charColon :: entries.flatMap fun e => charSlash :: e

/-! ## Where the parser is -/

/-- Where the parser is in a path. -/
inductive PathState where
  | start
  | afterLetter
  | entries
  | afterSlash
  | afterName
  | afterDot
  deriving DecidableEq, Repr

/-- The tokens that continue a path.  Everything else ends the reading. -/
def PathState.next : PathState → PathType → Option PathState
  | .start, .ptLetter => some .afterLetter
  | .afterLetter, .ptColon => some .entries
  | .afterSlash, .ptIdentifier => some .afterName
  | .afterName, .ptDot => some .afterDot
  | .afterDot, .ptIdentifier => some .entries
  | .afterLetter, .ptSlash => none
  | _, .ptSlash => some .afterSlash
  | _, _ => none

/-- An error is met: an error token that is reached, or a dot without an extension. -/
def meetsError : PathState → List PathToken → Bool
  | state, [] => state == .afterDot
  | state, t :: ts =>
      if t.type = .ptErr then true
      else if state = .afterDot ∧ t.type ≠ .ptIdentifier then true
      else
        match state.next t.type with
        | some state => meetsError state ts
        | none => false

/-- The drive in front is `A:`. -/
def onDriveA (text : List UInt8) : Bool :=
  match skipErr (pathTokens text) with
  | [] => false
  | t :: _ => t.type == .ptLetter && t.start.headD 0 == 65

/-! ## The parser is there -/

theorem meetsError_of_errAt {state : PathState} {ts : List PathToken} (h : errAt ts = true) :
    meetsError state ts = true := by
  cases ts with
  | nil => cases h
  | cons t ts =>
      rw [meetsError, if_pos (by simpa [errAt] using h)]

/-- An error in front, or one behind it. -/
theorem meetsError_eq (state : PathState) (ts : List PathToken) :
    meetsError state ts = (errAt ts || meetsError state (skipErr ts)) := by
  cases herr : errAt ts with
  | true => rw [meetsError_of_errAt herr, Bool.true_or]
  | false => rw [skipErr_of_errAt herr, Bool.false_or]

/-- The token in front does not continue the entry. -/
theorem meetsError_entryEnd {state : PathState} {ts : List PathToken} (herr : errAt ts = false)
    (hstate : state = .start ∨ state = .afterSlash ∨ state = .afterName)
    (hnext : ∀ t rest, ts = t :: rest → t.type ≠ .ptSlash → state.next t.type = none) :
    meetsError state ts = meetsError .entries ts := by
  have hne : state ≠ .afterDot := by
    rcases hstate with rfl | rfl | rfl <;> exact fun h => by cases h
  cases ts with
  | nil =>
      rw [meetsError, meetsError, beq_eq_false_iff_ne.mpr hne]
      rfl
  | cons t ts =>
      have ht : t.type ≠ .ptErr := beq_eq_false_iff_ne.mp herr
      have hnext := hnext t ts rfl
      by_cases hslash : t.type = .ptSlash
      · have hgo : state.next t.type = some .afterSlash := by
          rw [hslash]
          rcases hstate with rfl | rfl | rfl <;> rfl
        simp only [meetsError, hslash, hne, reduceCtorEq, if_false, false_and] at hgo ⊢
        rw [hgo]
        rfl
      · have hentries : PathState.next .entries t.type = none := by
          cases htype : t.type <;> first | rfl | exact absurd htype hslash
        simp only [meetsError, ht, hne, reduceCtorEq, if_false, false_and, hnext hslash, hentries]

/-- One token goes on. -/
theorem meetsError_cons {state state' : PathState} {t : PathToken} (ts : List PathToken)
    (herr : t.type ≠ .ptErr) (hdot : state = .afterDot → t.type = .ptIdentifier)
    (hnext : state.next t.type = some state') :
    meetsError state (t :: ts) = meetsError state' ts := by
  have hdot' : ¬ (state = .afterDot ∧ t.type ≠ .ptIdentifier) := fun h => h.2 (hdot h.1)
  rw [meetsError, if_neg herr, if_neg hdot', hnext]

theorem ne_err {t : PathToken} {type : PathType} (h : t.type = type) (hne : type ≠ .ptErr) :
    t.type ≠ .ptErr := h ▸ hne

/-- Behind a name. -/
theorem readName_state (name : PathToken) (ts : List PathToken) :
    errAt (readName name ts).2.2 = false ∧
      meetsError .afterName ts
        = ((readName name ts).2.1 || meetsError .entries (readName name ts).2.2) := by
  have herr := errAt_skipErr ts
  rw [meetsError_eq]
  unfold readName
  cases hts : skipErr ts with
  | nil => exact ⟨rfl, rfl⟩
  | cons dot ts₁ =>
      rw [hts] at herr
      -- behind the name a dot leads on to the extension, all else ends the entry
      by_cases hdot : dot.type = .ptDot
      · have hgo : PathState.next .afterName dot.type = some .afterDot := by rw [hdot]; rfl
        have hne := ne_err hdot (fun h => by cases h)
        have herr₁ := errAt_skipErr ts₁
        rw [meetsError_cons ts₁ hne (fun h => by cases h) hgo, meetsError_eq .afterDot]
        simp only [hdot, if_true]
        cases hts₁ : skipErr ts₁ with
        | nil =>
            refine ⟨rfl, ?_⟩
            rw [show meetsError .afterDot [] = true from rfl]
            simp only [Bool.or_true, Bool.true_or]
        | cons ext ts₂ =>
            rw [hts₁] at herr₁
            have hne₁ : ext.type ≠ .ptErr := beq_eq_false_iff_ne.mp herr₁
            -- an extension that is missing is the one error the grammar has here
            by_cases hext : ext.type = .ptIdentifier
            · have hgo₁ : PathState.next .afterDot ext.type = some .entries := by rw [hext]; rfl
              rw [meetsError_cons ts₂ hne₁ (fun _ => hext) hgo₁, meetsError_eq .entries ts₂]
              simp only [hext, if_true]
              refine ⟨errAt_skipErr ts₂, ?_⟩
              simp only [Bool.or_assoc]
            · simp only [hext, if_false]
              refine ⟨herr₁, ?_⟩
              rw [meetsError, if_neg hne₁, if_pos ⟨rfl, hext⟩]
              simp only [Bool.or_true, Bool.true_or]
      · simp only [hdot, if_false]
        refine ⟨herr, ?_⟩
        rw [meetsError_entryEnd herr (.inr (.inr rfl)) fun t rest heq hslash => ?_]
        obtain ⟨rfl, -⟩ := List.cons.inj heq
        cases htype : dot.type <;> first | rfl | exact absurd htype hslash | exact absurd htype hdot

/-- Behind a slash. -/
theorem readEntry_state {ts rest : List PathToken} {node : PathNode} {error : Bool}
    (herr : errAt ts = false) (h : readEntry ts = .ok (node, error, rest)) :
    errAt rest = false ∧
      meetsError .afterSlash ts = (error || meetsError .entries rest) := by
  cases ts with
  | nil =>
      cases h
      exact ⟨rfl, rfl⟩
  | cons name ts =>
      have hne : name.type ≠ .ptErr := beq_eq_false_iff_ne.mp herr
      by_cases hname : name.type = .ptIdentifier
      · have hgo : PathState.next .afterSlash name.type = some .afterName := by rw [hname]; rfl
        have hstate := readName_state name ts
        simp only [readEntry, hname, if_true] at h
        split at h
        · cases h
        · rw [Except.ok.inj h] at hstate
          rwa [meetsError_cons ts hne (fun h => by cases h) hgo]
      · simp only [readEntry, hname, if_false, Except.ok.injEq, Prod.mk.injEq] at h
        obtain ⟨-, rfl, rfl⟩ := h
        refine ⟨herr, ?_⟩
        rw [Bool.false_or, meetsError_entryEnd herr (.inr (.inl rfl)) fun t rest heq hslash => ?_]
        obtain ⟨rfl, -⟩ := List.cons.inj heq
        cases htype : name.type <;>
          first | rfl | exact absurd htype hslash | exact absurd htype hname

/-- The entries of a path. -/
theorem readEntries_state {fuel : Nat} {ts rest : List PathToken} {nodes : List PathNode}
    {error : Bool} (hfuel : ts.length < fuel) (herr : errAt ts = false)
    (h : readEntries fuel ts = .ok (nodes, error, rest)) :
    error = meetsError .entries ts := by
  -- over the entries; each one takes its slash at least
  induction fuel generalizing ts nodes error with
  | zero => omega
  | succ fuel ih =>
      rcases slash_or ts with ⟨slash, ts, rfl, hslash⟩ | hne
      · have hgo : PathState.next .entries slash.type = some .afterSlash := by rw [hslash]; rfl
        have hlen := length_skipErr_le ts
        rw [List.length_cons] at hfuel
        obtain ⟨node, e, ts₁, nodes₁, e₁, hentry, hrest, rfl, rfl⟩ := readEntries_slash hslash h
        obtain ⟨herr₁, herror⟩ := readEntry_state (errAt_skipErr ts) hentry
        have hlen₁ := length_readEntry_le hentry
        rw [meetsError_cons ts (beq_eq_false_iff_ne.mp herr) (fun h => by cases h) hgo,
          meetsError_eq, herror, ih (by omega) herr₁ hrest, Bool.or_assoc]
      · rw [readEntries_stop hne] at h
        obtain ⟨-, rfl, -⟩ : [] = nodes ∧ false = error ∧ ts = rest := by simpa using h
        cases ts with
        | nil => rfl
        | cons t ts =>
            have hstop : PathState.next .entries t.type = none := by
              cases htype : t.type <;> first | rfl | exact absurd htype (hne t ts rfl)
            rw [meetsError, if_neg (beq_eq_false_iff_ne.mp herr), if_neg (fun h => by cases h.1),
              hstop]

/-- Behind the drive. -/
theorem readDrive_state {text : List UInt8} (hnul : 0 ∉ text) :
    let r := readDrive (skipErr (pathTokens text))
    errAt r.2.2 = false ∧
      meetsError .start (skipErr (pathTokens text)) = (r.2.1 || meetsError .entries r.2.2) ∧
      ataGet r.1 = onDriveA text := by
  have herr := errAt_skipErr (pathTokens text)
  unfold onDriveA
  cases hts : skipErr (pathTokens text) with
  | nil => exact ⟨rfl, rfl, rfl⟩
  | cons letter ts =>
      rw [hts] at herr
      have hne : letter.type ≠ .ptErr := beq_eq_false_iff_ne.mp herr
      by_cases hletter : letter.type = .ptLetter
      · -- a letter token is a letter with its colon behind it
        obtain ⟨c, colon, ts', halpha, hbytes, rfl, hcolon⟩ := letter_colon hnul hts hletter
        have hne' := ne_err hcolon (fun h => by cases h)
        have hgo : PathState.next .start letter.type = some .afterLetter := by rw [hletter]; rfl
        have hgo' : PathState.next .afterLetter colon.type = some .entries := by rw [hcolon]; rfl
        have hstart : letter.start.headD 0 = c := by
          have := hbytes
          rw [PathToken.bytes] at this
          cases hs : letter.start with
          | nil =>
              rw [hs] at this
              exact (List.cons.inj this).1
          | cons d ds =>
              rw [hs] at this
              exact (List.cons.inj this).1
        -- the parser takes both tokens, the grammar comes to its entries with them
        simp only [readDrive, hletter, if_true, List.tail_cons]
        refine ⟨errAt_skipErr ts', ?_, ?_⟩
        · rw [meetsError_cons _ hne (fun h => by cases h) hgo,
            meetsError_cons _ hne' (fun h => by cases h) hgo', meetsError_eq]
        · -- the drive is the one letter, whose text ends at its NUL
          rw [hbytes, hstart, ataGet]
          have hzero : (c != 0) = true := bne_iff_ne.mpr fun h => by
            rw [h] at halpha
            exact Bool.false_ne_true halpha
          have htake : List.takeWhile (· != 0) [c, 0] = [c] := by
            simp only [List.takeWhile, hzero]
            rfl
          rw [List.singleton_append, htake]
          simp
      · -- no drive: the entries start at once
        simp only [readDrive, hletter, if_false]
        refine ⟨herr, ?_, ?_⟩
        · rw [Bool.false_or, meetsError_entryEnd herr (.inl rfl) fun t rest heq hslash => ?_]
          obtain ⟨rfl, -⟩ := List.cons.inj heq
          cases htype : letter.type <;>
            first | rfl | exact absurd htype hslash | exact absurd htype hletter
        · rw [beq_eq_false_iff_ne.mpr hletter]
          rfl

/-- What a parse does, by where its text leads the parser: when it is granted the nodes it
    writes to, and no name is too long for its node, it returns, with the error that is met. -/
theorem pathParserParseWith_state (grants : Nat → Bool) {text : List UInt8} (hnul : 0 ∉ text) :
    (NodesGiven grants ((pathEntries text).map Option.isSome) ∧
        (∀ name, some name ∈ pathEntries text → name.len ≤ nodeRoom) →
      ∃ root calls p, pathParserParseWith grants {} text = .ok (root, calls, p) ∧
        p.hasError = meetsError .start (pathTokens text) ∧ ataGet root.drive = onDriveA text) ∧
    (¬ (NodesGiven grants ((pathEntries text).map Option.isSome) ∧
        ∀ name, some name ∈ pathEntries text → name.len ≤ nodeRoom) →
      ∃ fault, pathParserParseWith grants {} text = .error fault) := by
  have hparse := pathParserParseWith_eq grants hnul
  obtain ⟨herr, herror, hdrive⟩ := readDrive_state hnul
  have hok := readEntries_ok_iff ((readDrive (skipErr (pathTokens text))).2.2.length + 1)
    (readDrive (skipErr (pathTokens text))).2.2
  rw [meetsError_eq, herror]
  unfold readPath at hparse
  simp only at hparse
  cases hread : readEntries ((readDrive (skipErr (pathTokens text))).2.2.length + 1)
      (readDrive (skipErr (pathTokens text))).2.2 with
  | error fault =>
      rw [hread] at hparse hok
      obtain ⟨fault', hfault, -⟩ := hparse
      refine ⟨fun h => ?_, fun _ => ⟨fault', hfault⟩⟩
      cases (hok.mpr h.2).choose_spec
  | ok r =>
      obtain ⟨nodes, error', rest⟩ := r
      have herror' := readEntries_state (Nat.lt_succ_self _) herr hread
      have hnames := hok.mp ⟨_, hread⟩
      have hlength := readEntries_length hread
      rw [hread] at hparse
      simp only at hparse
      by_cases hnil : nodes = []
      · -- without an entry the name of the first node is read through a null pointer
        rw [hnil] at hparse hlength
        obtain ⟨fault', hfault, -⟩ := hparse
        refine ⟨fun h => ?_, fun _ => ⟨fault', hfault⟩⟩
        obtain ⟨i, hi, -⟩ := h.1.head
        rw [List.length_map, pathEntries, ← hlength] at hi
        exact absurd hi (Nat.not_lt_zero i)
      · obtain ⟨nodes', hname, -⟩ := exists_nameRoot hnil
        rw [hname] at hparse
        refine ⟨fun h => ?_, fun h => hparse.2 fun hgiven => h ⟨hgiven, hnames⟩⟩
        obtain ⟨root, p, hparse, hroot, hp, -⟩ := hparse.1 h.1
        refine ⟨root, _, p, hparse, ?_, ?_⟩
        · rw [hp, herror', Bool.or_assoc]
        · rw [hroot, hdrive]

/-! ## The characters it reads -/

/-- A character of no path -/
def IsStray (c : UInt8) : Prop :=
  isalpha c = false ∧ c ≠ charSlash ∧ c ≠ charColon ∧ c ≠ charDot

/-- The characters that lead the parser from one place in a path to another -/
inductive Leads : PathState → List UInt8 → PathState → Prop where
  | here (state : PathState) : Leads state [] state
  | drive {c : UInt8} {w : List UInt8} {state : PathState} (halpha : isalpha c)
      (h : Leads .entries w state) : Leads .start (c :: charColon :: w) state
  | slash {from_ state : PathState} {w : List UInt8} (hfrom : from_ ≠ .afterLetter)
      (h : Leads .afterSlash w state) : Leads from_ (charSlash :: w) state
  | name {v w : List UInt8} {state : PathState} (hne : v ≠ []) (hv : IsIdentifier v)
      (h : Leads .afterName w state) : Leads .afterSlash (v ++ w) state
  | dot {w : List UInt8} {state : PathState} (h : Leads .afterDot w state) :
      Leads .afterName (charDot :: w) state
  | ext {v w : List UInt8} {state : PathState} (hne : v ≠ []) (hv : IsIdentifier v)
      (h : Leads .entries w state) : Leads .afterDot (v ++ w) state

/-- An identifier is read from the text: a letter is in front, and it is no drive. -/
def StartsIdentifier (text : List UInt8) : Prop :=
  ∃ c cs, text = c :: cs ∧ isalpha c ∧ cs.headD 0 ≠ charColon

/-- The reading of the text comes to a stray character. -/
def MeetsStray (text : List UInt8) : Prop :=
  ∃ front state c rest, Leads .start front state ∧ IsStray c ∧ text = front ++ c :: rest

/-- The reading of the text comes, with `front`, to a dot behind a name, and there is no
    extension behind it. -/
def BareDot (text front rest : List UInt8) : Prop :=
  Leads .start front .afterDot ∧ ¬ StartsIdentifier rest ∧ text = front ++ rest

/-- No letter and no colon is in front. -/
def EndsName (text : List UInt8) : Prop := EndsWord text ∧ text.headD 0 ≠ charColon

section Steps

variable {text : List UInt8}

theorem IsStray.endsName {c : UInt8} (h : IsStray c) (rest : List UInt8) : EndsName (c :: rest) :=
  ⟨h.1, h.2.2.1⟩

theorem meetsError_slash {state : PathState} (hnul : 0 ∉ charSlash :: text)
    (hletter : state ≠ .afterLetter) (hdot : state ≠ .afterDot) :
    meetsError state (pathTokens (charSlash :: text)) = meetsError .afterSlash (pathTokens text) := by
  rw [pathTokens_cons (s := []) hnul (lex_char (by decide) (by decide))]
  have herr : charType charSlash ≠ .ptErr := by decide
  refine meetsError_cons _ herr (fun h => absurd h hdot) ?_
  cases state with
  | afterLetter => exact absurd rfl hletter
  | afterDot => exact absurd rfl hdot
  | start => rfl
  | entries => rfl
  | afterSlash => rfl
  | afterName => rfl

theorem meetsError_dot (hnul : 0 ∉ charDot :: text) :
    meetsError .afterName (pathTokens (charDot :: text)) = meetsError .afterDot (pathTokens text) := by
  have herr : charType charDot ≠ .ptErr := by decide
  rw [pathTokens_cons (s := []) hnul (lex_char (by decide) (by decide))]
  exact meetsError_cons _ herr (fun h => by cases h) rfl

theorem meetsError_drive {c : UInt8} (halpha : isalpha c) (hnul : 0 ∉ c :: charColon :: text) :
    meetsError .start (pathTokens (c :: charColon :: text))
      = meetsError .entries (pathTokens text) := by
  have hrest : 0 ∉ charColon :: text := fun h => hnul (List.mem_cons_of_mem c h)
  have hletter : PathState.start.next .ptLetter = some .afterLetter := rfl
  have hcolon : charType charColon ≠ .ptErr := by decide
  rw [pathTokens_cons (s := []) hnul (lex_letter halpha),
    pathTokens_cons (s := []) hrest (lex_char (by decide) (by decide)),
    meetsError_cons _ (fun h => by cases h) (fun h => by cases h) hletter]
  exact meetsError_cons _ hcolon (fun h => by cases h) rfl

/-- The tokens of a word that ends -/
theorem pathTokens_identifier {v : List UInt8} (hne : v ≠ []) (hv : IsIdentifier v)
    (hends : EndsName text) (hnul : 0 ∉ v ++ text) :
    ∃ t, t.type = .ptIdentifier ∧ pathTokens (v ++ text) = t :: pathTokens text := by
  obtain ⟨c, cs, rfl⟩ := List.exists_cons_of_ne_nil hne
  have hlex := lex_identifier (s := []) hv hne hends.1 fun _ => hends.2
  exact ⟨_, by rfl, pathTokens_cons hnul hlex⟩

theorem meetsError_name {v : List UInt8} (hne : v ≠ []) (hv : IsIdentifier v)
    (hends : EndsName text) (hnul : 0 ∉ v ++ text) :
    meetsError .afterSlash (pathTokens (v ++ text)) = meetsError .afterName (pathTokens text) := by
  obtain ⟨t, ht, htokens⟩ := pathTokens_identifier hne hv hends hnul
  rw [htokens]
  exact meetsError_cons _ (ne_err ht (by decide)) (fun h => by cases h) (by rw [ht]; rfl)

theorem meetsError_ext {v : List UInt8} (hne : v ≠ []) (hv : IsIdentifier v)
    (hends : EndsName text) (hnul : 0 ∉ v ++ text) :
    meetsError .afterDot (pathTokens (v ++ text)) = meetsError .entries (pathTokens text) := by
  obtain ⟨t, ht, htokens⟩ := pathTokens_identifier hne hv hends hnul
  rw [htokens]
  exact meetsError_cons _ (ne_err ht (by decide)) (fun _ => ht) (by rw [ht]; rfl)

theorem meetsError_stray {c : UInt8} (h : IsStray c) (state : PathState) (hnul : 0 ∉ c :: text) :
    meetsError state (pathTokens (c :: text)) = true := by
  have hzero : c ≠ 0 := fun hc => hnul (hc ▸ List.mem_cons_self)
  have htype : charType c = .ptErr := by
    simp [charType, h.2.1, h.2.2.1, h.2.2.2]
  rw [pathTokens_cons (s := []) hnul (lex_char hzero h.1), meetsError, if_pos htype]

theorem meetsError_bareDot (h : ¬ StartsIdentifier text) (hnul : 0 ∉ text) :
    meetsError .afterDot (pathTokens text) = true := by
  cases text with
  | nil => rfl
  | cons c cs =>
      have hother : ∀ (t : PathToken) (ts : List PathToken), t.type ≠ .ptIdentifier →
          meetsError .afterDot (t :: ts) = true := by
        intro t ts ht
        rw [meetsError]
        split
        · rfl
        · rw [if_pos ⟨rfl, ht⟩]
      rcases lex_cases (s := []) hnul with ⟨-, -, hlex⟩ | ⟨w, rest, hsplit, hne, hw, hends, hlex⟩ |
        ⟨-, hlex⟩
      · rw [pathTokens_cons hnul hlex]
        exact hother _ _ fun h => by cases h
      · -- an identifier is a letter in front that is no drive
        exfalso
        obtain ⟨d, ds, rfl⟩ := List.exists_cons_of_ne_nil hne
        obtain ⟨rfl, rfl⟩ := List.cons.inj hsplit
        refine h ⟨c, _, rfl, hw c List.mem_cons_self, fun hcolon => ?_⟩
        cases ds with
        | nil =>
            obtain ⟨tail, rfl⟩ : ∃ tail, rest = charColon :: tail := by
              cases rest with
              | nil => exact absurd hcolon (by decide)
              | cons d tail => exact ⟨tail, by rw [show d = charColon from hcolon]⟩
            have hboth := (lex_letter (hw c List.mem_cons_self)).symm.trans hlex
            cases hboth
        | cons d ds =>
            have hd := hw d (List.mem_cons_of_mem c List.mem_cons_self)
            rw [show d = charColon from hcolon] at hd
            exact absurd hd (by decide)
      · rw [pathTokens_cons hnul hlex]
        exact hother _ _ charType_ne.2

end Steps

/-! ## The errors it meets -/

/-- Characters that lead on from a name or from an extension do not start with a letter. -/
theorem Leads.endsName {state state' : PathState} {w : List UInt8} (h : Leads state w state')
    (hstate : state = .afterName ∨ state = .entries) (hne : w ≠ []) (rest : List UInt8) :
    EndsName (w ++ rest) := by
  cases h with
  | here => exact absurd rfl hne
  | drive halpha h => rcases hstate with hstate | hstate <;> cases hstate
  | slash hfrom h => exact ⟨by rfl, fun h => absurd h (by decide : charSlash ≠ charColon)⟩
  | name hv h => rcases hstate with hstate | hstate <;> cases hstate
  | dot h => exact ⟨by rfl, fun h => absurd h (by decide : charDot ≠ charColon)⟩
  | ext hv h => rcases hstate with hstate | hstate <;> cases hstate

/-- An error that is met behind the characters is met with them. -/
theorem Leads.meetsError {state state' : PathState} {w : List UInt8} (h : Leads state w state')
    {rest : List UInt8} (hrest : state' = .afterDot ∨ EndsName rest) (hnul : 0 ∉ w ++ rest)
    (herr : meetsError state' (pathTokens rest) = true) :
    Icarius.meetsError state (pathTokens (w ++ rest)) = true := by
  induction h with
  | here => exact herr
  | drive halpha h ih =>
      have htail := ih hrest (fun h => hnul (List.mem_cons_of_mem _ (List.mem_cons_of_mem _ h))) herr
      exact (meetsError_drive halpha hnul).trans htail
  | @slash from_ _ w hfrom h ih =>
      have htail := ih hrest (fun h => hnul (List.mem_cons_of_mem _ h)) herr
      by_cases hdot : from_ = .afterDot
      · rw [hdot]
        refine meetsError_bareDot ?_ hnul
        rintro ⟨c, cs, heq, halpha, -⟩
        obtain ⟨rfl, -⟩ := List.cons.inj heq
        exact absurd halpha (by decide)
      · exact (meetsError_slash hnul hfrom hdot).trans htail
  | @name v w state' hne hv h ih =>
      rw [List.append_assoc] at hnul ⊢
      have htail := ih hrest (fun h => hnul (List.mem_append_right v h)) herr
      have hends : EndsName (w ++ rest) := by
        by_cases hw : w = []
        · subst hw
          cases h
          exact hrest.resolve_left fun h => by cases h
        · exact h.endsName (.inl rfl) hw rest
      exact (meetsError_name hne hv hends hnul).trans htail
  | dot h ih =>
      have htail := ih hrest (fun h => hnul (List.mem_cons_of_mem _ h)) herr
      exact (meetsError_dot hnul).trans htail
  | @ext v w state' hne hv h ih =>
      rw [List.append_assoc] at hnul ⊢
      have htail := ih hrest (fun h => hnul (List.mem_append_right v h)) herr
      have hends : EndsName (w ++ rest) := by
        by_cases hw : w = []
        · subst hw
          cases h
          exact hrest.resolve_left fun h => by cases h
        · exact h.endsName (.inr rfl) hw rest
      exact (meetsError_ext hne hv hends hnul).trans htail

/-- An error is met from a place on: at a stray character, or behind a dot. -/
def ErrorFrom (state : PathState) (text : List UInt8) : Prop :=
  (∃ front state' c rest, Leads state front state' ∧ IsStray c ∧ text = front ++ c :: rest) ∨
    ∃ front rest, Leads state front .afterDot ∧ ¬ StartsIdentifier rest ∧ text = front ++ rest

theorem ErrorFrom.append {state state' : PathState} {v text : List UInt8}
    (h : ErrorFrom state' text)
    (hlead : ∀ w state'', Leads state' w state'' → Leads state (v ++ w) state'') :
    ErrorFrom state (v ++ text) := by
  rcases h with ⟨front, state'', c, rest, h, hstray, rfl⟩ | ⟨front, rest, h, hbare, rfl⟩
  · exact .inl ⟨v ++ front, state'', c, rest, hlead _ _ h, hstray, (List.append_assoc _ _ _).symm⟩
  · exact .inr ⟨v ++ front, rest, hlead _ _ h, hbare, (List.append_assoc _ _ _).symm⟩

theorem errorFrom_bareDot {text : List UInt8} (h : ¬ StartsIdentifier text) :
    ErrorFrom .afterDot text :=
  .inr ⟨[], text, .here _, h, rfl⟩

theorem errorFrom_nil {state : PathState} (h : meetsError state (pathTokens []) = true) :
    ErrorFrom state [] := by
  have hdot : state = .afterDot := eq_of_beq h
  rw [hdot]
  refine errorFrom_bareDot ?_
  rintro ⟨c, cs, heq, -⟩
  cases heq

/-- The errors that the reading meets in a text, wherever in an entry it starts, come from one of
    the two. -/
def ErrorsFrom (text : List UInt8) : Prop :=
  ∀ state, state ≠ .afterLetter → meetsError state (pathTokens text) = true → ErrorFrom state text

theorem errorsFrom_drive {c : UInt8} {tail : List UInt8} (hnul : 0 ∉ c :: charColon :: tail)
    (halpha : isalpha c) (htail : ErrorsFrom tail) : ErrorsFrom (c :: charColon :: tail) := by
  intro state hstate herr
  have htokens := pathTokens_cons hnul (lex_letter (s := []) halpha)
  have hbare : ¬ StartsIdentifier (c :: charColon :: tail) := by
    rintro ⟨d, ds, heq, -, hcolon⟩
    obtain ⟨-, rfl⟩ := List.cons.inj heq
    exact hcolon rfl
  cases state with
  | start =>
      rw [meetsError_drive halpha hnul] at herr
      exact (htail _ (by decide) herr).append (v := [c, charColon]) fun w _ h => .drive halpha h
  | afterDot => exact errorFrom_bareDot hbare
  | afterLetter => exact absurd rfl hstate
  | entries => rw [htokens] at herr; cases herr
  | afterSlash => rw [htokens] at herr; cases herr
  | afterName => rw [htokens] at herr; cases herr

theorem errorsFrom_word {v rest : List UInt8} (hne : v ≠ []) (hv : IsIdentifier v)
    (htokens : pathTokens (v ++ rest)
      = ⟨.ptIdentifier, v ++ rest, v.length⟩ :: pathTokens rest) (hrest : ErrorsFrom rest) :
    ErrorsFrom (v ++ rest) := by
  intro state hstate herr
  rw [htokens] at herr
  -- only behind a slash or a dot the reading goes on
  cases state with
  | afterSlash => exact (hrest .afterName (by decide) herr).append fun w _ h => .name hne hv h
  | afterDot => exact (hrest .entries (by decide) herr).append fun w _ h => .ext hne hv h
  | afterLetter => exact absurd rfl hstate
  | start => cases herr
  | entries => cases herr
  | afterName => cases herr

theorem errorsFrom_char {c : UInt8} {cs : List UInt8} (hnul : 0 ∉ c :: cs)
    (halpha : isalpha c = false)
    (htokens : pathTokens (c :: cs) = ⟨charType c, c :: cs, 1⟩ :: pathTokens cs)
    (hrest : ErrorsFrom cs) : ErrorsFrom (c :: cs) := by
  intro state hstate herr
  have hbare : ¬ StartsIdentifier (c :: cs) := by
    rintro ⟨d, ds, heq, halpha', -⟩
    obtain ⟨rfl, rfl⟩ := List.cons.inj heq
    exact Bool.false_ne_true (halpha.symm.trans halpha')
  by_cases hdot : state = .afterDot
  · rw [hdot]
    exact errorFrom_bareDot hbare
  by_cases hslash : c = charSlash
  · subst hslash
    rw [meetsError_slash hnul hstate hdot] at herr
    exact (hrest .afterSlash (by decide) herr).append (v := [charSlash])
      fun w _ h => .slash hstate h
  by_cases hcolon : c = charColon
  · -- the reading stops at a colon
    subst hcolon
    rw [htokens] at herr
    cases state with
    | afterDot => exact absurd rfl hdot
    | afterLetter => exact absurd rfl hstate
    | start => cases herr
    | entries => cases herr
    | afterSlash => cases herr
    | afterName => cases herr
  by_cases hcdot : c = charDot
  · subst hcdot
    cases state with
    | afterName =>
        rw [meetsError_dot hnul] at herr
        exact (hrest .afterDot (by decide) herr).append (v := [charDot]) fun w _ h => .dot h
    | afterDot => exact absurd rfl hdot
    | afterLetter => exact absurd rfl hstate
    | start => rw [htokens] at herr; cases herr
    | entries => rw [htokens] at herr; cases herr
    | afterSlash => rw [htokens] at herr; cases herr
  · exact .inl ⟨[], state, c, cs, .here state, ⟨halpha, hslash, hcolon, hcdot⟩, rfl⟩

/-- An error of the reading comes from one of the two. -/
theorem errorsFrom_all {text : List UInt8} (hnul : 0 ∉ text) : ErrorsFrom text := by
  -- over the text; every token takes a character at least
  obtain ⟨n, hn⟩ : ∃ n, text.length ≤ n := ⟨_, Nat.le_refl _⟩
  induction n generalizing text with
  | zero =>
      obtain rfl := List.length_eq_zero_iff.mp (Nat.le_zero.mp hn)
      exact fun _ _ herr => errorFrom_nil herr
  | succ n ih =>
      cases text with
      | nil => exact fun _ _ herr => errorFrom_nil herr
      | cons c cs =>
          rw [List.length_cons] at hn
          rcases lex_cases (s := []) hnul with ⟨halpha, ⟨tail, rfl⟩, -⟩ |
            ⟨v, rest, hsplit, hne, hv, -, hlex⟩ | ⟨halpha, hlex⟩
          · rw [List.length_cons] at hn
            exact errorsFrom_drive hnul halpha
              (ih (fun h => hnul (List.mem_cons_of_mem c (List.mem_cons_of_mem _ h))) (by omega))
          · have hlen : cs.length + 1 = v.length + rest.length := by
              rw [← List.length_cons (a := c), hsplit, List.length_append]
            have hpos : 0 < v.length := List.length_pos_iff.mpr hne
            have htokens := pathTokens_cons hnul hlex
            rw [hsplit] at hnul htokens ⊢
            exact errorsFrom_word hne hv htokens
              (ih (fun h => hnul (List.mem_append_right v h)) (by omega))
          · exact errorsFrom_char hnul halpha (pathTokens_cons hnul hlex)
              (ih (fun h => hnul (List.mem_cons_of_mem c h)) (by omega))

/-- The reading meets an error exactly at a stray character, or at a dot without an extension. -/
theorem meetsError_iff {text : List UInt8} (hnul : 0 ∉ text) :
    meetsError .start (pathTokens text) = true ↔
      MeetsStray text ∨ ∃ front rest, BareDot text front rest := by
  constructor
  · intro herr
    rcases errorsFrom_all hnul .start (by decide) herr with h | ⟨front, rest, h, hbare, htext⟩
    · exact .inl h
    · exact .inr ⟨front, rest, h, hbare, htext⟩
  · rintro (⟨front, state, c, rest, h, hstray, rfl⟩ | ⟨front, rest, h, hbare, rfl⟩)
    · refine h.meetsError (.inr (hstray.endsName rest)) hnul (meetsError_stray hstray state ?_)
      exact fun h => hnul (List.mem_append_right front h)
    · refine h.meetsError (.inl rfl) hnul (meetsError_bareDot hbare ?_)
      exact fun h => hnul (List.mem_append_right front h)

/-! ## The paths of the grammar -/

/-- Entries behind their slashes -/
def IsEntries (text : List UInt8) : Prop :=
  ∃ entries : List (List UInt8), (∀ e ∈ entries, IsEntry e) ∧
    text = entries.flatMap fun e => charSlash :: e

/-- What the grammar allows from a place on. -/
def Continues : PathState → List UInt8 → Prop
  | .start, text => InGrammar text
  | .afterLetter, _ => False
  | .entries, text => IsEntries text
  | .afterSlash, text => ∃ e rest, IsEntry e ∧ IsEntries rest ∧ text = e ++ rest
  | .afterName, text => IsEntries text ∨
      ∃ ext rest, IsIdentifier ext ∧ IsEntries rest ∧ text = charDot :: (ext ++ rest)
  | .afterDot, text => ∃ ext rest, IsIdentifier ext ∧ IsEntries rest ∧ text = ext ++ rest

theorem isIdentifier_nil : IsIdentifier [] := fun _ h => absurd h List.not_mem_nil

theorem isEntries_nil : IsEntries [] := ⟨[], fun _ h => absurd h List.not_mem_nil, rfl⟩

/-- There is no slash in an entry. -/
theorem IsEntry.not_slash {c : UInt8} {e : List UInt8} (h : IsEntry (c :: e)) : c ≠ charSlash := by
  have hslash : isalpha charSlash = false := by decide
  have hfirst : ∀ {w : List UInt8}, IsIdentifier (c :: w) → c ≠ charSlash := by
    rintro w hw rfl
    exact Bool.false_ne_true (hslash.symm.trans (hw _ List.mem_cons_self))
  rcases h with h | ⟨name, ext, hname, -, heq⟩
  · exact hfirst h
  · cases name with
    | nil =>
        rw [(List.cons.inj heq).1]
        decide
    | cons d ds =>
        rw [(List.cons.inj heq).1] at hfirst ⊢
        exact hfirst hname

theorem isEntries_slash {text : List UInt8} :
    IsEntries (charSlash :: text) ↔ ∃ e rest, IsEntry e ∧ IsEntries rest ∧ text = e ++ rest := by
  constructor
  · rintro ⟨entries, hentries, heq⟩
    cases entries with
    | nil => cases heq
    | cons e es =>
        obtain ⟨-, rfl⟩ := List.cons.inj heq
        exact ⟨e, _, hentries e List.mem_cons_self,
          ⟨es, fun x hx => hentries x (List.mem_cons_of_mem e hx), rfl⟩, rfl⟩
  · rintro ⟨e, -, he, ⟨es, hes, rfl⟩, rfl⟩
    refine ⟨e :: es, fun x hx => ?_, rfl⟩
    rcases List.mem_cons.mp hx with rfl | hx
    · exact he
    · exact hes x hx

/-- Entries start with a slash. -/
theorem IsEntries.cons {c : UInt8} {text : List UInt8} (h : IsEntries (c :: text)) :
    c = charSlash := by
  obtain ⟨entries, -, heq⟩ := h
  cases entries with
  | nil => cases heq
  | cons e es => exact (List.cons.inj heq).1

theorem IsEntries.endsName {text : List UInt8} (h : IsEntries text) : EndsName text := by
  cases text with
  | nil => exact ⟨by rfl, fun h => absurd h (by decide : (0 : UInt8) ≠ charColon)⟩
  | cons c cs =>
      rw [h.cons]
      exact ⟨by rfl, fun h => absurd h (by decide : charSlash ≠ charColon)⟩

theorem inGrammar_iff {text : List UInt8} : InGrammar text ↔
    ∃ letter rest, isalpha letter ∧ IsEntries rest ∧ text = letter :: charColon :: rest := by
  constructor
  · rintro ⟨letter, entries, halpha, hentries, rfl⟩
    exact ⟨letter, _, halpha, ⟨entries, hentries, rfl⟩, rfl⟩
  · rintro ⟨letter, -, halpha, ⟨entries, hentries, rfl⟩, rfl⟩
    exact ⟨letter, entries, halpha, hentries, rfl⟩

/-- Characters of the grammar in front of what it allows -/
theorem Leads.continues {state state' : PathState} {w : List UInt8} (h : Leads state w state')
    (hstate : state ≠ .start) {rest : List UInt8} (hrest : Continues state' rest) :
    Continues state (w ++ rest) := by
  induction h with
  | here => exact hrest
  | drive halpha h ih => exact absurd rfl hstate
  | @slash from_ _ w hfrom h ih =>
      have htail := ih (by decide) hrest
      have hentries := isEntries_slash.mpr htail
      cases from_ with
      | start => exact absurd rfl hstate
      | afterLetter => exact absurd rfl hfrom
      | entries => exact hentries
      | afterSlash => exact ⟨[], _, .inl isIdentifier_nil, hentries, rfl⟩
      | afterName => exact .inl hentries
      | afterDot => exact ⟨[], _, isIdentifier_nil, hentries, rfl⟩
  | @name v w state' hne hv h ih =>
      rcases ih (by decide) hrest with htail | ⟨ext, tail, hext, htail, heq⟩
      · exact ⟨v, _, .inl hv, htail, List.append_assoc _ _ _⟩
      · refine ⟨v ++ charDot :: ext, tail, .inr ⟨v, ext, hv, hext, rfl⟩, htail, ?_⟩
        rw [List.append_assoc, heq, List.append_assoc, List.cons_append]
  | dot h ih =>
      obtain ⟨ext, tail, hext, htail, heq⟩ := ih (by decide) hrest
      exact .inr ⟨ext, tail, hext, htail, congrArg (charDot :: ·) heq⟩
  | @ext v w state' hne hv h ih =>
      exact ⟨v, _, hv, ih (by decide) hrest, List.append_assoc _ _ _⟩

/-- The letters in front of a text are those of the word it starts with. -/
theorem word_unique {v v' text text' : List UInt8} (hv : IsIdentifier v) (hv' : IsIdentifier v')
    (htext : EndsWord text) (htext' : EndsWord text') (h : v ++ text = v' ++ text') :
    v = v' ∧ text = text' := by
  have htake : ∀ {v text : List UInt8}, IsIdentifier v → EndsWord text →
      (v ++ text).takeWhile isalpha = v := by
    intro v text hv htext
    rw [List.takeWhile_append_of_pos hv]
    cases text with
    | nil => exact List.append_nil v
    | cons c cs =>
        rw [List.takeWhile_cons_of_neg (by rw [show isalpha c = false from htext]; simp),
          List.append_nil]
  have heq : v = v' := by rw [← htake hv htext, h, htake hv' htext']
  subst heq
  exact ⟨rfl, List.append_cancel_left h⟩

/-- Behind a slash the grammar allows an entry. -/
theorem Continues.of_slash {state : PathState} {text : List UInt8} (hstate : state ≠ .afterLetter)
    (h : Continues state (charSlash :: text)) : Continues .afterSlash text := by
  have hslash : isalpha charSlash = false := by decide
  refine isEntries_slash.mp ?_
  cases state with
  | start =>
      obtain ⟨letter, tail, halpha, -, heq⟩ := inGrammar_iff.mp h
      rw [← (List.cons.inj heq).1] at halpha
      exact absurd (hslash.symm.trans halpha) Bool.false_ne_true
  | afterLetter => exact absurd rfl hstate
  | entries => exact h
  | afterSlash =>
      obtain ⟨e, tail, he, htail, heq⟩ := h
      cases e with
      | nil => exact (show charSlash :: text = tail from heq) ▸ htail
      | cons c cs => exact absurd (List.cons.inj heq).1.symm he.not_slash
  | afterName =>
      rcases h with h | ⟨ext, tail, -, -, heq⟩
      · exact h
      · exact absurd (List.cons.inj heq).1 (by decide)
  | afterDot =>
      obtain ⟨ext, tail, hext, htail, heq⟩ := h
      cases ext with
      | nil => exact (show charSlash :: text = tail from heq) ▸ htail
      | cons c cs =>
          have halpha := hext c List.mem_cons_self
          rw [← (List.cons.inj heq).1] at halpha
          exact absurd (hslash.symm.trans halpha) Bool.false_ne_true

/-- What the grammar allows behind characters that lead the parser to a dot -/
theorem Leads.continues_of {state : PathState} {w : List UInt8} (h : Leads state w .afterDot)
    {rest : List UInt8} (hall : Continues state (w ++ rest)) : Continues .afterDot rest := by
  generalize hdot : PathState.afterDot = state' at h
  induction h with
  | here =>
      subst hdot
      exact hall
  | drive halpha h ih =>
      obtain ⟨letter, tail, -, htail, heq⟩ := inGrammar_iff.mp hall
      obtain ⟨-, heq⟩ := List.cons.inj heq
      obtain ⟨-, rfl⟩ := List.cons.inj heq
      exact ih htail hdot
  | slash hfrom h ih => exact ih (hall.of_slash hfrom) hdot
  | @name v w state' hne hv h ih =>
      refine ih ?_ hdot
      subst hdot
      have hw : w ≠ [] := by
        rintro rfl
        cases h
      have hends := (h.endsName (.inl rfl) hw rest).1
      obtain ⟨e, tail, he, htail, heq⟩ := hall
      rw [List.append_assoc] at heq
      rcases he with he | ⟨name, ext, hname, hext, rfl⟩
      · obtain ⟨-, heq⟩ := word_unique hv he hends htail.endsName.1 heq
        exact .inl (heq ▸ htail)
      · rw [List.append_assoc] at heq
        obtain ⟨-, heq⟩ := word_unique hv hname hends (by rfl) heq
        exact .inr ⟨ext, tail, hext, htail, heq⟩
  | dot h ih =>
      rcases hall with hall | ⟨ext, tail, hext, htail, heq⟩
      · exact absurd hall.cons (by decide)
      · exact ih ⟨ext, tail, hext, htail, (List.cons.inj heq).2⟩ hdot
  | @ext v w state' hne hv h ih =>
      refine ih ?_ hdot
      subst hdot
      have hw : w ≠ [] := by
        rintro rfl
        cases h
      have hends := (h.endsName (.inr rfl) hw rest).1
      obtain ⟨ext, tail, hext, htail, heq⟩ := hall
      rw [List.append_assoc] at heq
      obtain ⟨-, heq⟩ := word_unique hv hext hends htail.endsName.1 heq
      exact heq ▸ htail

/-- A dot without an extension is in a path of the grammar when a drive is in front, and entries
    follow. -/
theorem BareDot.inGrammar_iff {text front rest : List UInt8} (h : BareDot text front rest) :
    InGrammar text ↔ front.head? ≠ some charSlash ∧ IsEntries rest := by
  obtain ⟨hleads, hbare, rfl⟩ := h
  constructor
  · intro hin
    constructor
    · intro hslash
      obtain ⟨letter, tail, halpha, -, heq⟩ := Icarius.inGrammar_iff.mp hin
      cases front with
      | nil => cases hslash
      | cons c cs =>
          rw [Option.some.inj hslash] at heq
          rw [← (List.cons.inj heq).1] at halpha
          exact absurd halpha (by decide)
    · obtain ⟨ext, tail, hext, htail, rfl⟩ := hleads.continues_of hin
      cases ext with
      | nil => exact htail
      | cons c cs =>
          -- an extension would be there
          refine absurd ⟨c, cs ++ tail, rfl, hext c List.mem_cons_self, fun hcolon => ?_⟩ hbare
          cases cs with
          | nil => exact htail.endsName.2 hcolon
          | cons d ds =>
              have halpha := hext d (List.mem_cons_of_mem c List.mem_cons_self)
              rw [show d = charColon from hcolon] at halpha
              exact absurd halpha (by decide)
  · rintro ⟨hdrive, hrest⟩
    have hdot : Continues .afterDot rest := ⟨[], rest, isIdentifier_nil, hrest, rfl⟩
    cases hleads with
    | drive halpha h =>
        exact Icarius.inGrammar_iff.mpr ⟨_, _, halpha, h.continues (by decide) hdot, rfl⟩
    | slash hfrom h => exact absurd rfl hdrive

/-- Entries are letters, slashes and dots. -/
theorem IsEntries.chars {text : List UInt8} (h : IsEntries text) :
    ∀ c ∈ text, isalpha c ∨ c = charSlash ∨ c = charDot := by
  obtain ⟨entries, hentries, rfl⟩ := h
  intro c hc
  obtain ⟨e, he, hce⟩ := List.mem_flatMap.mp hc
  rcases List.mem_cons.mp hce with rfl | hce
  · exact .inr (.inl rfl)
  · rcases hentries e he with hident | ⟨name, ext, hname, hext, rfl⟩
    · exact .inl (hident c hce)
    · rcases List.mem_append.mp hce with hc | hc
      · exact .inl (hname c hc)
      · rcases List.mem_cons.mp hc with rfl | hc
        · exact .inr (.inr rfl)
        · exact .inl (hext c hc)

/-- There are no stray characters in a path of the grammar. -/
theorem InGrammar.not_stray {text : List UInt8} (h : InGrammar text) : ∀ c ∈ text, ¬ IsStray c := by
  obtain ⟨letter, rest, halpha, hrest, rfl⟩ := inGrammar_iff.mp h
  rintro c hc ⟨hnone, hslash, hcolon, hdot⟩
  have hletter : isalpha c ≠ true := fun h => Bool.false_ne_true (hnone.symm.trans h)
  rcases List.mem_cons.mp hc with rfl | hc
  · exact hletter halpha
  · rcases List.mem_cons.mp hc with rfl | hc
    · exact hcolon rfl
    · exact (hrest.chars c hc).elim hletter fun h => h.elim hslash hdot

/-- An entry without a dot, or with a name and an extension -/
def IsFullEntry (e : List UInt8) : Prop :=
  IsIdentifier e ∨ ∃ name ext, name ≠ [] ∧ ext ≠ [] ∧ IsIdentifier name ∧ IsIdentifier ext ∧
    e = name ++ charDot :: ext

/-- A drive and full entries, and behind them nothing, or entries of the grammar of which the
    first has a dot and no name in front of it -/
def IsPlain (text : List UInt8) : Prop :=
  ∃ (letter : UInt8) (entries : List (List UInt8)) (rest : List UInt8), isalpha letter ∧
    (∀ e ∈ entries, IsFullEntry e) ∧
    (rest = [] ∨ IsEntries rest ∧ ∃ rest', rest = charSlash :: charDot :: rest') ∧
    text = letter :: charColon :: ((entries.flatMap fun e => charSlash :: e) ++ rest)

theorem IsFullEntry.isEntry {e : List UInt8} (h : IsFullEntry e) : IsEntry e := by
  rcases h with h | ⟨name, ext, -, -, hname, hext, heq⟩
  · exact .inl h
  · exact .inr ⟨name, ext, hname, hext, heq⟩

theorem IsEntries.append {entries : List (List UInt8)} {rest : List UInt8}
    (hentries : ∀ e ∈ entries, IsEntry e) (hrest : IsEntries rest) :
    IsEntries ((entries.flatMap fun e => charSlash :: e) ++ rest) := by
  obtain ⟨es, hes, rfl⟩ := hrest
  refine ⟨entries ++ es, fun e he => ?_, List.flatMap_append.symm⟩
  rcases List.mem_append.mp he with he | he
  · exact hentries e he
  · exact hes e he

/-- Entries are read in the same way behind a name or an empty entry. -/
theorem IsEntries.meetsError_eq {rest : List UInt8} (h : IsEntries rest) (hnul : 0 ∉ rest)
    {state : PathState} (hletter : state ≠ .afterLetter) (hdot : state ≠ .afterDot) :
    meetsError state (pathTokens rest) = meetsError .entries (pathTokens rest) := by
  cases rest with
  | nil =>
      rw [show pathTokens [] = [] from rfl, meetsError, meetsError, beq_eq_false_iff_ne.mpr hdot]
      rfl
  | cons c cs =>
      obtain rfl := h.cons
      rw [meetsError_slash hnul hletter hdot, meetsError_slash hnul (by decide) (by decide)]

/-- A full entry is read without an error. -/
theorem IsFullEntry.meetsError_eq {e rest : List UInt8} (he : IsFullEntry e)
    (hrest : IsEntries rest) (hnul : 0 ∉ charSlash :: (e ++ rest)) :
    meetsError .entries (pathTokens (charSlash :: (e ++ rest)))
      = meetsError .entries (pathTokens rest) := by
  have hnul' : 0 ∉ e ++ rest := fun h => hnul (List.mem_cons_of_mem _ h)
  have hnulRest : 0 ∉ rest := fun h => hnul' (List.mem_append_right e h)
  rw [meetsError_slash hnul (by decide) (by decide)]
  rcases he with he | ⟨name, ext, hname, hext, hname', hext', rfl⟩
  · by_cases hne : e = []
    · subst hne
      exact hrest.meetsError_eq hnulRest (by decide) (by decide)
    · rw [meetsError_name hne he hrest.endsName hnul']
      exact hrest.meetsError_eq hnulRest (by decide) (by decide)
  · rw [List.append_assoc, List.cons_append] at hnul' ⊢
    have hends : EndsName (charDot :: (ext ++ rest)) :=
      ⟨by rfl, fun h => absurd h (by decide : charDot ≠ charColon)⟩
    have hnulDot : 0 ∉ charDot :: (ext ++ rest) := fun h => hnul' (List.mem_append_right name h)
    rw [meetsError_name hname hname' hends hnul', meetsError_dot hnulDot,
      meetsError_ext hext hext' hrest.endsName fun h => hnulDot (List.mem_cons_of_mem _ h)]

theorem meetsError_fullEntries {entries : List (List UInt8)} {rest : List UInt8}
    (hentries : ∀ e ∈ entries, IsFullEntry e) (hrest : IsEntries rest)
    (hnul : 0 ∉ (entries.flatMap fun e => charSlash :: e) ++ rest) :
    meetsError .entries (pathTokens ((entries.flatMap fun e => charSlash :: e) ++ rest))
      = meetsError .entries (pathTokens rest) := by
  induction entries with
  | nil => rfl
  | cons e es ih =>
      have hes : ∀ x ∈ es, IsFullEntry x := fun x hx => hentries x (List.mem_cons_of_mem e hx)
      rw [List.flatMap_cons, List.cons_append, List.cons_append, List.append_assoc] at hnul ⊢
      rw [(hentries e List.mem_cons_self).meetsError_eq
        (.append (fun x hx => (hes x hx).isEntry) hrest) hnul]
      exact ih hes fun h => hnul (List.mem_cons_of_mem _ (List.mem_append_right e h))

/-- Entries without an error are full ones, up to one without a name. -/
theorem exists_fullEntries {entries : List (List UInt8)} (hentries : ∀ e ∈ entries, IsEntry e)
    (hnul : 0 ∉ entries.flatMap fun e => charSlash :: e)
    (h : meetsError .entries (pathTokens (entries.flatMap fun e => charSlash :: e)) = false) :
    ∃ (full : List (List UInt8)) (rest : List UInt8), (∀ e ∈ full, IsFullEntry e) ∧
      (rest = [] ∨ IsEntries rest ∧ ∃ rest', rest = charSlash :: charDot :: rest') ∧
      (entries.flatMap fun e => charSlash :: e) = (full.flatMap fun e => charSlash :: e) ++ rest := by
  induction entries with
  | nil => exact ⟨[], [], fun _ h => absurd h List.not_mem_nil, .inl rfl, rfl⟩
  | cons e es ih =>
      have hes : ∀ x ∈ es, IsEntry x := fun x hx => hentries x (List.mem_cons_of_mem e hx)
      rw [List.flatMap_cons, List.cons_append] at hnul h
      have htail : 0 ∉ es.flatMap fun e => charSlash :: e :=
        fun h => hnul (List.mem_cons_of_mem _ (List.mem_append_right e h))
      -- a full entry is read over
      have hfull : IsFullEntry e → ∃ (full : List (List UInt8)) (rest : List UInt8),
          (∀ e ∈ full, IsFullEntry e) ∧
          (rest = [] ∨ IsEntries rest ∧ ∃ rest', rest = charSlash :: charDot :: rest') ∧
          ((e :: es).flatMap fun e => charSlash :: e)
            = (full.flatMap fun e => charSlash :: e) ++ rest := by
        intro he
        rw [he.meetsError_eq ⟨es, hes, rfl⟩ hnul] at h
        obtain ⟨full, rest, hfull, hrest, heq⟩ := ih hes htail h
        refine ⟨e :: full, rest, fun x hx => ?_, hrest, ?_⟩
        · rcases List.mem_cons.mp hx with rfl | hx
          · exact he
          · exact hfull x hx
        · rw [List.flatMap_cons, heq, List.flatMap_cons, List.append_assoc]
      rcases hentries e List.mem_cons_self with hname | ⟨name, ext, hname, hext, rfl⟩
      · exact hfull (.inl hname)
      · by_cases hnone : name = []
        · subst hnone
          exact ⟨[], _, fun _ h => absurd h List.not_mem_nil,
            .inr ⟨⟨_, hentries, rfl⟩, _, rfl⟩, rfl⟩
        · by_cases hbare : ext = []
          · -- the dot of a name without an extension is an error
            exfalso
            subst hbare
            have hleads : Leads .entries (charSlash :: (name ++ [charDot])) .afterDot :=
              .slash (by decide) (.name hnone hname (.dot (.here _)))
            have hrest : ¬ StartsIdentifier (es.flatMap fun e => charSlash :: e) := by
              rintro ⟨c, cs, heq, halpha, -⟩
              have hends := (IsEntries.endsName ⟨es, hes, rfl⟩).1
              rw [heq] at hends
              exact Bool.false_ne_true (hends.symm.trans halpha)
            have herr := hleads.meetsError (.inl rfl) (by simpa using hnul)
              (meetsError_bareDot hrest htail)
            rw [List.cons_append, h] at herr
            cases herr
          · exact hfull (.inr ⟨name, ext, hnone, hbare, hname, hext, rfl⟩)

/-- The paths of the grammar that are read without an error -/
theorem isPlain_iff {text : List UInt8} (hnul : 0 ∉ text) :
    IsPlain text ↔ InGrammar text ∧ meetsError .start (pathTokens text) = false := by
  constructor
  · rintro ⟨letter, entries, rest, halpha, hentries, hrest, rfl⟩
    have hrest' : IsEntries rest := by
      rcases hrest with rfl | hrest
      · exact isEntries_nil
      · exact hrest.1
    have htail : 0 ∉ (entries.flatMap fun e => charSlash :: e) ++ rest :=
      fun h => hnul (List.mem_cons_of_mem _ (List.mem_cons_of_mem _ h))
    refine ⟨inGrammar_iff.mpr ⟨letter, _, halpha,
      .append (fun e he => (hentries e he).isEntry) hrest', rfl⟩, ?_⟩
    rw [meetsError_drive halpha hnul, meetsError_fullEntries hentries hrest' htail]
    rcases hrest with rfl | ⟨-, rest', rfl⟩
    · rfl
    · -- the reading ends at the dot
      have hnul' : 0 ∉ charSlash :: charDot :: rest' := fun h => htail (List.mem_append_right _ h)
      have hdot : 0 ∉ charDot :: rest' := fun h => hnul' (List.mem_cons_of_mem _ h)
      rw [meetsError_slash hnul' (by decide) (by decide),
        pathTokens_cons (s := []) hdot (lex_char (by decide) (by decide))]
      rfl
  · rintro ⟨⟨letter, entries, halpha, hentries, rfl⟩, herr⟩
    rw [meetsError_drive halpha hnul] at herr
    obtain ⟨full, rest, hfull, hrest, heq⟩ := exists_fullEntries hentries
      (fun h => hnul (List.mem_cons_of_mem _ (List.mem_cons_of_mem _ h))) herr
    exact ⟨letter, full, rest, halpha, hfull, hrest, by rw [heq]⟩

/-! ## What is accepted -/

/-- `vfs_fopen`, with an allocator that grants the parser the calls of `grants` -/
def vfsFopenWith {σ : Type} (grants : Nat → Bool) (fs : Option (Fs σ)) (self : Vfs σ)
    (filename mode : List UInt8) : Except VfsFault (BitVec 32 × Vfs σ) :=
  vfsFopenParsed fs self
    ((pathParserParseWith grants {} filename).map fun (root, _, p) => (root, p)) mode

/-- The parser leaves `has_error` false exactly when the path is in the grammar, and a
    path outside it is not opened, whatever the file system, the descriptors and the
    mode are. -/
def AcceptsGrammar (grants : Nat → Bool) (path : List UInt8) : Prop :=
  (∃ root calls p, pathParserParseWith grants {} path = .ok (root, calls, p) ∧
      (p.hasError = false ↔ InGrammar path)) ∧
    (¬ InGrammar path → ∀ (σ : Type) (fs : Option (Fs σ)) (s : Vfs σ) (mode : List UInt8),
      ∃ res s', vfsFopenWith grants fs s path mode = .ok (res, s') ∧ IsError res)

/-- The condition: the nodes are granted, and no name is too long for its node; the path is
    plain, or it is not on the drive `A:`, and its reading comes to a stray character, or to a
    dot without an extension that has no drive in front or no entries behind it. -/
def GrammarFits (grants : Nat → Bool) (path : List UInt8) : Prop :=
  NodesGiven grants ((pathEntries path).map Option.isSome) ∧
    (∀ name, some name ∈ pathEntries path → name.len ≤ nodeRoom) ∧
    (IsPlain path ∨ onDriveA path = false ∧ (MeetsStray path ∨
      ∃ front rest, BareDot path front rest ∧
        (front.head? = some charSlash ∨ ¬ IsEntries rest)))

/-- A stray character, or such a dot, is an error that is met outside the grammar. -/
theorem meetsError_outside {path : List UInt8} (hnul : 0 ∉ path) :
    (MeetsStray path ∨ ∃ front rest, BareDot path front rest ∧
        (front.head? = some charSlash ∨ ¬ IsEntries rest)) ↔
      ¬ InGrammar path ∧ meetsError .start (pathTokens path) = true := by
  rw [meetsError_iff hnul]
  constructor
  · rintro (hstray | ⟨front, rest, hbare, hout⟩)
    · refine ⟨fun hin => ?_, .inl hstray⟩
      obtain ⟨front, state, c, rest, -, hc, rfl⟩ := hstray
      exact hin.not_stray c (List.mem_append_right front List.mem_cons_self) hc
    · refine ⟨fun hin => ?_, .inr ⟨front, rest, hbare⟩⟩
      obtain ⟨hdrive, hrest⟩ := hbare.inGrammar_iff.mp hin
      exact hout.elim hdrive fun h => h hrest
  · rintro ⟨hout, hstray | ⟨front, rest, hbare⟩⟩
    · exact .inl hstray
    · refine .inr ⟨front, rest, hbare, ?_⟩
      rw [hbare.inGrammar_iff] at hout
      by_cases hslash : front.head? = some charSlash
      · exact .inl hslash
      · exact .inr fun hrest => hout ⟨hslash, hrest⟩

/-- On another drive nothing is opened. -/
theorem vfsFopen_of_drive {grants : Nat → Bool} {path : List UInt8} {root : PathRoot} {calls : Nat}
    {p : PathParser} (hparse : pathParserParseWith grants {} path = .ok (root, calls, p))
    (hdrive : ataGet root.drive = false)
    (σ : Type) (fs : Option (Fs σ)) (s : Vfs σ) (mode : List UInt8) :
    ∃ res s', vfsFopenWith grants fs s path mode = .ok (res, s') ∧ IsError res := by
  unfold vfsFopenWith vfsFopenParsed
  simp only [hparse, Except.map, hdrive]
  split
  · exact ⟨_, _, rfl, by decide⟩
  · exact ⟨_, _, rfl, by decide⟩

/-- On the drive `A:` a file system that opens everything opens the path. -/
theorem vfsFopen_openFs {grants : Nat → Bool} {path : List UInt8} {root : PathRoot} {calls : Nat}
    {p : PathParser} (hparse : pathParserParseWith grants {} path = .ok (root, calls, p))
    (hdrive : ataGet root.drive = true) :
    ∃ s', vfsFopenWith grants openFs (Vfs.boot ()).1 path readMode = .ok (1, s') := by
  have hslot : ({ (Vfs.boot ()).1 with device := () } : Vfs Unit).createFd = some 0 := by
    decide +kernel
  unfold vfsFopenWith vfsFopenParsed
  simp only [hparse, Except.map, hdrive, if_true, openFs]
  rw [if_neg (by decide), if_neg (by decide), hslot]
  exact ⟨_, rfl⟩

/-- The parser and `vfs_fopen` accept exactly the grammar on the paths of the
    condition. -/
theorem acceptsGrammar_iff (grants : Nat → Bool) (path : CString) :
    AcceptsGrammar grants path.bytes ↔ GrammarFits grants path.bytes := by
  obtain ⟨hok, hfault⟩ := pathParserParseWith_state grants path.noNul
  unfold AcceptsGrammar GrammarFits
  rw [isPlain_iff path.noNul, meetsError_outside path.noNul]
  by_cases hgiven : NodesGiven grants ((pathEntries path.bytes).map Option.isSome) ∧
      ∀ name, some name ∈ pathEntries path.bytes → name.len ≤ nodeRoom
  · obtain ⟨root, calls, p, hparse, herror, hdrive⟩ := hok hgiven
    constructor
    · rintro ⟨⟨root', calls', p', hparse', hiff⟩, hopen⟩
      cases hparse.symm.trans hparse'
      rw [herror] at hiff
      refine ⟨hgiven.1, hgiven.2, ?_⟩
      -- a parse without an error is accepted; the other side needs the device, too
      by_cases hin : InGrammar path.bytes
      · exact .inl ⟨hin, hiff.mpr hin⟩
      · refine .inr ⟨?_, hin, ?_⟩
        · rw [← Bool.not_eq_true]
          intro hA
          obtain ⟨s', hopened⟩ := vfsFopen_openFs hparse (hdrive.trans hA)
          obtain ⟨res, s'', hres, hneg⟩ := hopen hin Unit openFs (Vfs.boot ()).1 readMode
          rw [hopened] at hres
          obtain ⟨rfl, -⟩ := Prod.mk.inj (Except.ok.inj hres)
          exact absurd hneg (by decide)
        · rw [← Bool.not_eq_false]
          exact fun h => hin (hiff.mp h)
    · rintro ⟨-, -, ⟨hin, hnone⟩ | ⟨hA, hout, hmeets⟩⟩
      · refine ⟨⟨root, calls, p, hparse, fun _ => hin, fun _ => ?_⟩, fun h => absurd hin h⟩
        rw [herror, hnone]
      · refine ⟨⟨root, calls, p, hparse, fun h => ?_, fun h => absurd h hout⟩, fun _ => ?_⟩
        · rw [herror, hmeets] at h
          cases h
        · exact vfsFopen_of_drive hparse (hdrive.trans hA)
  · -- a fault of the parser leaves nothing to accept
    obtain ⟨fault, hfault⟩ := hfault hgiven
    constructor
    · rintro ⟨⟨root, calls, p, hparse, -⟩, -⟩
      rw [hfault] at hparse
      cases hparse
    · rintro ⟨hnodes, hnames, -⟩
      exact absurd ⟨hnodes, hnames⟩ hgiven

/-- `"A:/X:"` is outside the grammar, and is parsed without an error, with every node
    granted. -/
theorem exists_outside_accepted :
    ¬ ∀ (grants : Nat → Bool) (path : CString), AcceptsGrammar grants path.bytes := by
  intro hall
  obtain ⟨⟨root, calls, p, hparse, hiff⟩, -⟩ := hall (fun _ => true) ⟨[65, 58, 47, 88, 58], by decide⟩
  have hnone : (pathParserParseWith (fun _ => true) {} [65, 58, 47, 88, 58]).toOption.map
      (fun r => r.2.2.hasError) = some false := by
    decide +kernel
  rw [hparse] at hnone
  obtain ⟨letter, rest, -, hrest, htext⟩ := inGrammar_iff.mp (hiff.mp (Option.some.inj hnone))
  obtain rfl := (List.cons.inj (List.cons.inj htext).2).2
  exact absurd (hrest.chars 58 (by decide)) (by decide)

end Icarius
