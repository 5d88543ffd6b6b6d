/-
  Icarius.Fs.PathRead

  The parser on lists of tokens.  `readPath` takes the tokens of a text in the order
  the functions of the parser take them, without the lexer, its pointers and the
  two-token window; `pathParserParse_eq` says that this is what the parser does.
-/

import Icarius.Fs.PathParser

namespace Icarius

open Icarius.Lib

/-! ## Reading tokens -/

/-- A NUL-terminated string, without its NUL. -/
structure CString where
  bytes : List UInt8
  noNul : 0 ∉ bytes

/-- The node of a directory name. -/
def dirNode (name : PathToken) : PathNode :=
  ⟨emptyNode.identifier.write 0 (name.bytes name.len)⟩

/-- The node of a file name: the name, and the token `prev` is when its extension is
    copied. -/
def fileNode (name ext : PathToken) : PathNode :=
  let namelen := if name.len < 8 then name.len else 8
  let extlen := if ext.len < 3 then ext.len else 3
  let identifier := (dirNode name).identifier.write 0 (name.bytes namelen)
  let identifier := identifier.write namelen [charDot]
  let identifier := identifier.write (namelen + 1) (ext.bytes (extlen + 1))
  ⟨identifier.write (namelen + 1 + extlen) [0]⟩

/-- Behind a name: a file name when there is a dot, with the error of a missing
    extension; otherwise a directory name. -/
def readName (name : PathToken) (ts : List PathToken) : PathNode × Bool × List PathToken :=
  match skipErr ts with
  | [] => (dirNode name, errAt ts, [])
  | dot :: ts₁ =>
      if dot.type = .ptDot then
        match skipErr ts₁ with
        | [] => (fileNode name dot, true, [])
        | ext :: ts₂ =>
            if ext.type = .ptIdentifier then
              (fileNode name ext, errAt ts || errAt ts₁ || errAt ts₂, skipErr ts₂)
            else (fileNode name dot, true, ext :: ts₂)
      else (dirNode name, errAt ts, dot :: ts₁)

/-- Behind a slash. -/
def readEntry : List PathToken → Except PathFault (PathNode × Bool × List PathToken)
  | [] => .ok (emptyNode, false, [])
  | name :: ts =>
      if name.type = .ptIdentifier then
        if nodeRoom < name.len then .error .overrun
        else .ok (readName name ts)
      else .ok (emptyNode, false, name :: ts)

/-- Entries, each behind its slash. -/
def readEntries : Nat → List PathToken → Except PathFault (List PathNode × Bool × List PathToken)
  | 0, ts => .ok ([], false, ts)
  | _ + 1, [] => .ok ([], false, [])
  | fuel + 1, slash :: ts =>
      if slash.type = .ptSlash then
        match readEntry (skipErr ts) with
        | .error fault => .error fault
        | .ok (node, error, ts₁) =>
            match readEntries fuel ts₁ with
            | .error fault => .error fault
            | .ok (nodes, error', ts₂) => .ok (node :: nodes, errAt ts || error || error', ts₂)
      else .ok ([], false, slash :: ts)

/-- The drive in front, with the colon behind its letter. -/
def readDrive : List PathToken → List UInt8 × Bool × List PathToken
  | [] => ([0, 0], false, [])
  | letter :: ts =>
      if letter.type = .ptLetter then (letter.bytes 1 ++ [0], errAt ts.tail, skipErr ts.tail)
      else ([0, 0], false, letter :: ts)

/-- A whole text: the nodes, and whether an error was met. -/
def readPath (text : List UInt8) : Except PathFault (PathRoot × Bool) :=
  let ts := pathTokens text
  let (drive, error, ts₁) := readDrive (skipErr ts)
  match readEntries (ts₁.length + 1) ts₁ with
  | .error fault => .error fault
  | .ok (nodes, error', _) =>
      match pathParserNameRoot nodes with
      | .error fault => .error fault
      | .ok nodes => .ok (⟨drive, nodes⟩, errAt ts || error || error')

/-! ## The entries -/

/-- A name: its length, and that of its extension when there is a dot -/
structure NameSize where
  len : Nat
  ext : Option Nat
  deriving DecidableEq

/-- The length of the extension behind a name, or of the dot when there is none behind it -/
def extSize (ts : List PathToken) : Option Nat :=
  match skipErr ts with
  | [] => none
  | dot :: ts =>
      if dot.type = .ptDot then
        match skipErr ts with
        | [] => some dot.len
        | ext :: _ => if ext.type = .ptIdentifier then some ext.len else some dot.len
      else none

/-- The entries, each behind its slash, and their names -/
def entrySizes : Nat → List PathToken → List (Option NameSize)
  | 0, _ => []
  | _ + 1, [] => []
  | fuel + 1, slash :: ts =>
      if slash.type = .ptSlash then
        match skipErr ts with
        | [] => [none]
        | name :: ts =>
            if name.type = .ptIdentifier then
              some ⟨name.len, extSize ts⟩ :: entrySizes fuel (readName name ts).2.2
            else none :: entrySizes fuel (name :: ts)
      else []

/-- The entries of a text -/
def pathEntries (path : List UInt8) : List (Option NameSize) :=
  let ts := (readDrive (skipErr (pathTokens path))).2.2
  entrySizes (ts.length + 1) ts

/-! ## Fuel -/

theorem length_readName_le (name : PathToken) (ts : List PathToken) :
    (readName name ts).2.2.length ≤ ts.length := by
  have hle := length_skipErr_le ts
  unfold readName
  cases hts : skipErr ts with
  | nil => exact Nat.zero_le _
  | cons dot ts₁ =>
      rw [hts, List.length_cons] at hle
      have hle₁ := length_skipErr_le ts₁
      by_cases hdot : dot.type = .ptDot
      · simp only [hdot, if_true]
        cases hts₁ : skipErr ts₁ with
        | nil => exact Nat.zero_le _
        | cons ext ts₂ =>
            rw [hts₁, List.length_cons] at hle₁
            have hle₂ := length_skipErr_le ts₂
            by_cases hext : ext.type = .ptIdentifier
            · simp only [hext, if_true]
              omega
            · simp only [hext, if_false, List.length_cons]
              omega
      · simp only [hdot, if_false, List.length_cons]
        omega

theorem length_readEntry_le {ts rest : List PathToken} {node : PathNode} {error : Bool}
    (h : readEntry ts = .ok (node, error, rest)) : rest.length ≤ ts.length := by
  cases ts with
  | nil =>
      obtain ⟨-, -, rfl⟩ : emptyNode = node ∧ false = error ∧ [] = rest := by
        simpa [readEntry] using h
      exact Nat.le_refl 0
  | cons name ts =>
      by_cases hname : name.type = .ptIdentifier
      · simp only [readEntry, hname, if_true] at h
        split at h
        · cases h
        · have hle := length_readName_le name ts
          rw [Except.ok.inj h] at hle
          exact Nat.le_succ_of_le hle
      · simp only [readEntry, hname, if_false, Except.ok.injEq, Prod.mk.injEq] at h
        rw [← h.2.2]

/-- More fuel than tokens changes nothing. -/
theorem readEntries_of_lt {fuel : Nat} {ts : List PathToken} (h : ts.length < fuel) :
    readEntries fuel ts = readEntries (ts.length + 1) ts := by
  induction fuel using Nat.strongRecOn generalizing ts with
  | ind fuel ih =>
      obtain ⟨f, rfl⟩ : ∃ f, fuel = f + 1 := ⟨fuel - 1, by omega⟩
      cases ts with
      | nil => rfl
      | cons slash ts =>
          rw [List.length_cons] at h ⊢
          rw [readEntries, readEntries]
          by_cases hslash : slash.type = .ptSlash
          · rw [if_pos hslash, if_pos hslash]
            cases hread : readEntry (skipErr ts) with
            | error fault => rfl
            | ok r =>
                obtain ⟨node, error, ts₁⟩ := r
                have hle := length_readEntry_le hread
                have hskip := length_skipErr_le ts
                simp only
                rw [ih f (by omega) (by omega), ih (ts.length + 1) (by omega) (by omega)]
          · rw [if_neg hslash, if_neg hslash]

/-- More rounds than there are tokens read the same. -/
theorem entrySizes_of_lt {fuel : Nat} {ts : List PathToken} (h : ts.length < fuel) :
    entrySizes fuel ts = entrySizes (ts.length + 1) ts := by
  induction fuel using Nat.strongRecOn generalizing ts with
  | ind fuel ih =>
      obtain ⟨f, rfl⟩ : ∃ f, fuel = f + 1 := ⟨fuel - 1, by omega⟩
      cases ts with
      | nil => rfl
      | cons slash ts =>
          rw [List.length_cons] at h ⊢
          rw [entrySizes, entrySizes]
          by_cases hslash : slash.type = .ptSlash
          · rw [if_pos hslash, if_pos hslash]
            have hlen := length_skipErr_le ts
            cases hts : skipErr ts with
            | nil => rfl
            | cons name rest =>
                rw [hts, List.length_cons] at hlen
                have hle := length_readName_le name rest
                simp only
                by_cases hname : name.type = .ptIdentifier
                · rw [if_pos hname, if_pos hname, ih f (by omega) (by omega),
                    ih (ts.length + 1) (by omega) (by omega)]
                · rw [if_neg hname, if_neg hname,
                    ih f (by omega) (by rw [List.length_cons]; omega),
                    ih (ts.length + 1) (by omega) (by rw [List.length_cons]; omega)]
          · rw [if_neg hslash, if_neg hslash]

/-! ## The nodes it needs -/

/-- The nodes the parser writes to are granted, behind the root, with the entries that have a
    name marked in `named`: a node for every name, one node at least, and behind it every
    node a slash is behind. -/
structure NodesGiven (grants : Nat → Bool) (named : List Bool) : Prop where
  root : grants 0 = true
  names : ∀ i, named[i]? = some true → grants (i + 1) = true
  head : ∃ i < named.length, grants (i + 1) = true
  links : ∀ i j, i < j → j + 1 < named.length → grants (i + 1) = true → grants (j + 1) = true

theorem nodesGiven_all {named : List Bool} :
    NodesGiven (fun _ => true) named ↔ named ≠ [] := by
  constructor
  · rintro h rfl
    obtain ⟨i, hi, -⟩ := h.head
    exact Nat.not_lt_zero i hi
  · exact fun h => ⟨rfl, fun _ _ => rfl, ⟨0, List.length_pos_iff.mpr h, rfl⟩, fun _ _ _ _ _ => rfl⟩

/-- No null node is written by the entries to come, behind `calls` calls of `kzalloc`. -/
def NodeList.Kept (grants : Nat → Bool) (calls : Nat) : NodeList → List Bool → Prop
  | .empty, named => (∀ i, named[i]? = some true → grants (calls + i) = true) ∧
      ∀ i j, i < j → j + 1 < named.length → grants (calls + i) = true → grants (calls + j) = true
  | .nodes, named => (∀ i, named[i]? = some true → grants (calls + i) = true) ∧
      ∀ j, j + 1 < named.length → grants (calls + j) = true
  | .lost, named => named = []

theorem NodeList.kept_nil (grants : Nat → Bool) (calls : Nat) (list : NodeList) :
    list.Kept grants calls [] := by
  have hnames : ∀ i, ([] : List Bool)[i]? = some true → grants (calls + i) = true :=
    fun i h => absurd h (by simp)
  cases list with
  | empty => exact ⟨hnames, fun _ j _ h => absurd h (Nat.not_lt_zero (j + 1))⟩
  | nodes => exact ⟨hnames, fun j h => absurd h (Nat.not_lt_zero (j + 1))⟩
  | lost => rfl

/-- The names of a list, the first and the others -/
theorem names_cons {grants : Nat → Bool} {calls : Nat} {b : Bool} {named : List Bool} :
    (∀ i, (b :: named)[i]? = some true → grants (calls + i) = true) ↔
      (b = true → grants calls = true) ∧
        ∀ i, named[i]? = some true → grants (calls + 1 + i) = true := by
  rw [← Nat.and_forall_add_one]
  simp only [List.getElem?_cons_zero, List.getElem?_cons_succ, Option.some.injEq, Nat.add_zero,
    Nat.add_assoc, Nat.add_comm 1]

/-- One entry of a list that is not lost. -/
theorem NodeList.kept_cons {grants : Nat → Bool} {calls : Nat} {list : NodeList} {b : Bool}
    {named : List Bool} (hlist : list ≠ .lost) : list.Kept grants calls (b :: named) ↔
      if grants calls = true then NodeList.nodes.Kept grants (calls + 1) named
      else b = false ∧ list.addNull.Kept grants (calls + 1) named := by
  cases list with
  | lost => exact absurd rfl hlist
  | empty =>
      simp only [Kept, names_cons, List.length_cons, NodeList.addNull]
      split
      · rename_i hgrant
        constructor
        · rintro ⟨⟨-, hnames⟩, hlinks⟩
          refine ⟨hnames, fun j hj => ?_⟩
          have hlink := hlinks 0 (j + 1) (Nat.succ_pos j) (by omega) hgrant
          rwa [Nat.add_assoc, Nat.add_comm 1]
        · rintro ⟨hnames, hlinks⟩
          refine ⟨⟨fun _ => hgrant, hnames⟩, fun i j hij hj _ => ?_⟩
          obtain ⟨k, rfl⟩ : ∃ k, j = k + 1 := ⟨j - 1, by omega⟩
          have hlink := hlinks k (by omega)
          rwa [Nat.add_assoc, Nat.add_comm 1] at hlink
      · rename_i hgrant
        constructor
        · rintro ⟨⟨hname, hnames⟩, hlinks⟩
          refine ⟨Bool.eq_false_iff.mpr fun hb => hgrant (hname hb), hnames,
            fun i j hij hj hi => ?_⟩
          have hlink := hlinks (i + 1) (j + 1) (by omega) (by omega)
          rw [Nat.add_assoc, Nat.add_comm 1] at hi ⊢
          exact hlink hi
        · rintro ⟨rfl, hnames, hlinks⟩
          refine ⟨⟨fun h => absurd h Bool.false_ne_true, hnames⟩, fun i j hij hj hi => ?_⟩
          obtain ⟨k, rfl⟩ : ∃ k, j = k + 1 := ⟨j - 1, by omega⟩
          cases i with
          | zero => exact absurd hi hgrant
          | succ i =>
              have hlink := hlinks i k (by omega) (by omega)
              rw [Nat.add_assoc, Nat.add_comm 1, Nat.add_assoc, Nat.add_comm 1] at hlink
              exact hlink hi
  | nodes =>
      simp only [Kept, names_cons, List.length_cons, NodeList.addNull]
      split
      · rename_i hgrant
        constructor
        · rintro ⟨⟨-, hnames⟩, hlinks⟩
          refine ⟨hnames, fun j hj => ?_⟩
          have hlink := hlinks (j + 1) (by omega)
          rwa [Nat.add_assoc, Nat.add_comm 1]
        · rintro ⟨hnames, hlinks⟩
          refine ⟨⟨fun _ => hgrant, hnames⟩, fun j hj => ?_⟩
          cases j with
          | zero => exact hgrant
          | succ k =>
              have hlink := hlinks k (by omega)
              rwa [Nat.add_assoc, Nat.add_comm 1] at hlink
      · rename_i hgrant
        constructor
        · rintro ⟨⟨hname, -⟩, hlinks⟩
          refine ⟨Bool.eq_false_iff.mpr fun hb => hgrant (hname hb), ?_⟩
          -- a second slash would be behind the null node
          refine List.length_eq_zero_iff.mp ((Nat.eq_zero_or_pos _).resolve_right fun hpos => ?_)
          exact hgrant (hlinks 0 (by omega))
        · rintro ⟨rfl, rfl⟩
          refine ⟨⟨fun h => absurd h Bool.false_ne_true, fun i h => absurd h (by simp)⟩,
            fun j hj => ?_⟩
          exact absurd (Nat.lt_of_succ_lt_succ hj) (Nat.not_lt_zero j)

theorem nodesGiven_iff {grants : Nat → Bool} {named : List Bool} : NodesGiven grants named ↔
    grants 0 = true ∧ NodeList.empty.Kept grants 1 named ∧
      ∃ i < named.length, grants (1 + i) = true := by
  simp only [NodeList.Kept, Nat.add_comm 1]
  exact ⟨fun h => ⟨h.root, ⟨h.names, h.links⟩, h.head⟩,
    fun h => ⟨h.1, h.2.1.1, h.2.2, h.2.1.2⟩⟩

/-! ## The parser reads them -/

/-- The parser `p` has met an error more than `p₀` when `error` holds, and goes on
    with `ts`. -/
def Reads (p₀ : PathParser) (error : Bool) (ts : List PathToken) (p : PathParser)
    (l : PathLexer) : Prop :=
  Reading p l ts ∧ p.hasError = (p₀.hasError || error)

/-- Eating the token in front. -/
theorem Reading.eat_pos {p : PathParser} {l : PathLexer} {t : PathToken} {ts : List PathToken}
    {expected : PathType} (h : Reading p l (t :: ts)) (ht : t.type = expected) :
    ∃ p' l', pathParserEat p l expected = (p', l') ∧ Advanced p ts p' l' := by
  obtain ⟨p', l', hmatch, hadv⟩ := h.match_pos ht
  refine ⟨p', l', ?_, hadv⟩
  unfold pathParserMatch at hmatch
  unfold pathParserEat
  split at hmatch
  · rename_i hcheck
    rw [if_pos hcheck]
    exact (Prod.mk.inj hmatch).2
  · cases hmatch

/-- Nothing to eat: an error, and the parser stays. -/
theorem Reading.eat_neg {p : PathParser} {l : PathLexer} {ts : List PathToken}
    (h : Reading p l ts) (expected : PathType) (hend : expected ≠ .ptEnd)
    (hne : ∀ t rest, ts = t :: rest → t.type ≠ expected) :
    ∃ p', pathParserEat p l expected = (p', l) ∧ p'.prev = p.prev ∧ Reads p true ts p' l := by
  have hcheck := h.match_neg expected hend hne
  refine ⟨pathParserReportError p, ?_, rfl, ⟨h.nul, h.noErr, h.curr⟩, ?_⟩
  · rw [pathParserEat, if_neg (by rw [hcheck]; exact Bool.false_ne_true)]
  · exact (Bool.or_true _).symm

/-- Behind a name the parser reads what `readName` does. -/
theorem readName_spec {p : PathParser} {l : PathLexer} {name : PathToken} {ts : List PathToken}
    {p₀ : PathParser} (h : Advanced p₀ ts p l) (hname : p.prev = name) :
    ∃ p' l', (if pathParserCheck p .ptDot
          then pathParserParseFilename p l (dirNode name) else (dirNode name, p, l))
        = ((readName name ts).1, p', l') ∧
      Reads p₀ (readName name ts).2.1 (readName name ts).2.2 p' l' := by
  have hreading := h.reading
  unfold readName
  cases hts : skipErr ts with
  | nil =>
      rw [hts] at hreading
      have hcheck := hreading.match_neg .ptDot (by decide) (fun t rest heq => by cases heq)
      rw [if_neg (by rw [hcheck]; exact Bool.false_ne_true)]
      exact ⟨p, l, rfl, hreading, h.hasError⟩
  | cons dot ts₁ =>
      rw [hts] at hreading
      by_cases hdot : dot.type = .ptDot
      · -- a dot: the parser eats it and asks for the extension
        have hcheck : pathParserCheck p .ptDot = true := by
          rw [pathParserCheck, hreading.check_cons.1, hdot, beq_self_eq_true]
        obtain ⟨p₁, l₁, heat₁, hadv₁⟩ := hreading.eat_pos hdot
        have hprev₁ : p₁.prev = dot := hadv₁.prev.trans hreading.check_cons.1
        have hreading₁ := hadv₁.reading
        have herr₁ := hadv₁.hasError
        rw [h.hasError] at herr₁
        -- whatever the second call of `eat` finds becomes the extension
        have hfile : ∀ {p₂ : PathParser} {l₂ : PathLexer} {ext : PathToken},
            pathParserEat p₁ l₁ .ptIdentifier = (p₂, l₂) → p₂.prev = ext →
              pathParserParseFilename p l (dirNode name) = (fileNode name ext, p₂, l₂) := by
          rintro p₂ l₂ ext heat₂ rfl
          unfold pathParserParseFilename
          rw [heat₁]
          simp only
          rw [heat₂, hname]
          rfl
        rw [if_pos hcheck]
        simp only [hdot, if_true]
        cases hts₁ : skipErr ts₁ with
        | nil =>
            rw [hts₁] at hreading₁
            obtain ⟨p₂, heat₂, hprev₂, hreads₂, herr₂⟩ := hreading₁.eat_neg
              .ptIdentifier (by decide) fun t rest heq => by cases heq
            refine ⟨p₂, l₁, hfile heat₂ (hprev₂.trans hprev₁), hreads₂, ?_⟩
            rw [herr₂, Bool.or_true, Bool.or_true]
        | cons ext ts₂ =>
            rw [hts₁] at hreading₁
            by_cases hext : ext.type = .ptIdentifier
            · obtain ⟨p₂, l₂, heat₂, hadv₂⟩ := hreading₁.eat_pos hext
              simp only [hext, if_true]
              refine ⟨p₂, l₂, hfile heat₂ (hadv₂.prev.trans hreading₁.check_cons.1),
                hadv₂.reading, ?_⟩
              rw [hadv₂.hasError, herr₁]
              simp only [Bool.or_assoc]
            · -- another token is an error, and the dot itself becomes the extension
              obtain ⟨p₂, heat₂, hprev₂, hreads₂, herr₂⟩ := hreading₁.eat_neg
                .ptIdentifier (by decide) fun t rest heq => by
                  obtain ⟨rfl, -⟩ := List.cons.inj heq
                  exact hext
              simp only [hext, if_false]
              refine ⟨p₂, l₁, hfile heat₂ (hprev₂.trans hprev₁), hreads₂, ?_⟩
              rw [herr₂, Bool.or_true, Bool.or_true]
      · -- no dot: the name is one of a directory, and nothing is taken
        have hcheck := hreading.match_neg .ptDot (by decide) fun t rest heq => by
          obtain ⟨rfl, -⟩ := List.cons.inj heq
          exact hdot
        rw [if_neg (by rw [hcheck]; exact Bool.false_ne_true)]
        simp only [hdot, if_false]
        exact ⟨p, l, rfl, hreading, h.hasError⟩

/-- Behind a slash. -/
theorem readEntry_spec {p p₀ : PathParser} {l : PathLexer} {ts : List PathToken}
    (h : Advanced p₀ ts p l) :
    match readEntry (skipErr ts) with
    | .error fault => pathParserParseEntry p l emptyNode = .error fault
    | .ok (node, error, rest) => ∃ p' l',
        pathParserParseEntry p l emptyNode = .ok (node, p', l') ∧
          Reads p₀ (errAt ts || error) rest p' l' := by
  have hreading := h.reading
  -- without a name nothing is read and the node stays empty
  have hmiss : (∀ t rest, skipErr ts = t :: rest → t.type ≠ .ptIdentifier) →
      ∃ p' l', pathParserParseEntry p l emptyNode = .ok (emptyNode, p', l') ∧
        Reads p₀ (errAt ts || false) (skipErr ts) p' l' := by
    intro hne
    have hcheck := hreading.match_neg .ptIdentifier (by decide) hne
    refine ⟨p, l, ?_, hreading, ?_⟩
    · unfold pathParserParseEntry pathParserMatch
      rw [if_neg (by rw [hcheck]; exact Bool.false_ne_true)]
    · rw [h.hasError, Bool.or_false]
  cases hts : skipErr ts with
  | nil =>
      rw [hts] at hmiss
      exact hmiss fun t rest heq => by cases heq
  | cons name ts₁ =>
      rw [hts] at hmiss hreading
      by_cases hname : name.type = .ptIdentifier
      · obtain ⟨p₁, l₁, hmatch, hadv⟩ := hreading.match_pos hname
        have hprev : p₁.prev = name := hadv.prev.trans hreading.check_cons.1
        simp only [readEntry, hname, if_true]
        -- the copy into the node is checked before the dot is looked for
        by_cases hroom : nodeRoom < name.len
        · simp only [hroom, if_true]
          unfold pathParserParseEntry
          rw [hmatch]
          simp only [pathParserParseDir, hprev, hroom, if_true]
        · simp only [hroom, if_false]
          obtain ⟨p', l', hparse, hreads, herr⟩ := readName_spec hadv hprev
          refine ⟨p', l', ?_, hreads, ?_⟩
          · unfold pathParserParseEntry
            rw [hmatch]
            simp only [pathParserParseDir, hprev, hroom, if_false]
            rw [← hparse]
            exact (apply_ite Except.ok _ _ _).symm
          · rw [herr, h.hasError, Bool.or_assoc]
      · simp only [readEntry, hname, if_false]
        exact hmiss fun t rest heq => by
          obtain ⟨rfl, -⟩ := List.cons.inj heq
          exact hname

/-- There is a name in front. -/
def nameAt : List PathToken → Bool
  | [] => false
  | t :: _ => t.type == .ptIdentifier

/-- Behind a slash, with a null node: a name ends the parse, and nothing else is read. -/
theorem readEntry_null {p p₀ : PathParser} {l : PathLexer} {ts : List PathToken}
    (h : Advanced p₀ ts p l) : pathParserParseEntryNull p l
      = if nameAt (skipErr ts) = true then .error .nullNode else .ok (p, l) := by
  have hreading := h.reading
  have hmiss : (∀ t rest, skipErr ts = t :: rest → t.type ≠ .ptIdentifier) →
      pathParserParseEntryNull p l = .ok (p, l) := by
    intro hne
    have hcheck := hreading.match_neg .ptIdentifier (by decide) hne
    unfold pathParserParseEntryNull pathParserMatch
    rw [if_neg (by rw [hcheck]; exact Bool.false_ne_true)]
  cases hts : skipErr ts with
  | nil =>
      rw [hts] at hmiss
      exact hmiss fun t rest heq => by cases heq
  | cons name ts₁ =>
      rw [hts] at hmiss hreading
      by_cases hname : name.type = .ptIdentifier
      · obtain ⟨p₁, l₁, hmatch, -⟩ := hreading.match_pos hname
        rw [nameAt, if_pos (beq_iff_eq.mpr hname)]
        unfold pathParserParseEntryNull
        rw [hmatch]
      · rw [nameAt, if_neg (fun h => hname (beq_iff_eq.mp h))]
        exact hmiss fun t rest heq => by
          obtain ⟨rfl, -⟩ := List.cons.inj heq
          exact hname

/-- Only a name does not fit. -/
theorem nameAt_of_fault {ts : List PathToken} {fault : PathFault}
    (h : readEntry ts = .error fault) : nameAt ts = true := by
  cases ts with
  | nil => cases h
  | cons name ts =>
      by_cases hname : name.type = .ptIdentifier
      · exact beq_iff_eq.mpr hname
      · simp only [readEntry, hname, if_false] at h
        cases h

/-- Without a name nothing is read. -/
theorem readEntry_of_nameAt {ts : List PathToken} (h : nameAt ts = false) :
    readEntry ts = .ok (emptyNode, false, ts) := by
  cases ts with
  | nil => rfl
  | cons name ts => rw [readEntry, if_neg (beq_eq_false_iff_ne.mp h)]

/-- An entry that is read is the first of the entries. -/
theorem entrySizes_cons (fuel : Nat) {slash : PathToken} {ts rest : List PathToken}
    {node : PathNode} {error : Bool} (hslash : slash.type = .ptSlash)
    (h : readEntry (skipErr ts) = .ok (node, error, rest)) :
    ∃ size, entrySizes (fuel + 1) (slash :: ts) = size :: entrySizes fuel rest ∧
      size.isSome = nameAt (skipErr ts) ∧ ∀ name, some name = size → name.len ≤ nodeRoom := by
  simp only [entrySizes, hslash, if_true]
  cases hts : skipErr ts with
  | nil =>
      rw [hts] at h
      obtain ⟨-, -, rfl⟩ : emptyNode = node ∧ false = error ∧ [] = rest := by
        simpa [readEntry] using h
      refine ⟨none, ?_, rfl, fun name h => by cases h⟩
      cases fuel <;> rfl
  | cons name ts₁ =>
      rw [hts] at h
      by_cases hname : name.type = .ptIdentifier
      · simp only [readEntry, hname, if_true] at h ⊢
        split at h
        · cases h
        · rename_i hroom
          refine ⟨_, by rw [Except.ok.inj h], ?_, fun n hn => ?_⟩
          · exact (beq_iff_eq.mpr hname).symm
          · rw [Option.some.inj hn]
            exact Nat.le_of_not_lt hroom
      · simp only [readEntry, hname, if_false, Except.ok.injEq, Prod.mk.injEq] at h ⊢
        obtain ⟨-, -, rfl⟩ := h
        refine ⟨none, rfl, ?_, fun n hn => by cases hn⟩
        exact (beq_eq_false_iff_ne.mpr hname).symm

theorem slash_or (ts : List PathToken) :
    (∃ slash rest, ts = slash :: rest ∧ slash.type = .ptSlash) ∨
      ∀ t rest, ts = t :: rest → t.type ≠ .ptSlash := by
  cases ts with
  | nil => exact .inr fun t rest heq => by cases heq
  | cons slash ts =>
      by_cases hslash : slash.type = .ptSlash
      · exact .inl ⟨slash, ts, rfl, hslash⟩
      · exact .inr fun t rest heq => by
          obtain ⟨rfl, -⟩ := List.cons.inj heq
          exact hslash

section Stop

variable {ts : List PathToken} (hne : ∀ t rest, ts = t :: rest → t.type ≠ .ptSlash)
include hne

theorem readEntries_stop (fuel : Nat) : readEntries fuel ts = .ok ([], false, ts) := by
  cases fuel with
  | zero => rfl
  | succ fuel =>
      cases ts with
      | nil => rfl
      | cons t ts => rw [readEntries, if_neg (hne t ts rfl)]

theorem entrySizes_stop (fuel : Nat) : entrySizes fuel ts = [] := by
  cases fuel with
  | zero => rfl
  | succ fuel =>
      cases ts with
      | nil => rfl
      | cons t ts => rw [entrySizes, if_neg (hne t ts rfl)]

theorem Reading.entries_stop {p : PathParser} {l : PathLexer} (h : Reading p l ts)
    (grants : Nat → Bool) (fuel calls : Nat) (list : NodeList) :
    pathParserParseEntriesLoop grants fuel calls list p l = .ok ([], calls, p, l) := by
  cases fuel with
  | zero => rfl
  | succ fuel =>
      have hcheck := h.match_neg .ptSlash (by decide) hne
      unfold pathParserParseEntriesLoop pathParserMatch
      rw [if_neg (by rw [hcheck]; exact Bool.false_ne_true)]

end Stop

/-- Entries that are read are one entry and the others. -/
theorem readEntries_slash {fuel : Nat} {slash : PathToken} {ts rest : List PathToken}
    {nodes : List PathNode} {error : Bool} (hslash : slash.type = .ptSlash)
    (h : readEntries (fuel + 1) (slash :: ts) = .ok (nodes, error, rest)) :
    ∃ node e ts₁ nodes₁ e₁, readEntry (skipErr ts) = .ok (node, e, ts₁) ∧
      readEntries fuel ts₁ = .ok (nodes₁, e₁, rest) ∧ nodes = node :: nodes₁ ∧
      error = (errAt ts || e || e₁) := by
  rw [readEntries, if_pos hslash] at h
  cases hentry : readEntry (skipErr ts) with
  | error fault =>
      rw [hentry] at h
      cases h
  | ok r =>
      obtain ⟨node, e, ts₁⟩ := r
      rw [hentry] at h
      simp only at h
      cases hrest : readEntries fuel ts₁ with
      | error fault =>
          rw [hrest] at h
          cases h
      | ok r' =>
          obtain ⟨nodes₁, e₁, rest₁⟩ := r'
          rw [hrest] at h
          cases h
          exact ⟨node, e, ts₁, nodes₁, e₁, rfl, hrest, rfl, rfl⟩

theorem readEntries_length {fuel : Nat} {ts rest : List PathToken} {nodes : List PathNode}
    {error : Bool} (h : readEntries fuel ts = .ok (nodes, error, rest)) :
    nodes.length = (entrySizes fuel ts).length := by
  induction fuel generalizing ts nodes error with
  | zero =>
      cases h
      rfl
  | succ fuel ih =>
      rcases slash_or ts with ⟨slash, ts, rfl, hslash⟩ | hne
      · obtain ⟨node, e, ts₁, nodes₁, e₁, hentry, hrest, rfl, -⟩ := readEntries_slash hslash h
        obtain ⟨size, hsizes, -⟩ := entrySizes_cons fuel hslash hentry
        rw [hsizes, List.length_cons, List.length_cons, ih hrest]
      · rw [readEntries_stop hne] at h
        cases h
        rw [entrySizes_stop hne]
        rfl

/-- Exactly the names that fit the chunks of their nodes are read. -/
theorem readEntries_ok_iff (fuel : Nat) (ts : List PathToken) :
    (∃ r, readEntries fuel ts = .ok r) ↔
      ∀ name, some name ∈ entrySizes fuel ts → name.len ≤ nodeRoom := by
  induction fuel generalizing ts with
  | zero => exact iff_of_true ⟨_, rfl⟩ fun name hname => by cases hname
  | succ fuel ih =>
      rcases slash_or ts with ⟨slash, ts, rfl, hslash⟩ | hne
      · cases hentry : readEntry (skipErr ts) with
        | error fault =>
            have hread : readEntries (fuel + 1) (slash :: ts) = .error fault := by
              rw [readEntries, if_pos hslash, hentry]
            have hname := nameAt_of_fault hentry
            refine iff_of_false (fun h => ?_) fun h => ?_
            · rw [hread] at h
              cases h.choose_spec
            · -- the name in front is the one that does not fit
              cases hts : skipErr ts with
              | nil =>
                  rw [hts] at hname
                  cases hname
              | cons name rest =>
                  rw [hts] at hentry hname
                  have htype : name.type = .ptIdentifier := eq_of_beq hname
                  simp only [readEntry, htype, if_true] at hentry
                  split at hentry
                  · rename_i hroom
                    have hle := h ⟨name.len, extSize rest⟩
                    simp only [entrySizes, hslash, if_true, hts, htype, List.mem_cons,
                      true_or, forall_const] at hle
                    exact absurd hroom (Nat.not_lt_of_le hle)
                  · cases hentry
        | ok r =>
            obtain ⟨node, e, ts₁⟩ := r
            obtain ⟨size, hsizes, -, hroom⟩ := entrySizes_cons fuel hslash hentry
            have hread : readEntries (fuel + 1) (slash :: ts)
                = (readEntries fuel ts₁).map fun r => (node :: r.1, errAt ts || e || r.2.1, r.2.2) := by
              rw [readEntries, if_pos hslash, hentry]
              simp only
              cases readEntries fuel ts₁ <;> rfl
            have hsome : (∃ r, readEntries (fuel + 1) (slash :: ts) = .ok r) ↔
                ∃ r, readEntries fuel ts₁ = .ok r := by
              rw [hread]
              cases readEntries fuel ts₁ with
              | error fault => exact Iff.rfl
              | ok r => exact iff_of_true ⟨_, rfl⟩ ⟨r, rfl⟩
            rw [hsome, ih, hsizes]
            constructor
            · intro h name hname
              rcases List.mem_cons.mp hname with hname | hname
              · exact hroom name hname
              · exact h name hname
            · exact fun h name hname => h name (List.mem_cons_of_mem _ hname)
      · rw [readEntries_stop hne, entrySizes_stop hne]
        exact iff_of_true ⟨_, rfl⟩ fun name hname => by cases hname

/-- No call of `n + 1` is granted: not the first, and none of the others. -/
theorem forall_lt_cons {grants : Nat → Bool} {calls n : Nat} :
    (∀ i < n + 1, grants (calls + i) = false) ↔
      grants calls = false ∧ ∀ i < n, grants (calls + 1 + i) = false := by
  constructor
  · intro h
    refine ⟨h 0 (Nat.succ_pos n), fun i hi => ?_⟩
    rw [Nat.add_assoc, Nat.add_comm 1]
    exact h (i + 1) (Nat.succ_lt_succ hi)
  · rintro ⟨hzero, hsucc⟩ i hi
    cases i with
    | zero => exact hzero
    | succ i =>
        have hrest := hsucc i (Nat.lt_of_succ_lt_succ hi)
        rwa [Nat.add_assoc, Nat.add_comm 1] at hrest

section Rounds

variable {grants : Nat → Bool} {calls : Nat} {list : NodeList} {p : PathParser} {l : PathLexer}

/-- A round whose node is granted -/
theorem Reading.entries_granted {slash : PathToken} {ts : List PathToken}
    (h : Reading p l (slash :: ts)) (hslash : slash.type = .ptSlash) (hlist : list ≠ .lost)
    (hgrant : grants calls = true) (fuel : Nat) :
    match readEntry (skipErr ts) with
    | .error fault =>
        pathParserParseEntriesLoop grants (fuel + 1) calls list p l = .error fault
    | .ok (node, error, rest) => ∃ p' l',
        pathParserParseEntriesLoop grants (fuel + 1) calls list p l
          = (pathParserParseEntriesLoop grants fuel (calls + 1) .nodes p' l').map
              (fun r => (node :: r.1, r.2)) ∧
        Reads p (errAt ts || error) rest p' l' := by
  obtain ⟨p₁, l₁, hmatch, hadv⟩ := h.match_pos hslash
  have hentry := readEntry_spec hadv
  cases hread : readEntry (skipErr ts) with
  | error fault =>
      rw [hread] at hentry
      rw [pathParserParseEntriesLoop, hmatch]
      simp only [hlist, hgrant, if_true, if_false,
        show pathParserParseEntry p₁ l₁ emptyNode = .error fault from hentry]
  | ok r =>
      obtain ⟨node, error, rest⟩ := r
      rw [hread] at hentry
      obtain ⟨p₂, l₂, hparse, hreads⟩ := hentry
      refine ⟨p₂, l₂, ?_, hreads⟩
      rw [pathParserParseEntriesLoop, hmatch]
      simp only [hlist, hgrant, if_true, if_false, hparse]
      split <;> simp_all [Except.map]

/-- A round whose node is refused -/
theorem Reading.entries_refused {slash : PathToken} {ts : List PathToken}
    (h : Reading p l (slash :: ts)) (hslash : slash.type = .ptSlash) (hlist : list ≠ .lost)
    (hgrant : grants calls = false) (fuel : Nat) :
    if nameAt (skipErr ts) = true then
      pathParserParseEntriesLoop grants (fuel + 1) calls list p l = .error .nullNode
    else ∃ p' l',
      pathParserParseEntriesLoop grants (fuel + 1) calls list p l
        = pathParserParseEntriesLoop grants fuel (calls + 1) list.addNull p' l' ∧
      Reads p (errAt ts) (skipErr ts) p' l' := by
  obtain ⟨p₁, l₁, hmatch, hadv⟩ := h.match_pos hslash
  have hnull := readEntry_null hadv
  split
  · rename_i hname
    rw [if_pos hname] at hnull
    rw [pathParserParseEntriesLoop, hmatch]
    simp only [hlist, hgrant, Bool.false_eq_true, if_false, hnull]
  · rename_i hname
    rw [if_neg hname] at hnull
    refine ⟨p₁, l₁, ?_, hadv.reading, hadv.hasError⟩
    rw [pathParserParseEntriesLoop, hmatch]
    simp only [hlist, hgrant, Bool.false_eq_true, if_false, hnull]

/-- A slash behind a null node -/
theorem Reading.entries_lost {slash : PathToken} {ts : List PathToken}
    (h : Reading p l (slash :: ts)) (hslash : slash.type = .ptSlash) (fuel : Nat) :
    pathParserParseEntriesLoop grants (fuel + 1) calls .lost p l = .error .nullNode := by
  obtain ⟨p₁, l₁, hmatch, -⟩ := h.match_pos hslash
  rw [pathParserParseEntriesLoop, hmatch]
  simp only [if_true]

/-- A name that does not fit ends the loop, or a null node does before it. -/
theorem Reading.entries_fault (grants : Nat → Bool) (calls : Nat) (list : NodeList)
    {fuel : Nat} {ts : List PathToken} {fault : PathFault}
    (h : Reading p l ts) (hread : readEntries fuel ts = .error fault) :
    ∃ fault', pathParserParseEntriesLoop grants fuel calls list p l = .error fault' ∧
      ((∀ i, grants i = true) → list ≠ .lost → fault' = fault) := by
  -- over the rounds; each one takes a slash and an entry
  induction fuel generalizing calls list p l ts with
  | zero => cases hread
  | succ fuel ih =>
      rcases slash_or ts with ⟨slash, ts, rfl, hslash⟩ | hne
      · by_cases hlist : list = .lost
        · rw [hlist, h.entries_lost hslash]
          exact ⟨_, rfl, fun _ h => absurd rfl h⟩
        · rw [readEntries, if_pos hslash] at hread
          cases hgrant : grants calls with
          | true =>
              have hround := h.entries_granted hslash hlist hgrant fuel
              cases hentry : readEntry (skipErr ts) with
              | error fault' =>
                  rw [hentry] at hread hround
                  cases hread
                  exact ⟨_, hround, fun _ _ => rfl⟩
              | ok r =>
                  obtain ⟨node, error, rest⟩ := r
                  rw [hentry] at hread hround
                  obtain ⟨p', l', hround, hreading, -⟩ := hround
                  have hrest : readEntries fuel rest = .error fault := by
                    simp only at hread
                    split at hread
                    · cases hread
                      assumption
                    · cases hread
                  obtain ⟨fault', hloop, hfault⟩ := ih (calls + 1) .nodes
                    hreading hrest
                  rw [hround, hloop]
                  exact ⟨fault', rfl, fun hall _ => hfault hall (by decide)⟩
          | false =>
              have hround := h.entries_refused hslash hlist hgrant fuel
              have hnone : (∀ i, grants i = true) → False := fun hall => by
                rw [hall] at hgrant
                cases hgrant
              cases hname : nameAt (skipErr ts) with
              | true =>
                  rw [if_pos hname] at hround
                  exact ⟨_, hround, fun hall => absurd hall hnone⟩
              | false =>
                  rw [if_neg (by rw [hname]; exact Bool.false_ne_true)] at hround
                  obtain ⟨p', l', hround, hreading, -⟩ := hround
                  rw [readEntry_of_nameAt hname] at hread
                  have hrest : readEntries fuel (skipErr ts) = .error fault := by
                    simp only at hread
                    split at hread
                    · cases hread
                      assumption
                    · cases hread
                  obtain ⟨fault', hloop, -⟩ :=
                    ih (calls + 1) list.addNull hreading hrest
                  exact ⟨fault', hround.trans hloop, fun hall => absurd hall hnone⟩
      · rw [readEntries_stop hne] at hread
        cases hread

/-- Without a write to a null node the loop comes to its end, with the nodes granted. -/
theorem Reading.entries_kept (grants : Nat → Bool) (calls : Nat) (list : NodeList)
    {fuel : Nat} {ts rest : List PathToken} {nodes : List PathNode}
    {error : Bool} (h : Reading p l ts) (hread : readEntries fuel ts = .ok (nodes, error, rest))
    (hkept : list.Kept grants calls ((entrySizes fuel ts).map Option.isSome)) :
    ∃ nodes' p' l', pathParserParseEntriesLoop grants fuel calls list p l
        = .ok (nodes', calls + nodes.length, p', l') ∧
      Reads p error rest p' l' ∧
      (nodes' = [] ↔ ∀ i < nodes.length, grants (calls + i) = false) ∧
      ((∀ i, grants i = true) → nodes' = nodes) := by
  -- over the rounds; each one takes a slash and an entry
  induction fuel generalizing calls list p l ts nodes error with
  | zero =>
      cases hread
      exact ⟨[], p, l, rfl, ⟨h, (Bool.or_false _).symm⟩,
        iff_of_true rfl fun i hi => absurd hi (Nat.not_lt_zero i), fun _ => rfl⟩
  | succ fuel ih =>
      rcases slash_or ts with ⟨slash, ts, rfl, hslash⟩ | hne
      · obtain ⟨node, e, ts₁, nodes₁, e₁, hentry, hrest, rfl, rfl⟩ :=
          readEntries_slash hslash hread
        obtain ⟨size, hsizes, hsome, -⟩ := entrySizes_cons fuel hslash hentry
        rw [hsizes, List.map_cons] at hkept
        have hlist : list ≠ .lost := by
          rintro rfl
          cases hkept
        rw [NodeList.kept_cons hlist] at hkept
        have hcalls : calls + 1 + nodes₁.length = calls + (node :: nodes₁).length := by
          rw [List.length_cons, Nat.add_assoc, Nat.add_comm 1]
        cases hgrant : grants calls with
        | true =>
            rw [if_pos hgrant] at hkept
            have hround := h.entries_granted hslash hlist hgrant fuel
            rw [hentry] at hround
            obtain ⟨p₁, l₁, hround, hreading, herr⟩ := hround
            obtain ⟨nodes', p', l', hloop, hreads, -, hall⟩ := ih _ _ hreading hrest hkept
            rw [hround, hloop, ← hcalls]
            refine ⟨node :: nodes', p', l', rfl, ⟨hreads.1, ?_⟩, ?_, fun h => ?_⟩
            · rw [hreads.2, herr, Bool.or_assoc]
            · refine iff_of_false (List.cons_ne_nil _ _) fun hnone => ?_
              have hfirst := (forall_lt_cons.mp hnone).1
              rw [hgrant] at hfirst
              cases hfirst
            · rw [hall h]
        | false =>
            rw [if_neg (by rw [hgrant]; exact Bool.false_ne_true), hsome] at hkept
            have hround := h.entries_refused hslash hlist hgrant fuel
            rw [if_neg (by rw [hkept.1]; exact Bool.false_ne_true)] at hround
            rw [readEntry_of_nameAt hkept.1] at hentry
            cases hentry
            obtain ⟨p₁, l₁, hround, hreading, herr⟩ := hround
            obtain ⟨nodes', p', l', hloop, hreads, hnone, -⟩ := ih _ _ hreading hrest hkept.2
            rw [hround, hloop, ← hcalls]
            refine ⟨nodes', p', l', rfl, ⟨hreads.1, ?_⟩, ?_, fun h => ?_⟩
            · rw [hreads.2, herr, Bool.or_false, Bool.or_assoc]
            · rw [hnone, List.length_cons, forall_lt_cons, and_iff_right hgrant]
            · rw [h] at hgrant
              cases hgrant
      · rw [readEntries_stop hne] at hread
        cases hread
        exact ⟨[], p, l, h.entries_stop hne grants _ calls list, ⟨h, (Bool.or_false _).symm⟩,
          iff_of_true rfl fun i hi => absurd hi (Nat.not_lt_zero i), fun _ => rfl⟩

/-- Otherwise it ends in a fault. -/
theorem Reading.entries_null (grants : Nat → Bool) (calls : Nat) (list : NodeList)
    {fuel : Nat} {ts rest : List PathToken} {nodes : List PathNode}
    {error : Bool} (h : Reading p l ts) (hread : readEntries fuel ts = .ok (nodes, error, rest))
    (hkept : ¬ list.Kept grants calls ((entrySizes fuel ts).map Option.isSome)) :
    pathParserParseEntriesLoop grants fuel calls list p l = .error .nullNode := by
  induction fuel generalizing calls list p l ts nodes error with
  | zero => exact absurd (list.kept_nil grants calls) hkept
  | succ fuel ih =>
      rcases slash_or ts with ⟨slash, ts, rfl, hslash⟩ | hne
      · obtain ⟨node, e, ts₁, nodes₁, e₁, hentry, hrest, rfl, -⟩ := readEntries_slash hslash hread
        obtain ⟨size, hsizes, hsome, -⟩ := entrySizes_cons fuel hslash hentry
        by_cases hlist : list = .lost
        · rw [hlist, h.entries_lost hslash]
        · rw [hsizes, List.map_cons, NodeList.kept_cons hlist] at hkept
          cases hgrant : grants calls with
          | true =>
              rw [if_pos hgrant] at hkept
              have hround := h.entries_granted hslash hlist hgrant fuel
              rw [hentry] at hround
              obtain ⟨p₁, l₁, hround, hreading, -⟩ := hround
              rw [hround, ih _ _ hreading hrest hkept]
              rfl
          | false =>
              rw [if_neg (by rw [hgrant]; exact Bool.false_ne_true), hsome] at hkept
              have hround := h.entries_refused hslash hlist hgrant fuel
              cases hname : nameAt (skipErr ts) with
              | true =>
                  rw [if_pos hname] at hround
                  exact hround
              | false =>
                  rw [if_neg (by rw [hname]; exact Bool.false_ne_true)] at hround
                  rw [readEntry_of_nameAt hname] at hentry
                  cases hentry
                  obtain ⟨p₁, l₁, hround, hreading, -⟩ := hround
                  rw [hround, ih _ _ hreading hrest fun hrest => hkept ⟨hname, hrest⟩]
      · rw [entrySizes_stop hne] at hkept
        exact absurd (list.kept_nil grants calls) hkept

end Rounds

/-! ## The drive -/

/-- The tokens behind error tokens are those of a text. -/
theorem exists_skipErr_pathTokens {text : List UInt8} (hnul : 0 ∉ text) :
    ∃ text', 0 ∉ text' ∧ skipErr (pathTokens text) = pathTokens text' := by
  obtain ⟨n, hn⟩ : ∃ n, text.length ≤ n := ⟨_, Nat.le_refl _⟩
  induction n generalizing text with
  | zero =>
      rw [List.length_eq_zero_iff.mp (Nat.le_zero.mp hn)]
      exact ⟨[], List.not_mem_nil, rfl⟩
  | succ n ih =>
      cases text with
      | nil => exact ⟨[], List.not_mem_nil, rfl⟩
      | cons c cs =>
          obtain ⟨type, w, rest, hlex, hsplit, hne, -⟩ := lex_cons (s := []) hnul
          have hlen : (c :: cs).length = w.length + rest.length := by
            rw [hsplit, List.length_append]
          have hpos : 0 < w.length := List.length_pos_iff.mpr hne
          have hrest : 0 ∉ rest := fun h => hnul (hsplit ▸ List.mem_append_right w h)
          have htokens := pathTokens_cons hnul hlex
          by_cases herr : type = .ptErr
          · obtain ⟨text', hnul', hskip⟩ := ih hrest (by omega)
            refine ⟨text', hnul', ?_⟩
            rw [htokens, skipErr, List.dropWhile_cons_of_pos (by rw [herr]; rfl)]
            exact hskip
          · refine ⟨c :: cs, hnul, skipErr_of_errAt ?_⟩
            rw [htokens]
            simpa [errAt] using herr

/-- A drive letter is a letter, and its colon is the next token. -/
theorem letter_colon {text : List UInt8} (hnul : 0 ∉ text) {letter : PathToken}
    {ts : List PathToken} (h : skipErr (pathTokens text) = letter :: ts)
    (hletter : letter.type = .ptLetter) :
    ∃ c colon ts', isalpha c ∧ letter.bytes 1 = [c] ∧ ts = colon :: ts' ∧ colon.type = .ptColon := by
  obtain ⟨text', hnul', htext'⟩ := exists_skipErr_pathTokens hnul
  rw [htext'] at h
  cases text' with
  | nil => cases h
  | cons c cs =>
      obtain ⟨type, w, rest, hlex, hsplit, hne, -, hcolon, -⟩ := lex_cons (s := []) hnul'
      rw [pathTokens_cons hnul' hlex] at h
      obtain ⟨rfl, rfl⟩ := List.cons.inj h
      obtain ⟨halpha, -, tail, rfl⟩ := hcolon hletter
      have hrest : 0 ∉ charColon :: tail := fun h => hnul' (hsplit ▸ List.mem_append_right w h)
      refine ⟨c, ⟨.ptColon, charColon :: tail, 1⟩, pathTokens tail, halpha, rfl, ?_, rfl⟩
      exact pathTokens_cons (s := []) hrest (lex_char (by decide) (by decide))

theorem length_le_of_reading {p : PathParser} {l : PathLexer} {ts : List PathToken}
    (h : Reading p l ts) : ts.length ≤ l.curr.length + 1 := by
  rcases h.curr with ⟨rfl, -⟩ | ⟨-, rfl⟩
  · exact Nat.zero_le _
  · have hle := length_pathTokens_le h.nul
    rw [List.length_cons]
    omega

/-- The parser at the drive. -/
theorem readDrive_spec {p₀ p : PathParser} {l : PathLexer} {text : List UInt8} (hnul : 0 ∉ text)
    (h : Advanced p₀ (pathTokens text) p l) :
    ∃ p' l', pathParserParseDrive p l = ((readDrive (skipErr (pathTokens text))).1, p', l') ∧
      Reads p₀ (errAt (pathTokens text) || (readDrive (skipErr (pathTokens text))).2.1)
        (readDrive (skipErr (pathTokens text))).2.2 p' l' := by
  have hreading := h.reading
  have hmiss : (∀ t rest, skipErr (pathTokens text) = t :: rest → t.type ≠ .ptLetter) →
      ∃ p' l', pathParserParseDrive p l = ([0, 0], p', l') ∧
        Reads p₀ (errAt (pathTokens text) || false) (skipErr (pathTokens text)) p' l' := by
    intro hne
    have hcheck := hreading.match_neg .ptLetter (by decide) hne
    refine ⟨p, l, ?_, hreading, ?_⟩
    · unfold pathParserParseDrive pathParserMatch
      rw [if_neg (by rw [hcheck]; exact Bool.false_ne_true)]
    · rw [h.hasError, Bool.or_false]
  cases hts : skipErr (pathTokens text) with
  | nil =>
      rw [hts] at hmiss
      exact hmiss fun t rest heq => by cases heq
  | cons letter ts =>
      by_cases hletter : letter.type = .ptLetter
      · obtain ⟨c, colon, ts', -, -, rfl, hcolon⟩ := letter_colon hnul hts hletter
        rw [hts] at hreading
        obtain ⟨p₁, l₁, hmatch, hadv⟩ := hreading.match_pos hletter
        have hprev : p₁.prev = letter := hadv.prev.trans hreading.check_cons.1
        have hnone : errAt (colon :: ts') = false := by
          rw [errAt, hcolon]
          rfl
        have hreading₁ := hadv.reading
        rw [skipErr_of_errAt hnone] at hreading₁
        obtain ⟨p₂, l₂, heat, hadv₂⟩ := hreading₁.eat_pos hcolon
        simp only [readDrive, hletter, if_true, List.tail_cons]
        refine ⟨p₂, l₂, ?_, hadv₂.reading, ?_⟩
        · unfold pathParserParseDrive
          rw [hmatch]
          simp only [hprev, heat]
        · rw [hadv₂.hasError, hadv.hasError, h.hasError, hnone, Bool.or_false, Bool.or_assoc]
      · rw [hts] at hmiss
        simp only [readDrive, hletter, if_false]
        exact hmiss fun t rest heq => by
          obtain ⟨rfl, -⟩ := List.cons.inj heq
          exact hletter

/-- The nodes of a path are those that were read, but for the name of a single one. -/
theorem exists_nameRoot {nodes : List PathNode} (h : nodes ≠ []) :
    ∃ nodes', pathParserNameRoot nodes = .ok nodes' ∧ nodes'.length = nodes.length := by
  cases nodes with
  | nil => exact absurd rfl h
  | cons node nodes =>
      cases nodes with
      | nil =>
          rw [pathParserNameRoot]
          split
          · exact ⟨_, rfl, rfl⟩
          · exact ⟨_, rfl, rfl⟩
      | cons n ns => exact ⟨_, rfl, rfl⟩

/-- A path that is read has an entry. -/
theorem pathEntries_ne_nil {text : List UInt8} {root : PathRoot} {error : Bool}
    (h : readPath text = .ok (root, error)) : pathEntries text ≠ [] := by
  intro hnil
  unfold readPath at h
  simp only at h
  split at h
  · cases h
  · rename_i nodes error' rest hread
    have hlength := readEntries_length hread
    have hsizes : (entrySizes _ (readDrive (skipErr (pathTokens text))).2.2).length = 0 :=
      List.length_eq_zero_iff.mpr hnil
    rw [hsizes] at hlength
    rw [List.length_eq_zero_iff.mp hlength] at h
    cases h

section Path

variable {grants : Nat → Bool} {text drive : List UInt8} {p : PathParser} {l : PathLexer}
  (hroot : grants 0 = true)
  (hdrive : pathParserParseDrive (pathParserAdvance {} (.init text)).1
    (pathParserAdvance {} (.init text)).2 = (drive, p, l))
include hroot hdrive

/-- A fault among the entries -/
theorem parseWith_of_entries_fault {fault : PathFault}
    (hloop : pathParserParseEntriesLoop grants (l.curr.length + 2) 1 .empty p l = .error fault) :
    pathParserParseWith grants {} text = .error fault := by
  unfold pathParserParseWith pathParserParsePath pathParserParseEntries
  simp only [hroot, if_true, hdrive, hloop]

/-- The entries, and no node among them -/
theorem parseWith_of_no_entries {calls : Nat} {p' : PathParser} {l' : PathLexer}
    (hloop : pathParserParseEntriesLoop grants (l.curr.length + 2) 1 .empty p l
      = .ok ([], calls, p', l')) : pathParserParseWith grants {} text = .error .nullPath := by
  unfold pathParserParseWith pathParserParsePath pathParserParseEntries
  simp only [hroot, if_true, hdrive, hloop, pathParserNameRoot]

/-- The entries, of which a single one without a name is the root -/
theorem parseWith_of_entries {calls : Nat} {nodes nodes' : List PathNode} {p' : PathParser}
    {l' : PathLexer} (hname : pathParserNameRoot nodes = .ok nodes')
    (hloop : pathParserParseEntriesLoop grants (l.curr.length + 2) 1 .empty p l
      = .ok (nodes, calls, p', l')) :
    pathParserParseWith grants {} text = .ok (⟨drive, nodes'⟩, calls, p') := by
  unfold pathParserParseWith pathParserParsePath pathParserParseEntries
  simp only [hroot, if_true, hdrive, hloop, hname]

end Path

section Entries

variable {grants : Nat → Bool} {text drive : List UInt8} {p : PathParser} {l : PathLexer}
  {ts rest : List PathToken} {nodes : List PathNode} {error : Bool}
  (hroot : grants 0 = true)
  (hdrive : pathParserParseDrive (pathParserAdvance {} (.init text)).1
    (pathParserAdvance {} (.init text)).2 = (drive, p, l))
  (hreading : Reading p l ts)
  (hread : readEntries (l.curr.length + 2) ts = .ok (nodes, error, rest))
include hroot hdrive hreading hread

/-- Without an entry the name of the first node is read through a null pointer. -/
theorem parseWith_of_nil (hnil : nodes = []) :
    pathParserParseWith grants {} text = .error .nullPath := by
  subst hnil
  have hkept := hreading.entries_kept grants 1 .empty hread
  rw [List.length_eq_zero_iff.mp (readEntries_length hread).symm] at hkept
  obtain ⟨nodes', p', l', hloop, -, hnone, -⟩ := hkept (NodeList.kept_nil _ _ _)
  rw [hnone.mpr fun i hi => absurd hi (Nat.not_lt_zero i)] at hloop
  exact parseWith_of_no_entries hroot hdrive hloop

/-- With the nodes it needs the parser returns, and with every node granted the nodes are those
    that are read. -/
theorem parseWith_of_given {nodes₁ : List PathNode} (hname : pathParserNameRoot nodes = .ok nodes₁)
    (hgiven : NodesGiven grants ((entrySizes (l.curr.length + 2) ts).map Option.isSome)) :
    ∃ root' p', pathParserParseWith grants {} text = .ok (root', 1 + nodes.length, p') ∧
      root'.drive = drive ∧ p'.hasError = (p.hasError || error) ∧
      ((∀ i, grants i = true) → root' = ⟨drive, nodes₁⟩) := by
  rw [nodesGiven_iff, List.length_map, ← readEntries_length hread] at hgiven
  obtain ⟨-, hk, i, hi, hgrant⟩ := hgiven
  obtain ⟨nodes', p', l', hloop, hreads, hnone, hall⟩ :=
    hreading.entries_kept grants 1 .empty hread hk
  have hsome : nodes' ≠ [] := fun h => by
    rw [hnone.mp h i hi] at hgrant
    cases hgrant
  obtain ⟨nodes₂, hname', -⟩ := exists_nameRoot hsome
  refine ⟨_, p', parseWith_of_entries hroot hdrive hname' hloop, rfl, hreads.2, fun h => ?_⟩
  rw [hall h, hname] at hname'
  rw [Except.ok.inj hname']

/-- Without them it ends in a fault. -/
theorem parseWith_of_refused
    (hgiven : ¬ NodesGiven grants ((entrySizes (l.curr.length + 2) ts).map Option.isSome)) :
    ∃ fault, pathParserParseWith grants {} text = .error fault := by
  rw [nodesGiven_iff, List.length_map, ← readEntries_length hread] at hgiven
  by_cases hk : NodeList.empty.Kept grants 1 ((entrySizes (l.curr.length + 2) ts).map Option.isSome)
  · -- no node at all is granted
    obtain ⟨nodes', p', l', hloop, -, hnone, -⟩ :=
      hreading.entries_kept grants 1 .empty hread hk
    have hempty : nodes' = [] := hnone.mpr fun i hi => Bool.eq_false_iff.mpr
      fun hgrant => hgiven ⟨hroot, hk, i, hi, hgrant⟩
    rw [hempty] at hloop
    exact ⟨_, parseWith_of_no_entries hroot hdrive hloop⟩
  · exact ⟨_, parseWith_of_entries_fault hroot hdrive
      (hreading.entries_null grants 1 .empty hread hk)⟩

end Entries

/-- The parser does what `readPath` says, when it is granted the nodes it writes to. -/
theorem pathParserParseWith_eq (grants : Nat → Bool) {text : List UInt8} (hnul : 0 ∉ text) :
    match readPath text with
    | .error fault => ∃ fault', pathParserParseWith grants {} text = .error fault' ∧
        ((∀ i, grants i = true) → fault' = fault)
    | .ok (root, error) =>
        (NodesGiven grants ((pathEntries text).map Option.isSome) →
          ∃ root' p, pathParserParseWith grants {} text
              = .ok (root', 1 + (pathEntries text).length, p) ∧
            root'.drive = root.drive ∧ p.hasError = error ∧
            ((∀ i, grants i = true) → root' = root)) ∧
        (¬ NodesGiven grants ((pathEntries text).map Option.isSome) →
          ∃ fault, pathParserParseWith grants {} text = .error fault) := by
  have hadv := pathParserAdvance_spec {} (l := .init text) hnul
  obtain ⟨p₁, l₁, hdrive, hreading, herr⟩ := readDrive_spec hnul hadv
  have hlen := length_le_of_reading hreading
  have hentriesEq : pathEntries text
      = entrySizes (l₁.curr.length + 2) (readDrive (skipErr (pathTokens text))).2.2 := by
    rw [entrySizes_of_lt (by omega)]
    rfl
  have hlt : (readDrive (skipErr (pathTokens text))).2.2.length < l₁.curr.length + 2 := by omega
  have hfuel := readEntries_of_lt hlt
  rw [hentriesEq]
  unfold readPath
  simp only
  rw [← hfuel]
  cases hroot : grants 0 with
  | false =>
      -- the root is written at once
      have hfault : pathParserParseWith grants {} text = .error .nullNode := by
        unfold pathParserParseWith pathParserParsePath
        simp only [hroot, Bool.false_eq_true, if_false]
      have hnone : (∀ i, grants i = true) → False := fun h => by
        rw [h] at hroot
        cases hroot
      rw [hfault]
      split
      · exact ⟨_, rfl, fun h => absurd h hnone⟩
      · refine ⟨fun h => ?_, fun _ => ⟨_, rfl⟩⟩
        have hgrant := h.root
        rw [hroot] at hgrant
        cases hgrant
  | true =>
      cases hread : readEntries (l₁.curr.length + 2)
          (readDrive (skipErr (pathTokens text))).2.2 with
      | error fault =>
          obtain ⟨fault', hloop, hfault⟩ := hreading.entries_fault grants 1 .empty hread
          exact ⟨fault', parseWith_of_entries_fault hroot hdrive hloop,
            fun h => hfault h (by decide)⟩
      | ok r =>
          obtain ⟨nodes, error', rest⟩ := r
          by_cases hnil : nodes = []
          · rw [parseWith_of_nil hroot hdrive hreading hread hnil, hnil]
            exact ⟨_, rfl, fun _ => rfl⟩
          · obtain ⟨nodes₁, hname, -⟩ := exists_nameRoot hnil
            simp only [hname]
            refine ⟨fun hgiven => ?_, parseWith_of_refused hroot hdrive hreading hread⟩
            obtain ⟨root', p', hparse, hdrive', herror, hall⟩ :=
              parseWith_of_given hroot hdrive hreading hread hname hgiven
            rw [← readEntries_length hread]
            exact ⟨root', p', hparse, hdrive', by rw [herror, herr, Bool.false_or], hall⟩

/-- The parser does what `readPath` says. -/
theorem pathParserParse_eq {text : List UInt8} (hnul : 0 ∉ text) :
    match readPath text with
    | .error fault => pathParserParse {} text = .error fault
    | .ok (root, error) => ∃ p, pathParserParse {} text = .ok (root, p) ∧ p.hasError = error := by
  have hparse := pathParserParseWith_eq (fun _ => true) hnul
  unfold pathParserParse
  cases hread : readPath text with
  | error fault =>
      rw [hread] at hparse
      obtain ⟨fault', hparse, hfault⟩ := hparse
      simp only [hparse, hfault fun _ => rfl]
  | ok r =>
      obtain ⟨root, error⟩ := r
      rw [hread] at hparse
      obtain ⟨hgiven, hnone⟩ := hparse
      have hentries : (pathEntries text).map Option.isSome ≠ [] :=
        fun h => pathEntries_ne_nil hread (List.map_eq_nil_iff.mp h)
      obtain ⟨root', p, hparse, -, herr, hroot⟩ := hgiven (nodesGiven_all.mpr hentries)
      simp only [hparse, hroot fun _ => rfl]
      exact ⟨p, rfl, herr⟩

end Icarius
