/-
  Icarius.Fs.PathMemory

  What the path parser writes to the nodes of a path.  `identifier` has room for the eleven
  characters of an 8.3 name without its dot; the parser copies a name as long as it is, puts
  a dot and a NUL behind it, and does not look whether there is a node at all: `kzalloc` may
  have refused it.

  The functions here are those of the parser once more, with the writes to `identifier` in
  place of its characters.  `pathSafe_iff` says which texts the parser is safe on.
-/

import Icarius.Fs.PathRead

namespace Icarius

/-! ## The writes of the parser -/

/-- `sizeof(identifier)` -/
def identifierSize : Nat := 11

/-- A use of a node: some bytes of `identifier` written, from an offset on, or the null
    pointer taken for a node -/
inductive NodeUse where
  | write (offset len : Nat)
  | null
  deriving DecidableEq

/-- The use stays in the identifier of a node. -/
def NodeUse.InBounds : NodeUse → Prop
  | .write offset len => offset + len ≤ identifierSize
  | .null => False

/-- `_path_parser_parse_dir` -/
def pathParserDirUses (self : PathParser) : List NodeUse := [.write 0 self.prev.len]

/-- `_path_parser_parse_filename` -/
def pathParserFilenameUses (self : PathParser) (lexer : PathLexer) :
    List NodeUse × PathParser × PathLexer :=
  let namelen := if self.prev.len < 8 then self.prev.len else 8
  let name := [.write 0 namelen]
  let bytes := namelen
  let (self, lexer) := pathParserEat self lexer .ptDot
  let (self, lexer) := pathParserEat self lexer .ptIdentifier
  let extlen := if self.prev.len < 3 then self.prev.len else 3
  let dot := [.write bytes 1]
  let bytes := bytes + 1
  let ext := [.write bytes (extlen + 1)]
  let bytes := bytes + extlen
  (name ++ dot ++ ext ++ [.write bytes 1], self, lexer)

/-- `_path_parser_parse_entry` -/
def pathParserEntryUses (self : PathParser) (lexer : PathLexer) :
    List NodeUse × PathParser × PathLexer :=
  match pathParserMatch self lexer .ptIdentifier with
  | (true, self, lexer) =>
      let dir := pathParserDirUses self
      if pathParserCheck self .ptDot then
        let (file, self, lexer) := pathParserFilenameUses self lexer
        (dir ++ file, self, lexer)
      else (dir, self, lexer)
  | (false, self, lexer) => ([], self, lexer)

/-- `prev`, behind a node that is granted or refused -/
def NodeList.add (granted : Bool) (list : NodeList) : NodeList :=
  if granted then .nodes else list.addNull

/-- The loop of `_path_parser_parse_entries`, behind `calls` calls of `kzalloc`: for each node
    whether it is granted, and its uses with that of `prev`; `none` when it has not ended after
    the rounds it is given. -/
def pathParserEntriesUses (grants : Nat → Bool) :
    Nat → Nat → NodeList → PathParser → PathLexer → Option (List (Bool × List NodeUse))
  | 0, _, _, _, _ => none
  | fuel + 1, calls, list, self, lexer =>
      match pathParserMatch self lexer .ptSlash with
      | (true, self, lexer) =>
          let link := if list = .lost then [.null] else []
          let (node, self, lexer) := pathParserEntryUses self lexer
          let node := if grants calls then node else node.map fun _ => .null
          (pathParserEntriesUses grants fuel (calls + 1) (list.add (grants calls)) self lexer).map
            ((grants calls, link ++ node) :: ·)
      | (false, _, _) => some []

/-- The end of `_path_parser_parse_path`: the first node is looked at.  The name of a single
    node is empty when nothing has been written to it. -/
def pathParserRootUses (nodes : List (Bool × List NodeUse)) : List NodeUse :=
  match nodes.filter Prod.fst with
  | [] => [.null]
  | [(_, [])] => [.write 0 11]
  | _ => []

/-- `path_parser_parse` with an allocator that grants the calls of `grants` -/
def pathParserUses (grants : Nat → Bool) (path : List UInt8) : Option (List NodeUse) :=
  let (self, lexer) := pathParserAdvance {} (.init path)
  let root := if grants 0 then [] else [.null]
  let (_, self, lexer) := pathParserParseDrive self lexer
  (pathParserEntriesUses grants (lexer.curr.length + 2) 1 .empty self lexer).map fun nodes =>
    root ++ nodes.flatMap Prod.snd ++ pathParserRootUses nodes

/-- The loops of the parser end: the one over the entries in the rounds it is given, and at
    any place in the text the one over error tokens, for which more rounds change nothing. -/
def PathEnds (grants : Nat → Bool) (path : CString) : Prop :=
  (pathParserUses grants path.bytes).isSome = true ∧
    ∀ (self : PathParser) (lexer : PathLexer) (fuel : Nat), lexer.curr <:+ path.bytes →
      lexer.curr.length < fuel → pathParserAdvanceLoop fuel self lexer
        = pathParserAdvanceLoop (lexer.curr.length + 1) self lexer

/-- Every use of a node is in bounds, and the parser comes to its end. -/
def PathSafe (grants : Nat → Bool) (path : CString) : Prop :=
  ∃ uses, pathParserUses grants path.bytes = some uses ∧ ∀ use ∈ uses, use.InBounds

/-! ## The names it reads -/

/-- A name of eleven letters at most; a file name has nine at most, when eight of the name
    and three of the extension are counted. -/
def NameSize.Fits (name : NameSize) : Prop :=
  name.len ≤ 11 ∧ ∀ ext ∈ name.ext, min name.len 8 + min ext 3 ≤ 9

/-! ## The parser reads them -/

/-- The writes of a name -/
def NameSize.uses (name : NameSize) : List NodeUse :=
  .write 0 name.len ::
    match name.ext with
    | none => []
    | some ext =>
        [.write 0 (min name.len 8), .write (min name.len 8) 1,
          .write (min name.len 8 + 1) (min ext 3 + 1), .write (min name.len 8 + 1 + min ext 3) 1]

theorem NameSize.fits_iff (name : NameSize) : name.Fits ↔ ∀ use ∈ name.uses, use.InBounds := by
  obtain ⟨len, ext⟩ := name
  cases ext with
  | none => simp [Fits, uses, NodeUse.InBounds, identifierSize]
  | some ext =>
      simp only [Fits, uses, Option.mem_def, Option.some.injEq, forall_eq', List.mem_cons,
        List.not_mem_nil, or_false, forall_eq_or_imp, forall_eq, NodeUse.InBounds, identifierSize]
      omega

theorem ite_lt_eq_min (a b : Nat) : (if a < b then a else b) = min a b := by
  split <;> omega

theorem filenameUses_eq {p p₁ p₂ : PathParser} {l l₁ l₂ : PathLexer}
    (heat₁ : pathParserEat p l .ptDot = (p₁, l₁))
    (heat₂ : pathParserEat p₁ l₁ .ptIdentifier = (p₂, l₂)) :
    (pathParserDirUses p ++ (pathParserFilenameUses p l).1, (pathParserFilenameUses p l).2)
      = (NameSize.uses ⟨p.prev.len, some p₂.prev.len⟩, p₂, l₂) := by
  unfold pathParserFilenameUses
  rw [heat₁]
  simp only
  rw [heat₂]
  simp only [ite_lt_eq_min]
  rfl

/-- The writes for a name, and where the parser is behind it -/
theorem nameUses_spec {p : PathParser} {l : PathLexer} {ts : List PathToken}
    {p₀ : PathParser} (h : Advanced p₀ ts p l) :
    ∃ p' l', (if pathParserCheck p .ptDot then
          (pathParserDirUses p ++ (pathParserFilenameUses p l).1, (pathParserFilenameUses p l).2)
        else (pathParserDirUses p, p, l))
        = (NameSize.uses ⟨p.prev.len, extSize ts⟩, p', l') ∧
      Reading p' l' (readName p.prev ts).2.2 := by
  have hreading := h.reading
  unfold readName extSize
  cases hts : skipErr ts with
  | nil =>
      rw [hts] at hreading
      have hcheck := hreading.match_neg .ptDot (by decide) (fun t rest heq => by cases heq)
      rw [if_neg (by rw [hcheck]; exact Bool.false_ne_true)]
      exact ⟨p, l, rfl, hreading⟩
  | cons dot ts₁ =>
      rw [hts] at hreading
      by_cases hdot : dot.type = .ptDot
      · have hcheck : pathParserCheck p .ptDot = true := by
          rw [pathParserCheck, hreading.check_cons.1, hdot, beq_self_eq_true]
        obtain ⟨p₁, l₁, heat₁, hadv₁⟩ := hreading.eat_pos hdot
        have hprev₁ : p₁.prev = dot := hadv₁.prev.trans hreading.check_cons.1
        have hreading₁ := hadv₁.reading
        rw [if_pos hcheck]
        simp only [hdot, if_true]
        cases hts₁ : skipErr ts₁ with
        | nil =>
            rw [hts₁] at hreading₁
            obtain ⟨p₂, heat₂, hprev₂, hreads₂, -⟩ := hreading₁.eat_neg
              .ptIdentifier (by decide) fun t rest heq => by cases heq
            refine ⟨p₂, l₁, ?_, hreads₂⟩
            rw [filenameUses_eq heat₁ heat₂, hprev₂, hprev₁]
        | cons ext ts₂ =>
            rw [hts₁] at hreading₁
            by_cases hext : ext.type = .ptIdentifier
            · obtain ⟨p₂, l₂, heat₂, hadv₂⟩ := hreading₁.eat_pos hext
              simp only [hext, if_true]
              refine ⟨p₂, l₂, ?_, hadv₂.reading⟩
              rw [filenameUses_eq heat₁ heat₂, hadv₂.prev, hreading₁.check_cons.1]
            · obtain ⟨p₂, heat₂, hprev₂, hreads₂, -⟩ := hreading₁.eat_neg
                .ptIdentifier (by decide) fun t rest heq => by
                  obtain ⟨rfl, -⟩ := List.cons.inj heq
                  exact hext
              simp only [hext, if_false]
              refine ⟨p₂, l₁, ?_, hreads₂⟩
              rw [filenameUses_eq heat₁ heat₂, hprev₂, hprev₁]
      · have hcheck := hreading.match_neg .ptDot (by decide) fun t rest heq => by
          obtain ⟨rfl, -⟩ := List.cons.inj heq
          exact hdot
        rw [if_neg (by rw [hcheck]; exact Bool.false_ne_true)]
        simp only [hdot, if_false]
        exact ⟨p, l, rfl, hreading⟩

/-- The writes of an entry without a name -/
theorem entryUses_none {p p₀ : PathParser} {l : PathLexer} {ts : List PathToken}
    (h : Advanced p₀ ts p l)
    (hne : ∀ t rest, skipErr ts = t :: rest → t.type ≠ .ptIdentifier) :
    pathParserEntryUses p l = ([], p, l) := by
  have hcheck := h.reading.match_neg .ptIdentifier (by decide) hne
  unfold pathParserEntryUses pathParserMatch
  rw [if_neg (by rw [hcheck]; exact Bool.false_ne_true)]

/-- The writes of an entry with a name -/
theorem entryUses_some {p p₀ : PathParser} {l : PathLexer} {ts rest : List PathToken}
    {name : PathToken} (h : Advanced p₀ ts p l) (hts : skipErr ts = name :: rest)
    (hname : name.type = .ptIdentifier) :
    ∃ p' l', pathParserEntryUses p l
        = (NameSize.uses ⟨name.len, extSize rest⟩, p', l') ∧
      Reading p' l' (readName name rest).2.2 := by
  have hreading := h.reading
  rw [hts] at hreading
  obtain ⟨p₁, l₁, hmatch, hadv⟩ := hreading.match_pos hname
  have hprev : p₁.prev = name := hadv.prev.trans hreading.check_cons.1
  obtain ⟨p', l', huses, hbehind⟩ := nameUses_spec hadv
  rw [hprev] at huses hbehind
  refine ⟨p', l', ?_, hbehind⟩
  rw [← huses]
  unfold pathParserEntryUses
  rw [hmatch]

/-- The uses of nodes by entries, from their names -/
def entryUses (grants : Nat → Bool) :
    Nat → NodeList → List (Option NameSize) → List (Bool × List NodeUse)
  | _, _, [] => []
  | calls, list, name :: names =>
      let link := if list = .lost then [.null] else []
      let node := (name.map NameSize.uses).getD []
      let node := if grants calls then node else node.map fun _ => .null
      (grants calls, link ++ node) :: entryUses grants (calls + 1) (list.add (grants calls)) names

/-- The loop over the entries ends, and writes their names. -/
theorem entriesUses_spec (grants : Nat → Bool) {fuel calls : Nat} {list : NodeList}
    {p : PathParser} {l : PathLexer} {ts : List PathToken} (h : Reading p l ts)
    (hfuel : ts.length < fuel) : pathParserEntriesUses grants fuel calls list p l
      = some (entryUses grants calls list (entrySizes fuel ts)) := by
  induction fuel generalizing calls list p l ts with
  | zero => omega
  | succ fuel ih =>
      rcases slash_or ts with ⟨slash, ts, rfl, hslash⟩ | hne
      · obtain ⟨p₁, l₁, hmatch, hadv⟩ := h.match_pos hslash
        have hlen := length_skipErr_le ts
        rw [List.length_cons] at hfuel
        simp only [pathParserEntriesUses, hmatch, entrySizes, hslash, if_true]
        cases hts : skipErr ts with
        | nil =>
            have hreading := hadv.reading
            rw [hts] at hreading hlen
            rw [entryUses_none hadv fun t rest heq => by rw [hts] at heq; cases heq]
            simp only [ih hreading (by omega)]
            cases fuel <;> rfl
        | cons name rest =>
            rw [hts, List.length_cons] at hlen
            by_cases hname : name.type = .ptIdentifier
            · obtain ⟨p₂, l₂, hentry, hbehind⟩ := entryUses_some hadv hts hname
              have hle := length_readName_le name rest
              simp only [hentry, hname, if_true, ih hbehind (by omega)]
              rfl
            · have hreading := hadv.reading
              rw [hts] at hreading
              rw [entryUses_none hadv fun t rest' heq => by
                rw [hts] at heq
                obtain ⟨rfl, -⟩ := List.cons.inj heq
                exact hname]
              simp only [hname, if_false, ih hreading (by rw [List.length_cons]; omega)]
              rfl
      · have hcheck := h.match_neg .ptSlash (by decide) hne
        rw [entrySizes_stop hne]
        unfold pathParserEntriesUses pathParserMatch
        rw [if_neg (by rw [hcheck]; exact Bool.false_ne_true)]
        rfl

/-- The uses of the nodes, from the entries of the text -/
theorem pathParserUses_eq (grants : Nat → Bool) (path : CString) :
    pathParserUses grants path.bytes
      = some ((if grants 0 then [] else [.null]) ++
          (entryUses grants 1 .empty (pathEntries path.bytes)).flatMap Prod.snd ++
          pathParserRootUses (entryUses grants 1 .empty (pathEntries path.bytes))) := by
  have hadv := pathParserAdvance_spec {} (l := .init path.bytes) path.noNul
  obtain ⟨p₁, l₁, hdrive, hreading, -⟩ := readDrive_spec path.noNul hadv
  have hlen := length_le_of_reading hreading
  unfold pathParserUses pathEntries
  simp only [hdrive]
  rw [entriesUses_spec grants hreading (by omega), entrySizes_of_lt (by omega)]
  rfl

theorem advanceLoop_of_lt {fuel : Nat} (p : PathParser) {l : PathLexer} (hnul : 0 ∉ l.curr)
    (h : l.curr.length < fuel) :
    pathParserAdvanceLoop fuel p l = pathParserAdvanceLoop (l.curr.length + 1) p l := by
  induction fuel using Nat.strongRecOn generalizing p l with
  | ind fuel ih =>
      obtain ⟨f, rfl⟩ : ∃ f, fuel = f + 1 := ⟨fuel - 1, by omega⟩
      obtain ⟨start, curr⟩ := l
      cases curr with
      | nil => rfl
      | cons c cs =>
          obtain ⟨type, w, rest, hlex, hsplit, hne, -⟩ := lex_cons (s := start) hnul
          have hrest : 0 ∉ rest := fun h => hnul (hsplit ▸ List.mem_append_right w h)
          have hlen : (c :: cs).length = w.length + rest.length := by
            rw [hsplit, List.length_append]
          have hpos : 0 < w.length := List.length_pos_iff.mpr hne
          simp only at h
          simp only [pathParserAdvanceLoop, hlex]
          split
          · rfl
          · -- the error token is skipped
            rw [ih f (by omega) _ hrest (by simp only; omega),
              ih (c :: cs).length (by omega) _ hrest (by simp only; omega)]

/-! ## Exactly when it is safe -/

theorem NameSize.uses_ne_nil (name : NameSize) : name.uses ≠ [] := List.cons_ne_nil _ _

/-- The uses of nodes by entries are in bounds when no null node is written, and the names fit
    the identifiers. -/
theorem entryUses_inBounds {grants : Nat → Bool} {calls : Nat} {list : NodeList}
    {names : List (Option NameSize)} :
    (∀ node ∈ entryUses grants calls list names, ∀ use ∈ node.2, use.InBounds) ↔
      list.Kept grants calls (names.map Option.isSome) ∧
        ∀ name, some name ∈ names → name.Fits := by
  induction names generalizing calls list with
  | nil =>
      refine iff_of_true (fun node hnode => by cases hnode) ⟨list.kept_nil grants calls, ?_⟩
      exact fun name hname => by cases hname
  | cons name names ih =>
      simp only [entryUses, List.forall_mem_cons, ih]
      by_cases hlist : list = .lost
      · -- a slash behind a null node
        rw [if_pos hlist]
        refine iff_of_false (fun h => h.1 .null (List.mem_append_left _ List.mem_cons_self)) ?_
        rintro ⟨hkept, -⟩
        rw [hlist] at hkept
        cases hkept
      · rw [if_neg hlist, List.map_cons, NodeList.kept_cons hlist, List.nil_append]
        cases hgrant : grants calls with
        | true =>
            simp only [if_true, NodeList.add]
            cases name with
            | none => simp
            | some name => simp [name.fits_iff, and_left_comm]
        | false =>
            simp only [Bool.false_eq_true, if_false, NodeList.add]
            cases name with
            | none => simp
            | some name =>
                simp [NodeUse.InBounds, name.uses_ne_nil]

/-- Some node is granted. -/
theorem entryUses_filter {grants : Nat → Bool} {calls : Nat} {list : NodeList}
    {names : List (Option NameSize)} :
    (entryUses grants calls list names).filter Prod.fst = [] ↔
      ∀ i < names.length, grants (calls + i) = false := by
  induction names generalizing calls list with
  | nil => exact iff_of_true rfl fun i hi => absurd hi (Nat.not_lt_zero i)
  | cons name names ih =>
      have htail : (entryUses grants (calls + 1) (list.add (grants calls)) names).filter Prod.fst
          = [] ↔ ∀ i < names.length, grants (calls + 1 + i) = false := ih
      rw [List.length_cons, forall_lt_cons, ← htail, entryUses]
      cases hgrant : grants calls with
      | true => simp
      | false => simp

theorem rootUses_inBounds {nodes : List (Bool × List NodeUse)} :
    (∀ use ∈ pathParserRootUses nodes, use.InBounds) ↔ nodes.filter Prod.fst ≠ [] := by
  unfold pathParserRootUses
  split
  · rename_i hnone
    exact iff_of_false (fun h => h .null List.mem_cons_self) fun h => h hnone
  · rename_i hone
    rw [hone]
    refine iff_of_true (fun use huse => ?_) (List.cons_ne_nil _ _)
    rw [List.mem_singleton.mp huse]
    exact Nat.le_refl _
  · rename_i hnone _
    exact iff_of_true (fun use huse => by cases huse) hnone

theorem safe_iff_fits (grants : Nat → Bool) (path : CString) : PathSafe grants path ↔
    NodesGiven grants ((pathEntries path.bytes).map Option.isSome) ∧
      ∀ name, some name ∈ pathEntries path.bytes → name.Fits := by
  have hroot : (∀ use ∈ (if grants 0 = true then [] else [NodeUse.null]), use.InBounds) ↔
      grants 0 = true := by
    cases hgrant : grants 0 with
    | true => exact iff_of_true (fun use huse => by cases huse) rfl
    | false => exact iff_of_false (fun h => h .null List.mem_cons_self) Bool.false_ne_true
  unfold PathSafe
  rw [pathParserUses_eq grants path, nodesGiven_iff]
  simp only [Option.some.injEq, exists_eq_left', List.mem_append, or_imp, forall_and]
  rw [hroot, rootUses_inBounds, ne_eq, entryUses_filter]
  have hflat : (∀ use ∈ (entryUses grants 1 .empty (pathEntries path.bytes)).flatMap Prod.snd,
      use.InBounds) ↔ ∀ node ∈ entryUses grants 1 .empty (pathEntries path.bytes),
        ∀ use ∈ node.2, use.InBounds := by
    simp only [List.mem_flatMap]
    constructor
    · exact fun h node hnode use huse => h use ⟨node, hnode, huse⟩
    · rintro h use ⟨node, hnode, huse⟩
      exact h node hnode use huse
  have hsome : (¬ ∀ i < (pathEntries path.bytes).length, grants (1 + i) = false) ↔
      ∃ i < ((pathEntries path.bytes).map Option.isSome).length, grants (1 + i) = true := by
    simp only [List.length_map, not_forall, Bool.not_eq_false, exists_prop]
  rw [hflat, entryUses_inBounds, hsome]
  tauto

/-- On a text it is safe on the parser returns, with a call of `kzalloc` for the root and for
    each entry. -/
theorem PathSafe.parses {grants : Nat → Bool} {path : CString} (h : PathSafe grants path) :
    ∃ root p, pathParserParseWith grants {} path.bytes
      = .ok (root, 1 + (pathEntries path.bytes).length, p) := by
  obtain ⟨hgiven, hfits⟩ := (safe_iff_fits grants path).mp h
  have hroom : identifierSize ≤ nodeRoom := by decide
  obtain ⟨⟨nodes, error, rest⟩, hread⟩ := (readEntries_ok_iff _ _).mpr fun name hname =>
    (hfits name hname).1.trans hroom
  have hnodes : nodes ≠ [] := by
    rintro rfl
    have hlength := readEntries_length hread
    obtain ⟨i, hi, -⟩ := hgiven.head
    rw [List.length_map, pathEntries, ← hlength] at hi
    exact absurd hi (Nat.not_lt_zero i)
  obtain ⟨nodes', hname, -⟩ := exists_nameRoot hnodes
  have hparse := pathParserParseWith_eq grants path.noNul
  unfold readPath at hparse
  simp only [hread, hname] at hparse
  obtain ⟨root, p, hparse, -⟩ := hparse.1 hgiven
  exact ⟨root, p, hparse⟩

/-- The parser ends on every text, and it is safe exactly when it is granted the nodes it
    writes to and every name fits the identifier of its node. -/
theorem pathSafe_iff (grants : Nat → Bool) (path : CString) : PathEnds grants path ∧
    (PathSafe grants path ↔
      NodesGiven grants ((pathEntries path.bytes).map Option.isSome) ∧
        ∀ name, some name ∈ pathEntries path.bytes → name.Fits) := by
  refine ⟨⟨by rw [pathParserUses_eq]; rfl, fun self lexer fuel hsuffix =>
    advanceLoop_of_lt self fun hnul => path.noNul (hsuffix.subset hnul)⟩, ?_⟩
  exact safe_iff_fits grants path

/-- `"/ABCDEFGH.TXT"`: behind eight letters and the dot, the extension runs past the
    identifier, and the NUL is put behind it, with every node granted. -/
theorem exists_write_outside : ¬ ∀ (grants : Nat → Bool) (path : CString),
    PathSafe grants path := by
  intro hall
  obtain ⟨uses, huses, hsafe⟩ := hall (fun _ => true)
    ⟨[47, 65, 66, 67, 68, 69, 70, 71, 72, 46, 84, 88, 84], by decide⟩
  have hwrites : pathParserUses (fun _ => true)
      [47, 65, 66, 67, 68, 69, 70, 71, 72, 46, 84, 88, 84]
      = some [.write 0 8, .write 0 8, .write 8 1, .write 9 4, .write 12 1] := by
    decide +kernel
  rw [hwrites] at huses
  rw [← Option.some.inj huses] at hsafe
  have hout := hsafe (.write 12 1) (by decide)
  rw [NodeUse.InBounds] at hout
  exact absurd hout (by decide)

end Icarius
