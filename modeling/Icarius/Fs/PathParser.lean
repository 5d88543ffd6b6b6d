/-
  Icarius.Fs.PathParser

  The path parser of `src/x86/fs/pathparser.c`, with its two tokens `prev` and
  `curr`, and what it makes of the tokens of a text (`readPath`): the lexer and the
  pointers are gone there, the order in which the functions take tokens is kept.

  A node is the memory `kzalloc` returns for it, one chunk of the heap, when it returns any:
  which calls of `kzalloc` are granted is an argument of the parser.  A name that runs past
  the chunk, a path without nodes, and a null pointer that is taken for a node, end a parse in
  a `PathFault`.
-/

import Icarius.Fs.PathLexer
import Icarius.Lib.Bytes
import Icarius.Memory.Heap

namespace Icarius

open Icarius.Lib

/-! ## The parser -/

/-- `pathparser_t` -/
structure PathParser where
  curr : PathToken := ⟨.ptIdentifier, [], 0⟩
  prev : PathToken := ⟨.ptIdentifier, [], 0⟩
  hasError : Bool := false

/-- `pathnode_t`: the bytes from the start of the node, `identifier` first.  The
    nodes of a path are a list, in the order of their `next` pointers. -/
structure PathNode where
  identifier : Mem

/-- `pathroot_node_t` -/
structure PathRoot where
  drive : List UInt8
  path : List PathNode

/-- What ends a parse: a copy past the chunk of a node, `root->path` read when it is null, or
    a node written that is null. -/
inductive PathFault where
  | overrun
  | nullPath
  | nullNode
  deriving DecidableEq, Repr

/-- The bytes behind a pointer into the path, the NUL at its end among them. -/
def PathToken.bytes (t : PathToken) (n : Nat) : List UInt8 :=
  (t.start ++ [0]).take n

/-- The bytes of one chunk behind its header: what `kzalloc` returns for a node. -/
def nodeRoom : Nat := kernelHeapChunkSize - heapBlockSize

/-- A node as `kzalloc` returns it. -/
def emptyNode : PathNode := ⟨fun _ => 0⟩

/-- `_path_parser_check` -/
def pathParserCheck (self : PathParser) (expected : PathType) : Bool :=
  self.curr.type == expected

/-- `_path_parser_report_error`, less what it prints -/
def pathParserReportError (self : PathParser) : PathParser :=
  { self with hasError := true }

/-- The loop of `_path_parser_advance`: error tokens are reported and skipped. -/
def pathParserAdvanceLoop : Nat → PathParser → PathLexer → PathParser × PathLexer
  | 0, self, lexer => (self, lexer)
  | fuel + 1, self, lexer =>
      let (curr, lexer) := pathLexerLex lexer
      let self := { self with curr := curr }
      if curr.type != .ptErr then (self, lexer)
      else pathParserAdvanceLoop fuel (pathParserReportError self) lexer

/-- `_path_parser_advance`: each round takes a character. -/
def pathParserAdvance (self : PathParser) (lexer : PathLexer) : PathParser × PathLexer :=
  pathParserAdvanceLoop (lexer.curr.length + 1) { self with prev := self.curr } lexer

/-- `_path_parser_match` -/
def pathParserMatch (self : PathParser) (lexer : PathLexer) (expected : PathType) :
    Bool × PathParser × PathLexer :=
  if pathParserCheck self expected then (true, pathParserAdvance self lexer)
  else (false, self, lexer)

/-- `_path_parser_eat` -/
def pathParserEat (self : PathParser) (lexer : PathLexer) (expected : PathType) :
    PathParser × PathLexer :=
  if pathParserCheck self expected then pathParserAdvance self lexer
  else (pathParserReportError self, lexer)

/-- `_path_parser_parse_dir` -/
def pathParserParseDir (self : PathParser) (currNode : PathNode) : Except PathFault PathNode :=
  if nodeRoom < self.prev.len then .error .overrun
  else .ok ⟨currNode.identifier.write 0 (self.prev.bytes self.prev.len)⟩

/-- `_path_parser_parse_filename` -/
def pathParserParseFilename (self : PathParser) (lexer : PathLexer) (currNode : PathNode) :
    PathNode × PathParser × PathLexer :=
  let namelen := if self.prev.len < 8 then self.prev.len else 8
  let identifier := currNode.identifier.write 0 (self.prev.bytes namelen)
  let bytes := namelen
  let (self, lexer) := pathParserEat self lexer .ptDot
  let (self, lexer) := pathParserEat self lexer .ptIdentifier
  let extlen := if self.prev.len < 3 then self.prev.len else 3
  let identifier := identifier.write bytes [charDot]
  let bytes := bytes + 1
  -- one byte more than the extension, overwritten below
  let identifier := identifier.write bytes (self.prev.bytes (extlen + 1))
  let bytes := bytes + extlen
  (⟨identifier.write bytes [0]⟩, self, lexer)

/-- `_path_parser_parse_entry` -/
def pathParserParseEntry (self : PathParser) (lexer : PathLexer) (currNode : PathNode) :
    Except PathFault (PathNode × PathParser × PathLexer) :=
  match pathParserMatch self lexer .ptIdentifier with
  | (true, self, lexer) =>
      match pathParserParseDir self currNode with
      | .error fault => .error fault
      | .ok currNode =>
          if pathParserCheck self .ptDot then .ok (pathParserParseFilename self lexer currNode)
          else .ok (currNode, self, lexer)
  | (false, self, lexer) => .ok (currNode, self, lexer)

/-- `_path_parser_parse_entry` on a null pointer: a name is copied to it. -/
def pathParserParseEntryNull (self : PathParser) (lexer : PathLexer) :
    Except PathFault (PathParser × PathLexer) :=
  match pathParserMatch self lexer .ptIdentifier with
  | (true, _, _) => .error .nullNode
  | (false, self, lexer) => .ok (self, lexer)

/-- `head` and `prev` of `_path_parser_parse_entries`: both null, both nodes, or a null `prev`
    behind a `head` that is none. -/
inductive NodeList where
  | empty
  | nodes
  | lost
  deriving DecidableEq

/-- `head` and `prev` behind a null node -/
def NodeList.addNull : NodeList → NodeList
  | .empty => .empty
  | _ => .lost

/-- The loop of `_path_parser_parse_entries`, behind `calls` calls of `kzalloc`: the nodes it
    adds, and the calls made by then. -/
def pathParserParseEntriesLoop (grants : Nat → Bool) :
    Nat → Nat → NodeList → PathParser → PathLexer →
    Except PathFault (List PathNode × Nat × PathParser × PathLexer)
  | 0, calls, _, self, lexer => .ok ([], calls, self, lexer)
  | fuel + 1, calls, list, self, lexer =>
      match pathParserMatch self lexer .ptSlash with
      | (true, self, lexer) =>
          -- `prev->next` is written
          if list = .lost then .error .nullNode
          else if grants calls then
            match pathParserParseEntry self lexer emptyNode with
            | .error fault => .error fault
            | .ok (node, self, lexer) =>
                match pathParserParseEntriesLoop grants fuel (calls + 1) .nodes self lexer with
                | .error fault => .error fault
                | .ok (nodes, calls, self, lexer) => .ok (node :: nodes, calls, self, lexer)
          else
            match pathParserParseEntryNull self lexer with
            | .error fault => .error fault
            | .ok (self, lexer) =>
                pathParserParseEntriesLoop grants fuel (calls + 1) list.addNull self lexer
      | (false, self, lexer) => .ok ([], calls, self, lexer)

/-- `_path_parser_parse_entries`: each round takes a slash.  The first call of `kzalloc` was
    for the root. -/
def pathParserParseEntries (grants : Nat → Bool) (self : PathParser) (lexer : PathLexer) :
    Except PathFault (List PathNode × Nat × PathParser × PathLexer) :=
  pathParserParseEntriesLoop grants (lexer.curr.length + 2) 1 .empty self lexer

/-- `_path_parser_parse_drive`, less its node -/
def pathParserParseDrive (self : PathParser) (lexer : PathLexer) :
    List UInt8 × PathParser × PathLexer :=
  match pathParserMatch self lexer .ptLetter with
  | (true, self, lexer) => (self.prev.bytes 1 ++ [0], pathParserEat self lexer .ptColon)
  | (false, self, lexer) => ([0, 0], self, lexer)

/-- The end of `_path_parser_parse_path`: a single node without a name is the root. -/
def pathParserNameRoot : List PathNode → Except PathFault (List PathNode)
  | [] => .error .nullPath
  | [node] =>
      if node.identifier 0 == 0 then
        -- `strncpy` fills the eleven bytes of `identifier`
        .ok [⟨node.identifier.write 0 (charSlash :: List.replicate 10 0)⟩]
      else .ok [node]
  | nodes => .ok nodes

/-- `_path_parser_parse_path`: the root is written, whether it is granted or not. -/
def pathParserParsePath (grants : Nat → Bool) (self : PathParser) (lexer : PathLexer) :
    Except PathFault (PathRoot × Nat × PathParser × PathLexer) :=
  if grants 0 then
    let (drive, self, lexer) := pathParserParseDrive self lexer
    match pathParserParseEntries grants self lexer with
    | .error fault => .error fault
    | .ok (nodes, calls, self, lexer) =>
        match pathParserNameRoot nodes with
        | .error fault => .error fault
        | .ok nodes => .ok (⟨drive, nodes⟩, calls, self, lexer)
  else .error .nullNode

/-- `path_parser_parse` with an allocator that grants the calls of `grants`: the root, the
    number of calls of `kzalloc`, and the parser. -/
def pathParserParseWith (grants : Nat → Bool) (self : PathParser) (path : List UInt8) :
    Except PathFault (PathRoot × Nat × PathParser) :=
  let (self, lexer) := pathParserAdvance self (.init path)
  match pathParserParsePath grants self lexer with
  | .error fault => .error fault
  | .ok (root, calls, self, _) => .ok (root, calls, self)

/-- `path_parser_parse` with an allocator that grants every call -/
def pathParserParse (self : PathParser) (path : List UInt8) :
    Except PathFault (PathRoot × PathParser) :=
  match pathParserParseWith (fun _ => true) self path with
  | .error fault => .error fault
  | .ok (root, _, self) => .ok (root, self)

/-! ## The tokens the parser is at -/

/-- The tokens behind the error tokens in front. -/
def skipErr (ts : List PathToken) : List PathToken :=
  ts.dropWhile fun t => t.type == .ptErr

/-- There are error tokens in front. -/
def errAt : List PathToken → Bool
  | [] => false
  | t :: _ => t.type == .ptErr

theorem skipErr_of_errAt {ts : List PathToken} (h : errAt ts = false) : skipErr ts = ts := by
  cases ts with
  | nil => rfl
  | cons t ts => exact List.dropWhile_cons_of_neg (by rw [show (t.type == .ptErr) = false from h]; simp)

theorem errAt_cons {t : PathToken} (ts : List PathToken) (ht : t.type ≠ .ptErr) :
    errAt (t :: ts) = false :=
  beq_eq_false_iff_ne.mpr ht

theorem skipErr_cons {t : PathToken} (ts : List PathToken) (ht : t.type ≠ .ptErr) :
    skipErr (t :: ts) = t :: ts :=
  skipErr_of_errAt (errAt_cons ts ht)

theorem errAt_skipErr (ts : List PathToken) : errAt (skipErr ts) = false := by
  induction ts with
  | nil => rfl
  | cons t ts ih =>
      rw [skipErr]
      by_cases ht : t.type = .ptErr
      · rw [List.dropWhile_cons_of_pos (by simp [ht])]
        exact ih
      · rw [List.dropWhile_cons_of_neg (by simp [ht])]
        simpa [errAt] using ht

theorem length_skipErr_le (ts : List PathToken) : (skipErr ts).length ≤ ts.length :=
  (List.dropWhile_sublist _).length_le

/-- The parser has `ts` before it: `curr` first, then what the lexer will find. -/
structure Reading (p : PathParser) (l : PathLexer) (ts : List PathToken) : Prop where
  nul : 0 ∉ l.curr
  noErr : errAt ts = false
  curr : (ts = [] ∧ p.curr.type = .ptEnd ∧ l.curr = []) ∨
    p.curr.type ≠ .ptEnd ∧ ts = p.curr :: pathTokens l.curr

theorem Reading.check_cons {p : PathParser} {l : PathLexer} {t : PathToken} {ts : List PathToken}
    (h : Reading p l (t :: ts)) : p.curr = t ∧ pathTokens l.curr = ts := by
  rcases h.curr with ⟨hnil, -⟩ | ⟨-, hcons⟩
  · cases hnil
  · obtain ⟨rfl, rfl⟩ := List.cons.inj hcons
    exact ⟨rfl, rfl⟩

theorem Reading.check_nil {p : PathParser} {l : PathLexer} (h : Reading p l []) :
    p.curr.type = .ptEnd := by
  rcases h.curr with ⟨-, hend, -⟩ | ⟨-, hcons⟩
  · exact hend
  · cases hcons

/-- What an advance does: the parser is at the tokens behind the error tokens, and it
    has met an error if there were some. -/
structure Advanced (p : PathParser) (ts : List PathToken) (p' : PathParser) (l' : PathLexer) :
    Prop where
  reading : Reading p' l' (skipErr ts)
  prev : p'.prev = p.curr
  hasError : p'.hasError = (p.hasError || errAt ts)

theorem pathParserAdvanceLoop_spec {fuel : Nat} (p : PathParser) {l : PathLexer}
    (hnul : 0 ∉ l.curr) (hfuel : l.curr.length < fuel) :
    Reading (pathParserAdvanceLoop fuel p l).1 (pathParserAdvanceLoop fuel p l).2
        (skipErr (pathTokens l.curr)) ∧
      (pathParserAdvanceLoop fuel p l).1.prev = p.prev ∧
      (pathParserAdvanceLoop fuel p l).1.hasError
        = (p.hasError || errAt (pathTokens l.curr)) := by
  induction fuel generalizing p l with
  | zero => omega
  | succ fuel ih =>
      obtain ⟨start, curr⟩ := l
      cases curr with
      | nil =>
          have hreading : Reading { p with curr := ⟨.ptEnd, [], 0⟩ } ⟨[], []⟩ [] :=
            ⟨hnul, rfl, .inl ⟨rfl, rfl, rfl⟩⟩
          exact ⟨hreading, rfl, (Bool.or_false _).symm⟩
      | cons c cs =>
          obtain ⟨type, w, rest, hlex, hsplit, hne, hend, -⟩ := lex_cons (s := start) hnul
          have hrest : 0 ∉ rest := fun h => hnul (hsplit ▸ List.mem_append_right w h)
          have hlen : (c :: cs).length = w.length + rest.length := by
            rw [hsplit, List.length_append]
          have hpos : 0 < w.length := List.length_pos_iff.mpr hne
          rw [pathTokens_cons hnul hlex]
          simp only [pathParserAdvanceLoop, hlex]
          by_cases herr : type = .ptErr
          · subst herr
            simp only [bne_self_eq_false, Bool.false_eq_true, if_false]
            obtain ⟨hreading, hprev, herror⟩ := ih
              (pathParserReportError { p with curr := ⟨.ptErr, c :: cs, w.length⟩ })
              (l := ⟨c :: cs, rest⟩) hrest (by simp only at hfuel ⊢; omega)
            refine ⟨?_, hprev, ?_⟩
            · rw [skipErr, List.dropWhile_cons_of_pos rfl]
              exact hreading
            · rw [herror]
              simp [pathParserReportError, errAt]
          · have hbne : (type != .ptErr) = true := bne_iff_ne.mpr herr
            have hnone : errAt (⟨type, c :: cs, w.length⟩ :: pathTokens rest) = false := by
              simpa [errAt] using herr
            rw [if_pos hbne, skipErr_of_errAt hnone]
            refine ⟨⟨hrest, hnone, .inr ⟨hend, rfl⟩⟩, rfl, ?_⟩
            rw [hnone, Bool.or_false]

theorem pathParserAdvance_spec (p : PathParser) {l : PathLexer} (hnul : 0 ∉ l.curr) :
    Advanced p (pathTokens l.curr) (pathParserAdvance p l).1 (pathParserAdvance p l).2 := by
  obtain ⟨hreading, hprev, herror⟩ := pathParserAdvanceLoop_spec { p with prev := p.curr } hnul
    (Nat.lt_succ_self _)
  exact ⟨hreading, hprev, herror⟩

/-- A match of the token in front. -/
theorem Reading.match_pos {p : PathParser} {l : PathLexer} {t : PathToken} {ts : List PathToken}
    {expected : PathType} (h : Reading p l (t :: ts)) (ht : t.type = expected) :
    ∃ p' l', pathParserMatch p l expected = (true, p', l') ∧ Advanced p ts p' l' := by
  obtain ⟨hcurr, hrest⟩ := h.check_cons
  have hcheck : pathParserCheck p expected = true := by
    rw [pathParserCheck, hcurr, ht, beq_self_eq_true]
  have hadvance := pathParserAdvance_spec p h.nul
  rw [hrest] at hadvance
  exact ⟨_, _, by rw [pathParserMatch, if_pos hcheck], hadvance⟩

/-- No match, of another token or at the end. -/
theorem Reading.match_neg {p : PathParser} {l : PathLexer} {ts : List PathToken}
    (h : Reading p l ts) (expected : PathType) (hend : expected ≠ .ptEnd)
    (hne : ∀ t rest, ts = t :: rest → t.type ≠ expected) :
    pathParserCheck p expected = false := by
  rw [pathParserCheck, beq_eq_false_iff_ne]
  cases ts with
  | nil =>
      rw [h.check_nil]
      exact fun hx => hend hx.symm
  | cons t ts =>
      rw [h.check_cons.1]
      exact hne t ts rfl

end Icarius
