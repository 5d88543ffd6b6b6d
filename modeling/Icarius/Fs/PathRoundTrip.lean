/-
  Icarius.Fs.PathRoundTrip

  Parsing undoes rendering: the path of a drive and a list of entries is read back
  as that drive and one node for each entry.
-/

import Icarius.Fs.PathRead

namespace Icarius

open Icarius.Lib

/-! ## Entries -/

/-- One to `max` letters. -/
structure PathWord (max : Nat) where
  letters : List UInt8
  ne_nil : letters ≠ []
  length_le : letters.length ≤ max
  alpha : ∀ c ∈ letters, isalpha c

/-- A directory name, or a file name with its extension. -/
inductive PathEntry where
  | dir (name : PathWord 10)
  | file (name : PathWord 8) (ext : PathWord 3)
      (fits : name.letters.length + 1 + ext.letters.length ≤ 10)

/-- The text of an entry. -/
def PathEntry.text : PathEntry → List UInt8
  | .dir name => name.letters
  | .file name ext _ => name.letters ++ charDot :: ext.letters

/-- `'/'` and each entry in order -/
def renderEntries (entries : List PathEntry) : List UInt8 :=
  entries.flatMap fun e => charSlash :: e.text

/-- A letter of a drive. -/
abbrev DriveLetter := { c : UInt8 // isalpha c }

/-- `D:` and the entries -/
def renderPath (drive : DriveLetter) (entries : List PathEntry) : List UInt8 :=
  drive.val :: charColon :: renderEntries entries

theorem ne_zero_of_isalpha {c : UInt8} (h : isalpha c) : c ≠ 0 := by
  rintro rfl
  exact Bool.false_ne_true h

theorem PathWord.zero_notMem {n : Nat} (w : PathWord n) : 0 ∉ w.letters :=
  fun h => ne_zero_of_isalpha (w.alpha 0 h) rfl

theorem PathEntry.zero_notMem (e : PathEntry) : 0 ∉ e.text := by
  cases e with
  | dir name => exact name.zero_notMem
  | file name ext _ =>
      rw [PathEntry.text, List.mem_append, List.mem_cons]
      rintro (h | h | h)
      · exact name.zero_notMem h
      · exact absurd h (by decide)
      · exact ext.zero_notMem h

theorem PathEntry.text_ne_nil (e : PathEntry) : e.text ≠ [] := by
  cases e with
  | dir name => exact name.ne_nil
  | file name ext _ => exact List.append_ne_nil_of_right_ne_nil _ (List.cons_ne_nil _ _)

theorem zero_notMem_renderEntries (entries : List PathEntry) : 0 ∉ renderEntries entries := by
  rw [renderEntries, List.mem_flatMap]
  rintro ⟨e, -, h⟩
  rcases List.mem_cons.mp h with h | h
  · exact absurd h (by decide)
  · exact e.zero_notMem h

/-! ## Names of nodes -/

/-- The NUL-terminated string in the eleven bytes of `identifier`. -/
def PathNode.name (node : PathNode) : List UInt8 :=
  ((List.range 11).map node.identifier).takeWhile (· != 0)

/-- A node with the bytes of a text and a NUL behind them has the text as its name. -/
theorem PathNode.name_eq {node : PathNode} {text : List UInt8} (hlen : text.length ≤ 10)
    (hzero : 0 ∉ text) (htext : ∀ i (h : i < text.length), node.identifier i = text[i])
    (hend : node.identifier text.length = 0) : node.name = text := by
  obtain ⟨k, hk⟩ : ∃ k, 11 = text.length + (k + 1) := ⟨10 - text.length, by omega⟩
  have hfront : (List.range text.length).map node.identifier = text := by
    refine List.ext_getElem (by simp) fun i h₁ h₂ => ?_
    rw [List.getElem_map, List.getElem_range]
    exact htext i h₂
  have hback : (List.map node.identifier ((List.range (k + 1)).map (text.length + ·)))
      = 0 :: (List.map node.identifier ((List.range k).map fun i => text.length + (i + 1))) := by
    rw [List.range_succ_eq_map]
    simp only [List.map_cons, List.map_map, Nat.add_zero, hend]
    rfl
  rw [PathNode.name, hk, List.range_add, List.map_append, hfront, hback,
    List.takeWhile_append_of_pos]
  · rw [List.takeWhile_cons_of_neg (by decide), List.append_nil]
  · intro c hc
    rw [bne_iff_ne]
    rintro rfl
    exact hzero hc

/-- The bytes of a token are the front of its text. -/
theorem PathToken.bytes_of_append {type : PathType} {w rest : List UInt8} {len : Nat} :
    (PathToken.mk type (w ++ rest) len).bytes w.length = w := by
  rw [PathToken.bytes, List.append_assoc, List.take_left]

theorem dirNode_identifier {w rest : List UInt8} :
    (dirNode ⟨.ptIdentifier, w ++ rest, w.length⟩).identifier = Mem.write (fun _ => 0) 0 w := by
  rw [dirNode, PathToken.bytes_of_append]
  rfl

/-- The node of a directory name. -/
theorem name_dirNode (name : PathWord 10) (rest : List UInt8) :
    (dirNode ⟨.ptIdentifier, name.letters ++ rest, name.letters.length⟩).name = name.letters := by
  refine PathNode.name_eq name.length_le name.zero_notMem (fun i hi => ?_) ?_
  · rw [dirNode_identifier, Mem.write_zero hi]
  · rw [dirNode_identifier, Mem.write, if_pos (Nat.zero_le _), Nat.sub_zero,
      List.getElem?_eq_none (Nat.le_refl _)]
    rfl

/-- The node of a file name: the name again, the dot, the extension and the NUL. -/
theorem name_fileNode (name : PathWord 8) (ext : PathWord 3) (rest rest' : List UInt8)
    (fits : name.letters.length + 1 + ext.letters.length ≤ 10) :
    (fileNode ⟨.ptIdentifier, name.letters ++ rest, name.letters.length⟩
      ⟨.ptIdentifier, ext.letters ++ rest', ext.letters.length⟩).name
        = name.letters ++ charDot :: ext.letters := by
  have hname := name.length_le
  have hext := ext.length_le
  have hnamelen : (if name.letters.length < 8 then name.letters.length else 8)
      = name.letters.length := by
    split
    · rfl
    · omega
  have hextlen : (if ext.letters.length < 3 then ext.letters.length else 3)
      = ext.letters.length := by
    split
    · rfl
    · omega
  have hzero : 0 ∉ name.letters ++ charDot :: ext.letters :=
    PathEntry.zero_notMem (.file name ext fits)
  have hlen : (name.letters ++ charDot :: ext.letters).length
      = name.letters.length + 1 + ext.letters.length := by
    rw [List.length_append, List.length_cons]
    omega
  -- the extension comes with the byte behind it
  obtain ⟨extra, hextra⟩ : ∃ extra, (PathToken.mk .ptIdentifier (ext.letters ++ rest')
      ext.letters.length).bytes (ext.letters.length + 1) = ext.letters ++ extra := by
    refine ⟨(rest' ++ [0]).take 1, ?_⟩
    rw [PathToken.bytes, List.append_assoc, List.take_length_add_append]
  unfold fileNode
  simp only [hnamelen, hextlen, PathToken.bytes_of_append, hextra]
  refine PathNode.name_eq (by rw [hlen]; exact fits) hzero (fun i hi => ?_) ?_
  · rw [hlen] at hi
    simp only
    rw [Mem.write_of_lt hi]
    rcases Nat.lt_trichotomy i name.letters.length with hlt | rfl | hgt
    · rw [Mem.write_of_lt (by omega), Mem.write_of_lt hlt, Mem.write_zero hlt,
        List.getElem_append_left hlt]
    · rw [Mem.write_of_lt (by omega)]
      have hdot := Mem.write_add (m := (dirNode ⟨.ptIdentifier, name.letters ++ rest,
        name.letters.length⟩).identifier.write 0 name.letters) (a := name.letters.length)
        (b := [charDot]) (i := 0) (by decide)
      rw [Nat.add_zero] at hdot
      rw [hdot, List.getElem_append_right (Nat.le_refl _)]
      simp
    · obtain ⟨j, rfl⟩ : ∃ j, i = name.letters.length + 1 + j := ⟨i - (name.letters.length + 1),
        by omega⟩
      have hj : j < ext.letters.length := by omega
      rw [Mem.write_add (by rw [List.length_append]; omega), List.getElem_append_left hj,
        List.getElem_append_right (by omega)]
      simp [show name.letters.length + 1 + j - name.letters.length = j + 1 by omega]
  · rw [hlen]
    have hnul := Mem.write_add (m := (((dirNode ⟨.ptIdentifier, name.letters ++ rest,
        name.letters.length⟩).identifier.write 0 name.letters).write name.letters.length
          [charDot]).write (name.letters.length + 1) (ext.letters ++ extra))
      (a := name.letters.length + 1 + ext.letters.length) (b := [0]) (i := 0) (by decide)
    exact hnul

/-! ## Tokens of a rendered path -/

theorem pathTokens_char {c : UInt8} {rest : List UInt8} (hc : c ≠ 0) (halpha : isalpha c = false)
    (hrest : 0 ∉ rest) :
    pathTokens (c :: rest) = ⟨charType c, c :: rest, 1⟩ :: pathTokens rest := by
  refine pathTokens_cons (s := []) ?_ (lex_char hc halpha)
  rw [List.mem_cons, not_or]
  exact ⟨hc.symm, hrest⟩

theorem pathTokens_slash {rest : List UInt8} (hrest : 0 ∉ rest) :
    pathTokens (charSlash :: rest) = ⟨.ptSlash, charSlash :: rest, 1⟩ :: pathTokens rest :=
  pathTokens_char (by decide) (by decide) hrest

theorem pathTokens_dot {rest : List UInt8} (hrest : 0 ∉ rest) :
    pathTokens (charDot :: rest) = ⟨.ptDot, charDot :: rest, 1⟩ :: pathTokens rest :=
  pathTokens_char (by decide) (by decide) hrest

theorem pathTokens_word {n : Nat} (w : PathWord n) {rest : List UInt8} (hends : EndsWord rest)
    (hcolon : rest.headD 0 ≠ charColon) (hrest : 0 ∉ rest) :
    pathTokens (w.letters ++ rest)
      = ⟨.ptIdentifier, w.letters ++ rest, w.letters.length⟩ :: pathTokens rest := by
  have hlex := lex_identifier (s := []) w.alpha w.ne_nil hends fun _ => hcolon
  have hnul : 0 ∉ w.letters ++ rest := by
    rw [List.mem_append, not_or]
    exact ⟨w.zero_notMem, hrest⟩
  obtain ⟨c, cs, hw⟩ := List.exists_cons_of_ne_nil w.ne_nil
  rw [hw] at hlex hnul ⊢
  exact pathTokens_cons hnul hlex

/-- Entries end the word in front of them. -/
theorem renderEntries_ends (es : List PathEntry) :
    EndsWord (renderEntries es) ∧ (renderEntries es).headD 0 ≠ charColon := by
  cases es with
  | nil => exact ⟨rfl, by decide⟩
  | cons e es => exact ⟨rfl, by simp [renderEntries, charSlash, charColon]⟩

theorem errAt_renderEntries (es : List PathEntry) :
    errAt (pathTokens (renderEntries es)) = false := by
  cases es with
  | nil => rfl
  | cons e es =>
      have hnul : 0 ∉ e.text ++ renderEntries es := by
        rw [List.mem_append, not_or]
        exact ⟨e.zero_notMem, zero_notMem_renderEntries es⟩
      have hrender : renderEntries (e :: es) = charSlash :: (e.text ++ renderEntries es) := by
        simp [renderEntries]
      rw [hrender, pathTokens_slash hnul]
      rfl

/-- An entry is read back, up to the entries behind it. -/
theorem readEntry_text (e : PathEntry) (es : List PathEntry) : ∃ node,
    errAt (pathTokens (e.text ++ renderEntries es)) = false ∧
      readEntry (pathTokens (e.text ++ renderEntries es))
        = .ok (node, false, pathTokens (renderEntries es)) ∧ node.name = e.text := by
  obtain ⟨hends, hcolon⟩ := renderEntries_ends es
  have hnul := zero_notMem_renderEntries es
  have herr := errAt_renderEntries es
  have hskip := skipErr_of_errAt herr
  cases e with
  | dir name =>
      have hlen := name.length_le
      have hroom : ¬ nodeRoom < name.letters.length := by
        rw [nodeRoom, kernelHeapChunkSize, heapBlockSize]
        omega
      -- behind a directory comes a slash or the end, never a dot
      have hdot : ∀ t ts, pathTokens (renderEntries es) = t :: ts → t.type ≠ .ptDot := by
        cases es with
        | nil => exact fun t ts h => by cases h
        | cons e es =>
            have hnul' : 0 ∉ e.text ++ renderEntries es := by
              rw [List.mem_append, not_or]
              exact ⟨e.zero_notMem, zero_notMem_renderEntries es⟩
            rw [show renderEntries (e :: es) = charSlash :: (e.text ++ renderEntries es) by
              simp [renderEntries], pathTokens_slash hnul']
            intro t ts h
            obtain ⟨rfl, -⟩ := List.cons.inj h
            exact fun h => by cases h
      refine ⟨dirNode ⟨.ptIdentifier, name.letters ++ renderEntries es, name.letters.length⟩,
        ?_, ?_, name_dirNode name _⟩
      · rw [PathEntry.text, pathTokens_word name hends hcolon hnul]
        rfl
      · rw [PathEntry.text, pathTokens_word name hends hcolon hnul, readEntry]
        simp only [if_true, hroom, if_false, readName, hskip]
        cases hts : pathTokens (renderEntries es) with
        | nil => rfl
        | cons t ts =>
            have hfalse : errAt (t :: ts) = false := hts ▸ herr
            simp only [hdot t ts hts, if_false, hfalse]
  -- two words with a dot between them
  | file name ext fits =>
      have hlen := name.length_le
      have hroom : ¬ nodeRoom < name.letters.length := by
        rw [nodeRoom, kernelHeapChunkSize, heapBlockSize]
        omega
      have hext : 0 ∉ ext.letters ++ renderEntries es := by
        rw [List.mem_append, not_or]
        exact ⟨ext.zero_notMem, hnul⟩
      have hdot : 0 ∉ charDot :: (ext.letters ++ renderEntries es) := by
        rw [List.mem_cons, not_or]
        exact ⟨by decide, hext⟩
      have hdotEnds : EndsWord (charDot :: (ext.letters ++ renderEntries es)) ∧
          (charDot :: (ext.letters ++ renderEntries es)).headD 0 ≠ charColon := ⟨rfl, by
        rw [List.headD_cons]
        decide⟩
      have htext : (PathEntry.file name ext fits).text ++ renderEntries es
          = name.letters ++ charDot :: (ext.letters ++ renderEntries es) := by
        rw [PathEntry.text, List.append_assoc, List.cons_append]
      refine ⟨_, ?_, ?_, name_fileNode name ext (charDot :: (ext.letters ++ renderEntries es))
        (renderEntries es) fits⟩
      · rw [htext, pathTokens_word name hdotEnds.1 hdotEnds.2 hdot]
        rfl
      · rw [htext, pathTokens_word name hdotEnds.1 hdotEnds.2 hdot, pathTokens_dot hext, pathTokens_word ext hends hcolon hnul, readEntry]
        have hdotType : (PathToken.mk .ptDot (charDot :: (ext.letters ++ renderEntries es)) 1).type
            ≠ .ptErr := fun h => by cases h
        have hextType : (PathToken.mk .ptIdentifier (ext.letters ++ renderEntries es)
            ext.letters.length).type ≠ .ptErr := fun h => by cases h
        simp only [if_true, hroom, if_false, readName, skipErr_cons _ hdotType,
          errAt_cons _ hdotType, skipErr_cons _ hextType, errAt_cons _ hextType, herr, hskip,
          Bool.or_self]

theorem readEntries_render (entries : List PathEntry) (fuel : Nat)
    (hfuel : entries.length < fuel) : ∃ nodes,
      readEntries fuel (pathTokens (renderEntries entries)) = .ok (nodes, false, []) ∧
        nodes.map PathNode.name = entries.map PathEntry.text := by
  induction entries generalizing fuel with
  | nil =>
      obtain ⟨f, rfl⟩ : ∃ f, fuel = f + 1 := ⟨fuel - 1, by omega⟩
      exact ⟨[], rfl, rfl⟩
  | cons e es ih =>
      obtain ⟨f, rfl⟩ : ∃ f, fuel = f + 1 := ⟨fuel - 1, by omega⟩
      rw [List.length_cons] at hfuel
      have hnul : 0 ∉ e.text ++ renderEntries es := by
        rw [List.mem_append, not_or]
        exact ⟨e.zero_notMem, zero_notMem_renderEntries es⟩
      obtain ⟨node, herr, hentry, hname⟩ := readEntry_text e es
      obtain ⟨nodes, hnodes, hnames⟩ := ih f (by omega)
      refine ⟨node :: nodes, ?_, ?_⟩
      · rw [show renderEntries (e :: es) = charSlash :: (e.text ++ renderEntries es) by
          simp [renderEntries], pathTokens_slash hnul, readEntries]
        simp only [if_true, skipErr_of_errAt herr, hentry, hnodes, herr, Bool.or_self]
      · rw [List.map_cons, List.map_cons, hname, hnames]

/-! ## The round trip -/

/-- A node with a name is not the root. -/
theorem pathParserNameRoot_named {node : PathNode} {nodes : List PathNode}
    (h : node.name ≠ []) : pathParserNameRoot (node :: nodes) = .ok (node :: nodes) := by
  have hfirst : (node.identifier 0 == 0) = false := by
    rw [beq_eq_false_iff_ne]
    intro hzero
    apply h
    rw [PathNode.name, List.range_succ_eq_map, List.map_cons,
      List.takeWhile_cons_of_neg (by simp [hzero])]
  cases nodes with
  | nil => simp [pathParserNameRoot, hfirst]
  | cons n ns => rfl

/-- Parsing undoes rendering. -/
theorem pathParserParse_renderPath (drive : DriveLetter) (e : PathEntry)
    (es : List PathEntry) : ∃ root p,
      pathParserParse {} (renderPath drive (e :: es)) = .ok (root, p) ∧ p.hasError = false ∧
        root.drive = [drive.val, 0] ∧
        root.path.map PathNode.name = (e :: es).map PathEntry.text := by
  have hentries := zero_notMem_renderEntries (e :: es)
  have hcolon : 0 ∉ charColon :: renderEntries (e :: es) := by
    rw [List.mem_cons, not_or]
    exact ⟨by decide, hentries⟩
  have hnul : 0 ∉ renderPath drive (e :: es) := by
    rw [renderPath, List.mem_cons, not_or]
    exact ⟨(ne_zero_of_isalpha drive.property).symm, hcolon⟩
  have htokens : pathTokens (renderPath drive (e :: es))
      = ⟨.ptLetter, renderPath drive (e :: es), 1⟩
        :: ⟨.ptColon, charColon :: renderEntries (e :: es), 1⟩
        :: pathTokens (renderEntries (e :: es)) := by
    rw [renderPath] at hnul ⊢
    rw [pathTokens_cons (s := []) hnul (lex_letter drive.property),
      pathTokens_char (by decide) (by decide) hentries]
    rfl
  -- fuel for the entries, and for the tokens
  obtain ⟨nodes, hread, hnames⟩ := readEntries_render (e :: es)
    ((pathTokens (renderEntries (e :: es))).length + (e :: es).length + 1) (by omega)
  rw [readEntries_of_lt (by omega)] at hread
  obtain ⟨node, nodes', rfl⟩ : ∃ node nodes', nodes = node :: nodes' := by
    cases nodes with
    | nil => cases hnames
    | cons node nodes' => exact ⟨node, nodes', rfl⟩
  have hname : node.name ≠ [] := by
    rw [(List.cons.inj hnames).1]
    exact e.text_ne_nil
  have hread' : readPath (renderPath drive (e :: es))
      = .ok (⟨[drive.val, 0], node :: nodes'⟩, false) := by
    have herr := errAt_renderEntries (e :: es)
    have hletter : (PathToken.mk .ptLetter (renderPath drive (e :: es)) 1).type ≠ .ptErr :=
      fun h => by cases h
    unfold readPath
    rw [htokens]
    simp only [skipErr_cons _ hletter, errAt_cons _ hletter, readDrive, if_true, List.tail_cons,
      skipErr_of_errAt herr, herr, hread, pathParserNameRoot_named hname, Bool.or_false]
    rfl
  have hparse := pathParserParse_eq hnul
  rw [hread'] at hparse
  obtain ⟨p, hparse, herror⟩ := hparse
  exact ⟨_, p, hparse, herror, rfl, hnames⟩

end Icarius
