/-
  Icarius.Fs.PathNames

  The names in the nodes of a path.  What the lexer makes of every word holds of every
  name that the parser reads; so a name starts with a letter or is empty, and its
  characters are printable.
-/

import Icarius.Fs.PathRead

namespace Icarius

open Icarius.Lib

/-! ## What holds of every token and every node -/

section Every

/-- What the lexer makes holds of every token of a text. -/
theorem pathTokens_every {P : PathToken → Prop}
    (hlex : ∀ {s : List UInt8} {c : UInt8} {cs : List UInt8}, 0 ∉ c :: cs →
      P (pathLexerLex ⟨s, c :: cs⟩).1) {text : List UInt8} (hnul : 0 ∉ text) :
    ∀ t ∈ pathTokens text, P t := by
  obtain ⟨n, hn⟩ : ∃ n, text.length ≤ n := ⟨_, Nat.le_refl _⟩
  induction n generalizing text with
  | zero =>
      rw [List.length_eq_zero_iff.mp (Nat.le_zero.mp hn)]
      intro t ht
      cases ht
  | succ n ih =>
      cases text with
      | nil =>
          intro t ht
          cases ht
      | cons c cs =>
          obtain ⟨type, w, rest, hlex', hsplit, hne, -⟩ := lex_cons (s := c :: cs) hnul
          have hlen : (c :: cs).length = w.length + rest.length := by
            rw [hsplit, List.length_append]
          have hpos : 0 < w.length := List.length_pos_iff.mpr hne
          have hrest : 0 ∉ rest := fun h => hnul (hsplit ▸ List.mem_append_right w h)
          have hfirst : P (pathLexerLex ⟨c :: cs, c :: cs⟩).1 := hlex hnul
          rw [hlex'] at hfirst
          rw [pathTokens_cons hnul hlex']
          intro t ht
          rcases List.mem_cons.mp ht with rfl | ht
          · exact hfirst
          · exact ih hrest (by omega) t ht

theorem skipErr_subset (ts : List PathToken) : ∀ t ∈ skipErr ts, t ∈ ts :=
  fun _ ht => (List.dropWhile_sublist _).subset ht

theorem readName_subset (name : PathToken) (ts : List PathToken) :
    ∀ t ∈ (readName name ts).2.2, t ∈ ts := by
  have hsub := skipErr_subset ts
  unfold readName
  split
  · intro t ht
    cases ht
  · rename_i dot ts₁ hts
    rw [hts] at hsub
    have hsub₁ := skipErr_subset ts₁
    split
    · split
      · intro t ht
        cases ht
      · rename_i ext ts₂ hts₁
        rw [hts₁] at hsub₁
        have hin : ∀ t ∈ ext :: ts₂, t ∈ ts :=
          fun t ht => hsub t (List.mem_cons_of_mem _ (hsub₁ t ht))
        split
        · exact fun t ht => hin t (List.mem_cons_of_mem _ (skipErr_subset ts₂ t ht))
        · exact hin
    · exact hsub

variable {P : PathToken → Prop} {Q : PathNode → Prop} (hempty : Q emptyNode)
  (hname : ∀ name ts, name.type = .ptIdentifier → P name → (∀ t ∈ ts, P t) →
    Q (readName name ts).1)
include hempty hname

theorem readEntry_every {ts rest : List PathToken} {node : PathNode} {error : Bool}
    (hts : ∀ t ∈ ts, P t) (h : readEntry ts = .ok (node, error, rest)) :
    Q node ∧ ∀ t ∈ rest, t ∈ ts := by
  cases ts with
  | nil =>
      obtain ⟨rfl, -, rfl⟩ : emptyNode = node ∧ false = error ∧ [] = rest := by
        simpa [readEntry] using h
      exact ⟨hempty, fun t ht => ht⟩
  | cons name ts =>
      by_cases htype : name.type = .ptIdentifier
      · simp only [readEntry, htype, if_true] at h
        split at h
        · cases h
        · have hnode := hname name ts htype (hts name List.mem_cons_self)
            fun t ht => hts t (List.mem_cons_of_mem name ht)
          have hsub := readName_subset name ts
          rw [Except.ok.inj h] at hnode hsub
          exact ⟨hnode, fun t ht => List.mem_cons_of_mem _ (hsub t ht)⟩
      · simp only [readEntry, htype, if_false, Except.ok.injEq, Prod.mk.injEq] at h
        obtain ⟨rfl, -, rfl⟩ := h
        exact ⟨hempty, fun t ht => ht⟩

theorem readEntries_every (fuel : Nat) {ts rest : List PathToken} {nodes : List PathNode}
    {error : Bool} (hts : ∀ t ∈ ts, P t)
    (h : readEntries fuel ts = .ok (nodes, error, rest)) : ∀ node ∈ nodes, Q node := by
  induction fuel generalizing ts nodes error rest with
  | zero =>
      obtain ⟨rfl, -⟩ := Prod.mk.inj (Except.ok.inj h)
      intro node hnode
      cases hnode
  | succ fuel ih =>
      cases ts with
      | nil =>
          obtain ⟨rfl, -⟩ := Prod.mk.inj (Except.ok.inj h)
          intro node hnode
          cases hnode
      | cons slash ts =>
          by_cases hslash : slash.type = .ptSlash
          · simp only [readEntries, hslash, if_true] at h
            have hsub : ∀ t ∈ skipErr ts, P t :=
              fun t ht => hts t (List.mem_cons_of_mem _ (skipErr_subset ts t ht))
            split at h
            · cases h
            · rename_i node error₁ ts₁ hentry
              obtain ⟨hnode, hin⟩ := readEntry_every hempty hname hsub hentry
              split at h
              · cases h
              · rename_i nodes' error₂ ts₂ hrest
                obtain ⟨rfl, -⟩ := Prod.mk.inj (Except.ok.inj h)
                have hrest' := ih (fun t ht => hsub t (hin t ht)) hrest
                intro n hn
                rcases List.mem_cons.mp hn with rfl | hn
                · exact hnode
                · exact hrest' n hn
          · simp only [readEntries, hslash, if_false, Except.ok.injEq, Prod.mk.injEq] at h
            obtain ⟨rfl, -⟩ := h
            intro node hnode
            cases hnode

/-- What is read for an entry holds of every node of a parsed path, the root apart: that is
    a node with the name `/` written to it. -/
theorem pathParserParse_every (hlex : ∀ {s : List UInt8} {c : UInt8} {cs : List UInt8},
      0 ∉ c :: cs → P (pathLexerLex ⟨s, c :: cs⟩).1)
    {text : List UInt8} (hnul : 0 ∉ text) {root : PathRoot} {p : PathParser}
    (h : pathParserParse {} text = .ok (root, p)) :
    ∀ node ∈ root.path, Q node ∨ ∃ named, Q named ∧
      node.identifier = named.identifier.write 0 (charSlash :: List.replicate 10 0) := by
  have hparse := pathParserParse_eq hnul
  cases hread : readPath text with
  | error fault =>
      rw [hread, h] at hparse
      cases hparse
  | ok r =>
      obtain ⟨root', error⟩ := r
      rw [hread] at hparse
      obtain ⟨p', hparse, -⟩ := hparse
      rw [h] at hparse
      obtain ⟨rfl, -⟩ := Prod.mk.inj (Except.ok.inj hparse)
      unfold readPath at hread
      simp only at hread
      -- the tokens behind the drive are tokens of the text
      have hdrive : ∀ t ∈ (readDrive (skipErr (pathTokens text))).2.2, P t := by
        intro t ht
        apply pathTokens_every hlex hnul t
        apply skipErr_subset _ t
        revert ht
        cases skipErr (pathTokens text) with
        | nil => exact id
        | cons letter ts =>
            simp only [readDrive]
            split
            · exact fun ht => List.mem_cons_of_mem _ (List.mem_of_mem_tail (skipErr_subset _ t ht))
            · exact id
      split at hread
      · cases hread
      · rename_i nodes error' rest hentries
        have hnodes := readEntries_every hempty hname _ hdrive hentries
        split at hread
        · cases hread
        · rename_i nodes' hroot
          obtain ⟨rfl, -⟩ := Prod.mk.inj (Except.ok.inj hread)
          revert hroot
          -- the only node of a path is renamed to the root's name
          cases nodes with
          | nil =>
              intro hroot
              cases hroot
          | cons node nodes =>
              cases nodes with
              | nil =>
                  simp only [pathParserNameRoot]
                  split
                  · intro hroot
                    rw [← Except.ok.inj hroot]
                    intro n hn
                    rw [List.mem_singleton.mp hn]
                    exact Or.inr ⟨node, hnodes node List.mem_cons_self, rfl⟩
                  · intro hroot
                    rw [← Except.ok.inj hroot]
                    exact fun n hn => Or.inl (hnodes n hn)
              | cons node' nodes =>
                  intro hroot
                  rw [← Except.ok.inj hroot]
                  exact fun n hn => Or.inl (hnodes n hn)

end Every

/-! ## First characters -/

/-- A node starts with a letter, or it has no name. -/
def StartsName (node : PathNode) : Prop := node.identifier 0 = 0 ∨ isalpha (node.identifier 0) = true

/-- An identifier starts with a letter. -/
def StartsWord (t : PathToken) : Prop :=
  t.type = .ptIdentifier → 0 < t.len ∧ ∃ c cs, t.start = c :: cs ∧ isalpha c = true

theorem startsWord_lex {s : List UInt8} {c : UInt8} {cs : List UInt8} (hnul : 0 ∉ c :: cs) :
    StartsWord (pathLexerLex ⟨s, c :: cs⟩).1 := by
  intro htype
  obtain ⟨type, w, rest, hlex, -, hne, -⟩ := lex_cons (s := s) hnul
  have halpha : isalpha c = true := by
    by_contra h
    rw [Bool.not_eq_true] at h
    rw [lex_char (fun h => hnul (h ▸ List.mem_cons_self)) h] at htype
    simp only [charType] at htype
    split at htype <;> (try split at htype) <;> (try split at htype) <;> cases htype
  rw [hlex]
  exact ⟨List.length_pos_iff.mpr hne, c, cs, rfl, halpha⟩

theorem PathToken.bytes_first {t : PathToken} {c : UInt8} {cs : List UInt8} {n : Nat}
    (hstart : t.start = c :: cs) (hn : 0 < n) : (t.bytes n)[0]? = some c := by
  obtain ⟨m, rfl⟩ : ∃ m, n = m + 1 := ⟨n - 1, by omega⟩
  rw [PathToken.bytes, hstart]
  rfl

/-- The first character of a copy to the front of a node. -/
theorem write_first (m : Mem) {bytes : List UInt8} {c : UInt8} (h : bytes[0]? = some c) :
    m.write 0 bytes 0 = c := by
  simp [Mem.write, h]

theorem startsName_dirNode {name : PathToken} (h : StartsWord name)
    (htype : name.type = .ptIdentifier) : StartsName (dirNode name) := by
  obtain ⟨hlen, c, cs, hstart, halpha⟩ := h htype
  have hfirst : (dirNode name).identifier 0 = c := write_first _ (PathToken.bytes_first hstart hlen)
  rw [StartsName, hfirst]
  exact Or.inr halpha

theorem startsName_fileNode {name ext : PathToken} (h : StartsWord name)
    (htype : name.type = .ptIdentifier) : StartsName (fileNode name ext) := by
  obtain ⟨hlen, c, cs, hstart, halpha⟩ := h htype
  have hpos : 0 < if name.len < 8 then name.len else 8 := by
    split <;> omega
  -- the dot and the extension are behind the first character
  have hfirst : (fileNode name ext).identifier 0 = c := by
    simp only [fileNode]
    generalize (if name.len < 8 then name.len else 8) = namelen at hpos
    have hbehind : ∀ (m : Mem) (a : Nat) (b : List UInt8), 0 < a → m.write a b 0 = m 0 := by
      intro m a b ha
      rw [Mem.write, if_neg (by omega)]
    rw [hbehind _ _ _ (by omega), hbehind _ _ _ (by omega), hbehind _ _ _ hpos]
    exact write_first _ (PathToken.bytes_first hstart hpos)
  rw [StartsName, hfirst]
  exact Or.inr halpha

theorem startsName_readName {name : PathToken} (ts : List PathToken) (h : StartsWord name)
    (htype : name.type = .ptIdentifier) : StartsName (readName name ts).1 := by
  unfold readName
  split
  · exact startsName_dirNode h htype
  · split
    · split
      · exact startsName_fileNode h htype
      · split <;> exact startsName_fileNode h htype
    · exact startsName_dirNode h htype

/-- Every node of a parsed path starts with a letter, has no name, or is the root. -/
theorem pathParserParse_starts {text : List UInt8} (hnul : 0 ∉ text) {root : PathRoot}
    {p : PathParser} (h : pathParserParse {} text = .ok (root, p)) :
    ∀ node ∈ root.path, StartsName node ∨ node.identifier 0 = charSlash := by
  have hevery := pathParserParse_every (Q := StartsName) (Or.inl rfl)
    (fun name ts htype hstarts _ => startsName_readName ts hstarts htype) startsWord_lex hnul h
  intro node hnode
  rcases hevery node hnode with hstarts | ⟨named, -, hroot⟩
  · exact .inl hstarts
  · have hslash : (charSlash :: List.replicate 10 0)[0]? = some charSlash := rfl
    rw [hroot]
    exact .inr (write_first named.identifier hslash)

/-! ## Characters of names -/

/-- A character of a name, or the NUL behind it -/
def NameChar (b : UInt8) : Prop := b = 0 ∨ 32 ≤ b.toNat ∧ b.toNat < 127

/-- Names and dots are made of such characters. -/
def NameChars (t : PathToken) : Prop :=
  t.type = .ptIdentifier ∨ t.type = .ptDot → ∀ b ∈ t.bytes t.len, NameChar b

theorem nameChar_of_isalpha {c : UInt8} (h : isalpha c = true) : NameChar c := by
  simp only [isalpha, Bool.or_eq_true, Bool.and_eq_true, decide_eq_true_eq, UInt8.le_iff_toNat_le]
    at h
  have h65 : (65 : UInt8).toNat = 65 := rfl
  have h90 : (90 : UInt8).toNat = 90 := rfl
  have h97 : (97 : UInt8).toNat = 97 := rfl
  have h122 : (122 : UInt8).toNat = 122 := rfl
  right
  omega

theorem nameChars_lex {s : List UInt8} {c : UInt8} {cs : List UInt8} (hnul : 0 ∉ c :: cs) :
    NameChars (pathLexerLex ⟨s, c :: cs⟩).1 := by
  intro htype
  obtain ⟨type, w, rest, hlex, hsplit, -, -, -, hword, hdot⟩ := lex_cons (s := s) hnul
  have hbytes : PathToken.bytes ⟨type, c :: cs, w.length⟩ w.length = w := by
    rw [PathToken.bytes, hsplit, List.append_assoc, List.take_left]
  rw [hlex] at htype ⊢
  rw [hbytes]
  rcases htype with htype | htype
  · exact fun b hb => nameChar_of_isalpha (hword htype b hb)
  · rw [hdot htype]
    intro b hb
    rw [List.mem_singleton.mp hb]
    exact .inr (by decide)

/-- A name is kept by a copy of such characters into it. -/
theorem nameChar_write {m : Mem} {a : Nat} {bytes : List UInt8} (hm : ∀ i, NameChar (m i))
    (hbytes : ∀ b ∈ bytes, NameChar b) (i : Nat) : NameChar (m.write a bytes i) := by
  rw [Mem.write]
  split
  · cases hget : bytes[i - a]? with
    | none => exact hm i
    | some b => exact hbytes b (List.mem_of_getElem? hget)
  · exact hm i

theorem nameChar_dirNode {name : PathToken} (h : ∀ b ∈ name.bytes name.len, NameChar b) (i : Nat) :
    NameChar ((dirNode name).identifier i) := by
  have hempty : ∀ j, NameChar (emptyNode.identifier j) := fun _ => .inl rfl
  exact nameChar_write (a := 0) hempty h i

theorem PathToken.bytes_subset (t : PathToken) {n k : Nat} (h : n ≤ k) :
    ∀ b ∈ t.bytes n, b ∈ t.bytes k :=
  fun _ hb => (List.take_sublist_take_left h).subset hb

theorem nameChar_fileNode {name ext : PathToken} (h : ∀ b ∈ name.bytes name.len, NameChar b)
    (hext : ∀ b ∈ ext.bytes ext.len, NameChar b) (i : Nat) :
    NameChar ((fileNode name ext).identifier i) := by
  have hnamelen : (if name.len < 8 then name.len else 8) ≤ name.len := by
    split <;> omega
  have hextlen : (if ext.len < 3 then ext.len else 3) ≤ ext.len := by
    split <;> omega
  simp only [fileNode]
  generalize (if name.len < 8 then name.len else 8) = namelen at hnamelen
  generalize (if ext.len < 3 then ext.len else 3) = extlen at hextlen
  have hdot : ∀ j, NameChar ((((dirNode name).identifier.write 0 (name.bytes namelen)).write
      namelen [charDot]) j) := by
    refine nameChar_write (nameChar_write (nameChar_dirNode h) ?_) ?_
    · exact fun b hb => h b (name.bytes_subset hnamelen b hb)
    · intro b hb
      rw [List.mem_singleton.mp hb]
      exact .inr (by decide)
  -- the byte behind the extension is overwritten
  rw [Mem.write]
  split
  · rcases Nat.eq_or_lt_of_le (show namelen + 1 + extlen ≤ i by assumption) with rfl | hlt
    · rw [Nat.sub_self]
      exact .inl rfl
    · rw [List.getElem?_eq_none (by rw [List.length_singleton]; omega), Option.getD_none,
        Mem.write_of_ge (by
          have hlen : (ext.bytes (extlen + 1)).length ≤ extlen + 1 := List.length_take_le _ _
          omega)]
      exact hdot i
  · rw [Mem.write]
    split
    · cases hget : (ext.bytes (extlen + 1))[i - (namelen + 1)]? with
      | none => exact hdot i
      | some b =>
          have hlt : i - (namelen + 1) < extlen := by omega
          rw [PathToken.bytes, List.getElem?_take_of_lt (by omega),
            ← List.getElem?_take_of_lt hlt] at hget
          exact hext b (ext.bytes_subset hextlen b (List.mem_of_getElem? hget))
    · exact hdot i

theorem nameChar_readName {name : PathToken} {ts : List PathToken} (htype : name.type = .ptIdentifier)
    (hname : NameChars name) (hts : ∀ t ∈ ts, NameChars t) (i : Nat) :
    NameChar ((readName name ts).1.identifier i) := by
  have hchars := hname (.inl htype)
  have hsub := skipErr_subset ts
  unfold readName
  split
  · exact nameChar_dirNode hchars i
  · rename_i dot ts₁ hskip
    rw [hskip] at hsub
    have hsub₁ := skipErr_subset ts₁
    split
    · rename_i hdot
      have hdotchars := hts dot (hsub dot List.mem_cons_self) (.inr hdot)
      split
      · exact nameChar_fileNode hchars hdotchars i
      · rename_i ext ts₂ hskip₁
        rw [hskip₁] at hsub₁
        split
        · rename_i hext
          exact nameChar_fileNode hchars (hts ext (hsub ext (List.mem_cons_of_mem _
            (hsub₁ ext List.mem_cons_self))) (.inl hext)) i
        · exact nameChar_fileNode hchars hdotchars i
    · exact nameChar_dirNode hchars i

/-- The names of a parsed path, up to the end of their nodes -/
theorem pathParserParse_nameChar {text : List UInt8} (hnul : 0 ∉ text) {root : PathRoot}
    {p : PathParser} (h : pathParserParse {} text = .ok (root, p)) :
    ∀ node ∈ root.path, ∀ i, NameChar (node.identifier i) := by
  have hevery := pathParserParse_every (Q := fun node => ∀ i, NameChar (node.identifier i))
    (fun _ => .inl rfl) (fun name ts htype => nameChar_readName htype) nameChars_lex hnul h
  intro node hnode
  rcases hevery node hnode with hchars | ⟨named, hnamed, hroot⟩
  · exact hchars
  · rw [hroot]
    refine nameChar_write hnamed fun b hb => ?_
    rcases List.mem_cons.mp hb with rfl | hb
    · exact .inr (by decide)
    · exact .inl (List.eq_of_mem_replicate hb)

end Icarius
