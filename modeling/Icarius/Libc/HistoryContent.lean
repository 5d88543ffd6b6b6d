/-
  Icarius.Libc.HistoryContent

  What the history of the shell holds: of the lines that were added, less the empty ones
  and those that repeat the line stored before them, the last 256.  `history_dump` prints
  them, the oldest one first.
-/

import Icarius.Libc.History
import Mathlib.Data.List.Destutter

namespace Icarius.History

/-- The indices and the lines that `history_dump` prints -/
def dump (self : History) : List (Nat × Line) :=
  (List.range self.count).map fun i =>
    let index := (self.oldestIndex + i) % historySize
    (index, self.entries index)

/-- The lines that are kept of those added: no empty line, and none that is equal to the one
    kept before it -/
def kept (lines : List Line) : List Line :=
  (lines.filter fun line => line ≠ []).destutter (· ≠ ·)

variable {s : History}

/-- `history_dump` goes through the stored lines from the oldest one on. -/
theorem dump_eq (h : s.WellFormed) : s.dump.map Prod.snd = s.stored.reverse := by
  have hhead := h.head_lt
  have hcount := h.count_le
  refine List.ext_getElem (by simp [dump]) fun i hi _ => ?_
  have hlt : i < s.count := by simpa [dump] using hi
  have hslot : (s.oldestIndex + i) % historySize = (s.head + 255 - (s.count - 1 - i)) % 256 := by
    show ((s.head + 256 - s.count) % 256 + i) % 256 = _
    omega
  simp only [dump, stored, nth, List.getElem_map, List.getElem_range, List.getElem_reverse,
    List.length_map, List.length_range, hslot]

/-- A line that is not ignored is put in front of the stored ones, and the 257th is lost. -/
theorem stored_add (h : s.WellFormed) {line : Line} (hne : line ≠ [])
    (hlt : line.length < historyLineMax) (hnew : s.ignores line = false) :
    (s.add line).stored = (line :: s.stored).take 256 := by
  obtain ⟨hfirst, hrest⟩ := nth_add h hne hlt hnew
  have hcount := (add_spec h hne hlt hnew).2.2
  have hlen : (s.add line).stored.length = ((line :: s.stored).take 256).length := by
    rw [length_stored, hcount, List.length_take, List.length_cons, length_stored]
    omega
  refine List.ext_getElem hlen fun i hi _ => ?_
  rw [length_stored, hcount] at hi
  rw [List.getElem_take]
  -- the line itself, and the ones that were stored before it
  cases i with
  | zero =>
      simp only [stored, List.getElem_map, List.getElem_range, List.getElem_cons_zero]
      exact hfirst
  | succ i =>
      simp only [stored, List.getElem_map, List.getElem_range, List.getElem_cons_succ]
      exact hrest i (by omega)

/-- The newest line of a history that is not empty -/
theorem nth_zero_of_stored {past : List Line} {last : Line}
    (h : s.stored = (past ++ [last]).reverse.take 256) : 0 < s.count ∧ s.nth 0 = last := by
  rw [List.reverse_append, List.reverse_singleton, List.singleton_append,
    List.take_succ_cons] at h
  have hpos : 0 < s.count := by
    rw [← length_stored, h]
    exact Nat.succ_pos _
  have hhead := getElem?_stored hpos
  rw [h] at hhead
  exact ⟨hpos, (Option.some.inj hhead).symm⟩

/-- The indices are inside their ranges. -/
structure InRange (s : History) : Prop extends s.WellFormed where
  cursor_lt : s.cursor < 256

/-- A call keeps the indices inside their ranges. -/
theorem InRange.add (h : s.InRange) {line : Line} (hlt : line.length < historyLineMax) :
    (s.add line).InRange := by
  by_cases hnil : line = []
  · rw [hnil, add_nil]
    exact h
  · cases hnew : s.ignores line with
    | true =>
        rw [add_of_ignores hnew]
        exact h
    | false =>
        obtain ⟨hwf, hhome, -⟩ := add_spec h.toWellFormed hnil hlt hnew
        refine ⟨hwf, ?_⟩
        rw [hhome]
        exact Nat.mod_lt _ (by decide)

/-- The lines added to a history whose lines are the last of `past` and `last` -/
theorem stored_foldl_add (lines : List Line)
    (hlt : ∀ line ∈ lines, line.length < historyLineMax) {past : List Line} {last : Line}
    (h : s.InRange) (hstored : s.stored = (past ++ [last]).reverse.take 256) :
    (lines.foldl History.add s).stored
        = (past ++ (lines.filter fun line => line ≠ []).destutter' (· ≠ ·) last).reverse.take 256 ∧
      (lines.foldl History.add s).InRange := by
  -- over the lines to come; `last` is the one a repetition is compared with
  induction lines generalizing s past last with
  | nil => exact ⟨hstored, h⟩
  | cons line lines ih =>
      have hline := hlt line List.mem_cons_self
      have hrest : ∀ line ∈ lines, line.length < historyLineMax :=
        fun l hl => hlt l (List.mem_cons_of_mem _ hl)
      rw [List.foldl_cons]
      by_cases hnil : line = []
      · rw [hnil, add_nil, List.filter_cons_of_neg (by simp)]
        exact ih hrest h hstored
      · rw [List.filter_cons_of_pos (by simpa using hnil)]
        obtain ⟨hpos, hnth⟩ := nth_zero_of_stored hstored
        by_cases hsame : last = line
        · -- a repetition is dropped on both sides
          have hignored : s.ignores line = true := (ignores_iff s line).mpr ⟨hpos, hnth.trans hsame⟩
          rw [add_of_ignores hignored, List.destutter'_cons_neg _ (not_not.mpr hsame)]
          exact ih hrest h hstored
        · have hnew : s.ignores line = false := by
            rw [Bool.eq_false_iff]
            intro hignored
            exact hsame (hnth.symm.trans ((ignores_iff s line).mp hignored).2)
          have hnext : (s.add line).stored = (past ++ [last] ++ [line]).reverse.take 256 := by
            have hfront : (past ++ [last] ++ [line]).reverse = line :: (past ++ [last]).reverse := by
              rw [List.reverse_append]
              rfl
            rw [stored_add h.toWellFormed hnil hline hnew, hstored, hfront, List.take_succ_cons,
              List.take_succ_cons, List.take_take]
            rfl
          have hfold := ih hrest (h.add hline) hnext
          rwa [List.append_assoc, List.singleton_append, ← List.destutter'_cons_pos _ hsame] at hfold

/-- After any lines of less than 256 characters, `history_dump` prints the last 256 of those
    that are kept, and the indices are inside their ranges. -/
theorem history_content (lines : List Line)
    (hlt : ∀ line ∈ lines, line.length < historyLineMax) :
    ((lines.foldl History.add boot).dump.map Prod.snd
        = (kept lines).drop ((kept lines).length - 256)) ∧
      (lines.foldl History.add boot).head < 256 ∧ (lines.foldl History.add boot).count ≤ 256 ∧
      (lines.foldl History.add boot).cursor < 256 := by
  have hboot : boot.InRange := ⟨inv_boot.1, by decide⟩
  have hall : (lines.foldl History.add boot).stored = (kept lines).reverse.take 256 ∧
      (lines.foldl History.add boot).InRange := by
    induction lines with
    | nil => exact ⟨rfl, hboot⟩
    | cons line lines ih =>
        have hline := hlt line List.mem_cons_self
        have hrest : ∀ line ∈ lines, line.length < historyLineMax :=
          fun l hl => hlt l (List.mem_cons_of_mem _ hl)
        rw [List.foldl_cons]
        by_cases hnil : line = []
        · rw [hnil, add_nil, kept, List.filter_cons_of_neg (by simp)]
          exact ih hrest
        · -- the first line of all
          have hstored : (boot.add line).stored = ([] ++ [line]).reverse.take 256 :=
            stored_add hboot.toWellFormed hnil hline rfl
          rw [kept, List.filter_cons_of_pos (by simpa using hnil)]
          exact stored_foldl_add lines hrest (hboot.add hline) hstored
  obtain ⟨hstored, hrange⟩ := hall
  refine ⟨?_, hrange.head_lt, hrange.count_le, hrange.cursor_lt⟩
  rw [dump_eq hrange.toWellFormed, hstored, List.reverse_take, List.reverse_reverse,
    List.length_reverse]

/-- `"a"`, an empty line, `"a"` again and `"b"` -/
theorem history_content_repeated :
    (([[97], [], [97], [98]].foldl History.add boot).dump.map Prod.snd
        = (kept [[97], [], [97], [98]]).drop ((kept [[97], [], [97], [98]]).length - 256)) ∧
      ([[97], [], [97], [98]].foldl History.add boot).head < 256 ∧
      ([[97], [], [97], [98]].foldl History.add boot).count ≤ 256 ∧
      ([[97], [], [97], [98]].foldl History.add boot).cursor < 256 :=
  history_content [[97], [], [97], [98]] (by decide)

end Icarius.History
