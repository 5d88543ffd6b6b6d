/-
  Icarius.Libc.History

  The history of the shell, `src/x86/user/libc/history.c`: a ring of 256 lines with a
  cursor that the arrow keys move.  `cursor = head` is the empty line behind the newest
  one; where the ring is full it is also the oldest line.

  A `Navigator` says what the arrow keys are for.  Directly behind `history_add` the
  history is one, at the empty line, unless the ring is full or the line was ignored as
  a repetition while the cursor stood elsewhere.
-/

import Icarius.Lib.Run
import Mathlib.Data.List.Basic

namespace Icarius

open Icarius.Lib

/-! ## history.c -/

/-- `HISTORY_SIZE` -/
def historySize : Nat := 256

/-- `HISTORY_LINE_MAX` -/
def historyLineMax : Nat := 256

/-- A line, less the NUL behind it -/
abbrev Line := List UInt8

/-- `history_t` -/
structure History where
  entries : Nat → Line
  head : Nat
  count : Nat
  cursor : Nat

namespace History

/-- `icarsh_history` at the start -/
def boot : History := ⟨fun _ => [], 0, 0, 0⟩

/-- The line is the last one added. -/
def isSameLine (self : History) (line : Line) : Bool :=
  let lastLine := self.head + historySize - 1
  self.entries (lastLine % historySize) == line

/-- The line is ignored as a repetition of the last one. -/
def ignores (self : History) (line : Line) : Bool := self.count > 0 && self.isSameLine line

/-- `history_add`; `strncpy` copies `HISTORY_LINE_MAX - 1` bytes at most. -/
def add (self : History) (line : Line) : History :=
  if line.length = 0 then self
  else if self.ignores line then self
  else
    let head := (self.head + 1) % historySize
    { entries := fun i =>
        if i = self.head then line.take (historyLineMax - 1) else self.entries i
      head := head
      count := if self.count < historySize then self.count + 1 else self.count
      cursor := head }

/-- The index of the oldest line -/
def oldestIndex (self : History) : Nat := (self.head + historySize - self.count) % historySize

/-- `history_get_older`; no line is the null pointer. -/
def getOlder (self : History) : Option Line × History :=
  if self.count = 0 then (none, self)
  else if self.cursor = self.oldestIndex then (some (self.entries self.oldestIndex), self)
  else
    let olderIndex := (self.cursor + historySize - 1) % historySize
    (some (self.entries olderIndex), { self with cursor := olderIndex })

/-- `history_get_newer` -/
def getNewer (self : History) : Option Line × History :=
  if self.count = 0 then (none, self)
  else if self.cursor = self.head then (some [], self)
  else
    let nextIndex := (self.cursor + 1) % historySize
    let self := { self with cursor := nextIndex }
    if nextIndex = self.head then (some [], self) else (some (self.entries nextIndex), self)

end History

/-! ## The arrow keys -/

/-- `KEY_UP` and `KEY_DOWN` -/
inductive Arrow
  | up
  | down
  deriving DecidableEq, Repr

/-- The lines that arrow keys in a row bring up -/
def History.press (s : History) : List Arrow → List (Option Line)
  | [] => []
  | .up :: keys => s.getOlder.1 :: s.getOlder.2.press keys
  | .down :: keys => s.getNewer.1 :: s.getNewer.2.press keys

/-- Lines, the newest first, and how many of them back the user is: 0 is the empty line
    behind the newest one. -/
structure Navigator where
  lines : List Line
  back : Nat

namespace Navigator

/-- One line back, or the oldest one again -/
def older (s : Navigator) : Option Line × Navigator :=
  let back := min (s.back + 1) s.lines.length
  (s.lines[back - 1]?, { s with back := back })

/-- One line forth, or the empty line -/
def newer (s : Navigator) : Option Line × Navigator :=
  let back := s.back - 1
  (if back = 0 then some [] else s.lines[back - 1]?, { s with back := back })

/-- The lines that arrow keys in a row bring up -/
def press (s : Navigator) : List Arrow → List (Option Line)
  | [] => []
  | .up :: keys => s.older.1 :: s.older.2.press keys
  | .down :: keys => s.newer.1 :: s.newer.2.press keys

/-- The `k`-th `KEY_UP` brings up the `k`-th line, and the oldest one from there on. -/
theorem press_up (s : Navigator) (n : Nat) :
    s.press (List.replicate n .up)
      = (List.range n).map fun i => s.lines[min (s.back + i + 1) s.lines.length - 1]? := by
  induction n generalizing s with
  | zero => rfl
  | succ n ih =>
      rw [List.replicate_succ, press, ih, List.range_succ_eq_map, List.map_cons, List.map_map]
      refine congrArg₂ List.cons rfl (List.map_congr_left fun i _ => ?_)
      show s.lines[min (min (s.back + 1) s.lines.length + i + 1) s.lines.length - 1]?
        = s.lines[min (s.back + (i + 1) + 1) s.lines.length - 1]?
      congr 1
      omega

end Navigator

namespace History

/-- The line added `i` lines before the last one -/
def nth (s : History) (i : Nat) : Line := s.entries ((s.head + 255 - i) % 256)

/-- The stored lines, the newest first -/
def stored (s : History) : List Line := (List.range s.count).map s.nth

/-- From the empty line on, the arrow keys bring up the stored lines. -/
def Navigates (s : History) : Prop :=
  ∀ keys, s.press keys = Navigator.press ⟨s.stored, 0⟩ keys

/-! ## The cursor -/

/-- The history with the cursor `p` lines back -/
def at_ (s : History) (p : Nat) : History := { s with cursor := (s.head + 256 - p) % 256 }

/-- The indices are inside the ring, and no stored line repeats the one before it. -/
structure WellFormed (s : History) : Prop where
  head_lt : s.head < 256
  count_le : s.count ≤ 256
  apart : ∀ i, i + 1 < s.count → s.nth i ≠ s.nth (i + 1)

@[simp] theorem length_stored (s : History) : s.stored.length = s.count := by
  simp [stored]

theorem getElem?_stored {s : History} {i : Nat} (h : i < s.count) :
    s.stored[i]? = some (s.nth i) := by
  simp [stored, h]

@[simp] theorem stored_at (s : History) (p : Nat) : (s.at_ p).stored = s.stored := rfl

@[simp] theorem at_at (s : History) (p q : Nat) : (s.at_ p).at_ q = s.at_ q := rfl

variable {s : History} {p : Nat}

/-- Steps that come to the same index -/
theorem at_congr {q : Nat} (h : (s.head + 256 - p) % 256 = (s.head + 256 - q) % 256) :
    s.at_ p = s.at_ q := by
  rw [at_, at_, h]

/-- One step back, from the empty line of a ring that is not full or from a line. -/
theorem getOlder_at (h : s.WellFormed) (hpos : 0 < s.count) (hp : p ≤ s.count)
    (hfull : p = 0 → s.count < 256) :
    (s.at_ p).getOlder = (s.stored[min (p + 1) s.count - 1]?, s.at_ (min (p + 1) s.count)) := by
  have hhead := h.head_lt
  have hcount := h.count_le
  have hne : (s.at_ p).count ≠ 0 := Nat.ne_of_gt hpos
  rw [getOlder, if_neg hne]
  have hline : s.stored[min (p + 1) s.count - 1]?
      = some (s.entries ((s.head + 256 - min (p + 1) s.count) % 256)) := by
    rw [getElem?_stored (by omega), nth]
    congr 3
    omega
  rw [hline]
  by_cases hold : p = s.count
  · have hcur : (s.at_ p).cursor = (s.at_ p).oldestIndex := by
      rw [hold]
      rfl
    have hmin : min (p + 1) s.count = p := by omega
    rw [if_pos hcur, hmin, hold]
    rfl
  · have hcur : (s.at_ p).cursor ≠ (s.at_ p).oldestIndex := by
      show (s.head + 256 - p) % 256 ≠ (s.head + 256 - s.count) % 256
      omega
    have hmin : min (p + 1) s.count = p + 1 := by omega
    have hidx : ((s.at_ p).cursor + historySize - 1) % historySize
        = (s.head + 256 - (p + 1)) % 256 := by
      show ((s.head + 256 - p) % 256 + 256 - 1) % 256 = _
      omega
    rw [if_neg hcur, hmin]
    simp only [hidx]
    rfl

/-- One step forth, less than once around the ring. -/
theorem getNewer_at (h : s.WellFormed) (hpos : 0 < s.count) (hp : p ≤ s.count)
    (hfull : p < 256) :
    (s.at_ p).getNewer
      = (if p - 1 = 0 then some [] else s.stored[p - 1 - 1]?, s.at_ (p - 1)) := by
  have hhead := h.head_lt
  have hne : (s.at_ p).count ≠ 0 := Nat.ne_of_gt hpos
  rw [getNewer, if_neg hne]
  by_cases hzero : p = 0
  · have hcur : (s.at_ p).cursor = (s.at_ p).head := by
      show (s.head + 256 - p) % 256 = s.head
      omega
    rw [if_pos hcur, hzero]
    rfl
  · have hcur : (s.at_ p).cursor ≠ (s.at_ p).head := by
      show (s.head + 256 - p) % 256 ≠ s.head
      omega
    have hidx : ((s.at_ p).cursor + 1) % historySize = (s.head + 256 - (p - 1)) % 256 := by
      show ((s.head + 256 - p) % 256 + 1) % 256 = _
      omega
    rw [if_neg hcur]
    simp only [hidx]
    by_cases hone : p - 1 = 0
    · have hhome : (s.head + 256 - (p - 1)) % 256 = s.head := by omega
      rw [if_pos hone]
      exact if_pos hhome
    · have haway : (s.head + 256 - (p - 1)) % 256 ≠ s.head := by omega
      have hline : s.stored[p - 1 - 1]?
          = some (s.entries ((s.head + 256 - (p - 1)) % 256)) := by
        rw [getElem?_stored (by omega), nth]
        congr 3
        omega
      rw [if_neg hone, hline]
      exact if_neg haway

/-- Where the ring is not full, the history is a navigator. -/
theorem press_at (h : s.WellFormed) (hpos : 0 < s.count) (hfull : s.count < 256)
    (hp : p ≤ s.count) (keys : List Arrow) :
    (s.at_ p).press keys = Navigator.press ⟨s.stored, p⟩ keys := by
  induction keys generalizing p with
  | nil => rfl
  | cons key keys ih =>
      cases key with
      | up =>
          have holder := getOlder_at h hpos hp fun _ => hfull
          rw [press, Navigator.press, holder]
          simp only [Navigator.older, length_stored]
          rw [ih (Nat.min_le_right _ _)]
      | down =>
          have hnewer := getNewer_at h hpos hp (by omega)
          rw [press, Navigator.press, hnewer]
          simp only [Navigator.newer]
          rw [ih (by omega)]

/-- From a line on, `KEY_UP` is that of a navigator also where the ring is full. -/
theorem press_up_at (h : s.WellFormed) (hone : 1 ≤ p) (hp : p ≤ s.count) (n : Nat) :
    (s.at_ p).press (List.replicate n .up)
      = Navigator.press ⟨s.stored, p⟩ (List.replicate n .up) := by
  induction n generalizing p with
  | zero => rfl
  | succ n ih =>
      have holder := getOlder_at h (by omega) hp fun hzero => by omega
      rw [List.replicate_succ, press, Navigator.press, holder]
      simp only [Navigator.older, length_stored]
      rw [ih (by omega) (Nat.min_le_right _ _)]

/-- A history of two lines or more that stands at one of them is not at the empty line:
    `KEY_UP` stops at the oldest line too early. -/
theorem not_navigates_at (h : s.WellFormed) (hone : 1 ≤ p) (hp : p ≤ s.count)
    (htwo : 2 ≤ s.count) : ¬ (s.at_ p).Navigates := by
  intro hnav
  have hups : ∀ i, s.stored[min (p + i + 1) s.count - 1]? = s.stored[min (i + 1) s.count - 1]? := by
    intro i
    have hkeys := hnav (List.replicate (i + 1) .up)
    rw [press_up_at h hone hp, Navigator.press_up, Navigator.press_up] at hkeys
    have hlast := congrArg (fun l => l[i]?) hkeys
    simpa using hlast
  -- two lines in a row would both be the oldest one
  have holdest : ∀ i, s.count ≤ p + i + 1 → i + 1 ≤ s.count → s.nth (s.count - 1) = s.nth i := by
    intro i hge hle
    have heq := hups i
    have hmin : min (p + i + 1) s.count - 1 = s.count - 1 := by omega
    have hmin' : min (i + 1) s.count - 1 = i := by omega
    rw [hmin, hmin', getElem?_stored (by omega), getElem?_stored (by omega)] at heq
    exact Option.some.inj heq
  by_cases hlast : p = s.count
  · exact h.apart 0 (by omega)
      ((holdest 0 (by omega) (by omega)).symm.trans (holdest 1 (by omega) (by omega)))
  · exact h.apart (s.count - p - 1) (by omega)
      ((holdest (s.count - p - 1) (by omega) (by omega)).symm.trans
        (holdest (s.count - p - 1 + 1) (by omega) (by omega)))

/-- With one line, it makes no difference whether the user starts at it or behind it. -/
theorem press_one (hcount : s.count = 1) (hp : p ≤ 1) (keys : List Arrow) :
    Navigator.press ⟨s.stored, p⟩ keys = Navigator.press ⟨s.stored, 0⟩ keys := by
  cases keys with
  | nil => rfl
  | cons key keys =>
      cases key with
      | up =>
          have hmin : min (p + 1) 1 = min (0 + 1) 1 := by omega
          simp only [Navigator.press, Navigator.older, length_stored, hcount, hmin]
      | down =>
          have hzero : p - 1 = 0 := by omega
          simp only [Navigator.press, Navigator.newer, hzero, Nat.zero_sub]

/-! ## Runs -/

/-- A call of the shell's `readline` -/
inductive HistoryCall
  | add (line : Line)
  | getOlder
  | getNewer

/-- Make a call. -/
def step (s : History) : HistoryCall → Option History
  | .add line => some (s.add line)
  | .getOlder => some s.getOlder.2
  | .getNewer => some s.getNewer.2

/-- A line of less than `HISTORY_LINE_MAX` characters -/
def shortLine (_ : History) : HistoryCall → Prop
  | .add line => line.length < historyLineMax
  | _ => True

/-- The invariant of a run: the cursor stands at the empty line or at a stored one. -/
def Inv (s : History) : Prop := s.WellFormed ∧ ∃ p ≤ s.count, s = s.at_ p

theorem inv_boot : boot.Inv :=
  ⟨⟨by decide, by decide, fun _ h => absurd h (Nat.not_lt_zero _)⟩, 0, Nat.le_refl 0, rfl⟩

theorem WellFormed.at_ (h : s.WellFormed) (p : Nat) : (s.at_ p).WellFormed :=
  ⟨h.head_lt, h.count_le, h.apart⟩

theorem inv_at (h : s.WellFormed) (hp : p ≤ s.count) : (s.at_ p).Inv := ⟨h.at_ p, p, hp, rfl⟩

theorem add_nil (s : History) : s.add [] = s := if_pos rfl

theorem add_of_ignores {line : Line} (hsame : s.ignores line = true) : s.add line = s := by
  rw [add, hsame, if_pos rfl]
  split <;> rfl

/-- The ignored lines are those that repeat the newest one. -/
theorem ignores_iff (s : History) (line : Line) :
    s.ignores line = true ↔ 0 < s.count ∧ s.nth 0 = line := by
  have hidx : (s.head + historySize - 1) % historySize = (s.head + 255 - 0) % 256 := rfl
  simp only [ignores, isSameLine, hidx, Bool.and_eq_true, decide_eq_true_eq, beq_iff_eq, nth,
    gt_iff_lt]

section Add

variable {line : Line} (h : s.WellFormed) (hne : line ≠ []) (hlt : line.length < historyLineMax)
  (hnew : s.ignores line = false)
include h hne hlt hnew

/-- The history with a line that is not ignored -/
theorem add_eq : s.add line =
    { entries := fun i => if i = s.head then line else s.entries i
      head := (s.head + 1) % 256
      count := min (s.count + 1) 256
      cursor := (s.head + 1) % 256 } := by
  have hcount := h.count_le
  have hlen : ¬ line.length = 0 := fun hzero => hne (List.length_eq_zero_iff.mp hzero)
  have htake : line.take (historyLineMax - 1) = line := List.take_of_length_le (by
    simp only [historyLineMax] at hlt ⊢
    omega)
  have hmin : (if s.count < historySize then s.count + 1 else s.count) = min (s.count + 1) 256 := by
    by_cases hroom : s.count < historySize
    · have hroom' : s.count < 256 := hroom
      rw [if_pos hroom]
      omega
    · have hroom' : ¬ s.count < 256 := hroom
      rw [if_neg hroom]
      omega
  rw [add, if_neg hlen, hnew, htake, hmin]
  rfl

/-- The ring holds 256 lines, so the slot of the new line is nobody's below 255. -/
theorem nth_add : (s.add line).nth 0 = line ∧ ∀ i < 255, (s.add line).nth (i + 1) = s.nth i := by
  have hhead := h.head_lt
  rw [add_eq h hne hlt hnew]
  constructor
  · have hslot : ((s.head + 1) % 256 + 255 - 0) % 256 = s.head := by omega
    simp only [nth, hslot, if_true]
  · intro i hi
    have hslot : ((s.head + 1) % 256 + 255 - (i + 1)) % 256 = (s.head + 255 - i) % 256 := by omega
    have hother : (s.head + 255 - i) % 256 ≠ s.head := by omega
    simp only [nth, hslot]
    exact if_neg hother

/-- A line that is not ignored becomes the newest one, and the cursor stands behind it. -/
theorem add_spec : (s.add line).WellFormed ∧ s.add line = (s.add line).at_ 0
    ∧ (s.add line).count = min (s.count + 1) 256 := by
  have hadd := add_eq h hne hlt hnew
  obtain ⟨hfirst, hrest⟩ := nth_add h hne hlt hnew
  have hcount : (s.add line).count = min (s.count + 1) 256 := congrArg count hadd
  have hhead : (s.add line).head = (s.head + 1) % 256 := congrArg head hadd
  have hcursor : (s.add line).cursor = (s.head + 1) % 256 := congrArg cursor hadd
  refine ⟨⟨?_, ?_, ?_⟩, ?_, hcount⟩
  · rw [hhead]
    exact Nat.mod_lt _ (by decide)
  · rw [hcount]
    exact Nat.min_le_right _ _
  · intro i hi
    rw [hcount] at hi
    -- the new line and the newest one before it differ, since it was not ignored
    cases i with
    | zero =>
        rw [hfirst, hrest 0 (by omega)]
        intro heq
        have hsame : s.ignores line = true :=
          (ignores_iff s line).mpr ⟨by omega, heq.symm⟩
        rw [hnew] at hsame
        cases hsame
    | succ i =>
        rw [hrest i (by omega), hrest (i + 1) (by omega)]
        exact h.apart i (by omega)
  · have hhome : (s.add line).cursor = ((s.add line).head + 256 - 0) % 256 := by
      rw [hcursor, hhead]
      omega
    rw [at_, ← hhome]

end Add

theorem Inv.add {line : Line} (h : s.Inv) (hlt : line.length < historyLineMax) :
    (s.add line).Inv := by
  by_cases hnil : line = []
  · rw [hnil, add_nil]
    exact h
  · cases hnew : s.ignores line with
    | true =>
        rw [add_of_ignores hnew]
        exact h
    | false =>
        obtain ⟨hwf, hat, -⟩ := add_spec h.1 hnil hlt hnew
        exact ⟨hwf, 0, Nat.zero_le _, hat⟩

theorem Inv.getOlder (h : s.Inv) : s.getOlder.2.Inv := by
  obtain ⟨hwf, p, hp, hat⟩ := h
  have hhead := hwf.head_lt
  have hcount := hwf.count_le
  by_cases hpos : 0 < s.count
  · by_cases hedge : p = 0 → s.count < 256
    · have holder := getOlder_at hwf hpos hp hedge
      rw [← hat] at holder
      rw [holder]
      exact inv_at hwf (Nat.min_le_right _ _)
    · -- the empty line of a full ring is its oldest line too
      obtain ⟨hzero, hfull⟩ := Classical.not_imp.mp hedge
      have hwhole : s = s.at_ 256 := hat.trans (at_congr (by omega))
      have holder := getOlder_at (p := 256) hwf hpos (by omega) fun h => absurd h (by decide)
      rw [← hwhole] at holder
      rw [holder]
      exact inv_at hwf (Nat.min_le_right _ _)
  · have hnone : s.getOlder.2 = s := by
      rw [History.getOlder, if_pos (by omega)]
    rw [hnone]
    exact ⟨hwf, p, hp, hat⟩

theorem Inv.getNewer (h : s.Inv) : s.getNewer.2.Inv := by
  obtain ⟨hwf, p, hp, hat⟩ := h
  have hhead := hwf.head_lt
  have hcount := hwf.count_le
  by_cases hpos : 0 < s.count
  · by_cases hedge : p < 256
    · have hnewer := getNewer_at hwf hpos hp hedge
      rw [← hat] at hnewer
      rw [hnewer]
      exact inv_at hwf (by omega)
    · -- around the ring once: the cursor stands at the empty line again
      have hhome : s = s.at_ 0 := hat.trans (at_congr (by omega))
      have hnewer := getNewer_at (p := 0) hwf hpos (by omega) (by decide)
      rw [← hhome] at hnewer
      rw [hnewer]
      exact ⟨hwf, p, hp, hat⟩
  · have hnone : s.getNewer.2 = s := by
      rw [History.getNewer, if_pos (by omega)]
    rw [hnone]
    exact ⟨hwf, p, hp, hat⟩

/-- Every call keeps the invariant. -/
theorem Inv.step {s' : History} {c : HistoryCall} (h : s.Inv) (hshort : s.shortLine c)
    (hstep : s.step c = some s') : s'.Inv := by
  cases c with
  | add line => exact Option.some.inj hstep ▸ h.add hshort
  | getOlder => exact Option.some.inj hstep ▸ h.getOlder
  | getNewer => exact Option.some.inj hstep ▸ h.getNewer

/-- What `history_add` needs for the arrow keys to work behind it: the ring is not full
    afterwards, and a line that is ignored finds the cursor at the empty line, or no line
    but itself. -/
def AddNavigates (s : History) (line : Line) : Prop :=
  if s.ignores line then s.count < 256 ∧ (s.cursor = s.head ∨ s.count = 1)
  else s.count < 255

/-- In every run, directly behind `history_add` of a line that is not empty the arrow keys
    bring up the stored lines in order, under this condition and no other. -/
theorem navigates_add_iff (calls : List HistoryCall) (s : History)
    (hrun : Runs step shortLine boot calls s) (line : Line) (hne : line ≠ [])
    (hlt : line.length < historyLineMax) :
    (s.add line).Navigates ↔ s.AddNavigates line := by
  obtain ⟨hwf, p, hp, hat⟩ := hrun.invariant Inv inv_boot
    fun _ _ _ h hshort hstep => h.step hshort hstep
  have hhead := hwf.head_lt
  have hcount := hwf.count_le
  unfold AddNavigates
  cases hnew : s.ignores line with
  | false =>
      obtain ⟨hwf', hat', hcount'⟩ := add_spec hwf hne hlt hnew
      rw [if_neg (by decide)]
      constructor
      · intro hnav
        by_contra hfull
        have hhead' := hwf'.head_lt
        have hwhole : s.add line = (s.add line).at_ 256 := hat'.trans (at_congr (by omega))
        rw [hwhole] at hnav
        exact not_navigates_at hwf' (by decide) (by omega) (by omega) hnav
      · intro hroom keys
        have hkeys := press_at hwf' (by omega) (by omega) (Nat.zero_le _) keys
        rwa [← hat'] at hkeys
  | true =>
      have hpos := ((ignores_iff s line).mp hnew).1
      have hcursor : s.cursor = (s.head + 256 - p) % 256 := congrArg cursor hat
      rw [if_pos rfl, add_of_ignores hnew]
      constructor
      · intro hnav
        have hroom : s.count < 256 := by
          by_contra hfull
          -- a full ring: count the empty line as the oldest one
          obtain ⟨q, hq, hqle, hatq⟩ : ∃ q, 1 ≤ q ∧ q ≤ s.count ∧ s = s.at_ q := by
            by_cases hzero : p = 0
            · exact ⟨256, by decide, by omega, hat.trans (at_congr (by omega))⟩
            · exact ⟨p, by omega, hp, hat⟩
          rw [hatq] at hnav
          exact not_navigates_at hwf hq hqle (by omega) hnav
        refine ⟨hroom, ?_⟩
        by_contra hneither
        obtain ⟨haway, hmany⟩ := not_or.mp hneither
        have hone : 1 ≤ p := by
          by_contra hzero
          exact haway (by omega)
        rw [hat] at hnav
        exact not_navigates_at hwf hone hp (by omega) hnav
      · rintro ⟨hroom, hplace⟩ keys
        have hkeys := press_at hwf hpos hroom hp keys
        rw [← hat] at hkeys
        rw [hkeys]
        rcases hplace with hhome | hone
        · have hzero : p = 0 := by omega
          rw [hzero]
        · exact press_one hone (by omega) keys

/-- The arrow keys behind `"a"` and `"b"`. -/
theorem navigates_add_two : ∃ s, Runs step shortLine boot [.add [97]] s ∧
    ((s.add [98]).Navigates ↔ s.AddNavigates [98]) := by
  have hshort : ([97] : Line).length < historyLineMax := by decide
  have hrun : Runs step shortLine boot [.add [97]] (boot.add [97]) := Runs.nil.snoc hshort rfl
  exact ⟨_, hrun, navigates_add_iff _ _ hrun [98] (by decide) (by decide)⟩

/-! ## A line entered twice -/

/-- `"a"` and `"b"` are entered, and `"b"` is brought up. -/
def twoLines : History := ((boot.add [97]).add [98]).getOlder.2

theorem runs_twoLines : Runs step shortLine boot [.add [97], .add [98], .getOlder] twoLines := by
  have hshort : ∀ (s : History) (c : UInt8), s.shortLine (.add [c]) :=
    fun _ _ => show 1 < historyLineMax by decide
  exact ((Runs.nil.snoc (hshort _ 97) rfl).snoc (hshort _ 98) rfl).snoc trivial rfl

/-- `"b"` is entered again, and `KEY_UP` brings up `"a"`. -/
theorem exists_line_skipped : ¬ ∀ (calls : List HistoryCall) (s : History) (line : Line),
    Runs step shortLine boot calls s → line ≠ [] → line.length < historyLineMax →
      (s.add line).Navigates := by
  intro hall
  have hnav := hall _ twoLines [98] runs_twoLines (by decide) (by decide) [.up]
  have hstored : (twoLines.add [98]).stored = [[98], [97]] := by decide
  have hskipped : (twoLines.add [98]).press [.up] = [some [97]] := by decide
  rw [hstored, hskipped] at hnav
  exact absurd hnav (by decide)

end History

end Icarius
