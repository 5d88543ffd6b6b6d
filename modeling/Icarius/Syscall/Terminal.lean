/-
  Icarius.Syscall.Terminal

  From the keyboard to the screen: the keys come to `readline` of the shell, and what it writes
  goes through `_sys_write` to the display.  The commands of the shell are any that write
  something.  Between two writes nobody takes memory from the kernel's heap for good; the
  buffer that `_sys_read` takes for a scancode it gives back.

  What has been typed is on the screen, behind the prompt and in front of the cursor, whatever
  was edited on the way, however long the line is and however far the screen has scrolled.
-/

import Icarius.Graphic.TextLine
import Icarius.Libc.Readline
import Icarius.Process.Spawn
import Icarius.Syscall.ConsoleWrite

namespace Icarius

open Icarius.Lib Layout

/-! ## What the shell writes -/

namespace Readline

/-- The writes of the cases `KEY_UP` and `KEY_DOWN` -/
def bringUpWrites (behind : Mem) (s : Readline) : Option Line → List (List UInt8)
  | none => []
  | some cmd =>
      List.replicate s.pos rubout ++ [(List.range historyLineMax).map (lineBytes behind cmd)]

/-- The writes of a round of `readline`; when it returns, those of the command behind it, and
    the prompt -/
def writes (behind : Mem) (execute : List Line → Line → List (List UInt8)) (s : Readline)
    (ev : KeyEvent) : List (List UInt8) :=
  if ¬ ev.pressed then []
  else
    match ev.code with
    | .enter => [10] :: execute s.lines (cText bufferSize (s.buffer.write s.pos [0])) ++ [prompt]
    | .backspace => if s.pos > 0 then [rubout] else []
    | .up => s.bringUpWrites behind s.history.getOlder.1
    | .down => s.bringUpWrites behind s.history.getNewer.1
    | _ => if ev.ascii ≠ 0 ∧ s.pos < bufferSize - 1 then [[ev.ascii]] else []

end Readline

/-- The shell, and the console it writes to -/
structure Terminal where
  shell : Readline
  console : KernelConsole

namespace Terminal

section Run

variable {display : Vbe} (env : WriteEnv display) (behind : Mem)
  (execute : List Line → Line → List (List UInt8))

/-- A scancode that `readline` has read -/
def feed (self : Terminal) (scancode : UInt8) : Option Terminal := do
  let ev := (translateScIntoEvent self.shell.shift scancode).1
  let console ← (self.shell.writes behind execute ev).foldlM env.sysWrite self.console
  return ⟨self.shell.feed behind scancode, console⟩

/-- The shell with its first prompt, on a display that has been cleared -/
def boot (buffer : Mem) (machine : Machine) : Option Terminal := do
  let cleared := VbeConsole.cleared display machine.kernel.mem
  let console ← env.sysWrite (KernelConsole.setConsole ⟨machine, display⟩ cleared) prompt
  return ⟨.boot buffer, console⟩

/-- The terminal after some scancodes -/
def run (buffer : Mem) (machine : Machine) (scancodes : List UInt8) : Option Terminal := do
  scancodes.foldlM (feed env behind execute) (← boot env buffer machine)

end Run

end Terminal

/-! ## What is typed has glyphs -/

/-- The text, and the lines that the arrow keys bring up, are of printable bytes. -/
structure Editor.Plain (e : Editor) : Prop where
  text : ∀ b ∈ e.text, TextScreen.Printable b
  entries : ∀ i, ∀ b ∈ e.history.entries i, TextScreen.Printable b

section Plain

variable {e : Editor} {line : Option Line} {history : History}

/-- A key that is neither of the two has a glyph, or no character. -/
theorem printable_ascii {shift : Bool} {scancode : UInt8}
    (henter : (translateScIntoEvent shift scancode).1.code ≠ .enter)
    (hback : (translateScIntoEvent shift scancode).1.code ≠ .backspace) :
    TextScreen.Printable (translateScIntoEvent shift scancode).1.ascii := by
  have hzero : (0 : UInt8).toNat < 128 ∧ (0 : UInt8) ≠ 13 := ⟨by decide, by decide⟩
  have htable : ∀ i < 58, i ≠ 14 → i ≠ 28 →
      ((scancodeAsciiShift.getD i 0).toNat < 128 ∧ scancodeAsciiShift.getD i 0 ≠ 13) ∧
        (scancodeAscii.getD i 0).toNat < 128 ∧ scancodeAscii.getD i 0 ≠ 13 := by
    decide +kernel
  obtain ⟨hne8, hne10⟩ := translate_ascii henter hback
  obtain ⟨hlt, hne13⟩ := translate_ascii_of (P := fun b => b.toNat < 128 ∧ b ≠ 13) hzero htable
    henter hback
  exact ⟨hlt, hne8, hne10, hne13⟩

/-- A line that the arrow keys bring up is an entry of the history, or empty. -/
theorem getOlder_entry {h : History} {cmd : Line} (hcmd : cmd ∈ h.getOlder.1) :
    ∃ i, cmd = h.entries i := by
  unfold History.getOlder at hcmd
  split at hcmd
  · exact absurd hcmd (Option.not_mem_none _)
  · split at hcmd <;> exact ⟨_, (Option.some.inj hcmd).symm⟩

theorem getNewer_entry {h : History} {cmd : Line} (hcmd : cmd ∈ h.getNewer.1) :
    cmd = [] ∨ ∃ i, cmd = h.entries i := by
  unfold History.getNewer at hcmd
  split at hcmd
  · exact absurd hcmd (Option.not_mem_none _)
  · split at hcmd
    · exact .inl (Option.some.inj hcmd).symm
    · dsimp only at hcmd
      split at hcmd
      · exact .inl (Option.some.inj hcmd).symm
      · exact .inr ⟨_, (Option.some.inj hcmd).symm⟩

theorem add_entry (h : History) (text : Line) (i : Nat) :
    (h.add text).entries i = h.entries i ∨ (h.add text).entries i = text.take (historyLineMax - 1) := by
  unfold History.add
  split
  · exact .inl rfl
  · split
    · exact .inl rfl
    · by_cases hi : i = h.head
      · exact .inr (if_pos hi)
      · exact .inl (if_neg hi)

theorem Editor.Plain.bringUp (h : e.Plain) (hentries : history.entries = e.history.entries)
    (hline : ∀ cmd ∈ line, ∀ b ∈ cmd, TextScreen.Printable b) :
    (e.bringUp (line, history)).Plain := by
  have hkeep : ∀ i, ∀ b ∈ history.entries i, TextScreen.Printable b := by
    rw [hentries]
    exact h.entries
  cases line with
  | none => exact ⟨h.text, hkeep⟩
  | some cmd => exact ⟨hline cmd rfl, hkeep⟩

theorem Editor.Plain.key (h : e.Plain) (htyped : ∀ i, Typed (e.history.entries i)) {ev : KeyEvent}
    (hascii : ev.code ≠ .enter → ev.code ≠ .backspace → TextScreen.Printable ev.ascii) :
    (e.key ev).Plain := by
  have htype : ev.code ≠ .enter → ev.code ≠ .backspace → Editor.Plain
      (if ev.ascii ≠ 0 ∧ e.text.length < 255 then { e with text := e.text ++ [ev.ascii] } else e) := by
    intro henter hback
    split
    · refine ⟨fun b hb => ?_, h.entries⟩
      rcases List.mem_append.mp hb with hb | hb
      · exact h.text b hb
      · rw [List.mem_singleton.mp hb]
        exact hascii henter hback
    · exact h
  unfold Editor.key
  split
  · exact h
  cases hcode : ev.code with
  | enter =>
      refine ⟨fun b hb => absurd hb List.not_mem_nil, fun i b hb => ?_⟩
      rcases add_entry e.history e.text i with heq | heq
      · exact h.entries i b (heq ▸ hb)
      · exact h.text b (List.mem_of_mem_take (heq ▸ hb))
  | backspace => exact ⟨fun b hb => h.text b (List.dropLast_subset e.text hb), h.entries⟩
  | up =>
      refine h.bringUp (typed_getOlder htyped).2 fun cmd hcmd b hb => ?_
      obtain ⟨i, rfl⟩ := getOlder_entry hcmd
      exact h.entries i b hb
  | down =>
      refine h.bringUp (typed_getNewer htyped).2 fun cmd hcmd b hb => ?_
      rcases getNewer_entry hcmd with rfl | ⟨i, rfl⟩
      · exact absurd hb List.not_mem_nil
      · exact h.entries i b hb
  | none | tab | esc | left | right | other =>
      exact htype (by rw [hcode]; rintro ⟨⟩) (by rw [hcode]; rintro ⟨⟩)

theorem Editor.Plain.feed (h : e.Plain) (htyped : ∀ i, Typed (e.history.entries i))
    (scancode : UInt8) : (e.feed scancode).Plain := by
  unfold Editor.feed
  have hascii := @printable_ascii e.shift scancode
  generalize translateScIntoEvent e.shift scancode = r at hascii ⊢
  obtain ⟨ev, shift⟩ := r
  have hplain : Editor.Plain { e with shift := shift } := ⟨h.text, h.entries⟩
  exact hplain.key htyped hascii

end Plain

/-! ## The screen follows the editor -/

namespace Terminal

/-- The line that is being edited, behind the prompt and in front of the cursor -/
structure Shows {display : Vbe} (env : WriteEnv display) (h : display.Mode) (L : Layout)
    (terminal : Terminal) (e : Editor) (t : TextScreen) : Prop where
  shell : Icarius.Shows terminal.shell e
  plain : e.Plain
  screen : env.Shows h L terminal.console t
  left : t.Left (prompt ++ e.text)

section Steps

variable {display : Vbe} {env : WriteEnv display} {h : display.Mode} {L : Layout} {behind : Mem}
  {machine : Machine} {execute : List Line → Line → List (List UInt8)} {s : Readline} {e : Editor} {t : TextScreen}

theorem printed_prompt : printed prompt = prompt := by decide +kernel

theorem printable_prompt : ∀ b ∈ prompt, TextScreen.Printable b := by
  have hall : ∀ b ∈ prompt, b.toNat < 128 ∧ b ≠ 8 ∧ b ≠ 10 ∧ b ≠ 13 := by decide +kernel
  exact fun b hb => ⟨(hall b hb).1, (hall b hb).2⟩

/-- `_flush_line` on the screen -/
theorem left_flushLine {left line : List UInt8} (hleft : t.Left (left ++ line)) (hgood : t.Good)
    (hroom : left.length + line.length ≤ t.room) :
    (t.puts ((List.replicate line.length rubout).flatMap printed)).Left left := by
  induction line using List.reverseRecOn generalizing t with
  | nil =>
      rw [List.append_nil] at hleft
      exact hleft
  | append_singleton line b ih =>
      rw [List.length_append, List.length_singleton] at hroom ⊢
      rw [← List.append_assoc] at hleft
      have hrubout : printed rubout = [8, 32, 8] := rfl
      rw [List.replicate_succ, List.flatMap_cons, TextScreen.puts_append, hrubout]
      apply ih
      · exact hleft.rubout hgood (by rw [List.length_append]; omega)
      · exact hgood.puts _
      · rw [TextScreen.puts_room]
        omega

/-- A shift key is no edit. -/
theorem shows_setShift (hshell : Icarius.Shows s e) (shift : Bool) :
    Icarius.Shows { s with shift := shift } { e with shift := shift } :=
  ⟨rfl, hshell.history, hshell.lines, hshell.pos, hshell.bytes, hshell.last, hshell.console,
    hshell.text, hshell.entries, hshell.entered⟩

/-- The writes of a line from the history -/
theorem left_bringUp (hshell : Icarius.Shows s e) (hleft : t.Left (prompt ++ e.text))
    (hgood : t.Good) (hroom : 267 ≤ t.room) {line : Option Line} {history : History}
    (htyped : ∀ cmd ∈ line, Typed cmd)
    (hline : ∀ cmd ∈ line, ∀ b ∈ cmd, TextScreen.Printable b) :
    (t.puts ((s.bringUpWrites behind line).flatMap printed)).Left
      (prompt ++ (e.bringUp (line, history)).text) := by
  cases line with
  | none => exact hleft
  | some cmd =>
      have htext := hshell.text.length_le
      have hcmd := (htyped cmd rfl).length_le
      have hprompt : prompt.length = 12 := rfl
      have hcopy : printed ((List.range historyLineMax).map (lineBytes behind cmd)) = cmd :=
        consoleWrite_line behind (htyped cmd rfl)
      have hflushed := left_flushLine hleft hgood (by omega)
      show (t.puts ((List.replicate s.pos rubout
        ++ [(List.range historyLineMax).map (lineBytes behind cmd)]).flatMap printed)).Left
          (prompt ++ cmd)
      rw [List.flatMap_append, List.flatMap_singleton, hcopy, TextScreen.puts_append, hshell.pos]
      apply hflushed.puts (hgood.puts _) (hline cmd rfl)
      rw [TextScreen.puts_room]
      omega

/-- What a character key writes: itself, while there is room in the line -/
theorem left_type (hshell : Icarius.Shows s e) (hleft : t.Left (prompt ++ e.text))
    (hgood : t.Good) (hroom : 267 ≤ t.room) {ascii : UInt8}
    (hascii : TextScreen.Printable ascii) :
    (t.puts ((if ascii ≠ 0 ∧ s.pos < bufferSize - 1 then [[ascii]] else []).flatMap
      printed)).Left
        (prompt ++ (if ascii ≠ 0 ∧ e.text.length < 255 then
          { e with text := e.text ++ [ascii] } else e).text) := by
  have hprompt : prompt.length = 12 := rfl
  rw [hshell.pos]
  by_cases hfits : ascii ≠ 0 ∧ e.text.length < 255
  · have hbuffer : ascii ≠ 0 ∧ e.text.length < bufferSize - 1 := hfits
    have hprinted : printed [ascii] = [ascii] :=
      List.takeWhile_cons_of_pos (by simpa using hfits.1)
    have hput := hleft.putc hgood hascii (by rw [List.length_append]; omega)
    rw [if_pos hbuffer, if_pos hfits, List.flatMap_singleton, hprinted]
    rw [List.append_assoc] at hput
    exact hput
  · have hbuffer : ¬ (ascii ≠ 0 ∧ e.text.length < bufferSize - 1) := hfits
    rw [if_neg hbuffer, if_neg hfits]
    exact hleft

/-- What the backspace key writes: nothing on an empty line -/
theorem left_backspace (hshell : Icarius.Shows s e) (hleft : t.Left (prompt ++ e.text))
    (hgood : t.Good) (hroom : 267 ≤ t.room) :
    (t.puts ((if s.pos > 0 then [rubout] else []).flatMap printed)).Left
      (prompt ++ e.text.dropLast) := by
  have hpos := hshell.pos
  have hle := hshell.text.length_le
  have hprompt : prompt.length = 12 := rfl
  rcases List.eq_nil_or_concat e.text with hnil | ⟨text, b, htext⟩
  · rw [hnil, List.length_nil] at hpos
    rw [hpos, if_neg (Nat.lt_irrefl 0), hnil]
    rw [hnil] at hleft
    exact hleft
  · have hlen : e.text.length = text.length + 1 := by
      rw [htext, List.concat_eq_append]
      exact List.length_append
    rw [if_pos (by omega), htext, List.concat_eq_append, List.dropLast_concat]
    rw [htext, List.concat_eq_append, ← List.append_assoc] at hleft
    exact hleft.rubout hgood (by rw [List.length_append]; omega)

/-- The writes of a round leave the line of the editor in front of the cursor. -/
theorem left_writes (hshell : Icarius.Shows s e) (hplain : e.Plain)
    (hleft : t.Left (prompt ++ e.text)) (hgood : t.Good) (hroom : 267 ≤ t.room) {ev : KeyEvent}
    (hascii : ev.code ≠ .enter → ev.code ≠ .backspace → TextScreen.Printable ev.ascii) :
    (t.puts ((s.writes behind execute ev).flatMap printed)).Left (prompt ++ (e.key ev).text) := by
  unfold Readline.writes Editor.key
  by_cases hpressed : ev.pressed = true
  · rw [if_neg (not_not.mpr hpressed), if_neg (not_not.mpr hpressed)]
    cases hcode : ev.code with
    | enter =>
        -- whatever the command writes, the prompt comes behind it
        rw [List.flatMap_append, List.flatMap_singleton, printed_prompt, TextScreen.puts_append]
        apply (TextScreen.left_nil _).puts (hgood.puts _) printable_prompt
        rw [TextScreen.puts_room]
        show 0 + 12 ≤ _
        omega
    | backspace =>
        exact left_backspace hshell hleft hgood hroom
    | up =>
        show (t.puts ((s.bringUpWrites behind s.history.getOlder.1).flatMap printed)).Left
          (prompt ++ (e.bringUp (e.history.getOlder.1, e.history.getOlder.2)).text)
        rw [hshell.history]
        apply left_bringUp hshell hleft hgood hroom (typed_getOlder hshell.entries).1
        intro cmd hcmd b hb
        obtain ⟨i, rfl⟩ := getOlder_entry hcmd
        exact hplain.entries i b hb
    | down =>
        show (t.puts ((s.bringUpWrites behind s.history.getNewer.1).flatMap printed)).Left
          (prompt ++ (e.bringUp (e.history.getNewer.1, e.history.getNewer.2)).text)
        rw [hshell.history]
        apply left_bringUp hshell hleft hgood hroom (typed_getNewer hshell.entries).1
        intro cmd hcmd b hb
        rcases getNewer_entry hcmd with rfl | ⟨i, rfl⟩
        · exact absurd hb List.not_mem_nil
        · exact hplain.entries i b hb
    | none | tab | esc | left | right | other =>
        exact left_type hshell hleft hgood hroom
          (hascii (by rw [hcode]; rintro ⟨⟩) (by rw [hcode]; rintro ⟨⟩))
  · rw [if_pos hpressed, if_pos hpressed]
    exact hleft

/-- What the writes of a line from the history have in common -/
theorem forall_bringUpWrites {P : List UInt8 → Prop} {line : Option Line} (hrubout : P rubout)
    (hline : ∀ cmd ∈ line, P ((List.range historyLineMax).map (lineBytes behind cmd))) :
    ∀ text ∈ s.bringUpWrites behind line, P text := by
  intro text hmem
  cases line with
  | none => exact absurd hmem List.not_mem_nil
  | some cmd =>
      rcases List.mem_append.mp hmem with hmem | hmem
      · rw [List.eq_of_mem_replicate hmem]
        exact hrubout
      · rw [List.mem_singleton.mp hmem]
        exact hline cmd rfl

/-- What all writes of a round have in common, if the commands' have it too -/
theorem forall_writes {P : List UInt8 → Prop} {ev : KeyEvent} (henter : P [10])
    (hprompt : P prompt) (hrubout : P rubout)
    (hexecute : ∀ lines line, ∀ text ∈ execute lines line, P text)
    (hline : ∀ cmd, cmd ∈ s.history.getOlder.1 ∨ cmd ∈ s.history.getNewer.1 →
      P ((List.range historyLineMax).map (lineBytes behind cmd)))
    (htype : ev.code ≠ .enter → ev.code ≠ .backspace → P [ev.ascii]) :
    ∀ text ∈ s.writes behind execute ev, P text := by
  -- of the backspace key and of the characters there is one write at most
  have hsingle : ∀ {c : Prop} [Decidable c] {text' : List UInt8}, P text' →
      ∀ text ∈ (if c then [text'] else []), P text := by
    intro c _ text' hp text hmem
    split at hmem
    · rw [List.mem_singleton.mp hmem]
      exact hp
    · exact absurd hmem List.not_mem_nil
  unfold Readline.writes
  split
  · exact fun text hmem => absurd hmem List.not_mem_nil
  cases hcode : ev.code with
  | enter =>
      intro text hmem
      rcases List.mem_append.mp hmem with hmem | hmem
      · rcases List.mem_cons.mp hmem with rfl | hmem
        · exact henter
        · exact hexecute _ _ text hmem
      · rw [List.mem_singleton.mp hmem]
        exact hprompt
  | backspace => exact hsingle hrubout
  | up => exact forall_bringUpWrites hrubout fun cmd hcmd => hline cmd (.inl hcmd)
  | down => exact forall_bringUpWrites hrubout fun cmd hcmd => hline cmd (.inr hcmd)
  | none | tab | esc | left | right | other =>
      exact hsingle (htype (by rw [hcode]; rintro ⟨⟩) (by rw [hcode]; rintro ⟨⟩))

/-- No write is longer than a line of the history, but for those of commands. -/
theorem length_writes
    (hexecute : ∀ lines line, ∀ text ∈ execute lines line, text.length < chunkPayload)
    (s : Readline) (ev : KeyEvent) :
    ∀ text ∈ s.writes behind execute ev, text.length < chunkPayload := by
  have hshort : ∀ text : List UInt8, text.length ≤ 256 → text.length < chunkPayload :=
    fun _ hle => Nat.lt_of_le_of_lt hle (by decide)
  refine forall_writes (hshort _ ?_) (hshort _ ?_) (hshort _ ?_) hexecute
    (fun cmd _ => hshort _ ?_) fun _ _ => hshort _ ?_
  · decide
  · decide
  · decide
  · rw [List.length_map, List.length_range]
    exact Nat.le_refl 256
  · exact Nat.succ_le_succ (Nat.zero_le 255)

/-- The shell itself prints no carriage return. -/
theorem no_return_writes (hshell : Icarius.Shows s e) (hplain : e.Plain) {ev : KeyEvent}
    (hascii : ev.code ≠ .enter → ev.code ≠ .backspace → TextScreen.Printable ev.ascii)
    (hexecute : ∀ lines line, ∀ text ∈ execute lines line, 13 ∉ printed text) :
    13 ∉ (s.writes behind execute ev).flatMap printed := by
  have hall : ∀ text ∈ s.writes behind execute ev, 13 ∉ printed text := by
    refine forall_writes ?_ ?_ ?_ hexecute (fun cmd hcmd => ?_) fun henter hback hmem => ?_
    · decide +kernel
    · decide +kernel
    · decide +kernel
    · rw [hshell.history] at hcmd
      have hboth : Typed cmd ∧ ∀ b ∈ cmd, TextScreen.Printable b := by
        rcases hcmd with hcmd | hcmd
        · obtain ⟨i, rfl⟩ := getOlder_entry hcmd
          exact ⟨hshell.entries i, hplain.entries i⟩
        · rcases getNewer_entry hcmd with rfl | ⟨i, rfl⟩
          · exact ⟨typed_nil, fun b hb => absurd hb List.not_mem_nil⟩
          · exact ⟨hshell.entries i, hplain.entries i⟩
      have hcopy : printed ((List.range historyLineMax).map (lineBytes behind cmd)) = cmd :=
        consoleWrite_line behind hboth.1
      rw [hcopy]
      exact fun hmem => (hboth.2 13 hmem).not_control.2.2 rfl
    · have hin := List.takeWhile_subset _ hmem
      exact (hascii henter hback).not_control.2.2 (List.mem_singleton.mp hin).symm
  intro hmem
  obtain ⟨text, htext, hin⟩ := List.mem_flatMap.mp hmem
  exact hall text htext hin

/-- The cells of a display, less its last line -/
theorem room_eq {terminal : Terminal} (hshows : Shows env h L terminal e t) :
    t.room = (display.height / 8 - 1) * (display.width / 8) := by
  unfold TextScreen.room
  rw [hshows.screen.screen.text.columns, hshows.screen.screen.text.rows]

theorem Shows.feed {terminal : Terminal} (hshows : Shows env h L terminal e t)
    (hroom : 267 ≤ (display.height / 8 - 1) * (display.width / 8))
    (hexecute : ∀ lines line, ∀ text ∈ execute lines line, text.length < chunkPayload)
    (scancode : UInt8) :
    ∃ next, terminal.feed env behind execute scancode = some next ∧
      next.shell = terminal.shell.feed behind scancode ∧
      ∃ text, Shows env h L next (e.feed scancode) (t.puts text) ∧
        ((∀ lines line, ∀ text ∈ execute lines line, 13 ∉ printed text) → 13 ∉ text) := by
  have hgood := hshows.screen.screen.good
  have hroom' : 267 ≤ t.room := by
    rw [room_eq hshows]
    exact hroom
  have hascii := @printable_ascii e.shift scancode
  have hshort : ∀ text ∈ terminal.shell.writes behind execute
      (translateScIntoEvent terminal.shell.shift scancode).1, text.length < chunkPayload :=
    length_writes hexecute terminal.shell _
  obtain ⟨console, hconsole, hscreen⟩ := WriteEnv.sysWrites_spec hshows.screen hshort
  have hfeed : terminal.feed env behind execute scancode
      = some ⟨terminal.shell.feed behind scancode, console⟩ := by
    unfold Terminal.feed
    dsimp only
    rw [hconsole]
    rfl
  refine ⟨_, hfeed, rfl, _, ⟨hshows.shell.feed scancode, hshows.plain.feed hshows.shell.entries
    scancode, hscreen, ?_⟩, fun hreturn => ?_⟩
  · -- the event is made of the shift that the editor has, too
    rw [hshows.shell.shift]
    have hsame := shows_setShift hshows.shell (translateScIntoEvent e.shift scancode).2
    exact left_writes hsame ⟨hshows.plain.text, hshows.plain.entries⟩ hshows.left hgood hroom'
      hascii
  · rw [hshows.shell.shift]
    exact no_return_writes hshows.shell hshows.plain hascii hreturn

/-- `vbe_clear` draws pixels, and leaves the heap alone. -/
theorem shows_cleared (env : WriteEnv display) (h : display.Mode)
    (hready : env.HeapReady L machine)
    (hfmt : ∀ i ≤ 2, machine.kernel.mem (env.fmt + i) = [(37 : UInt8), 115].getD i 0) :
    env.Shows h L
      (KernelConsole.setConsole ⟨machine, display⟩ (VbeConsole.cleared display machine.kernel.mem))
      (TextScreen.blank (display.width / 8) (display.height / 8)) := by
  have hkeep : ∀ a, InKernelHeap a →
      (VbeConsole.cleared display machine.kernel.mem).mem a = machine.kernel.mem a :=
    fun a ha => VbeConsole.cleared_mem h _ (env.display_apart a ha)
  refine ⟨VbeConsole.shows_cleared env.asciiBitmap h machine.kernel.mem, fun i hi => ?_,
    hready.setKernel ?_ (.setMem _ _)⟩
  · have hsame := VbeConsole.cleared_mem h machine.kernel.mem (env.fmt_apart i hi).1.1
    exact hsame.trans (hfmt i hi)
  · exact hready.serves.inv.congr fun x hlo hhi => hkeep x (hready.inKernelHeap hlo hhi)

/-- The first prompt -/
theorem shows_boot (env : WriteEnv display) (h : display.Mode) (buffer : Mem)
    (hroom : 267 ≤ (display.height / 8 - 1) * (display.width / 8))
    (hready : env.HeapReady L machine)
    (hfmt : ∀ i ≤ 2, machine.kernel.mem (env.fmt + i) = [(37 : UInt8), 115].getD i 0) :
    ∃ s, boot env buffer machine = some s ∧ s.shell = .boot buffer ∧
      Shows env h L s Editor.boot
        ((TextScreen.blank (display.width / 8) (display.height / 8)).puts prompt) := by
  have hclear := shows_cleared env h hready hfmt
  have hlen : prompt.length < chunkPayload := by decide
  obtain ⟨console, hconsole, hscreen⟩ := WriteEnv.sysWrite_spec hclear hlen
  rw [printed_prompt] at hscreen
  have hboot : boot env buffer machine = some ⟨.boot buffer, console⟩ := by
    unfold boot
    dsimp only
    rw [hconsole]
    rfl
  refine ⟨_, hboot, rfl, ⟨Icarius.shows_boot buffer, ⟨?_, ?_⟩, hscreen, ?_⟩⟩
  · exact fun b hb => absurd hb List.not_mem_nil
  · exact fun i b hb => absurd hb List.not_mem_nil
  · have hprompt := (TextScreen.left_nil _).puts hclear.screen.good printable_prompt (by
      show 0 + 12 ≤ (display.height / 8 - 1) * (display.width / 8)
      omega)
    rw [List.nil_append] at hprompt
    show TextScreen.Left _ (prompt ++ [])
    rw [List.append_nil]
    exact hprompt

theorem run_snoc (env : WriteEnv display) (behind buffer : Mem) (machine : Machine)
    (execute : List Line → Line → List (List UInt8)) (scancodes : List UInt8) (scancode : UInt8) :
    run env behind execute buffer machine (scancodes ++ [scancode])
      = (run env behind execute buffer machine scancodes).bind
          fun s => s.feed env behind execute scancode := by
  simp [run, List.foldlM_append, Option.bind_assoc]

/-- Over every run no write gets lost, and the screen follows the editor. -/
theorem exists_run (env : WriteEnv display) (h : display.Mode)
    (hroom : 267 ≤ (display.height / 8 - 1) * (display.width / 8))
    (behind buffer : Mem) (machine : Machine) (execute : List Line → Line → List (List UInt8))
    (hready : env.HeapReady L machine)
    (hfmt : ∀ i ≤ 2, machine.kernel.mem (env.fmt + i) = [(37 : UInt8), 115].getD i 0)
    (hexecute : ∀ lines line, ∀ text ∈ execute lines line, text.length < chunkPayload)
    (scancodes : List UInt8) :
    ∃ (s : Terminal) (t : TextScreen), run env behind execute buffer machine scancodes = some s ∧
      s.shell = Readline.run behind buffer scancodes ∧
      Shows env h L s (Editor.run scancodes) t ∧
      ((∀ lines line, ∀ text ∈ execute lines line, 13 ∉ printed text) → t.EmptyBehind) := by
  -- over the scancodes, from the last one on
  induction scancodes using List.reverseRecOn with
  | nil =>
      obtain ⟨s, hboot, hshell, hshows⟩ := shows_boot env h buffer hroom hready hfmt
      refine ⟨s, _, ?_, hshell, hshows, fun _ => ?_⟩
      · unfold run
        rw [hboot]
        rfl
      · have hblank : (TextScreen.blank (display.width / 8) (display.height / 8)).EmptyBehind :=
          fun _ _ => rfl
        exact hblank.puts (Vbe.good_blank h) fun hmem =>
          (printable_prompt 13 hmem).not_control.2.2 rfl
  | append_singleton scancodes scancode ih =>
      obtain ⟨s, t, hrun, hshell, hshows, hempty⟩ := ih
      obtain ⟨next, hnext, hshell', text, hshows', hreturn⟩ :=
        hshows.feed hroom hexecute scancode
      refine ⟨next, _, ?_, ?_, ?_, fun hcommands =>
        (hempty hcommands).puts hshows.screen.screen.good (hreturn hcommands)⟩
      · rw [run_snoc, hrun]
        exact hnext
      · rw [hshell', hshell]
        unfold Readline.run
        rw [List.foldl_append]
        rfl
      · unfold Editor.run at hshows' ⊢
        rw [List.foldl_append]
        exact hshows'

/-- From the keyboard to the screen, on a heap that serves a chunk as it is.  Whatever scancodes
    come in, however long the line is, whatever the commands write when a line is entered: no
    write gets lost, the heap is laid out as before, the pixels are those of a screen of text,
    and its cells in front of the cursor hold the prompt and the text of the editor.  Behind the
    cursor the screen is empty, unless a command has printed a carriage return. -/
theorem typed_text_on_screen (env : WriteEnv display) (h : display.Mode)
    (hroom : 267 ≤ (display.height / 8 - 1) * (display.width / 8))
    (behind buffer : Mem) (machine : Machine) (execute : List Line → Line → List (List UInt8))
    (hready : env.HeapReady L machine)
    (hfmt : ∀ i ≤ 2, machine.kernel.mem (env.fmt + i) = [(37 : UInt8), 115].getD i 0)
    (hexecute : ∀ lines line, ∀ text ∈ execute lines line, text.length < chunkPayload)
    (scancodes : List UInt8) :
    ∃ (s : Terminal) (t : TextScreen), run env behind execute buffer machine scancodes = some s ∧
      s.shell = Readline.run behind buffer scancodes ∧
      env.HeapReady L s.console.machine ∧
      (s.console.display.cursorX = 8 * t.column ∧ s.console.display.cursorY = 8 * t.row) ∧
      (∀ x < display.width, ∀ y < display.height,
        s.console.kernel.mem.load 4 (display.addr + (y * display.pitch + 4 * x))
          = t.picture env.asciiBitmap x y) ∧
      t.Left (prompt ++ (Editor.run scancodes).text) ∧
      ((∀ lines line, ∀ text ∈ execute lines line, 13 ∉ printed text) → t.EmptyBehind) := by
  obtain ⟨s, t, hrun, hshell, hshows, hempty⟩ :=
    exists_run env h hroom behind buffer machine execute hready hfmt hexecute scancodes
  have htext := hshows.screen.screen.text
  refine ⟨s, t, hrun, hshell, hshows.screen.heap, ?_, htext.pixels, hshows.left, hempty⟩
  have hmode : s.console.display = _ := htext.mode
  rw [hmode]
  exact ⟨rfl, rfl⟩

/-- The display of 800 times 600 pixels at `FRAMEBUFFER_VIRT_BASE` -/
def framebuffer : Vbe :=
  { addr := 0xE0000000, width := 800, height := 600, pitch := 3200, bpp := 32, cursorX := 0,
    cursorY := 0 }

theorem framebuffer_mode : framebuffer.Mode where
  wide := by decide
  high := by decide
  wide_lt := by decide
  high_lt := by decide
  addr := by decide
  bpp := rfl
  row_fits := by decide
  fits := by decide
  cells := by decide

/-- A stack behind the window of the heap, and `"%s"` below it -/
def shellEnv : WriteEnv framebuffer where
  asciiBitmap := fun _ _ => 0x18
  parts := VbeConsole.negativePi
  buffer := 0xC2C00100
  fmt := 0xC0100000
  failedFmt := 0xC0100010
  growingFmt := 0xC0100040
  pageDir := 0xC3000000
  display_apart := by
    intro a ha
    have hlast : a ≤ 0xC2BFFFFF := ha.2
    refine .inl ?_
    show a < 0xE0000000
    omega
  buffer_apart := by
    intro i hi
    refine ⟨.inl ?_, fun ha => ?_⟩
    · show 0xC2C00100 + i < 0xE0000000
      omega
    · have hlast : 0xC2C00100 + i ≤ 0xC2BFFFFF := ha.2
      omega
  fmt_apart := by
    intro i hi
    refine ⟨⟨.inl ?_, .inl ?_⟩, fun ha => ?_⟩
    · show 0xC0100000 + i < 0xE0000000
      omega
    · show 0xC0100000 + i < 0xC2C00100
      omega
    · have hfirst : 0xC1000000 ≤ 0xC0100000 + i := ha.1
      omega

/-- A heap with one chunk in use, and a task whose directory is a fresh copy -/
theorem exists_heapReady : ∃ (machine : Machine) (L : Layout), shellEnv.HeapReady L machine ∧
    ∀ i ≤ 2, machine.kernel.mem (shellEnv.fmt + i) = [(37 : UInt8), 115].getD i 0 := by
  obtain ⟨ptr, k, -, -, hone, -⟩ := Kernel.kzalloc_first (k := Machine.coldMachine.kernel) 100 rfl
    rfl Machine.coldMachine_supplies.1 (by decide)
  obtain ⟨k₁, hk₁⟩ : ∃ k₁ : Kernel, k₁ = { k with
    dirs := fun _ => Kernel.copyKernelHalf k.kernelDirectory, cr3 := none } := ⟨_, rfl⟩
  have hone₁ : k₁.OnePage 1 := hk₁ ▸ Kernel.HeapOk.of_eq hone rfl rfl
  obtain ⟨L, hserves⟩ : ∃ L, k₁.Serves L := ⟨_, Kernel.OnePage.serves hone₁ (by decide)⟩
  obtain ⟨machine, hmachine⟩ : ∃ machine, machine = Machine.coldMachine.setKernel k₁ := ⟨_, rfl⟩
  have hready : shellEnv.HeapReady L machine := by
    rw [hmachine]
    refine ⟨hserves, ?_, fun a _ _ => Machine.sees_of_upper (fun i _ => ?_) a⟩
    · show k₁.cr3 = none
      rw [hk₁]
    · show k₁.dirs _ i = Kernel.copyKernelHalf k₁.kernelDirectory i
      rw [hk₁]
  -- the format is in front of the heap
  have hinv := hready.serves.inv.congr (m := machine.kernel.mem.write 0xC0100000 [37, 115, 0])
    fun x hlo _ => by
      have hstart : 0xC1000000 ≤ x := hlo
      exact Mem.write_of_ge (show 0xC0100000 + 3 ≤ x by omega)
  refine ⟨_, L, hready.setKernel hinv (.setMem _ _), fun i hi => ?_⟩
  have hlt : i < [(37 : UInt8), 115, 0].length := Nat.lt_succ_of_le hi
  show (machine.kernel.mem.write 0xC0100000 [37, 115, 0]) (0xC0100000 + i) = _
  rw [Mem.write_add hlt]
  interval_cases i <;> rfl

/-- An `a`, a `b`, and a backspace -/
theorem typed_text_on_screen_a : ∃ (machine : Machine) (s : Terminal) (t : TextScreen),
    run shellEnv (fun _ => 0) (fun _ _ => []) (fun _ => 0) machine [0x1E, 0x30, 0x0E] = some s ∧
    t.Left (prompt ++ [97]) ∧ t.EmptyBehind := by
  obtain ⟨machine, L, hready, hfmt⟩ := exists_heapReady
  have hroom : 267 ≤ (framebuffer.height / 8 - 1) * (framebuffer.width / 8) := by decide
  obtain ⟨s, t, hrun, -, -, -, -, hleft, hempty⟩ := typed_text_on_screen shellEnv framebuffer_mode
    hroom (fun _ => 0) (fun _ => 0) machine (fun _ _ => []) hready hfmt
    (fun _ _ _ hmem => absurd hmem List.not_mem_nil) [0x1E, 0x30, 0x0E]
  have htext : (Editor.run [0x1E, 0x30, 0x0E]).text = [97] := by decide +kernel
  rw [htext] at hleft
  exact ⟨machine, s, t, hrun, hleft, hempty fun _ _ _ hmem => absurd hmem List.not_mem_nil⟩

end Steps

end Terminal

end Icarius
