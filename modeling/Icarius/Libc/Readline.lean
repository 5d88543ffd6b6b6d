/-
  Icarius.Libc.Readline

  The line input of the shell: `kbd.c` turns scancodes into key events, `readline.c` keeps a
  buffer of 256 bytes, the position in it and the console up to date, and `icarsh.c` calls it
  again and again.  The buffer is bytes; behind the position they are whatever the keys
  before have left there.

  An `Editor` says what the keys are for.  Over any scancodes, and whatever lines have been
  entered before, the buffer holds the text of the editor, the console shows it behind the
  prompt, and the lines that come back are the ones that were entered.
-/

import Icarius.Lib.Bytes
import Icarius.Libc.HistoryContent
import Mathlib.Data.List.Induction

namespace Icarius

open Icarius.Lib

/-! ## kbd.c -/

/-- `KEY_NONE` and the others -/
inductive KeyCode
  | none
  | enter
  | backspace
  | tab
  | esc
  | up
  | down
  | left
  | right
  | other
  deriving DecidableEq, Repr

/-- `key_event_t` -/
structure KeyEvent where
  pressed : Bool := false
  ascii : UInt8 := 0
  code : KeyCode := .none
  deriving DecidableEq

/-- `SC_LSHIFT` -/
def scLshift : UInt8 := 0x2A

/-- `SC_RSHIFT` -/
def scRshift : UInt8 := 0x36

/-- `scancode_ascii`, up to the last entry that is not zero -/
def scancodeAscii : List UInt8 :=
  [0, 27, 49, 50, 51, 52, 53, 54, 55, 56, 57, 48, 45, 61, 8, 9,
    113, 119, 101, 114, 116, 122, 117, 105, 111, 112, 91, 93, 10, 0,
    97, 115, 100, 102, 103, 104, 106, 107, 108, 58, 39, 96, 0, 92,
    121, 120, 99, 118, 98, 110, 109, 44, 46, 47, 0, 42, 0, 32]

/-- `scancode_ascii_shift` -/
def scancodeAsciiShift : List UInt8 :=
  [0, 27, 33, 34, 35, 36, 37, 38, 47, 40, 41, 61, 63, 96, 8, 9,
    81, 87, 69, 82, 84, 90, 85, 73, 79, 80, 123, 125, 10, 0,
    65, 83, 68, 70, 71, 72, 74, 75, 76, 58, 34, 126, 0, 124,
    89, 88, 67, 86, 66, 78, 77, 60, 58, 95, 0, 42, 0, 32]

/-- The switch over `code`: `SC_ENTER`, `SC_BACKSPACE`, `SC_ESC` and the arrows -/
def keyCode (code : UInt8) : KeyCode :=
  if code = 0x1C then .enter
  else if code = 0x0E then .backspace
  else if code = 0x01 then .esc
  else if code = 0x48 then .up
  else if code = 0x50 then .down
  else if code = 0x4B then .left
  else if code = 0x4D then .right
  else .other

/-- `translate_sc_into_event`, with the static variable `shift` -/
def translateScIntoEvent (shift : Bool) (scancode : UInt8) : KeyEvent × Bool :=
  let isKeyup := scancode &&& 0b10000000 ≠ 0
  let code := scancode &&& 0b01111111
  if code = scLshift ∨ code = scRshift then ({}, !isKeyup)
  else
    let event : KeyEvent := { pressed := !isKeyup, code := keyCode code }
    if event.pressed ∧ code < 128 then
      let ch := (if shift then scancodeAsciiShift else scancodeAscii).getD code.toNat 0
      (if ch ≠ 0 then { event with ascii := ch } else event, shift)
    else (event, shift)

/-! ## string.c and the console -/

/-- `strncpy` of the C library -/
def strncpy (m : Mem) (dest : Nat) (src : Mem) (n : Nat) : Mem :=
  let (m, i) := Mem.copyWhile (· ≠ 0) src n 0 m dest
  m.fill (dest + i) (n - i) 0

/-- The string at the beginning of a buffer of `n` bytes -/
def cText (n : Nat) (m : Mem) : List UInt8 := ((List.range n).map m).takeWhile (· ≠ 0)

/-- What `_sys_write` prints of `count` bytes: `kprintf("%s")` ends at the first NUL. -/
def consoleWrite (src : Mem) (count : Nat) : List UInt8 := cText count src

/-- The memory from a line of the history on: the line, its NUL, and what is behind it -/
def lineBytes (behind : Mem) (line : Line) : Mem := fun i =>
  if i < line.length then line.getD i 0 else if i = line.length then 0 else behind i

/-! ## readline.c -/

/-- `BUFFER_SIZE` -/
def bufferSize : Nat := 256

/-- `PROMPT` of `icarsh.c`, `"[icarSH]:~# "` -/
def prompt : List UInt8 := [91, 105, 99, 97, 114, 83, 72, 93, 58, 126, 35, 32]

/-- `"\b \b"` -/
def rubout : List UInt8 := [8, 32, 8]

/-- The static variables of `kbd.c`, `history.c` and `readline`, `pos`, and what the call of
    `readline` has written to the console. -/
structure Readline where
  shift : Bool
  history : History
  buffer : Mem
  pos : Nat
  console : List UInt8
  /-- The lines that were returned, the last one at the end -/
  lines : List Line

namespace Readline

/-- `_flush_line` -/
def flushLine : Nat → List UInt8
  | 0 => []
  | pos + 1 => rubout ++ flushLine pos

/-- The beginning of `readline(PROMPT)` -/
def start (s : Readline) : Readline :=
  { s with console := prompt, pos := 0, buffer := s.buffer.fill 0 bufferSize 0 }

/-- The end of the cases `KEY_UP` and `KEY_DOWN`, with the line from the history -/
def bringUp (behind : Mem) (s : Readline) : Option Line × History → Readline
  | (none, history) => { s with history := history }
  | (some cmd, history) =>
      let buffer := strncpy s.buffer 0 (lineBytes behind cmd) (bufferSize - 1)
      { s with
        history := history
        buffer := buffer
        pos := (cText bufferSize buffer).length
        console := s.console ++ flushLine s.pos ++ consoleWrite (lineBytes behind cmd) historyLineMax }

/-- The loop body of `readline` behind `read`, and the next call where it returns -/
def key (behind : Mem) (s : Readline) (ev : KeyEvent) : Readline :=
  if ¬ ev.pressed then s
  else
    match ev.code with
    | .enter =>
        let buffer := s.buffer.write s.pos [0]
        let line := cText bufferSize buffer
        start
          { s with
            buffer := buffer
            console := s.console ++ [10]
            history := s.history.add line
            lines := s.lines ++ [line] }
    | .backspace =>
        if s.pos > 0 then { s with pos := s.pos - 1, console := s.console ++ rubout } else s
    | .up => s.bringUp behind s.history.getOlder
    | .down => s.bringUp behind s.history.getNewer
    | _ =>
        if ev.ascii ≠ 0 ∧ s.pos < bufferSize - 1 then
          { s with
            buffer := s.buffer.write s.pos [ev.ascii]
            pos := s.pos + 1
            console := s.console ++ [ev.ascii] }
        else s

/-- One round of the loop.  Where no key waits `_sys_read` returns zero bytes, and a zero. -/
def feed (behind : Mem) (s : Readline) (scancode : UInt8) : Readline :=
  let (ev, shift) := translateScIntoEvent s.shift scancode
  key behind { s with shift := shift } ev

/-- The shell before its first line -/
def boot (buffer : Mem) : Readline :=
  start { shift := false, history := .boot, buffer := buffer, pos := 0, console := [], lines := [] }

/-- The shell after the bytes that `read` has given it -/
def run (behind buffer : Mem) (scancodes : List UInt8) : Readline :=
  scancodes.foldl (feed behind) (boot buffer)

end Readline

/-! ## What the keys are for -/

/-- The line that is being edited -/
structure Editor where
  shift : Bool
  history : History
  text : List UInt8
  lines : List Line

namespace Editor

/-- A line of the history takes the place of the text. -/
def bringUp (s : Editor) : Option Line × History → Editor
  | (none, history) => { s with history := history }
  | (some line, history) => { s with history := history, text := line }

/-- A key -/
def key (s : Editor) (ev : KeyEvent) : Editor :=
  if ¬ ev.pressed then s
  else
    match ev.code with
    | .enter =>
        { s with history := s.history.add s.text, text := [], lines := s.lines ++ [s.text] }
    | .backspace => { s with text := s.text.dropLast }
    | .up => s.bringUp s.history.getOlder
    | .down => s.bringUp s.history.getNewer
    | _ =>
        if ev.ascii ≠ 0 ∧ s.text.length < 255 then { s with text := s.text ++ [ev.ascii] } else s

/-- A scancode -/
def feed (s : Editor) (scancode : UInt8) : Editor :=
  let (ev, shift) := translateScIntoEvent s.shift scancode
  key { s with shift := shift } ev

/-- Nothing has been typed. -/
def boot : Editor := ⟨false, .boot, [], []⟩

/-- The scancodes, one after the other -/
def run (scancodes : List UInt8) : Editor := scancodes.foldl feed boot

end Editor

/-- What is to the left of the cursor when another byte has been printed there: `'\b'` takes
    the last character away, every other character takes one place. -/
def leftOf (left : List UInt8) (b : UInt8) : List UInt8 :=
  if b = 8 then left.dropLast else left ++ [b]

/-! ## Lines -/

/-- A line as the keys can make it: it fits into the buffer with its NUL, and it holds no
    NUL, no backspace and no newline. -/
structure Typed (line : List UInt8) : Prop where
  length_le : line.length ≤ 255
  bytes : ∀ b ∈ line, b ≠ 0 ∧ b ≠ 8 ∧ b ≠ 10

section Lines

variable {m : Mem} {line left : List UInt8}

theorem typed_nil : Typed [] := ⟨Nat.zero_le 255, fun _ hb => absurd hb List.not_mem_nil⟩

theorem Typed.ne_zero (h : Typed line) : ∀ b ∈ line, decide (b ≠ 0) = true :=
  fun b hb => decide_eq_true (h.bytes b hb).1

theorem Typed.dropLast (h : Typed line) : Typed line.dropLast := by
  refine ⟨?_, fun b hb => h.bytes b (List.dropLast_subset line hb)⟩
  have hle := h.length_le
  rw [List.length_dropLast]
  omega

theorem Typed.snoc {b : UInt8} (h : Typed line) (hlt : line.length < 255)
    (hb : b ≠ 0 ∧ b ≠ 8 ∧ b ≠ 10) : Typed (line ++ [b]) := by
  refine ⟨?_, fun c hc => ?_⟩
  · rw [List.length_append, List.length_singleton]
    exact hlt
  · rcases List.mem_append.mp hc with hc | hc
    · exact h.bytes c hc
    · rw [List.mem_singleton.mp hc]
      exact hb

/-- A buffer with a line and a NUL behind it holds that line as its string. -/
theorem cText_of_line (h : Typed line) (hbytes : ∀ i < line.length, m i = line.getD i 0)
    (hnul : m line.length = 0) : cText bufferSize m = line := by
  have hle := h.length_le
  apply Mem.takeWhile_range (show line.length ≤ 256 by omega) hbytes h.ne_zero
  intro _
  rw [hnul]
  rfl

theorem lineBytes_of_lt {behind : Mem} {i : Nat} (h : i < line.length) :
    lineBytes behind line i = line.getD i 0 := if_pos h

theorem lineBytes_nul (behind : Mem) (line : Line) : lineBytes behind line line.length = 0 := by
  unfold lineBytes
  rw [if_neg (Nat.lt_irrefl _), if_pos rfl]

/-- A line of the history is printed up to its NUL, whatever stands behind that. -/
theorem consoleWrite_line (behind : Mem) (h : Typed line) :
    consoleWrite (lineBytes behind line) historyLineMax = line :=
  cText_of_line h (fun _ hi => lineBytes_of_lt hi) (lineBytes_nul behind line)

/-- `strncpy` of a line into the buffer, up to the last byte but one -/
theorem strncpy_line (behind : Mem) (h : Typed line) :
    (∀ i < line.length, strncpy m 0 (lineBytes behind line) 255 i = line.getD i 0) ∧
      (∀ i, line.length ≤ i → i < 255 → strncpy m 0 (lineBytes behind line) 255 i = 0) ∧
      ∀ i, 255 ≤ i → strncpy m 0 (lineBytes behind line) 255 i = m i := by
  have hle := h.length_le
  -- the first loop ends at the NUL or after 255 bytes
  have hloop : ((List.range 255).map fun j => lineBytes behind line (0 + j)).takeWhile (· ≠ 0)
      = line := by
    simp only [Nat.zero_add]
    apply Mem.takeWhile_range hle (fun _ hi => lineBytes_of_lt hi) h.ne_zero
    intro _
    rw [lineBytes_nul]
    rfl
  have heq : strncpy m 0 (lineBytes behind line) 255
      = (m.write 0 line).fill (0 + line.length) (255 - line.length) 0 := by
    unfold strncpy
    rw [Mem.copyWhile_eq, hloop]
  rw [heq, Nat.zero_add]
  refine ⟨fun i hi => ?_, fun i hi hlt => ?_, fun i hi => ?_⟩
  · show (if _ then _ else _) = _
    rw [if_neg (by omega), Mem.write_zero hi, List.getD_eq_getElem?_getD,
      List.getElem?_eq_getElem hi, Option.getD_some]
  · show (if _ then _ else _) = _
    rw [if_pos (by omega)]
  · show (if _ then _ else _) = _
    rw [if_neg (by omega), Mem.write_of_ge (by omega)]

/-! ## The console -/

theorem leftOf_ne {b : UInt8} (h : b ≠ 8) : leftOf left b = left ++ [b] := if_neg h

/-- Printing a line puts it to the left of the cursor. -/
theorem foldl_leftOf_line (h : ∀ b ∈ line, b ≠ 8) : line.foldl leftOf left = left ++ line := by
  induction line generalizing left with
  | nil => rw [List.append_nil]; rfl
  | cons b line ih =>
      rw [List.foldl_cons, leftOf_ne (h b List.mem_cons_self),
        ih fun c hc => h c (List.mem_cons_of_mem b hc), List.append_assoc, List.singleton_append]

/-- Back, a blank and back again: the last character is gone. -/
theorem foldl_leftOf_rubout (left : List UInt8) : rubout.foldl leftOf left = left.dropLast := by
  show (left.dropLast ++ [32]).dropLast = left.dropLast
  rw [List.dropLast_concat]

/-- `_flush_line` takes away as many characters as it is told. -/
theorem foldl_leftOf_flushLine (line left : List UInt8) :
    (Readline.flushLine line.length).foldl leftOf (left ++ line) = left := by
  induction line using List.reverseRecOn with
  | nil => rw [List.append_nil]; rfl
  | append_singleton line b ih =>
      rw [List.length_append, List.length_singleton, Readline.flushLine, List.foldl_append,
        foldl_leftOf_rubout, ← List.append_assoc, List.dropLast_concat]
      exact ih

end Lines

/-! ## Keys -/

/-- What holds of every entry of the tables but those of `SC_BACKSPACE` and `SC_ENTER`, and of
    what is behind them -/
theorem scancodeAscii_of {P : UInt8 → Prop} (hzero : P 0)
    (htable : ∀ i < 58, i ≠ 14 → i ≠ 28 →
      P (scancodeAsciiShift.getD i 0) ∧ P (scancodeAscii.getD i 0))
    (shift : Bool) {i : Nat} (hback : i ≠ 14) (henter : i ≠ 28) :
    P ((if shift then scancodeAsciiShift else scancodeAscii).getD i 0) := by
  by_cases hlt : i < 58
  · obtain ⟨hshift, hplain⟩ := htable i hlt hback henter
    cases shift with
    | true => exact hshift
    | false => exact hplain
  · have hbehind : (if shift then scancodeAsciiShift else scancodeAscii).getD i 0 = 0 := by
      rw [List.getD_eq_getElem?_getD, List.getElem?_eq_none]
      · rfl
      · cases shift <;> exact Nat.le_of_not_lt hlt
    rw [hbehind]
    exact hzero

/-- A scancode is a shift key, or it has the code and possibly the character of its key. -/
theorem translate_cases (shift : Bool) (scancode : UInt8) :
    (translateScIntoEvent shift scancode).1 = {} ∨
      (translateScIntoEvent shift scancode).1.code = keyCode (scancode &&& 0b01111111) ∧
        ((translateScIntoEvent shift scancode).1.ascii = 0 ∨
          (translateScIntoEvent shift scancode).1.ascii
            = (if shift then scancodeAsciiShift else scancodeAscii).getD
                (scancode &&& 0b01111111).toNat 0) := by
  unfold translateScIntoEvent
  dsimp only
  generalize scancode &&& 0b01111111 = code
  generalize (if shift then scancodeAsciiShift else scancodeAscii).getD code.toNat 0 = ch
  split
  · exact .inl rfl
  · right
    split
    · split
      · exact ⟨rfl, .inr rfl⟩
      · exact ⟨rfl, .inl rfl⟩
    · exact ⟨rfl, .inl rfl⟩

/-- What holds of NUL and of the tables, but for the two keys, holds of the character of every
    other key. -/
theorem translate_ascii_of {P : UInt8 → Prop} (hzero : P 0)
    (htable : ∀ i < 58, i ≠ 14 → i ≠ 28 →
      P (scancodeAsciiShift.getD i 0) ∧ P (scancodeAscii.getD i 0))
    {shift : Bool} {scancode : UInt8}
    (henter : (translateScIntoEvent shift scancode).1.code ≠ .enter)
    (hback : (translateScIntoEvent shift scancode).1.code ≠ .backspace) :
    P (translateScIntoEvent shift scancode).1.ascii := by
  rcases translate_cases shift scancode with hnone | ⟨hcode, hascii | hascii⟩
  · rw [hnone]
    exact hzero
  · rw [hascii]
    exact hzero
  · rw [hcode] at henter hback
    rw [hascii]
    generalize scancode &&& 0b01111111 = code at henter hback
    apply scancodeAscii_of hzero htable
    · intro heq
      apply hback
      obtain rfl : code = 0x0E := UInt8.toNat_inj.mp heq
      rfl
    · intro heq
      apply henter
      obtain rfl : code = 0x1C := UInt8.toNat_inj.mp heq
      rfl

/-- It is neither a backspace nor a newline. -/
theorem translate_ascii {shift : Bool} {scancode : UInt8}
    (henter : (translateScIntoEvent shift scancode).1.code ≠ .enter)
    (hback : (translateScIntoEvent shift scancode).1.code ≠ .backspace) :
    (translateScIntoEvent shift scancode).1.ascii ≠ 8 ∧
      (translateScIntoEvent shift scancode).1.ascii ≠ 10 := by
  have hzero : (0 : UInt8) ≠ 8 ∧ (0 : UInt8) ≠ 10 := ⟨by rintro ⟨⟩, by rintro ⟨⟩⟩
  have htable : ∀ i < 58, i ≠ 14 → i ≠ 28 →
      (scancodeAsciiShift.getD i 0 ≠ 8 ∧ scancodeAsciiShift.getD i 0 ≠ 10) ∧
        scancodeAscii.getD i 0 ≠ 8 ∧ scancodeAscii.getD i 0 ≠ 10 := by
    decide +kernel
  exact translate_ascii_of (P := fun b => b ≠ 8 ∧ b ≠ 10) hzero htable henter hback

/-! ## The history -/

section History

variable {h : History} {line : Line}

/-- A line that is added was typed. -/
theorem typed_add (hall : ∀ i, Typed (h.entries i)) (hline : Typed line) (i : Nat) :
    Typed ((h.add line).entries i) := by
  unfold History.add
  split
  · exact hall i
  · split
    · exact hall i
    · show Typed (if i = h.head then line.take (historyLineMax - 1) else h.entries i)
      split
      · have hfits : line.length ≤ historyLineMax - 1 := hline.length_le
        rw [List.take_of_length_le hfits]
        exact hline
      · exact hall i

/-- `KEY_UP` brings up a line that was typed. -/
theorem typed_getOlder (hall : ∀ i, Typed (h.entries i)) :
    (∀ line ∈ h.getOlder.1, Typed line) ∧ h.getOlder.2.entries = h.entries := by
  unfold History.getOlder
  split
  · exact ⟨fun _ hl => absurd hl (Option.not_mem_none _), rfl⟩
  · split
    · exact ⟨fun _ hl => Option.some.inj hl ▸ hall _, rfl⟩
    · exact ⟨fun _ hl => Option.some.inj hl ▸ hall _, rfl⟩

/-- `KEY_DOWN` brings up one, or the empty line. -/
theorem typed_getNewer (hall : ∀ i, Typed (h.entries i)) :
    (∀ line ∈ h.getNewer.1, Typed line) ∧ h.getNewer.2.entries = h.entries := by
  unfold History.getNewer
  split
  · exact ⟨fun _ hl => absurd hl (Option.not_mem_none _), rfl⟩
  · split
    · exact ⟨fun _ hl => Option.some.inj hl ▸ typed_nil, rfl⟩
    · dsimp only
      split
      · exact ⟨fun _ hl => Option.some.inj hl ▸ typed_nil, rfl⟩
      · exact ⟨fun _ hl => Option.some.inj hl ▸ hall _, rfl⟩

end History

/-! ## The buffer follows the editor -/

/-- The buffer holds the text, the console shows it behind the prompt, and everything else is
    the same.  Nothing is said about the bytes between the text and the last one. -/
structure Shows (s : Readline) (e : Editor) : Prop where
  shift : s.shift = e.shift
  history : s.history = e.history
  lines : s.lines = e.lines
  pos : s.pos = e.text.length
  bytes : ∀ i < e.text.length, s.buffer i = e.text.getD i 0
  last : s.buffer 255 = 0
  console : s.console.foldl leftOf [] = prompt ++ e.text
  text : Typed e.text
  entries : ∀ i, Typed (e.history.entries i)
  entered : ∀ line ∈ e.lines, Typed line

section Steps

variable {s : Readline} {e : Editor} {behind : Mem}

/-- A new call of `readline` starts with an empty text. -/
theorem shows_start (hshift : s.shift = e.shift) (hhistory : s.history = e.history)
    (hlines : s.lines = e.lines) (htext : e.text = []) (hentries : ∀ i, Typed (e.history.entries i))
    (hentered : ∀ line ∈ e.lines, Typed line) : Shows s.start e := by
  refine ⟨hshift, hhistory, hlines, ?_, fun i hi => ?_, rfl, ?_, ?_, hentries, hentered⟩
  · rw [htext]
    rfl
  · rw [htext] at hi
    exact absurd hi (Nat.not_lt_zero i)
  · rw [htext, List.append_nil]
    rfl
  · rw [htext]
    exact typed_nil

/-- A line of the history takes the place of the text, in the buffer and on the console. -/
theorem Shows.bringUp {line : Option Line} {history : History} (h : Shows s e)
    (hline : ∀ l ∈ line, Typed l) (hentries : history.entries = e.history.entries) :
    Shows (s.bringUp behind (line, history)) (e.bringUp (line, history)) := by
  have hkeep : ∀ i, Typed (history.entries i) := by
    rw [hentries]
    exact h.entries
  cases line with
  | none => exact ⟨h.shift, rfl, h.lines, h.pos, h.bytes, h.last, h.console, h.text, hkeep, h.entered⟩
  | some cmd =>
      have hcmd := hline cmd rfl
      have hle := hcmd.length_le
      obtain ⟨hbytes, hzero, hrest⟩ := strncpy_line (m := s.buffer) behind hcmd
      -- the last byte of the buffer is the NUL of a line of 255 characters
      have hlast : strncpy s.buffer 0 (lineBytes behind cmd) 255 255 = 0 := by
        rw [hrest 255 (Nat.le_refl 255)]
        exact h.last
      have hnul : strncpy s.buffer 0 (lineBytes behind cmd) 255 cmd.length = 0 := by
        rcases Nat.lt_or_eq_of_le hle with hlt | heq
        · exact hzero cmd.length (Nat.le_refl _) hlt
        · rw [heq]
          exact hlast
      refine ⟨h.shift, rfl, h.lines, ?_, hbytes, hlast, ?_, hcmd, hkeep, h.entered⟩
      · exact congrArg List.length (cText_of_line hcmd hbytes hnul)
      · show (s.console ++ Readline.flushLine s.pos
            ++ consoleWrite (lineBytes behind cmd) historyLineMax).foldl leftOf [] = prompt ++ cmd
        rw [consoleWrite_line behind hcmd, List.foldl_append, List.foldl_append, h.console, h.pos,
          foldl_leftOf_flushLine, foldl_leftOf_line fun b hb => (hcmd.bytes b hb).2.1]

/-- `KEY_ENTER` returns the text. -/
theorem Shows.enter (h : Shows s e) {ev : KeyEvent} (hpressed : ev.pressed = true)
    (hcode : ev.code = .enter) : Shows (s.key behind ev) (e.key ev) := by
  -- the NUL ends the text where the position is
  have hline : cText bufferSize (s.buffer.write s.pos [0]) = e.text := by
    apply cText_of_line h.text
    · intro i hi
      rw [Mem.write_byte_of_ne (by rw [h.pos]; omega)]
      exact h.bytes i hi
    · rw [h.pos]
      exact Mem.write_byte_self _ _ _
  rw [Readline.key, Editor.key, hpressed, hcode]
  simp only [not_true_eq_false, if_false]
  apply shows_start
  · exact h.shift
  · show s.history.add (cText bufferSize (s.buffer.write s.pos [0])) = e.history.add e.text
    rw [hline, h.history]
  · show s.lines ++ [cText bufferSize (s.buffer.write s.pos [0])] = e.lines ++ [e.text]
    rw [hline, h.lines]
  · rfl
  · exact typed_add h.entries h.text
  · intro line hmem
    rcases List.mem_append.mp hmem with hmem | hmem
    · exact h.entered line hmem
    · rw [List.mem_singleton.mp hmem]
      exact h.text

/-- `KEY_BACKSPACE` takes the last character away, and nothing from the prompt. -/
theorem Shows.backspace (h : Shows s e) {ev : KeyEvent} (hpressed : ev.pressed = true)
    (hcode : ev.code = .backspace) : Shows (s.key behind ev) (e.key ev) := by
  rw [Readline.key, Editor.key, hpressed, hcode]
  simp only [not_true_eq_false, if_false]
  have hpos := h.pos
  split
  · -- only `pos` goes back: the byte stays in the buffer, but not in the text
    rename_i hlt
    have hne : e.text ≠ [] := by
      rw [← List.length_pos_iff, ← hpos]
      exact hlt
    refine ⟨h.shift, h.history, h.lines, ?_, fun i hi => ?_, h.last, ?_, h.text.dropLast,
      h.entries, h.entered⟩
    · show s.pos - 1 = e.text.dropLast.length
      rw [List.length_dropLast, hpos]
    · rw [List.length_dropLast] at hi
      show s.buffer i = e.text.dropLast.getD i 0
      rw [h.bytes i (by omega), List.getD_eq_getElem?_getD, List.getD_eq_getElem?_getD,
        List.getElem?_dropLast, if_pos (by omega)]
    · show (s.console ++ rubout).foldl leftOf [] = prompt ++ e.text.dropLast
      rw [List.foldl_append, h.console, foldl_leftOf_rubout, List.dropLast_append_of_ne_nil hne]
  · rename_i hzero
    have hnil : e.text = [] := List.length_eq_zero_iff.mp (by omega)
    refine ⟨h.shift, h.history, h.lines, ?_, fun i hi => ?_, h.last, ?_, h.text.dropLast,
      h.entries, h.entered⟩
    · rw [hpos, hnil]
      rfl
    · rw [hnil] at hi
      exact absurd hi (Nat.not_lt_zero i)
    · rw [h.console, hnil]
      rfl

/-- A character is appended while there is room for it and its NUL. -/
theorem Shows.type (h : Shows s e) {b : UInt8} (hb : b ≠ 8 ∧ b ≠ 10) :
    Shows
      (if b ≠ 0 ∧ s.pos < bufferSize - 1 then
        { s with
          buffer := s.buffer.write s.pos [b], pos := s.pos + 1, console := s.console ++ [b] }
      else s)
      (if b ≠ 0 ∧ e.text.length < 255 then { e with text := e.text ++ [b] } else e) := by
  have hpos := h.pos
  by_cases hroom : b ≠ 0 ∧ e.text.length < 255
  · obtain ⟨hzero, hlt⟩ := hroom
    have hroom' : b ≠ 0 ∧ s.pos < bufferSize - 1 := ⟨hzero, hpos ▸ hlt⟩
    rw [if_pos hroom', if_pos ⟨hzero, hlt⟩]
    refine ⟨h.shift, h.history, h.lines, ?_, fun i hi => ?_, ?_, ?_, ?_, h.entries, h.entered⟩
    · show s.pos + 1 = (e.text ++ [b]).length
      rw [List.length_append, List.length_singleton, hpos]
    · -- the byte at `pos` is the new one, those before it are the old ones
      rw [List.length_append, List.length_singleton] at hi
      show s.buffer.write s.pos [b] i = (e.text ++ [b]).getD i 0
      rw [List.getD_eq_getElem?_getD]
      by_cases hlast : i = e.text.length
      · rw [hlast, ← hpos, Mem.write_byte_self, hpos, List.getElem?_concat_length, Option.getD_some]
      · rw [Mem.write_byte_of_ne (by omega), h.bytes i (by omega), List.getD_eq_getElem?_getD,
          List.getElem?_append_left (by omega)]
    · show s.buffer.write s.pos [b] 255 = 0
      rw [Mem.write_byte_of_ne (by omega)]
      exact h.last
    · show (s.console ++ [b]).foldl leftOf [] = prompt ++ (e.text ++ [b])
      rw [List.foldl_append, h.console, List.foldl_cons, List.foldl_nil, leftOf_ne hb.1,
        List.append_assoc]
    · exact h.text.snoc hlt ⟨hzero, hb⟩
  · have hroom' : ¬ (b ≠ 0 ∧ s.pos < bufferSize - 1) := fun hand => hroom ⟨hand.1, hpos ▸ hand.2⟩
    rw [if_neg hroom', if_neg hroom]
    exact h

/-- Every scancode keeps the buffer in step. -/
theorem Shows.feed (h : Shows s e) (scancode : UInt8) :
    Shows (s.feed behind scancode) (e.feed scancode) := by
  unfold Readline.feed Editor.feed
  rw [h.shift]
  have hascii := @translate_ascii e.shift scancode
  generalize translateScIntoEvent e.shift scancode = r at hascii ⊢
  obtain ⟨ev, shift⟩ := r
  dsimp only at hascii ⊢
  -- `shift` first, then the key
  have h' : Shows { s with shift := shift } { e with shift := shift } :=
    ⟨rfl, h.history, h.lines, h.pos, h.bytes, h.last, h.console, h.text, h.entries, h.entered⟩
  generalize { s with shift := shift } = s at h' ⊢
  generalize { e with shift := shift } = e at h' ⊢
  cases hpressed : ev.pressed with
  | false =>
      rw [Readline.key, Editor.key, hpressed]
      exact h'
  | true =>
      cases hcode : ev.code with
      | enter => exact h'.enter hpressed hcode
      | backspace => exact h'.backspace hpressed hcode
      | up =>
          rw [Readline.key, Editor.key, hpressed, hcode, h'.history]
          obtain ⟨hline, hentries⟩ := typed_getOlder h'.entries
          exact h'.bringUp hline hentries
      | down =>
          rw [Readline.key, Editor.key, hpressed, hcode, h'.history]
          obtain ⟨hline, hentries⟩ := typed_getNewer h'.entries
          exact h'.bringUp hline hentries
      | none | tab | esc | left | right | other =>
          rw [Readline.key, Editor.key, hpressed, hcode]
          exact h'.type (hascii (by rw [hcode]; rintro ⟨⟩) (by rw [hcode]; rintro ⟨⟩))

end Steps

theorem shows_boot (buffer : Mem) : Shows (Readline.boot buffer) Editor.boot := by
  apply shows_start
  · rfl
  · rfl
  · rfl
  · rfl
  · exact fun _ => typed_nil
  · exact fun _ hl => absurd hl List.not_mem_nil

theorem shows_run (behind buffer : Mem) (scancodes : List UInt8) :
    Shows (Readline.run behind buffer scancodes) (Editor.run scancodes) := by
  induction scancodes using List.reverseRecOn with
  | nil => exact shows_boot buffer
  | append_singleton scancodes scancode ih =>
      unfold Readline.run Editor.run at ih ⊢
      rw [List.foldl_append, List.foldl_append]
      exact ih.feed scancode

/-- The zero that an empty keyboard buffer gives is no key. -/
theorem feed_zero (behind : Mem) (s : Readline) : s.feed behind 0 = s := by
  obtain ⟨shift, history, buffer, pos, console, lines⟩ := s
  cases shift <;> rfl

theorem foldl_feed_filter (behind : Mem) (scancodes : List UInt8) (s : Readline) :
    (scancodes.filter (· ≠ 0)).foldl (Readline.feed behind) s
      = scancodes.foldl (Readline.feed behind) s := by
  induction scancodes generalizing s with
  | nil => rfl
  | cons scancode scancodes ih =>
      by_cases hzero : scancode = 0
      · rw [hzero, List.filter_cons_of_neg (by simp), List.foldl_cons, feed_zero]
        exact ih s
      · rw [List.filter_cons_of_pos (by simpa using hzero), List.foldl_cons, List.foldl_cons]
        exact ih _

/-- The line input of the shell over its whole life.  Whatever scancodes come in, whatever the
    buffer held at boot and whatever stands behind the strings of the history: the buffer and
    the console show the text of the editor, the NUL behind it has its place, the lines that
    have been returned and are in the history are the ones that were entered, and polls in
    vain make no difference. -/
theorem readline_edits (behind buffer : Mem) (scancodes : List UInt8) :
    (Readline.run behind buffer scancodes).lines = (Editor.run scancodes).lines ∧
      (Readline.run behind buffer scancodes).history = (Editor.run scancodes).history ∧
      (Readline.run behind buffer scancodes).pos = (Editor.run scancodes).text.length ∧
      (Readline.run behind buffer scancodes).pos < bufferSize ∧
      (∀ i < (Editor.run scancodes).text.length,
        (Readline.run behind buffer scancodes).buffer i = (Editor.run scancodes).text.getD i 0) ∧
      (Readline.run behind buffer scancodes).buffer (bufferSize - 1) = 0 ∧
      (Readline.run behind buffer scancodes).console.foldl leftOf []
        = prompt ++ (Editor.run scancodes).text ∧
      (∀ line ∈ (Readline.run behind buffer scancodes).lines,
        line.length < bufferSize ∧ ∀ b ∈ line, b ≠ 0 ∧ b ≠ 8 ∧ b ≠ 10) ∧
      Readline.run behind buffer (scancodes.filter (· ≠ 0))
        = Readline.run behind buffer scancodes := by
  have h := shows_run behind buffer scancodes
  have hle := h.text.length_le
  refine ⟨h.lines, h.history, h.pos, ?_, h.bytes, h.last, h.console, fun line hmem => ?_, ?_⟩
  · rw [h.pos]
    exact Nat.lt_succ_of_le hle
  · rw [h.lines] at hmem
    have htyped := h.entered line hmem
    exact ⟨Nat.lt_succ_of_le htyped.length_le, htyped.bytes⟩
  · exact foldl_feed_filter behind scancodes _

/-! ## What the history remembers -/

section Remembers

variable {h : History} {lines : List Line} {line : Line}

/-- The history holds the last 256 of the lines that are kept of `lines`. -/
structure Remembers (h : History) (lines : List Line) : Prop where
  inRange : h.InRange
  stored : h.stored = (History.kept lines).reverse.take 256

/-- A line behind others is compared with the last one that was kept of them. -/
theorem destutter_concat {l past : List Line} {a last x : Line}
    (h : l.destutter' (· ≠ ·) a = past ++ [last]) :
    (l ++ [x]).destutter' (· ≠ ·) a = past ++ [x].destutter' (· ≠ ·) last := by
  induction l generalizing a past with
  | nil =>
      obtain ⟨rfl, hlast⟩ := List.append_inj' (show [] ++ [a] = past ++ [last] from h) rfl
      obtain rfl := (List.cons.inj hlast).1
      rfl
  | cons b l ih =>
      rw [List.cons_append]
      by_cases hab : a ≠ b
      · rw [List.destutter'_cons_pos _ hab] at h ⊢
        cases past with
        | nil =>
            -- something is kept of `l`
            have hnil := (List.cons.inj (h.trans (List.nil_append [last]))).2
            exact absurd hnil (List.destutter'_ne_nil _ _)
        | cons c past =>
            obtain ⟨rfl, hrest⟩ := List.cons.inj h
            rw [ih hrest]
            rfl
      · rw [List.destutter'_cons_neg _ hab] at h ⊢
        exact ih h

/-- What is kept of lines and one more, where something was kept before -/
theorem kept_concat {past : List Line} {last : Line} (hkept : History.kept lines = past ++ [last])
    (hne : line ≠ []) :
    History.kept (lines ++ [line]) = past ++ [line].destutter' (· ≠ ·) last := by
  unfold History.kept at hkept ⊢
  rw [List.filter_append, List.filter_cons_of_pos (by simpa using hne), List.filter_nil]
  cases hfilter : lines.filter fun line => decide (line ≠ []) with
  | nil =>
      rw [hfilter] at hkept
      exact absurd hkept.symm (List.append_ne_nil_of_right_ne_nil past (List.cons_ne_nil last []))
  | cons a l =>
      rw [hfilter] at hkept
      exact destutter_concat hkept

theorem Remembers.add (hr : Remembers h lines) (hlt : line.length < historyLineMax) :
    Remembers (h.add line) (lines ++ [line]) := by
  refine ⟨hr.inRange.add hlt, ?_⟩
  by_cases hnil : line = []
  · -- an empty line is not added
    have hsame : History.kept (lines ++ [line]) = History.kept lines := by
      unfold History.kept
      rw [List.filter_append, List.filter_cons_of_neg (by simpa using hnil), List.filter_nil,
        List.append_nil]
    rw [hnil, History.add_nil, ← hnil, hsame]
    exact hr.stored
  · rcases List.eq_nil_or_concat (History.kept lines) with hkept | ⟨past, last, hkept⟩
    · -- the first line of all
      have hfilter : lines.filter (fun line => decide (line ≠ [])) = [] := by
        unfold History.kept at hkept
        exact (List.destutter_eq_nil (· ≠ ·)).mp hkept
      have hfirst : History.kept (lines ++ [line]) = [line] := by
        unfold History.kept
        rw [List.filter_append, hfilter, List.filter_cons_of_pos (by simpa using hnil)]
        rfl
      have hempty : h.stored = [] := by rw [hr.stored, hkept]; rfl
      have hcount : h.count = 0 := by rw [← History.length_stored, hempty]; rfl
      have hnew : h.ignores line = false := by
        unfold History.ignores
        rw [hcount]
        rfl
      rw [hfirst, History.stored_add hr.inRange.toWellFormed hnil hlt hnew, hempty]
      rfl
    · -- the line is stored unless it is the last one that was kept
      rw [List.concat_eq_append] at hkept
      have hstored := hr.stored
      rw [hkept] at hstored
      have hone := History.stored_foldl_add [line]
        (fun l hl => by rw [List.mem_singleton.mp hl]; exact hlt) hr.inRange hstored
      rw [List.filter_cons_of_pos (by simpa using hnil), List.filter_nil] at hone
      rw [kept_concat hkept hnil]
      exact hone.1

/-- The arrow keys move the cursor only. -/
theorem Remembers.move {c : Nat} (hr : Remembers h lines) (hc : c < 256) :
    Remembers { h with cursor := c } lines :=
  ⟨⟨⟨hr.inRange.head_lt, hr.inRange.count_le, hr.inRange.apart⟩, hc⟩, hr.stored⟩

theorem Remembers.getOlder (hr : Remembers h lines) : Remembers h.getOlder.2 lines := by
  unfold History.getOlder
  split
  · exact hr
  · split
    · exact hr
    · exact hr.move (Nat.mod_lt _ (Nat.succ_pos 255))

theorem Remembers.getNewer (hr : Remembers h lines) : Remembers h.getNewer.2 lines := by
  unfold History.getNewer
  split
  · exact hr
  · split
    · exact hr
    · dsimp only
      split
      · exact hr.move (Nat.mod_lt _ (Nat.succ_pos 255))
      · exact hr.move (Nat.mod_lt _ (Nat.succ_pos 255))

theorem Remembers.key {e : Editor} {ev : KeyEvent} (hr : Remembers e.history e.lines)
    (hlt : e.text.length < historyLineMax) : Remembers (e.key ev).history (e.key ev).lines := by
  unfold Editor.key
  split
  · exact hr
  · split
    · exact hr.add hlt
    · exact hr
    · have hmove := hr.getOlder
      generalize e.history.getOlder = r at hmove ⊢
      obtain ⟨_ | line, history⟩ := r <;> exact hmove
    · have hmove := hr.getNewer
      generalize e.history.getNewer = r at hmove ⊢
      obtain ⟨_ | line, history⟩ := r <;> exact hmove
    · split <;> exact hr

end Remembers

/-- What `history_dump` prints after any keys, the arrow keys among them: of the lines that
    `readline` has returned, less the empty ones and the repetitions, the last 256. -/
theorem history_of_entered (behind buffer : Mem) (scancodes : List UInt8) :
    (Readline.run behind buffer scancodes).history.dump.map Prod.snd
      = (History.kept (Readline.run behind buffer scancodes).lines).drop
          ((History.kept (Readline.run behind buffer scancodes).lines).length - 256) := by
  have hshows := shows_run behind buffer scancodes
  have hr : Remembers (Editor.run scancodes).history (Editor.run scancodes).lines := by
    clear hshows
    induction scancodes using List.reverseRecOn with
    | nil => exact ⟨⟨History.inv_boot.1, Nat.succ_pos 255⟩, rfl⟩
    | append_singleton scancodes scancode ih =>
        have htext := (shows_run behind buffer scancodes).text.length_le
        unfold Editor.run at ih htext ⊢
        rw [List.foldl_append]
        generalize scancodes.foldl Editor.feed Editor.boot = e at ih htext ⊢
        exact Remembers.key (e := { e with shift := _ }) ih (Nat.lt_succ_of_le htext)
  rw [hshows.history, hshows.lines, History.dump_eq hr.inRange.toWellFormed, hr.stored,
    List.reverse_take, List.reverse_reverse, List.length_reverse]

end Icarius
