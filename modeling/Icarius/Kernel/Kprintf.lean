/-
  Icarius.Kernel.Kprintf

  `kprintf` of `src/x86/lib/stdio.c` on the text screen of `Icarius.Graphic.VbeText`.  The
  formats, the strings and the pixels are all in one memory, so a string is the one that was
  meant only because drawing stays inside the framebuffer.

  A `'%'` takes the next byte of the format with it, whatever that byte is.  Behind the last
  character it takes the NUL, and the format goes on behind it.
-/

import Mathlib.Data.List.GetD
import Icarius.Graphic.VbeText
import Icarius.Kernel.Dtoa

namespace Icarius

open Icarius.Lib

/-! ## stdio.c -/

/-- `VBE_COLOR_GREEN` -/
def vbeColorGreen : Nat := 0x00FF00

/-- `vbe_display`, and the memory with its pixels and everything else -/
structure VbeConsole where
  display : Vbe
  mem : Mem

/-- An argument: an `int`, the address of a string, or the bits of a `double` -/
inductive KernelArg where
  | int (num : BitVec 32)
  | string (str : Nat)
  | double (bits : UInt64)

namespace VbeConsole

/-- `vbe_draw_ch` -/
def drawCh (asciiBitmap : Nat → Nat → UInt8) (self : VbeConsole) (ch : UInt8) (color : Nat) :
    VbeConsole :=
  let (actions, display) := self.display.drawCh asciiBitmap ch.toInt8 color
  ⟨display, actions.foldl self.display.perform self.mem⟩

/-- `vbe_draw_string`, for strings of less than `fuel` characters -/
def drawString (asciiBitmap : Nat → Nat → UInt8) (color : Nat) :
    Nat → VbeConsole → Nat → Option VbeConsole
  | 0, _, _ => none
  | fuel + 1, self, str =>
      if self.mem str = 0 then some self
      else
        drawString asciiBitmap color fuel (self.drawCh asciiBitmap (self.mem str) color) (str + 1)

/-- `char buffer[64]` of `vkprintf`, at the address `buffer` -/
def setBuffer (self : VbeConsole) (buffer : Nat) (m : Mem) : VbeConsole :=
  { self with mem := fun a => if buffer ≤ a ∧ a < buffer + 64 then m (a - buffer) else self.mem a }

section Vkprintf

variable (asciiBitmap : Nat → Nat → UInt8) (parts : UInt64 → FloatParts) (buffer : Nat)

/-- `vkprintf`, in `fuel` rounds at most.  `parts` is what the floating-point instructions of
    `dtoa` make of a double; an argument of another type is not read. -/
def vkprintf : Nat → VbeConsole → Nat → List KernelArg → Option VbeConsole
  | 0, _, _, _ => none
  | fuel + 1, self, fmt, args =>
      if self.mem fmt = 0 then some self
      else if self.mem fmt = 37 then
        let ch := self.mem (fmt + 1)
        let fmt := fmt + 2
        if ch = 37 then vkprintf fuel (self.drawCh asciiBitmap 37 vbeColorGreen) fmt args
        else if ch = 99 then
          match args with
          | .int num :: args =>
              vkprintf fuel (self.drawCh asciiBitmap (UInt8.ofNat num.toNat) vbeColorGreen) fmt args
          | _ => none
        else if ch = 115 then
          match args with
          | .string str :: args => do
              let self ← drawString asciiBitmap vbeColorGreen fuel self str
              vkprintf fuel self fmt args
          | _ => none
        else if ch = 100 then
          match args with
          | .int num :: args => do
              let m ← itoa num (fun i => self.mem (buffer + i)) 10
              let self ← drawString asciiBitmap vbeColorGreen fuel (self.setBuffer buffer m) buffer
              vkprintf fuel self fmt args
          | _ => none
        else if ch = 120 then
          match args with
          | .int num :: args => do
              let m ← utoa num (fun i => self.mem (buffer + i)) 16
              let self ← drawString asciiBitmap vbeColorGreen fuel (self.setBuffer buffer m) buffer
              vkprintf fuel self fmt args
          | _ => none
        else if ch = 102 then
          match args with
          | .double bits :: args => do
              let m ← dtoa (parts bits) (fun i => self.mem (buffer + i)) 6
              let self ← drawString asciiBitmap vbeColorGreen fuel (self.setBuffer buffer m) buffer
              vkprintf fuel self fmt args
          | _ => none
        else vkprintf fuel self fmt args
      else vkprintf fuel (self.drawCh asciiBitmap (self.mem fmt) vbeColorGreen) (fmt + 1) args

end Vkprintf

end VbeConsole

/-! ## What a format stands for -/

/-- The hexadecimal text of an `unsigned int` -/
def hexText (num : BitVec 32) : List UInt8 := numeralText 16 num.toNat

/-- The text at an address, with its NUL, all of it at places that are `kept` -/
structure StringAt (kept : Nat → Prop) (m : Mem) (str : Nat) (text : List UInt8) : Prop where
  kept : ∀ i ≤ text.length, kept (str + i)
  bytes : ∀ i ≤ text.length, m (str + i) = text.getD i 0

/-- A format, its arguments and the characters they stand for.  A NUL can be the character
    behind a `'%'` only. -/
inductive Expands (parts : UInt64 → FloatParts) (kept : Nat → Prop) (m : Mem) :
    List UInt8 → List KernelArg → List UInt8 → Prop
  | nil (args : List KernelArg) : Expands parts kept m [] args []
  | char {c : UInt8} {fmt : List UInt8} {args : List KernelArg} {out : List UInt8} (hnul : c ≠ 0)
      (hpercent : c ≠ 37) (h : Expands parts kept m fmt args out) :
      Expands parts kept m (c :: fmt) args (c :: out)
  | percent {fmt : List UInt8} {args : List KernelArg} {out : List UInt8}
      (h : Expands parts kept m fmt args out) :
      Expands parts kept m (37 :: 37 :: fmt) args (37 :: out)
  | c {fmt : List UInt8} {args : List KernelArg} {out : List UInt8} (num : BitVec 32)
      (h : Expands parts kept m fmt args out) :
      Expands parts kept m (37 :: 99 :: fmt) (.int num :: args) (UInt8.ofNat num.toNat :: out)
  | s {fmt : List UInt8} {args : List KernelArg} {out : List UInt8} {str : Nat}
      {text : List UInt8} (hnul : 0 ∉ text) (htext : StringAt kept m str text)
      (h : Expands parts kept m fmt args out) :
      Expands parts kept m (37 :: 115 :: fmt) (.string str :: args) (text ++ out)
  | d {fmt : List UInt8} {args : List KernelArg} {out : List UInt8} (num : BitVec 32)
      (h : Expands parts kept m fmt args out) :
      Expands parts kept m (37 :: 100 :: fmt) (.int num :: args) (intText num ++ out)
  | x {fmt : List UInt8} {args : List KernelArg} {out : List UInt8} (num : BitVec 32)
      (h : Expands parts kept m fmt args out) :
      Expands parts kept m (37 :: 120 :: fmt) (.int num :: args) (hexText num ++ out)
  | f {fmt : List UInt8} {args : List KernelArg} {out : List UInt8} (bits : UInt64)
      (h : Expands parts kept m fmt args out) :
      Expands parts kept m (37 :: 102 :: fmt) (.double bits :: args)
        (doubleText (parts bits) 6 ++ out)
  | other {ch : UInt8} {fmt : List UInt8} {args : List KernelArg} {out : List UInt8}
      (hch : ch ∉ [37, 99, 115, 100, 120, 102]) (h : Expands parts kept m fmt args out) :
      Expands parts kept m (37 :: ch :: fmt) args out

/-- The screen with some characters put on it, all of them in green -/
def TextScreen.puts (t : TextScreen) (text : List UInt8) : TextScreen :=
  text.foldl (fun t ch => t.putc ch.toInt8 vbeColorGreen) t

theorem TextScreen.puts_append (t : TextScreen) (text text' : List UInt8) :
    t.puts (text ++ text') = (t.puts text).puts text' := List.foldl_append

/-! ## Characters and strings on the screen -/

namespace VbeConsole

section Screen

variable {asciiBitmap : Nat → Nat → UInt8} {display : Vbe} {h : display.Mode} {self : VbeConsole}
  {t : TextScreen}

/-- The console shows the screen of text. -/
structure Shows (asciiBitmap : Nat → Nat → UInt8) (h : display.Mode) (console : VbeConsole)
    (t : TextScreen) : Prop where
  text : Vbe.ShowsText asciiBitmap display h console.display console.mem t
  good : t.Good

/-- A character changes the framebuffer only. -/
theorem Shows.drawCh (hshows : self.Shows asciiBitmap h t) (ch : UInt8) :
    (self.drawCh asciiBitmap ch vbeColorGreen).Shows asciiBitmap h
        (t.putc ch.toInt8 vbeColorGreen) ∧
      (display.raster h).KeepsOutside self.mem (self.drawCh asciiBitmap ch vbeColorGreen).mem := by
  have hcolor : vbeColorGreen < 2 ^ 32 := by decide
  obtain ⟨⟨hdrawn, hgood⟩, hkeep⟩ := hshows.text.drawCh hshows.good ch.toInt8 hcolor
  exact ⟨⟨hdrawn, hgood⟩, hkeep⟩

/-- An address outside the framebuffer -/
def Outside (display : Vbe) (a : Nat) : Prop :=
  a < display.addr ∨ display.addr + display.height * display.pitch ≤ a

/-- What is outside the framebuffer is no pixel. -/
theorem Shows.congr (hshows : self.Shows asciiBitmap h t) {m : Mem}
    (hsame : ∀ a, ¬ Outside display a → m a = self.mem a) :
    ({ self with mem := m } : VbeConsole).Shows asciiBitmap h t := by
  refine ⟨⟨hshows.text.mode, hshows.text.columns, hshows.text.rows, ?_⟩, hshows.good⟩
  refine hshows.text.pixels.congr_inside fun a hstart hend => hsame a fun hout => ?_
  have hstart' : display.addr ≤ a := hstart
  have hend' : a < display.addr + display.height * display.pitch := hend
  unfold Outside at hout
  omega

/-- A string outside the framebuffer is drawn as it was before. -/
theorem Shows.drawString {str : Nat} (text : List UInt8) (hshows : self.Shows asciiBitmap h t)
    (hnul : 0 ∉ text) (htext : StringAt (Outside display) self.mem str text) :
    ∃ drawn, (∀ fuel, text.length < fuel →
        self.drawString asciiBitmap vbeColorGreen fuel str = some drawn) ∧
      drawn.Shows asciiBitmap h (t.puts text) ∧
      (display.raster h).KeepsOutside self.mem drawn.mem := by
  -- over the text; the rest of it is where it was when its first character has been drawn
  induction text generalizing self t str with
  | nil =>
      refine ⟨self, fun fuel hfuel => ?_, hshows, .refl _ _⟩
      obtain ⟨fuel, rfl⟩ : ∃ k, fuel = k + 1 := ⟨fuel - 1, by omega⟩
      exact if_pos (htext.bytes 0 (Nat.le_refl 0))
  | cons ch text ih =>
      have hch : self.mem str = ch := htext.bytes 0 (Nat.zero_le _)
      have hne : ch ≠ 0 := fun hzero => hnul (hzero ▸ List.mem_cons_self)
      obtain ⟨hshows', hkeep⟩ := hshows.drawCh ch
      have hrest : StringAt (Outside display) (self.drawCh asciiBitmap ch vbeColorGreen).mem
          (str + 1) text := by
        have hplace : ∀ i, str + 1 + i = str + (i + 1) := fun i => by omega
        refine ⟨fun i hi => ?_, fun i hi => ?_⟩
        · rw [hplace]
          exact htext.kept (i + 1) (Nat.succ_le_succ hi)
        · rw [hplace, hkeep _ (htext.kept (i + 1) (Nat.succ_le_succ hi))]
          exact htext.bytes (i + 1) (Nat.succ_le_succ hi)
      obtain ⟨drawn, hdrawn, hshows'', hkeep'⟩ :=
        ih hshows' (fun hmem => hnul (List.mem_cons_of_mem ch hmem)) hrest
      refine ⟨drawn, fun fuel hfuel => ?_, hshows'', hkeep.trans hkeep'⟩
      obtain ⟨fuel, rfl⟩ : ∃ k, fuel = k + 1 := ⟨fuel - 1, by omega⟩
      unfold VbeConsole.drawString
      rw [hch, if_neg hne]
      exact hdrawn fuel (Nat.lt_of_succ_lt_succ hfuel)

/-- The local buffer with a text in it -/
theorem Shows.setBuffer {buffer : Nat} {text : List UInt8} (hshows : self.Shows asciiBitmap h t)
    (hbuffer : ∀ i < 64, Outside display (buffer + i)) (temp : Mem) (hlen : text.length < 64) :
    (self.setBuffer buffer (temp.write 0 (text ++ [0]))).Shows asciiBitmap h t ∧
      StringAt (Outside display) (self.setBuffer buffer (temp.write 0 (text ++ [0]))).mem buffer
        text := by
  refine ⟨hshows.congr fun a hpixel => if_neg ?_, ?_, ?_⟩
  · rintro ⟨hle, hlt⟩
    have hout := hbuffer (a - buffer) (by omega)
    rw [Nat.add_sub_cancel' hle] at hout
    exact hpixel hout
  · exact fun i hi => hbuffer i (Nat.lt_of_le_of_lt hi hlen)
  · -- the bytes of the text, and the NUL behind them
    intro i hi
    have hin : buffer ≤ buffer + i ∧ buffer + i < buffer + 64 := by omega
    show (if buffer ≤ buffer + i ∧ buffer + i < buffer + 64
      then temp.write 0 (text ++ [0]) (buffer + i - buffer) else _) = _
    have hlt : i < (text ++ [0]).length := by
      rw [List.length_append, List.length_singleton]
      omega
    have hbyte : (text ++ [0])[i] = text.getD i 0 := by
      rw [List.getElem_eq_getD 0]
      by_cases hchar : i < text.length
      · rw [List.getD_append _ _ _ _ hchar]
      · obtain rfl : i = text.length := by omega
        rw [List.getD_append_right _ _ _ _ (Nat.le_refl _), Nat.sub_self]
        exact (List.getD_eq_default _ _ (Nat.le_refl _)).symm
    rw [if_pos hin, Nat.add_sub_cancel_left, Mem.write_zero hlt, hbyte]

/-- A text by way of the local buffer -/
theorem Shows.drawBuffer {buffer : Nat} {text : List UInt8} (hshows : self.Shows asciiBitmap h t)
    (hbuffer : ∀ i < 64, Outside display (buffer + i)) (temp : Mem) (hnul : 0 ∉ text)
    (hlen : text.length < 64) : ∃ drawn, (∀ fuel, text.length < fuel →
        (self.setBuffer buffer (temp.write 0 (text ++ [0]))).drawString asciiBitmap vbeColorGreen
          fuel buffer = some drawn) ∧
      drawn.Shows asciiBitmap h (t.puts text) ∧
      ∀ a, Outside display a → a < buffer ∨ buffer + 64 ≤ a → drawn.mem a = self.mem a := by
  obtain ⟨hfilled, htext⟩ := hshows.setBuffer hbuffer temp hlen
  obtain ⟨drawn, hdrawn, hshows', hkeep⟩ := hfilled.drawString text hnul htext
  refine ⟨drawn, hdrawn, hshows', fun a hout hapart => ?_⟩
  rw [hkeep a hout]
  exact if_neg (by omega)

end Screen

/-! ## Numbers -/

theorem length_hexText (num : BitVec 32) : (hexText num).length < 64 := by
  have hdigits := length_numeral_le (show 2 ≤ 16 by decide) (show 0 < 32 by decide) num.isLt
  unfold hexText numeralText
  rw [List.length_map]
  omega

theorem zero_not_mem_hexText (num : BitVec 32) : 0 ∉ hexText num :=
  zero_not_mem_numeralText (by decide) (by decide) num.toNat

/-! ## A call -/

end VbeConsole

section Text

variable {kept kept' : Nat → Prop} {m m' : Mem} {str : Nat} {ch : UInt8} {text : List UInt8}

theorem StringAt.head (h : StringAt kept m str (ch :: text)) : m str = ch :=
  h.bytes 0 (Nat.zero_le _)

theorem StringAt.tail (h : StringAt kept m str (ch :: text)) : StringAt kept m (str + 1) text := by
  have hplace : ∀ i, str + 1 + i = str + (i + 1) := fun i => by omega
  refine ⟨fun i hi => ?_, fun i hi => ?_⟩
  · rw [hplace]
    exact h.kept (i + 1) (Nat.succ_le_succ hi)
  · rw [hplace]
    exact h.bytes (i + 1) (Nat.succ_le_succ hi)

/-- A text does not change when nothing that is kept does. -/
theorem StringAt.congr (h : StringAt kept m str text) (hsame : ∀ a, kept a → m' a = m a) :
    StringAt kept m' str text :=
  ⟨h.kept, fun i hi => (hsame _ (h.kept i hi)).trans (h.bytes i hi)⟩

theorem StringAt.mono (h : StringAt kept m str text) (hkept : ∀ a, kept a → kept' a) :
    StringAt kept' m str text :=
  ⟨fun i hi => hkept _ (h.kept i hi), h.bytes⟩

end Text

namespace VbeConsole

/-- The places that `vkprintf` does not write to: neither pixels nor its local buffer -/
def Kept (display : Vbe) (buffer a : Nat) : Prop :=
  Outside display a ∧ (a < buffer ∨ buffer + 64 ≤ a)

section Call

variable {asciiBitmap : Nat → Nat → UInt8} {parts : UInt64 → FloatParts} {buffer : Nat}
  {display : Vbe} {h : display.Mode} {self : VbeConsole} {t : TextScreen} {m : Mem} {fmt fuel : Nat}
  {args : List KernelArg}

/-- A `'%'`, and the character behind it -/
theorem vkprintf_percent {ch : UInt8} (hpercent : self.mem fmt = 37)
    (hch : self.mem (fmt + 1) = ch) (harg : ch ∉ [99, 115, 100, 120, 102]) :
    self.vkprintf asciiBitmap parts buffer (fuel + 1) fmt args
      = (if ch = 37 then self.drawCh asciiBitmap 37 vbeColorGreen else self).vkprintf asciiBitmap
          parts buffer fuel (fmt + 2) args := by
  simp only [List.mem_cons, List.not_mem_nil, or_false, not_or] at harg
  obtain ⟨hc, hs, hd, hx, hf⟩ := harg
  conv => lhs; unfold vkprintf
  rw [hpercent, if_neg (by decide), if_pos rfl, hch]
  dsimp only
  by_cases hpair : ch = 37
  · rw [if_pos hpair, if_pos hpair]
  · rw [if_neg hpair, if_neg hc, if_neg hs, if_neg hd, if_neg hx, if_neg hf, if_neg hpair]

/-- Another character -/
theorem vkprintf_char {ch : UInt8} (hch : self.mem fmt = ch) (hnul : ch ≠ 0) (hpercent : ch ≠ 37) :
    self.vkprintf asciiBitmap parts buffer (fuel + 1) fmt args
      = (self.drawCh asciiBitmap ch vbeColorGreen).vkprintf asciiBitmap parts buffer fuel (fmt + 1)
          args := by
  conv => lhs; unfold vkprintf
  rw [hch, if_neg hnul, if_neg hpercent]

/-- The conversions with an argument -/
theorem vkprintf_c {num : BitVec 32} (hpercent : self.mem fmt = 37)
    (hch : self.mem (fmt + 1) = 99) :
    self.vkprintf asciiBitmap parts buffer (fuel + 1) fmt (.int num :: args)
      = (self.drawCh asciiBitmap (UInt8.ofNat num.toNat) vbeColorGreen).vkprintf asciiBitmap parts
          buffer fuel (fmt + 2) args := by
  conv => lhs; unfold vkprintf
  rw [hpercent, if_neg (by decide), if_pos rfl, hch]
  rfl

theorem vkprintf_s {str : Nat} {drawn : VbeConsole} (hpercent : self.mem fmt = 37)
    (hch : self.mem (fmt + 1) = 115)
    (hdrawn : self.drawString asciiBitmap vbeColorGreen fuel str = some drawn) :
    self.vkprintf asciiBitmap parts buffer (fuel + 1) fmt (.string str :: args)
      = drawn.vkprintf asciiBitmap parts buffer fuel (fmt + 2) args := by
  conv => lhs; unfold vkprintf
  rw [hpercent, if_neg (by decide), if_pos rfl, hch]
  show (self.drawString asciiBitmap vbeColorGreen fuel str).bind _ = _
  rw [hdrawn]
  rfl

theorem vkprintf_d {num : BitVec 32} {drawn : VbeConsole} (hpercent : self.mem fmt = 37)
    (hch : self.mem (fmt + 1) = 100)
    (hdrawn : (self.setBuffer buffer (Mem.write (fun i => self.mem (buffer + i)) 0
      (intText num ++ [0]))).drawString asciiBitmap vbeColorGreen fuel buffer = some drawn) :
    self.vkprintf asciiBitmap parts buffer (fuel + 1) fmt (.int num :: args)
      = drawn.vkprintf asciiBitmap parts buffer fuel (fmt + 2) args := by
  conv => lhs; unfold vkprintf
  rw [hpercent, if_neg (by decide), if_pos rfl, hch]
  show (itoa num (fun i => self.mem (buffer + i)) 10).bind _ = _
  rw [itoa_eq ⟨by decide, by decide⟩]
  show ((self.setBuffer buffer (Mem.write (fun i => self.mem (buffer + i)) 0
    (intText num ++ [0]))).drawString asciiBitmap vbeColorGreen fuel buffer).bind _ = _
  rw [hdrawn]
  rfl

theorem vkprintf_x {num : BitVec 32} {drawn : VbeConsole} (hpercent : self.mem fmt = 37)
    (hch : self.mem (fmt + 1) = 120)
    (hdrawn : (self.setBuffer buffer (Mem.write (fun i => self.mem (buffer + i)) 0
      (hexText num ++ [0]))).drawString asciiBitmap vbeColorGreen fuel buffer = some drawn) :
    self.vkprintf asciiBitmap parts buffer (fuel + 1) fmt (.int num :: args)
      = drawn.vkprintf asciiBitmap parts buffer fuel (fmt + 2) args := by
  conv => lhs; unfold vkprintf
  rw [hpercent, if_neg (by decide), if_pos rfl, hch]
  show (utoa num (fun i => self.mem (buffer + i)) 16).bind _ = _
  rw [utoa_eq ⟨by decide, by decide⟩]
  show ((self.setBuffer buffer (Mem.write (fun i => self.mem (buffer + i)) 0
    (hexText num ++ [0]))).drawString asciiBitmap vbeColorGreen fuel buffer).bind _ = _
  rw [hdrawn]
  rfl

theorem vkprintf_f {bits : UInt64} {drawn : VbeConsole} (hpercent : self.mem fmt = 37)
    (hch : self.mem (fmt + 1) = 102)
    (hdrawn : (self.setBuffer buffer (Mem.write (fun i => self.mem (buffer + i)) 0
      (doubleText (parts bits) 6 ++ [0]))).drawString asciiBitmap vbeColorGreen fuel buffer
        = some drawn) :
    self.vkprintf asciiBitmap parts buffer (fuel + 1) fmt (.double bits :: args)
      = drawn.vkprintf asciiBitmap parts buffer fuel (fmt + 2) args := by
  conv => lhs; unfold vkprintf
  rw [hpercent, if_neg (by decide), if_pos rfl, hch]
  show (dtoa (parts bits) (fun i => self.mem (buffer + i)) 6).bind _ = _
  rw [dtoa_eq]
  show ((self.setBuffer buffer (Mem.write (fun i => self.mem (buffer + i)) 0
    (doubleText (parts bits) 6 ++ [0]))).drawString asciiBitmap vbeColorGreen fuel buffer).bind _
      = _
  rw [hdrawn]
  rfl

/-- What a call comes to, if it has `need` rounds: the text is on the screen, and nothing else
    but the pixels and the local buffer has changed. -/
def Prints (asciiBitmap : Nat → Nat → UInt8) (parts : UInt64 → FloatParts) (buffer : Nat)
    (h : display.Mode) (need : Nat) (self : VbeConsole) (fmt : Nat) (args : List KernelArg)
    (t : TextScreen) : Prop :=
  ∃ printed, (∀ fuel, need < fuel →
      self.vkprintf asciiBitmap parts buffer fuel fmt args = some printed) ∧
    printed.Shows asciiBitmap h t ∧ ∀ a, Kept display buffer a → printed.mem a = self.mem a

/-- One piece of the format, and the rest of it -/
theorem Prints.step {next : VbeConsole} {need need' : Nat} {fmt' : Nat} {args' : List KernelArg}
    (hrest : Prints asciiBitmap parts buffer h need next fmt' args' t)
    (hkept : ∀ a, Kept display buffer a → next.mem a = self.mem a)
    (hneed : need < need')
    (hstep : ∀ fuel, need' ≤ fuel → self.vkprintf asciiBitmap parts buffer (fuel + 1) fmt args
      = next.vkprintf asciiBitmap parts buffer fuel fmt' args') :
    Prints asciiBitmap parts buffer h need' self fmt args t := by
  obtain ⟨printed, hprinted, hshows, hsame⟩ := hrest
  refine ⟨printed, fun fuel hfuel => ?_, hshows, fun a ha => (hsame a ha).trans (hkept a ha)⟩
  obtain ⟨fuel, rfl⟩ : ∃ k, fuel = k + 1 := ⟨fuel - 1, by omega⟩
  rw [hstep fuel (Nat.le_of_lt_succ hfuel)]
  exact hprinted fuel (by omega)

/-- A conversion that is printed as a text -/
theorem Prints.conversion {drawn : VbeConsole} {args' : List KernelArg} {ch : UInt8}
    {text bytes out : List UInt8}
    (hrest : Prints asciiBitmap parts buffer h (bytes.length + out.length) drawn (fmt + 2) args'
      ((t.puts text).puts out))
    (hkept : ∀ a, Kept display buffer a → drawn.mem a = self.mem a)
    (hstep : ∀ fuel, text.length < fuel → self.vkprintf asciiBitmap parts buffer (fuel + 1) fmt args
      = drawn.vkprintf asciiBitmap parts buffer fuel (fmt + 2) args') :
    Prints asciiBitmap parts buffer h ((37 :: ch :: bytes).length + (text ++ out).length) self fmt
      args (t.puts (text ++ out)) := by
  have hneed : (37 :: ch :: bytes).length + (text ++ out).length
      = bytes.length + 2 + (text.length + out.length) := by
    rw [List.length_append]
    rfl
  rw [TextScreen.puts_append]
  exact hrest.step hkept (by omega) fun fuel hfuel => hstep fuel (by omega)

theorem prints_of_expands {bytes out : List UInt8}
    (hbuffer : ∀ i < 64, Outside display (buffer + i))
    (hexp : Expands parts (Kept display buffer) m bytes args out)
    (hshows : self.Shows asciiBitmap h t)
    (hsame : ∀ a, Kept display buffer a → self.mem a = m a)
    (hfmt : StringAt (Kept display buffer) m fmt bytes) :
    Prints asciiBitmap parts buffer h (bytes.length + out.length) self fmt args (t.puts out) := by
  -- what drawing a character keeps
  have hdraw : ∀ {self : VbeConsole} {t : TextScreen}, self.Shows asciiBitmap h t →
      (∀ a, Kept display buffer a → self.mem a = m a) → ∀ ch a, Kept display buffer a →
        (self.drawCh asciiBitmap ch vbeColorGreen).mem a = self.mem a :=
    fun hshows _ ch a ha => (hshows.drawCh ch).2 a ha.1
  have hfirst : ∀ {self : VbeConsole} {fmt : Nat} {c : UInt8} {bytes : List UInt8},
      (∀ a, Kept display buffer a → self.mem a = m a) →
      StringAt (Kept display buffer) m fmt (c :: bytes) → self.mem fmt = c :=
    fun hsame hfmt => (hsame _ (hfmt.kept 0 (Nat.zero_le _))).trans hfmt.head
  induction hexp generalizing self t fmt with
  | nil args =>
      refine ⟨self, fun fuel hfuel => ?_, hshows, fun _ _ => rfl⟩
      obtain ⟨fuel, rfl⟩ : ∃ k, fuel = k + 1 := ⟨fuel - 1, by omega⟩
      have hend : self.mem fmt = 0 := (hsame _ (hfmt.kept 0 (Nat.le_refl 0))).trans
        (hfmt.bytes 0 (Nat.le_refl 0))
      unfold vkprintf
      rw [hend]
      rfl
  | @char c bytes args out hnul hpercent _ ih =>
      have hkept := hdraw hshows hsame c
      have hrest := ih (hshows.drawCh c).1 (fun a ha => (hkept a ha).trans (hsame a ha)) hfmt.tail
      exact hrest.step hkept (by simp only [List.length_cons]; omega)
        fun fuel _ => vkprintf_char (hfirst hsame hfmt) hnul hpercent
  | @percent bytes args out _ ih =>
      have hkept := hdraw hshows hsame 37
      have hrest := ih (hshows.drawCh 37).1 (fun a ha => (hkept a ha).trans (hsame a ha))
        hfmt.tail.tail
      exact hrest.step hkept (by simp only [List.length_cons]; omega) fun fuel _ =>
        vkprintf_percent (hfirst hsame hfmt) (hfirst hsame hfmt.tail) (by decide)
  | @other ch bytes args out hch _ ih =>
      have hrest := ih hshows hsame hfmt.tail.tail
      have hpair : ch ≠ 37 := fun heq => hch (heq ▸ List.mem_cons_self)
      refine hrest.step (fun _ _ => rfl) (by simp only [List.length_cons]; omega) fun fuel _ => ?_
      rw [vkprintf_percent (hfirst hsame hfmt) (hfirst hsame hfmt.tail)
        fun hmem => hch (List.mem_cons_of_mem _ hmem), if_neg hpair]
  | @c bytes args out num _ ih =>
      have hkept := hdraw hshows hsame (UInt8.ofNat num.toNat)
      have hrest := ih (hshows.drawCh _).1 (fun a ha => (hkept a ha).trans (hsame a ha))
        hfmt.tail.tail
      exact hrest.step hkept (by simp only [List.length_cons]; omega) fun fuel _ =>
        vkprintf_c (hfirst hsame hfmt) (hfirst hsame hfmt.tail)
  | @s bytes args out str text hnul htext _ ih =>
      have htext' : StringAt (Outside display) self.mem str text :=
        (htext.congr hsame).mono fun _ ha => ha.1
      obtain ⟨drawn, hdrawn, hshows', hkeep⟩ := hshows.drawString text hnul htext'
      have hkept : ∀ a, Kept display buffer a → drawn.mem a = self.mem a :=
        fun a ha => hkeep a ha.1
      have hrest := ih hshows' (fun a ha => (hkept a ha).trans (hsame a ha)) hfmt.tail.tail
      exact hrest.conversion hkept fun fuel hfuel =>
        vkprintf_s (hfirst hsame hfmt) (hfirst hsame hfmt.tail) (hdrawn fuel hfuel)
  | @d bytes args out num _ ih =>
      obtain ⟨drawn, hdrawn, hshows', hkeep⟩ := hshows.drawBuffer hbuffer
        (fun i => self.mem (buffer + i)) (zero_not_mem_intText num)
        (Nat.lt_of_le_of_lt (length_intText num) (by decide))
      have hkept : ∀ a, Kept display buffer a → drawn.mem a = self.mem a :=
        fun a ha => hkeep a ha.1 ha.2
      have hrest := ih hshows' (fun a ha => (hkept a ha).trans (hsame a ha)) hfmt.tail.tail
      exact hrest.conversion hkept fun fuel hfuel =>
        vkprintf_d (hfirst hsame hfmt) (hfirst hsame hfmt.tail) (hdrawn fuel hfuel)
  | @x bytes args out num _ ih =>
      obtain ⟨drawn, hdrawn, hshows', hkeep⟩ := hshows.drawBuffer hbuffer
        (fun i => self.mem (buffer + i)) (zero_not_mem_hexText num) (length_hexText num)
      have hkept : ∀ a, Kept display buffer a → drawn.mem a = self.mem a :=
        fun a ha => hkeep a ha.1 ha.2
      have hrest := ih hshows' (fun a ha => (hkept a ha).trans (hsame a ha)) hfmt.tail.tail
      exact hrest.conversion hkept fun fuel hfuel =>
        vkprintf_x (hfirst hsame hfmt) (hfirst hsame hfmt.tail) (hdrawn fuel hfuel)
  | @f bytes args out bits _ ih =>
      obtain ⟨drawn, hdrawn, hshows', hkeep⟩ := hshows.drawBuffer hbuffer
        (fun i => self.mem (buffer + i)) (zero_not_mem_doubleText (parts bits) 6)
        (length_doubleText (parts bits) 6)
      have hkept : ∀ a, Kept display buffer a → drawn.mem a = self.mem a :=
        fun a ha => hkeep a ha.1 ha.2
      have hrest := ih hshows' (fun a ha => (hkept a ha).trans (hsame a ha)) hfmt.tail.tail
      exact hrest.conversion hkept fun fuel hfuel =>
        vkprintf_f (hfirst hsame hfmt) (hfirst hsame hfmt.tail) (hdrawn fuel hfuel)

end Call

/-! ## Runs -/

/-- What the kernel does: a call of `kprintf`, with the place of its local buffer on the stack,
    the format and the characters it stands for, or a byte that it stores anywhere else -/
inductive Event where
  | kprintf (buffer fmt : Nat) (args : List KernelArg) (bytes out : List UInt8)
  | store (a : Nat) (b : UInt8)

/-- The characters that an event puts on the screen -/
def Event.out : Event → List UInt8
  | .kprintf _ _ _ _ out => out
  | .store _ _ => []

section Runs

variable (asciiBitmap : Nat → Nat → UInt8) (parts : UInt64 → FloatParts)

/-- An event; a call has as many rounds as its format and its characters need. -/
def step (self : VbeConsole) : Event → Option VbeConsole
  | .kprintf buffer fmt args bytes out =>
      self.vkprintf asciiBitmap parts buffer (bytes.length + out.length + 1) fmt args
  | .store a b => some { self with mem := self.mem.write a [b] }

/-- The format is in the memory and stands for the characters, with its strings as they are at
    the time of the call; neither the stack nor what else is stored is in the framebuffer. -/
def Admits (display : Vbe) (self : VbeConsole) : Event → Prop
  | .kprintf buffer fmt args bytes out =>
      (∀ i < 64, Outside display (buffer + i)) ∧
        StringAt (Kept display buffer) self.mem fmt bytes ∧
        Expands parts (Kept display buffer) self.mem bytes args out
  | .store a _ => Outside display a

/-- The console after `vbe_clear` -/
def cleared (display : Vbe) (m : Mem) : VbeConsole :=
  ⟨(display.clear vbeColorBlack).2, (display.clear vbeColorBlack).1.foldl display.perform m⟩

variable {asciiBitmap parts} {display : Vbe} {h : display.Mode} {self : VbeConsole}
  {t : TextScreen}

/-- A byte outside the framebuffer is no pixel. -/
theorem Shows.store (hshows : self.Shows asciiBitmap h t) {a : Nat} (hout : Outside display a)
    (b : UInt8) :
    ({ self with mem := self.mem.write a [b] } : VbeConsole).Shows asciiBitmap h t := by
  refine hshows.congr fun x hpixel => Mem.write_byte_of_ne ?_
  rintro rfl
  exact hpixel hout

theorem shows_cleared (asciiBitmap : Nat → Nat → UInt8) (h : display.Mode) (m : Mem) :
    (cleared display m).Shows asciiBitmap h
      (TextScreen.blank (display.width / 8) (display.height / 8)) :=
  ⟨(Vbe.clear_prints asciiBitmap h m).1, Vbe.good_blank h⟩

/-- An event that is admitted takes place, and the screen has its characters. -/
theorem Shows.step (hshows : self.Shows asciiBitmap h t) {e : Event}
    (hok : Admits parts display self e) :
    ∃ next, self.step asciiBitmap parts e = some next ∧
      next.Shows asciiBitmap h (t.puts e.out) := by
  cases e with
  | kprintf buffer fmt args bytes out =>
      obtain ⟨hbuffer, hfmt, hexp⟩ := hok
      obtain ⟨printed, hprinted, hshows', -⟩ :=
        prints_of_expands hbuffer hexp hshows (fun _ _ => rfl) hfmt
      exact ⟨printed, hprinted _ (Nat.lt_succ_self _), hshows'⟩
  | store a b => exact ⟨_, rfl, hshows.store hok b⟩

/-- From `vbe_clear` on, whatever the kernel prints and stores in between, the display is the
    screen of text with all that the formats stand for: the cursor is on its cell, every pixel
    has its colour, and no admitted call of `kprintf` gets lost in its memory. -/
theorem kprintf_screen (asciiBitmap : Nat → Nat → UInt8) (parts : UInt64 → FloatParts)
    (display : Vbe) (h : display.Mode) (m : Mem) (es : List Event) (s : VbeConsole)
    (hrun : Runs (VbeConsole.step asciiBitmap parts) (Admits parts display) (cleared display m) es s)
    (t : TextScreen)
    (ht : t = es.foldl (fun t e => t.puts e.out)
      (TextScreen.blank (display.width / 8) (display.height / 8))) :
    (s.display.cursorX = 8 * t.column ∧ s.display.cursorY = 8 * t.row) ∧
    (∀ x < display.width, ∀ y < display.height,
      s.mem.load 4 (display.addr + (y * display.pitch + 4 * x)) = t.picture asciiBitmap x y) ∧
    ∀ e, Admits parts display s e → (s.step asciiBitmap parts e).isSome := by
  have hshows : s.Shows asciiBitmap h t := by
    subst ht
    induction hrun with
    | nil => exact shows_cleared asciiBitmap h m
    | @snoc es s s' e hrun hok hstep ih =>
        obtain ⟨next, hnext, hshows⟩ := ih.step hok
        obtain rfl : next = s' := Option.some.inj (hnext.symm.trans hstep)
        rw [List.foldl_append]
        exact hshows
  refine ⟨?_, hshows.text.pixels, fun e hok => ?_⟩
  · rw [hshows.text.mode]
    exact ⟨rfl, rfl⟩
  · obtain ⟨next, hnext, -⟩ := hshows.step hok
    rw [hnext]
    rfl

/-- What `dtoa` finds of -3.14159, for every double -/
def negativePi : UInt64 → FloatParts := fun _ => ⟨true, 3, fun _ => 141590⟩

/-- Memory with `"%d%"` at 0x1000, and `"A"` behind it -/
def percentMem : Mem := Mem.write (fun _ => 7) 0x1000 [37, 100, 37, 0, 65, 0]

/-- The call takes the NUL for a conversion. -/
def percentEvent : Event := .kprintf 0x2000 0x1000 [.int 42] [37, 100, 37, 0, 65] [52, 50, 65]

theorem smallMode_mode : Vbe.smallMode.Mode where
  wide := by decide
  high := by decide
  wide_lt := by decide
  high_lt := by decide
  addr := by decide
  bpp := rfl
  row_fits := by decide
  fits := by decide
  cells := by decide

theorem cleared_mem {display : Vbe} (h : display.Mode) (m : Mem) {a : Nat}
    (hout : Outside display a) : (cleared display m).mem a = m a :=
  (Vbe.clear_prints (fun _ _ => 0) h m).2 a hout

theorem admits_percentEvent (parts : UInt64 → FloatParts) :
    Admits parts Vbe.smallMode (cleared Vbe.smallMode percentMem) percentEvent := by
  have hbuffer : ∀ i < 64, Outside Vbe.smallMode (0x2000 + i) := by
    intro i hi
    refine .inl ?_
    show 0x2000 + i < 0xFD000000
    omega
  have hkept : ∀ i ≤ 5, Kept Vbe.smallMode 0x2000 (0x1000 + i) := by
    intro i hi
    refine ⟨.inl ?_, .inl (by omega)⟩
    show 0x1000 + i < 0xFD000000
    omega
  have hbytes : ∀ i ≤ 5, percentMem (0x1000 + i)
      = [(37 : UInt8), 100, 37, 0, 65].getD i 0 := by decide
  refine ⟨hbuffer, ⟨hkept, fun i hi => ?_⟩, ?_⟩
  · rw [cleared_mem smallMode_mode percentMem (hkept i hi).1]
    exact hbytes i hi
  have hletter : Expands parts (Kept Vbe.smallMode 0x2000)
      (cleared Vbe.smallMode percentMem).mem [65] [] [65] :=
    .char (by decide) (by decide) (.nil [])
  have hnul : Expands parts (Kept Vbe.smallMode 0x2000)
      (cleared Vbe.smallMode percentMem).mem [37, 0, 65] [] [65] := .other (by decide) hletter
  have htext : intText 42 = [52, 50] := by
    simp [intText, uvalueOf, numeralText, numeral, digitChar]
  have hnum := Expands.d 42 hnul
  rw [htext] at hnum
  exact hnum

theorem kprintf_screen_percent : ∃ s t,
    Runs (VbeConsole.step (fun _ _ => 0x18) negativePi) (Admits negativePi Vbe.smallMode)
      (cleared Vbe.smallMode percentMem) [percentEvent] s ∧
    t = [percentEvent].foldl (fun t e => t.puts e.out) (TextScreen.blank 2 2) ∧
    (s.display.cursorX = 8 * t.column ∧ s.display.cursorY = 8 * t.row) ∧
    (∀ x < 16, ∀ y < 20,
      s.mem.load 4 (0xFD000000 + (y * 72 + 4 * x)) = t.picture (fun _ _ => 0x18) x y) ∧
    ∀ e, Admits negativePi Vbe.smallMode s e →
      (s.step (fun _ _ => 0x18) negativePi e).isSome := by
  have hstart := shows_cleared (fun _ _ => 0x18) smallMode_mode percentMem
  have hok := admits_percentEvent negativePi
  obtain ⟨s, hstep, -⟩ := hstart.step hok
  have hnil : Runs (VbeConsole.step (fun _ _ => 0x18) negativePi)
      (Admits negativePi Vbe.smallMode) (cleared Vbe.smallMode percentMem) []
      (cleared Vbe.smallMode percentMem) := .nil
  have hrun := hnil.snoc hok hstep
  obtain ⟨hcursor, hpixels, hnext⟩ := kprintf_screen (fun _ _ => 0x18) negativePi
    Vbe.smallMode smallMode_mode percentMem [percentEvent] s hrun _ rfl
  exact ⟨s, _, hrun, rfl, hcursor, hpixels, hnext⟩

end Runs

end VbeConsole

end Icarius
