/-
  Icarius.Graphic.Vbe

  The console of `src/x86/driver/vbe.c`: glyphs of eight by eight pixels that are drawn
  straight to the framebuffer.  Positions are `uint32_t` and wrap.

  What a character does is the list of its actions: the pixels it asks for, whether or
  not they are on the screen, the rows it moves and the differences it takes.  From a
  cursor with room for a glyph every character draws on the screen, takes no difference
  below zero and leaves a cursor with room for a glyph (`Vbe.drawCh_spec`).
-/

import Icarius.Kernel.Memmove
import Icarius.Lib.Run

namespace Icarius

open Icarius.Lib

/-! ## vbe.c -/

/-- `FONT_WIDTH` -/
def fontWidth : Nat := 8

/-- `FONT_HEIGHT` -/
def fontHeight : Nat := 8

/-- `VBE_COLOR_BLACK` -/
def vbeColorBlack : Nat := 0x000000

/-- `vbe_t`, less the back buffer, which nothing draws to -/
structure Vbe where
  addr : Nat
  width : Nat
  height : Nat
  pitch : Nat
  bpp : Nat
  cursorX : Nat
  cursorY : Nat

/-- `a - b` of two `uint32_t` -/
def sub32 (a b : Nat) : Nat := u32 (a + 2 ^ 32 - b)

/-- What drawing does: `vbe_put_pixel_at`, `memmove`, and the difference of two numbers -/
inductive VbeAction where
  | putPixelAt (x y color : Nat)
  | move (dest src count : Nat)
  | subtract (a b : Nat)
  deriving DecidableEq

namespace Vbe

/-- `calculate_pixel_offset` -/
def calculatePixelOffset (x y pitch bytesPerPixel : Nat) : Nat :=
  u32 (y * pitch + x * bytesPerPixel)

/-- `vbe_put_pixel_at` -/
def putPixelAt (self : Vbe) (x y color : Nat) (m : Mem) : Mem :=
  if x ≥ self.width ∨ y ≥ self.height then m
  else
    let bytesPerPixel := self.bpp / 8
    m.store 4 (u32 (self.addr + calculatePixelOffset x y self.pitch bytesPerPixel)) color

/-- What an action does to the memory -/
def perform (self : Vbe) (m : Mem) : VbeAction → Mem
  | .putPixelAt x y color => self.putPixelAt x y color m
  | .move dest src count => (memmove m dest src count).2
  | .subtract _ _ => m

/-- `vbe_clear_ch` -/
def clearCh (x y color : Nat) : List VbeAction :=
  (List.range fontHeight).flatMap fun row =>
    (List.range fontWidth).map fun col => .putPixelAt (u32 (x + col)) (u32 (y + row)) color

/-- The rows that `vbe_scroll` clears, from `y` on -/
def clearRows (self : Vbe) (y color : Nat) : List VbeAction :=
  (List.range' y (self.height - y)).flatMap fun y =>
    (List.range self.width).map fun x => .putPixelAt x y color

/-- `vbe_scroll` -/
def scroll (self : Vbe) (backgroundColor : Nat) : List VbeAction × Vbe :=
  let scrollBytes := u32 (fontHeight * self.pitch)
  let src := u32 (self.addr + scrollBytes)
  let totalBytes := u32 (sub32 self.height fontHeight * self.pitch)
  ([.subtract self.height fontHeight, .move self.addr src totalBytes,
      .subtract self.height fontHeight]
    ++ self.clearRows (sub32 self.height fontHeight) backgroundColor
    ++ [.subtract self.cursorY fontHeight],
    { self with cursorY := sub32 self.cursorY fontHeight })

/-- The case `'\n'` of `vbe_draw_ch` -/
def newline (self : Vbe) : Vbe :=
  { self with cursorX := 0, cursorY := u32 (self.cursorY + fontHeight) }

/-- The case `'\r'` -/
def carriageReturn (self : Vbe) : Vbe := { self with cursorX := 0 }

/-- The case `'\b'`, up to the erasing -/
def back (self : Vbe) : List VbeAction × Vbe :=
  if self.cursorX ≥ fontWidth then
    ([.subtract self.cursorX fontWidth], { self with cursorX := sub32 self.cursorX fontWidth })
  else if self.cursorY ≥ fontHeight then
    ([.subtract self.cursorY fontHeight, .subtract self.width fontWidth],
      { self with
        cursorY := sub32 self.cursorY fontHeight, cursorX := sub32 self.width fontWidth })
  else ([], self)

/-- The pixels of a glyph; the first one of a row is the lowest bit. -/
def drawBitmap (self : Vbe) (bitmap : Nat → UInt8) (color : Nat) : List VbeAction :=
  (List.range fontHeight).flatMap fun row =>
    (List.range fontWidth).flatMap fun col =>
      if (bitmap row).toNat.testBit col then
        [.putPixelAt (u32 (self.cursorX + col)) (u32 (self.cursorY + row)) color]
      else []

/-- The cursor behind a glyph -/
def advance (self : Vbe) : Vbe :=
  let self := { self with cursorX := u32 (self.cursorX + fontWidth) }
  if u32 (self.cursorX + fontWidth) > self.width then
    { self with cursorX := 0, cursorY := u32 (self.cursorY + fontHeight) }
  else self

/-- The end of `vbe_draw_ch`: below the screen it is scrolled. -/
def scrollBelow (acts : List VbeAction) (self : Vbe) : List VbeAction × Vbe :=
  if u32 (self.cursorY + fontHeight) > self.height then
    (acts ++ (self.scroll vbeColorBlack).1, (self.scroll vbeColorBlack).2)
  else (acts, self)

/-- `vbe_draw_ch` with the table `ascii_bitmap`.  A character that is not ASCII erases its
    cell and returns at once. -/
def drawCh (asciiBitmap : Nat → Nat → UInt8) (self : Vbe) (ch : Int8) (color : Nat) :
    List VbeAction × Vbe :=
  if ch = 10 then scrollBelow [] self.newline
  else if ch = 13 then scrollBelow [] self.carriageReturn
  else if ch = 8 then
    let (acts, self) := self.back
    scrollBelow (acts ++ clearCh self.cursorX self.cursorY vbeColorBlack) self
  else
    let cleared := clearCh self.cursorX self.cursorY vbeColorBlack
    if ch.toInt < 0 ∨ ch.toInt ≥ 128 then (cleared, self)
    else
      scrollBelow (cleared ++ self.drawBitmap (asciiBitmap ch.toInt.toNat) color) self.advance

end Vbe

/-! ## Characters on the screen -/

/-- The display, the memory its pixels are in, and all that has been done -/
structure VbeRun where
  display : Vbe
  mem : Mem
  actions : List VbeAction

/-- A character of a color -/
def VbeRun.step (asciiBitmap : Nat → Nat → UInt8) (s : VbeRun) (e : Int8 × Nat) : Option VbeRun :=
  let drawn := s.display.drawCh asciiBitmap e.1 e.2
  some ⟨drawn.2, drawn.1.foldl s.display.perform s.mem, s.actions ++ drawn.1⟩

/-- The pixel is on a screen of this size, the difference is not below zero. -/
def VbeAction.Fits (width height : Nat) : VbeAction → Prop
  | .putPixelAt x y _ => x < width ∧ y < height
  | .move _ _ _ => True
  | .subtract a b => b ≤ a

namespace Vbe

/-- The screen has room for a glyph, and its size is less than half of a `uint32_t`. -/
structure Sized (display : Vbe) : Prop where
  wide : 8 ≤ display.width
  high : 8 ≤ display.height
  wide_lt : display.width < 2 ^ 31
  high_lt : display.height < 2 ^ 31

/-- A glyph at the cursor is on the screen. -/
def OnScreen (self : Vbe) : Prop :=
  self.cursorX + fontWidth ≤ self.width ∧ self.cursorY + fontHeight ≤ self.height

/-- The size of the screen is not changed. -/
def SameScreen (self self' : Vbe) : Prop :=
  self'.width = self.width ∧ self'.height = self.height

/-- What holds behind each part of `vbe_draw_ch` -/
structure Draws (display : Vbe) (r : List VbeAction × Vbe) : Prop where
  same : display.SameScreen r.2
  onScreen : r.2.OnScreen
  fits : ∀ a ∈ r.1, a.Fits display.width display.height

variable {self self' : Vbe} {acts : List VbeAction}

theorem SameScreen.trans {self'' : Vbe} (h : self.SameScreen self')
    (h' : self'.SameScreen self'') : self.SameScreen self'' :=
  ⟨h'.1.trans h.1, h'.2.trans h.2⟩

theorem SameScreen.sized (h : self.SameScreen self') (hsized : self.Sized) : self'.Sized := by
  obtain ⟨hw, hh⟩ := h
  exact ⟨hw ▸ hsized.wide, hh ▸ hsized.high, hw ▸ hsized.wide_lt, hh ▸ hsized.high_lt⟩

theorem sameScreen_setCursor (self : Vbe) (x y : Nat) :
    self.SameScreen { self with cursorX := x, cursorY := y } := ⟨rfl, rfl⟩

theorem sub32_of_le {a b : Nat} (hle : b ≤ a) (hlt : a < 2 ^ 32) : sub32 a b = a - b := by
  have hsum : a + 2 ^ 32 - b = a - b + 2 ^ 32 := by omega
  rw [sub32, u32, hsum, Nat.add_mod_right]
  exact Nat.mod_eq_of_lt (by omega)

/-! ## Where the pixels are -/

/-- A cell with room on the screen is drawn without a pixel beyond it. -/
theorem fits_pixel {x y row col color : Nat} (hsized : self.Sized)
    (hx : x + fontWidth ≤ self.width) (hy : y + fontHeight ≤ self.height)
    (hrow : row < fontHeight) (hcol : col < fontWidth) :
    (VbeAction.putPixelAt (u32 (x + col)) (u32 (y + row)) color).Fits self.width self.height := by
  have hwide := hsized.wide_lt
  have hhigh := hsized.high_lt
  have hx' : u32 (x + col) = x + col := Nat.mod_eq_of_lt (by omega)
  have hy' : u32 (y + row) = y + row := Nat.mod_eq_of_lt (by omega)
  rw [hx', hy']
  exact ⟨by omega, by omega⟩

theorem fits_clearCh {x y color : Nat} (hsized : self.Sized) (hx : x + fontWidth ≤ self.width)
    (hy : y + fontHeight ≤ self.height) :
    ∀ a ∈ clearCh x y color, a.Fits self.width self.height := by
  intro a ha
  obtain ⟨row, hrow, hcols⟩ := List.mem_flatMap.mp ha
  obtain ⟨col, hcol, rfl⟩ := List.mem_map.mp hcols
  exact fits_pixel hsized hx hy (List.mem_range.mp hrow) (List.mem_range.mp hcol)

theorem fits_drawBitmap {bitmap : Nat → UInt8} {color : Nat} (hsized : self.Sized)
    (hon : self.OnScreen) : ∀ a ∈ self.drawBitmap bitmap color, a.Fits self.width self.height := by
  intro a ha
  obtain ⟨row, hrow, hcols⟩ := List.mem_flatMap.mp ha
  obtain ⟨col, hcol, hpixel⟩ := List.mem_flatMap.mp hcols
  split at hpixel
  · obtain rfl := List.mem_singleton.mp hpixel
    exact fits_pixel hsized hon.1 hon.2 (List.mem_range.mp hrow) (List.mem_range.mp hcol)
  · cases hpixel

theorem fits_clearRows {y color : Nat} :
    ∀ a ∈ self.clearRows y color, a.Fits self.width self.height := by
  intro a ha
  obtain ⟨row, hrow, hcols⟩ := List.mem_flatMap.mp ha
  obtain ⟨col, hcol, rfl⟩ := List.mem_map.mp hcols
  have hrow' := List.mem_range'_1.mp hrow
  exact ⟨List.mem_range.mp hcol, by omega⟩

/-! ## One character -/

theorem scroll_display (self : Vbe) (color : Nat) :
    (self.scroll color).2 = { self with cursorY := sub32 self.cursorY fontHeight } := rfl

theorem scroll_actions (self : Vbe) (color : Nat) :
    (self.scroll color).1 = [.subtract self.height fontHeight,
        .move self.addr (u32 (self.addr + u32 (fontHeight * self.pitch)))
          (u32 (sub32 self.height fontHeight * self.pitch)),
        .subtract self.height fontHeight]
      ++ self.clearRows (sub32 self.height fontHeight) color
      ++ [.subtract self.cursorY fontHeight] := rfl

/-- The check at the end of `vbe_draw_ch`, for a line that is on the screen or the next one
    below it -/
theorem draws_scrollBelow (hsized : self.Sized) (hsame : self.SameScreen self')
    (hacts : ∀ a ∈ acts, a.Fits self.width self.height)
    (hx : self'.cursorX + fontWidth ≤ self.width)
    (hy : self'.cursorY + fontHeight ≤ self.height ∨
      (fontHeight ≤ self'.cursorY ∧ self'.cursorY ≤ self.height)) :
    self.Draws (scrollBelow acts self') := by
  have hwidth := hsame.1
  have hheight := hsame.2
  have hhigh := hsized.high_lt
  have hle := hsized.high
  have hfont : fontHeight = 8 := rfl
  have hsum : u32 (self'.cursorY + fontHeight) = self'.cursorY + fontHeight :=
    Nat.mod_eq_of_lt (by omega)
  unfold scrollBelow
  rw [hsum, hheight]
  -- one scroll brings the line back, since it is the next one at most
  by_cases hbelow : self'.cursorY + fontHeight > self.height
  · obtain ⟨hge, hle'⟩ := hy.resolve_left (Nat.not_le.mpr hbelow)
    have hup : (self'.scroll vbeColorBlack).2
        = { self' with cursorY := self'.cursorY - fontHeight } := by
      rw [scroll_display, sub32_of_le hge (by omega)]
    rw [if_pos hbelow, hup]
    refine ⟨hsame.trans (sameScreen_setCursor _ _ _), ⟨hwidth.symm ▸ hx, ?_⟩, fun a ha => ?_⟩
    · dsimp only
      omega
    · -- two differences with the height, the rows, and the one with the cursor
      rcases List.mem_append.mp ha with ha | ha
      · exact hacts a ha
      · rw [scroll_actions] at ha
        simp only [List.mem_cons, List.mem_append, List.not_mem_nil, or_false] at ha
        rw [hheight] at ha
        rcases ha with ((rfl | rfl | rfl) | ha) | rfl
        · exact hle
        · exact True.intro
        · exact hle
        · rw [← hwidth, ← hheight]
          exact fits_clearRows a ha
        · exact hge
  · rw [if_neg hbelow]
    refine ⟨hsame, ⟨?_, ?_⟩, hacts⟩
    · rw [hwidth]
      exact hx
    · rw [hheight]
      exact Nat.le_of_not_lt hbelow

/-- A step back takes no difference below zero, and leaves a cursor with room for a glyph. -/
theorem draws_back (hsized : self.Sized) (hon : self.OnScreen) : self.Draws self.back := by
  obtain ⟨hx, hy⟩ := hon
  have hwide := hsized.wide_lt
  have hhigh := hsized.high_lt
  have hle := hsized.wide
  unfold back
  split
  · rename_i hroom
    have hleft : sub32 self.cursorX fontWidth = self.cursorX - fontWidth :=
      sub32_of_le hroom (by omega)
    rw [hleft]
    refine ⟨sameScreen_setCursor _ _ _, ⟨?_, hy⟩, fun a ha => ?_⟩
    · dsimp only
      omega
    · obtain rfl := List.mem_singleton.mp ha
      exact hroom
  · split
    · rename_i hroom
      have hup : sub32 self.cursorY fontHeight = self.cursorY - fontHeight :=
        sub32_of_le hroom (by omega)
      have hend : sub32 self.width fontWidth = self.width - fontWidth :=
        sub32_of_le hle (by omega)
      rw [hup, hend]
      refine ⟨sameScreen_setCursor _ _ _, ⟨?_, ?_⟩, fun a ha => ?_⟩
      · exact Nat.le_of_eq (Nat.sub_add_cancel hle)
      · dsimp only
        omega
      · rcases List.mem_cons.mp ha with rfl | ha
        · exact hroom
        · obtain rfl := List.mem_singleton.mp ha
          exact hle
    · exact ⟨sameScreen_setCursor _ _ _, ⟨hx, hy⟩, fun _ ha => absurd ha List.not_mem_nil⟩

/-- Behind a glyph the cursor has room for one on its line, which is the line of the glyph
    or the next one. -/
theorem advance_spec (hsized : self.Sized) (hon : self.OnScreen) :
    self.SameScreen self.advance ∧ self.advance.cursorX + fontWidth ≤ self.width ∧
      (self.advance.cursorY = self.cursorY ∨
        self.advance.cursorY = self.cursorY + fontHeight) := by
  obtain ⟨hx, hy⟩ := hon
  have hwide := hsized.wide_lt
  have hhigh := hsized.high_lt
  have hfont : fontWidth = 8 := rfl
  have hright : u32 (self.cursorX + fontWidth) = self.cursorX + fontWidth :=
    Nat.mod_eq_of_lt (by omega)
  have hnext : u32 (self.cursorX + fontWidth + fontWidth)
      = self.cursorX + fontWidth + fontWidth := Nat.mod_eq_of_lt (by omega)
  have hdown : u32 (self.cursorY + fontHeight) = self.cursorY + fontHeight :=
    Nat.mod_eq_of_lt (by omega)
  unfold advance
  simp only [hright, hnext, hdown]
  split
  · exact ⟨sameScreen_setCursor _ _ _, by rw [Nat.zero_add]; exact hsized.wide, .inr rfl⟩
  · rename_i hroom
    exact ⟨sameScreen_setCursor _ _ _, Nat.le_of_not_lt hroom, .inl rfl⟩

/-- `vbe_draw_ch` from a cursor with room for a glyph -/
theorem drawCh_spec (asciiBitmap : Nat → Nat → UInt8) (hsized : self.Sized)
    (hon : self.OnScreen) (ch : Int8) (color : Nat) :
    self.Draws (self.drawCh asciiBitmap ch color) := by
  obtain ⟨hx, hy⟩ := hon
  have hhigh := hsized.high_lt
  have hzero : 0 + fontWidth ≤ self.width := hsized.wide
  have hnone : ∀ a ∈ ([] : List VbeAction), a.Fits self.width self.height :=
    fun _ ha => absurd ha List.not_mem_nil
  unfold drawCh
  -- `'\n'`, `'\r'`, `'\b'`, and the characters that have a cell
  split
  · have hdown : u32 (self.cursorY + fontHeight) = self.cursorY + fontHeight :=
      Nat.mod_eq_of_lt (by omega)
    unfold newline
    rw [hdown]
    refine draws_scrollBelow hsized (sameScreen_setCursor _ _ _) hnone hzero (.inr ?_)
    exact ⟨Nat.le_add_left _ _, hy⟩
  · split
    · exact draws_scrollBelow hsized (sameScreen_setCursor _ _ _) hnone hzero (.inl hy)
    · split
      · -- the step back, and the cell it leads to
        have hback := draws_back hsized ⟨hx, hy⟩
        have hx' := hback.onScreen.1
        have hy' := hback.onScreen.2
        rw [hback.same.1] at hx'
        rw [hback.same.2] at hy'
        refine draws_scrollBelow hsized hback.same (fun a ha => ?_) hx' (.inl hy')
        rcases List.mem_append.mp ha with ha | ha
        · exact hback.fits a ha
        · exact fits_clearCh hsized hx' hy' a ha
      · have hclear : ∀ a ∈ clearCh self.cursorX self.cursorY vbeColorBlack,
            a.Fits self.width self.height := fits_clearCh hsized hx hy
        split
        · exact ⟨sameScreen_setCursor _ _ _, ⟨hx, hy⟩, hclear⟩
        · obtain ⟨hsame, hx', hy'⟩ := advance_spec hsized ⟨hx, hy⟩
          refine draws_scrollBelow hsized hsame (fun a ha => ?_) hx' ?_
          · rcases List.mem_append.mp ha with ha | ha
            · exact hclear a ha
            · exact fits_drawBitmap hsized ⟨hx, hy⟩ a ha
          · rcases hy' with heq | heq
            · exact .inl (by omega)
            · exact .inr (by omega)

end Vbe

/-! ## All characters -/

/-- After any characters, from the upper left corner of the screen, a glyph at the cursor is
    on the screen, as has been every pixel asked for, and no difference was below zero. -/
theorem VbeRun.cursor_on_screen (asciiBitmap : Nat → Nat → UInt8) (display : Vbe) (m : Mem)
    (hsized : display.Sized) (hx : display.cursorX = 0) (hy : display.cursorY = 0)
    (chars : List (Int8 × Nat)) (s : VbeRun)
    (hrun : Runs (VbeRun.step asciiBitmap) always ⟨display, m, []⟩ chars s) :
    (s.display.cursorX + fontWidth ≤ display.width ∧
      s.display.cursorY + fontHeight ≤ display.height) ∧
      ∀ a ∈ s.actions, a.Fits display.width display.height := by
  have hcorner : display.OnScreen := by
    rw [Vbe.OnScreen, hx, hy]
    exact ⟨hsized.wide, hsized.high⟩
  have hinv : display.Draws (s.actions, s.display) := by
    refine hrun.invariant (fun s => display.Draws (s.actions, s.display))
      ⟨⟨rfl, rfl⟩, hcorner, fun _ ha => absurd ha List.not_mem_nil⟩ ?_
    rintro s ⟨ch, color⟩ s' ⟨hsame, hon, hfits⟩ - hstep
    obtain rfl := Option.some.inj hstep
    have hdraw := Vbe.drawCh_spec asciiBitmap (hsame.sized hsized) hon ch color
    refine ⟨hsame.trans hdraw.same, hdraw.onScreen, fun a ha => ?_⟩
    rcases List.mem_append.mp ha with ha | ha
    · exact hfits a ha
    · have hfit := hdraw.fits a ha
      rwa [hsame.1, hsame.2] at hfit
  obtain ⟨hsame, hon, hfits⟩ := hinv
  rw [Vbe.OnScreen, hsame.1, hsame.2] at hon
  exact ⟨hon, hfits⟩

/-- A screen of 20 by 12 pixels -/
def smallDisplay : Vbe := ⟨0xFD000000, 20, 12, 80, 32, 0, 0⟩

/-- A glyph, a new line, which scrolls, and a backspace to the line before it -/
theorem VbeRun.cursor_on_screen_small : ∃ s,
    Runs (VbeRun.step fun _ _ => 0x18) always ⟨smallDisplay, fun _ => 0, []⟩
      [(65, 0xFFFFFF), (10, 0xFFFFFF), (8, 0xFFFFFF)] s ∧
    (s.display.cursorX + fontWidth ≤ smallDisplay.width ∧
      s.display.cursorY + fontHeight ≤ smallDisplay.height) ∧
      ∀ a ∈ s.actions, a.Fits smallDisplay.width smallDisplay.height := by
  have hstart : Runs (VbeRun.step fun _ _ => 0x18) always ⟨smallDisplay, fun _ => 0, []⟩ [] _ := .nil
  have hletter := @Runs.snoc _ _ _ _ _ _ _ _ (65, 0xFFFFFF) hstart trivial rfl
  have hline := @Runs.snoc _ _ _ _ _ _ _ _ (10, 0xFFFFFF) hletter trivial rfl
  have hrun := @Runs.snoc _ _ _ _ _ _ _ _ (8, 0xFFFFFF) hline trivial rfl
  exact ⟨_, hrun, VbeRun.cursor_on_screen _ smallDisplay _ ⟨by decide, by decide, by decide,
    by decide⟩ rfl rfl _ _ hrun⟩

end Icarius
