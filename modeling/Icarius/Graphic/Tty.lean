/-
  Icarius.Graphic.Tty

  The console of `src/x86_64/graphic/tty.c`.  `renderer_draw_ch` and `_newline` scroll the
  screen by one line at most, and `_tab` does not: two of its calls at the end of the screen
  leave the cursor a whole line below it.

  `stepFits_iff` says which characters keep the cursor in the screen, and
  `glyphs_on_screen` that after any number of such characters every glyph has been drawn
  on it.
-/

import Icarius.Lib.Run
import Icarius.Graphic.Renderer

namespace Icarius

open Icarius.Lib

/-! ## The console -/

/-- `tty_t`, with its renderer -/
structure Tty where
  renderer : Renderer
  tabWidth : Nat

/-- `'\b'` -/
def charBackspace : Nat := 8

/-- `'\t'` -/
def charTab : Nat := 9

/-- `'\n'` -/
def charNewline : Nat := 10

/-- `'\r'` -/
def charReturn : Nat := 13

/-- `' '` -/
def charBlank : Nat := 32

/-- `tty_init` -/
def ttyInit (renderer : Renderer) : Tty := ⟨renderer, 8⟩

/-- `tty_set_tabwidth` -/
def ttySetTabwidth (tty : Tty) (tabWidth : Nat) : Tty :=
  if tabWidth = 0 then { tty with tabWidth := 1 } else { tty with tabWidth := tabWidth }

namespace Tty

/-- `_carriage_return` -/
def carriageReturn (tty : Tty) : Renderer := tty.renderer.setCursor 0 tty.renderer.cursorY

/-- `next_pixel_x` of `_tab` -/
def nextPixelX (tty : Tty) : Nat :=
  let currCol := tty.renderer.cursorX / tty.renderer.font.width
  let nextCol := u64 ((currCol / tty.tabWidth + 1) * tty.tabWidth)
  u64 (nextCol * tty.renderer.font.width)

/-- `_tab` -/
def tab (tty : Tty) : Renderer :=
  if tty.nextPixelX ≥ tty.renderer.screenW then
    tty.renderer.setCursor 0 (tty.renderer.cursorY + tty.renderer.font.height)
  else tty.renderer.setCursor tty.nextPixelX tty.renderer.cursorY

/-- The cursor of `_newline`, before the check -/
def lineDown (tty : Tty) : Renderer :=
  tty.renderer.setCursor 0 (tty.renderer.cursorY + tty.renderer.font.height)

/-- `_newline` -/
def newline (tty : Tty) : List FbOp × Renderer :=
  let renderer := tty.lineDown
  if u32 (renderer.cursorY + renderer.font.height) > renderer.screenH then renderer.scroll
  else ([], renderer)

/-- The cursor of `_backspace`, before the blank is drawn -/
def back (tty : Tty) : Renderer :=
  let renderer := tty.renderer
  let font := renderer.font
  if renderer.cursorX ≥ font.width then
    renderer.setCursor (renderer.cursorX - font.width) renderer.cursorY
  else if renderer.cursorY ≥ font.height then
    renderer.setCursor (renderer.screenW + 2 ^ 32 - font.width) (renderer.cursorY - font.height)
  else renderer

/-- `_backspace` -/
def backspace (tty : Tty) : List FbOp × Renderer := tty.back.drawCh charBlank

/-- `tty_putc`: what it does to the framebuffer, and the console behind it -/
def putc (tty : Tty) (ch : Nat) : List FbOp × Tty :=
  if ch = charTab then ([], { tty with renderer := tty.tab })
  else if ch = charNewline then
    (tty.newline.1, { tty with renderer := tty.newline.2 })
  else if ch = charReturn then ([], { tty with renderer := tty.carriageReturn })
  else if ch = charBackspace then
    (tty.backspace.1, { tty with renderer := tty.backspace.2 })
  else ((tty.renderer.drawCh ch).1, { tty with renderer := (tty.renderer.drawCh ch).2 })

/-- The renderer that draws a glyph for the character, when there is one -/
def drawer (tty : Tty) (ch : Nat) : Option Renderer :=
  if ch = charTab ∨ ch = charNewline ∨ ch = charReturn then none
  else if ch = charBackspace then some tty.back
  else if Renderer.hasGlyph ch then some tty.renderer
  else none

/-! ## Where it goes wrong -/

/-- A character that keeps the cursor in the screen.  A tab that ends the line has a line
    below it; one within the line leaves room for a glyph, or has a line below it.  The sums
    that are compared with the size of the screen do not wrap. -/
def StepFits (tty : Tty) (ch : Nat) : Prop :=
  let renderer := tty.renderer
  let font := renderer.font
  if ch = charTab then
    if tty.nextPixelX ≥ renderer.screenW then u32 (renderer.cursorY + font.height) ≤ renderer.screenH
    else tty.nextPixelX + font.width ≤ renderer.screenW ∨
      renderer.cursorY + font.width ≤ renderer.screenH
  else if ch = charNewline then
    tty.lineDown.cursorY ≤ renderer.screenH ∨ tty.lineDown.cursorY + font.height < 2 ^ 32
  else ∀ drawer ∈ tty.drawer ch, drawer.DrawFits

end Tty

/-- A console and the cells of the glyphs it has drawn -/
structure Console where
  tty : Tty
  drawn : List (Nat × Nat)

namespace Console

def step (console : Console) (ch : Nat) : Option Console :=
  some ⟨(console.tty.putc ch).2,
    console.drawn ++ ((console.tty.drawer ch).map Renderer.cell).toList⟩

def StepFits (console : Console) (ch : Nat) : Prop := console.tty.StepFits ch

end Console

/-! ## One character -/

namespace Tty

open Renderer

theorem sameScreen_tab (tty : Tty) : tty.renderer.SameScreen tty.tab := by
  unfold tab
  split <;> exact sameScreen_setCursor _ _ _

theorem sameScreen_newline (tty : Tty) : tty.renderer.SameScreen tty.newline.2 := by
  have hdown : tty.renderer.SameScreen tty.lineDown := sameScreen_setCursor _ _ _
  simp only [newline]
  split
  · exact hdown.trans (sameScreen_scroll _)
  · exact hdown

theorem sameScreen_back (tty : Tty) : tty.renderer.SameScreen tty.back := by
  simp only [back]
  split
  · exact sameScreen_setCursor _ _ _
  · split
    · exact sameScreen_setCursor _ _ _
    · exact .refl _

/-- A character changes nothing but the cursor. -/
theorem sameScreen_putc (tty : Tty) (ch : Nat) :
    tty.renderer.SameScreen (tty.putc ch).2.renderer := by
  unfold putc
  split
  · exact tty.sameScreen_tab
  · split
    · exact tty.sameScreen_newline
    · split
      · exact sameScreen_setCursor _ _ _
      · split
        · exact tty.sameScreen_back.trans (sameScreen_drawCh _ _)
        · exact sameScreen_drawCh _ _

/-- A character draws pixels in the cell of its glyph only. -/
theorem mem_putc {tty : Tty} {ch x y color : Nat} (h : .pixel x y color ∈ (tty.putc ch).1) :
    ∃ drawer ∈ tty.drawer ch, ∃ i < tty.renderer.font.width, ∃ j < tty.renderer.font.height,
      x = u32 (drawer.cell.1 + i) ∧ y = u32 (drawer.cell.2 + j) := by
  unfold putc at h
  split at h
  · cases h
  · rename_i htab
    split at h
    · simp only [newline] at h
      split at h
      · rcases List.mem_singleton.mp h
      · cases h
    · rename_i hnewline
      split at h
      · cases h
      · rename_i hreturn
        have hother : ¬ (ch = charTab ∨ ch = charNewline ∨ ch = charReturn) := by
          rintro (h' | h' | h')
          · exact htab h'
          · exact hnewline h'
          · exact hreturn h'
        rw [drawer, if_neg hother]
        split at h
        · rename_i hback
          obtain ⟨-, hcell⟩ := mem_drawCh h
          rw [tty.sameScreen_back.1] at hcell
          rw [if_pos hback]
          exact ⟨tty.back, rfl, hcell⟩
        · rename_i hback
          obtain ⟨hch, hcell⟩ := mem_drawCh h
          rw [if_neg hback, if_pos hch]
          exact ⟨tty.renderer, rfl, hcell⟩

variable {tty : Tty} (h : tty.renderer.InScreen)
include h

theorem line_eq : tty.renderer.line
    = if tty.renderer.cursorX + 8 > tty.renderer.screenW then tty.renderer.cursorY + 8
      else tty.renderer.cursorY := by
  rw [line, h.width]

theorem cursorY_le : tty.renderer.cursorY ≤ tty.renderer.screenH := by
  have hline := h.line_le
  rw [line_eq h] at hline
  split at hline <;> omega

/-- A cursor at the start of a line -/
theorem inScreen_setCursor_zero (y : Nat) :
    (tty.renderer.setCursor 0 y).InScreen ↔ u32 y ≤ tty.renderer.screenH := by
  have hwide := h.wide
  have hzero : u32 0 = 0 := rfl
  have hfit : ¬ 0 + 8 > tty.renderer.screenW := by omega
  have hline : (tty.renderer.setCursor 0 y).line = u32 y := by
    simp only [line, setCursor, h.width, hzero, if_neg hfit]
  constructor
  · intro hin
    rw [← hline]
    exact hin.line_le
  · intro hle
    refine ⟨h.congr (sameScreen_setCursor _ _ _), Nat.zero_le _, ?_⟩
    rw [hline]
    exact hle

theorem inScreen_tab : tty.tab.InScreen ↔ tty.StepFits charTab := by
  have hy := cursorY_le h
  have hwide := h.wide_lt
  have hhigh := h.high_lt
  simp only [StepFits, if_true, tab, h.width, h.height]
  split
  · exact inScreen_setCursor_zero h _
  · rename_i hlt
    have hnext : u32 tty.nextPixelX = tty.nextPixelX := Nat.mod_eq_of_lt (by omega)
    have hcurr : u32 tty.renderer.cursorY = tty.renderer.cursorY := Nat.mod_eq_of_lt (by omega)
    have hline : (tty.renderer.setCursor tty.nextPixelX tty.renderer.cursorY).line
        = if tty.nextPixelX + 8 > tty.renderer.screenW then tty.renderer.cursorY + 8
          else tty.renderer.cursorY := by
      simp only [line, setCursor, h.width, hnext, hcurr]
    constructor
    · intro hin
      have hle := hin.line_le
      rw [hline] at hle
      split at hle
      · exact .inr hle
      · exact .inl (by omega)
    · intro hfits
      refine ⟨h.congr (sameScreen_setCursor _ _ _), ?_, ?_⟩
      · simp only [setCursor, hnext]
        omega
      · rw [hline]
        simp only [setCursor]
        split <;> omega

theorem inScreen_newline : tty.newline.2.InScreen ↔ tty.StepFits charNewline := by
  have hy := cursorY_le h
  have hhigh := h.high_lt
  have hwide := h.wide
  have hh := h.high
  have hdown : tty.lineDown.InScreen ↔ tty.lineDown.cursorY ≤ tty.renderer.screenH := by
    simp only [lineDown]
    exact inScreen_setCursor_zero h _
  have hle : tty.lineDown.cursorY ≤ tty.renderer.cursorY + 8 := by
    simp only [lineDown, setCursor, h.height]
    exact Nat.mod_le _ _
  have hlt : tty.lineDown.cursorY < 2 ^ 32 := Nat.mod_lt _ (by decide)
  have hsame : tty.renderer.SameScreen tty.lineDown := sameScreen_setCursor _ _ _
  have hne : charNewline ≠ charTab := by decide
  simp only [StepFits, if_neg hne, if_true, h.height, newline, hsame.1, hsame.2.2]
  split
  · rename_i hover
    have hsum : tty.lineDown.cursorY + 8 < 2 ^ 32 := by
      simp only [u32] at hover
      omega
    -- the line is moved up again
    refine iff_of_true ⟨h.congr (hsame.trans (sameScreen_scroll _)), Nat.zero_le _, ?_⟩ (.inr hsum)
    have hroom : ¬ 0 + 8 > tty.renderer.screenW := by omega
    have hline : tty.lineDown.scroll.2.line = tty.lineDown.scroll.2.cursorY := by
      have hx : tty.lineDown.scroll.2.cursorX = 0 := rfl
      rw [line, (hsame.trans (sameScreen_scroll _)).1, (hsame.trans (sameScreen_scroll _)).2.1,
        hx, h.width, if_neg hroom]
    rw [hline, (hsame.trans (sameScreen_scroll _)).2.2]
    simp only [scroll, hsame.1, h.height]
    split <;> omega
  · rename_i hunder
    rw [hdown]
    constructor
    · exact Or.inl
    · rintro (hin | hsum)
      · exact hin
      · have heq : u32 (tty.lineDown.cursorY + 8) = tty.lineDown.cursorY + 8 := Nat.mod_eq_of_lt hsum
        omega

theorem inScreen_return : tty.carriageReturn.InScreen := by
  have hy := cursorY_le h
  have hhigh := h.high_lt
  rw [carriageReturn, inScreen_setCursor_zero h]
  exact Nat.le_trans (Nat.mod_le _ _) hy

/-- A step back leaves the cursor in the screen. -/
theorem inScreen_back : tty.back.InScreen := by
  have hx := h.cursorX_le
  have hy := cursorY_le h
  have hwide := h.wide
  have hlt := h.wide_lt
  have hhigh := h.high_lt
  simp only [back, h.width, h.height]
  split
  · have hx' : u32 (tty.renderer.cursorX - 8) = tty.renderer.cursorX - 8 :=
      Nat.mod_eq_of_lt (by omega)
    have hy' : u32 tty.renderer.cursorY = tty.renderer.cursorY := Nat.mod_eq_of_lt (by omega)
    have hroom : ¬ tty.renderer.cursorX - 8 + 8 > tty.renderer.screenW := by omega
    refine ⟨h.congr (sameScreen_setCursor _ _ _), ?_, ?_⟩
    · simp only [setCursor, hx']
      omega
    · simp only [line, setCursor, h.width, hx', hy', if_neg hroom]
      exact hy
  · split
    · have hx' : u32 (tty.renderer.screenW + 2 ^ 32 - 8) = tty.renderer.screenW - 8 := by
        simp only [u32]
        omega
      have hy' : u32 (tty.renderer.cursorY - 8) = tty.renderer.cursorY - 8 :=
        Nat.mod_eq_of_lt (by omega)
      have hroom : ¬ tty.renderer.screenW - 8 + 8 > tty.renderer.screenW := by omega
      refine ⟨h.congr (sameScreen_setCursor _ _ _), ?_, ?_⟩
      · simp only [setCursor, hx']
        omega
      · simp only [line, setCursor, h.width, hx', hy', if_neg hroom]
        omega
    · exact h

/-- A character keeps the cursor in the screen, and its glyph is on the screen, exactly when
    it fits. -/
theorem stepFits_iff (ch : Nat) : tty.StepFits ch ↔
    (∀ drawer ∈ tty.drawer ch, tty.renderer.OnScreen drawer.cell) ∧
      (tty.putc ch).2.renderer.InScreen := by
  have hglyph : ∀ {renderer : Renderer}, renderer.InScreen → tty.renderer.SameScreen renderer →
      ∀ c, hasGlyph c = true → (renderer.DrawFits ↔
        tty.renderer.OnScreen renderer.cell ∧ (renderer.drawCh c).2.InScreen) := by
    intro renderer hin hsame c _
    rw [← hsame.onScreen, onScreen_cell_iff hin]
    exact ⟨fun hfits => ⟨hfits, inScreen_drawCh hin hfits c⟩, And.left⟩
  by_cases htab : ch = charTab
  · subst htab
    rw [← inScreen_tab h, putc, if_pos rfl, drawer, if_pos (.inl rfl)]
    exact ⟨fun hin => ⟨nofun, hin⟩, And.right⟩
  by_cases hnewline : ch = charNewline
  · subst hnewline
    rw [← inScreen_newline h, putc, if_neg htab, if_pos rfl, drawer, if_pos (.inr (.inl rfl))]
    exact ⟨fun hin => ⟨nofun, hin⟩, And.right⟩
  by_cases hreturn : ch = charReturn
  · subst hreturn
    rw [putc, if_neg htab, if_neg hnewline, if_pos rfl, StepFits, drawer]
    simp only [if_neg htab, if_neg hnewline, or_true, if_true]
    exact iff_of_true nofun ⟨nofun, inScreen_return h⟩
  have hother : ¬ (ch = charTab ∨ ch = charNewline ∨ ch = charReturn) := by
    rintro (h' | h' | h')
    · exact htab h'
    · exact hnewline h'
    · exact hreturn h'
  rw [putc, if_neg htab, if_neg hnewline, if_neg hreturn, StepFits, drawer, if_neg hother]
  simp only [if_neg htab, if_neg hnewline]
  by_cases hback : ch = charBackspace
  · simp only [if_pos hback, Option.mem_def, Option.some.injEq, forall_eq']
    exact hglyph (inScreen_back h) tty.sameScreen_back charBlank rfl
  simp only [if_neg hback]
  by_cases hch : hasGlyph ch = true
  · simp only [if_pos hch, Option.mem_def, Option.some.injEq, forall_eq']
    exact hglyph h (.refl _) ch hch
  · have hdraw : tty.renderer.drawCh ch = ([], tty.renderer) := by
      rw [drawCh, if_neg hch]
    simp only [if_neg hch, hdraw]
    exact iff_of_true nofun ⟨nofun, h⟩

end Tty

/-! ## All characters -/

/-- After any number of characters that fit, put to a console with its cursor at the start
    of the screen, every glyph has been drawn on the screen. -/
theorem Console.glyphs_on_screen (renderer : Renderer) (tabWidth : Nat) (chars : List Nat)
    (console : Console) (hsized : renderer.Sized) (hx : renderer.cursorX = 0)
    (hy : renderer.cursorY = 0)
    (hrun : Runs Console.step Console.StepFits ⟨ttySetTabwidth (ttyInit renderer) tabWidth, []⟩
      chars console) :
    ∀ cell ∈ console.drawn, renderer.OnScreen cell := by
  have hstart : (ttySetTabwidth (ttyInit renderer) tabWidth).renderer = renderer := by
    unfold ttySetTabwidth
    split <;> rfl
  have hfull : ¬ 0 + renderer.font.width > renderer.screenW := by
    have hwide := hsized.wide
    have hwidth := hsized.width
    omega
  have hin : renderer.InScreen :=
    ⟨hsized, hx ▸ Nat.zero_le _, by rw [Renderer.line, hx, hy, if_neg hfull]; exact Nat.zero_le _⟩
  have hinv := hrun.invariant
    (fun console => renderer.SameScreen console.tty.renderer ∧ console.tty.renderer.InScreen ∧
      ∀ cell ∈ console.drawn, renderer.OnScreen cell)
    ⟨hstart.symm ▸ .refl renderer, hstart.symm ▸ hin, fun _ h => absurd h List.not_mem_nil⟩ ?_
  · exact hinv.2.2
  · rintro console ch _ ⟨hsame, hscreen, hdrawn⟩ hfits hstep
    obtain rfl := Option.some.inj hstep
    obtain ⟨hon, hscreen'⟩ := (Tty.stepFits_iff hscreen ch).mp hfits
    refine ⟨hsame.trans (Tty.sameScreen_putc _ _), hscreen', fun cell hcell => ?_⟩
    rcases List.mem_append.mp hcell with hold | hnew
    · exact hdrawn cell hold
    · obtain ⟨drawer, hdrawer, rfl⟩ := Option.map_eq_some_iff.mp (Option.mem_toList.mp hnew)
      exact (hsame.onScreen _).mp (hon drawer hdrawer)

/-! ## Two tabs -/

/-- A font without a pixel -/
def blankFont : Font := ⟨8, 8, fun _ _ => 0⟩

/-- A screen of one glyph -/
def oneGlyph : Renderer := ⟨blankFont, 8, 8, 0, 0, 0, 0, true⟩

theorem oneGlyph_sized : oneGlyph.Sized :=
  ⟨rfl, rfl, by decide, by decide, by decide, by decide⟩

/-- A tab and an `A` -/
theorem glyphs_on_screen_tab : ∃ console,
    Runs Console.step Console.StepFits ⟨ttySetTabwidth (ttyInit oneGlyph) 8, []⟩ [9, 65] console ∧
      ∀ cell ∈ console.drawn, oneGlyph.OnScreen cell := by
  have htab : Console.StepFits ⟨ttySetTabwidth (ttyInit oneGlyph) 8, []⟩ 9 := by
    unfold Console.StepFits Tty.StepFits
    decide
  have hletter : Console.StepFits ⟨⟨{ oneGlyph with cursorY := 8 }, 8⟩, []⟩ 65 := by
    unfold Console.StepFits Tty.StepFits
    decide
  have hrun : Runs Console.step Console.StepFits ⟨ttySetTabwidth (ttyInit oneGlyph) 8, []⟩ [9, 65]
      _ := .cons htab rfl (.cons hletter rfl .nil)
  exact ⟨_, hrun, Console.glyphs_on_screen oneGlyph 8 [9, 65] _ oneGlyph_sized rfl rfl hrun⟩

/-- Two tabs and an `A`: the glyph is drawn below the screen. -/
theorem exists_glyph_below_screen : ¬ ∀ (renderer : Renderer) (tabWidth : Nat) (chars : List Nat)
    (console : Console), renderer.Sized → renderer.cursorX = 0 → renderer.cursorY = 0 →
    Runs Console.step always ⟨ttySetTabwidth (ttyInit renderer) tabWidth, []⟩ chars console →
      ∀ cell ∈ console.drawn, renderer.OnScreen cell := by
  intro hall
  have hrun : Runs Console.step always ⟨ttySetTabwidth (ttyInit oneGlyph) 8, []⟩ [9, 9, 65] _ :=
    .cons trivial rfl (.cons trivial rfl (.cons trivial rfl .nil))
  have hon := hall oneGlyph 8 [9, 9, 65] _ oneGlyph_sized rfl rfl hrun (0, 8) (by decide)
  exact absurd hon.2 (by decide)

end Icarius
