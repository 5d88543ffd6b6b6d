/-
  Icarius.Graphic.Renderer

  The renderer of `src/x86_64/graphic/renderer.c` and the fonts it draws.  Positions are
  `uint32_t` and wrap.  What a call does to the framebuffer is the list of its scrolls and
  pixels, the ones `_put` leaves out not among them.
-/

import Icarius.Config

namespace Icarius

/-! ## Fonts -/

/-- `font_t`: for every character the rows of its glyph -/
structure Font where
  width : Nat
  height : Nat
  glyphs : Nat → Nat → UInt8

/-- `font_get_pixel_at`; the first pixel of a row is its lowest bit. -/
def fontGetPixelAt (font : Font) (ch pixelX pixelY : Nat) : Bool :=
  if pixelX ≥ font.width ∨ pixelY ≥ font.height then false
  else (font.glyphs ch pixelY).toNat.testBit pixelX

/-! ## The renderer -/

/-- `renderer_t` -/
structure Renderer where
  font : Font
  screenW : Nat
  screenH : Nat
  cursorX : Nat
  cursorY : Nat
  fg : Nat
  bg : Nat
  bgTransparent : Bool

/-- What is done to the framebuffer: `fb_scroll`, and `fb_put_pixel_at` -/
inductive FbOp where
  | scroll (color rows : Nat)
  | pixel (x y color : Nat)
  deriving DecidableEq

namespace Renderer

/-- `_put` -/
def put (renderer : Renderer) (x y color : Nat) : List FbOp :=
  if x ≥ renderer.screenW ∨ y ≥ renderer.screenH then [] else [.pixel x y color]

/-- `renderer_set_cursor` -/
def setCursor (renderer : Renderer) (x y : Nat) : Renderer :=
  { renderer with cursorX := u32 x, cursorY := u32 y }

/-- `renderer_scroll` -/
def scroll (renderer : Renderer) : List FbOp × Renderer :=
  ([.scroll renderer.bg renderer.font.height],
    { renderer with
      cursorY :=
        if renderer.cursorY ≥ renderer.font.height then renderer.cursorY - renderer.font.height
        else 0 })

/-- The checks of `renderer_draw_ch`: a line that is full is left, by the width of the font,
    and behind the last line the screen is scrolled. -/
def place (renderer : Renderer) : List FbOp × Renderer :=
  let font := renderer.font
  let renderer :=
    if u32 (renderer.cursorX + font.width) > renderer.screenW then
      renderer.setCursor 0 (renderer.cursorY + font.width)
    else renderer
  if u32 (renderer.cursorY + font.height) > renderer.screenH then renderer.scroll
  else ([], renderer)

/-- The loops of `renderer_draw_ch` -/
def drawGlyph (renderer : Renderer) (ch : Nat) : List FbOp :=
  (List.range renderer.font.height).flatMap fun y =>
    (List.range renderer.font.width).flatMap fun x =>
      if fontGetPixelAt renderer.font ch (x % 256) (y % 256) then
        renderer.put (u32 (renderer.cursorX + x)) (u32 (renderer.cursorY + y)) renderer.fg
      else if !renderer.bgTransparent then
        renderer.put (u32 (renderer.cursorX + x)) (u32 (renderer.cursorY + y)) renderer.bg
      else []

/-- `renderer_draw_ch` has a glyph for the character. -/
def hasGlyph (ch : Nat) : Bool := 32 ≤ ch && ch < 128

/-- `renderer_draw_ch` -/
def drawCh (renderer : Renderer) (ch : Nat) : List FbOp × Renderer :=
  if hasGlyph ch then
    let (scrolled, renderer) := renderer.place
    (scrolled ++ renderer.drawGlyph ch,
      renderer.setCursor (renderer.cursorX + renderer.font.width) renderer.cursorY)
  else ([], renderer)

/-- The cell of the glyph: the cursor at the moment it is drawn -/
def cell (renderer : Renderer) : Nat × Nat :=
  (renderer.place.2.cursorX, renderer.place.2.cursorY)

/-! ## The screen -/

/-- The font has glyphs of eight by eight pixels, and the screen has room for one. -/
structure Sized (renderer : Renderer) : Prop where
  width : renderer.font.width = 8
  height : renderer.font.height = 8
  wide : 8 ≤ renderer.screenW
  high : 8 ≤ renderer.screenH
  wide_lt : renderer.screenW < 2 ^ 32
  high_lt : renderer.screenH < 2 ^ 32

/-- A glyph at the cell is on the screen. -/
def OnScreen (renderer : Renderer) (cell : Nat × Nat) : Prop :=
  cell.1 + renderer.font.width ≤ renderer.screenW ∧
    cell.2 + renderer.font.height ≤ renderer.screenH

/-- The line a character would be drawn to, before the screen is scrolled -/
def line (renderer : Renderer) : Nat :=
  if renderer.cursorX + renderer.font.width > renderer.screenW then
    renderer.cursorY + renderer.font.width
  else renderer.cursorY

/-- The cursor is not behind the end of its line, and the line starts at the lower end of
    the screen at most. -/
structure InScreen (renderer : Renderer) : Prop extends renderer.Sized where
  cursorX_le : renderer.cursorX ≤ renderer.screenW
  line_le : renderer.line ≤ renderer.screenH

/-- The sums the checks compare do not wrap. -/
def DrawFits (renderer : Renderer) : Prop :=
  renderer.cursorX + renderer.font.width < 2 ^ 32 ∧
    renderer.line + renderer.font.height < 2 ^ 32

instance (renderer : Renderer) : Decidable renderer.DrawFits := inferInstanceAs (Decidable (_ ∧ _))

/-- Nothing but the cursor is changed. -/
def SameScreen (renderer renderer' : Renderer) : Prop :=
  renderer'.font = renderer.font ∧ renderer'.screenW = renderer.screenW ∧
    renderer'.screenH = renderer.screenH

variable {renderer renderer' : Renderer}

theorem Sized.congr (h : renderer.Sized) (hsame : renderer.SameScreen renderer') :
    renderer'.Sized := by
  obtain ⟨hfont, hw, hh⟩ := hsame
  exact ⟨hfont ▸ h.width, hfont ▸ h.height, hw ▸ h.wide, hh ▸ h.high, hw ▸ h.wide_lt,
    hh ▸ h.high_lt⟩

theorem SameScreen.refl (renderer : Renderer) : renderer.SameScreen renderer := ⟨rfl, rfl, rfl⟩

theorem SameScreen.trans {renderer'' : Renderer} (h : renderer.SameScreen renderer')
    (h' : renderer'.SameScreen renderer'') : renderer.SameScreen renderer'' :=
  ⟨h'.1.trans h.1, h'.2.1.trans h.2.1, h'.2.2.trans h.2.2⟩

theorem SameScreen.onScreen (h : renderer.SameScreen renderer') (cell : Nat × Nat) :
    renderer'.OnScreen cell ↔ renderer.OnScreen cell := by
  rw [OnScreen, OnScreen, h.1, h.2.1, h.2.2]

theorem sameScreen_setCursor (renderer : Renderer) (x y : Nat) :
    renderer.SameScreen (renderer.setCursor x y) := ⟨rfl, rfl, rfl⟩

theorem sameScreen_scroll (renderer : Renderer) : renderer.SameScreen renderer.scroll.2 :=
  ⟨rfl, rfl, rfl⟩

theorem sameScreen_place (renderer : Renderer) : renderer.SameScreen renderer.place.2 := by
  unfold place
  simp only
  split <;> split <;> exact ⟨rfl, rfl, rfl⟩

theorem sameScreen_drawCh (renderer : Renderer) (ch : Nat) :
    renderer.SameScreen (renderer.drawCh ch).2 := by
  unfold drawCh
  split
  · have hplace := renderer.sameScreen_place
    simp only
    exact hplace.trans (renderer.place.2.sameScreen_setCursor
      (renderer.place.2.cursorX + renderer.place.2.font.width) renderer.place.2.cursorY)
  · exact .refl renderer

/-! ## Where a glyph is drawn -/

/-- Where the checks leave the cursor, when the first of them does not wrap -/
theorem place_cursor (h : renderer.InScreen) (hfits : renderer.cursorX + 8 < 2 ^ 32) :
    renderer.place.2.cursorX
        = (if renderer.cursorX + 8 > renderer.screenW then 0 else renderer.cursorX) ∧
      renderer.place.2.cursorY
        = if u32 (renderer.line + 8) > renderer.screenH then renderer.line - 8
          else renderer.line := by
  have hline := h.line_le
  have hwide := h.wide_lt
  have hhigh := h.high_lt
  have hx : u32 (renderer.cursorX + 8) = renderer.cursorX + 8 := Nat.mod_eq_of_lt hfits
  simp only [line, h.width] at hline ⊢
  simp only [place, h.width, h.height, hx]
  by_cases hfull : renderer.cursorX + 8 > renderer.screenW
  · rw [if_pos hfull] at hline
    have hy : u32 (renderer.cursorY + 8) = renderer.cursorY + 8 :=
      Nat.mod_eq_of_lt (Nat.lt_of_le_of_lt hline hhigh)
    have hzero : u32 0 = 0 := rfl
    simp only [if_pos hfull, setCursor, hy, hzero]
    split
    · refine ⟨rfl, ?_⟩
      simp only [scroll, h.height]
      split <;> omega
    · exact ⟨rfl, rfl⟩
  · simp only [if_neg hfull]
    split
    · refine ⟨rfl, ?_⟩
      simp only [scroll, h.height]
      split <;> omega
    · exact ⟨rfl, rfl⟩

/-- A line that is too long does not wrap when the sum does. -/
theorem place_of_wrap (h : renderer.InScreen) (hwrap : 2 ^ 32 ≤ renderer.cursorX + 8) :
    renderer.place.2.cursorX = renderer.cursorX := by
  have hx := h.cursorX_le
  have hwide := h.wide_lt
  have hle := h.wide
  have hsum : ¬ u32 (renderer.cursorX + 8) > renderer.screenW := by
    simp only [u32]
    omega
  simp only [place, h.width, if_neg hsum]
  split <;> rfl

/-- A glyph is drawn on the screen exactly when the sums do not wrap. -/
theorem onScreen_cell_iff (h : renderer.InScreen) :
    renderer.OnScreen renderer.cell ↔ renderer.DrawFits := by
  have hline := h.line_le
  have hwide := h.wide_lt
  have hhigh := h.high_lt
  have hw := h.wide
  have hh := h.high
  simp only [OnScreen, DrawFits, cell, h.width, h.height]
  rcases Nat.lt_or_ge (renderer.cursorX + 8) (2 ^ 32) with hfits | hwrap
  · obtain ⟨hx, hy⟩ := place_cursor h hfits
    rw [hx, hy]
    rcases Nat.lt_or_ge (renderer.line + 8) (2 ^ 32) with hlt | hge
    · have hsum : u32 (renderer.line + 8) = renderer.line + 8 := Nat.mod_eq_of_lt hlt
      rw [hsum]
      refine iff_of_true ⟨?_, ?_⟩ ⟨hfits, hlt⟩
      · split <;> omega
      · split <;> omega
    · have hsum : ¬ u32 (renderer.line + 8) > renderer.screenH := by
        simp only [u32]
        omega
      rw [if_neg hsum]
      exact iff_of_false (fun hon => by omega) (fun hfit => by omega)
  · rw [place_of_wrap h hwrap]
    exact iff_of_false (fun hon => by omega) (fun hfit => by omega)

/-- Behind a glyph the cursor is in the screen. -/
theorem inScreen_drawCh (h : renderer.InScreen) (hfits : renderer.DrawFits) (ch : Nat) :
    (renderer.drawCh ch).2.InScreen := by
  have hsame := renderer.sameScreen_drawCh ch
  by_cases hch : hasGlyph ch = true
  · have hon := (onScreen_cell_iff h).mpr hfits
    simp only [OnScreen, cell, h.width, h.height] at hon
    have hwide := h.wide_lt
    have hhigh := h.high_lt
    have hplace := renderer.sameScreen_place
    have hfont : renderer.place.2.font.width = 8 := by rw [hplace.1, h.width]
    have hdraw : (renderer.drawCh ch).2
        = renderer.place.2.setCursor (renderer.place.2.cursorX + 8) renderer.place.2.cursorY := by
      simp only [drawCh, hch, if_true, hfont]
    have hx : u32 (renderer.place.2.cursorX + 8) = renderer.place.2.cursorX + 8 :=
      Nat.mod_eq_of_lt (by omega)
    have hy : u32 renderer.place.2.cursorY = renderer.place.2.cursorY := Nat.mod_eq_of_lt (by omega)
    refine ⟨h.congr hsame, ?_, ?_⟩
    · rw [hsame.2.1, hdraw]
      simp only [setCursor, hx]
      omega
    · rw [line, hsame.1, hsame.2.1, hsame.2.2, hdraw, h.width]
      simp only [setCursor, hx, hy]
      split <;> omega
  · have hdraw : (renderer.drawCh ch).2 = renderer := by
      rw [Bool.not_eq_true] at hch
      simp only [drawCh, hch, Bool.false_eq_true, if_false]
    rw [hdraw]
    exact h

/-- The pixels of a glyph lie in its cell. -/
theorem mem_drawGlyph {ch x y color : Nat} (h : .pixel x y color ∈ renderer.drawGlyph ch) :
    ∃ i < renderer.font.width, ∃ j < renderer.font.height,
      x = u32 (renderer.cursorX + i) ∧ y = u32 (renderer.cursorY + j) := by
  have hput : ∀ {i j c : Nat}, FbOp.pixel x y color ∈ renderer.put i j c → x = i ∧ y = j := by
    intro i j c hmem
    rw [put] at hmem
    split at hmem
    · cases hmem
    · obtain ⟨rfl, rfl, -⟩ := FbOp.pixel.inj (List.mem_singleton.mp hmem)
      exact ⟨rfl, rfl⟩
  obtain ⟨j, hj, hrow⟩ := List.mem_flatMap.mp h
  obtain ⟨i, hi, hmem⟩ := List.mem_flatMap.mp hrow
  refine ⟨i, List.mem_range.mp hi, j, List.mem_range.mp hj, ?_⟩
  split at hmem
  · exact hput hmem
  · split at hmem
    · exact hput hmem
    · cases hmem

theorem not_mem_place {x y color : Nat} : .pixel x y color ∉ renderer.place.1 := by
  unfold place
  simp only
  split <;> split <;> simp [scroll]

/-- What `renderer_draw_ch` draws lies in the cell of the glyph. -/
theorem mem_drawCh {ch x y color : Nat} (h : .pixel x y color ∈ (renderer.drawCh ch).1) :
    hasGlyph ch = true ∧ ∃ i < renderer.font.width, ∃ j < renderer.font.height,
      x = u32 (renderer.cell.1 + i) ∧ y = u32 (renderer.cell.2 + j) := by
  unfold drawCh at h
  split at h
  · rename_i hch
    rcases List.mem_append.mp h with hscroll | hglyph
    · exact absurd hscroll not_mem_place
    · obtain ⟨i, hi, j, hj, hx, hy⟩ := mem_drawGlyph hglyph
      rw [renderer.sameScreen_place.1] at hi hj
      exact ⟨hch, i, hi, j, hj, hx, hy⟩
  · cases h

end Renderer

end Icarius
