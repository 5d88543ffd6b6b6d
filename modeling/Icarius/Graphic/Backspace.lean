/-
  Icarius.Graphic.Backspace

  What a backspace on the console of `src/x86_64/graphic/tty.c` undoes.  `_backspace` moves
  the cursor back and draws a blank there, and drawing moves the cursor on again: it ends
  behind the cell that has been erased.  Where the background is transparent nothing is
  erased either, since a blank has no pixels of its own.
-/

import Icarius.Graphic.Tty

namespace Icarius

/-! ## The framebuffer -/

/-- `g_fb` with 32 bits for a pixel: its size, and the colours of the pixels -/
structure Frame where
  width : Nat
  height : Nat
  pixels : Nat → Nat → Nat

namespace Frame

/-- `fb_put_pixel_at`, and `fb_scroll` by no more rows than there are -/
def perform (frame : Frame) : FbOp → Frame
  | .pixel x y color =>
      if x ≥ frame.width ∨ y ≥ frame.height then frame
      else
        { frame with
          pixels := fun x' y' => if x' = x ∧ y' = y then color else frame.pixels x' y' }
  | .scroll color rows =>
      { frame with
        pixels := fun x y =>
          if y < frame.height - rows then frame.pixels x (y + rows)
          else if y < frame.height ∧ x < frame.width then color
          else frame.pixels x y }

/-- Everything that is done to the framebuffer, in its order -/
def performAll (frame : Frame) (ops : List FbOp) : Frame := ops.foldl perform frame

theorem size_perform (frame : Frame) (op : FbOp) :
    (frame.perform op).width = frame.width ∧ (frame.perform op).height = frame.height := by
  cases op with
  | scroll color rows => exact ⟨rfl, rfl⟩
  | pixel x y color =>
      rw [perform]
      split <;> exact ⟨rfl, rfl⟩

theorem size_performAll (frame : Frame) (ops : List FbOp) :
    (frame.performAll ops).width = frame.width ∧ (frame.performAll ops).height = frame.height := by
  induction ops generalizing frame with
  | nil => exact ⟨rfl, rfl⟩
  | cons op ops ih =>
      obtain ⟨hwidth, hheight⟩ := frame.size_perform op
      exact ⟨(ih _).1.trans hwidth, (ih _).2.trans hheight⟩

/-- What a pixel is when every operation on it has one colour: that colour, if there is any
    such operation or it has been that before -/
theorem pixels_performAll {frame : Frame} {ops : List FbOp} {x y color : Nat}
    (hx : x < frame.width) (hy : y < frame.height)
    (hscroll : ∀ c rows, .scroll c rows ∉ ops) (hcolor : ∀ c, .pixel x y c ∈ ops → c = color)
    (hbase : frame.pixels x y = color ∨ .pixel x y color ∈ ops) :
    (frame.performAll ops).pixels x y = color := by
  -- over the operations; the pixel has its colour from the first one that is its own
  induction ops generalizing frame with
  | nil => exact hbase.resolve_right List.not_mem_nil
  | cons op ops ih =>
      have hscroll' : ∀ c rows, FbOp.scroll c rows ∉ ops :=
        fun c rows hmem => hscroll c rows (List.mem_cons_of_mem op hmem)
      have hcolor' : ∀ c, FbOp.pixel x y c ∈ ops → c = color :=
        fun c hmem => hcolor c (List.mem_cons_of_mem op hmem)
      cases op with
      | scroll c rows => exact absurd List.mem_cons_self (hscroll c rows)
      | pixel x' y' c =>
          show ((frame.perform (.pixel x' y' c)).performAll ops).pixels x y = color
          -- an operation on this pixel gives it the colour, one on another leaves it
          by_cases hat : x = x' ∧ y = y'
          · obtain ⟨rfl, rfl⟩ := hat
            obtain rfl := hcolor c List.mem_cons_self
            rw [perform, if_neg (by omega)]
            exact ih hx hy hscroll' hcolor' (.inl (if_pos ⟨rfl, rfl⟩))
          · have hsame : (frame.perform (.pixel x' y' c)).pixels x y = frame.pixels x y := by
              rw [perform]
              split
              · rfl
              · exact if_neg hat
            have hsize := frame.size_perform (.pixel x' y' c)
            refine ih (hsize.1 ▸ hx) (hsize.2 ▸ hy) hscroll' hcolor' ?_
            rw [hsame]
            refine hbase.imp_right fun hmem => (List.mem_cons.mp hmem).resolve_left fun heq => ?_
            exact hat ⟨(FbOp.pixel.inj heq).1, (FbOp.pixel.inj heq).2.1⟩

end Frame

/-! ## A glyph -/

namespace Renderer

variable {renderer : Renderer}

/-- The cursor is on a cell of the screen, so that a glyph needs neither a new line nor a
    scroll. -/
structure OnCell (renderer : Renderer) : Prop where
  column : renderer.font.width ∣ renderer.cursorX
  row : renderer.font.height ∣ renderer.cursorY
  onScreen : renderer.OnScreen (renderer.cursorX, renderer.cursorY)
  wide_lt : renderer.screenW < 2 ^ 32
  high_lt : renderer.screenH < 2 ^ 32

/-- The pixel of the glyph is set. -/
def on (renderer : Renderer) (ch i j : Nat) : Bool :=
  fontGetPixelAt renderer.font ch (i % 256) (j % 256)

/-- The cursor behind the cell -/
def behind (renderer : Renderer) : Renderer :=
  { renderer with cursorX := renderer.cursorX + renderer.font.width }

theorem drawCh_of_onCell (h : renderer.OnCell) {ch : Nat} (hch : hasGlyph ch = true) :
    renderer.drawCh ch = (renderer.drawGlyph ch, renderer.behind) := by
  obtain ⟨hx, hy⟩ := h.onScreen
  have hwide := h.wide_lt
  have hhigh := h.high_lt
  have hx' : u32 (renderer.cursorX + renderer.font.width)
      = renderer.cursorX + renderer.font.width := Nat.mod_eq_of_lt (Nat.lt_of_le_of_lt hx hwide)
  have hy' : u32 (renderer.cursorY + renderer.font.height)
      = renderer.cursorY + renderer.font.height := Nat.mod_eq_of_lt (Nat.lt_of_le_of_lt hy hhigh)
  have hrow : u32 renderer.cursorY = renderer.cursorY :=
    Nat.mod_eq_of_lt (by simp only at hy; omega)
  have hplace : renderer.place = ([], renderer) := by
    simp only [place, hx', if_neg (Nat.not_lt.mpr hx), hy', if_neg (Nat.not_lt.mpr hy)]
  simp only [drawCh, hch, if_true, hplace, List.nil_append, setCursor, hx', hrow, behind]

/-- What a glyph does to one pixel of its cell: nothing, where it is not set and the background
    is transparent -/
def stroke (renderer : Renderer) (ch i j : Nat) : List FbOp :=
  if renderer.on ch i j then [.pixel (renderer.cursorX + i) (renderer.cursorY + j) renderer.fg]
  else if !renderer.bgTransparent then
    [.pixel (renderer.cursorX + i) (renderer.cursorY + j) renderer.bg]
  else []

/-- A stroke is at its own pixel. -/
theorem eq_of_mem_stroke {ch i j : Nat} {op : FbOp} (hmem : op ∈ renderer.stroke ch i j) :
    op = .pixel (renderer.cursorX + i) (renderer.cursorY + j)
      (if renderer.on ch i j then renderer.fg else renderer.bg) := by
  unfold stroke at hmem
  split at hmem
  · next hon => rw [List.mem_singleton.mp hmem, if_pos hon]
  · next hoff =>
      split at hmem
      · rw [List.mem_singleton.mp hmem, if_neg hoff]
      · exact absurd hmem List.not_mem_nil

theorem mem_drawGlyph_iff (h : renderer.OnCell) {ch : Nat} {op : FbOp} :
    op ∈ renderer.drawGlyph ch ↔ ∃ j < renderer.font.height, ∃ i < renderer.font.width,
      op ∈ renderer.stroke ch i j := by
  obtain ⟨hx, hy⟩ := h.onScreen
  simp only at hx hy
  have hwide := h.wide_lt
  have hhigh := h.high_lt
  have hput : ∀ j < renderer.font.height, ∀ i < renderer.font.width, ∀ color,
      renderer.put (u32 (renderer.cursorX + i)) (u32 (renderer.cursorY + j)) color
        = [.pixel (renderer.cursorX + i) (renderer.cursorY + j) color] := by
    intro j hj i hi color
    have hx' : u32 (renderer.cursorX + i) = renderer.cursorX + i := Nat.mod_eq_of_lt (by omega)
    have hy' : u32 (renderer.cursorY + j) = renderer.cursorY + j := Nat.mod_eq_of_lt (by omega)
    rw [put, hx', hy', if_neg (by omega)]
  simp only [drawGlyph, List.mem_flatMap, List.mem_range]
  refine exists_congr fun j => and_congr_right fun hj => exists_congr fun i =>
    and_congr_right fun hi => ?_
  rw [hput j hj i hi, hput j hj i hi]
  rfl

/-- What is in the cell of a glyph when it has been drawn: the set pixels, and the others
    unless the background is transparent -/
theorem pixels_drawGlyph (h : renderer.OnCell) {frame : Frame}
    (hw : frame.width = renderer.screenW) (hh : frame.height = renderer.screenH) (ch : Nat)
    {i j : Nat} (hi : i < renderer.font.width) (hj : j < renderer.font.height) :
    (frame.performAll (renderer.drawGlyph ch)).pixels (renderer.cursorX + i) (renderer.cursorY + j)
      = if renderer.on ch i j then renderer.fg
        else if !renderer.bgTransparent then renderer.bg
        else frame.pixels (renderer.cursorX + i) (renderer.cursorY + j) := by
  obtain ⟨hx, hy⟩ := h.onScreen
  simp only at hx hy
  -- the strokes at this pixel are the one for it
  have hown : ∀ c, FbOp.pixel (renderer.cursorX + i) (renderer.cursorY + j) c
      ∈ renderer.drawGlyph ch ↔
        FbOp.pixel (renderer.cursorX + i) (renderer.cursorY + j) c ∈ renderer.stroke ch i j := by
    intro c
    rw [mem_drawGlyph_iff h]
    refine ⟨fun ⟨j', hj', i', hi', hmem⟩ => ?_, fun hmem => ⟨j, hj, i, hi, hmem⟩⟩
    obtain ⟨heqx, heqy, -⟩ := FbOp.pixel.inj (eq_of_mem_stroke hmem)
    obtain rfl : i = i' := Nat.add_left_cancel heqx
    obtain rfl : j = j' := Nat.add_left_cancel heqy
    exact hmem
  refine Frame.pixels_performAll (by omega) (by omega) (fun c rows hmem => ?_) (fun c hmem => ?_) ?_
  · obtain ⟨j', -, i', -, hmem⟩ := (mem_drawGlyph_iff h).mp hmem
    cases eq_of_mem_stroke hmem
  · rw [hown, stroke] at hmem
    split at hmem
    · next hon => exact (FbOp.pixel.inj (List.mem_singleton.mp hmem)).2.2.trans (if_pos hon).symm
    · next hoff =>
        rw [if_neg hoff]
        split at hmem
        · next hopaque =>
            exact (FbOp.pixel.inj (List.mem_singleton.mp hmem)).2.2.trans (if_pos hopaque).symm
        · exact absurd hmem List.not_mem_nil
  · rw [hown, stroke]
    split
    · exact .inr (List.mem_singleton.mpr rfl)
    · split
      · exact .inr (List.mem_singleton.mpr rfl)
      · exact .inl rfl

end Renderer

/-! ## A character and a backspace -/

namespace Tty

open Renderer

/-- The cell at the cursor shows the background: its colour, or what has been there `before`
    where it is transparent. -/
def ShowsBackground (renderer : Renderer) (before frame : Frame) : Prop :=
  ∀ i < renderer.font.width, ∀ j < renderer.font.height,
    frame.pixels (renderer.cursorX + i) (renderer.cursorY + j)
      = if renderer.bgTransparent then before.pixels (renderer.cursorX + i) (renderer.cursorY + j)
        else renderer.bg

/-- A backspace behind the character puts the cursor back, and its cell shows the
    background. -/
def Undone (tty : Tty) (frame : Frame) (ch : Nat) : Prop :=
  let (drawn, typed) := tty.putc ch
  let (erased, back) := typed.putc charBackspace
  (back.renderer.cursorX, back.renderer.cursorY) = (tty.renderer.cursorX, tty.renderer.cursorY) ∧
    ShowsBackground tty.renderer frame ((frame.performAll drawn).performAll erased)

variable {tty : Tty} {ch : Nat}

theorem putc_of_hasGlyph (h : tty.renderer.OnCell) (hch : hasGlyph ch = true) :
    tty.putc ch = (tty.renderer.drawGlyph ch, { tty with renderer := tty.renderer.behind }) := by
  have hle : 32 ≤ ch := by
    simp only [hasGlyph, Bool.and_eq_true, decide_eq_true_eq] at hch
    exact hch.1
  have hother : ch ≠ charTab ∧ ch ≠ charNewline ∧ ch ≠ charReturn ∧ ch ≠ charBackspace := by
    simp only [charTab, charNewline, charReturn, charBackspace]
    omega
  rw [putc, if_neg hother.1, if_neg hother.2.1, if_neg hother.2.2.1, if_neg hother.2.2.2,
    drawCh_of_onCell h hch]

/-- The step back of `_backspace` behind a character is the way to where the character was
    drawn; the blank that is drawn there takes the cursor away again. -/
theorem putc_backspace (h : tty.renderer.OnCell) (hch : hasGlyph ch = true) :
    (tty.putc ch).2.putc charBackspace
      = (tty.renderer.drawGlyph charBlank, { tty with renderer := tty.renderer.behind }) := by
  obtain ⟨hx, hy⟩ := h.onScreen
  simp only at hx hy
  have hwide := h.wide_lt
  have hhigh := h.high_lt
  have hcolumn : u32 (tty.renderer.cursorX + tty.renderer.font.width - tty.renderer.font.width)
      = tty.renderer.cursorX := by
    rw [Nat.add_sub_cancel]
    exact Nat.mod_eq_of_lt (by omega)
  have hrow : u32 tty.renderer.cursorY = tty.renderer.cursorY := Nat.mod_eq_of_lt (by omega)
  have hback : (tty.putc ch).2.back = tty.renderer := by
    rw [putc_of_hasGlyph h hch]
    simp only [back, behind, setCursor, ge_iff_le, Nat.le_add_left, if_true, hcolumn, hrow]
  have hother : charBackspace ≠ charTab ∧ charBackspace ≠ charNewline ∧
      charBackspace ≠ charReturn := by decide
  rw [putc, if_neg hother.1, if_neg hother.2.1, if_neg hother.2.2, if_pos rfl, backspace, hback,
    drawCh_of_onCell h rfl, putc_of_hasGlyph h hch]

/-- Of the pixels of the character, a backspace clears those that the blank covers: all where
    the background is opaque, and none where it is transparent and the blank has no pixel. -/
theorem pixels_putc_backspace (h : tty.renderer.OnCell) (hch : hasGlyph ch = true) {frame : Frame}
    (hw : frame.width = tty.renderer.screenW) (hh : frame.height = tty.renderer.screenH) {i j : Nat}
    (hi : i < tty.renderer.font.width) (hj : j < tty.renderer.font.height) :
    ((frame.performAll (tty.putc ch).1).performAll ((tty.putc ch).2.putc charBackspace).1).pixels
        (tty.renderer.cursorX + i) (tty.renderer.cursorY + j)
      = if tty.renderer.on charBlank i j then tty.renderer.fg
        else if !tty.renderer.bgTransparent then tty.renderer.bg
        else if tty.renderer.on ch i j then tty.renderer.fg
        else frame.pixels (tty.renderer.cursorX + i) (tty.renderer.cursorY + j) := by
  obtain ⟨hwidth, hheight⟩ := frame.size_performAll (tty.renderer.drawGlyph ch)
  rw [putc_backspace h hch, putc_of_hasGlyph h hch]
  dsimp only
  rw [pixels_drawGlyph h (hwidth.trans hw) (hheight.trans hh) charBlank hi hj,
    pixels_drawGlyph h hw hh ch hi hj]
  -- the blank is drawn over the character, pixel by pixel
  split
  · rfl
  · split
    · rfl
    · rfl

/-- A backspace undoes no character: the cursor ends behind the cell, unless the cells have no
    width. -/
theorem backspace_undoes_iff (tty : Tty) (frame : Frame) (ch : Nat) (h : tty.renderer.OnCell)
    (hch : hasGlyph ch = true) : tty.Undone frame ch ↔ tty.renderer.font.width = 0 := by
  unfold Undone
  simp only [putc_backspace h hch, behind, Prod.mk.injEq, and_true]
  constructor
  · rintro ⟨hcursor, -⟩
    omega
  · intro hzero
    refine ⟨by omega, fun i hi => ?_⟩
    omega

/-- An `A` at the start of a screen of two glyphs, with a font of filled glyphs and an opaque
    background -/
def twoGlyphs : Tty :=
  ttyInit ⟨⟨8, 8, fun ch _ => if ch = charBlank then 0 else 255⟩, 16, 8, 0, 0, 1, 0, false⟩

theorem twoGlyphs_onCell : twoGlyphs.renderer.OnCell :=
  ⟨by decide, by decide, by unfold OnScreen; decide, by decide, by decide⟩

theorem backspace_undoes_twoGlyphs :
    twoGlyphs.Undone ⟨16, 8, fun _ _ => 0⟩ 65 ↔ twoGlyphs.renderer.font.width = 0 :=
  backspace_undoes_iff twoGlyphs ⟨16, 8, fun _ _ => 0⟩ 65 twoGlyphs_onCell rfl

theorem exists_not_undone : ¬ ∀ (tty : Tty) (frame : Frame) (ch : Nat), tty.renderer.OnCell →
    hasGlyph ch = true → tty.Undone frame ch := by
  intro hall
  have hundone := hall twoGlyphs ⟨16, 8, fun _ _ => 0⟩ 65 twoGlyphs_onCell rfl
  have hcursor : ((twoGlyphs.putc 65).2.putc charBackspace).2.renderer.cursorX = 8 := rfl
  have hback : ((twoGlyphs.putc 65).2.putc charBackspace).2.renderer.cursorX
      = twoGlyphs.renderer.cursorX := (Prod.mk.inj hundone.1).1
  exact absurd (hcursor.symm.trans hback) (by decide)

end Tty

end Icarius
