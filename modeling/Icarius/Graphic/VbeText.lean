/-
  Icarius.Graphic.VbeText

  What the console of `src/x86/driver/vbe.c` is for: a screen of text, each cell with a
  character of some colour or nothing, and a cursor.  From `vbe_clear` on, whatever is
  printed, the pixels in the memory are the ones of that screen, and nothing is written
  outside the framebuffer.

  The rows below the last whole line of text stay black.  That is what makes a scroll right
  on a screen whose height is no multiple of the font's.
-/

import Icarius.Graphic.Vbe
import Icarius.Lib.Raster

namespace Icarius

open Icarius.Lib

/-- `vbe_clear`, for a display that is there -/
def Vbe.clear (self : Vbe) (color : Nat) : List VbeAction × Vbe :=
  if self.addr = 0 then ([], self)
  else (self.clearRows 0 color, { self with cursorX := 0, cursorY := 0 })

/-! ## A screen of text -/

/-- Cells, each with a character and its colour or nothing, and the cell of the cursor -/
structure TextScreen where
  columns : Nat
  rows : Nat
  cells : Nat → Nat → Option (Nat × Nat)
  column : Nat
  row : Nat

namespace TextScreen

/-- The empty screen -/
def blank (columns rows : Nat) : TextScreen := ⟨columns, rows, fun _ _ => none, 0, 0⟩

/-- The screen with another cell -/
def setCell (t : TextScreen) (c r : Nat) (v : Option (Nat × Nat)) : TextScreen :=
  { t with cells := fun c' r' => if c' = c ∧ r' = r then v else t.cells c' r' }

/-- Every line goes up by one; the last one is empty. -/
def scroll (t : TextScreen) : TextScreen :=
  { t with
    cells := fun c r => if r + 1 < t.rows then t.cells c (r + 1) else none
    row := t.row - 1 }

/-- The cursor comes back from below the last line. -/
def settle (t : TextScreen) : TextScreen := if t.row ≥ t.rows then t.scroll else t

/-- The cursor goes to the beginning of the next line. -/
def newline (t : TextScreen) : TextScreen :=
  settle { t with column := 0, row := t.row + 1 }

/-- The cursor goes back by one cell, to the end of the line above if need be. -/
def back (t : TextScreen) : TextScreen :=
  if 0 < t.column then { t with column := t.column - 1 }
  else if 0 < t.row then { t with column := t.columns - 1, row := t.row - 1 }
  else t

/-- The cursor goes on by one cell. -/
def advance (t : TextScreen) : TextScreen :=
  if t.column + 1 < t.columns then { t with column := t.column + 1 } else t.newline

/-- A character: newline, carriage return, backspace, one that is not ASCII, or one with a
    glyph -/
def putc (t : TextScreen) (ch : Int8) (color : Nat) : TextScreen :=
  if ch = 10 then t.newline
  else if ch = 13 then { t with column := 0 }
  else if ch = 8 then t.back.setCell t.back.column t.back.row none
  else if ch.toInt < 0 then t.setCell t.column t.row none
  else (t.setCell t.column t.row (some (ch.toInt.toNat, color))).advance

/-- A pixel of a cell: the one of its glyph, on black -/
def cellPixel (asciiBitmap : Nat → Nat → UInt8) (v : Option (Nat × Nat)) (i j : Nat) : Nat :=
  match v with
  | none => 0
  | some (ch, color) => if (asciiBitmap ch j).toNat.testBit i then color else 0

/-- A pixel of the screen -/
def picture (asciiBitmap : Nat → Nat → UInt8) (t : TextScreen) (x y : Nat) : Nat :=
  cellPixel asciiBitmap (t.cells (x / 8) (y / 8)) (x % 8) (y % 8)

/-- The cells are on the screen, the cursor is on a cell, and colours have 32 bits. -/
structure Good (t : TextScreen) : Prop where
  column_lt : t.column < t.columns
  row_lt : t.row < t.rows
  below : ∀ c r, t.rows ≤ r → t.cells c r = none
  colors : ∀ c r v, t.cells c r = some v → v.2 < 2 ^ 32

section Good

variable {t : TextScreen} {c r : Nat} {v : Option (Nat × Nat)}

theorem Good.setCell (h : t.Good) (hr : r < t.rows) (hv : ∀ w ∈ v, w.2 < 2 ^ 32) :
    (t.setCell c r v).Good := by
  refine ⟨h.column_lt, h.row_lt, fun c' r' hle => ?_, fun c' r' w hw => ?_⟩
  · have hle' : t.rows ≤ r' := hle
    show (if c' = c ∧ r' = r then v else t.cells c' r') = none
    rw [if_neg (by omega)]
    exact h.below c' r' hle'
  · have hw' : (if c' = c ∧ r' = r then v else t.cells c' r') = some w := hw
    split at hw'
    · exact hv w hw'
    · exact h.colors c' r' w hw'

/-- A cursor on the screen or just below it is brought onto a cell. -/
theorem good_settle (hcolumn : t.column < t.columns) (hrow : t.row ≤ t.rows) (hrows : 0 < t.rows)
    (hbelow : ∀ c r, t.rows ≤ r → t.cells c r = none)
    (hcolors : ∀ c r v, t.cells c r = some v → v.2 < 2 ^ 32) : t.settle.Good := by
  unfold settle
  split
  · refine ⟨hcolumn, ?_, fun c r hle => ?_, fun c r v hv => ?_⟩
    · show t.row - 1 < t.rows
      omega
    · have hle' : t.rows ≤ r := hle
      show (if r + 1 < t.rows then t.cells c (r + 1) else none) = none
      rw [if_neg (by omega)]
    · have hv' : (if r + 1 < t.rows then t.cells c (r + 1) else none) = some v := hv
      split at hv'
      · exact hcolors c (r + 1) v hv'
      · cases hv'
  · exact ⟨hcolumn, by omega, hbelow, hcolors⟩

theorem Good.newline (h : t.Good) : t.newline.Good := by
  have hcolumn := h.column_lt
  have hrow := h.row_lt
  apply good_settle
  · show 0 < t.columns
    omega
  · exact hrow
  · show 0 < t.rows
    omega
  · exact h.below
  · exact h.colors

theorem Good.back (h : t.Good) : t.back.Good := by
  have hcolumn := h.column_lt
  have hrow := h.row_lt
  unfold TextScreen.back
  split
  · exact ⟨show t.column - 1 < t.columns by omega, h.row_lt, h.below, h.colors⟩
  · split
    · exact ⟨show t.columns - 1 < t.columns by omega, show t.row - 1 < t.rows by omega, h.below,
        h.colors⟩
    · exact h

theorem Good.advance (h : t.Good) : t.advance.Good := by
  unfold TextScreen.advance
  split
  · rename_i hlt
    exact ⟨hlt, h.row_lt, h.below, h.colors⟩
  · exact h.newline

theorem back_size (t : TextScreen) : t.back.columns = t.columns ∧ t.back.rows = t.rows := by
  unfold TextScreen.back
  split
  · exact ⟨rfl, rfl⟩
  · split <;> exact ⟨rfl, rfl⟩

end Good

end TextScreen

/-! ## The actions as pixels -/

namespace Vbe

/-- The mode that the bootloader has set: four bytes for a pixel, rows with room for their
    pixels, all of it below the end of the address space, and whole cells in a row. -/
structure Mode (display : Vbe) : Prop extends display.Sized where
  addr : display.addr ≠ 0
  bpp : display.bpp = 32
  row_fits : 4 * display.width ≤ display.pitch
  fits : display.addr + display.height * display.pitch < 2 ^ 32
  cells : 8 ∣ display.width

/-- The pixels of the display -/
def raster (display : Vbe) (h : display.Mode) : Raster :=
  ⟨display.addr, display.pitch, display.width, display.height, h.row_fits⟩

/-- The pixel that an action puts -/
def pixelOf : VbeAction → Option (Nat × Nat × Nat)
  | .putPixelAt x y color => some (x, y, color)
  | _ => none

section Pixels

variable {display : Vbe} {m : Mem} {x y color : Nat} {picture : Nat → Nat → Nat}

/-- A pixel on the screen is stored where the raster has it. -/
theorem putPixelAt_eq (h : display.Mode) (hx : x < display.width) (hy : y < display.height) :
    display.putPixelAt x y color m = m.store 4 ((display.raster h).offset x y) color := by
  have hfits := h.fits
  obtain ⟨-, hend⟩ := Raster.offset_bounds (r := display.raster h) hx hy
  have hfinish : (display.raster h).finish = display.addr + display.height * display.pitch := rfl
  have hoffset : (display.raster h).offset x y = display.addr + (y * display.pitch + 4 * x) := rfl
  have hpos : 0 < display.addr := Nat.pos_of_ne_zero h.addr
  have hinner : u32 (y * display.pitch + x * 4) = y * display.pitch + 4 * x := by
    rw [Nat.mul_comm x 4]
    exact Nat.mod_eq_of_lt (by omega)
  have houter : u32 (display.addr + (y * display.pitch + 4 * x))
      = display.addr + (y * display.pitch + 4 * x) := Nat.mod_eq_of_lt (by omega)
  have hbytes : display.bpp / 8 = 4 := by rw [h.bpp]
  unfold putPixelAt calculatePixelOffset
  rw [if_neg (by omega), hbytes]
  dsimp only
  rw [hinner, houter]
  rfl

/-- Actions that move no rows store their pixels. -/
theorem perform_pixels (h : display.Mode) (acts : List VbeAction)
    (hfits : ∀ a ∈ acts, a.Fits display.width display.height)
    (hmove : ∀ d s n, VbeAction.move d s n ∉ acts) :
    acts.foldl display.perform m
      = (acts.filterMap pixelOf).foldl
          (fun m p => m.store 4 ((display.raster h).offset p.1 p.2.1) p.2.2) m := by
  induction acts generalizing m with
  | nil => rfl
  | cons a acts ih =>
      have hrest := fun m => @ih m (fun a ha => hfits a (List.mem_cons_of_mem _ ha))
        fun d s n hmem => hmove d s n (List.mem_cons_of_mem _ hmem)
      cases a with
      | putPixelAt x y color =>
          obtain ⟨hx, hy⟩ := hfits _ List.mem_cons_self
          have hstep : display.perform m (.putPixelAt x y color)
              = m.store 4 ((display.raster h).offset x y) color := putPixelAt_eq h hx hy
          rw [List.foldl_cons, hstep, hrest]
          rfl
      | move d s n => exact absurd List.mem_cons_self (hmove d s n)
      | subtract a b =>
          exact hrest m

/-- Pixels one after the other give the picture in which each one they touch has the colour of
    its actions. -/
theorem shows_pixels (h : display.Mode) (acts : List VbeAction) (picture' : Nat → Nat → Nat)
    (hm : (display.raster h).Shows m picture)
    (hfits : ∀ a ∈ acts, a.Fits display.width display.height)
    (hmove : ∀ d s n, VbeAction.move d s n ∉ acts)
    (hcolor : ∀ x y c, VbeAction.putPixelAt x y c ∈ acts → c = picture' x y ∧ c < 2 ^ 32)
    (hbase : ∀ x < display.width, ∀ y < display.height,
      picture x y = picture' x y ∨ VbeAction.putPixelAt x y (picture' x y) ∈ acts) :
    (display.raster h).Shows (acts.foldl display.perform m) picture' ∧
      (display.raster h).KeepsOutside m (acts.foldl display.perform m) := by
  have hput : ∀ x y c, (x, y, c) ∈ acts.filterMap pixelOf ↔ .putPixelAt x y c ∈ acts := by
    intro x y c
    rw [List.mem_filterMap]
    constructor
    · rintro ⟨a, ha, hpixel⟩
      cases a with
      | putPixelAt x' y' c' =>
          obtain ⟨rfl, hrest⟩ := Prod.mk.inj (Option.some.inj hpixel)
          obtain ⟨rfl, rfl⟩ := Prod.mk.inj hrest
          exact ha
      | move | subtract => cases hpixel
    · exact fun ha => ⟨_, ha, rfl⟩
  rw [perform_pixels h acts hfits hmove]
  refine hm.stores _ ?_ (fun x y c hmem => (hcolor x y c ((hput x y c).mp hmem)).1) ?_
  · rintro ⟨x, y, c⟩ hmem
    have hmem' := (hput x y c).mp hmem
    obtain ⟨hx, hy⟩ := hfits _ hmem'
    exact ⟨hx, hy, (hcolor x y c hmem').2⟩
  · intro x hx y hy
    exact (hbase x hx y hy).imp_right (hput x y _).mpr

/-! ## A cell -/

/-- A position is in the cell in column `c` and row `r`. -/
theorem cell_iff {c r : Nat} : (x / 8 = c ∧ y / 8 = r) ↔
    ∃ i < 8, ∃ j < 8, x = 8 * c + i ∧ y = 8 * r + j := by
  constructor
  · rintro ⟨hc, hr⟩
    exact ⟨x % 8, Nat.mod_lt _ (by omega), y % 8, Nat.mod_lt _ (by omega), by omega, by omega⟩
  · rintro ⟨i, hi, j, hj, hx, hy⟩
    omega

/-- The pixels that are cleared are those of the cell. -/
theorem mem_clearCh {c r : Nat} (color a b k : Nat) (hsized : display.Sized)
    (hx : 8 * c + 8 ≤ display.width) (hy : 8 * r + 8 ≤ display.height) :
    VbeAction.putPixelAt a b k ∈ clearCh (8 * c) (8 * r) color
      ↔ (a / 8 = c ∧ b / 8 = r) ∧ k = color := by
  have hwide := hsized.wide_lt
  have hhigh := hsized.high_lt
  have hcol : ∀ i < 8, u32 (8 * c + i) = 8 * c + i := fun i hi => Nat.mod_eq_of_lt (by omega)
  have hrow : ∀ j < 8, u32 (8 * r + j) = 8 * r + j := fun j hj => Nat.mod_eq_of_lt (by omega)
  rw [cell_iff]
  unfold clearCh
  simp only [List.mem_flatMap, List.mem_map, List.mem_range, VbeAction.putPixelAt.injEq]
  constructor
  · rintro ⟨j, hj, i, hi, rfl, rfl, rfl⟩
    exact ⟨⟨i, hi, j, hj, hcol i hi, hrow j hj⟩, rfl⟩
  · rintro ⟨⟨i, hi, j, hj, rfl, rfl⟩, rfl⟩
    exact ⟨j, hj, i, hi, hcol i hi, hrow j hj, rfl⟩

/-- The pixels of a glyph are those of the cell whose bit is set. -/
theorem mem_drawBitmap {c r : Nat} {self : Vbe} (bitmap : Nat → UInt8) (color a b k : Nat)
    (hsized : display.Sized) (hcursorX : self.cursorX = 8 * c) (hcursorY : self.cursorY = 8 * r)
    (hx : 8 * c + 8 ≤ display.width) (hy : 8 * r + 8 ≤ display.height) :
    VbeAction.putPixelAt a b k ∈ self.drawBitmap bitmap color
      ↔ (a / 8 = c ∧ b / 8 = r) ∧ (bitmap (b % 8)).toNat.testBit (a % 8) = true ∧ k = color := by
  have hwide := hsized.wide_lt
  have hhigh := hsized.high_lt
  have hcol : ∀ i < 8, u32 (8 * c + i) = 8 * c + i := fun i hi => Nat.mod_eq_of_lt (by omega)
  have hrow : ∀ j < 8, u32 (8 * r + j) = 8 * r + j := fun j hj => Nat.mod_eq_of_lt (by omega)
  have hcolmod : ∀ i < 8, (8 * c + i) % 8 = i := fun i hi => by omega
  have hrowmod : ∀ j < 8, (8 * r + j) % 8 = j := fun j hj => by omega
  rw [cell_iff]
  unfold drawBitmap
  rw [hcursorX, hcursorY]
  simp only [List.mem_flatMap, List.mem_range]
  constructor
  · rintro ⟨j, hj, i, hi, hmem⟩
    split at hmem
    · rename_i hbit
      obtain ⟨rfl, rfl, rfl⟩ := VbeAction.putPixelAt.inj (List.mem_singleton.mp hmem)
      rw [hcol i hi, hrow j hj, hcolmod i hi, hrowmod j hj]
      exact ⟨⟨i, hi, j, hj, rfl, rfl⟩, hbit, rfl⟩
    · -- nothing is drawn for a bit that is not set
      cases hmem
  · rintro ⟨⟨i, hi, j, hj, rfl, rfl⟩, hbit, rfl⟩
    rw [hcolmod i hi, hrowmod j hj] at hbit
    refine ⟨j, hj, i, hi, ?_⟩
    rw [if_pos hbit, hcol i hi, hrow j hj]
    exact List.mem_singleton_self _

/-! ## The display shows the screen -/

/-- The memory shows the picture of the screen of text, and the cursors are on the same cell. -/
structure ShowsText (asciiBitmap : Nat → Nat → UInt8) (display : Vbe) (h : display.Mode)
    (shown : Vbe) (m : Mem) (t : TextScreen) : Prop where
  mode : shown = { display with cursorX := 8 * t.column, cursorY := 8 * t.row }
  columns : t.columns = display.width / 8
  rows : t.rows = display.height / 8
  pixels : (display.raster h).Shows m (t.picture asciiBitmap)

variable {asciiBitmap : Nat → Nat → UInt8} {h : display.Mode} {self : Vbe} {t : TextScreen}
  {acts : List VbeAction} {c r : Nat}

/-- The memory after some actions: it shows the screen `t`, and nothing outside has changed. -/
def Prints (asciiBitmap : Nat → Nat → UInt8) (display : Vbe) (h : display.Mode) (m : Mem)
    (printed : List VbeAction × Vbe) (t : TextScreen) : Prop :=
  ShowsText asciiBitmap display h printed.2 (printed.1.foldl display.perform m) t ∧
    (display.raster h).KeepsOutside m (printed.1.foldl display.perform m)

theorem picture_setCell (t : TextScreen) (v : Option (Nat × Nat)) :
    (t.setCell c r v).picture asciiBitmap x y
      = if x / 8 = c ∧ y / 8 = r then TextScreen.cellPixel asciiBitmap v (x % 8) (y % 8)
        else t.picture asciiBitmap x y := by
  unfold TextScreen.picture TextScreen.setCell
  dsimp only
  split <;> rfl

/-- Erasing a cell of the screen -/
theorem shows_erase (hm : (display.raster h).Shows m (t.picture asciiBitmap))
    (hx : 8 * c + 8 ≤ display.width) (hy : 8 * r + 8 ≤ display.height) :
    (display.raster h).Shows ((clearCh (8 * c) (8 * r) vbeColorBlack).foldl display.perform m)
        ((t.setCell c r none).picture asciiBitmap) ∧
      (display.raster h).KeepsOutside m
        ((clearCh (8 * c) (8 * r) vbeColorBlack).foldl display.perform m) := by
  have hmem := fun a b k => mem_clearCh vbeColorBlack a b k h.toSized hx hy
  apply shows_pixels h _ _ hm (fits_clearCh h.toSized hx hy)
  · intro d s n hact
    obtain ⟨j, -, hrow⟩ := List.mem_flatMap.mp hact
    obtain ⟨i, -, heq⟩ := List.mem_map.mp hrow
    cases heq
  · intro a b k hact
    obtain ⟨hcell, rfl⟩ := (hmem a b k).mp hact
    rw [picture_setCell, if_pos hcell]
    exact ⟨rfl, Nat.two_pow_pos 32⟩
  · intro a _ b _
    rw [picture_setCell]
    -- outside the cell the picture is what it was
    by_cases hcell : a / 8 = c ∧ b / 8 = r
    · rw [if_pos hcell]
      exact .inr ((hmem a b 0).mpr ⟨hcell, rfl⟩)
    · rw [if_neg hcell]
      exact .inl rfl

/-- Drawing a glyph in an erased cell -/
theorem shows_glyph {ch : Nat} (hm : (display.raster h).Shows m
      ((t.setCell c r none).picture asciiBitmap))
    (hcursorX : self.cursorX = 8 * c) (hcursorY : self.cursorY = 8 * r)
    (hwidth : self.width = display.width) (hheight : self.height = display.height)
    (hx : 8 * c + 8 ≤ display.width) (hy : 8 * r + 8 ≤ display.height) (hc : color < 2 ^ 32) :
    (display.raster h).Shows
        ((self.drawBitmap (asciiBitmap ch) color).foldl display.perform m)
        ((t.setCell c r (some (ch, color))).picture asciiBitmap) ∧
      (display.raster h).KeepsOutside m
        ((self.drawBitmap (asciiBitmap ch) color).foldl display.perform m) := by
  have hmem := fun a b k =>
    mem_drawBitmap (asciiBitmap ch) color a b k h.toSized hcursorX hcursorY hx hy
  have hfits : ∀ a ∈ self.drawBitmap (asciiBitmap ch) color,
      a.Fits display.width display.height := by
    rw [← hwidth, ← hheight]
    apply fits_drawBitmap
    · exact SameScreen.sized ⟨hwidth, hheight⟩ h.toSized
    · unfold OnScreen
      rw [hcursorX, hcursorY, hwidth, hheight]
      exact ⟨hx, hy⟩
  apply shows_pixels h _ _ hm hfits
  · intro d s n hact
    obtain ⟨j, -, hrow⟩ := List.mem_flatMap.mp hact
    obtain ⟨i, -, hbit⟩ := List.mem_flatMap.mp hrow
    split at hbit
    · cases List.mem_singleton.mp hbit
    · cases hbit
  · intro a b k hact
    obtain ⟨hcell, hbit, rfl⟩ := (hmem a b k).mp hact
    rw [picture_setCell, if_pos hcell]
    exact ⟨(if_pos hbit).symm, hc⟩
  · intro a _ b _
    rw [picture_setCell, picture_setCell]
    by_cases hcell : a / 8 = c ∧ b / 8 = r
    · rw [if_pos hcell, if_pos hcell]
      unfold TextScreen.cellPixel
      dsimp only
      -- a bit that is set is drawn, one that is not has been erased
      by_cases hbit : (asciiBitmap ch (b % 8)).toNat.testBit (a % 8) = true
      · rw [if_pos hbit]
        exact .inr ((hmem a b color).mpr ⟨hcell, hbit, rfl⟩)
      · rw [if_neg hbit]
        exact .inl rfl
    · rw [if_neg hcell, if_neg hcell]
      exact .inl rfl

/-! ## The scroll -/

/-- What `memmove` has copied, and what it has left -/
theorem memmove_spec (m : Mem) (dest src count : Nat) (hdest : dest + count ≤ 2 ^ 32)
    (hsrc : src + count ≤ 2 ^ 32) :
    (∀ i < count, (memmove m dest src count).2 (dest + i) = m (src + i)) ∧
      ∀ a, a < dest ∨ dest + count ≤ a → (memmove m dest src count).2 a = m a :=
  ⟨fun i hi => (moved_memmove m hdest hsrc).copied i (Nat.zero_le i) hi,
    (moved_memmove m hdest hsrc).frame⟩

/-- The rows that are cleared -/
theorem mem_clearRows (display : Vbe) (y color a b k : Nat) :
    VbeAction.putPixelAt a b k ∈ display.clearRows y color
      ↔ a < display.width ∧ y ≤ b ∧ b < display.height ∧ k = color := by
  unfold clearRows
  simp only [List.mem_flatMap, List.mem_map, List.mem_range, List.mem_range'_1,
    VbeAction.putPixelAt.injEq]
  constructor
  · rintro ⟨j, hj, i, hi, rfl, rfl, rfl⟩
    exact ⟨hi, hj.1, by omega, rfl⟩
  · rintro ⟨ha, hle, hlt, rfl⟩
    exact ⟨b, ⟨hle, by omega⟩, a, ha, rfl, rfl, rfl⟩

theorem move_not_mem_clearRows {d s n y : Nat} :
    VbeAction.move d s n ∉ display.clearRows y color := by
  intro hact
  obtain ⟨j, -, hrow⟩ := List.mem_flatMap.mp hact
  obtain ⟨i, -, heq⟩ := List.mem_map.mp hrow
  cases heq

/-- The picture of a screen that has been scrolled: what was a line further down, and black
    where there was nothing -/
theorem picture_scroll (hrows : t.rows = display.height / 8)
    (hbelow : ∀ c r, t.rows ≤ r → t.cells c r = none) (hhigh : 8 ≤ display.height)
    (hy : y < display.height) :
    t.scroll.picture asciiBitmap x y
      = if y < display.height - 8 then t.picture asciiBitmap x (y + 8) else 0 := by
  have hdiv : (y + 8) / 8 = y / 8 + 1 := Nat.add_div_right y (by omega)
  have hmod : (y + 8) % 8 = y % 8 := Nat.add_mod_right y 8
  unfold TextScreen.picture TextScreen.scroll
  dsimp only
  rw [hdiv, hmod]
  by_cases hline : y / 8 + 1 < t.rows
  · rw [if_pos hline, if_pos (by omega)]
  · rw [if_neg hline]
    split
    · rw [hbelow (x / 8) (y / 8 + 1) (by omega)]
    · rfl

/-- `vbe_scroll` is a block move, and then the last rows are cleared. -/
theorem scroll_run (hself : self.addr = display.addr ∧ self.width = display.width ∧
      self.height = display.height ∧ self.pitch = display.pitch) (h : display.Mode) (m : Mem) :
    (self.scroll vbeColorBlack).1.foldl display.perform m
      = (self.clearRows (display.height - 8) vbeColorBlack).foldl display.perform
          (memmove m display.addr (display.addr + 8 * display.pitch)
            ((display.height - 8) * display.pitch)).2 := by
  obtain ⟨haddr, -, hheight, hpitch⟩ := hself
  -- nothing wraps around, for the framebuffer ends within the address space
  have hfits := h.fits
  have hhigh := h.high
  have hhigh_lt := h.high_lt
  have hpos : 0 < display.addr := Nat.pos_of_ne_zero h.addr
  have height8 : 8 * display.pitch ≤ display.height * display.pitch :=
    Nat.mul_le_mul_right _ hhigh
  have hupper : (display.height - 8) * display.pitch + 8 * display.pitch
      = display.height * display.pitch := by
    rw [← Nat.add_mul, Nat.sub_add_cancel hhigh]
  have hfirst : sub32 self.height fontHeight = display.height - 8 := by
    rw [hheight]
    exact sub32_of_le hhigh (by omega)
  have hbytes : u32 (fontHeight * self.pitch) = 8 * display.pitch := by
    rw [hpitch]
    exact Nat.mod_eq_of_lt (show 8 * display.pitch < 2 ^ 32 by omega)
  have hsrc : u32 (self.addr + 8 * display.pitch) = display.addr + 8 * display.pitch := by
    rw [haddr]
    exact Nat.mod_eq_of_lt (by omega)
  have htotal : u32 ((display.height - 8) * self.pitch)
      = (display.height - 8) * display.pitch := by
    rw [hpitch]
    exact Nat.mod_eq_of_lt (by omega)
  rw [scroll_actions, hfirst, hbytes, hsrc, htotal, haddr, List.foldl_append, List.foldl_append]
  rfl

/-- `vbe_scroll` takes the lines of text up by one. -/
theorem prints_scroll (hself : self.addr = display.addr ∧ self.width = display.width ∧
      self.height = display.height ∧ self.pitch = display.pitch)
    (hm : (display.raster h).Shows m (t.picture asciiBitmap))
    (hrows : t.rows = display.height / 8)
    (hbelow : ∀ c r, t.rows ≤ r → t.cells c r = none) :
    (display.raster h).Shows ((self.scroll vbeColorBlack).1.foldl display.perform m)
        (t.scroll.picture asciiBitmap) ∧
      (display.raster h).KeepsOutside m
        ((self.scroll vbeColorBlack).1.foldl display.perform m) := by
  have hwidth := hself.2.1
  have hheight := hself.2.2.1
  have hfits := h.fits
  have hhigh := h.high
  have hupper : (display.height - 8) * display.pitch + 8 * display.pitch
      = display.height * display.pitch := by
    rw [← Nat.add_mul, Nat.sub_add_cancel hhigh]
  -- the block move, and the rows that are cleared behind it
  obtain ⟨m₁, hm₁⟩ : ∃ m₁, m₁ = (memmove m display.addr (display.addr + 8 * display.pitch)
    ((display.height - 8) * display.pitch)).2 := ⟨_, rfl⟩
  obtain ⟨hcopied, hframe⟩ := memmove_spec m display.addr (display.addr + 8 * display.pitch)
    ((display.height - 8) * display.pitch) (by omega) (by omega)
  rw [← hm₁] at hcopied hframe
  have hup : (display.raster h).Shows m₁
      (Raster.moveUp (t.picture asciiBitmap) 8 display.height) :=
    hm.moveUp hhigh (fun i hi => hcopied i hi) fun a ha => hframe a (.inr ha)
  have hkeep : (display.raster h).KeepsOutside m m₁ := Raster.keepsOutside_moveUp hframe
  have hrowsmem := mem_clearRows self (display.height - 8) vbeColorBlack
  rw [hwidth, hheight] at hrowsmem
  rw [scroll_run hself h, ← hm₁]
  obtain ⟨hshows, hkeep'⟩ := shows_pixels h (self.clearRows (display.height - 8) vbeColorBlack)
    (t.scroll.picture asciiBitmap) hup
    (by rw [← hwidth, ← hheight]; exact fits_clearRows) (fun _ _ _ => move_not_mem_clearRows)
    (fun a b k hact => by
      obtain ⟨-, hlow, hlt, rfl⟩ := (hrowsmem a b k).mp hact
      rw [picture_scroll hrows hbelow hhigh hlt, if_neg (by omega)]
      exact ⟨rfl, Nat.two_pow_pos 32⟩)
    (fun a ha b hb => by
      rw [picture_scroll hrows hbelow hhigh hb]
      unfold Raster.moveUp
      by_cases hlow : b < display.height - 8
      · rw [if_pos hlow, if_pos hlow]
        exact .inl rfl
      · rw [if_neg hlow, if_neg hlow]
        exact .inr ((hrowsmem a b 0).mpr ⟨ha, Nat.le_of_not_lt hlow, hb, rfl⟩))
  exact ⟨hshows, hkeep.trans hkeep'⟩

/-! ## A character -/

theorem Prints.shows (hm : Prints asciiBitmap display h m (acts, self) t) :
    ShowsText asciiBitmap display h self (acts.foldl display.perform m) t := And.left hm

/-- The cursors are put on the same cell. -/
theorem Prints.cursor (hm : Prints asciiBitmap display h m (acts, self) t) (c r : Nat) :
    Prints asciiBitmap display h m (acts, { self with cursorX := 8 * c, cursorY := 8 * r })
      { t with column := c, row := r } := by
  obtain ⟨⟨hmode, hcolumns, hrows, hpixels⟩, hkeep⟩ := hm
  have hmode' : self = { display with cursorX := 8 * t.column, cursorY := 8 * t.row } := hmode
  refine ⟨⟨?_, hcolumns, hrows, hpixels⟩, hkeep⟩
  dsimp only
  rw [hmode']

/-- The cursor of the display is the one of the screen. -/
theorem Prints.cursor_eq (hm : Prints asciiBitmap display h m (acts, self) t) :
    (self.cursorX = 8 * t.column ∧ self.cursorY = 8 * t.row) ∧ self.width = display.width ∧
      self.height = display.height := by
  have hmode : self = { display with cursorX := 8 * t.column, cursorY := 8 * t.row } := hm.shows.mode
  rw [hmode]
  exact ⟨⟨rfl, rfl⟩, rfl, rfl⟩

/-- The check at the end of `vbe_draw_ch` -/
theorem Prints.settle (hm : Prints asciiBitmap display h m (acts, self) t)
    (hrow : t.row ≤ t.rows) (hbelow : ∀ c r, t.rows ≤ r → t.cells c r = none) :
    Prints asciiBitmap display h m (scrollBelow acts self) t.settle := by
  obtain ⟨⟨hmode, hcolumns, hrows, hpixels⟩, hkeep⟩ := hm
  have hhigh := h.high
  have hhigh_lt := h.high_lt
  have hmode' : self = { display with cursorX := 8 * t.column, cursorY := 8 * t.row } := hmode
  have hy : u32 (self.cursorY + fontHeight) = 8 * t.row + 8 := by
    rw [hmode']
    exact Nat.mod_eq_of_lt (show 8 * t.row + 8 < 2 ^ 32 by omega)
  have hheight : self.height = display.height := by rw [hmode']
  unfold scrollBelow TextScreen.settle
  rw [hy, hheight]
  by_cases hover : t.rows ≤ t.row
  · -- the cursor is on the line below the last one
    rw [if_pos (by omega), if_pos hover]
    have hsame : self.addr = display.addr ∧ self.width = display.width ∧
        self.height = display.height ∧ self.pitch = display.pitch :=
      ⟨by rw [hmode'], by rw [hmode'], hheight, by rw [hmode']⟩
    obtain ⟨hshows, hkeep'⟩ := prints_scroll hsame hpixels hrows hbelow
    unfold Prints
    rw [List.foldl_append]
    refine ⟨⟨?_, hcolumns, hrows, hshows⟩, hkeep.trans hkeep'⟩
    -- the cursor goes up with the text
    have hup : sub32 (8 * t.row) fontHeight = 8 * (t.row - 1) := by
      have hle : fontHeight ≤ 8 * t.row := show 8 ≤ 8 * t.row by omega
      rw [sub32_of_le hle (by omega)]
      show 8 * t.row - 8 = _
      omega
    rw [scroll_display, hmode']
    dsimp only
    rw [hup]
    rfl
  · rw [if_neg (by omega), if_neg hover]
    exact ⟨⟨hmode, hcolumns, hrows, hpixels⟩, hkeep⟩

/-- A cursor on a cell needs no check. -/
theorem settle_of_lt (hrow : t.row < t.rows) : t.settle = t := if_neg (Nat.not_le.mpr hrow)

/-- The cursor of a newline -/
theorem Prints.newline_eq (hgood : t.Good) (hm : Prints asciiBitmap display h m (acts, self) t) :
    self.newline = { self with cursorX := 8 * 0, cursorY := 8 * (t.row + 1) } := by
  obtain ⟨⟨-, hY⟩, -⟩ := hm.cursor_eq
  have hrow := hgood.row_lt
  have hrows := hm.shows.rows
  have hhigh := h.high_lt
  have hy : u32 (self.cursorY + fontHeight) = 8 * (t.row + 1) := by
    rw [hY]
    exact Nat.mod_eq_of_lt (show 8 * t.row + 8 < 2 ^ 32 by omega)
  unfold Vbe.newline
  rw [hy]

/-- The cursor behind a glyph: the end of a line is where the columns end. -/
theorem Prints.advance_eq (hgood : t.Good) (hm : Prints asciiBitmap display h m (acts, self) t) :
    self.advance =
      if t.column + 1 < t.columns then
        { self with cursorX := 8 * (t.column + 1), cursorY := 8 * t.row }
      else self.newline := by
  obtain ⟨⟨hX, hY⟩, hwidth, -⟩ := hm.cursor_eq
  have hcolumn := hgood.column_lt
  have hcolumns := hm.shows.columns
  have hwide := h.wide_lt
  have hdvd : 8 * (display.width / 8) = display.width := Nat.mul_div_cancel' h.cells
  have hx : u32 (self.cursorX + fontWidth) = 8 * (t.column + 1) := by
    rw [hX]
    exact Nat.mod_eq_of_lt (show 8 * t.column + 8 < 2 ^ 32 by omega)
  have hx' : u32 (8 * (t.column + 1) + fontWidth) = 8 * (t.column + 1) + 8 :=
    Nat.mod_eq_of_lt (show 8 * (t.column + 1) + 8 < 2 ^ 32 by omega)
  unfold Vbe.advance
  dsimp only
  rw [hx, hx', hwidth]
  by_cases hlt : t.column + 1 < t.columns
  · rw [if_neg (by omega), if_pos hlt, ← hY]
  · rw [if_pos (by omega), if_neg hlt, ← hwidth]
    rfl

/-- A newline is printed as on the screen of text. -/
theorem Prints.newline (hgood : t.Good) (hm : Prints asciiBitmap display h m (acts, self) t) :
    Prints asciiBitmap display h m (scrollBelow acts self.newline) t.newline := by
  rw [hm.newline_eq hgood]
  apply (hm.cursor 0 (t.row + 1)).settle
  · exact hgood.row_lt
  · exact hgood.below

/-- The cursor goes on as on the screen of text. -/
theorem Prints.advance (hgood : t.Good) (hm : Prints asciiBitmap display h m (acts, self) t) :
    Prints asciiBitmap display h m (scrollBelow acts self.advance) t.advance := by
  rw [hm.advance_eq hgood]
  unfold TextScreen.advance
  by_cases hlt : t.column + 1 < t.columns
  · -- the line has another cell
    rw [if_pos hlt, if_pos hlt]
    have hsettle := (hm.cursor (t.column + 1) t.row).settle (Nat.le_of_lt hgood.row_lt) hgood.below
    have hsame : TextScreen.settle { t with column := t.column + 1, row := t.row }
        = { t with column := t.column + 1 } := settle_of_lt hgood.row_lt
    rwa [hsame] at hsettle
  · rw [if_neg hlt, if_neg hlt]
    exact hm.newline hgood

/-- The cursor of a backspace is the one of the screen of text. -/
theorem Prints.back (hgood : t.Good) (hm : Prints asciiBitmap display h m ([], self) t) :
    Prints asciiBitmap display h m self.back t.back := by
  obtain ⟨⟨hX, hY⟩, hwidth, -⟩ := hm.cursor_eq
  have hcolumn := hgood.column_lt
  have hrow := hgood.row_lt
  have hcolumns := hm.shows.columns
  have hrows := hm.shows.rows
  have hwide := h.wide_lt
  have hhigh := h.high_lt
  have hdvd : 8 * (display.width / 8) = display.width := Nat.mul_div_cancel' h.cells
  have hfont : fontWidth = 8 ∧ fontHeight = 8 := ⟨rfl, rfl⟩
  unfold Vbe.back TextScreen.back
  rw [hX, hY, hwidth, hfont.1, hfont.2]
  by_cases hleft : 0 < t.column
  · -- in the same line
    rw [if_pos (by omega), if_pos hleft]
    have hx : sub32 (8 * t.column) 8 = 8 * (t.column - 1) := by
      rw [sub32_of_le (by omega) (by omega)]
      omega
    have hprev := hm.cursor (t.column - 1) t.row
    rw [← hx, hwidth] at hprev
    exact hprev
  · rw [if_neg (by omega), if_neg hleft]
    by_cases hup : 0 < t.row
    · -- the end of the line above
      rw [if_pos (by omega), if_pos hup]
      have hy : sub32 (8 * t.row) 8 = 8 * (t.row - 1) := by
        rw [sub32_of_le (by omega) (by omega)]
        omega
      have hx : sub32 display.width 8 = 8 * (t.columns - 1) := by
        rw [sub32_of_le h.wide (by omega)]
        omega
      have hprev := hm.cursor (t.columns - 1) (t.row - 1)
      rw [← hy, ← hx, hwidth] at hprev
      exact hprev
    · -- on the first cell of the screen
      rw [if_neg (by omega), if_neg hup]
      exact hm

/-- Erasing the cell of the cursor -/
theorem Prints.erase (hgood : t.Good) (hm : Prints asciiBitmap display h m (acts, self) t) :
    Prints asciiBitmap display h m
      (acts ++ clearCh self.cursorX self.cursorY vbeColorBlack, self)
      (t.setCell t.column t.row none) := by
  obtain ⟨⟨hX, hY⟩, -⟩ := hm.cursor_eq
  obtain ⟨⟨hmode, hcolumns, hrows, hpixels⟩, hkeep⟩ := hm
  have hcolumn := hgood.column_lt
  have hrow := hgood.row_lt
  dsimp only at hpixels hkeep
  obtain ⟨hshows, hkeep'⟩ := shows_erase hpixels (c := t.column) (r := t.row) (by omega) (by omega)
  unfold Prints
  rw [List.foldl_append, hX, hY]
  exact ⟨⟨hmode, hcolumns, hrows, hshows⟩, hkeep.trans hkeep'⟩

/-- A glyph in the cell of the cursor -/
theorem Prints.glyph (hgood : t.Good) (hm : Prints asciiBitmap display h m (acts, self) t)
    (ch : Nat) (hc : color < 2 ^ 32) :
    Prints asciiBitmap display h m
      (acts ++ clearCh self.cursorX self.cursorY vbeColorBlack
        ++ self.drawBitmap (asciiBitmap ch) color, self)
      (t.setCell t.column t.row (some (ch, color))) := by
  obtain ⟨⟨hX, hY⟩, hwidth, hheight⟩ := hm.cursor_eq
  obtain ⟨⟨hmode, hcolumns, hrows, hpixels⟩, hkeep⟩ := hm.erase hgood
  have hcolumn := hgood.column_lt
  have hrow := hgood.row_lt
  have hcolumns' : t.columns = display.width / 8 := hcolumns
  have hrows' : t.rows = display.height / 8 := hrows
  obtain ⟨hshows, hkeep'⟩ := shows_glyph hpixels hX hY hwidth hheight (by omega) (by omega) hc
  unfold Prints
  rw [List.foldl_append]
  exact ⟨⟨hmode, hcolumns, hrows, hshows⟩, hkeep.trans hkeep'⟩

/-- A character is printed as on the screen of text. -/
theorem Prints.drawCh (hgood : t.Good) (hm : Prints asciiBitmap display h m ([], self) t)
    (ch : Int8) (hc : color < 2 ^ 32) :
    Prints asciiBitmap display h m (self.drawCh asciiBitmap ch color) (t.putc ch color) := by
  unfold Vbe.drawCh TextScreen.putc
  by_cases hnewline : ch = 10
  · rw [if_pos hnewline, if_pos hnewline]
    exact hm.newline hgood
  rw [if_neg hnewline, if_neg hnewline]
  by_cases hreturn : ch = 13
  · rw [if_pos hreturn, if_pos hreturn]
    have hsettle := (hm.cursor 0 t.row).settle (Nat.le_of_lt hgood.row_lt) hgood.below
    have hsame : TextScreen.settle { t with column := 0, row := t.row } = { t with column := 0 } :=
      settle_of_lt hgood.row_lt
    rw [hsame, ← (And.left hm.cursor_eq).2] at hsettle
    exact hsettle
  rw [if_neg hreturn, if_neg hreturn]
  by_cases hback : ch = 8
  · rw [if_pos hback, if_pos hback]
    have hgood' : t.back.Good := hgood.back
    have herase := (hm.back hgood).erase hgood'
    have hsettle := herase.settle (Nat.le_of_lt hgood'.row_lt)
      (hgood'.setCell hgood'.row_lt (by rintro w ⟨⟩)).below
    rwa [settle_of_lt] at hsettle
    exact hgood'.row_lt
  rw [if_neg hback, if_neg hback]
  by_cases hascii : ch.toInt < 0
  · rw [if_pos (.inl hascii), if_pos hascii]
    exact hm.erase hgood
  · -- no `char` is above 127
    have hlt : ch.toInt < 128 := ch.toInt_lt
    rw [if_neg (by omega), if_neg hascii]
    apply Prints.advance _ (hm.glyph hgood ch.toInt.toNat hc)
    exact hgood.setCell hgood.row_lt (by rintro w ⟨⟩; exact hc)

theorem good_putc (hgood : t.Good) (ch : Int8) (hc : color < 2 ^ 32) : (t.putc ch color).Good := by
  unfold TextScreen.putc
  split
  · exact hgood.newline
  · split
    · exact ⟨Nat.lt_of_le_of_lt (Nat.zero_le _) hgood.column_lt, hgood.row_lt, hgood.below,
        hgood.colors⟩
    · split
      · exact hgood.back.setCell hgood.back.row_lt (by rintro w ⟨⟩)
      · split
        · exact hgood.setCell hgood.row_lt (by rintro w ⟨⟩)
        · apply TextScreen.Good.advance
          apply hgood.setCell hgood.row_lt
          rintro w ⟨⟩
          exact hc

/-! ## From `vbe_clear` on -/

/-- `vbe_clear` with black leaves an empty screen, whatever was there before. -/
theorem clear_prints (asciiBitmap : Nat → Nat → UInt8) (h : display.Mode) (m : Mem) :
    Prints asciiBitmap display h m (display.clear vbeColorBlack)
      (TextScreen.blank (display.width / 8) (display.height / 8)) := by
  have hmem := mem_clearRows display 0 vbeColorBlack
  -- whatever the memory shows
  have hany : (display.raster h).Shows m (fun x y => (display.raster h).color m x y) :=
    fun _ _ _ _ => rfl
  have hclear : display.clear vbeColorBlack = (display.clearRows 0 vbeColorBlack,
      { display with cursorX := 0, cursorY := 0 }) := if_neg h.addr
  obtain ⟨hshows, hkeep⟩ := shows_pixels h (display.clearRows 0 vbeColorBlack) (fun _ _ => 0) hany
    fits_clearRows (fun _ _ _ => move_not_mem_clearRows)
    (fun a b k hact => by
      obtain ⟨-, -, -, rfl⟩ := (hmem a b k).mp hact
      exact ⟨rfl, Nat.two_pow_pos 32⟩)
    (fun a ha b hb => .inr ((hmem a b 0).mpr ⟨ha, Nat.zero_le b, hb, rfl⟩))
  rw [hclear]
  exact ⟨⟨rfl, rfl, rfl, hshows⟩, hkeep⟩

/-- An empty screen with a cell -/
theorem good_blank (h : display.Mode) :
    (TextScreen.blank (display.width / 8) (display.height / 8)).Good := by
  have hwide := h.wide
  have hhigh := h.high
  refine ⟨?_, ?_, fun _ _ _ => rfl, by rintro c r v ⟨⟩⟩
  · show 0 < display.width / 8
    omega
  · show 0 < display.height / 8
    omega

/-- The actions are those of the mode, wherever the cursor is. -/
theorem perform_setCursor (display : Vbe) (x y : Nat) :
    ({ display with cursorX := x, cursorY := y } : Vbe).perform = display.perform := by
  funext m a
  cases a <;> rfl

/-- A character that is drawn on a display that shows a screen of text -/
theorem ShowsText.drawCh (hshows : ShowsText asciiBitmap display h self m t) (hgood : t.Good)
    (ch : Int8) (hc : color < 2 ^ 32) :
    (ShowsText asciiBitmap display h (self.drawCh asciiBitmap ch color).2
        ((self.drawCh asciiBitmap ch color).1.foldl self.perform m) (t.putc ch color) ∧
      (t.putc ch color).Good) ∧
    (display.raster h).KeepsOutside m
      ((self.drawCh asciiBitmap ch color).1.foldl self.perform m) := by
  have hstart : Prints asciiBitmap display h m ([], self) t := ⟨hshows, .refl _ _⟩
  have hperform : self.perform = display.perform := by
    rw [hshows.mode]
    exact perform_setCursor _ _ _
  obtain ⟨hdrawn, hkeep⟩ := hstart.drawCh hgood ch hc
  rw [hperform]
  exact ⟨⟨hdrawn, good_putc hgood ch hc⟩, hkeep⟩

/-- The display after `vbe_clear`, with nothing done since -/
def cleared (display : Vbe) (m : Mem) : VbeRun :=
  ⟨(display.clear vbeColorBlack).2,
    (display.clear vbeColorBlack).1.foldl display.perform m, []⟩

/-- Over every run the display shows the screen of text, and only the framebuffer is written. -/
theorem showsText_of_run (h : display.Mode) {chars : List (Int8 × Nat)}
    (hcolor : ∀ e ∈ chars, e.2 < 2 ^ 32) {s : VbeRun}
    (hrun : Runs (VbeRun.step asciiBitmap) always (display.cleared m) chars s) :
    (ShowsText asciiBitmap display h s.display s.mem (chars.foldl (fun t e => t.putc e.1 e.2)
        (TextScreen.blank (display.width / 8) (display.height / 8))) ∧
      (chars.foldl (fun t e => t.putc e.1 e.2)
        (TextScreen.blank (display.width / 8) (display.height / 8))).Good) ∧
    (display.raster h).KeepsOutside m s.mem := by
  induction hrun with
  | nil =>
      obtain ⟨hshows, hkeep⟩ := clear_prints asciiBitmap h m
      exact ⟨⟨hshows, good_blank h⟩, hkeep⟩
  | @snoc chars s s' e _ _ hstep ih =>
      obtain ⟨⟨hshows, hgood⟩, hkeep⟩ := ih fun e he => hcolor e (List.mem_append_left _ he)
      have hc : e.2 < 2 ^ 32 := hcolor e (List.mem_append_right _ (List.mem_singleton_self e))
      obtain ⟨hdrawn, hkeep'⟩ := hshows.drawCh hgood e.1 hc
      obtain rfl := Option.some.inj hstep
      rw [List.foldl_append]
      exact ⟨hdrawn, hkeep.trans hkeep'⟩

end Pixels

/-- From `vbe_clear` on, whatever characters of whatever colours are printed, the display is
    the screen of text: the cursor is on the same cell, every pixel has the colour it has
    there, and no byte outside the framebuffer has been written.  Before `vbe_clear` the
    memory and the cursor may be anything. -/
theorem is_text_screen (asciiBitmap : Nat → Nat → UInt8) (display : Vbe) (h : display.Mode)
    (m : Mem) (chars : List (Int8 × Nat)) (hcolor : ∀ e ∈ chars, e.2 < 2 ^ 32) (s : VbeRun)
    (hrun : Runs (VbeRun.step asciiBitmap) always (display.cleared m) chars s)
    (t : TextScreen) (ht : t = chars.foldl (fun t e => t.putc e.1 e.2)
      (TextScreen.blank (display.width / 8) (display.height / 8))) :
    (s.display.cursorX = 8 * t.column ∧ s.display.cursorY = 8 * t.row ∧
      t.column < display.width / 8 ∧ t.row < display.height / 8) ∧
    (∀ x < display.width, ∀ y < display.height,
      s.mem.load 4 (display.addr + (y * display.pitch + 4 * x)) = t.picture asciiBitmap x y) ∧
    ∀ a, a < display.addr ∨ display.addr + display.height * display.pitch ≤ a →
      s.mem a = m a := by
  subst ht
  obtain ⟨⟨hshows, hgood⟩, hkeep⟩ := showsText_of_run h hcolor hrun
  have hcolumn := hgood.column_lt
  have hrow := hgood.row_lt
  rw [hshows.columns] at hcolumn
  rw [hshows.rows] at hrow
  refine ⟨⟨?_, ?_, hcolumn, hrow⟩, hshows.pixels, hkeep⟩
  · rw [hshows.mode]
  · rw [hshows.mode]

/-- A screen of two lines and four rows of pixels below them -/
def smallMode : Vbe := ⟨0xFD000000, 16, 20, 72, 32, 5, 9⟩

/-- Two letters, which fill a line, a newline, which scrolls, and a backspace to the line
    above -/
theorem is_text_screen_small : ∃ s t,
    Runs (VbeRun.step fun _ _ => 0x18) always (smallMode.cleared fun _ => 7)
      [(65, 0xFF00), (66, 0xFF00), (10, 0), (8, 0)] s ∧
    t = [((65 : Int8), 0xFF00), (66, 0xFF00), (10, 0), (8, 0)].foldl
      (fun t e => TextScreen.putc t e.1 e.2) (TextScreen.blank 2 2) ∧
    (s.display.cursorX = 8 * t.column ∧ s.display.cursorY = 8 * t.row ∧
      t.column < 2 ∧ t.row < 2) ∧
    (∀ x < 16, ∀ y < 20,
      s.mem.load 4 (0xFD000000 + (y * 72 + 4 * x)) = t.picture (fun _ _ => 0x18) x y) ∧
    ∀ a, a < 0xFD000000 ∨ 0xFD000000 + 20 * 72 ≤ a → s.mem a = 7 := by
  have hstart : Runs (VbeRun.step fun _ _ => 0x18) always (smallMode.cleared fun _ => 7) [] _ :=
    .nil
  have hletter := @Runs.snoc _ _ _ _ _ _ _ _ (65, 0xFF00) hstart trivial rfl
  have hfull := @Runs.snoc _ _ _ _ _ _ _ _ (66, 0xFF00) hletter trivial rfl
  have hline := @Runs.snoc _ _ _ _ _ _ _ _ (10, 0) hfull trivial rfl
  have hrun := @Runs.snoc _ _ _ _ _ _ _ _ (8, 0) hline trivial rfl
  have hmode : smallMode.Mode := ⟨⟨by decide, by decide, by decide, by decide⟩, by decide, rfl,
    by decide, by decide, by decide⟩
  exact ⟨_, _, hrun, rfl, is_text_screen (fun _ _ => 0x18) smallMode hmode (fun _ => 7) _
    (by decide) _ hrun _ rfl⟩

end Vbe

end Icarius
