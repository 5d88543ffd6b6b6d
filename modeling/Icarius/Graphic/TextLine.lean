/-
  Icarius.Graphic.TextLine

  The text in front of the cursor of a `TextScreen`, whatever lines it goes over and however
  often the screen scrolls under it.  Cells are counted line by line, so a line break in the
  middle of a text is nothing special, and a scroll takes one line off every number.
-/

import Icarius.Kernel.Kprintf

namespace Icarius

namespace TextScreen

/-- The cell with a number -/
def cellAt (t : TextScreen) (k : Nat) : Option (Nat × Nat) :=
  t.cells (k % t.columns) (k / t.columns)

/-- The number of the cursor's cell -/
def place (t : TextScreen) : Nat := t.row * t.columns + t.column

/-- The cells of `t` are `d` places further up in `t'`. -/
structure MovesUp (t t' : TextScreen) (d : Nat) : Prop where
  columns : t'.columns = t.columns
  rows : t'.rows = t.rows
  cells : ∀ k, t'.cellAt k = t.cellAt (k + d)

/-- The text is in the cells in front of the cursor. -/
structure Left (t : TextScreen) (text : List UInt8) : Prop where
  fits : text.length ≤ t.place
  chars : ∀ i < text.length, t.cellAt (t.place - text.length + i)
    = some ((text.getD i 0).toNat, vbeColorGreen)

/-- Nothing is in the cursor's cell and behind it. -/
def EmptyBehind (t : TextScreen) : Prop := ∀ k, t.place ≤ k → t.cellAt k = none

/-- A byte that has a glyph and takes one cell -/
structure Printable (b : UInt8) : Prop where
  ascii : b.toNat < 128
  not_control : b ≠ 8 ∧ b ≠ 10 ∧ b ≠ 13

/-- As many cells as are left of a text at worst, when the screen has scrolled -/
def room (t : TextScreen) : Nat := (t.rows - 1) * t.columns

section Cells

variable {t t' : TextScreen} {d k : Nat} {v : Option (Nat × Nat)}

theorem movesUp_refl (t : TextScreen) : MovesUp t t 0 := ⟨rfl, rfl, fun _ => rfl⟩

theorem cellAt_setCell (h : t.column < t.columns) (v : Option (Nat × Nat)) (k : Nat) :
    (t.setCell t.column t.row v).cellAt k = if k = t.place then v else t.cellAt k := by
  have hplace : (k % t.columns = t.column ∧ k / t.columns = t.row) ↔ k = t.place := by
    constructor
    · rintro ⟨hmod, hdiv⟩
      have hsum := Nat.div_add_mod k t.columns
      rw [hmod, hdiv, Nat.mul_comm] at hsum
      exact hsum.symm
    · rintro rfl
      unfold place
      rw [Nat.mul_comm, Nat.mul_add_mod, Nat.mod_eq_of_lt h,
        Nat.mul_add_div (Nat.zero_lt_of_lt h), Nat.div_eq_of_lt h]
      exact ⟨rfl, Nat.add_zero _⟩
  show (if k % t.columns = t.column ∧ k / t.columns = t.row then v else t.cellAt k) = _
  by_cases heq : k = t.place
  · rw [if_pos heq, if_pos (hplace.mpr heq)]
  · rw [if_neg heq, if_neg fun hcell => heq (hplace.mp hcell)]

/-- A scroll, when the cursor is below the last line -/
theorem scroll_spec (hcolumn : t.column < t.columns) (hrow : t.row = t.rows) (hrows : 0 < t.rows)
    (hbelow : ∀ c r, t.rows ≤ r → t.cells c r = none) :
    MovesUp t t.scroll t.columns ∧ t.scroll.place + t.columns = t.place := by
  have hpos : 0 < t.columns := Nat.zero_lt_of_lt hcolumn
  refine ⟨⟨rfl, rfl, fun k => ?_⟩, ?_⟩
  · show (if k / t.columns + 1 < t.rows then t.cells (k % t.columns) (k / t.columns + 1) else none)
      = t.cells ((k + t.columns) % t.columns) ((k + t.columns) / t.columns)
    rw [Nat.add_mod_right, Nat.add_div_right k hpos]
    split
    · rfl
    · rename_i hout
      exact (hbelow _ _ (Nat.le_of_not_lt hout)).symm
  · show (t.row - 1) * t.columns + t.column + t.columns = t.row * t.columns + t.column
    obtain ⟨r, hr⟩ : ∃ r, t.row = r + 1 := ⟨t.row - 1, by omega⟩
    rw [hr, Nat.add_sub_cancel, Nat.succ_mul]
    omega

/-- The cursor comes back onto the screen, and its text with it. -/
theorem settle_spec (hcolumn : t.column < t.columns) (hrow : t.row ≤ t.rows) (hrows : 0 < t.rows)
    (hbelow : ∀ c r, t.rows ≤ r → t.cells c r = none) :
    ∃ d, MovesUp t t.settle d ∧ t.settle.place + d = t.place ∧
      (d = 0 ∨ d = t.columns ∧ t.settle.place = t.room + t.column) := by
  unfold settle
  split
  · rename_i hge
    obtain ⟨hmoves, hplace⟩ := scroll_spec hcolumn (Nat.le_antisymm hrow hge) hrows hbelow
    refine ⟨t.columns, hmoves, hplace, .inr ⟨rfl, ?_⟩⟩
    show (t.row - 1) * t.columns + t.column = (t.rows - 1) * t.columns + t.column
    rw [Nat.le_antisymm hrow hge]
  · exact ⟨0, movesUp_refl t, rfl, .inl rfl⟩

/-- A newline goes to the first cell of the next line. -/
theorem newline_spec (h : t.Good) : ∃ d, MovesUp t t.newline d ∧
    t.newline.place + d = (t.row + 1) * t.columns ∧
    (d = 0 ∨ d = t.columns ∧ t.newline.place = t.room) := by
  obtain ⟨d, hmoves, hplace, hd⟩ := settle_spec (t := { t with column := 0, row := t.row + 1 })
    (Nat.zero_lt_of_lt h.column_lt) h.row_lt (Nat.zero_lt_of_lt h.row_lt) h.below
  exact ⟨d, ⟨hmoves.columns, hmoves.rows, hmoves.cells⟩, hplace, hd⟩

/-- The next cell is the next one also at the end of a line. -/
theorem advance_spec (h : t.Good) : ∃ d, MovesUp t t.advance d ∧
    t.advance.place + d = t.place + 1 ∧
    (d = 0 ∨ d = t.columns ∧ t.advance.place = t.room) := by
  have hcolumn := h.column_lt
  unfold advance
  split
  · exact ⟨0, ⟨rfl, rfl, fun _ => rfl⟩, rfl, .inl rfl⟩
  · obtain ⟨d, hmoves, hplace, hd⟩ := newline_spec h
    refine ⟨d, hmoves, ?_, hd⟩
    rw [hplace, Nat.succ_mul]
    unfold place
    omega

/-- And so is the one before at the beginning of a line. -/
theorem back_spec (h : t.Good) (hpos : 0 < t.place) :
    t.back.place + 1 = t.place ∧ MovesUp t t.back 0 := by
  have hcolumn := h.column_lt
  unfold back
  split
  · refine ⟨?_, ⟨rfl, rfl, fun _ => rfl⟩⟩
    show t.row * t.columns + (t.column - 1) + 1 = t.row * t.columns + t.column
    omega
  · split
    · refine ⟨?_, ⟨rfl, rfl, fun _ => rfl⟩⟩
      show (t.row - 1) * t.columns + (t.columns - 1) + 1 = t.row * t.columns + t.column
      obtain ⟨r, hr⟩ : ∃ r, t.row = r + 1 := ⟨t.row - 1, by omega⟩
      rw [hr, Nat.add_sub_cancel, Nat.succ_mul]
      omega
    · -- the cursor is on the first cell of the screen
      rename_i hcol hrow
      have hzero : t.row = 0 := by omega
      unfold place at hpos
      rw [hzero, Nat.zero_mul] at hpos
      omega

/-- On the first cell of the screen a backspace stays. -/
theorem back_of_first (h : t.Good) (hfirst : t.place = 0) : t.back = t := by
  have hcolumns : 0 < t.columns := Nat.zero_lt_of_lt h.column_lt
  obtain ⟨hrow, hcolumn⟩ := Nat.add_eq_zero_iff.mp hfirst
  have hrow' : t.row = 0 := (Nat.mul_eq_zero.mp hrow).resolve_right (by omega)
  unfold back
  rw [if_neg (by omega), if_neg (by omega)]

end Cells

section Characters

variable {t : TextScreen} {text : List UInt8} {b : UInt8}

/-- A printable byte is drawn. -/
theorem putc_printable (hb : Printable b) (color : Nat) : t.putc b.toInt8 color
    = (t.setCell t.column t.row (some (b.toNat, color))).advance := by
  have hint : b.toInt8.toInt = b.toNat := by
    show b.toBitVec.toInt = _
    rw [BitVec.toInt_eq_toNat_of_lt (by have := hb.ascii; show 2 * b.toNat < 256; omega)]
    rfl
  have hne : ∀ c : UInt8, b ≠ c → b.toInt8 ≠ c.toInt8 := fun c hne heq =>
    hne (by rw [← UInt8.toUInt8_toInt8 b, heq, UInt8.toUInt8_toInt8])
  obtain ⟨hback, hnewline, hreturn⟩ := hb.not_control
  have hback' : b.toInt8 ≠ 8 := hne 8 hback
  have hnewline' : b.toInt8 ≠ 10 := hne 10 hnewline
  have hreturn' : b.toInt8 ≠ 13 := hne 13 hreturn
  unfold putc
  rw [if_neg hnewline', if_neg hreturn', if_neg hback', hint, if_neg (by omega)]
  rfl

theorem good_setCell (h : t.Good) (b : UInt8) :
    (t.setCell t.column t.row (some (b.toNat, vbeColorGreen))).Good := by
  apply h.setCell h.row_lt
  rintro w ⟨⟩
  show vbeColorGreen < 2 ^ 32
  decide

/-- A printable byte becomes the last one in front of the cursor. -/
theorem Left.putc (hleft : t.Left text) (h : t.Good) (hb : Printable b)
    (hroom : text.length < t.room) : (t.putc b.toInt8 vbeColorGreen).Left (text ++ [b]) := by
  have hfits := hleft.fits
  obtain ⟨d, hmoves, hplace, hd⟩ := advance_spec (good_setCell h b)
  rw [putc_printable hb]
  have hplace' : (t.setCell t.column t.row (some (b.toNat, vbeColorGreen))).advance.place + d
      = t.place + 1 := hplace
  have hlen : (text ++ [b]).length = text.length + 1 := List.length_append
  have hin : text.length + 1
      ≤ (t.setCell t.column t.row (some (b.toNat, vbeColorGreen))).advance.place := by
    rcases hd with rfl | ⟨-, hend⟩
    · omega
    · rw [hend]
      exact hroom
  refine ⟨by rw [hlen]; exact hin, fun i hi => ?_⟩
  rw [hlen] at hi ⊢
  rw [hmoves.cells, cellAt_setCell h.column_lt]
  -- the new byte is where the cursor was, the others are where they were
  by_cases hlast : i = text.length
  · rw [hlast, if_pos (by omega), List.getD_append_right _ _ _ _ (Nat.le_refl _), Nat.sub_self]
    rfl
  · have hlt : i < text.length := by omega
    have hcell : (t.setCell t.column t.row (some (b.toNat, vbeColorGreen))).advance.place
        - (text.length + 1) + i + d = t.place - text.length + i := by omega
    rw [if_neg (by omega), hcell, List.getD_append _ _ _ _ hlt]
    exact hleft.chars i hlt

theorem putc_size (t : TextScreen) (ch : Int8) (color : Nat) :
    (t.putc ch color).columns = t.columns ∧ (t.putc ch color).rows = t.rows := by
  have hsettle : ∀ t : TextScreen, t.settle.columns = t.columns ∧ t.settle.rows = t.rows := by
    intro t
    unfold settle
    split <;> exact ⟨rfl, rfl⟩
  unfold TextScreen.putc
  split
  · exact hsettle _
  · split
    · exact ⟨rfl, rfl⟩
    · split
      · exact back_size t
      · split
        · exact ⟨rfl, rfl⟩
        · unfold advance
          split
          · exact ⟨rfl, rfl⟩
          · exact hsettle _

theorem puts_size (t : TextScreen) (text : List UInt8) :
    (t.puts text).columns = t.columns ∧ (t.puts text).rows = t.rows := by
  induction text generalizing t with
  | nil => exact ⟨rfl, rfl⟩
  | cons b text ih =>
      obtain ⟨hcolumns, hrows⟩ := putc_size t b.toInt8 vbeColorGreen
      obtain ⟨hcolumns', hrows'⟩ := ih (t.putc b.toInt8 vbeColorGreen)
      exact ⟨hcolumns'.trans hcolumns, hrows'.trans hrows⟩

theorem puts_room (t : TextScreen) (text : List UInt8) : (t.puts text).room = t.room := by
  unfold room
  rw [(puts_size t text).1, (puts_size t text).2]

theorem Good.puts (h : t.Good) (text : List UInt8) : (t.puts text).Good := by
  have hcolor : vbeColorGreen < 2 ^ 32 := by decide
  induction text generalizing t with
  | nil => exact h
  | cons b text ih => exact ih (Vbe.good_putc h b.toInt8 hcolor)

/-- Printing puts a text behind the one in front of the cursor. -/
theorem Left.puts {line : List UInt8} (hleft : t.Left text) (h : t.Good)
    (hline : ∀ b ∈ line, Printable b) (hroom : text.length + line.length ≤ t.room) :
    (t.puts line).Left (text ++ line) := by
  induction line generalizing t text with
  | nil =>
      rw [List.append_nil]
      exact hleft
  | cons b line ih =>
      rw [List.length_cons] at hroom
      have hput := hleft.putc h (hline b List.mem_cons_self) (by omega)
      have hroom' : (t.putc b.toInt8 vbeColorGreen).room = t.room := puts_room t [b]
      have hrest := ih hput (Good.puts h [b]) (fun c hc => hline c (List.mem_cons_of_mem b hc))
        (by rw [hroom', List.length_append, List.length_singleton]; omega)
      rw [List.append_assoc, List.singleton_append] at hrest
      exact hrest

theorem left_nil (t : TextScreen) : t.Left [] :=
  ⟨Nat.zero_le _, fun _ hi => absurd hi (Nat.not_lt_zero _)⟩

/-- A backspace takes the last byte away. -/
theorem Left.back (hleft : t.Left (text ++ [b])) (h : t.Good) :
    (t.putc 8 vbeColorGreen).Left text := by
  have hfits := hleft.fits
  have hlen : (text ++ [b]).length = text.length + 1 := List.length_append
  rw [hlen] at hfits
  obtain ⟨hplace, hmoves⟩ := back_spec h (by omega)
  show (t.back.setCell t.back.column t.back.row none).Left text
  have hplace' : (t.back.setCell t.back.column t.back.row none).place + 1 = t.place := hplace
  refine ⟨by omega, fun i hi => ?_⟩
  have hchar := hleft.chars i (by omega)
  rw [hlen, List.getD_append _ _ _ _ hi] at hchar
  have hcell : (t.back.setCell t.back.column t.back.row none).place - text.length + i
      = t.place - (text.length + 1) + i := by omega
  rw [cellAt_setCell h.back.column_lt, hcell, if_neg (by omega), hmoves.cells, Nat.add_zero]
  exact hchar

/-- And so does a backspace with a blank and another one behind it. -/
theorem Left.rubout (hleft : t.Left (text ++ [b])) (h : t.Good) (hroom : text.length < t.room) :
    (t.puts [8, 32, 8]).Left text := by
  have hblank : Printable 32 := ⟨by decide, by decide, by decide, by decide⟩
  have hroom₁ : (t.puts [8]).room = t.room := puts_room t [8]
  have hback := (hleft.back h).putc (Good.puts h [8]) hblank (by
    show text.length < (t.puts [8]).room
    omega)
  exact hback.back (Good.puts h [8, 32])

/-- Nothing is behind the cursor that has moved on while the lines have gone up. -/
theorem EmptyBehind.moved {t' : TextScreen} {d : Nat} (hempty : t.EmptyBehind)
    (hmoves : MovesUp t t' d) (hle : t.place ≤ t'.place + d) : t'.EmptyBehind := by
  intro k hk
  rw [hmoves.cells]
  exact hempty _ (by omega)

/-- A byte that does not take the cursor back leaves nothing behind it. -/
theorem EmptyBehind.putc (hempty : t.EmptyBehind) (h : t.Good) (hb : b ≠ 13) :
    (t.putc b.toInt8 vbeColorGreen).EmptyBehind := by
  unfold TextScreen.putc
  split
  · -- a newline
    obtain ⟨d, hmoves, hplace, -⟩ := newline_spec h
    have hcolumn := h.column_lt
    apply hempty.moved hmoves
    rw [hplace, Nat.succ_mul]
    unfold place
    omega
  · have hne : b.toInt8 ≠ 13 := fun heq => hb (by
      rw [← UInt8.toUInt8_toInt8 b, heq]
      rfl)
    rw [if_neg hne]
    split
    · -- a backspace: the cell it goes back to is empty then
      intro k hk
      rw [cellAt_setCell h.back.column_lt]
      split
      · rfl
      · rename_i hcell
        have hk' : t.back.place ≤ k := hk
        rcases Nat.eq_zero_or_pos t.place with hzero | hpos
        · -- on the first cell of the screen
          exact (back_of_first h hzero).symm ▸ hempty k (by omega)
        · obtain ⟨hplace, hmoves⟩ := back_spec h hpos
          rw [hmoves.cells]
          exact hempty _ (by omega)
    · split
      · -- the cell of the cursor is emptied, and the cursor stays
        intro k hk
        rw [cellAt_setCell h.column_lt]
        split
        · rfl
        · exact hempty k hk
      · -- a glyph, which is in front of the cursor then
        obtain ⟨d, hmoves, hplace, -⟩ := advance_spec (h.setCell (c := t.column) (r := t.row)
          (v := some (b.toInt8.toInt.toNat, vbeColorGreen)) h.row_lt (by
            rintro w ⟨⟩
            show vbeColorGreen < 2 ^ 32
            decide))
        intro k hk
        have hplace' : _ + d = t.place + 1 := hplace
        rw [hmoves.cells, cellAt_setCell h.column_lt, if_neg (by omega)]
        exact hempty _ (by omega)

theorem EmptyBehind.puts (hempty : t.EmptyBehind) (h : t.Good) (htext : 13 ∉ text) :
    (t.puts text).EmptyBehind := by
  induction text generalizing t with
  | nil => exact hempty
  | cons b text ih =>
      have hb : b ≠ 13 := fun heq => htext (heq ▸ List.mem_cons_self)
      exact ih (hempty.putc h hb) (Good.puts h [b]) fun hmem =>
        htext (List.mem_cons_of_mem b hmem)

end Characters

end TextScreen

end Icarius
