/-
  Icarius.Lib.Raster

  A picture in a byte-addressed memory: pixels of four bytes, a row every `pitch` bytes, and
  perhaps some bytes behind each row that belong to no pixel.  A picture is a function from
  positions to colours; a memory shows it when every pixel has its colour.  Storing a pixel
  and moving the rows up by a block move are what a display driver does, and both keep to
  the bytes of the raster.
-/

import Icarius.Lib.Bytes

namespace Icarius.Lib

/-- The same bytes make the same number, wherever they are. -/
theorem Mem.load_of_moved {m m' : Mem} {k a b : Nat} (h : ∀ i < k, m' (b + i) = m (a + i)) :
    m'.load k b = m.load k a := by
  induction k generalizing a b with
  | zero => rfl
  | succ k ih =>
      have hrest : m'.load k (b + 1) = m.load k (a + 1) := by
        apply ih
        intro i hi
        have hnext := h (i + 1) (Nat.succ_lt_succ hi)
        rwa [Nat.add_comm i 1, ← Nat.add_assoc, ← Nat.add_assoc] at hnext
      show (m' b).toNat + 256 * m'.load k (b + 1) = (m a).toNat + 256 * m.load k (a + 1)
      rw [hrest]
      exact congrArg (fun b : UInt8 => b.toNat + _) (h 0 (Nat.succ_pos k))

/-- Where the pixels are.  A row has room for its pixels. -/
structure Raster where
  base : Nat
  pitch : Nat
  width : Nat
  height : Nat
  row_fits : 4 * width ≤ pitch

namespace Raster

/-- The address of a pixel -/
def offset (r : Raster) (x y : Nat) : Nat := r.base + (y * r.pitch + 4 * x)

/-- The address behind the last row -/
def finish (r : Raster) : Nat := r.base + r.height * r.pitch

/-- The colour of a pixel -/
def color (r : Raster) (m : Mem) (x y : Nat) : Nat := m.load 4 (r.offset x y)

/-- The memory shows the picture. -/
def Shows (r : Raster) (m : Mem) (picture : Nat → Nat → Nat) : Prop :=
  ∀ x < r.width, ∀ y < r.height, r.color m x y = picture x y

/-- No byte outside the raster has changed. -/
def KeepsOutside (r : Raster) (m m' : Mem) : Prop := ∀ a, a < r.base ∨ r.finish ≤ a → m' a = m a

/-- The picture with one pixel set -/
def setPixel (picture : Nat → Nat → Nat) (x y color : Nat) : Nat → Nat → Nat := fun x' y' =>
  if x' = x ∧ y' = y then color else picture x' y'

/-- The picture moved up by `rows` rows.  The last rows stay as they are. -/
def moveUp (picture : Nat → Nat → Nat) (rows height : Nat) : Nat → Nat → Nat := fun x y =>
  if y < height - rows then picture x (y + rows) else picture x y

section Rules

variable {r : Raster} {m m' m'' : Mem} {picture : Nat → Nat → Nat} {x y x' y' c rows : Nat}

theorem KeepsOutside.refl (r : Raster) (m : Mem) : r.KeepsOutside m m := fun _ _ => rfl

theorem KeepsOutside.trans (h : r.KeepsOutside m m') (h' : r.KeepsOutside m' m'') :
    r.KeepsOutside m m'' := fun a ha => (h' a ha).trans (h a ha)

/-- A pixel lies inside its row. -/
theorem offset_lt_next_row (hx : x < r.width) :
    r.offset x y + 4 ≤ r.base + (y + 1) * r.pitch := by
  have hfits := r.row_fits
  have hrow : (y + 1) * r.pitch = y * r.pitch + r.pitch := Nat.succ_mul y r.pitch
  unfold offset
  omega

/-- Rows that follow one another do so in the memory. -/
theorem row_le_row (h : y ≤ y') : y * r.pitch ≤ y' * r.pitch := Nat.mul_le_mul_right r.pitch h

/-- A pixel lies inside the raster. -/
theorem offset_bounds (hx : x < r.width) (hy : y < r.height) :
    r.base ≤ r.offset x y ∧ r.offset x y + 4 ≤ r.finish := by
  have hnext := offset_lt_next_row (r := r) (y := y) hx
  have hlast := row_le_row (r := r) (show y + 1 ≤ r.height from hy)
  have hstart : r.base ≤ r.offset x y := Nat.le_add_right _ _
  unfold finish
  exact ⟨hstart, by omega⟩

/-- The picture does not depend on what is outside. -/
theorem Shows.congr_inside (h : r.Shows m picture)
    (hsame : ∀ a, r.base ≤ a → a < r.finish → m' a = m a) : r.Shows m' picture := by
  intro x hx y hy
  obtain ⟨hstart, hend⟩ := offset_bounds hx hy
  have hload : r.color m' x y = r.color m x y := Mem.load_congr fun a hle hlt =>
    hsame a (Nat.le_trans hstart hle) (Nat.lt_of_lt_of_le hlt hend)
  rw [hload]
  exact h x hx y hy

/-- Two pixels have no byte in common. -/
theorem offset_apart (hx : x < r.width) (hx' : x' < r.width) (hne : ¬ (x' = x ∧ y' = y)) :
    r.offset x' y' + 4 ≤ r.offset x y ∨ r.offset x y + 4 ≤ r.offset x' y' := by
  have hstart : ∀ x y, r.base + y * r.pitch ≤ r.offset x y := by
    intro x y
    unfold offset
    omega
  rcases Nat.lt_trichotomy y' y with hlt | heq | hgt
  · left
    have hnext := offset_lt_next_row (r := r) (y := y') hx'
    have hrow := row_le_row (r := r) (show y' + 1 ≤ y from hlt)
    have hbelow := hstart x y
    omega
  · -- in one row the columns differ
    subst heq
    have hcol : x' ≠ x := fun heq => hne ⟨heq, rfl⟩
    unfold offset
    omega
  · right
    have hnext := offset_lt_next_row (r := r) (y := y) hx
    have hrow := row_le_row (r := r) (show y + 1 ≤ y' from hgt)
    have hbelow := hstart x' y'
    omega

/-- Storing a pixel sets it in the picture. -/
theorem Shows.store (h : r.Shows m picture) (hx : x < r.width) (hc : c < 2 ^ 32) :
    r.Shows (m.store 4 (r.offset x y) c) (setPixel picture x y c) := by
  intro x' hx' y' hy'
  unfold color setPixel
  by_cases heq : x' = x ∧ y' = y
  · obtain ⟨rfl, rfl⟩ := heq
    rw [if_pos ⟨rfl, rfl⟩, Mem.load_store_self]
    exact Nat.mod_eq_of_lt hc
  · rw [if_neg heq, Mem.load_store_of_disjoint _ (offset_apart hx hx' heq)]
    exact h x' hx' y' hy'

theorem keepsOutside_store (hx : x < r.width) (hy : y < r.height) :
    r.KeepsOutside m (m.store 4 (r.offset x y) c) := by
  obtain ⟨hstart, hend⟩ := offset_bounds (r := r) hx hy
  rintro a (ha | ha)
  · exact Mem.store_of_lt m (Nat.lt_of_lt_of_le ha hstart)
  · exact Mem.store_of_ge m (Nat.le_trans hend ha)

/-- What a pixel is after others have been stored one after the other: where every store to it
    has one colour, that one, if there is such a store or it has been that before -/
theorem Shows.stores {picture' : Nat → Nat → Nat} (puts : List (Nat × Nat × Nat))
    (h : r.Shows m picture) (hon : ∀ p ∈ puts, p.1 < r.width ∧ p.2.1 < r.height ∧ p.2.2 < 2 ^ 32)
    (hcolor : ∀ x y c, (x, y, c) ∈ puts → c = picture' x y)
    (hbase : ∀ x < r.width, ∀ y < r.height,
      picture x y = picture' x y ∨ (x, y, picture' x y) ∈ puts) :
    r.Shows (puts.foldl (fun m p => m.store 4 (r.offset p.1 p.2.1) p.2.2) m) picture' ∧
      r.KeepsOutside m (puts.foldl (fun m p => m.store 4 (r.offset p.1 p.2.1) p.2.2) m) := by
  induction puts generalizing m picture with
  | nil =>
      refine ⟨fun x hx y hy => ?_, .refl r m⟩
      rw [← (hbase x hx y hy).resolve_right List.not_mem_nil]
      exact h x hx y hy
  | cons p puts ih =>
      obtain ⟨x, y, c⟩ := p
      obtain ⟨hx, hy, hc⟩ := hon (x, y, c) List.mem_cons_self
      have hfirst : c = picture' x y := hcolor x y c List.mem_cons_self
      obtain ⟨hshows, hkeep⟩ := ih (h.store (y := y) hx hc)
        (fun p hp => hon p (List.mem_cons_of_mem _ hp))
        (fun x y c hp => hcolor x y c (List.mem_cons_of_mem _ hp))
        (fun x' hx' y' hy' => by
          unfold setPixel
          by_cases heq : x' = x ∧ y' = y
          · obtain ⟨rfl, rfl⟩ := heq
            rw [if_pos ⟨rfl, rfl⟩]
            exact .inl hfirst
          · rw [if_neg heq]
            refine (hbase x' hx' y' hy').imp_right fun hp => ?_
            refine (List.mem_cons.mp hp).resolve_left fun hhead => heq ?_
            obtain ⟨hx', hrest⟩ := Prod.mk.inj hhead
            exact ⟨hx', (Prod.mk.inj hrest).1⟩)
      exact ⟨hshows, (keepsOutside_store hx hy).trans hkeep⟩

/-- A block move to the first rows does not leave the raster. -/
theorem keepsOutside_moveUp
    (hrest : ∀ a, a < r.base ∨ r.base + (r.height - rows) * r.pitch ≤ a → m' a = m a) :
    r.KeepsOutside m m' := by
  have hle := Nat.mul_le_mul_right r.pitch (Nat.sub_le r.height rows)
  rintro a (ha | ha)
  · exact hrest a (.inl ha)
  · unfold finish at ha
    exact hrest a (.inr (by omega))

/-- Moving all rows but the first ones to the beginning of the raster moves the picture up. -/
theorem Shows.moveUp (h : r.Shows m picture) (hrows : rows ≤ r.height)
    (hmoved : ∀ i < (r.height - rows) * r.pitch,
      m' (r.base + i) = m (r.base + rows * r.pitch + i))
    (hrest : ∀ a, r.base + (r.height - rows) * r.pitch ≤ a → m' a = m a) :
    r.Shows m' (Raster.moveUp picture rows r.height) := by
  intro x hx y hy
  unfold color Raster.moveUp
  have hnext := offset_lt_next_row (r := r) (y := y) hx
  by_cases hlt : y < r.height - rows
  · -- the bytes of the pixel come from `rows` rows further down
    rw [if_pos hlt, ← h x hx (y + rows) (by omega)]
    have hlast := row_le_row (r := r) (show y + 1 ≤ r.height - rows from hlt)
    have hsum : (y + rows) * r.pitch = y * r.pitch + rows * r.pitch := Nat.add_mul _ _ _
    apply Mem.load_of_moved
    intro i hi
    have hpos : r.offset x y + i = r.base + (y * r.pitch + 4 * x + i) := Nat.add_assoc _ _ _
    have hpos' : r.base + rows * r.pitch + (y * r.pitch + 4 * x + i)
        = r.offset x (y + rows) + i := by
      unfold offset
      omega
    have hlt' : y * r.pitch + 4 * x + i < (r.height - rows) * r.pitch := by
      unfold offset at hnext
      omega
    rw [hpos, hmoved _ hlt', hpos']
  · rw [if_neg hlt, ← h x hx y hy]
    apply Mem.load_congr
    intro a hlo hhi
    apply hrest
    have hrow := row_le_row (r := r) (show r.height - rows ≤ y by omega)
    unfold offset at hlo
    omega

end Rules

end Raster

end Icarius.Lib
