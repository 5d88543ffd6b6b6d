/-
  Icarius.Graphic.Fb

  The framebuffer of `src/x86_64/graphic/fb.c`, byte by byte.  The renderer above it knows
  pixels and scrolls; `Frame` is the picture it has in mind.  The memory shows that picture
  after any calls, and not a byte outside the framebuffer is written, so the console of
  `src/x86_64/kernel.c` can print what it likes.
-/

import Icarius.Graphic.Backspace
import Icarius.Lib.Raster
import Mathlib.Data.List.Basic

namespace Icarius

open Icarius.Lib

/-! ## kerr.c -/

/-- `kresult_t` -/
structure KResult where
  code : Int
  msg : Option String
  deriving DecidableEq

/-- `kres_ok(NULL)` -/
def kresOk : KResult := ⟨0, none⟩

/-- `kres_err` -/
def kresErr (c : Int) (msg : String) : KResult := ⟨c, some msg⟩

/-- `K_ENODEV` -/
def kEnodev : Int := 19

/-- `K_EINVAL` -/
def kEinval : Int := 22

/-! ## klib/string.c -/

/-- The loop of `memmove` that counts up, `k` rounds before its end -/
def klibForward (d s : Nat) : Nat → Nat → Mem → Mem
  | 0, _, m => m
  | k + 1, i, m => klibForward d s k (i + 1) (m.write (d + i) [m (s + i)])

/-- The loop that counts down -/
def klibBackward (d s : Nat) : Nat → Mem → Mem
  | 0, m => m
  | i + 1, m => klibBackward d s i (m.write (d + i) [m (s + i)])

/-- `memmove` of the 64-bit kernel -/
def klibMemmove (m : Mem) (dest src count : Nat) : Mem :=
  if dest = src ∨ count = 0 then m
  else if dest < src then klibForward dest src count 0 m
  else klibBackward dest src count m

/-! ## fb.c -/

/-- `fb_info_t.fmt`, the fields that are read -/
structure FbFormat where
  rShift : Nat
  gShift : Nat
  bShift : Nat
  aShift : Nat
  aSize : Nat

/-- `fb_info_t` -/
structure FbInfo where
  vaddr : Nat
  width : Nat
  height : Nat
  pitch : Nat
  bpp : Nat
  fmt : FbFormat

/-- `g_fb`, less the back buffer, which nothing draws to -/
structure Fb where
  frontbuffer : Nat
  info : FbInfo

/-- `fb_setup` -/
def fbSetup (info : FbInfo) : Fb := ⟨info.vaddr, info⟩

/-- `fb_pack_rgba` -/
def fbPackRgba (info : FbInfo) (r g b a : UInt8) : Nat :=
  u32 (r.toNat * 2 ^ info.fmt.rShift) ||| u32 (g.toNat * 2 ^ info.fmt.gShift)
    ||| u32 (b.toNat * 2 ^ info.fmt.bShift)
    ||| (if info.fmt.aSize ≠ 0 then u32 (a.toNat * 2 ^ info.fmt.aShift) else 0)

namespace Fb

/-- The checks in front of `fb_clear` and `fb_put_pixel_at` -/
def check (self : Fb) : Option KResult :=
  if self.frontbuffer = 0 then some (kresErr (-kEnodev) "NO Frontbuffer")
  else if self.info.bpp ≠ 32 then some (kresErr (-kEinval) "Only 32 Bpp is supported")
  else none

/-- `row[x] = color` -/
def storePixel (self : Fb) (x y color : Nat) (m : Mem) : Mem :=
  m.store 4 (self.frontbuffer + (u32 (y * self.info.pitch) + 4 * x)) color

/-- `fb_clear` -/
def clear (self : Fb) (color : Nat) (m : Mem) : KResult × Mem :=
  match self.check with
  | some err => (err, m)
  | none =>
      (kresOk,
        (List.range self.info.height).foldl (fun m y =>
          (List.range self.info.width).foldl (fun m x => self.storePixel x y color m) m) m)

/-- `fb_put_pixel_at` -/
def putPixelAt (self : Fb) (x y color : Nat) (m : Mem) : KResult × Mem :=
  match self.check with
  | some err => (err, m)
  | none =>
      if x ≥ self.info.width ∨ y ≥ self.info.height then
        (kresErr (-kEinval) "Display limits exceeded", m)
      else (kresOk, self.storePixel x y color m)

/-- `height - rows` of two `uint32_t` -/
def firstClear (self : Fb) (rows : Nat) : Nat := u32 (self.info.height + 2 ^ 32 - rows)

/-- The pixels that `fb_scroll` puts, in their order -/
def scrollPixels (self : Fb) (rows : Nat) : List (Nat × Nat) :=
  (List.range' (self.firstClear rows) (self.info.height - self.firstClear rows)).flatMap fun y =>
    (List.range self.info.width).map fun x => (x, y)

/-- `fb_scroll` -/
def scroll (self : Fb) (color rows : Nat) (m : Mem) : Mem :=
  let scrollBytes := u32 (rows * self.info.pitch)
  let src := self.frontbuffer + scrollBytes
  let totalBytes := u32 (self.firstClear rows * self.info.pitch)
  let m := klibMemmove m self.frontbuffer src totalBytes
  (self.scrollPixels rows).foldl (fun m p => (self.putPixelAt p.1 p.2 color m).2) m

/-- What the renderer does to the framebuffer -/
def perform (self : Fb) (m : Mem) : FbOp → Mem
  | .pixel x y color => (self.putPixelAt x y color m).2
  | .scroll color rows => self.scroll color rows m

end Fb

/-! ## kernel.c -/

/-- `tty_puts` -/
def ttyPuts (tty : Tty) : List Nat → List FbOp × Tty
  | [] => ([], tty)
  | ch :: text =>
      let (ops, tty) := tty.putc ch
      let (rest, tty) := ttyPuts tty text
      (ops ++ rest, tty)

/-- `font_setup(&font, 8, 8, default_glyph)` -/
def kmainFont (defaultGlyph : Nat → Nat → UInt8) : Font := ⟨8, 8, defaultGlyph⟩

/-- The console that `kmain` sets up: green on a transparent background -/
def kmainTty (fb : Fb) (defaultGlyph : Nat → Nat → UInt8) : Tty :=
  ttyInit
    { font := kmainFont defaultGlyph
      screenW := fb.info.width
      screenH := fb.info.height
      cursorX := 0
      cursorY := 0
      fg := fbPackRgba fb.info 0x00 0xAC 0x00 0xFF
      bg := fbPackRgba fb.info 0x00 0x00 0x00 0x00
      bgTransparent := true }

/-! ## memmove -/

/-- Upwards a byte is read before it is overwritten. -/
theorem klibForward_spec {d s : Nat} (h : d < s) (k i : Nat) (m : Mem) (a : Nat) :
    klibForward d s k i m a = if d + i ≤ a ∧ a < d + i + k then m (s + (a - d)) else m a := by
  induction k generalizing i m with
  | zero =>
      rw [if_neg (by omega)]
      rfl
  | succ k ih =>
      rw [klibForward, ih]
      -- the byte of this round, the ones after it, and the rest of the memory
      by_cases hfirst : a = d + i
      · subst hfirst
        rw [if_neg (by omega), if_pos (by omega), Mem.write_byte_self]
        congr 1
        omega
      · by_cases hin : d + (i + 1) ≤ a ∧ a < d + (i + 1) + k
        · rw [if_pos hin, if_pos (by omega), Mem.write_byte_of_ne (by omega)]
        · rw [if_neg hin, if_neg (by omega), Mem.write_byte_of_ne hfirst]

/-- `memmove` to a lower address -/
theorem klibMemmove_down (m : Mem) (dest src count : Nat) (h : dest ≤ src) :
    (∀ i < count, klibMemmove m dest src count (dest + i) = m (src + i)) ∧
      ∀ a, a < dest ∨ dest + count ≤ a → klibMemmove m dest src count a = m a := by
  unfold klibMemmove
  by_cases hnone : dest = src ∨ count = 0
  · rw [if_pos hnone]
    refine ⟨fun i hi => ?_, fun _ _ => rfl⟩
    obtain rfl := hnone.resolve_right (by omega)
    rfl
  · rw [if_neg hnone]
    have hlt : dest < src := Nat.lt_of_le_of_ne h fun heq => hnone (.inl heq)
    rw [if_pos hlt]
    refine ⟨fun i hi => ?_, fun a ha => ?_⟩
    · rw [klibForward_spec hlt, if_pos (by omega), Nat.add_sub_cancel_left]
    · rw [klibForward_spec hlt, if_neg (by omega)]

/-! ## The framebuffer shows the frame -/

namespace Fb

/-- What `_init_limine` checks and the bootloader gives: 32 bits for a pixel, rows with room for
    their pixels, and a size that the products of `fb.c` hold. -/
structure Ready (fb : Fb) : Prop where
  frontbuffer : fb.frontbuffer ≠ 0
  bpp : fb.info.bpp = 32
  row_fits : 4 * fb.info.width ≤ fb.info.pitch
  size_lt : fb.info.height * fb.info.pitch < 2 ^ 32
  height_lt : fb.info.height < 2 ^ 32

/-- The pixels of the framebuffer -/
def raster (fb : Fb) (h : fb.Ready) : Raster :=
  ⟨fb.frontbuffer, fb.info.pitch, fb.info.width, fb.info.height, h.row_fits⟩

section Calls

variable {fb : Fb} {m : Mem} {frame : Frame} {x y color rows : Nat}

theorem Ready.check (h : fb.Ready) : fb.check = none := by
  unfold Fb.check
  rw [if_neg h.frontbuffer, if_neg (not_not.mpr h.bpp)]

/-- A pixel on the screen is stored where the raster has it. -/
theorem storePixel_eq (h : fb.Ready) (hy : y < fb.info.height) :
    fb.storePixel x y color m = m.store 4 ((fb.raster h).offset x y) color := by
  have hsize := h.size_lt
  have hle : y * fb.info.pitch ≤ fb.info.height * fb.info.pitch :=
    Nat.mul_le_mul_right _ (Nat.le_of_lt hy)
  have hrow : u32 (y * fb.info.pitch) = y * fb.info.pitch := Nat.mod_eq_of_lt (by omega)
  unfold storePixel
  rw [hrow]
  rfl

/-- The frame has the size of the framebuffer, and the memory shows its pixels. -/
structure ShowsFrame (fb : Fb) (h : fb.Ready) (m : Mem) (frame : Frame) : Prop where
  width : frame.width = fb.info.width
  height : frame.height = fb.info.height
  pixels : (fb.raster h).Shows m frame.pixels

/-- `fb_put_pixel_at` sets the pixel, or refuses it and changes nothing. -/
theorem ShowsFrame.putPixelAt {h : fb.Ready} (hm : fb.ShowsFrame h m frame)
    (hc : color < 2 ^ 32) :
    fb.ShowsFrame h (fb.putPixelAt x y color m).2 (frame.perform (.pixel x y color)) ∧
      (fb.raster h).KeepsOutside m (fb.putPixelAt x y color m).2 := by
  unfold Fb.putPixelAt Frame.perform
  rw [h.check, hm.width, hm.height]
  dsimp only
  split
  · exact ⟨hm, .refl _ m⟩
  · rename_i hon
    have hx : x < fb.info.width := by omega
    have hy : y < fb.info.height := by omega
    rw [storePixel_eq h hy]
    refine ⟨⟨rfl, rfl, ?_⟩, Raster.keepsOutside_store hx hy⟩
    exact hm.pixels.store hx hc

/-- Pixels of one colour, one after the other -/
theorem ShowsFrame.putPixels {h : fb.Ready} (positions : List (Nat × Nat))
    (hm : fb.ShowsFrame h m frame) (hc : color < 2 ^ 32) :
    fb.ShowsFrame h (positions.foldl (fun m p => (fb.putPixelAt p.1 p.2 color m).2) m)
        (frame.performAll (positions.map fun p => .pixel p.1 p.2 color)) ∧
      (fb.raster h).KeepsOutside m
        (positions.foldl (fun m p => (fb.putPixelAt p.1 p.2 color m).2) m) := by
  induction positions generalizing m frame with
  | nil => exact ⟨hm, .refl _ m⟩
  | cons p positions ih =>
      obtain ⟨hstep, hkeep⟩ := hm.putPixelAt (x := p.1) (y := p.2) hc
      obtain ⟨hrest, hkeep'⟩ := ih hstep
      exact ⟨hrest, hkeep.trans hkeep'⟩

theorem firstClear_eq (h : fb.Ready) (hrows : rows ≤ fb.info.height) :
    fb.firstClear rows = fb.info.height - rows := by
  have hlt := h.height_lt
  have hsum : fb.info.height + 2 ^ 32 - rows = fb.info.height - rows + 2 ^ 32 := by omega
  unfold firstClear u32
  rw [hsum, Nat.add_mod_right, Nat.mod_eq_of_lt (by omega)]

/-- The pixels that are put are those of the rows below the ones that have moved. -/
theorem mem_scrollPixels (h : fb.Ready) (hrows : rows ≤ fb.info.height) {p : Nat × Nat} :
    p ∈ fb.scrollPixels rows
      ↔ p.1 < fb.info.width ∧ fb.info.height - rows ≤ p.2 ∧ p.2 < fb.info.height := by
  unfold scrollPixels
  rw [firstClear_eq h hrows]
  obtain ⟨x, y⟩ := p
  simp only [List.mem_flatMap, List.mem_map, List.mem_range, List.mem_range'_1, Prod.mk.injEq]
  constructor
  · rintro ⟨y', hy', x', hx', rfl, rfl⟩
    exact ⟨hx', hy'.1, by omega⟩
  · rintro ⟨hx, hy, hy'⟩
    exact ⟨y, ⟨hy, by omega⟩, x, hx, rfl, rfl⟩

/-- `fb_scroll` is a block move, and then every pixel of the last rows is put. -/
theorem scroll_eq (h : fb.Ready) (hrows : rows ≤ fb.info.height) (m : Mem) :
    fb.scroll color rows m
      = (fb.scrollPixels rows).foldl (fun m p => (fb.putPixelAt p.1 p.2 color m).2)
          (klibMemmove m fb.frontbuffer (fb.frontbuffer + rows * fb.info.pitch)
            ((fb.info.height - rows) * fb.info.pitch)) := by
  have hsize := h.size_lt
  -- no product wraps around: the whole picture is within the address space
  have hscroll : u32 (rows * fb.info.pitch) = rows * fb.info.pitch := by
    have hle := Nat.mul_le_mul_right fb.info.pitch hrows
    exact Nat.mod_eq_of_lt (by omega)
  have htotal : u32 ((fb.info.height - rows) * fb.info.pitch)
      = (fb.info.height - rows) * fb.info.pitch := by
    have hle := Nat.mul_le_mul_right fb.info.pitch (Nat.sub_le fb.info.height rows)
    exact Nat.mod_eq_of_lt (by omega)
  unfold Fb.scroll
  rw [hscroll, firstClear_eq h hrows, htotal]

/-- `fb_scroll` moves the rows up and clears the last ones. -/
theorem ShowsFrame.scroll {h : fb.Ready} (hm : fb.ShowsFrame h m frame)
    (hrows : rows ≤ fb.info.height) (hc : color < 2 ^ 32) :
    fb.ShowsFrame h (fb.scroll color rows m) (frame.perform (.scroll color rows)) ∧
      (fb.raster h).KeepsOutside m (fb.scroll color rows m) := by
  -- the block move takes the picture up
  obtain ⟨hmoved, hrest⟩ := klibMemmove_down m fb.frontbuffer
    (fb.frontbuffer + rows * fb.info.pitch) ((fb.info.height - rows) * fb.info.pitch)
    (Nat.le_add_right _ _)
  obtain ⟨moved, hwidth, hheight, hpixels⟩ : ∃ moved : Frame, moved.width = frame.width ∧
      moved.height = frame.height ∧
      moved.pixels = Raster.moveUp frame.pixels rows fb.info.height :=
    ⟨{ frame with pixels := Raster.moveUp frame.pixels rows fb.info.height }, rfl, rfl, rfl⟩
  have hup : fb.ShowsFrame h
      (klibMemmove m fb.frontbuffer (fb.frontbuffer + rows * fb.info.pitch)
        ((fb.info.height - rows) * fb.info.pitch)) moved := by
    refine ⟨hwidth.trans hm.width, hheight.trans hm.height, ?_⟩
    rw [hpixels]
    exact hm.pixels.moveUp hrows hmoved fun a ha => hrest a (.inr ha)
  have hkeep : (fb.raster h).KeepsOutside m
      (klibMemmove m fb.frontbuffer (fb.frontbuffer + rows * fb.info.pitch)
        ((fb.info.height - rows) * fb.info.pitch)) := Raster.keepsOutside_moveUp hrest
  obtain ⟨hclear, hkeep'⟩ := hup.putPixels (fb.scrollPixels rows) hc
  rw [scroll_eq h hrows]
  refine ⟨⟨hm.width, hm.height, fun x hx y hy => ?_⟩, hkeep.trans hkeep'⟩
  refine (hclear.pixels x hx y hy).trans ?_
  have hx' : x < frame.width := by rw [hm.width]; exact hx
  have hy' : y < frame.height := by rw [hm.height]; exact hy
  have hx'' : x < moved.width := by rw [hwidth]; exact hx'
  have hy'' : y < moved.height := by rw [hheight]; exact hy'
  -- a row below the moved ones has been cleared, the others have moved
  apply Frame.pixels_performAll hx'' hy''
  · intro c rows' hmem
    obtain ⟨p, -, hp⟩ := List.mem_map.mp hmem
    cases hp
  · intro c hmem
    obtain ⟨p, hp, hpixel⟩ := List.mem_map.mp hmem
    obtain ⟨rfl, rfl, rfl⟩ := FbOp.pixel.inj hpixel
    obtain ⟨-, hlow, -⟩ := (mem_scrollPixels h hrows).mp hp
    rw [← hm.height] at hlow
    show _ = if _ then _ else _
    rw [if_neg (by omega), if_pos ⟨hy', hx'⟩]
  · by_cases hlt : y < fb.info.height - rows
    · left
      rw [hpixels]
      show (if _ then _ else _) = if _ then _ else _
      rw [if_pos hlt, hm.height, if_pos hlt]
    · right
      have hmem : (x, y) ∈ fb.scrollPixels rows :=
        (mem_scrollPixels h hrows).mpr ⟨hx, Nat.le_of_not_lt hlt, hy⟩
      have hcolor : (frame.perform (.scroll color rows)).pixels x y = color := by
        show (if _ then _ else _) = _
        rw [hm.height, if_neg hlt, ← hm.height, if_pos ⟨hy', hx'⟩]
      rw [hcolor]
      exact List.mem_map.mpr ⟨(x, y), hmem, rfl⟩

/-- `fb_clear` gives every pixel the colour, and leaves what is behind the pixels of a row. -/
theorem ShowsFrame.clear {h : fb.Ready} (hm : fb.ShowsFrame h m frame) (hc : color < 2 ^ 32) :
    (fb.clear color m).1 = kresOk ∧
      fb.ShowsFrame h (fb.clear color m).2 { frame with pixels := fun _ _ => color } ∧
      (fb.raster h).KeepsOutside m (fb.clear color m).2 := by
  -- the two loops are one over the positions of the screen
  let positions := (List.range fb.info.height).flatMap fun y =>
    (List.range fb.info.width).map fun x => (x, y)
  have hmem : ∀ p : Nat × Nat, p ∈ positions ↔ p.1 < fb.info.width ∧ p.2 < fb.info.height := by
    rintro ⟨x, y⟩
    simp only [positions, List.mem_flatMap, List.mem_map, List.mem_range, Prod.mk.injEq]
    constructor
    · rintro ⟨y', hy, x', hx, rfl, rfl⟩
      exact ⟨hx, hy⟩
    · rintro ⟨hx, hy⟩
      exact ⟨y, hy, x, hx, rfl, rfl⟩
  have hloop : (fb.clear color m).2
      = positions.foldl (fun m p => (fb.putPixelAt p.1 p.2 color m).2) m := by
    have hput : ∀ m, ∀ p ∈ positions,
        (fb.putPixelAt p.1 p.2 color m).2 = fb.storePixel p.1 p.2 color m := by
      intro m p hp
      obtain ⟨hx, hy⟩ := (hmem p).mp hp
      unfold Fb.putPixelAt
      rw [h.check]
      dsimp only
      rw [if_neg (by omega)]
    rw [List.foldl_ext _ _ m fun m p hp => hput m p hp, List.foldl_flatMap]
    unfold Fb.clear
    rw [h.check]
    simp only [List.foldl_map]
  have hok : (fb.clear color m).1 = kresOk := by
    unfold Fb.clear
    rw [h.check]
  obtain ⟨hshows, hkeep⟩ := hm.putPixels positions hc
  rw [hloop]
  refine ⟨hok, ⟨hm.width, hm.height, fun x hx y hy => ?_⟩, hkeep⟩
  refine (hshows.pixels x hx y hy).trans ?_
  have hx' : x < frame.width := by rw [hm.width]; exact hx
  have hy' : y < frame.height := by rw [hm.height]; exact hy
  apply Frame.pixels_performAll hx' hy'
  · intro c rows hop
    obtain ⟨p, -, hp⟩ := List.mem_map.mp hop
    cases hp
  · intro c hop
    obtain ⟨p, -, hp⟩ := List.mem_map.mp hop
    exact (FbOp.pixel.inj hp).2.2.symm
  · exact .inr (List.mem_map.mpr ⟨(x, y), (hmem (x, y)).mpr ⟨hx, hy⟩, rfl⟩)

/-- The operation has a colour of 32 bits, and it scrolls by no more rows than there are. -/
def Drawable (fb : Fb) : FbOp → Prop
  | .pixel _ _ color => color < 2 ^ 32
  | .scroll color rows => color < 2 ^ 32 ∧ rows ≤ fb.info.height

/-- What the renderer asks for happens to the picture, and to nothing else. -/
theorem ShowsFrame.performAll {h : fb.Ready} (ops : List FbOp) (hm : fb.ShowsFrame h m frame)
    (hops : ∀ op ∈ ops, fb.Drawable op) :
    fb.ShowsFrame h (ops.foldl fb.perform m) (frame.performAll ops) ∧
      (fb.raster h).KeepsOutside m (ops.foldl fb.perform m) := by
  induction ops generalizing m frame with
  | nil => exact ⟨hm, .refl _ m⟩
  | cons op ops ih =>
      have hop := hops op List.mem_cons_self
      have hrest : ∀ op ∈ ops, fb.Drawable op := fun o ho => hops o (List.mem_cons_of_mem op ho)
      obtain ⟨hstep, hkeep⟩ : fb.ShowsFrame h (fb.perform m op) (frame.perform op) ∧
          (fb.raster h).KeepsOutside m (fb.perform m op) := by
        cases op with
        | pixel x y color => exact hm.putPixelAt hop
        | scroll color rows => exact hm.scroll hop.2 hop.1
      obtain ⟨hall, hkeep'⟩ := ih hstep hrest
      exact ⟨hall, hkeep.trans hkeep'⟩

end Calls

end Fb

/-! ## The console -/

/-- The renderer draws in colours of 32 bits, and a line of its font is on the screen. -/
structure Renderer.Draws (renderer : Renderer) (fb : Fb) : Prop where
  fg : renderer.fg < 2 ^ 32
  bg : renderer.bg < 2 ^ 32
  line : renderer.font.height ≤ fb.info.height

section Console

variable {fb : Fb} {renderer : Renderer} {tty : Tty}

/-- The cursor plays no part. -/
theorem Renderer.Draws.setCursor (h : renderer.Draws fb) (x y : Nat) :
    (renderer.setCursor x y).Draws fb := ⟨h.fg, h.bg, h.line⟩

theorem Renderer.Draws.scroll (h : renderer.Draws fb) :
    (∀ op ∈ renderer.scroll.1, fb.Drawable op) ∧ renderer.scroll.2.Draws fb := by
  refine ⟨fun op hop => ?_, h.fg, h.bg, h.line⟩
  rw [List.mem_singleton.mp hop]
  exact ⟨h.bg, h.line⟩

theorem Renderer.Draws.place (h : renderer.Draws fb) :
    (∀ op ∈ renderer.place.1, fb.Drawable op) ∧ renderer.place.2.Draws fb := by
  -- the cursor first, then the scroll
  have hnext : (if u32 (renderer.cursorX + renderer.font.width) > renderer.screenW then
      renderer.setCursor 0 (renderer.cursorY + renderer.font.width) else renderer).Draws fb := by
    split
    · exact h.setCursor _ _
    · exact h
  unfold Renderer.place
  dsimp only
  generalize (if u32 (renderer.cursorX + renderer.font.width) > renderer.screenW then
    renderer.setCursor 0 (renderer.cursorY + renderer.font.width) else renderer) = next at hnext ⊢
  split
  · exact hnext.scroll
  · exact ⟨fun _ hop => absurd hop List.not_mem_nil, hnext⟩

theorem Renderer.Draws.drawGlyph (h : renderer.Draws fb) (ch : Nat) :
    ∀ op ∈ renderer.drawGlyph ch, fb.Drawable op := by
  have hput : ∀ {x y color : Nat}, color < 2 ^ 32 →
      ∀ op ∈ renderer.put x y color, fb.Drawable op := by
    intro x y color hc op hop
    unfold Renderer.put at hop
    split at hop
    · cases hop
    · rw [List.mem_singleton.mp hop]
      exact hc
  intro op hop
  obtain ⟨y, -, hrow⟩ := List.mem_flatMap.mp hop
  obtain ⟨x, -, hpixel⟩ := List.mem_flatMap.mp hrow
  split at hpixel
  · exact hput h.fg op hpixel
  · split at hpixel
    · exact hput h.bg op hpixel
    · cases hpixel

theorem Renderer.Draws.drawCh (h : renderer.Draws fb) (ch : Nat) :
    (∀ op ∈ (renderer.drawCh ch).1, fb.Drawable op) ∧ (renderer.drawCh ch).2.Draws fb := by
  unfold Renderer.drawCh
  split
  · obtain ⟨hscrolled, hplaced⟩ := h.place
    refine ⟨fun op hop => ?_, hplaced.setCursor _ _⟩
    rcases List.mem_append.mp hop with hop | hop
    · exact hscrolled op hop
    · exact hplaced.drawGlyph ch op hop
  · exact ⟨fun _ hop => absurd hop List.not_mem_nil, h⟩

theorem Renderer.Draws.putc (h : tty.renderer.Draws fb) (ch : Nat) :
    (∀ op ∈ (tty.putc ch).1, fb.Drawable op) ∧ (tty.putc ch).2.renderer.Draws fb := by
  have hnone : ∀ op ∈ ([] : List FbOp), fb.Drawable op := fun _ hop => absurd hop List.not_mem_nil
  unfold Tty.putc
  split
  · -- a tab moves the cursor
    refine ⟨hnone, ?_⟩
    show tty.tab.Draws fb
    unfold Tty.tab
    split <;> exact h.setCursor _ _
  · split
    · -- a newline scrolls at the end of the screen
      show (∀ op ∈ tty.newline.1, fb.Drawable op) ∧ tty.newline.2.Draws fb
      have hdown : tty.lineDown.Draws fb := h.setCursor _ _
      unfold Tty.newline
      dsimp only
      split
      · exact hdown.scroll
      · exact ⟨hnone, hdown⟩
    · split
      · -- a carriage return
        exact ⟨hnone, h.setCursor _ _⟩
      · split
        · -- a backspace draws a blank
          have hback : tty.back.Draws fb := by
            unfold Tty.back
            dsimp only
            split
            · exact h.setCursor _ _
            · split
              · exact h.setCursor _ _
              · exact h
          exact hback.drawCh charBlank
        · exact h.drawCh ch

theorem Renderer.Draws.ttyPuts (text : List Nat) (h : tty.renderer.Draws fb) :
    ∀ op ∈ (ttyPuts tty text).1, fb.Drawable op := by
  induction text generalizing tty with
  | nil => exact fun _ hop => absurd hop List.not_mem_nil
  | cons ch text ih =>
      obtain ⟨hops, hnext⟩ := h.putc ch
      intro op hop
      rcases List.mem_append.mp hop with hop | hop
      · exact hops op hop
      · exact ih hnext op hop

/-- A packed colour has 32 bits. -/
theorem fbPackRgba_lt (info : FbInfo) (r g b a : UInt8) : fbPackRgba info r g b a < 2 ^ 32 := by
  have hlt : ∀ n, u32 n < 2 ^ 32 := fun n => Nat.mod_lt n (Nat.two_pow_pos 32)
  unfold fbPackRgba
  apply Nat.or_lt_two_pow
  · apply Nat.or_lt_two_pow
    · exact Nat.or_lt_two_pow (hlt _) (hlt _)
    · exact hlt _
  · split
    · exact hlt _
    · exact Nat.two_pow_pos 32

/-- Whatever text the 64-bit kernel prints, control characters and all: every pixel of the
    framebuffer has the colour it has in the picture that the renderer draws, and no byte
    outside the framebuffer is written.  The bytes behind the pixels of a row may be anything. -/
theorem console_shows_frame (fb : Fb) (h : fb.Ready) (hline : 8 ≤ fb.info.height)
    (defaultGlyph : Nat → Nat → UInt8) (text : List Nat) (m : Mem) (frame : Frame)
    (hwidth : frame.width = fb.info.width) (hheight : frame.height = fb.info.height)
    (hpixels : ∀ x < fb.info.width, ∀ y < fb.info.height,
      m.load 4 (fb.frontbuffer + (y * fb.info.pitch + 4 * x)) = frame.pixels x y) :
    (∀ x < fb.info.width, ∀ y < fb.info.height,
      ((ttyPuts (kmainTty fb defaultGlyph) text).1.foldl fb.perform m).load 4
          (fb.frontbuffer + (y * fb.info.pitch + 4 * x))
        = (frame.performAll (ttyPuts (kmainTty fb defaultGlyph) text).1).pixels x y) ∧
      ∀ a, a < fb.frontbuffer ∨ fb.frontbuffer + fb.info.height * fb.info.pitch ≤ a →
        (ttyPuts (kmainTty fb defaultGlyph) text).1.foldl fb.perform m a = m a := by
  have hdraws : (kmainTty fb defaultGlyph).renderer.Draws fb :=
    ⟨fbPackRgba_lt _ _ _ _ _, fbPackRgba_lt _ _ _ _ _, hline⟩
  have hm : fb.ShowsFrame h m frame := ⟨hwidth, hheight, hpixels⟩
  obtain ⟨hshows, hkeep⟩ := hm.performAll _ (hdraws.ttyPuts text)
  exact ⟨hshows.pixels, hkeep⟩

/-- A screen of one line: two glyphs with a padded row, and a line below it that scrolls. -/
def smallFb : Fb := fbSetup ⟨0x1000, 16, 8, 72, 32, ⟨16, 8, 0, 0, 0⟩⟩

theorem console_shows_frame_small :
    (∀ x < 16, ∀ y < 8,
      ((ttyPuts (kmainTty smallFb fun _ _ => 0x18) [65, 10, 66]).1.foldl smallFb.perform
          fun _ => 0).load 4 (0x1000 + (y * 72 + 4 * x))
        = (Frame.performAll ⟨16, 8, fun _ _ => 0⟩
            (ttyPuts (kmainTty smallFb fun _ _ => 0x18) [65, 10, 66]).1).pixels x y) ∧
      ∀ a, a < 0x1000 ∨ 0x1000 + 8 * 72 ≤ a →
        (ttyPuts (kmainTty smallFb fun _ _ => 0x18) [65, 10, 66]).1.foldl smallFb.perform
          (fun _ => 0) a = 0 :=
  console_shows_frame smallFb ⟨by decide, rfl, by decide, by decide, by decide⟩ (by decide)
    (fun _ _ => 0x18) [65, 10, 66] (fun _ => 0) ⟨16, 8, fun _ _ => 0⟩ rfl rfl
    (fun _ _ _ _ => rfl)

end Console

end Icarius
