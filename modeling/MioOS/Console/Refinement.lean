import MioOS.Console.Pixels
import MioOS.Library.Terminal

/-!
# Console/Refinement — the text console is a terminal

`Grid` is the terminal of the section's size, and its image in the font is what the section shows:
drawing a character is writing a cell, and the copy and the clearing of pixel rows are the new row of
a terminal whose height need not be a multiple of eight.
-/

namespace MioOS

namespace Console

open ByteMemory

/-! ## What a section shows -/

/-- The value of a pixel of the screen. -/
def FramebufferDriver.pixel (fb : FramebufferDriver) (m : Mem) (x y : ℕ) : ℕ :=
  m.load (fb.screenBpp / 8)
    (fb.framebuffer + y * fb.screenPitch + x * (fb.screenBpp / 8))

/-- **A section on a screen**: 24 or 32 bits per pixel, rows that fit the pitch, a size that fits 32
bits, and a rectangle inside the screen that has room for a character. -/
structure Fits (fb : FramebufferDriver) (startX startY endX endY : ℕ) : Prop where
  mapped : fb.framebuffer ≠ 0
  bpp : fb.screenBpp = 24 ∨ fb.screenBpp = 32
  pitch : fb.screenWidth * fb.screenBpp / 8 ≤ fb.screenPitch
  size : fb.screenPitch * fb.screenHeight < 2 ^ 32
  wide : startX + fontWidth ≤ endX
  inWidth : endX ≤ fb.screenWidth
  high : startY + fontHeight ≤ endY
  inHeight : endY ≤ fb.screenHeight

/-- The terminal of a section's size, with a color and a character in each cell. -/
abbrev Grid (startX startY endX endY : ℕ) : Type :=
  Terminal (UInt32 × UInt8) ((endX - startX) / fontWidth) ((endY - startY) / fontHeight)

/-- A pixel of a character in the font. -/
def glyph (p : UInt32 × UInt8) (dy dx : ℕ) : ℕ :=
  if (fontRow p.2 dy).testBit (8 - 1 - dx) then p.1.toNat else 0

/-- **What a character does to the terminal**: a newline, or a cell, blank if it cannot be printed. -/
def type {cols rows : ℕ} (t : Terminal (UInt32 × UInt8) cols rows) (p : UInt32 × UInt8) :
    Terminal (UInt32 × UInt8) cols rows :=
  if p.2 = 10 then t.newline else t.put (if printable p.2 then some p else none)

/-- **The section shows the terminal**: its cursor is the terminal's, each cell is drawn in the font,
the strips right of and below the grid are blank, and nothing outside the rectangle is different from
what it was. -/
structure IsTerminal (fb : FramebufferDriver) (startX startY endX endY : ℕ) (m₀ : Mem) (s : State)
    (t : Grid startX startY endX endY) : Prop where
  cursor : s.sect.currCords = ⟨t.col, t.row⟩
  inGrid : s.sect.currCords.col < s.sect.maxCols ∧ s.sect.currCords.row < s.sect.maxRows
  cells : ∀ i < (endY - startY) / fontHeight, ∀ j < (endX - startX) / fontWidth,
    ∀ dy < fontHeight, ∀ dx < fontWidth,
      fb.pixel s.mem (startX + (j * fontWidth + dx)) (startY + (i * fontHeight + dy))
        = Terminal.cellPixel glyph (t.cell i j) dy dx % 2 ^ fb.screenBpp
  strips : ∀ x y, startX + x < endX → startY + y < endY →
    (endX - startX) / fontWidth * fontWidth ≤ x ∨ (endY - startY) / fontHeight * fontHeight ≤ y →
      fb.pixel s.mem (startX + x) (startY + y) = 0
  outside : ∀ x < fb.screenWidth, ∀ y < fb.screenHeight,
    ¬ (startX ≤ x ∧ x < endX ∧ startY ≤ y ∧ y < endY) → fb.pixel s.mem x y = fb.pixel m₀ x y
  elsewhere : ∀ a, (∀ y, startY ≤ y → y < endY →
      a < fb.framebuffer + y * fb.screenPitch + startX * (fb.screenBpp / 8) ∨
        fb.framebuffer + y * fb.screenPitch + endX * (fb.screenBpp / 8) ≤ a) → s.mem a = m₀ a

variable {fb : FramebufferDriver} {startX startY endX endY : ℕ} {m m₀ : Mem} {s : State}
  {t : Grid startX startY endX endY} {x y : ℕ} {c : UInt8} {color : UInt32}

namespace Fits

variable (h : Fits fb startX startY endX endY)
include h

/-! ## The screen as a raster -/

theorem screen : Screen fb := ⟨h.mapped, h.bpp, h.pitch, h.size⟩

/-- The pixels of the screen. -/
def raster : Raster where
  base := fb.framebuffer
  pitch := fb.screenPitch
  depth := fb.screenBpp / 8
  width := fb.screenWidth
  fits := h.screen.fits

theorem two_pow_bpp : 256 ^ h.raster.depth = 2 ^ fb.screenBpp := by
  rw [← h.screen.depth_mul, Nat.mul_comm, pow_mul]
  rfl

theorem cols_pos : 0 < (endX - startX) / fontWidth :=
  Nat.div_pos (Nat.le_sub_of_add_le (Nat.add_comm _ _ ▸ h.wide)) (by decide)

theorem rows_pos : 0 < (endY - startY) / fontHeight :=
  Nat.div_pos (Nat.le_sub_of_add_le (Nat.add_comm _ _ ▸ h.high)) (by decide)

theorem width_pos : 0 < fb.screenWidth :=
  ((Nat.succ_pos 7).trans_le (Nat.le_of_add_left_le h.wide)).trans_le h.inWidth

theorem height_pos : 0 < fb.screenHeight :=
  ((Nat.succ_pos 7).trans_le (Nat.le_of_add_left_le h.high)).trans_le h.inHeight

theorem pitch_pos : 0 < fb.screenPitch := (Nat.mul_pos h.width_pos h.screen.depth_pos).trans_le h.screen.fits

theorem pitch_lt : fb.screenPitch < 2 ^ 32 := h.screen.pitch_lt h.height_pos

theorem height_lt : fb.screenHeight < 2 ^ 32 :=
  (Nat.le_mul_of_pos_left _ h.pitch_pos).trans_lt h.size

theorem width_lt : fb.screenWidth < 2 ^ 32 :=
  ((Nat.le_mul_of_pos_right _ h.screen.depth_pos).trans h.screen.fits).trans_lt h.pitch_lt

/-! ## Drawing -/

/-- **`put_pixel` stores a pixel.** -/
theorem putPixel_eq (hx : x < fb.screenWidth) (hy : y < fb.screenHeight) :
    putPixel fb x y color m = m.store h.raster.depth (h.raster.addr x y) color.toNat :=
  h.screen.putPixel_eq hx hy

/-- **`draw_char` draws the character in the font.** -/
theorem drawChar_eq (hc : printable c) (hx : x + fontWidth ≤ fb.screenWidth)
    (hy : y + fontHeight ≤ fb.screenHeight) :
    drawChar fb x y c color m
      = h.raster.draw x y fontWidth fontHeight (glyph (color, c)) m := by
  rw [drawChar, hc, Raster.draw]
  refine List.foldl_ext _ _ _ fun m row hrow => List.foldl_ext _ _ _ fun m col hcol => ?_
  have hcol' : x + col < fb.screenWidth :=
    (Nat.add_lt_add_left (List.mem_range.mp hcol) x).trans_le hx
  have hrow' : y + row < fb.screenHeight :=
    (Nat.add_lt_add_left (List.mem_range.mp hrow) y).trans_le hy
  rw [u32_of_lt (hcol'.trans h.width_lt), u32_of_lt (hrow'.trans h.height_lt),
    h.putPixel_eq hcol' hrow', h.putPixel_eq hcol' hrow', glyph]
  split <;> rfl

/-! ## Scrolling -/

theorem endX_sub : u32 (endX + 2 ^ 32 - startX) = endX - startX := by
  have hlt := h.inWidth.trans_lt h.width_lt
  have hle := Nat.le_of_add_right_le h.wide
  rw [u32_eq]
  omega

theorem endY_sub {k : ℕ} (hk : k ≤ endY) : u32 (endY + 2 ^ 32 - k) = endY - k := by
  have hlt := h.inHeight.trans_lt h.height_lt
  rw [u32_eq]
  omega

/-- The address of a pixel, as the scrolling computes it. -/
theorem addr_eq (hx : x ≤ fb.screenWidth) (hy : y < fb.screenHeight) :
    fb.framebuffer + u32 (y * fb.screenPitch) + u32 (x * (fb.screenBpp / 8)) = h.raster.addr x y :=
  h.screen.addr_eq hx hy

theorem addr_ne_zero (x y : ℕ) : h.raster.addr x y ≠ 0 := by
  have hmapped := Nat.pos_of_ne_zero h.mapped
  exact (Nat.add_pos_left (Nat.add_pos_left hmapped _) _).ne'

/-- **`kputchar` moves the section up and clears its last eight rows.** -/
theorem scrollSection_eq {sect : TxtSection} (hsect : sect.startX = startX ∧ sect.startY = startY ∧
    sect.endX = endX ∧ sect.endY = endY) :
    scrollSection fb sect m =
      h.raster.clear startX endX (endY - fontHeight) fontHeight
        (h.raster.moveUp startX endX fontHeight startY (endY - fontHeight - startY) m) := by
  obtain ⟨rfl, rfl, rfl, rfl⟩ := hsect
  have hhigh : fontHeight ≤ sect.endY := Nat.le_of_add_left_le h.high
  have hlast : sect.endY - (sect.endY - fontHeight) = fontHeight := Nat.sub_sub_self hhigh
  have hstartX : sect.startX ≤ fb.screenWidth := (Nat.le_of_add_right_le h.wide).trans h.inWidth
  have hbytes : u32 ((sect.endX - sect.startX) * (fb.screenBpp / 8))
      = (sect.endX - sect.startX) * (fb.screenBpp / 8) :=
    h.screen.u32_col ((Nat.sub_le _ _).trans h.inWidth) h.height_pos
  rw [scrollSection, h.endX_sub, h.endY_sub hhigh, hbytes, hlast]
  dsimp only
  have hmove : (List.range' sect.startY (sect.endY - fontHeight - sect.startY)).foldl (fun m y =>
      memcpy m (fb.framebuffer + u32 (y * fb.screenPitch) + u32 (sect.startX * (fb.screenBpp / 8)))
        (fb.framebuffer + u32 (u32 (y + fontHeight) * fb.screenPitch) +
          u32 (sect.startX * (fb.screenBpp / 8)))
        ((sect.endX - sect.startX) * (fb.screenBpp / 8))) m
      = h.raster.moveUp sect.startX sect.endX fontHeight sect.startY
        (sect.endY - fontHeight - sect.startY) m := by
    refine List.foldl_ext _ _ _ fun m y hy => ?_
    obtain ⟨hle, hlt⟩ := List.mem_range'_1.mp hy
    have hyend : y + fontHeight < fb.screenHeight :=
      (Nat.lt_sub_iff_add_lt.mp (by omega : y < sect.endY - fontHeight)).trans_le h.inHeight
    rw [u32_of_lt (hyend.trans h.height_lt), h.addr_eq hstartX hyend,
      h.addr_eq hstartX ((Nat.le_add_right y _).trans_lt hyend), memcpy,
      if_neg (not_or.mpr ⟨h.addr_ne_zero _ _, h.addr_ne_zero _ _⟩)]
    rfl
  rw [hmove]
  refine List.foldl_ext _ _ _ fun m y hy => ?_
  have hyend : y < fb.screenHeight :=
    ((List.mem_range'_1.mp hy).2.trans_eq (Nat.sub_add_cancel hhigh)).trans_le h.inHeight
  rw [h.addr_eq hstartX hyend, memset, if_neg (h.addr_ne_zero _ _)]
  rfl

end Fits

/-! ## The simulation -/

/-- **The simulation relation**: the section's cursor, its pixels, and the bytes elsewhere. -/
structure Displays (h : Fits fb startX startY endX endY) (m₀ : Mem) (s : State)
    (t : Grid startX startY endX endY) : Prop where
  sect : s.sect = { txtSection startX startY endX endY fontWidth fontHeight with
    currCords := ⟨t.col, t.row⟩ }
  pixels : ∀ x y, startX + x < endX → startY + y < endY →
    h.raster.pixel s.mem (startX + x) (startY + y)
      = t.image glyph fontWidth fontHeight x y % 256 ^ h.raster.depth
  agree : Mem.AgreeOn (h.raster.bytes startX endX startY endY)ᶜ m₀ s.mem

variable {h : Fits fb startX startY endX endY}

theorem maxCols_eq (h : Fits fb startX startY endX endY) :
    (txtSection startX startY endX endY fontWidth fontHeight).maxCols
      = (endX - startX) / fontWidth := by
  rw [txtSection, h.endX_sub]

theorem maxRows_eq (h : Fits fb startX startY endX endY) :
    (txtSection startX startY endX endY fontWidth fontHeight).maxRows
      = (endY - startY) / fontHeight := by
  rw [txtSection, h.endY_sub (Nat.le_of_add_right_le h.high)]

/-- A row number is far from wrapping. -/
theorem u64_row_succ (h : Fits fb startX startY endX endY) (t : Grid startX startY endX endY) :
    u64 (t.row + 1) = t.row + 1 := by
  have hrow := t.row_lt
  have hle : (endY - startY) / fontHeight ≤ endY := (Nat.div_le_self _ _).trans (Nat.sub_le _ _)
  have hlt := h.inHeight.trans_lt h.height_lt
  exact u64_of_lt (by omega)

theorem u64_col_succ (h : Fits fb startX startY endX endY) (t : Grid startX startY endX endY) :
    u64 (t.col + 1) = t.col + 1 := by
  have hcol := t.col_lt
  have hle : (endX - startX) / fontWidth ≤ endX := (Nat.div_le_self _ _).trans (Nat.sub_le _ _)
  have hlt := h.inWidth.trans_lt h.width_lt
  exact u64_of_lt (by omega)

/-- What scrolling leaves of the section's pixels: the rows below, and a blank row of text. -/
theorem pixel_scrollSection (h : Fits fb startX startY endX endY) {sect : TxtSection}
    (hsect : sect.startX = startX ∧ sect.startY = startY ∧ sect.endX = endX ∧ sect.endY = endY)
    (hx : startX + x < endX) (hy : startY + y < endY) :
    h.raster.pixel (scrollSection fb sect m) (startX + x) (startY + y)
      = if y + fontHeight < endY - startY then
          h.raster.pixel m (startX + x) (startY + (y + fontHeight))
        else 0 := by
  have hstart : startX ≤ endX := Nat.le_of_add_right_le h.wide
  have hhigh := h.high
  have hwidth : startX + x < h.raster.width := hx.trans_le h.inWidth
  rw [h.scrollSection_eq hsect, Raster.pixel_clear hstart h.inWidth hwidth,
    Raster.pixel_moveUp (by decide) hstart h.inWidth hwidth]
  by_cases hlast : y + fontHeight < endY - startY
  · rw [if_neg (by omega), if_pos (by omega), if_pos hlast, Nat.add_assoc]
  · rw [if_pos (by omega), if_neg hlast]

theorem agreeOn_scrollSection (h : Fits fb startX startY endX endY) {sect : TxtSection}
    (hsect : sect.startX = startX ∧ sect.startY = startY ∧ sect.endX = endX ∧
      sect.endY = endY) :
    Mem.AgreeOn (h.raster.bytes startX endX startY endY)ᶜ m (scrollSection fb sect m) := by
  have hstart : startX ≤ endX := Nat.le_of_add_right_le h.wide
  have hhigh := h.high
  rw [h.scrollSection_eq hsect]
  exact (Raster.agreeOn_moveUp (by decide) hstart h.inWidth (by omega)).trans
    (Raster.agreeOn_clear hstart (by omega) (by omega))

/-- The rows of text fit the height. -/
theorem rows_mul_le : (endY - startY) / fontHeight * fontHeight ≤ endY - startY :=
  Nat.div_mul_le_self _ _

/-- **The next row**: the last part of `kputchar`, from the start of the row after the cursor's. -/
theorem Displays.settle_newline (hd : Displays h m₀ s t) :
    Displays h m₀ (settle fb s ⟨0, u64 (t.row + 1)⟩) t.newline := by
  have hmax : s.sect.maxRows = (endY - startY) / fontHeight := by
    rw [hd.sect]
    exact maxRows_eq h
  have hsect : s.sect.startX = startX ∧ s.sect.startY = startY ∧ s.sect.endX = endX ∧
      s.sect.endY = endY := by
    rw [hd.sect]
    exact ⟨rfl, rfl, rfl, rfl⟩
  have hrow := t.row_lt
  rw [settle, u64_row_succ h t, hmax, Terminal.newline]
  dsimp only
  by_cases hnext : t.row + 1 < (endY - startY) / fontHeight
  · rw [if_neg (not_le.mpr hnext), dif_pos hnext]
    exact ⟨by rw [hd.sect]; rfl, hd.pixels, hd.agree⟩
  · have hlt : (endY - startY) / fontHeight < 2 ^ 64 := by
      have hend := h.inHeight.trans_lt h.height_lt
      have hle : (endY - startY) / fontHeight ≤ endY - startY := Nat.div_le_self _ _
      omega
    have hlast : sub64 ((endY - startY) / fontHeight) 1 = t.row := by
      rw [sub64_of_le hlt (Nat.one_le_of_lt hrow)]
      omega
    rw [if_pos (not_lt.mp hnext), dif_neg hnext, hlast]
    refine ⟨by rw [hd.sect]; rfl, fun x y hx hy => ?_, hd.agree.trans (agreeOn_scrollSection h hsect)⟩
    have himage : t.home.scroll.image glyph fontWidth fontHeight x y
        = if y + fontHeight < endY - startY then
            t.home.image glyph fontWidth fontHeight x (y + fontHeight)
          else 0 := Terminal.image_scroll (by decide) rows_mul_le
    rw [pixel_scrollSection h hsect hx hy, himage]
    by_cases hbelow : y + fontHeight < endY - startY
    · rw [if_pos hbelow, if_pos hbelow, hd.pixels x (y + fontHeight) hx (by omega)]
      rfl
    · rw [if_neg hbelow, if_neg hbelow, Nat.zero_mod]

/-- A cell is inside the rectangle. -/
theorem cell_le (h : Fits fb startX startY endX endY) (t : Grid startX startY endX endY) :
    startX + t.col * fontWidth + fontWidth ≤ endX ∧
      startY + t.row * fontHeight + fontHeight ≤ endY := by
  have hcol : (t.col + 1) * fontWidth ≤ endX - startX :=
    (Nat.mul_le_mul_right _ t.col_lt).trans (Nat.div_mul_le_self _ _)
  have hrow : (t.row + 1) * fontHeight ≤ endY - startY :=
    (Nat.mul_le_mul_right _ t.row_lt).trans rows_mul_le
  have hwide := h.wide
  have hhigh := h.high
  rw [Nat.add_mul, Nat.one_mul] at hcol hrow
  constructor
  · omega
  · omega

/-- **A character**: it is written at the cursor, or leaves the blank cell there. -/
theorem Displays.draw (hd : Displays h m₀ s t) (hfresh : t.Fresh) :
    Displays h m₀
      { s with
        mem := drawChar fb (u32 (startX + t.col * fontWidth)) (u32 (startY + t.row * fontHeight)) c
          color s.mem }
      (t.write (if printable c then some (color, c) else none)) := by
  obtain ⟨hx₁, hy₁⟩ := cell_le h t
  have hx : u32 (startX + t.col * fontWidth) = startX + t.col * fontWidth :=
    u32_of_lt ((Nat.le_of_add_right_le hx₁).trans_lt (h.inWidth.trans_lt h.width_lt))
  have hy : u32 (startY + t.row * fontHeight) = startY + t.row * fontHeight :=
    u32_of_lt ((Nat.le_of_add_right_le hy₁).trans_lt (h.inHeight.trans_lt h.height_lt))
  rw [hx, hy]
  by_cases hc : printable c
  · rw [if_pos hc, h.drawChar_eq hc (hx₁.trans h.inWidth) (hy₁.trans h.inHeight)]
    refine ⟨hd.sect, fun x y hxend hyend => ?_, hd.agree.trans
      (Raster.agreeOn_draw _ (Nat.le_add_right _ _) hx₁ (Nat.le_add_right _ _) hy₁)⟩
    dsimp only
    have hwidth : startX + x < h.raster.width := hxend.trans_le h.inWidth
    have hblock : ((startX + t.col * fontWidth ≤ startX + x ∧
          startX + x < startX + t.col * fontWidth + fontWidth) ∧
        startY + t.row * fontHeight ≤ startY + y ∧
          startY + y < startY + t.row * fontHeight + fontHeight) ↔
        (t.col * fontWidth ≤ x ∧ x < t.col * fontWidth + fontWidth) ∧
          t.row * fontHeight ≤ y ∧ y < t.row * fontHeight + fontHeight := by
      omega
    rw [Raster.pixel_draw _ (hx₁.trans h.inWidth) hwidth,
      Terminal.image_write (by decide) (by decide), hd.pixels x y hxend hyend]
    by_cases hin : (t.col * fontWidth ≤ x ∧ x < t.col * fontWidth + fontWidth) ∧
        t.row * fontHeight ≤ y ∧ y < t.row * fontHeight + fontHeight
    · rw [if_pos (hblock.mpr hin), if_pos hin, Nat.add_sub_add_left, Nat.add_sub_add_left]
    · rw [if_neg (hin ∘ hblock.mp), if_neg hin]
  · rw [if_neg hc, Terminal.write_none hfresh, drawChar, Bool.eq_false_iff.mpr hc]
    exact hd

/-- **The next cell**: the line wrap and the last part of `kputchar`. -/
theorem Displays.settle_advance (hd : Displays h m₀ s t) :
    Displays h m₀ (settle fb s (wrap s.sect ⟨u64 (t.col + 1), t.row⟩)) t.advance := by
  have hcols : s.sect.maxCols = (endX - startX) / fontWidth := by
    rw [hd.sect]
    exact maxCols_eq h
  have hrows : s.sect.maxRows = (endY - startY) / fontHeight := by
    rw [hd.sect]
    exact maxRows_eq h
  rw [wrap, u64_col_succ h t, hcols, Terminal.advance]
  dsimp only
  by_cases hnext : t.col + 1 < (endX - startX) / fontWidth
  · rw [if_neg (not_le.mpr hnext), dif_pos hnext, settle, hrows]
    dsimp only
    rw [if_neg (not_le.mpr t.row_lt)]
    exact ⟨by rw [hd.sect], hd.pixels, hd.agree⟩
  · rw [if_pos (not_lt.mp hnext), dif_neg hnext]
    exact hd.settle_newline

/-- **A step**: `kputchar` does to the section what the character does to the terminal. -/
theorem Displays.kputchar (hd : Displays h m₀ s t) (hfresh : t.Fresh) :
    Displays h m₀ (Console.kputchar fb color c s) (type t (color, c)) := by
  have hsect : s.sect.currCords = ⟨t.col, t.row⟩ ∧ s.sect.startX = startX ∧
      s.sect.startY = startY := by
    rw [hd.sect]
    exact ⟨rfl, rfl, rfl⟩
  rw [Console.kputchar, type, hsect.1, hsect.2.1, hsect.2.2]
  dsimp only
  by_cases hnl : c = 10
  · rw [if_pos hnl, if_pos hnl]
    exact hd.settle_newline
  · rw [if_neg hnl, if_neg hnl]
    exact (hd.draw hfresh).settle_advance

/-! ## Runs -/

theorem fresh_type {cols rows : ℕ} {t : Terminal (UInt32 × UInt8) cols rows} (hfresh : t.Fresh)
    (p : UInt32 × UInt8) : (type t p).Fresh := by
  rw [type]
  split
  · exact Terminal.fresh_newline fun i j hi => hfresh i j (Or.inl hi)
  · exact Terminal.fresh_put hfresh

/-- **A run**: characters printed one after the other do to the section what they do to the
terminal. -/
theorem Displays.printChars (hd : Displays h m₀ s t) (hfresh : t.Fresh)
    (chars : List (UInt32 × UInt8)) :
    Displays h m₀ (printChars fb chars s) (chars.foldl type t) := by
  induction chars generalizing s t with
  | nil => exact hd
  | cons p chars ih => exact ih (hd.kputchar hfresh) (fresh_type hfresh p)

/-- **A call prints its characters**, if they can be counted. -/
theorem Call.exec_eq {call : Call} (h : call.chars.length ≤ intMax) (s : State) :
    call.exec fb s = some (Console.printChars fb call.chars s) := by
  cases call with
  | kputchar color c => rfl
  | kputs color str =>
    rw [Call.chars, List.length_map] at h
    have hstr : ∀ s : State, True → ∀ j ≤ (str.takeWhile (· ≠ 0)).length,
        textAt str s (0 + j) = (str.takeWhile (· ≠ 0)).getD j 0 := by
      intro s _ j hj
      rw [textAt, Nat.zero_add]
      exact getD_takeWhile hj
    rw [Call.exec, kputs_eq (fun _ _ _ => trivial) hstr
      (fun c hc => by simpa using List.mem_takeWhile_imp hc) trivial (by omega) (lt_countFuel h),
      Call.chars, Console.printChars, List.foldl_map]

/-- **Calls one after the other** print their characters one after the other. -/
theorem foldlM_exec {calls : List Call} (h : ∀ call ∈ calls, call.chars.length ≤ intMax) (s : State) :
    calls.foldlM (fun s call => call.exec fb s) s
      = some (Console.printChars fb (calls.flatMap Call.chars) s) := by
  induction calls generalizing s with
  | nil => rfl
  | cons call calls ih =>
    rw [List.foldlM_cons, Call.exec_eq (h call List.mem_cons_self), Option.bind_eq_bind,
      Option.bind_some, ih fun call hcall => h call (List.mem_cons_of_mem _ hcall), List.flatMap_cons,
      Console.printChars, Console.printChars, Console.printChars, List.foldl_append]

/-- The section as its constructor leaves it, on a screen with some memory. -/
def start (m₀ : Mem) (startX startY endX endY : ℕ) : State where
  mem := m₀
  sect := txtSection startX startY endX endY fontWidth fontHeight

theorem displays_start (h : Fits fb startX startY endX endY)
    (hblank : ∀ x y, startX ≤ x → x < endX → startY ≤ y → y < endY → fb.pixel m₀ x y = 0) :
    Displays h m₀ (start m₀ startX startY endX endY) (.blank h.cols_pos h.rows_pos) where
  sect := rfl
  pixels := by
    intro x y hx hy
    have himage : (Terminal.blank h.cols_pos h.rows_pos : Grid startX startY endX endY).image
        glyph fontWidth fontHeight x y = 0 := by
      rw [Terminal.image]
      split <;> rfl
    rw [himage, Nat.zero_mod]
    exact hblank _ _ (Nat.le_add_right _ _) hx (Nat.le_add_right _ _) hy
  agree := Mem.AgreeOn.refl _ m₀

/-- **The relation says what a terminal is.** -/
theorem Displays.isTerminal (hd : Displays h m₀ s t) :
    IsTerminal fb startX startY endX endY m₀ s t where
  cursor := by rw [hd.sect]
  inGrid := by
    rw [hd.sect]
    exact ⟨t.col_lt.trans_eq (maxCols_eq h).symm, t.row_lt.trans_eq (maxRows_eq h).symm⟩
  cells := by
    intro i hi j hj dy hdy dx hdx
    have hx : (j + 1) * fontWidth ≤ endX - startX :=
      (Nat.mul_le_mul_right _ hj).trans (Nat.div_mul_le_self _ _)
    have hy : (i + 1) * fontHeight ≤ endY - startY :=
      (Nat.mul_le_mul_right _ hi).trans rows_mul_le
    rw [Nat.add_mul, Nat.one_mul] at hx hy
    rw [← h.two_pow_bpp, ← Terminal.image_cell hi hj hdy hdx]
    exact hd.pixels _ _ (by omega) (by omega)
  strips := by
    intro x y hx hy hstrip
    have hout : ¬ (x < (endX - startX) / fontWidth * fontWidth ∧
        y < (endY - startY) / fontHeight * fontHeight) := by
      rintro ⟨hx', hy'⟩
      exact hstrip.elim (not_le.mpr hx') (not_le.mpr hy')
    have hpixel := hd.pixels x y hx hy
    rw [Terminal.image, if_neg hout, Nat.zero_mod] at hpixel
    exact hpixel
  outside := by
    intro x hx y _ hout
    exact Raster.pixel_congr hd.agree hx h.inWidth hout
  elsewhere := by
    intro a ha
    refine hd.agree a ?_
    rintro ⟨y, hy₀, hy₁, hle, hlt⟩
    exact (ha y hy₀ hy₁).elim (not_lt.mpr hle) (not_le.mpr hlt)

/-- **The text console is a terminal**: whatever is printed with `kputchar` and `kputs` into a blank
section, after each character the section shows the terminal the characters so far make.  `kputs`
counts the characters of its string in an `int`. -/
theorem console_isTerminal (h : Fits fb startX startY endX endY)
    (hblank : ∀ x y, startX ≤ x → x < endX → startY ≤ y → y < endY → fb.pixel m₀ x y = 0)
    {calls : List Call} (hcalls : ∀ call ∈ calls, call.chars.length ≤ intMax) :
    calls.foldlM (fun s call => call.exec fb s) (start m₀ startX startY endX endY)
        = some (printChars fb (calls.flatMap Call.chars) (start m₀ startX startY endX endY)) ∧
      ∀ chars, chars <+: calls.flatMap Call.chars →
        IsTerminal fb startX startY endX endY m₀
          (printChars fb chars (start m₀ startX startY endX endY))
          (chars.foldl type (.blank h.cols_pos h.rows_pos)) :=
  ⟨foldlM_exec hcalls _, fun chars _ =>
    ((displays_start h hblank).printChars (Terminal.fresh_blank _ _) chars).isTerminal⟩

/-- A screen of 16 by 20 pixels with 32 bits each, in rows of 70 bytes. -/
def smallScreen : FramebufferDriver where
  framebuffer := 0x1000
  screenWidth := 16
  screenHeight := 20
  screenPitch := 70
  screenBpp := 32

/-- A section on it, of 12 by 19 pixels: one column and two rows of text. -/
theorem fits_smallScreen : Fits smallScreen 2 1 14 20 where
  mapped := by decide
  bpp := by decide
  pitch := by decide
  size := by decide
  wide := by decide
  inWidth := by decide
  high := by decide
  inHeight := by decide

/-- Two characters, an unprintable one between them, and a newline. -/
def smallCalls : List Call := [.kputs 0xFFFFFF [65, 200, 66], .kputchar 0xAA0000 10]

theorem console_isTerminal_smallScreen :
    smallCalls.foldlM (fun s call => call.exec smallScreen s) (start (fun _ => 0) 2 1 14 20)
        = some (printChars smallScreen (smallCalls.flatMap Call.chars) (start (fun _ => 0) 2 1 14 20)) ∧
      ∀ chars, chars <+: smallCalls.flatMap Call.chars →
        IsTerminal smallScreen 2 1 14 20 (fun _ => 0)
          (printChars smallScreen chars (start (fun _ => 0) 2 1 14 20))
          (chars.foldl type (.blank fits_smallScreen.cols_pos fits_smallScreen.rows_pos)) :=
  console_isTerminal fits_smallScreen (fun _ _ _ _ _ _ => Mem.load_eq_zero fun _ _ => rfl)
    (by decide)

/-- **A string of `2 ^ 31` characters** overflows the `int` that `kputs` counts in. -/
theorem not_printed_longString :
    ¬ ∀ calls : List Call, ∃ s,
      calls.foldlM (fun s call => call.exec smallScreen s) (start (fun _ => 0) 2 1 14 20) = some s := by
  intro h
  obtain ⟨s, hs⟩ := h [.kputs 0xFFFFFF (List.replicate (2 ^ 31) 65)]
  have hnone : Call.exec smallScreen (.kputs 0xFFFFFF (List.replicate (2 ^ 31) 65))
      (start (fun _ => 0) 2 1 14 20) = none := by
    refine kputs_eq_none (fun _ j hj => ?_) (Nat.zero_le _)
    have hlt : j < 2 ^ 31 := hj.trans_lt (by decide)
    rw [textAt_replicate 65 hlt]
    decide
  rw [List.foldlM_cons, hnone] at hs
  exact Option.some_ne_none s hs.symm

end Console

end MioOS
