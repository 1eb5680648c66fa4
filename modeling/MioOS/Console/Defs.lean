import Mathlib.Data.List.GetD
import Mathlib.Data.List.TakeWhile
import MioOS.Library.CString
import MioOS.Library.Raster
import MioOS.Memory.Defs

/-!
# Console/Defs — the text console of `kernel_ui.cpp` and the drawing under it

`kputchar` draws a character into a section of the screen, moves the section's cursor and scrolls the
section's pixels; `putPixel` and `drawChar` are what it draws with.  Coordinates are `uint32_t` and
the cursor is `size_t`; a driver that is registered is assumed, and with it its framebuffer's bytes.
-/

namespace MioOS

namespace Console

open ByteMemory

/-! ## `mem_util.cpp` -/

/-- `memcpy`. -/
def memcpy (m : Mem) (dest src count : ℕ) : Mem :=
  if dest = 0 ∨ src = 0 then m else m.copy dest src count

/-- `memset`. -/
def memset (m : Mem) (dest : ℕ) (val : UInt8) (count : ℕ) : Mem :=
  if dest = 0 then m else m.fill count dest val

/-! ## `framebuffer.cpp` -/

/-- `FramebufferDriver`. -/
structure FramebufferDriver where
  framebuffer : ℕ
  screenWidth : ℕ
  screenHeight : ℕ
  screenPitch : ℕ
  screenBpp : ℕ
  deriving DecidableEq, Repr

/-- **`put_pixel`**: blue, green, red and, with 32 bits, alpha. -/
def putPixel (fb : FramebufferDriver) (x y : ℕ) (color : UInt32) (m : Mem) : Mem :=
  if fb.framebuffer = 0 then m
  else if x ≥ fb.screenWidth ∨ y ≥ fb.screenHeight then m
  else
    let pixel := fb.framebuffer + u32 (y * fb.screenPitch) + u32 (x * (fb.screenBpp / 8))
    if fb.screenBpp = 32 then m.store 4 pixel color.toNat
    else if fb.screenBpp = 24 then m.store 3 pixel color.toNat
    else m

/-! ## `draw_util.cpp` -/

/-- `font8x8_basic`: the printable characters from 32 to 126, each as eight rows of eight bits, the
leftmost pixel in the highest bit. -/
def font8x8Basic : List (List ℕ) :=
  [[0x00, 0x00, 0x00, 0x00, 0x00, 0x00, 0x00, 0x00],
    [0x18, 0x3C, 0x3C, 0x18, 0x18, 0x00, 0x18, 0x00],
    [0x6C, 0x6C, 0x24, 0x00, 0x00, 0x00, 0x00, 0x00],
    [0x6C, 0x6C, 0xFE, 0x6C, 0xFE, 0x6C, 0x6C, 0x00],
    [0x18, 0x3E, 0x60, 0x3C, 0x06, 0x7C, 0x18, 0x00],
    [0x00, 0xC6, 0xCC, 0x18, 0x30, 0x66, 0xC6, 0x00],
    [0x38, 0x6C, 0x38, 0x76, 0xDC, 0xCC, 0x76, 0x00],
    [0x30, 0x30, 0x30, 0x00, 0x00, 0x00, 0x00, 0x00],
    [0x0C, 0x18, 0x30, 0x30, 0x30, 0x18, 0x0C, 0x00],
    [0x30, 0x18, 0x0C, 0x0C, 0x0C, 0x18, 0x30, 0x00],
    [0x00, 0x66, 0x3C, 0xFF, 0x3C, 0x66, 0x00, 0x00],
    [0x00, 0x18, 0x18, 0x7E, 0x18, 0x18, 0x00, 0x00],
    [0x00, 0x00, 0x00, 0x00, 0x18, 0x18, 0x30, 0x00],
    [0x00, 0x00, 0x00, 0x7E, 0x00, 0x00, 0x00, 0x00],
    [0x00, 0x00, 0x00, 0x00, 0x18, 0x18, 0x00, 0x00],
    [0x06, 0x0C, 0x18, 0x30, 0x60, 0xC0, 0x80, 0x00],
    [0x7C, 0xC6, 0xCE, 0xD6, 0xE6, 0xC6, 0x7C, 0x00],
    [0x18, 0x38, 0x18, 0x18, 0x18, 0x18, 0x7E, 0x00],
    [0x7C, 0xC6, 0x06, 0x1C, 0x70, 0xC0, 0xFE, 0x00],
    [0x7C, 0xC6, 0x06, 0x3C, 0x06, 0xC6, 0x7C, 0x00],
    [0x1C, 0x3C, 0x6C, 0xCC, 0xFE, 0x0C, 0x1E, 0x00],
    [0xFE, 0xC0, 0xF8, 0x0C, 0x06, 0xC6, 0x7C, 0x00],
    [0x3C, 0x60, 0xC0, 0xFC, 0xC6, 0xC6, 0x7C, 0x00],
    [0xFE, 0xC6, 0x0C, 0x18, 0x30, 0x30, 0x30, 0x00],
    [0x7C, 0xC6, 0xC6, 0x7C, 0xC6, 0xC6, 0x7C, 0x00],
    [0x7C, 0xC6, 0xC6, 0x7E, 0x06, 0x0C, 0x78, 0x00],
    [0x00, 0x18, 0x18, 0x00, 0x18, 0x18, 0x00, 0x00],
    [0x00, 0x18, 0x18, 0x00, 0x18, 0x18, 0x30, 0x00],
    [0x0C, 0x18, 0x30, 0x60, 0x30, 0x18, 0x0C, 0x00],
    [0x00, 0x00, 0x7E, 0x00, 0x7E, 0x00, 0x00, 0x00],
    [0x30, 0x18, 0x0C, 0x06, 0x0C, 0x18, 0x30, 0x00],
    [0x7C, 0xC6, 0x0C, 0x18, 0x18, 0x00, 0x18, 0x00],
    [0x7C, 0xC6, 0xDE, 0xDE, 0xDE, 0xC0, 0x7C, 0x00],
    [0x38, 0x6C, 0xC6, 0xFE, 0xC6, 0xC6, 0xC6, 0x00],
    [0xFC, 0x66, 0x66, 0x7C, 0x66, 0x66, 0xFC, 0x00],
    [0x3C, 0x66, 0xC0, 0xC0, 0xC0, 0x66, 0x3C, 0x00],
    [0xF8, 0x6C, 0x66, 0x66, 0x66, 0x6C, 0xF8, 0x00],
    [0xFE, 0x62, 0x68, 0x78, 0x68, 0x62, 0xFE, 0x00],
    [0xFE, 0x62, 0x68, 0x78, 0x68, 0x60, 0xF0, 0x00],
    [0x3C, 0x66, 0xC0, 0xC0, 0xCE, 0x66, 0x3E, 0x00],
    [0xC6, 0xC6, 0xC6, 0xFE, 0xC6, 0xC6, 0xC6, 0x00],
    [0x7E, 0x18, 0x18, 0x18, 0x18, 0x18, 0x7E, 0x00],
    [0x1E, 0x0C, 0x0C, 0x0C, 0xCC, 0xCC, 0x78, 0x00],
    [0xE6, 0x66, 0x6C, 0x78, 0x6C, 0x66, 0xE6, 0x00],
    [0xF0, 0x60, 0x60, 0x60, 0x62, 0x66, 0xFE, 0x00],
    [0xC6, 0xEE, 0xFE, 0xD6, 0xC6, 0xC6, 0xC6, 0x00],
    [0xC6, 0xE6, 0xF6, 0xDE, 0xCE, 0xC6, 0xC6, 0x00],
    [0x38, 0x6C, 0xC6, 0xC6, 0xC6, 0x6C, 0x38, 0x00],
    [0xFC, 0x66, 0x66, 0x7C, 0x60, 0x60, 0xF0, 0x00],
    [0x38, 0x6C, 0xC6, 0xC6, 0xDA, 0x6C, 0x3A, 0x00],
    [0xFC, 0x66, 0x66, 0x7C, 0x6C, 0x66, 0xE6, 0x00],
    [0x7C, 0xC6, 0x60, 0x38, 0x0C, 0xC6, 0x7C, 0x00],
    [0x7E, 0x7E, 0x5A, 0x18, 0x18, 0x18, 0x3C, 0x00],
    [0xC6, 0xC6, 0xC6, 0xC6, 0xC6, 0xC6, 0x7C, 0x00],
    [0xC6, 0xC6, 0xC6, 0xC6, 0x6C, 0x38, 0x10, 0x00],
    [0xC6, 0xC6, 0xC6, 0xD6, 0xFE, 0xEE, 0xC6, 0x00],
    [0xC6, 0x6C, 0x38, 0x10, 0x38, 0x6C, 0xC6, 0x00],
    [0x66, 0x66, 0x66, 0x3C, 0x18, 0x18, 0x3C, 0x00],
    [0xFE, 0xCC, 0x18, 0x30, 0x60, 0xC6, 0xFE, 0x00],
    [0x3C, 0x30, 0x30, 0x30, 0x30, 0x30, 0x3C, 0x00],
    [0xC0, 0x60, 0x30, 0x18, 0x0C, 0x06, 0x02, 0x00],
    [0x3C, 0x0C, 0x0C, 0x0C, 0x0C, 0x0C, 0x3C, 0x00],
    [0x10, 0x38, 0x6C, 0xC6, 0x00, 0x00, 0x00, 0x00],
    [0x00, 0x00, 0x00, 0x00, 0x00, 0x00, 0x00, 0xFF],
    [0x30, 0x18, 0x0C, 0x00, 0x00, 0x00, 0x00, 0x00],
    [0x00, 0x00, 0x78, 0x0C, 0x7C, 0xCC, 0x76, 0x00],
    [0xE0, 0x60, 0x7C, 0x66, 0x66, 0x66, 0xDC, 0x00],
    [0x00, 0x00, 0x7C, 0xC0, 0xC0, 0xC0, 0x7C, 0x00],
    [0x1C, 0x0C, 0x7C, 0xCC, 0xCC, 0xCC, 0x76, 0x00],
    [0x00, 0x00, 0x78, 0xCC, 0xFC, 0xC0, 0x7C, 0x00],
    [0x3C, 0x66, 0x60, 0xF8, 0x60, 0x60, 0xF0, 0x00],
    [0x00, 0x00, 0x76, 0xCC, 0xCC, 0x7C, 0x0C, 0xF8],
    [0xE0, 0x60, 0x6C, 0x76, 0x66, 0x66, 0xE6, 0x00],
    [0x18, 0x00, 0x38, 0x18, 0x18, 0x18, 0x3C, 0x00],
    [0x0C, 0x00, 0x1C, 0x0C, 0x0C, 0xCC, 0xCC, 0x78],
    [0xE0, 0x60, 0x66, 0x6C, 0x78, 0x6C, 0xE6, 0x00],
    [0x38, 0x18, 0x18, 0x18, 0x18, 0x18, 0x3C, 0x00],
    [0x00, 0x00, 0xEC, 0xFE, 0xD6, 0xD6, 0xC6, 0x00],
    [0x00, 0x00, 0xDC, 0x66, 0x66, 0x66, 0x66, 0x00],
    [0x00, 0x00, 0x7C, 0xC6, 0xC6, 0xC6, 0x7C, 0x00],
    [0x00, 0x00, 0xDC, 0x66, 0x66, 0x7C, 0x60, 0xF0],
    [0x00, 0x00, 0x76, 0xCC, 0xCC, 0x7C, 0x0C, 0x1E],
    [0x00, 0x00, 0xDC, 0x76, 0x66, 0x60, 0xF0, 0x00],
    [0x00, 0x00, 0x7E, 0xC0, 0x7C, 0x06, 0xFC, 0x00],
    [0x30, 0x30, 0xFC, 0x30, 0x30, 0x36, 0x1C, 0x00],
    [0x00, 0x00, 0xCC, 0xCC, 0xCC, 0xCC, 0x76, 0x00],
    [0x00, 0x00, 0xC6, 0xC6, 0xC6, 0x6C, 0x38, 0x00],
    [0x00, 0x00, 0xC6, 0xD6, 0xD6, 0xFE, 0x6C, 0x00],
    [0x00, 0x00, 0xC6, 0x6C, 0x38, 0x6C, 0xC6, 0x00],
    [0x00, 0x00, 0xC6, 0xC6, 0xC6, 0x7E, 0x06, 0xFC],
    [0x00, 0x00, 0xFE, 0x4C, 0x18, 0x32, 0xFE, 0x00],
    [0x0E, 0x18, 0x18, 0x70, 0x18, 0x18, 0x0E, 0x00],
    [0x18, 0x18, 0x18, 0x18, 0x18, 0x18, 0x18, 0x18],
    [0x70, 0x18, 0x18, 0x0E, 0x18, 0x18, 0x70, 0x00],
    [0x76, 0xDC, 0x00, 0x00, 0x00, 0x00, 0x00, 0x00]]

/-- The table has a row of bits for every row of every printable character. -/
theorem length_font8x8Basic :
    font8x8Basic.length = 126 - 32 + 1 ∧ ∀ rows ∈ font8x8Basic, rows.length = 8 := by
  decide

/-- `font8x8_basic[c - 32][row]`. -/
def fontRow (c : UInt8) (row : ℕ) : ℕ := (font8x8Basic.getD (c.toNat - 32) []).getD row 0

/-- Whether `draw_char` draws: `char` is signed, so that bytes from 128 on are below 32. -/
def printable (c : UInt8) : Bool := !(c < 32 || c > 126)

/-- **`draw_char`.** -/
def drawChar (fb : FramebufferDriver) (x y : ℕ) (c : UInt8) (color : UInt32) (m : Mem) : Mem :=
  if !printable c then m
  else
    (List.range 8).foldl (fun m row => (List.range 8).foldl (fun m col =>
      if (fontRow c row).testBit (8 - 1 - col) then putPixel fb (u32 (x + col)) (u32 (y + row)) color m
      else putPixel fb (u32 (x + col)) (u32 (y + row)) 0 m) m) m

/-! ## `kernel_ui.cpp` -/

/-- `FONT_HEIGHT`. -/
def fontHeight : ℕ := 8

/-- `FONT_WIDTH`. -/
def fontWidth : ℕ := 8

/-- `txt_coords`. -/
structure TxtCoords where
  col : ℕ
  row : ℕ
  deriving DecidableEq, Repr

/-- `txt_section`, without the color that callers print in. -/
structure TxtSection where
  startX : ℕ
  startY : ℕ
  endX : ℕ
  endY : ℕ
  maxCols : ℕ
  maxRows : ℕ
  currCords : TxtCoords
  deriving DecidableEq, Repr

/-- The constructor of `txt_section`. -/
def txtSection (startX startY endX endY fontWidth fontHeight : ℕ) : TxtSection where
  startX := startX
  startY := startY
  endX := endX
  endY := endY
  maxCols := u32 (endX + 2 ^ 32 - startX) / fontWidth
  maxRows := u32 (endY + 2 ^ 32 - startY) / fontHeight
  currCords := ⟨0, 0⟩

/-- The memory with the framebuffer in it, and the section printed to. -/
structure State where
  mem : Mem
  sect : TxtSection

/-- What `kputchar` does to the pixels when the cursor is below the last row. -/
def scrollSection (fb : FramebufferDriver) (sect : TxtSection) (m : Mem) : Mem :=
  let fbPtr := fb.framebuffer
  let pitch := fb.screenPitch
  let bpp := fb.screenBpp / 8
  let rowBytes := u32 (u32 (sect.endX + 2 ^ 32 - sect.startX) * bpp)
  let lastRow := u32 (sect.endY + 2 ^ 32 - fontHeight)
  let m := (List.range' sect.startY (lastRow - sect.startY)).foldl (fun m y =>
    let dest := fbPtr + u32 (y * pitch) + u32 (sect.startX * bpp)
    let src := fbPtr + u32 (u32 (y + fontHeight) * pitch) + u32 (sect.startX * bpp)
    memcpy m dest src rowBytes) m
  (List.range' lastRow (sect.endY - lastRow)).foldl (fun m y =>
    let dest := fbPtr + u32 (y * pitch) + u32 (sect.startX * bpp)
    memset m dest 0 rowBytes) m

/-- The line wrap of `kputchar`, after the column has been counted up. -/
def wrap (sect : TxtSection) (coords : TxtCoords) : TxtCoords :=
  if coords.col ≥ sect.maxCols then ⟨0, u64 (coords.row + 1)⟩ else coords

/-- The last part of `kputchar`. -/
def settle (fb : FramebufferDriver) (s : State) (coords : TxtCoords) : State :=
  if coords.row ≥ s.sect.maxRows then
    { mem := scrollSection fb s.sect s.mem
      sect := { s.sect with currCords := { coords with row := sub64 s.sect.maxRows 1 } } }
  else { s with sect := { s.sect with currCords := coords } }

/-- **`kputchar`.** -/
def kputchar (fb : FramebufferDriver) (color : UInt32) (c : UInt8) (s : State) : State :=
  let cords := s.sect.currCords
  if c = 10 then settle fb s ⟨0, u64 (cords.row + 1)⟩
  else
    let px := u32 (s.sect.startX + cords.col * fontWidth)
    let py := u32 (s.sect.startY + cords.row * fontHeight)
    settle fb { s with mem := drawChar fb px py c color s.mem }
      (wrap s.sect ⟨u64 (cords.col + 1), cords.row⟩)

section Kputs

variable {σ : Type} (putchar : UInt8 → σ → σ) (str : σ → ℕ → UInt8)

/-- **`kputs`**, from the index `i` of the string on, with `putchar` the call of `kputchar` and
`str s i` what `str[i]` reads in a state. -/
def kputs : ℕ → ℕ → σ → Option σ
  | 0, _, _ => none
  | fuel + 1, i, s =>
    if str s i = 0 then some s
    else do
      let s := putchar (str s i) s
      let i ← intSucc i
      kputs fuel i s

/-- A string that printing leaves as it is, read at an index. -/
def textAt (text : List UInt8) (_ : σ) (i : ℕ) : UInt8 := text.getD i 0

end Kputs

section Kputs

variable {σ : Type} {putchar : UInt8 → σ → σ} {str : σ → ℕ → UInt8} {P : σ → Prop}
  {text : List UInt8} {fuel i : ℕ} {s : σ}

theorem kputs_nil (hread : str s i = 0) : kputs putchar str (fuel + 1) i s = some s := by
  rw [kputs, if_pos hread]

theorem kputs_cons {c : UInt8} (hread : str s i = c) (hc : c ≠ 0) (hi : i < intMax) :
    kputs putchar str (fuel + 1) i s = kputs putchar str fuel (i + 1) (putchar c s) := by
  rw [kputs, hread, if_neg hc, intSucc_of_lt hi, Option.bind_eq_bind, Option.bind_some]

/-- **`kputs` prints a string** whose characters can be counted; `P` keeps them readable while it
prints. -/
theorem kputs_eq (hP : ∀ c s, P s → P (putchar c s))
    (hstr : ∀ s, P s → ∀ j ≤ text.length, str s (i + j) = text.getD j 0) (htext : ∀ c ∈ text, c ≠ 0)
    (hs : P s) (hi : i + text.length ≤ intMax) (hfuel : text.length < fuel) :
    kputs putchar str fuel i s = some (text.foldl (fun s c => putchar c s) s) := by
  induction text generalizing fuel i s with
  | nil =>
    obtain ⟨fuel, rfl⟩ := Nat.exists_eq_succ_of_ne_zero hfuel.ne'
    exact kputs_nil (hstr s hs 0 le_rfl)
  | cons c text ih =>
    obtain ⟨fuel, rfl⟩ := Nat.exists_eq_succ_of_ne_zero (Nat.ne_zero_of_lt hfuel)
    rw [List.length_cons] at hi hfuel
    have hread : str s i = c := hstr s hs 0 (Nat.zero_le _)
    rw [kputs_cons hread (htext c List.mem_cons_self) (by omega)]
    refine ih (fun s hs j hj => ?_) (fun c hc => htext c (List.mem_cons_of_mem _ hc)) (hP c s hs)
      (by omega) (by omega)
    rw [Nat.add_assoc, Nat.add_comm 1 j]
    exact hstr s hs (j + 1) (Nat.succ_le_succ hj)

/-- Up to its first zero, a string is what is in front of the zero. -/
theorem getD_takeWhile {j : ℕ} (hj : j ≤ (text.takeWhile (· ≠ 0)).length) :
    text.getD j 0 = (text.takeWhile (· ≠ 0)).getD j 0 := by
  induction text generalizing j with
  | nil => rfl
  | cons c text ih =>
    by_cases hc : c = 0
    · rw [List.takeWhile_cons_of_neg (by simpa using hc)] at hj ⊢
      obtain rfl := Nat.le_zero.mp hj
      exact hc
    · rw [List.takeWhile_cons_of_pos (by simpa using hc)] at hj ⊢
      cases j with
      | zero => rfl
      | succ j => exact ih (Nat.le_of_succ_le_succ hj)

theorem textAt_replicate {n j : ℕ} (c : UInt8) (hj : j < n) : textAt (List.replicate n c) s j = c :=
  List.getD_replicate _ hj

/-- A string that stays as it is. -/
theorem kputs_textAt (htext : ∀ c ∈ text, c ≠ 0) (hlen : text.length ≤ intMax) :
    kputs putchar (textAt text) countFuel 0 s = some (text.foldl (fun s c => putchar c s) s) :=
  kputs_eq (fun _ _ _ => trivial) (P := fun _ => True)
    (fun _ _ j _ => congrArg (text.getD · 0) (Nat.zero_add j)) htext trivial (by omega)
    (lt_countFuel hlen)

/-- **A string without a zero** that an `int` could count is not printed to its end. -/
theorem kputs_eq_none (hstr : ∀ s, ∀ j ≤ intMax, str s j ≠ 0) (hi : i ≤ intMax) :
    kputs putchar str fuel i s = none := by
  induction fuel generalizing i s with
  | zero => rfl
  | succ fuel ih =>
    rw [kputs, if_neg (hstr s i hi)]
    rcases Nat.lt_or_ge i intMax with hlt | hge
    · rw [intSucc_of_lt hlt, Option.bind_eq_bind, Option.bind_some]
      exact ih hlt
    · rw [intSucc_of_ge hge]
      rfl

end Kputs

/-! ## Runs -/

/-- A call that prints; `str` are the characters that `kputs` reads, in their turn. -/
inductive Call
  | kputchar (color : UInt32) (c : UInt8)
  | kputs (color : UInt32) (str : List UInt8)

/-- What a call does. -/
def Call.exec (fb : FramebufferDriver) : Call → State → Option State
  | .kputchar color c, s => some (Console.kputchar fb color c s)
  | .kputs color str, s => Console.kputs (Console.kputchar fb color) (textAt str) countFuel 0 s

/-- The characters a call prints, each in its color. -/
def Call.chars : Call → List (UInt32 × UInt8)
  | .kputchar color c => [(color, c)]
  | .kputs color str => (str.takeWhile (· ≠ 0)).map fun c => (color, c)

/-- One character after the other. -/
def printChars (fb : FramebufferDriver) (chars : List (UInt32 × UInt8)) (s : State) : State :=
  chars.foldl (fun s p => kputchar fb p.1 p.2 s) s

end Console

end MioOS
