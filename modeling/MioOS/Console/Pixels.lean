import MioOS.Console.Defs

/-!
# Console/Pixels — writing a pixel and reading it back

`put_pixel` and `get_pixel` of `framebuffer.cpp` on a screen.  With 32 bits per pixel the two are
inverse, up to the alpha byte.  With 24 bits `get_pixel` reads four bytes, the last of which is the
first byte of whatever follows the pixel: `PutGet` says what reading should give, and `putGet_iff` when
it does.
-/

namespace MioOS

namespace Console

open ByteMemory

/-- **`get_pixel`.** -/
def getPixel (fb : FramebufferDriver) (x y : ℕ) (m : Mem) : UInt32 :=
  if fb.framebuffer = 0 then 0
  else if x ≥ fb.screenWidth ∨ y ≥ fb.screenHeight then 0
  else
    let pixelAddr := fb.framebuffer + u32 (y * fb.screenPitch) + u32 (x * (fb.screenBpp / 8))
    if fb.screenBpp = 32 then UInt32.ofNat (m.load 4 pixelAddr) &&& 0x00FFFFFF
    else UInt32.ofNat (m.load 4 pixelAddr)

/-- **A screen**: 24 or 32 bits per pixel, rows that fit the pitch and a size that fits 32 bits. -/
structure Screen (fb : FramebufferDriver) : Prop where
  mapped : fb.framebuffer ≠ 0
  bpp : fb.screenBpp = 24 ∨ fb.screenBpp = 32
  pitch : fb.screenWidth * fb.screenBpp / 8 ≤ fb.screenPitch
  size : fb.screenPitch * fb.screenHeight < 2 ^ 32

/-- **What writing a pixel and reading pixels should do**: the color is read back without its alpha,
every other pixel reads as before, no other byte changes, and outside the screen nothing does. -/
structure PutGet (fb : FramebufferDriver) (m : Mem) (x y : ℕ) (color : UInt32) : Prop where
  same : x < fb.screenWidth → y < fb.screenHeight →
    getPixel fb x y (putPixel fb x y color m) = color &&& 0xFFFFFF
  others : x < fb.screenWidth → y < fb.screenHeight →
    ∀ x' < fb.screenWidth, ∀ y' < fb.screenHeight, ¬ (x' = x ∧ y' = y) →
      getPixel fb x' y' (putPixel fb x y color m) = getPixel fb x' y' m
  elsewhere : x < fb.screenWidth → y < fb.screenHeight → ∀ a,
    a < fb.framebuffer + y * fb.screenPitch + x * (fb.screenBpp / 8) ∨
        fb.framebuffer + y * fb.screenPitch + (x + 1) * (fb.screenBpp / 8) ≤ a →
      putPixel fb x y color m a = m a
  outside : fb.screenWidth ≤ x ∨ fb.screenHeight ≤ y → putPixel fb x y color m = m

/-- **No byte is shared with a neighbour**, or it makes no difference: the byte after the pixel is 0,
and if another pixel ends where this one starts, the blue byte stays what it is. -/
def NoLeak (fb : FramebufferDriver) (m : Mem) (x y : ℕ) (color : UInt32) : Prop :=
  let pixel := fb.framebuffer + y * fb.screenPitch + x * 3
  m (pixel + 3) = 0 ∧
    (0 < x ∨ 0 < y ∧ fb.screenPitch = fb.screenWidth * 3 → m pixel = UInt8.ofNat color.toNat)

variable {fb : FramebufferDriver} {m : Mem} {x x' y y' : ℕ} {color : UInt32}

namespace Screen

variable (h : Screen fb)
include h

theorem depth_mul : fb.screenBpp / 8 * 8 = fb.screenBpp := by
  rcases h.bpp with hbpp | hbpp <;> rw [hbpp]

theorem depth_pos : 0 < fb.screenBpp / 8 := by
  rcases h.bpp with hbpp | hbpp <;> rw [hbpp] <;> decide

theorem fits : fb.screenWidth * (fb.screenBpp / 8) ≤ fb.screenPitch := by
  have hpitch := h.pitch
  rw [← h.depth_mul, ← Nat.mul_assoc, Nat.mul_div_cancel _ (by norm_num)] at hpitch
  exact hpitch

/-- The pixels of the screen. -/
def raster : Raster where
  base := fb.framebuffer
  pitch := fb.screenPitch
  depth := fb.screenBpp / 8
  width := fb.screenWidth
  fits := h.fits

theorem pitch_lt (hy : y < fb.screenHeight) : fb.screenPitch < 2 ^ 32 :=
  (Nat.le_mul_of_pos_right _ (y.zero_le.trans_lt hy)).trans_lt h.size

/-- A row starts below `2 ^ 32`. -/
theorem u32_row (hy : y < fb.screenHeight) : u32 (y * fb.screenPitch) = y * fb.screenPitch := by
  refine u32_of_lt (lt_of_le_of_lt ?_ h.size)
  rw [Nat.mul_comm]
  exact Nat.mul_le_mul_left _ hy.le

/-- And so does a pixel in its row. -/
theorem u32_col (hx : x ≤ fb.screenWidth) (hy : y < fb.screenHeight) :
    u32 (x * (fb.screenBpp / 8)) = x * (fb.screenBpp / 8) :=
  u32_of_lt (((Nat.mul_le_mul_right _ hx).trans h.fits).trans_lt (h.pitch_lt hy))

/-- The address of a pixel, as the driver computes it. -/
theorem addr_eq (hx : x ≤ fb.screenWidth) (hy : y < fb.screenHeight) :
    fb.framebuffer + u32 (y * fb.screenPitch) + u32 (x * (fb.screenBpp / 8)) = h.raster.addr x y := by
  rw [h.u32_row hy, h.u32_col hx hy]
  rfl

omit h in
theorem not_outside (hx : x < fb.screenWidth) (hy : y < fb.screenHeight) :
    ¬ (x ≥ fb.screenWidth ∨ y ≥ fb.screenHeight) := not_or.mpr ⟨hx.not_ge, hy.not_ge⟩

/-- **`put_pixel` stores a pixel.** -/
theorem putPixel_eq (hx : x < fb.screenWidth) (hy : y < fb.screenHeight) :
    putPixel fb x y color m = m.store h.raster.depth (h.raster.addr x y) color.toNat := by
  rw [putPixel, if_neg h.mapped, if_neg (not_outside hx hy)]
  dsimp only
  rw [h.addr_eq hx.le hy]
  rcases h.bpp with hbpp | hbpp
  · have hdepth : h.raster.depth = 3 := congrArg (· / 8) hbpp
    rw [hbpp, if_neg (by decide), if_pos rfl, hdepth]
  · have hdepth : h.raster.depth = 4 := congrArg (· / 8) hbpp
    rw [hbpp, if_pos rfl, hdepth]

/-- **`get_pixel` reads four bytes**, and masks the last with 32 bits per pixel. -/
theorem getPixel_eq (hx : x < fb.screenWidth) (hy : y < fb.screenHeight) :
    getPixel fb x y m = if fb.screenBpp = 32 then UInt32.ofNat (m.load 4 (h.raster.addr x y)) &&& 0x00FFFFFF
      else UInt32.ofNat (m.load 4 (h.raster.addr x y)) := by
  rw [getPixel, if_neg h.mapped, if_neg (not_outside hx hy)]
  dsimp only
  rw [h.addr_eq hx.le hy]

/-! ## 32 bits per pixel -/

omit h in
/-- The mask drops the alpha byte. -/
theorem toNat_and_mask (v : UInt32) : (v &&& 0xFFFFFF).toNat = v.toNat % 2 ^ 24 := by
  rw [UInt32.toNat_and]
  exact Nat.and_two_pow_sub_one_eq_mod v.toNat 24

/-- **With 32 bits per pixel** reading is the pixel without its alpha. -/
theorem getPixel_of_32 (hbpp : fb.screenBpp = 32) (hx : x < fb.screenWidth) (hy : y < fb.screenHeight) :
    getPixel fb x y m = UInt32.ofNat (h.raster.pixel m x y) &&& 0xFFFFFF := by
  have hdepth : h.raster.depth = 4 := congrArg (· / 8) hbpp
  rw [h.getPixel_eq hx hy, if_pos hbpp, Raster.pixel, hdepth]

/-! ## 24 bits per pixel -/

/-- **With 24 bits per pixel** reading gives the pixel and, above it, the byte behind it. -/
theorem toNat_getPixel_of_24 (hbpp : fb.screenBpp = 24) (hx : x < fb.screenWidth)
    (hy : y < fb.screenHeight) : (getPixel fb x y m).toNat
      = h.raster.pixel m x y + 2 ^ 24 * (m (h.raster.addr x y + 3)).toNat := by
  have hdepth : h.raster.depth = 3 := congrArg (· / 8) hbpp
  have hlt : m.load 4 (h.raster.addr x y) < 2 ^ 32 := (m.load_lt 4 _).trans_eq (by norm_num)
  have hbpp' : fb.screenBpp ≠ 32 := by rw [hbpp]; decide
  rw [h.getPixel_eq hx hy, if_neg hbpp', UInt32.toNat_ofNat_of_lt' hlt, Raster.pixel, hdepth,
    Mem.load_succ_last m 3, show 256 ^ 3 = 2 ^ 24 by norm_num]

/-- **The pixel before**: one that ends where this one starts is left of it, or at the end of the row
above when rows leave no gap. -/
theorem exists_before_iff (hbpp : fb.screenBpp = 24) (hx : x < fb.screenWidth)
    (hy : y < fb.screenHeight) :
    (∃ x' < fb.screenWidth, ∃ y' < fb.screenHeight, h.raster.addr x' y' + 3 = h.raster.addr x y) ↔
      0 < x ∨ 0 < y ∧ fb.screenPitch = fb.screenWidth * 3 := by
  have haddr : ∀ x y, h.raster.addr x y = fb.framebuffer + y * fb.screenPitch + x * 3 := fun x y => by
    rw [Raster.addr, show h.raster.depth = 3 from congrArg (· / 8) hbpp]
    rfl
  have hfits : fb.screenWidth * 3 ≤ fb.screenPitch := by
    have := h.fits
    rwa [hbpp] at this
  constructor
  · rintro ⟨x', hx', y', hy', heq⟩
    rw [haddr, haddr] at heq
    rcases x.eq_zero_or_pos with rfl | hpos
    · right
      -- the row above, since the pixel before does not reach further than one row
      have hrow : y' < y := by
        by_contra hge
        have := Nat.mul_le_mul_right fb.screenPitch (not_lt.mp hge)
        omega
      obtain ⟨d, rfl⟩ := Nat.exists_eq_add_of_lt hrow
      have hsum : (y' + d + 1) * fb.screenPitch
          = y' * fb.screenPitch + d * fb.screenPitch + fb.screenPitch := by ring
      rw [hsum] at heq
      exact ⟨by omega, by omega⟩
    · exact Or.inl hpos
  · rintro (hpos | ⟨hpos, hpitch⟩)
    · refine ⟨x - 1, by omega, y, hy, ?_⟩
      rw [haddr, haddr]
      omega
    · rcases x.eq_zero_or_pos with rfl | hpos'
      · refine ⟨fb.screenWidth - 1, by omega, y - 1, by omega, ?_⟩
        obtain ⟨k, rfl⟩ := Nat.exists_eq_succ_of_ne_zero hpos.ne'
        rw [haddr, haddr, Nat.succ_sub_one, Nat.succ_mul]
        omega
      · refine ⟨x - 1, by omega, y, hy, ?_⟩
        rw [haddr, haddr]
        omega

/-- **What a written pixel does to the byte behind another**: nothing, unless that pixel ends where
the written one starts. -/
theorem store_behind (hbpp : fb.screenBpp = 24) (hx : x < fb.screenWidth) (hx' : x' < fb.screenWidth)
    (hne : ¬ (x' = x ∧ y' = y)) (hapart : h.raster.addr x' y' + 3 ≠ h.raster.addr x y) (v : ℕ) :
    m.store h.raster.depth (h.raster.addr x y) v (h.raster.addr x' y' + 3)
      = m (h.raster.addr x' y' + 3) := by
  have hdepth : h.raster.depth = 3 := congrArg (· / 8) hbpp
  have hdisjoint := h.raster.disjoint_pixels hx hx' hne
  rw [hdepth] at hdisjoint ⊢
  exact if_neg (by omega)

/-- **Reading back at 24 bits** gives the color exactly when the byte behind the pixel is 0. -/
theorem same_iff_of_24 (hbpp : fb.screenBpp = 24) (hx : x < fb.screenWidth) (hy : y < fb.screenHeight) :
    getPixel fb x y (putPixel fb x y color m) = color &&& 0xFFFFFF ↔
      m (h.raster.addr x y + 3) = 0 := by
  have hdepth : h.raster.depth = 3 := congrArg (· / 8) hbpp
  have hbehind : m.store 3 (h.raster.addr x y) color.toNat (h.raster.addr x y + 3)
      = m (h.raster.addr x y + 3) := if_neg (by omega)
  have hpixel : h.raster.pixel (m.store 3 (h.raster.addr x y) color.toNat) x y = color.toNat % 2 ^ 24 := by
    rw [Raster.pixel, hdepth, Mem.load_store_same]
    norm_num
  rw [← UInt32.toNat_inj, h.toNat_getPixel_of_24 hbpp hx hy, toNat_and_mask, h.putPixel_eq hx hy,
    hdepth, hbehind, hpixel, ← UInt8.toNat_inj]
  simp

/-- **Another pixel at 24 bits** reads as before exactly when the byte behind it is what it was. -/
theorem other_iff_of_24 (hbpp : fb.screenBpp = 24) (hx : x < fb.screenWidth) (hy : y < fb.screenHeight)
    (hx' : x' < fb.screenWidth) (hy' : y' < fb.screenHeight) (hne : ¬ (x' = x ∧ y' = y)) :
    getPixel fb x' y' (putPixel fb x y color m) = getPixel fb x' y' m ↔
      m.store h.raster.depth (h.raster.addr x y) color.toNat (h.raster.addr x' y' + 3)
        = m (h.raster.addr x' y' + 3) := by
  rw [← UInt32.toNat_inj, h.toNat_getPixel_of_24 hbpp hx' hy', h.toNat_getPixel_of_24 hbpp hx' hy',
    h.putPixel_eq hx hy, Raster.pixel_store hx hx', if_neg hne, ← UInt8.toNat_inj]
  omega

/-- What does not depend on the number of bits: no other byte changes, and nothing does outside. -/
theorem putPixel_frame : (x < fb.screenWidth → y < fb.screenHeight → ∀ a,
      a < fb.framebuffer + y * fb.screenPitch + x * (fb.screenBpp / 8) ∨
          fb.framebuffer + y * fb.screenPitch + (x + 1) * (fb.screenBpp / 8) ≤ a →
        putPixel fb x y color m a = m a) ∧
    (fb.screenWidth ≤ x ∨ fb.screenHeight ≤ y → putPixel fb x y color m = m) := by
  refine ⟨fun hx hy a ha => ?_, fun hout => ?_⟩
  · have hend : h.raster.addr x y + h.raster.depth
        = fb.framebuffer + y * fb.screenPitch + (x + 1) * (fb.screenBpp / 8) := by
      rw [Nat.add_mul, Nat.one_mul, ← Nat.add_assoc]
      rfl
    rw [h.putPixel_eq hx hy]
    rcases ha with ha | ha
    · exact Mem.store_apply_of_lt ha
    · exact Mem.store_apply_of_ge (hend.trans_le ha)
  · rw [putPixel, if_neg h.mapped, if_pos hout]

/-- **At 32 bits per pixel** writing and reading agree. -/
theorem putGet_of_32 (hbpp : fb.screenBpp = 32) : PutGet fb m x y color where
  same hx hy := by
    have hdepth : h.raster.depth = 4 := congrArg (· / 8) hbpp
    have hpixel : h.raster.pixel (m.store 4 (h.raster.addr x y) color.toNat) x y = color.toNat := by
      rw [Raster.pixel, hdepth, Mem.load_store_of_lt (color.toNat_lt.trans_eq (by norm_num))]
    rw [h.getPixel_of_32 hbpp hx hy, h.putPixel_eq hx hy, hdepth, hpixel, UInt32.ofNat_toNat]
  others hx hy x' hx' y' hy' hne := by
    rw [h.getPixel_of_32 hbpp hx' hy', h.getPixel_of_32 hbpp hx' hy', h.putPixel_eq hx hy,
      Raster.pixel_store hx hx', if_neg hne]
  elsewhere := h.putPixel_frame.1
  outside := h.putPixel_frame.2

/-- **At 24 bits per pixel** they agree exactly when no byte leaks into or out of the pixel. -/
theorem putGet_iff_of_24 (hbpp : fb.screenBpp = 24) (hx : x < fb.screenWidth)
    (hy : y < fb.screenHeight) : PutGet fb m x y color ↔ NoLeak fb m x y color := by
  have hdepth : h.raster.depth = 3 := congrArg (· / 8) hbpp
  have haddr : fb.framebuffer + y * fb.screenPitch + x * 3 = h.raster.addr x y := by
    rw [Raster.addr, hdepth]
    rfl
  have hblue : m.store h.raster.depth (h.raster.addr x y) color.toNat (h.raster.addr x y)
      = UInt8.ofNat color.toNat := by
    rw [Mem.store, if_pos (by omega), Nat.sub_self, pow_zero, Nat.div_one]
  rw [NoLeak, haddr, ← h.exists_before_iff hbpp hx hy]
  constructor
  · intro hput
    refine ⟨(h.same_iff_of_24 hbpp hx hy).mp (hput.same hx hy), ?_⟩
    rintro ⟨x', hx', y', hy', heq⟩
    have hne : ¬ (x' = x ∧ y' = y) := by
      rintro ⟨rfl, rfl⟩
      omega
    have hother := (h.other_iff_of_24 hbpp hx hy hx' hy' hne).mp (hput.others hx hy x' hx' y' hy' hne)
    rw [heq, hblue] at hother
    exact hother.symm
  · rintro ⟨hbehind, hbefore⟩
    refine ⟨fun _ _ => (h.same_iff_of_24 hbpp hx hy).mpr hbehind, fun _ _ x' hx' y' hy' hne => ?_,
      h.putPixel_frame.1, h.putPixel_frame.2⟩
    rw [h.other_iff_of_24 hbpp hx hy hx' hy' hne]
    by_cases heq : h.raster.addr x' y' + 3 = h.raster.addr x y
    · rw [heq, hblue, hbefore ⟨x', hx', y', hy', heq⟩]
    · exact h.store_behind hbpp hx hx' hne heq _

end Screen

/-- **Writing a pixel and reading pixels agree** exactly when the pixels have 32 bits, or none is
written, or no byte leaks between the pixel and what is next to it. -/
theorem putGet_iff (h : Screen fb) (m : Mem) (x y : ℕ) (color : UInt32) :
    PutGet fb m x y color ↔ fb.screenBpp = 32 ∨ (fb.screenWidth ≤ x ∨ fb.screenHeight ≤ y) ∨
      NoLeak fb m x y color := by
  by_cases hout : fb.screenWidth ≤ x ∨ fb.screenHeight ≤ y
  · refine iff_of_true ?_ (Or.inr (Or.inl hout))
    have hnot : x < fb.screenWidth → ¬ y < fb.screenHeight := fun hx hy =>
      Screen.not_outside hx hy hout
    exact ⟨fun hx hy => absurd hy (hnot hx), fun hx hy => absurd hy (hnot hx), h.putPixel_frame.1,
      h.putPixel_frame.2⟩
  · obtain ⟨hx, hy⟩ := not_or.mp hout
    rcases h.bpp with hbpp | hbpp
    · have hbpp' : fb.screenBpp ≠ 32 := by rw [hbpp]; decide
      rw [h.putGet_iff_of_24 hbpp (not_le.mp hx) (not_le.mp hy), or_iff_right hbpp', or_iff_right hout]
    · exact iff_of_true (h.putGet_of_32 hbpp) (Or.inl hbpp)

/-- Two pixels of 24 bits in a row. -/
def twoPixels : FramebufferDriver := ⟨0x1000, 2, 1, 6, 24⟩

theorem screen_twoPixels : Screen twoPixels := ⟨by decide, by decide, by decide, by decide⟩

theorem putGet_twoPixels : PutGet twoPixels (fun _ => 0) 0 0 0xFFFFFF :=
  (putGet_iff screen_twoPixels _ 0 0 _).mpr (Or.inr (Or.inr (by
    rw [NoLeak]
    decide)))

/-- **White beside white reads wrong**: the pixel comes back with its neighbour's blue byte on top. -/
theorem not_putGet_twoPixels :
    ¬ ∀ (fb : FramebufferDriver) (m : Mem) (x y : ℕ) (color : UInt32), Screen fb →
      PutGet fb m x y color := by
  intro h
  have hsame := (h twoPixels (fun _ => 0xFF) 0 0 0xFFFFFF screen_twoPixels).same (by decide) (by decide)
  rw [screen_twoPixels.same_iff_of_24 rfl (by decide) (by decide)] at hsame
  exact absurd hsame (by decide)

end Console

end MioOS
