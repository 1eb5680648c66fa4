import MioOS.Library.Copy

/-!
# Library/Raster — rectangles of pixels in a byte memory

A raster lays pixels of `depth` bytes out in rows that are `pitch` bytes apart.  The laws here say
what a store of one pixel, a copy of a part of a row and a fill of a part of a row do to every pixel,
and that they change no byte outside the rectangle they are about.
-/

namespace ByteMemory

namespace Mem

variable {m : Mem} {n k dest src a x : ℕ}

/-- What a copy to a place before the source leaves. -/
theorem copy_apply (h : dest + n ≤ src) :
    m.copy dest src n x = if dest ≤ x ∧ x < dest + n then m (src + (x - dest)) else m x :=
  congrFun (copy_eq_move ((Nat.le_add_right dest n).trans h)) x

/-- Two loads agree when their bytes do. -/
theorem load_congr_shift {m m' : Mem} {n a b : ℕ} (h : ∀ i < n, m' (b + i) = m (a + i)) :
    m'.load n b = m.load n a := by
  induction n generalizing a b with
  | zero => rfl
  | succ n ih =>
    have hhead : m' b = m a := h 0 (Nat.succ_pos n)
    have htail : m'.load n (b + 1) = m.load n (a + 1) := ih fun i hi => by
      rw [Nat.add_assoc, Nat.add_comm 1, Nat.add_assoc, Nat.add_comm 1]
      exact h (i + 1) (Nat.succ_lt_succ hi)
    rw [load_succ, load_succ, hhead, htail]

/-- Zeros are read as 0. -/
theorem load_eq_zero {m : Mem} {n a : ℕ} (h : ∀ i < n, m (a + i) = 0) : m.load n a = 0 := by
  induction n generalizing a with
  | zero => rfl
  | succ n ih =>
    have hhead : m a = 0 := h 0 (Nat.succ_pos n)
    have htail : m.load n (a + 1) = 0 := ih fun i hi => by
      rw [Nat.add_assoc, Nat.add_comm 1]
      exact h (i + 1) (Nat.succ_lt_succ hi)
    rw [load_succ, hhead, htail]
    rfl

theorem load_copy_of_mem (h : dest + n ≤ src) (ha : dest ≤ a) (hk : a + k ≤ dest + n) :
    (m.copy dest src n).load k a = m.load k (src + (a - dest)) := by
  refine load_congr_shift fun i hi => ?_
  rw [copy_apply h, if_pos (by omega)]
  congr 1
  omega

theorem load_copy_of_disjoint (h : dest + n ≤ src) (ha : dest + n ≤ a ∨ a + k ≤ dest) :
    (m.copy dest src n).load k a = m.load k a := by
  refine load_congr fun i hi => ?_
  rw [copy_apply h, if_neg (by omega)]

end Mem

/-- **Pixels in memory**: rows of `width` pixels of `depth` bytes, `pitch` bytes apart. -/
structure Raster where
  base : ℕ
  pitch : ℕ
  depth : ℕ
  width : ℕ
  fits : width * depth ≤ pitch

namespace Raster

/-- Where a pixel is. -/
def addr (r : Raster) (x y : ℕ) : ℕ := r.base + y * r.pitch + x * r.depth

/-- The value of a pixel. -/
def pixel (r : Raster) (m : Mem) (x y : ℕ) : ℕ := m.load r.depth (r.addr x y)

/-- The bytes of a rectangle. -/
def bytes (r : Raster) (x₀ x₁ y₀ y₁ : ℕ) : Set ℕ :=
  {a | ∃ y, y₀ ≤ y ∧ y < y₁ ∧ r.addr x₀ y ≤ a ∧ a < r.addr x₁ y}

variable {r : Raster} {m m' : Mem} {x x' x₀ x₁ y y' y₀ y₁ z v n k w h a : ℕ}

/-! ## Where pixels are -/

theorem addr_add (r : Raster) (x k y : ℕ) : r.addr (x + k) y = r.addr x y + k * r.depth := by
  rw [addr, addr, Nat.add_mul, ← Nat.add_assoc]

theorem addr_mono (r : Raster) (y : ℕ) (hx : x ≤ x') : r.addr x y ≤ r.addr x' y :=
  Nat.add_le_add_left (Nat.mul_le_mul_right _ hx) _

/-- A pixel ends where the next one starts. -/
theorem addr_add_depth_le (r : Raster) (y : ℕ) (hx : x < x') : r.addr x y + r.depth ≤ r.addr x' y := by
  have hnext := addr_mono r y (Nat.succ_le_of_lt hx)
  rwa [Nat.succ_eq_add_one, addr_add, Nat.one_mul] at hnext

/-- A row ends before the next one starts. -/
theorem addr_le_of_row_lt (hx : x ≤ r.width) (hy : y < y') : r.addr x y ≤ r.addr x' y' := by
  have hrow : x * r.depth ≤ r.pitch := (Nat.mul_le_mul_right _ hx).trans r.fits
  have hnext : (y + 1) * r.pitch ≤ y' * r.pitch := Nat.mul_le_mul_right _ hy
  rw [Nat.add_mul, Nat.one_mul] at hnext
  rw [addr, addr]
  omega

/-- **Different pixels have different bytes.** -/
theorem disjoint_pixels (hx : x < r.width) (hx' : x' < r.width) (hne : ¬ (x' = x ∧ y' = y)) :
    r.addr x y + r.depth ≤ r.addr x' y' ∨ r.addr x' y' + r.depth ≤ r.addr x y := by
  rcases lt_trichotomy y y' with hy | rfl | hy
  · exact Or.inl ((addr_add_depth_le r y (Nat.lt_succ_self x)).trans (addr_le_of_row_lt hx hy))
  · rcases lt_or_gt_of_ne (fun heq => hne ⟨heq, rfl⟩ : x' ≠ x) with hlt | hlt
    · exact Or.inr (addr_add_depth_le r y hlt)
    · exact Or.inl (addr_add_depth_le r y hlt)
  · exact Or.inr ((addr_add_depth_le r y' (Nat.lt_succ_self x')).trans (addr_le_of_row_lt hx' hy))

/-- The bytes of a pixel are apart from those of another part of a row. -/
theorem disjoint_row (hx : x < r.width) (hx₁ : x₁ ≤ r.width)
    (hout : ¬ (z = y ∧ x₀ ≤ x ∧ x < x₁)) :
    r.addr x₁ y ≤ r.addr x z ∨ r.addr x z + r.depth ≤ r.addr x₀ y := by
  rcases lt_trichotomy y z with hy | rfl | hy
  · exact Or.inl (addr_le_of_row_lt hx₁ hy)
  · rcases lt_or_ge x x₀ with hlt | hge
    · exact Or.inr (addr_add_depth_le r y hlt)
    · exact Or.inl (addr_mono r y (not_lt.mp fun hlt => hout ⟨rfl, hge, hlt⟩))
  · exact Or.inr ((addr_add_depth_le r z (Nat.lt_succ_self x)).trans (addr_le_of_row_lt hx hy))

theorem addr_add_row (r : Raster) (y : ℕ) (hx : x₀ ≤ x₁) :
    r.addr x₀ y + (x₁ - x₀) * r.depth = r.addr x₁ y := by
  rw [← addr_add, Nat.add_sub_cancel' hx]

/-- **A pixel outside a rectangle** does not depend on the bytes of the rectangle. -/
theorem pixel_congr (hagree : Mem.AgreeOn (r.bytes x₀ x₁ y₀ y₁)ᶜ m m') (hx : x < r.width)
    (hx₁ : x₁ ≤ r.width) (hout : ¬ (x₀ ≤ x ∧ x < x₁ ∧ y₀ ≤ y ∧ y < y₁)) :
    r.pixel m' x y = r.pixel m x y := by
  refine Mem.load_congr fun i hi => hagree _ ?_
  rintro ⟨y', hy₀, hy₁, hle, hlt⟩
  have hrow := disjoint_row (z := y) (y := y') hx hx₁ (by
    rintro ⟨rfl, h₀, h₁⟩
    exact hout ⟨h₀, h₁, hy₀, hy₁⟩)
  omega

/-! ## One pixel -/

/-- **Storing a pixel** changes that one and no other. -/
theorem pixel_store (hx : x < r.width) (hx' : x' < r.width) :
    r.pixel (m.store r.depth (r.addr x y) v) x' y'
      = if x' = x ∧ y' = y then v % 256 ^ r.depth else r.pixel m x' y' := by
  split
  · rename_i heq
    rw [pixel, heq.1, heq.2, Mem.load_store_same]
  · rename_i hne
    exact Mem.load_store_of_disjoint (disjoint_pixels hx hx' hne)

theorem agreeOn_store (hx₀ : x₀ ≤ x) (hx₁ : x < x₁) (hy₀ : y₀ ≤ y) (hy₁ : y < y₁) :
    Mem.AgreeOn (r.bytes x₀ x₁ y₀ y₁)ᶜ m (m.store r.depth (r.addr x y) v) := by
  refine fun a ha => if_neg fun hmem => ha ⟨y, hy₀, hy₁, ?_, ?_⟩
  · exact (addr_mono r y hx₀).trans hmem.1
  · exact hmem.2.trans_le (addr_add_depth_le r y hx₁)

/-! ## A part of a row -/

/-- **Copying a part of a row** to another row above it. -/
theorem pixel_copy (hx₀ : x₀ ≤ x₁) (hx₁ : x₁ ≤ r.width) (hy : y < y') (hx : x < r.width) :
    r.pixel (m.copy (r.addr x₀ y) (r.addr x₀ y') ((x₁ - x₀) * r.depth)) x z
      = if z = y ∧ x₀ ≤ x ∧ x < x₁ then r.pixel m x y' else r.pixel m x z := by
  have hend := addr_add_row r y hx₀
  have hapart : r.addr x₀ y + (x₁ - x₀) * r.depth ≤ r.addr x₀ y' :=
    hend.trans_le (addr_le_of_row_lt hx₁ hy)
  by_cases hmem : z = y ∧ x₀ ≤ x ∧ x < x₁
  · obtain ⟨rfl, hle, hlt⟩ := hmem
    have hlast := addr_add_depth_le r z hlt
    rw [if_pos ⟨rfl, hle, hlt⟩, pixel, Mem.load_copy_of_mem hapart (addr_mono r z hle)
      (hlast.trans_eq hend.symm), pixel]
    have hrow := addr_add_row r z hle
    have hrow' := addr_add_row r y' hle
    congr 1
    omega
  · rw [if_neg hmem]
    refine Mem.load_copy_of_disjoint hapart ?_
    rw [hend]
    exact disjoint_row hx hx₁ hmem

theorem agreeOn_copy (hx₀ : x₀ ≤ x₁) (hx₁ : x₁ ≤ r.width) (hy : y < y') (hy₀ : y₀ ≤ y)
    (hy₁ : y < y₁) :
    Mem.AgreeOn (r.bytes x₀ x₁ y₀ y₁)ᶜ m
      (m.copy (r.addr x₀ y) (r.addr x₀ y') ((x₁ - x₀) * r.depth)) := by
  have hend := addr_add_row r y hx₀
  intro a ha
  rw [Mem.copy_apply (hend.trans_le (addr_le_of_row_lt hx₁ hy)), hend]
  exact if_neg fun hmem => ha ⟨y, hy₀, hy₁, hmem⟩

/-- **Clearing a part of a row.** -/
theorem pixel_fill (hx₀ : x₀ ≤ x₁) (hx₁ : x₁ ≤ r.width) (hx : x < r.width) :
    r.pixel (m.fill ((x₁ - x₀) * r.depth) (r.addr x₀ y) 0) x z
      = if z = y ∧ x₀ ≤ x ∧ x < x₁ then 0 else r.pixel m x z := by
  have hend := addr_add_row r y hx₀
  by_cases hmem : z = y ∧ x₀ ≤ x ∧ x < x₁
  · obtain ⟨rfl, hle, hlt⟩ := hmem
    have hlast := addr_add_depth_le r z hlt
    have hfirst := addr_mono r z hle
    rw [if_pos ⟨rfl, hle, hlt⟩]
    exact Mem.load_eq_zero fun i hi => Mem.fill_apply_of_mem (by omega)
  · rw [if_neg hmem]
    refine Mem.load_fill_of_disjoint ?_
    rw [hend]
    exact disjoint_row hx hx₁ hmem

theorem agreeOn_fill (hx₀ : x₀ ≤ x₁) (hy₀ : y₀ ≤ y) (hy₁ : y < y₁) :
    Mem.AgreeOn (r.bytes x₀ x₁ y₀ y₁)ᶜ m (m.fill ((x₁ - x₀) * r.depth) (r.addr x₀ y) 0) := by
  intro a ha
  exact Mem.fill_apply_of_not_mem fun hmem => ha ⟨y, hy₀, hy₁, hmem.1,
    hmem.2.trans_eq (addr_add_row r y hx₀)⟩

/-! ## Rows upon rows -/

/-- **Move rows up**: each of the `n` rows from `y₀` on, between `x₀` and `x₁`, becomes the row `k`
below it. -/
def moveUp (r : Raster) (x₀ x₁ k y₀ n : ℕ) (m : Mem) : Mem :=
  (List.range' y₀ n).foldl
    (fun m y => m.copy (r.addr x₀ y) (r.addr x₀ (y + k)) ((x₁ - x₀) * r.depth)) m

/-- **Clear rows**: each of the `n` rows from `y₀` on, between `x₀` and `x₁`. -/
def clear (r : Raster) (x₀ x₁ y₀ n : ℕ) (m : Mem) : Mem :=
  (List.range' y₀ n).foldl (fun m y => m.fill ((x₁ - x₀) * r.depth) (r.addr x₀ y) 0) m

/-- **Draw a block** of `w` by `h` pixels at a place, row by row. -/
def draw (r : Raster) (x y w h : ℕ) (f : ℕ → ℕ → ℕ) (m : Mem) : Mem :=
  (List.range h).foldl (fun m row => (List.range w).foldl (fun m col =>
    m.store r.depth (r.addr (x + col) (y + row)) (f row col)) m) m

theorem moveUp_succ : r.moveUp x₀ x₁ k y₀ (n + 1) m =
    (r.moveUp x₀ x₁ k y₀ n m).copy (r.addr x₀ (y₀ + n)) (r.addr x₀ (y₀ + n + k))
      ((x₁ - x₀) * r.depth) := by
  rw [moveUp, List.range'_concat, List.foldl_append, Nat.one_mul]
  rfl

theorem clear_succ : r.clear x₀ x₁ y₀ (n + 1) m =
    (r.clear x₀ x₁ y₀ n m).fill ((x₁ - x₀) * r.depth) (r.addr x₀ (y₀ + n)) 0 := by
  rw [clear, List.range'_concat, List.foldl_append, Nat.one_mul]
  rfl

/-- **What moving rows up leaves.** -/
theorem pixel_moveUp (hk : 0 < k) (hx₀ : x₀ ≤ x₁) (hx₁ : x₁ ≤ r.width) (hx : x < r.width) :
    r.pixel (r.moveUp x₀ x₁ k y₀ n m) x y
      = if y₀ ≤ y ∧ y < y₀ + n ∧ x₀ ≤ x ∧ x < x₁ then r.pixel m x (y + k) else r.pixel m x y := by
  induction n generalizing y with
  | zero =>
    rw [if_neg fun h => absurd h.2.1 (not_lt.mpr h.1)]
    rfl
  | succ n ih =>
    rw [moveUp_succ, pixel_copy hx₀ hx₁ (Nat.lt_add_of_pos_right hk) hx, ih, ih]
    by_cases hrow : y = y₀ + n ∧ x₀ ≤ x ∧ x < x₁
    · -- the row below has not been written to yet
      rw [if_pos hrow, if_neg (by omega), if_pos (by omega), hrow.1]
    · rw [if_neg hrow]
      by_cases hmem : y₀ ≤ y ∧ y < y₀ + n ∧ x₀ ≤ x ∧ x < x₁
      · rw [if_pos hmem, if_pos (by omega)]
      · rw [if_neg hmem, if_neg (by omega)]

theorem agreeOn_moveUp (hk : 0 < k) (hx₀ : x₀ ≤ x₁) (hx₁ : x₁ ≤ r.width) (hn : y₀ + n ≤ y₁) :
    Mem.AgreeOn (r.bytes x₀ x₁ y₀ y₁)ᶜ m (r.moveUp x₀ x₁ k y₀ n m) := by
  induction n with
  | zero => exact Mem.AgreeOn.refl _ m
  | succ n ih =>
    rw [moveUp_succ]
    exact (ih (Nat.le_of_succ_le hn)).trans
      (agreeOn_copy hx₀ hx₁ (Nat.lt_add_of_pos_right hk) (Nat.le_add_right y₀ n) hn)

/-- **What clearing rows leaves.** -/
theorem pixel_clear (hx₀ : x₀ ≤ x₁) (hx₁ : x₁ ≤ r.width) (hx : x < r.width) :
    r.pixel (r.clear x₀ x₁ y₀ n m) x y
      = if y₀ ≤ y ∧ y < y₀ + n ∧ x₀ ≤ x ∧ x < x₁ then 0 else r.pixel m x y := by
  induction n with
  | zero =>
    rw [if_neg fun h => absurd h.2.1 (not_lt.mpr h.1)]
    rfl
  | succ n ih =>
    rw [clear_succ, pixel_fill hx₀ hx₁ hx, ih]
    by_cases hrow : y = y₀ + n ∧ x₀ ≤ x ∧ x < x₁
    · rw [if_pos hrow, if_pos (by omega)]
    · rw [if_neg hrow]
      by_cases hmem : y₀ ≤ y ∧ y < y₀ + n ∧ x₀ ≤ x ∧ x < x₁
      · rw [if_pos hmem, if_pos (by omega)]
      · rw [if_neg hmem, if_neg (by omega)]

theorem agreeOn_clear (hx₀ : x₀ ≤ x₁) (hy : y₀ ≤ y) (hn : y + n ≤ y₁) :
    Mem.AgreeOn (r.bytes x₀ x₁ y₀ y₁)ᶜ m (r.clear x₀ x₁ y n m) := by
  induction n with
  | zero => exact Mem.AgreeOn.refl _ m
  | succ n ih =>
    rw [clear_succ]
    exact (ih (Nat.le_of_succ_le hn)).trans
      (agreeOn_fill hx₀ (hy.trans (Nat.le_add_right y n)) hn)

/-! ## Blocks -/

/-- One row of a block. -/
def drawRow (r : Raster) (x y w : ℕ) (f : ℕ → ℕ) (m : Mem) : Mem :=
  (List.range w).foldl (fun m col => m.store r.depth (r.addr (x + col) y) (f col)) m

theorem drawRow_succ (f : ℕ → ℕ) : r.drawRow x y (w + 1) f m =
    (r.drawRow x y w f m).store r.depth (r.addr (x + w) y) (f w) := by
  rw [drawRow, List.range_succ, List.foldl_append]
  rfl

theorem draw_succ (f : ℕ → ℕ → ℕ) : r.draw x y w (h + 1) f m =
    r.drawRow x (y + h) w (f h) (r.draw x y w h f m) := by
  rw [draw, List.range_succ, List.foldl_append]
  rfl

theorem pixel_drawRow (f : ℕ → ℕ) (hw : x + w ≤ r.width) (hx' : x' < r.width) :
    r.pixel (r.drawRow x y w f m) x' y'
      = if y' = y ∧ x ≤ x' ∧ x' < x + w then f (x' - x) % 256 ^ r.depth else r.pixel m x' y' := by
  induction w with
  | zero =>
    rw [if_neg fun h => absurd h.2.2 (not_lt.mpr h.2.1)]
    rfl
  | succ w ih =>
    have hin : x + w < r.width := hw
    rw [drawRow_succ, pixel_store hin hx', ih (Nat.le_of_succ_le hw)]
    by_cases hlast : x' = x + w ∧ y' = y
    · rw [if_pos hlast, if_pos (by omega), hlast.1, Nat.add_sub_cancel_left]
    · rw [if_neg hlast]
      by_cases hmem : y' = y ∧ x ≤ x' ∧ x' < x + w
      · rw [if_pos hmem, if_pos (by omega)]
      · rw [if_neg hmem, if_neg (by omega)]

/-- **What drawing a block leaves.** -/
theorem pixel_draw (f : ℕ → ℕ → ℕ) (hw : x + w ≤ r.width) (hx' : x' < r.width) :
    r.pixel (r.draw x y w h f m) x' y'
      = if (x ≤ x' ∧ x' < x + w) ∧ y ≤ y' ∧ y' < y + h then f (y' - y) (x' - x) % 256 ^ r.depth
        else r.pixel m x' y' := by
  induction h with
  | zero =>
    rw [if_neg fun h => absurd h.2.2 (not_lt.mpr h.2.1)]
    rfl
  | succ h ih =>
    rw [draw_succ, pixel_drawRow (f h) hw hx', ih]
    by_cases hlast : y' = y + h ∧ x ≤ x' ∧ x' < x + w
    · rw [if_pos hlast, if_pos (by omega), hlast.1, Nat.add_sub_cancel_left]
    · rw [if_neg hlast]
      by_cases hmem : (x ≤ x' ∧ x' < x + w) ∧ y ≤ y' ∧ y' < y + h
      · rw [if_pos hmem, if_pos (by omega)]
      · rw [if_neg hmem, if_neg (by omega)]

theorem agreeOn_drawRow (f : ℕ → ℕ) (hx₀ : x₀ ≤ x) (hx₁ : x + w ≤ x₁) (hy₀ : y₀ ≤ y)
    (hy₁ : y < y₁) : Mem.AgreeOn (r.bytes x₀ x₁ y₀ y₁)ᶜ m (r.drawRow x y w f m) := by
  induction w with
  | zero => exact Mem.AgreeOn.refl _ m
  | succ w ih =>
    rw [drawRow_succ]
    exact (ih (Nat.le_of_succ_le hx₁)).trans
      (agreeOn_store (hx₀.trans (Nat.le_add_right x w)) hx₁ hy₀ hy₁)

theorem agreeOn_draw (f : ℕ → ℕ → ℕ) (hx₀ : x₀ ≤ x) (hx₁ : x + w ≤ x₁) (hy₀ : y₀ ≤ y)
    (hy₁ : y + h ≤ y₁) : Mem.AgreeOn (r.bytes x₀ x₁ y₀ y₁)ᶜ m (r.draw x y w h f m) := by
  induction h with
  | zero => exact Mem.AgreeOn.refl _ m
  | succ h ih =>
    rw [draw_succ]
    exact (ih (Nat.le_of_succ_le hy₁)).trans
      (agreeOn_drawRow (f h) hx₀ hx₁ (hy₀.trans (Nat.le_add_right y h)) hy₁)

end Raster

end ByteMemory
