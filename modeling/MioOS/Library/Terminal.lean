import Mathlib.Tactic

/-!
# Library/Terminal — a grid of cells with a cursor, and its image

A terminal writes cells from left to right and from top to bottom, goes on to the next row when a row
is full, and moves all rows up by one when it needs a row below the last.  Cells are of any type, and
`none` is the blank one; the cells from the cursor on are always blank (`Fresh`).

Its image draws every cell as a block of `w` by `h` pixels.  `image_write` and `image_newline` say how
the image changes.
-/

/-- **A terminal**: its cells, by row and column, and a cursor inside the grid. -/
structure Terminal (α : Type*) (cols rows : ℕ) where
  cell : ℕ → ℕ → Option α
  col : ℕ
  row : ℕ
  col_lt : col < cols
  row_lt : row < rows

namespace Terminal

variable {α : Type*} {cols rows : ℕ}

/-- The blank terminal, with the cursor in the first cell. -/
def blank (hcols : 0 < cols) (hrows : 0 < rows) : Terminal α cols rows where
  cell _ _ := none
  col := 0
  row := 0
  col_lt := hcols
  row_lt := hrows

/-- Write the cell at the cursor. -/
def write (t : Terminal α cols rows) (o : Option α) : Terminal α cols rows :=
  { t with cell := fun i j => if i = t.row ∧ j = t.col then o else t.cell i j }

/-- All rows move up by one; the first is lost and the last becomes blank. -/
def scroll (t : Terminal α cols rows) : Terminal α cols rows :=
  { t with cell := fun i j => if i + 1 < rows then t.cell (i + 1) j else none }

/-- The cursor goes to the start of the row. -/
def home (t : Terminal α cols rows) : Terminal α cols rows :=
  { t with col := 0, col_lt := t.col.zero_le.trans_lt t.col_lt }

/-- **To the next row**, which is a new one if the cursor is in the last. -/
def newline (t : Terminal α cols rows) : Terminal α cols rows :=
  if h : t.row + 1 < rows then { t.home with row := t.row + 1, row_lt := h } else t.home.scroll

/-- **To the next cell**, at once in the next row if this was the last in its own. -/
def advance (t : Terminal α cols rows) : Terminal α cols rows :=
  if h : t.col + 1 < cols then { t with col := t.col + 1, col_lt := h } else t.newline

/-- **Put a cell**: write it and go on. -/
def put (t : Terminal α cols rows) (o : Option α) : Terminal α cols rows := (t.write o).advance

/-- **The cells from the cursor on are blank.** -/
def Fresh (t : Terminal α cols rows) : Prop :=
  ∀ i j, t.row < i ∨ i = t.row ∧ t.col ≤ j → t.cell i j = none

variable {t : Terminal α cols rows} {o : Option α}

/-! ## Fresh cells -/

theorem fresh_blank (hcols : 0 < cols) (hrows : 0 < rows) :
    (blank hcols hrows : Terminal α cols rows).Fresh := fun _ _ _ => rfl

/-- The rows below the cursor's are blank whatever is written in its own. -/
theorem fresh_newline (h : ∀ i j, t.row < i → t.cell i j = none) : t.newline.Fresh := by
  intro i j hij
  rw [newline] at hij ⊢
  split at hij
  · rename_i hnext
    rw [dif_pos hnext]
    exact h i j (by dsimp only at hij; omega)
  · rename_i hlast
    rw [dif_neg hlast]
    refine if_neg fun hi => hlast ?_
    have hrow : t.row ≤ i := hij.elim le_of_lt fun hij => hij.1.ge
    exact (Nat.succ_le_succ hrow).trans_lt hi

theorem fresh_put (h : t.Fresh) : (t.put o).Fresh := by
  have hbelow (i j : ℕ) (hi : t.row < i) : (t.write o).cell i j = none := by
    refine (if_neg fun hij => ?_).trans (h i j (Or.inl hi))
    exact hi.ne' hij.1
  rw [put, advance]
  split
  · rintro i j (hi | ⟨hi, hj⟩)
    · exact hbelow i j hi
    · refine (if_neg fun hij => ?_).trans (h i j (Or.inr ⟨hi, (Nat.le_succ _).trans hj⟩))
      exact (Nat.lt_of_succ_le hj).ne' hij.2
  · exact fresh_newline hbelow

/-- Writing a blank on a fresh cell changes nothing. -/
theorem write_none (h : t.Fresh) : t.write none = t := by
  have hcell : (t.write none).cell = t.cell := by
    ext1 i
    ext1 j
    rw [write]
    dsimp only
    split
    · rename_i hij
      exact (h i j (Or.inr ⟨hij.1, hij.2.ge⟩)).symm
    · rfl
  calc t.write none = { t with cell := (t.write none).cell } := rfl
    _ = t := by rw [hcell]

/-! ## The image -/

variable (glyph : α → ℕ → ℕ → ℕ) {w h x y : ℕ}

/-- A pixel of a cell, by its row and column in the block. -/
def cellPixel (o : Option α) (dy dx : ℕ) : ℕ := o.elim 0 fun a => glyph a dy dx

/-- **The image**: the cells side by side, and nothing right of and below the grid. -/
def image (w h : ℕ) (t : Terminal α cols rows) (x y : ℕ) : ℕ :=
  if x < cols * w ∧ y < rows * h then cellPixel glyph (t.cell (y / h) (x / w)) (y % h) (x % w) else 0

variable {glyph}

/-- The pixel of a cell. -/
theorem image_cell {i j dy dx : ℕ} (hi : i < rows) (hj : j < cols) (hdy : dy < h) (hdx : dx < w) :
    t.image glyph w h (j * w + dx) (i * h + dy) = cellPixel glyph (t.cell i j) dy dx := by
  have hblock {k n d s : ℕ} (hk : k < n) (hd : d < s) :
      k * s + d < n * s ∧ (k * s + d) / s = k ∧ (k * s + d) % s = d := by
    have hpos : 0 < s := d.zero_le.trans_lt hd
    have hle : (k + 1) * s ≤ n * s := Nat.mul_le_mul_right s hk
    refine ⟨?_, ?_, ?_⟩
    · rw [Nat.add_mul, Nat.one_mul] at hle
      omega
    · rw [Nat.add_comm, Nat.add_mul_div_right _ _ hpos, Nat.div_eq_of_lt hd, Nat.zero_add]
    · rw [Nat.add_comm, Nat.add_mul_mod_self_right, Nat.mod_eq_of_lt hd]
  obtain ⟨hx, hxdiv, hxmod⟩ := hblock hj hdx
  obtain ⟨hy, hydiv, hymod⟩ := hblock hi hdy
  rw [image, if_pos ⟨hx, hy⟩, hxdiv, hxmod, hydiv, hymod]

/-- A place is in a block exactly when the block is that of its quotient. -/
theorem div_eq_iff_block {s k : ℕ} (hs : 0 < s) : x / s = k ↔ k * s ≤ x ∧ x < k * s + s := by
  rw [Nat.div_eq_iff hs]
  omega

theorem mod_eq_sub_block {s k : ℕ} (hk : x / s = k) : x % s = x - k * s := by
  have hdiv := Nat.div_add_mod x s
  rw [hk, Nat.mul_comm] at hdiv
  omega

/-- **The image of a written cell** is new in the block of the cursor, and the old one elsewhere. -/
theorem image_write (hw : 0 < w) (hh : 0 < h) (a : α) :
    (t.write (some a)).image glyph w h x y
      = if (t.col * w ≤ x ∧ x < t.col * w + w) ∧ t.row * h ≤ y ∧ y < t.row * h + h then
          glyph a (y - t.row * h) (x - t.col * w)
        else t.image glyph w h x y := by
  have hiff : (t.col * w ≤ x ∧ x < t.col * w + w) ∧ t.row * h ≤ y ∧ y < t.row * h + h ↔
      x / w = t.col ∧ y / h = t.row := by
    rw [div_eq_iff_block hw, div_eq_iff_block hh]
  by_cases hblock : x / w = t.col ∧ y / h = t.row
  · have hx : x < cols * w := (Nat.div_lt_iff_lt_mul hw).mp (hblock.1 ▸ t.col_lt)
    have hy : y < rows * h := (Nat.div_lt_iff_lt_mul hh).mp (hblock.2 ▸ t.row_lt)
    have hcell : (t.write (some a)).cell (y / h) (x / w) = some a := if_pos hblock.symm
    rw [if_pos (hiff.mpr hblock), image, if_pos ⟨hx, hy⟩, hcell, mod_eq_sub_block hblock.1,
      mod_eq_sub_block hblock.2]
    rfl
  · have hcell : (t.write (some a)).cell (y / h) (x / w) = t.cell (y / h) (x / w) :=
      if_neg fun hij => hblock hij.symm
    rw [if_neg (hblock ∘ hiff.mp), image, hcell, image]

/-- **The image of a new row**, in a height that has no room for another: everything moves up by the
height of a cell, and below it is blank. -/
theorem image_scroll {height : ℕ} (hh : 0 < h) (hheight : rows * h ≤ height) :
    t.scroll.image glyph w h x y
      = if y + h < height then t.image glyph w h x (y + h) else 0 := by
  have hbelow : ¬ y + h < rows * h → t.scroll.image glyph w h x y = 0 := by
    intro hlast
    rw [image]
    split
    · have hnone : t.scroll.cell (y / h) (x / w) = none := by
        refine if_neg fun hnext => hlast ?_
        rw [← Nat.add_div_right y hh] at hnext
        exact (Nat.div_lt_iff_lt_mul hh).mp hnext
      rw [hnone]
      rfl
    · rfl
  by_cases hlast : y + h < rows * h
  · have hnext : y / h + 1 < rows := by
      rw [← Nat.add_div_right y hh]
      exact (Nat.div_lt_iff_lt_mul hh).mpr hlast
    have hcell : t.scroll.cell (y / h) (x / w) = t.cell (y / h + 1) (x / w) := if_pos hnext
    have hdiv : (y + h) / h = y / h + 1 := Nat.add_div_right y hh
    rw [if_pos (hlast.trans_le hheight), image, image, hcell, hdiv, Nat.add_mod_right]
    have hy : y < rows * h := (Nat.le_add_right y h).trans_lt hlast
    simp only [hy, hlast, and_true]
  · rw [hbelow hlast]
    split
    · rw [image, if_neg fun hin => hlast hin.2]
    · rfl

end Terminal
