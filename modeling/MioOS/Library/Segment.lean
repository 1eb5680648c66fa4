import Mathlib.Tactic

/-!
# Library/Segment — a line on a grid, drawn with an error term

A line from `(0, 0)` to `(a, b)` is walked in steps to the right, up, or both.  The error term `e` is
what the walk is off the line by; a step goes to the right while the walk is not too far right and up
while it is not too far up, and both tests look at the error before the step.  The walk is on the end
after `max a b` steps and not before (`walk_end`, `walk_ne_end`): along the longer axis it moves in
every step (`Flat.i_eq`), and the bounds on the error leave one place for the other coordinate.
-/

namespace Segment

/-- A place on the grid, and the error there. -/
@[ext] structure Cursor where
  i : ℤ
  j : ℤ
  e : ℤ

/-- **One step.** -/
def Cursor.step (a b : ℤ) (c : Cursor) : Cursor where
  i := if -b ≤ 2 * c.e then c.i + 1 else c.i
  j := if 2 * c.e ≤ a then c.j + 1 else c.j
  e := c.e + (if -b ≤ 2 * c.e then -b else 0) + (if 2 * c.e ≤ a then a else 0)

/-- **The walk** from `(0, 0)`. -/
def walk (a b : ℤ) : ℕ → Cursor
  | 0 => ⟨0, 0, a - b⟩
  | k + 1 => (walk a b k).step a b

/-- The same place seen from the other axis. -/
def Cursor.swap (c : Cursor) : Cursor := ⟨c.j, c.i, -c.e⟩

variable {a b : ℤ} {c : Cursor} {k : ℕ}

theorem step_swap (a b : ℤ) (c : Cursor) : (c.step a b).swap = c.swap.step b a := by
  have hx : -a ≤ 2 * -c.e ↔ 2 * c.e ≤ a := by omega
  have hy : 2 * -c.e ≤ b ↔ -b ≤ 2 * c.e := by omega
  ext <;> simp only [Cursor.swap, Cursor.step, hx, hy]
  split <;> split <;> omega

theorem walk_swap (a b : ℤ) (k : ℕ) : (walk a b k).swap = walk b a k := by
  induction k with
  | zero =>
    have he : -(a - b) = b - a := by ring
    rw [walk, walk, Cursor.swap, he]
  | succ k ih => rw [walk, walk, step_swap, ih]

/-- **Where the walk along a flat line is** after `k` steps, and what its error is: between the two
bounds it stays on the side of the line it may be on. -/
structure Flat (a b : ℤ) (k : ℕ) (c : Cursor) : Prop where
  i_eq : c.i = k
  j_nonneg : 0 ≤ c.j
  e_eq : c.e = a - b - k * b + c.j * a
  low : -b ≤ 2 * c.e
  high : 2 * c.e ≤ 3 * a - 2 * b

/-- **A step along a flat line.** -/
theorem Flat.step (h : Flat a b k c) (hb : 0 ≤ b) (hab : b ≤ a) : Flat a b (k + 1) (c.step a b) := by
  obtain ⟨hi, hj, he, hlow, hhigh⟩ := h
  by_cases hup : 2 * c.e ≤ a
  · refine ⟨?_, ?_, ?_, ?_, ?_⟩ <;> simp only [Cursor.step, if_pos hlow, if_pos hup]
    · push_cast
      omega
    · omega
    · rw [he]
      push_cast
      ring
    · omega
    · omega
  · refine ⟨?_, ?_, ?_, ?_, ?_⟩ <;> simp only [Cursor.step, if_pos hlow, if_neg hup]
    · push_cast
      omega
    · exact hj
    · rw [he]
      push_cast
      ring
    · omega
    · omega

theorem flat_walk (hb : 0 ≤ b) (hab : b ≤ a) (k : ℕ) : Flat a b k (walk a b k) := by
  induction k with
  | zero =>
    refine ⟨rfl, le_rfl, ?_, ?_, ?_⟩ <;> simp only [walk]
    · push_cast
      ring
    · omega
    · omega
  | succ k ih => exact ih.step hb hab

/-- **The walk does not pass the end** on the shorter axis: above it the error would be too large. -/
theorem Flat.j_le (h : Flat a b k c) (hb : 0 ≤ b) (hk : (k : ℤ) ≤ a) (ha : 0 < a) : c.j ≤ b := by
  by_contra hgt
  have hkb : (k : ℤ) * b ≤ a * b := Int.mul_le_mul_of_nonneg_right hk hb
  have hja : (b + 1) * a ≤ c.j * a := Int.mul_le_mul_of_nonneg_right (by omega) ha.le
  have hexpand : (b + 1) * a = a * b + a := by ring
  have := h.high
  have := h.e_eq
  omega

/-- **It is on the end** when it is there on the longer axis: below it the error would be too small. -/
theorem Flat.j_end (h : Flat a b k c) (hb : 0 ≤ b) (hk : (k : ℤ) = a) (ha : 0 < a) : c.j = b := by
  refine le_antisymm (h.j_le hb hk.le ha) ?_
  by_contra hlt
  have hja : c.j * a ≤ (b - 1) * a := Int.mul_le_mul_of_nonneg_right (by omega) ha.le
  have hexpand : (b - 1) * a = a * b - a := by ring
  have := h.low
  have he := h.e_eq
  have := h.j_nonneg
  rw [hk] at he
  omega

/-! ## The walk on any line -/

/-- The number of steps. -/
def steps (a b : ℤ) : ℕ := (max a b).toNat

theorem steps_comm (a b : ℤ) : steps a b = steps b a := by
  rw [steps, steps, max_comm]

theorem steps_of_flat (hb : 0 ≤ b) (hab : b ≤ a) : (steps a b : ℤ) = a := by
  rw [steps, max_eq_left hab, Int.toNat_of_nonneg (hb.trans hab)]

/-- **What holds all along the walk**: it is between the ends and its error is small. -/
structure Inside (a b : ℤ) (c : Cursor) : Prop where
  i_nonneg : 0 ≤ c.i
  i_le : c.i ≤ a
  j_nonneg : 0 ≤ c.j
  j_le : c.j ≤ b
  low : -3 * max a b ≤ 2 * c.e
  high : 2 * c.e ≤ 3 * max a b

theorem Inside.swap (h : Inside a b c) : Inside b a c.swap := by
  obtain ⟨h₁, h₂, h₃, h₄, h₅, h₆⟩ := h
  rw [max_comm] at h₅ h₆
  exact ⟨h₃, h₄, h₁, h₂, by simp only [Cursor.swap]; omega, by simp only [Cursor.swap]; omega⟩

theorem inside_of_flat (hb : 0 ≤ b) (hab : b ≤ a) (hk : k ≤ steps a b) : Inside a b (walk a b k) := by
  have h := flat_walk hb hab k
  have hka : (k : ℤ) ≤ a := by
    rw [← steps_of_flat hb hab]
    exact_mod_cast hk
  have hi := h.i_eq
  have hj : (walk a b k).j ≤ b := by
    rcases (hb.trans hab).eq_or_lt with rfl | ha
    · obtain rfl : k = 0 := by omega
      exact hb
    · exact h.j_le hb hka ha
  refine ⟨by omega, by omega, h.j_nonneg, hj, ?_, ?_⟩
  · rw [max_eq_left hab]
    have := h.low
    omega
  · rw [max_eq_left hab]
    have := h.high
    omega

theorem inside_walk (ha : 0 ≤ a) (hb : 0 ≤ b) (hk : k ≤ steps a b) : Inside a b (walk a b k) := by
  rcases le_total b a with hab | hab
  · exact inside_of_flat hb hab hk
  · rw [← walk_swap b a k]
    exact (inside_of_flat ha hab (steps_comm a b ▸ hk)).swap

/-- **The walk moves along the longer axis in every step.** -/
theorem walk_i (hb : 0 ≤ b) (hab : b ≤ a) (k : ℕ) : (walk a b k).i = k := (flat_walk hb hab k).i_eq

theorem walk_j (ha : 0 ≤ a) (hab : a ≤ b) (k : ℕ) : (walk a b k).j = k := by
  rw [← walk_swap b a k]
  exact walk_i ha hab k

theorem end_of_flat (hb : 0 ≤ b) (hab : b ≤ a) :
    (walk a b (steps a b)).i = a ∧ (walk a b (steps a b)).j = b := by
  have h := flat_walk hb hab (steps a b)
  refine ⟨h.i_eq.trans (steps_of_flat hb hab), ?_⟩
  rcases (hb.trans hab).eq_or_lt with rfl | ha
  · obtain rfl : b = 0 := le_antisymm hab hb
    rfl
  · exact h.j_end hb (steps_of_flat hb hab) ha

/-- **The walk arrives.** -/
theorem walk_end (ha : 0 ≤ a) (hb : 0 ≤ b) :
    (walk a b (steps a b)).i = a ∧ (walk a b (steps a b)).j = b := by
  rcases le_total b a with hab | hab
  · exact end_of_flat hb hab
  · rw [← walk_swap b a, steps_comm]
    exact (end_of_flat ha hab).symm

/-- **…and not earlier.** -/
theorem walk_ne_end (ha : 0 ≤ a) (hb : 0 ≤ b) (hk : k < steps a b) :
    ¬ ((walk a b k).i = a ∧ (walk a b k).j = b) := by
  rintro ⟨hi, hj⟩
  rcases le_total b a with hab | hab
  · have hsteps := steps_of_flat hb hab
    rw [walk_i hb hab] at hi
    omega
  · have hsteps := steps_of_flat ha hab
    rw [steps_comm] at hsteps
    rw [walk_j ha hab] at hj
    omega

/-- A step moves by at most one along each axis. -/
theorem step_le (a b : ℤ) (c : Cursor) :
    (c.i ≤ (c.step a b).i ∧ (c.step a b).i ≤ c.i + 1) ∧
      c.j ≤ (c.step a b).j ∧ (c.step a b).j ≤ c.j + 1 := by
  simp only [Cursor.step]
  constructor <;> split <;> omega

end Segment
