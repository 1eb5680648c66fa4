import MioOS.Console.Pixels
import MioOS.Library.Segment

/-!
# Console/Line — `draw_line` of `draw_util.cpp`

`draw_line` walks from one end to the other with an integer error term and stops when it is on the end
in both coordinates.  What it does with a pixel is a parameter (`plot`), so that the pixels it plots can
be read off.  The walk is the one of the library, mirrored to the direction of the line
(`lineLoop_step`).
-/

namespace MioOS

namespace Console

open ByteMemory Segment

/-! ## `int` -/

/-- The result of a computation with `int`s, which is undefined when it overflows. -/
def int (v : ℤ) : Option ℤ := if -2 ^ 31 ≤ v ∧ v < 2 ^ 31 then some v else none

/-- A `uint32_t` as an `int`. -/
def intOfU32 (n : ℕ) : ℤ := if n < 2 ^ 31 then n else n - 2 ^ 32

/-- `abs` of `math.cpp`. -/
protected def abs (x : ℤ) : Option ℤ := if x ≥ 0 then some x else int (-x)

/-! ## `draw_line` -/

/-- The variables of `draw_line` that its loop only reads. -/
structure LineVars where
  x1 : ℤ
  y1 : ℤ
  dx : ℤ
  dy : ℤ
  sx : ℤ
  sy : ℤ

/-- `err += d; x += s;` when the error says so. -/
def nudge (p : Prop) [Decidable p] (err d x s : ℤ) : Option (ℤ × ℤ) :=
  if p then do return (← int (err + d), ← int (x + s)) else some (err, x)

section DrawLine

variable {σ : Type} (plot : ℤ → ℤ → σ → σ)

/-- The loop of `draw_line`, for a number of iterations. -/
def lineLoop (l : LineVars) : ℕ → ℤ → ℤ → ℤ → σ → Option σ
  | 0, _, _, _, _ => none
  | fuel + 1, x, y, err, s =>
    let s := plot x y s
    if x = l.x1 ∧ y = l.y1 then some s
    else do
      let e2 ← int (2 * err)
      let (err, x) ← nudge (e2 ≥ l.dy) err l.dy x l.sx
      let (err, y) ← nudge (e2 ≤ l.dx) err l.dx y l.sy
      lineLoop l fuel x y err s

/-- **`draw_line`**, where `plot` is what it does with each pixel. -/
def drawLine (x0 y0 x1 y1 : ℕ) (fuel : ℕ) (s : σ) : Option σ := do
  let dx ← Console.abs (← int (intOfU32 x1 - intOfU32 x0))
  let sx := if x0 < x1 then 1 else -1
  let dy ← int (-(← Console.abs (← int (intOfU32 y1 - intOfU32 y0))))
  let sy := if y0 < y1 then 1 else -1
  let err ← int (dx + dy)
  lineLoop plot ⟨intOfU32 x1, intOfU32 y1, dx, dy, sx, sy⟩ fuel (intOfU32 x0) (intOfU32 y0) err s

end DrawLine

/-- `draw_line` on the framebuffer. -/
def drawLineOn (fb : FramebufferDriver) (x0 y0 x1 y1 : ℕ) (color : UInt32) (fuel : ℕ) (m : Mem) :
    Option Mem :=
  drawLine (fun x y m => putPixel fb (u32 (x % 2 ^ 32).toNat) (u32 (y % 2 ^ 32).toNat) color m)
    x0 y0 x1 y1 fuel m

/-- **The pixels of a line** from `(x0, y0)` to `(x1, y1)`: one more than the longer distance, from end
to end, inside the box of the ends, each next to the one before, and a step further along the longer
axis. -/
structure IsLine (x0 y0 x1 y1 : ℤ) (pixels : List (ℤ × ℤ)) : Prop where
  length : (pixels.length : ℤ) = max |x1 - x0| |y1 - y0| + 1
  first : pixels.head? = some (x0, y0)
  last : pixels.getLast? = some (x1, y1)
  inside : ∀ p ∈ pixels, (min x0 x1 ≤ p.1 ∧ p.1 ≤ max x0 x1) ∧ min y0 y1 ≤ p.2 ∧ p.2 ≤ max y0 y1
  adjacent : pixels.IsChain fun p q => (|q.1 - p.1| ≤ 1 ∧ |q.2 - p.2| ≤ 1) ∧
    (|y1 - y0| ≤ |x1 - x0| → |q.1 - p.1| = 1) ∧ (|x1 - x0| ≤ |y1 - y0| → |q.2 - p.2| = 1)

/-! ## The walk -/

/-- **The variables fit the ends** of a line with these distances. -/
structure Spans (l : LineVars) (x0 y0 a b : ℤ) : Prop where
  a_nonneg : 0 ≤ a
  b_nonneg : 0 ≤ b
  a_lt : a < 2 ^ 29
  b_lt : b < 2 ^ 29
  dx : l.dx = a
  dy : l.dy = -b
  sx : l.sx = 1 ∨ l.sx = -1
  sy : l.sy = 1 ∨ l.sy = -1
  x1 : l.x1 = x0 + l.sx * a
  y1 : l.y1 = y0 + l.sy * b
  x0_mem : 0 ≤ x0 ∧ x0 < 2 ^ 29
  y0_mem : 0 ≤ y0 ∧ y0 < 2 ^ 29

/-- The pixel at a cursor. -/
def LineVars.pixel (l : LineVars) (x0 y0 : ℤ) (c : Cursor) : ℤ × ℤ := (x0 + l.sx * c.i, y0 + l.sy * c.j)

variable {σ : Type} {plot : ℤ → ℤ → σ → σ} {l : LineVars} {x0 y0 a b x y v : ℤ} {c : Cursor} {s : σ}
  {fuel k n : ℕ}

theorem int_of_bounds (h : -2 ^ 31 ≤ v ∧ v < 2 ^ 31) : int v = some v := if_pos h

/-- A product with a sign. -/
theorem sign_mul {t : ℤ} (ht : t = 1 ∨ t = -1) (v : ℤ) : t * v = v ∨ t * v = -v := by
  rcases ht with rfl | rfl
  · exact Or.inl (one_mul v)
  · exact Or.inr (neg_one_mul v)

theorem mul_ite_succ (p : Prop) [Decidable p] (t v : ℤ) :
    t * (if p then v + 1 else v) = t * v + if p then t else 0 := by
  split <;> ring

/-- **On the end** exactly when the cursor is. -/
theorem Spans.pixel_eq_end_iff (h : Spans l x0 y0 a b) (c : Cursor) :
    ((l.pixel x0 y0 c).1 = l.x1 ∧ (l.pixel x0 y0 c).2 = l.y1) ↔ c.i = a ∧ c.j = b := by
  rw [LineVars.pixel, h.x1, h.y1]
  rcases h.sx with hx | hx <;> rcases h.sy with hy | hy <;> rw [hx, hy] <;> dsimp only <;> omega

theorem nudge_eq {p : Prop} [Decidable p] {err d t : ℤ} (herr : -2 ^ 31 ≤ err + d ∧ err + d < 2 ^ 31)
    (hx : -2 ^ 31 ≤ x + t ∧ x + t < 2 ^ 31) :
    nudge p err d x t = some (err + if p then d else 0, x + if p then t else 0) := by
  rw [nudge]
  split
  · rw [int_of_bounds herr, int_of_bounds hx]
    rfl
  · rw [add_zero, add_zero]

/-- **One iteration is one step of the walk**, and nothing overflows. -/
theorem lineLoop_step (h : Spans l x0 y0 a b) (hc : Inside a b c) (hne : ¬ (c.i = a ∧ c.j = b)) :
    lineLoop plot l (fuel + 1) (l.pixel x0 y0 c).1 (l.pixel x0 y0 c).2 c.e s
      = lineLoop plot l fuel (l.pixel x0 y0 (c.step a b)).1 (l.pixel x0 y0 (c.step a b)).2
          (c.step a b).e (plot (l.pixel x0 y0 c).1 (l.pixel x0 y0 c).2 s) := by
  obtain ⟨ha, hb, ha', hb', hdx, hdy, hsx, hsy, -, -, hx0, hy0⟩ := id h
  obtain ⟨hi, hi', hj, hj', hlow, hhigh⟩ := hc
  rw [lineLoop]
  dsimp only
  rw [if_neg (mt (h.pixel_eq_end_iff c).mp hne), int_of_bounds (v := 2 * c.e) (by omega)]
  have hmx : l.sx * c.i = c.i ∨ l.sx * c.i = -c.i := sign_mul hsx c.i
  have hmy : l.sy * c.j = c.j ∨ l.sy * c.j = -c.j := sign_mul hsy c.j
  have hx : nudge (2 * c.e ≥ l.dy) c.e l.dy (x0 + l.sx * c.i) l.sx
      = some (c.e + if 2 * c.e ≥ l.dy then l.dy else 0,
          x0 + l.sx * c.i + if 2 * c.e ≥ l.dy then l.sx else 0) :=
    nudge_eq (by omega) (by omega)
  have hy : nudge (2 * c.e ≤ l.dx) (c.e + if 2 * c.e ≥ l.dy then l.dy else 0) l.dx
      (y0 + l.sy * c.j) l.sy
      = some (c.e + (if 2 * c.e ≥ l.dy then l.dy else 0) + (if 2 * c.e ≤ l.dx then l.dx else 0),
          y0 + l.sy * c.j + if 2 * c.e ≤ l.dx then l.sy else 0) :=
    nudge_eq (by split <;> omega) (by omega)
  simp only [LineVars.pixel, Option.bind_eq_bind, Option.bind_some, hx, hy]
  simp only [Cursor.step, mul_ite_succ, add_assoc, hdx, hdy, ge_iff_le]

/-! ## The run -/

/-- The pixels at `d` places of the walk, the first of them after `k` steps. -/
def LineVars.pixels (l : LineVars) (x0 y0 a b : ℤ) (k d : ℕ) : List (ℤ × ℤ) :=
  (List.range' k d).map fun k => l.pixel x0 y0 (walk a b k)

/-- **The loop plots the rest of the walk** from wherever it is on it: by induction on what is left,
since the walk is on the end only after its last step. -/
theorem lineLoop_walk (h : Spans l x0 y0 a b) (hk : k + n = steps a b) (hfuel : n < fuel) :
    lineLoop plot l fuel (l.pixel x0 y0 (walk a b k)).1 (l.pixel x0 y0 (walk a b k)).2
        (walk a b k).e s
      = some ((l.pixels x0 y0 a b k (n + 1)).foldl (fun s p => plot p.1 p.2 s) s) := by
  induction n generalizing k fuel s with
  | zero =>
    obtain ⟨fuel, rfl⟩ : ∃ f, fuel = f + 1 := ⟨fuel - 1, by omega⟩
    obtain rfl : k = steps a b := hk
    rw [lineLoop]
    exact if_pos ((h.pixel_eq_end_iff _).mpr (walk_end h.a_nonneg h.b_nonneg))
  | succ n ih =>
    obtain ⟨fuel, rfl⟩ : ∃ f, fuel = f + 1 := ⟨fuel - 1, by omega⟩
    have hlt : k < steps a b := by omega
    rw [lineLoop_step h (inside_walk h.a_nonneg h.b_nonneg hlt.le)
      (walk_ne_end h.a_nonneg h.b_nonneg hlt)]
    exact ih (k := k + 1) (by omega) (by omega)

theorem abs_sign_mul {t : ℤ} (ht : t = 1 ∨ t = -1) (hv : 0 ≤ v) : |t * v| = v := by
  rcases ht with rfl | rfl
  · rw [one_mul, abs_of_nonneg hv]
  · rw [neg_one_mul, abs_neg, abs_of_nonneg hv]

/-- The step from one place to the next, along both axes. -/
theorem Spans.pixel_succ (h : Spans l x0 y0 a b) (c : Cursor) :
    |(l.pixel x0 y0 (c.step a b)).1 - (l.pixel x0 y0 c).1| = (c.step a b).i - c.i ∧
      |(l.pixel x0 y0 (c.step a b)).2 - (l.pixel x0 y0 c).2| = (c.step a b).j - c.j := by
  have hx : x0 + l.sx * (c.step a b).i - (x0 + l.sx * c.i) = l.sx * ((c.step a b).i - c.i) := by ring
  have hy : y0 + l.sy * (c.step a b).j - (y0 + l.sy * c.j) = l.sy * ((c.step a b).j - c.j) := by ring
  obtain ⟨hi, hj⟩ := step_le a b c
  simp only [LineVars.pixel, hx, hy]
  exact ⟨abs_sign_mul h.sx (by omega), abs_sign_mul h.sy (by omega)⟩

theorem Spans.pixel_mem (h : Spans l x0 y0 a b) (hc : Inside a b c) :
    (min x0 l.x1 ≤ (l.pixel x0 y0 c).1 ∧ (l.pixel x0 y0 c).1 ≤ max x0 l.x1) ∧
      min y0 l.y1 ≤ (l.pixel x0 y0 c).2 ∧ (l.pixel x0 y0 c).2 ≤ max y0 l.y1 := by
  obtain ⟨hi, hi', hj, hj', -, -⟩ := hc
  rw [LineVars.pixel, h.x1, h.y1]
  rcases h.sx with hx | hx <;> rcases h.sy with hy | hy <;> rw [hx, hy] <;> dsimp only <;> omega

/-- **The whole walk is a line.** -/
theorem Spans.isLine (h : Spans l x0 y0 a b) :
    IsLine x0 y0 l.x1 l.y1 (l.pixels x0 y0 a b 0 (steps a b + 1)) := by
  have hdx : |l.x1 - x0| = a := by
    rw [h.x1, add_sub_cancel_left, abs_sign_mul h.sx h.a_nonneg]
  have hdy : |l.y1 - y0| = b := by
    rw [h.y1, add_sub_cancel_left, abs_sign_mul h.sy h.b_nonneg]
  refine ⟨?_, ?_, ?_, ?_, ?_⟩
  · rw [LineVars.pixels, List.length_map, List.length_range', hdx, hdy, steps]
    have := le_max_left a b
    have := h.a_nonneg
    omega
  · simp [LineVars.pixels, List.range'_succ, walk, LineVars.pixel]
  · have hend := (h.pixel_eq_end_iff _).mpr (walk_end h.a_nonneg h.b_nonneg)
    rw [LineVars.pixels, List.range'_1_concat, List.map_append, List.map_singleton, zero_add,
      List.getLast?_concat, ← hend.1, ← hend.2]
  · intro p hp
    obtain ⟨k, hk, rfl⟩ := List.mem_map.mp hp
    have hk' := (List.mem_range'_1.mp hk).2
    exact h.pixel_mem (inside_walk h.a_nonneg h.b_nonneg (by omega))
  · rw [LineVars.pixels, List.isChain_map, ← List.range_eq_range', List.isChain_range_succ, hdx, hdy]
    intro k hk
    obtain ⟨hpx, hpy⟩ := h.pixel_succ (walk a b k)
    obtain ⟨hi, hj⟩ := step_le a b (walk a b k)
    rw [Nat.succ_eq_add_one, walk, hpx, hpy]
    refine ⟨by omega, fun hab => ?_, fun hab => ?_⟩
    · have hnow := walk_i h.b_nonneg hab k
      have hnext := walk_i h.b_nonneg hab (k + 1)
      rw [walk] at hnext
      push_cast at hnext
      omega
    · have hnow := walk_j h.a_nonneg hab k
      have hnext := walk_j h.a_nonneg hab (k + 1)
      rw [walk] at hnext
      push_cast at hnext
      omega

/-! ## `draw_line` -/

theorem intOfU32_of_lt (hn : n < 2 ^ 31) : intOfU32 n = n := if_pos hn

theorem abs_eq (hv : -2 ^ 31 < v ∧ v < 2 ^ 31) : Console.abs v = some |v| := by
  rw [Console.abs]
  split
  · next hge => rw [abs_of_nonneg hge]
  · next hlt => rw [abs_of_neg (not_le.mp hlt), int_of_bounds (by omega)]

/-- The variables of `draw_line` from one end to the other. -/
def LineVars.of (x0 y0 x1 y1 : ℕ) : LineVars where
  x1 := x1
  y1 := y1
  dx := |(x1 : ℤ) - x0|
  dy := -|(y1 : ℤ) - y0|
  sx := if x0 < x1 then 1 else -1
  sy := if y0 < y1 then 1 else -1

/-- A coordinate is the other one and the distance, in the direction between them. -/
theorem eq_add_sign_mul (u v : ℕ) : (v : ℤ) = u + (if u < v then 1 else -1) * |(v : ℤ) - u| := by
  split
  · rw [abs_of_nonneg (by omega)]
    ring
  · rw [abs_of_nonpos (by omega)]
    ring

theorem sign_cases (u v : ℕ) : (if u < v then (1 : ℤ) else -1) = 1 ∨ (if u < v then (1 : ℤ) else -1) = -1 := by
  split
  · exact Or.inl rfl
  · exact Or.inr rfl

theorem abs_sub_lt {u v : ℕ} (hu : u < 2 ^ 29) (hv : v < 2 ^ 29) : |(v : ℤ) - u| < 2 ^ 29 :=
  abs_sub_lt_iff.mpr ⟨by omega, by omega⟩

theorem spans_of {x0 y0 x1 y1 : ℕ} (hx0 : x0 < 2 ^ 29) (hy0 : y0 < 2 ^ 29) (hx1 : x1 < 2 ^ 29)
    (hy1 : y1 < 2 ^ 29) :
    Spans (LineVars.of x0 y0 x1 y1) x0 y0 |(x1 : ℤ) - x0| |(y1 : ℤ) - y0| where
  a_nonneg := abs_nonneg _
  b_nonneg := abs_nonneg _
  a_lt := abs_sub_lt hx0 hx1
  b_lt := abs_sub_lt hy0 hy1
  dx := rfl
  dy := rfl
  sx := sign_cases x0 x1
  sy := sign_cases y0 y1
  x1 := eq_add_sign_mul x0 x1
  y1 := eq_add_sign_mul y0 y1
  x0_mem := by omega
  y0_mem := by omega

/-- **`draw_line` is its loop** on these variables: none of the computations before it overflows. -/
theorem drawLine_eq {x0 y0 x1 y1 : ℕ} (hx0 : x0 < 2 ^ 29) (hy0 : y0 < 2 ^ 29) (hx1 : x1 < 2 ^ 29)
    (hy1 : y1 < 2 ^ 29) :
    drawLine plot x0 y0 x1 y1 fuel s
      = lineLoop plot (LineVars.of x0 y0 x1 y1) fuel x0 y0 (|(x1 : ℤ) - x0| - |(y1 : ℤ) - y0|) s := by
  have hdx := abs_sub_lt hx0 hx1
  have hdy := abs_sub_lt hy0 hy1
  have hdx0 := abs_nonneg ((x1 : ℤ) - x0)
  have hdy0 := abs_nonneg ((y1 : ℤ) - y0)
  rw [drawLine, intOfU32_of_lt (by omega), intOfU32_of_lt (by omega), intOfU32_of_lt (by omega),
    intOfU32_of_lt (by omega), int_of_bounds (v := (x1 : ℤ) - x0) (by omega),
    int_of_bounds (v := (y1 : ℤ) - y0) (by omega)]
  simp only [Option.bind_eq_bind, Option.bind_some, abs_eq (v := (x1 : ℤ) - x0) (by omega),
    abs_eq (v := (y1 : ℤ) - y0) (by omega), int_of_bounds (v := -|(y1 : ℤ) - y0|) (by omega)]
  rw [← sub_eq_add_neg, int_of_bounds (by omega), Option.bind_some]
  rfl

/-- The pixels of `draw_line`. -/
def linePixels (x0 y0 x1 y1 : ℕ) : List (ℤ × ℤ) :=
  (LineVars.of x0 y0 x1 y1).pixels x0 y0 |(x1 : ℤ) - x0| |(y1 : ℤ) - y0| 0
    (steps |(x1 : ℤ) - x0| |(y1 : ℤ) - y0| + 1)

theorem isLine_linePixels {x0 y0 x1 y1 : ℕ} (hx0 : x0 < 2 ^ 29) (hy0 : y0 < 2 ^ 29)
    (hx1 : x1 < 2 ^ 29) (hy1 : y1 < 2 ^ 29) : IsLine x0 y0 x1 y1 (linePixels x0 y0 x1 y1) :=
  (spans_of hx0 hy0 hx1 hy1).isLine

/-- **`draw_line` plots its pixels**, one after the other, and stops. -/
theorem drawLine_eq_foldl {x0 y0 x1 y1 : ℕ} (hx0 : x0 < 2 ^ 29) (hy0 : y0 < 2 ^ 29)
    (hx1 : x1 < 2 ^ 29) (hy1 : y1 < 2 ^ 29) (hfuel : (linePixels x0 y0 x1 y1).length ≤ fuel) :
    drawLine plot x0 y0 x1 y1 fuel s
      = some ((linePixels x0 y0 x1 y1).foldl (fun s p => plot p.1 p.2 s) s) := by
  rw [linePixels, LineVars.pixels, List.length_map, List.length_range'] at hfuel
  rw [linePixels, drawLine_eq hx0 hy0 hx1 hy1,
    ← lineLoop_walk (k := 0) (spans_of hx0 hy0 hx1 hy1) (Nat.zero_add _) hfuel]
  simp only [walk, LineVars.pixel, mul_zero, add_zero]

/-- **`draw_line` ends on its end**: for ends with small coordinates nothing overflows and the loop
stops, having plotted the pixels of the line one after the other. -/
theorem drawLine_line (x0 y0 x1 y1 : ℕ) (hx0 : x0 < 2 ^ 29) (hy0 : y0 < 2 ^ 29) (hx1 : x1 < 2 ^ 29)
    (hy1 : y1 < 2 ^ 29) :
    ∃ pixels, IsLine x0 y0 x1 y1 pixels ∧
      ∀ (σ : Type) (plot : ℤ → ℤ → σ → σ) (s : σ) (fuel : ℕ), pixels.length ≤ fuel →
        drawLine plot x0 y0 x1 y1 fuel s = some (pixels.foldl (fun s p => plot p.1 p.2 s) s) :=
  ⟨linePixels x0 y0 x1 y1, isLine_linePixels hx0 hy0 hx1 hy1,
    fun _ _ _ _ hfuel => drawLine_eq_foldl hx0 hy0 hx1 hy1 hfuel⟩

/-- A line that rises by one. -/
theorem drawLine_line_rising : ∃ pixels, IsLine (0 : ℕ) (0 : ℕ) (3 : ℕ) (1 : ℕ) pixels ∧
    ∀ (σ : Type) (plot : ℤ → ℤ → σ → σ) (s : σ) (fuel : ℕ), pixels.length ≤ fuel →
      drawLine plot 0 0 3 1 fuel s = some (pixels.foldl (fun s p => plot p.1 p.2 s) s) :=
  drawLine_line 0 0 3 1 (by decide) (by decide) (by decide) (by decide)

theorem IsLine.mem_nat {x0 y0 x1 y1 : ℕ} {pixels : List (ℤ × ℤ)} (h : IsLine x0 y0 x1 y1 pixels)
    (hx0 : x0 < 2 ^ 29) (hy0 : y0 < 2 ^ 29) (hx1 : x1 < 2 ^ 29) (hy1 : y1 < 2 ^ 29) {p : ℤ × ℤ}
    (hp : p ∈ pixels) : (0 ≤ p.1 ∧ p.1 < 2 ^ 29) ∧ 0 ≤ p.2 ∧ p.2 < 2 ^ 29 := by
  obtain ⟨⟨hlow, hhigh⟩, hlow', hhigh'⟩ := h.inside p hp
  omega

/-- **On the framebuffer** the coordinates are handed to `put_pixel` as they are. -/
theorem drawLineOn_eq_foldl {fb : FramebufferDriver} {color : UInt32} {m : Mem} {x0 y0 x1 y1 : ℕ}
    (hx0 : x0 < 2 ^ 29) (hy0 : y0 < 2 ^ 29) (hx1 : x1 < 2 ^ 29) (hy1 : y1 < 2 ^ 29)
    (hfuel : (linePixels x0 y0 x1 y1).length ≤ fuel) :
    drawLineOn fb x0 y0 x1 y1 color fuel m
      = some ((linePixels x0 y0 x1 y1).foldl
          (fun m p => putPixel fb p.1.toNat p.2.toNat color m) m) := by
  rw [drawLineOn, drawLine_eq_foldl hx0 hy0 hx1 hy1 hfuel]
  refine congrArg some (List.foldl_ext _ _ _ fun m p hp => ?_)
  obtain ⟨hx, hy⟩ := (isLine_linePixels hx0 hy0 hx1 hy1).mem_nat hx0 hy0 hx1 hy1 hp
  rw [u32_of_lt (by omega), u32_of_lt (by omega), Int.emod_eq_of_lt hx.1 (by omega),
    Int.emod_eq_of_lt hy.1 (by omega)]

end Console

end MioOS
