import MioOS.Library.ByteMemory

/-!
# Library/Copy — copying bytes whose ranges may overlap

`Mem.move` is a copy as it is meant: every byte at the destination is what the source's byte was
before.  A loop copies byte by byte, and reads a byte after it has written others.  Forwards that is
harmless when the destination does not start behind the source (`copy_eq_move`), backwards when it
does not start before it (`copyBack_eq_move`).
-/

namespace ByteMemory

namespace Mem

/-- **A copy through a snapshot.** -/
def move (m : Mem) (dest src n : ℕ) : Mem := fun x =>
  if dest ≤ x ∧ x < dest + n then m (src + (x - dest)) else m x

/-- Copy `n` bytes from `src` to `dest`, byte by byte and forwards. -/
def copy (m : Mem) (dest src : ℕ) : ℕ → Mem
  | 0 => m
  | n + 1 => copy (fun x => if x = dest then m src else m x) (dest + 1) (src + 1) n

/-- Copy the `n` bytes below `src` to below `dest`, byte by byte and backwards. -/
def copyBack (m : Mem) (dest src : ℕ) : ℕ → Mem
  | 0 => m
  | n + 1 =>
    copyBack (fun x => if x = dest - 1 then m (src - 1) else m x) (dest - 1) (src - 1) n

variable {m : Mem} {dest src n x i : ℕ}

theorem move_apply_add (hi : i < n) : m.move dest src n (dest + i) = m (src + i) := by
  rw [move, if_pos (by omega), Nat.add_sub_cancel_left]

theorem move_apply_of_notMem (hx : x ∉ Set.Ico dest (dest + n)) : m.move dest src n x = m x :=
  if_neg hx

/-- Copying a range to itself changes nothing. -/
theorem move_self : m.move dest dest n = m := by
  funext x
  rw [move]
  split
  · congr 1
    omega
  · rfl

/-- **Forwards**: what is still to be read lies above what has been written. -/
theorem copy_eq_move (h : dest ≤ src) : m.copy dest src n = m.move dest src n := by
  induction n generalizing m dest src with
  | zero =>
    funext x
    rw [copy, move, if_neg (by omega)]
  | succ n ih =>
    funext x
    rw [copy, ih (Nat.add_le_add_right h 1), move, move]
    by_cases hx : x = dest
    · rw [if_neg (by omega), if_pos hx, if_pos (by omega), hx, Nat.sub_self, Nat.add_zero]
    · by_cases hmem : dest ≤ x ∧ x < dest + (n + 1)
      · have hoff : src + 1 + (x - (dest + 1)) = src + (x - dest) := by omega
        rw [if_pos (by omega), if_neg (by omega), if_pos hmem, hoff]
      · rw [if_neg (by omega), if_neg hx, if_neg hmem]

/-- **Backwards**: what is still to be read lies below what has been written. -/
theorem copyBack_eq_move (h : src ≤ dest) :
    m.copyBack (dest + n) (src + n) n = m.move dest src n := by
  induction n generalizing m with
  | zero =>
    funext x
    rw [copyBack, move, if_neg (by omega)]
  | succ n ih =>
    funext x
    rw [copyBack, ← Nat.add_assoc, ← Nat.add_assoc, Nat.add_sub_cancel, Nat.add_sub_cancel, ih, move,
      move]
    by_cases hx : x = dest + n
    · rw [if_neg (by omega), if_pos hx, if_pos (by omega), hx, Nat.add_sub_cancel_left]
    · by_cases hmem : dest ≤ x ∧ x < dest + n
      · rw [if_pos hmem, if_neg (by omega), if_pos (by omega)]
      · rw [if_neg hmem, if_neg hx, if_neg (by omega)]

end Mem

end ByteMemory
