import MioOS.Library.ByteMemory

/-!
# Library/BitField — fields of a number and of the bytes in memory

`bits x lo w` is the field of `w` bits from bit `lo` up, `setBits` replaces it.  A field that was
written is read back (`bits_setBits_self`) and the fields below and above it stay.  `Mem.setField`
writes a field of one byte in memory.
-/

namespace BitField

open ByteMemory

/-- The field of `w` bits from bit `lo` up. -/
def bits (x lo w : ℕ) : ℕ := x / 2 ^ lo % 2 ^ w

/-- Replace the field of `w` bits from bit `lo` up. -/
def setBits (x lo w v : ℕ) : ℕ :=
  x % 2 ^ lo + 2 ^ lo * (v % 2 ^ w + 2 ^ w * (x / 2 ^ (lo + w)))

variable {x lo w lo' w' n v : ℕ}

theorem setBits_div : setBits x lo w v / 2 ^ lo = v % 2 ^ w + 2 ^ w * (x / 2 ^ (lo + w)) := by
  rw [setBits, Nat.add_mul_div_left _ _ (Nat.two_pow_pos lo),
    Nat.div_eq_of_lt (Nat.mod_lt _ (Nat.two_pow_pos lo)), Nat.zero_add]

theorem setBits_mod : setBits x lo w v % 2 ^ lo = x % 2 ^ lo := by
  rw [setBits, Nat.add_mul_mod_self_left, Nat.mod_mod]

/-- **A field that was written is read back.** -/
theorem bits_setBits_self : bits (setBits x lo w v) lo w = v % 2 ^ w := by
  rw [bits, setBits_div, Nat.add_mul_mod_self_left, Nat.mod_mod]

/-- A field does not depend on what is above it. -/
theorem bits_mod (h : lo + w ≤ n) : bits (x % 2 ^ n) lo w = bits x lo w := by
  obtain ⟨k, rfl⟩ := Nat.exists_eq_add_of_le h
  rw [bits, bits, show lo + w + k = lo + (w + k) by omega, pow_add, Nat.mod_mul_right_div_self,
    pow_add, Nat.mod_mul_right_mod]

/-- The fields below keep their values. -/
theorem bits_setBits_below (h : lo' + w' ≤ lo) : bits (setBits x lo w v) lo' w' = bits x lo' w' := by
  rw [← bits_mod h, setBits_mod, bits_mod h]

/-- So do the fields above. -/
theorem bits_setBits_above (h : lo + w ≤ lo') : bits (setBits x lo w v) lo' w' = bits x lo' w' := by
  obtain ⟨k, rfl⟩ := Nat.exists_eq_add_of_le h
  have hdiv : setBits x lo w v / 2 ^ (lo + w) = x / 2 ^ (lo + w) := by
    rw [pow_add, ← Nat.div_div_eq_div_mul, setBits_div, ← pow_add,
      Nat.add_mul_div_left _ _ (Nat.two_pow_pos w),
      Nat.div_eq_of_lt (Nat.mod_lt _ (Nat.two_pow_pos w)), Nat.zero_add]
  rw [bits, bits, pow_add 2 (lo + w) k, ← Nat.div_div_eq_div_mul, hdiv, Nat.div_div_eq_div_mul]

theorem add_mul_lt {a b A B : ℕ} (ha : a < A) (hb : b < B) : a + A * b < A * B :=
  calc a + A * b < A + A * b := Nat.add_lt_add_right ha _
    _ = A * (b + 1) := by ring
    _ ≤ A * B := Nat.mul_le_mul_left A hb

/-- A number keeps its width. -/
theorem setBits_lt (hx : x < 2 ^ n) (h : lo + w ≤ n) : setBits x lo w v < 2 ^ n := by
  obtain ⟨k, rfl⟩ := Nat.exists_eq_add_of_le h
  have hhigh : x / 2 ^ (lo + w) < 2 ^ k := by
    rw [Nat.div_lt_iff_lt_mul (Nat.two_pow_pos _), ← pow_add, Nat.add_comm]
    exact hx
  have hupper := add_mul_lt (Nat.mod_lt v (Nat.two_pow_pos w)) hhigh
  rw [← pow_add] at hupper
  rw [setBits, show lo + w + k = lo + (w + k) by omega, pow_add 2 lo (w + k)]
  exact add_mul_lt (Nat.mod_lt x (Nat.two_pow_pos lo)) hupper

/-! ## Fields in memory -/

/-- Write a field of a byte. -/
def setField (m : Mem) (a lo w v : ℕ) : Mem := m.store 1 a (setBits (m.load 1 a) lo w v)

/-- A field of a byte. -/
def field (m : Mem) (a lo w : ℕ) : ℕ := bits (m.load 1 a) lo w

variable {m m' : Mem} {a b k : ℕ}

theorem load_setField (h : lo + w ≤ 8) :
    (setField m a lo w v).load 1 a = setBits (m.load 1 a) lo w v :=
  Mem.load_store_of_lt (setBits_lt (m.load_lt 1 a) h)

theorem field_setField_self (h : lo + w ≤ 8) : field (setField m a lo w v) a lo w = v % 2 ^ w := by
  rw [field, load_setField h, bits_setBits_self]

theorem field_setField_below (h : lo + w ≤ 8) (hlo : lo' + w' ≤ lo) :
    field (setField m a lo w v) a lo' w' = field m a lo' w' := by
  rw [field, load_setField h, bits_setBits_below hlo, field]

theorem field_setField_above (h : lo + w ≤ 8) (hlo : lo + w ≤ lo') :
    field (setField m a lo w v) a lo' w' = field m a lo' w' := by
  rw [field, load_setField h, bits_setBits_above hlo, field]

theorem load_setField_of_ne (h : a < b ∨ b + k ≤ a) : (setField m a lo w v).load k b = m.load k b :=
  Mem.load_store_of_disjoint h

theorem setField_apply_of_ne (h : b ≠ a) : setField m a lo w v b = m b := by
  rcases Nat.lt_or_gt_of_ne h with h | h
  · exact Mem.store_apply_of_lt h
  · exact Mem.store_apply_of_ge h

end BitField
