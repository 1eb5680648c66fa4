import Mathlib.Tactic
import Mathlib.Data.Nat.Digits.Lemmas

/-!
# Library/Numeral — positional numerals

A numeral is a string of digits, the most significant first.  Every number has one without a leading
zero (`numeral`), reading it from left to right gives the number back (`value_numeral`), and no numeral
of the number is shorter (`length_numeral_le_of_value`).
-/

namespace Numeral

/-- **The digits of a number** in a base, and a single 0 for 0. -/
def numeral (b v : ℕ) : List ℕ := if v = 0 then [0] else (Nat.digits b v).reverse

/-- **What a string of digits says**, read from left to right. -/
def value (b : ℕ) (ds : List ℕ) : ℕ := ds.foldl (fun v d => v * b + d) 0

variable {b v k d : ℕ} {ds : List ℕ}

theorem numeral_of_ne_zero (hv : v ≠ 0) : numeral b v = (Nat.digits b v).reverse := if_neg hv

theorem value_reverse (b : ℕ) (ds : List ℕ) : value b ds.reverse = Nat.ofDigits b ds := by
  rw [value, List.foldl_reverse, Nat.ofDigits_eq_foldr]
  congr 1
  funext d v
  rw [Nat.mul_comm, Nat.add_comm]
  rfl

/-- **Reading a numeral back.** -/
theorem value_numeral (b v : ℕ) : value b (numeral b v) = v := by
  by_cases hv : v = 0
  · rw [numeral, if_pos hv, hv, value, List.foldl_cons, List.foldl_nil, Nat.zero_mul]
  · rw [numeral_of_ne_zero hv, value_reverse, Nat.ofDigits_digits]

theorem numeral_lt (hb : 1 < b) : ∀ d ∈ numeral b v, d < b := by
  intro d hd
  by_cases hv : v = 0
  · rw [numeral, if_pos hv, List.mem_singleton] at hd
    omega
  · rw [numeral_of_ne_zero hv, List.mem_reverse] at hd
    exact Nat.digits_lt_base hb hd

theorem numeral_ne_nil (b v : ℕ) : numeral b v ≠ [] := by
  by_cases hv : v = 0
  · rw [numeral, if_pos hv]
    exact List.cons_ne_nil _ _
  · rw [numeral_of_ne_zero hv]
    exact mt List.reverse_eq_nil_iff.mp (Nat.digits_ne_nil_iff_ne_zero.mpr hv)

theorem length_numeral_le (hb : 1 < b) (hk : 0 < k) (hv : v < b ^ k) : (numeral b v).length ≤ k := by
  by_cases h0 : v = 0
  · rw [numeral, if_pos h0]
    exact hk
  · rw [numeral_of_ne_zero h0, List.length_reverse]
    exact (Nat.digits_length_le_iff hb v).mpr hv

/-- **A numeral starts with 0** only if it is that of 0. -/
theorem numeral_head (h : (numeral b v).head? = some 0) : v = 0 := by
  by_contra hv
  have hne : Nat.digits b v ≠ [] := Nat.digits_ne_nil_iff_ne_zero.mpr hv
  rw [numeral_of_ne_zero hv, List.head?_reverse, List.getLast?_eq_some_getLast hne] at h
  exact Nat.getLast_digit_ne_zero b hv (Option.some.inj h)

theorem value_lt (hb : 1 < b) (h : ∀ d ∈ ds, d < b) : value b ds < b ^ ds.length := by
  have hrev : ∀ d ∈ ds.reverse, d < b := fun d hd => h d (List.mem_reverse.mp hd)
  have hlt := Nat.ofDigits_lt_base_pow_length hb hrev
  rwa [← value_reverse, List.reverse_reverse, List.length_reverse] at hlt

/-- **No numeral of a number is shorter.** -/
theorem length_numeral_le_of_value (hb : 1 < b) (h : ∀ d ∈ ds, d < b) (hne : ds ≠ [])
    (hv : value b ds = v) : (numeral b v).length ≤ ds.length :=
  length_numeral_le hb (List.length_pos_iff.mpr hne) (hv ▸ value_lt hb h)

end Numeral
