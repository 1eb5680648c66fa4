import MioOS.Paging.Refinement

/-!
# Paging/Address — splitting a virtual address and joining it again

`decompose` cuts the low 48 bits of an address into four indices and an offset and forgets the rest;
`compose` puts the fields side by side and copies bit 47 upwards.  The fields of a number below
`2 ^ 48` are its digits, so the two are inverse, up to the sixteen bits `decompose` forgets.
-/

namespace MioOS

namespace Paging

namespace VirtualAddressFields

/-- **`compose`.** -/
def compose (pml4 pdpt pd pt offset : ℕ) : ℕ :=
  let va := u64 (pml4 <<< 39) ||| u64 (pdpt <<< 30) ||| u64 (pd <<< 21) ||| u64 (pt <<< 12) ||| offset
  -- sign extension of bit 47
  if va &&& 1 <<< 47 ≠ 0 then va ||| 0xFFFF000000000000 else va

/-- The number whose digits the fields are. -/
def low (f : VirtualAddressFields) : ℕ :=
  f.pml4Index * 2 ^ 39 + f.pdptIndex * 2 ^ 30 + f.pdIndex * 2 ^ 21 + f.ptIndex * 2 ^ 12 + f.pageOffset

/-- `compose` of all five fields. -/
def join (f : VirtualAddressFields) : ℕ :=
  compose f.pml4Index f.pdptIndex f.pdIndex f.ptIndex f.pageOffset

variable {f g : VirtualAddressFields} {va wa n : ℕ}

theorem low_lt (f : VirtualAddressFields) : f.low < 2 ^ 48 := by
  obtain ⟨i, j, k, l, o⟩ := f
  simp only [low]
  omega

/-- **The fields are digits.** -/
theorem decompose_eq_iff : decompose n = f ↔ n % 2 ^ 48 = f.low := by
  obtain ⟨i, j, k, l, o⟩ := f
  simp only [decompose, low, mk.injEq, Fin.ext_iff, Fin.ofNat, Nat.shiftRight_eq_div_pow]
  omega

theorem low_decompose (n : ℕ) : (decompose n).low = n % 2 ^ 48 := (decompose_eq_iff.mp rfl).symm

/-- Fields beside each other do not meet: their `|||` is a sum. -/
theorem or_eq_low (f : VirtualAddressFields) :
    u64 (f.pml4Index.val <<< 39) ||| u64 (f.pdptIndex.val <<< 30) ||| u64 (f.pdIndex.val <<< 21) |||
      u64 (f.ptIndex.val <<< 12) ||| f.pageOffset.val = f.low := by
  obtain ⟨i, j, k, l, o⟩ := f
  have hshift : ∀ {s : ℕ} (x : Fin 512), s ≤ 39 → u64 (x.val <<< s) = 2 ^ s * x := by
    intro s x hs
    rw [Nat.shiftLeft_eq, Nat.mul_comm]
    refine u64_of_lt ((Nat.mul_lt_mul_of_le_of_lt (Nat.pow_le_pow_right two_pos hs) x.isLt ?_).trans_le ?_)
    · positivity
    · norm_num
  have h₁ : 2 ^ 39 * i.val ||| 2 ^ 30 * j.val = 2 ^ 30 * (2 ^ 9 * i + j) := by
    rw [← Nat.two_pow_add_eq_or_of_lt (by omega)]
    omega
  have h₂ : 2 ^ 30 * (2 ^ 9 * i.val + j) ||| 2 ^ 21 * k.val = 2 ^ 21 * (2 ^ 18 * i + 2 ^ 9 * j + k) := by
    rw [← Nat.two_pow_add_eq_or_of_lt (by omega)]
    omega
  have h₃ : 2 ^ 21 * (2 ^ 18 * i.val + 2 ^ 9 * j + k) ||| 2 ^ 12 * l.val
      = 2 ^ 12 * (2 ^ 27 * i + 2 ^ 18 * j + 2 ^ 9 * k + l) := by
    rw [← Nat.two_pow_add_eq_or_of_lt (by omega)]
    omega
  dsimp only
  rw [hshift i le_rfl, hshift j (by norm_num), hshift k (by norm_num), hshift l (by norm_num), h₁, h₂,
    h₃, ← Nat.two_pow_add_eq_or_of_lt (by omega)]
  simp only [low]
  omega

/-- **What joining gives**: the digits, with ones above them when bit 47 is set. -/
theorem join_eq (f : VirtualAddressFields) :
    f.join = if f.low < 2 ^ 47 then f.low else 2 ^ 64 - 2 ^ 48 + f.low := by
  have hlow := f.low_lt
  have hbit : f.low.testBit 47 = decide (¬ f.low < 2 ^ 47) := by
    rw [Nat.testBit_eq_decide_div_mod_eq]
    congr 1
    simp only [eq_iff_iff]
    omega
  have hones : f.low ||| 0xFFFF000000000000 = 2 ^ 64 - 2 ^ 48 + f.low := by
    rw [Nat.or_comm, show 0xFFFF000000000000 = 2 ^ 48 * 0xFFFF by norm_num,
      ← Nat.two_pow_add_eq_or_of_lt hlow]
    norm_num
  rw [join, compose, or_eq_low, Nat.one_shiftLeft, Nat.and_two_pow, hbit, hones]
  by_cases h : f.low < 2 ^ 47
  · rw [if_pos h, decide_eq_false (not_not.mpr h), if_neg (by simp)]
  · rw [if_neg h, decide_eq_true h, if_pos (by simp)]

/-- **A canonical address** in terms of its bits: the seventeen from bit 47 on are equal. -/
theorem canonical_iff_testBit (va : UInt64) :
    Canonical va.toNat ↔ ∀ i, 48 ≤ i → i < 64 → va.toNat.testBit i = va.toNat.testBit 47 := by
  have hlt := va.toNat_lt
  generalize va.toNat = v at hlt ⊢
  have hhigh : v / 2 ^ 47 < 2 ^ 17 := by omega
  have hcanonical : Canonical v ↔ v / 2 ^ 47 = 0 ∨ v / 2 ^ 47 = 2 ^ 17 - 1 := by
    rw [Canonical]
    omega
  have hbit : ∀ i, 47 ≤ i → v.testBit i = (v / 2 ^ 47).testBit (i - 47) := by
    intro i hi
    rw [Nat.testBit_div_two_pow, Nat.sub_add_cancel hi]
  rw [hcanonical]
  constructor
  · intro h i h₁ h₂
    rw [hbit i (by omega), hbit 47 le_rfl]
    rcases h with h | h
    · rw [h, Nat.zero_testBit, Nat.zero_testBit]
    · rw [h, Nat.testBit_two_pow_sub_one, Nat.testBit_two_pow_sub_one, decide_eq_true (by omega),
        decide_eq_true (by omega)]
  · intro h
    have hall : ∀ i < 17, (v / 2 ^ 47).testBit i = v.testBit 47 := by
      intro i hi
      rcases i.eq_zero_or_pos with rfl | hpos
      · rw [hbit 47 le_rfl]
      · rw [← h (i + 47) (by omega) (by omega), hbit _ (by omega), Nat.add_sub_cancel]
    cases hsign : v.testBit 47 with
    | false =>
      refine Or.inl (Nat.eq_of_testBit_eq fun i => ?_)
      rw [Nat.zero_testBit]
      by_cases hi : i < 17
      · rw [hall i hi, hsign]
      · exact Nat.testBit_lt_two_pow (hhigh.trans_le (Nat.pow_le_pow_right two_pos (not_lt.mp hi)))
    | true =>
      refine Or.inr (Nat.eq_of_testBit_eq fun i => ?_)
      rw [Nat.testBit_two_pow_sub_one]
      by_cases hi : i < 17
      · rw [hall i hi, hsign, decide_eq_true hi]
      · rw [decide_eq_false hi]
        exact Nat.testBit_lt_two_pow (hhigh.trans_le (Nat.pow_le_pow_right two_pos (not_lt.mp hi)))

/-- Splitting what was joined. -/
theorem decompose_join (f : VirtualAddressFields) : decompose f.join = f := by
  have hlow := f.low_lt
  rw [decompose_eq_iff, join_eq]
  split <;> omega

/-- Joining what was split sign-extends its low 48 bits. -/
theorem join_decompose_eq_iff (hva : va < 2 ^ 64) : (decompose va).join = va ↔ Canonical va := by
  rw [join_eq, low_decompose, Canonical]
  split <;> omega

/-- **Splitting and joining are inverse**: on fields always, on addresses exactly where they are
canonical, so that no two canonical addresses have the same fields. -/
theorem split_join_inverse :
    (∀ (pml4 pdpt pd pt : Fin 512) (offset : Fin 4096),
      decompose (compose pml4 pdpt pd pt offset) = ⟨pml4, pdpt, pd, pt, offset⟩) ∧
    (∀ va : UInt64, (decompose va.toNat).join = va.toNat ↔
      ∀ i, 48 ≤ i → i < 64 → va.toNat.testBit i = va.toNat.testBit 47) ∧
    Set.InjOn decompose {va | Canonical va} := by
  refine ⟨fun pml4 pdpt pd pt offset => decompose_join ⟨pml4, pdpt, pd, pt, offset⟩,
    fun va => (join_decompose_eq_iff va.toNat_lt).trans (canonical_iff_testBit va), ?_⟩
  intro va hva wa hwa heq
  have hlt : ∀ {v : ℕ}, Canonical v → v < 2 ^ 64 := fun h => by
    rw [Canonical] at h
    omega
  calc va = (decompose va).join := ((join_decompose_eq_iff (hlt hva)).mpr hva).symm
    _ = (decompose wa).join := by rw [heq]
    _ = wa := (join_decompose_eq_iff (hlt hwa)).mpr hwa

end VirtualAddressFields

end Paging

end MioOS
