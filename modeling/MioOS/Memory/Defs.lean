import Mathlib.Tactic
import Mathlib.Data.Nat.Bitwise

/-!
# Memory/Defs — the constants of `mm_defs.hpp` and the alignment helpers of `mem_util.cpp`

Addresses, sizes and page counts are natural numbers; `u64` marks the places where the source's
64-bit arithmetic can wrap.
-/

namespace MioOS

/-- Truncation to the width of `usize`, `PhysAddr` and `VirtAddr`. -/
def u64 (n : ℕ) : ℕ := n % 2 ^ 64

/-- 64-bit subtraction. -/
def sub64 (a b : ℕ) : ℕ := u64 (a + 2 ^ 64 - b)

/-- Truncation to the width of `uint32_t`. -/
def u32 (n : ℕ) : ℕ := n % 2 ^ 32

/-- `PAGE_SHIFT`. -/
def pageShift : ℕ := 12

/-- `PAGE_SIZE`, 4 KiB. -/
def pageSize : ℕ := 4096

/-- `HHDM_BASE`, where physical memory is mapped into the address space. -/
def hhdmBase : ℕ := 0xFFFF800000000000

/-- `EARLY_BOOT_MAP_LIMIT`: the boot page tables map nothing above it. -/
def earlyBootMapLimit : ℕ := 0x40000000

/-- `BUDDY_MAX_ORDER`: the largest block is `PAGE_SIZE * 2 ^ 10` bytes. -/
def buddyMaxOrder : ℕ := 10

/-- `align_up` of `mem_util.cpp`. -/
def alignUp (value alignment : ℕ) : ℕ := u64 (value + (alignment - 1)) &&& (2 ^ 64 - alignment)

/-- `align_down` of `mem_util.cpp`. -/
def alignDown (value alignment : ℕ) : ℕ := value &&& (2 ^ 64 - alignment)

theorem u64_of_lt {n : ℕ} (h : n < 2 ^ 64) : u64 n = n := Nat.mod_eq_of_lt h

theorem u64_lt (n : ℕ) : u64 n < 2 ^ 64 := Nat.mod_lt _ (by norm_num)

theorem u32_of_lt {n : ℕ} (h : n < 2 ^ 32) : u32 n = n := Nat.mod_eq_of_lt h

theorem u32_lt (n : ℕ) : u32 n < 2 ^ 32 := Nat.mod_lt _ (by norm_num)

theorem u32_eq (n : ℕ) : u32 n = n % 2 ^ 32 := rfl

theorem u64_eq (n : ℕ) : u64 n = n % 2 ^ 64 := rfl

theorem sub64_eq (a b : ℕ) : sub64 a b = (a + 2 ^ 64 - b) % 2 ^ 64 := rfl

theorem sub64_lt (a b : ℕ) : sub64 a b < 2 ^ 64 := u64_lt _

theorem sub64_of_le {a b : ℕ} (ha : a < 2 ^ 64) (h : b ≤ a) : sub64 a b = a - b := by
  rw [sub64_eq]
  omega

-- unification must not unfold a remainder by `2 ^ 32` or `2 ^ 64`
attribute [irreducible] u32 u64 sub64

/-- Masking the low `k` bits off rounds down to a multiple of `2 ^ k`. -/
theorem and_mask_eq {x k : ℕ} (hx : x < 2 ^ 64) (hk : k ≤ 64) :
    x &&& (2 ^ 64 - 2 ^ k) = x / 2 ^ k * 2 ^ k := by
  have hk' : (2 : ℕ) ^ k - 1 < 2 ^ 64 :=
    lt_of_lt_of_le (Nat.sub_lt (Nat.two_pow_pos k) one_pos) (Nat.pow_le_pow_right (by omega) hk)
  have hmask : 2 ^ 64 - 2 ^ k = 2 ^ 64 - (2 ^ k - 1 + 1) := by
    have := Nat.two_pow_pos k
    omega
  refine Nat.eq_of_testBit_eq fun i => ?_
  rw [Nat.testBit_and, hmask, Nat.testBit_two_pow_sub_succ hk', Nat.testBit_two_pow_sub_one,
    Nat.mul_comm, Nat.testBit_two_pow_mul, Nat.testBit_div_two_pow]
  by_cases hik : k ≤ i
  · rw [Nat.sub_add_cancel hik]
    by_cases hi : i < 64
    · simp [hik, hi]
    · have hhigh : x.testBit i = false :=
        Nat.testBit_lt_two_pow (hx.trans_le (Nat.pow_le_pow_right (by omega) (by omega)))
      simp [hhigh]
  · simp [hik]
    omega

/-- `align_down` rounds down. -/
theorem alignDown_page {x : ℕ} (hx : x < 2 ^ 64) :
    alignDown x pageSize = x / pageSize * pageSize := by
  simpa [alignDown, pageSize] using and_mask_eq (k := 12) hx (by norm_num)

/-- `align_up` rounds the wrapped sum down. -/
theorem alignUp_eq (x : ℕ) : alignUp x pageSize = u64 (x + 4095) / pageSize * pageSize := by
  simpa [alignUp, pageSize] using and_mask_eq (k := 12) (u64_lt (x + 4095)) (by norm_num)

/-- `align_up` rounds up, as long as the sum does not wrap. -/
theorem alignUp_page {x : ℕ} (hx : x + 4095 < 2 ^ 64) :
    alignUp x pageSize = (x + 4095) / pageSize * pageSize := by
  rw [alignUp_eq, u64_of_lt hx]

end MioOS
