import Mathlib.Tactic
import Mathlib.Data.Nat.Bitwise
import Mathlib.Order.Interval.Set.Basic
import Mathlib.Order.Interval.Finset.Nat
import Mathlib.Data.Set.Card
import Mathlib.Order.CompletePartialOrder

/-!
# Library/BuddyBlocks — the maximal aligned blocks of a set

A block of order `k` is a run of `2 ^ k` numbers.  The blocks that start at a multiple of their own
size are either nested or disjoint, so a set `F` has a unique decomposition into *maximal* ones of
order at most `N`: those inside `F` whose enclosing block of the next order is not (`MaxBlock`).

A buddy system keeps exactly this decomposition.  Its two edits are

* `maxBlock_diff` — taking a maximal block out of `F` removes that block and no other;
* `maxBlock_union` — putting a block into `F` adds that block and no other, as long as its buddy is
  not wholly in `F`;

and `MaxBlock.buddy` says when a freed block must be merged instead.
-/

namespace BuddyBlocks

/-- The run of `2 ^ k` numbers from `p`. -/
def block (k p : ℕ) : Set ℕ := Set.Ico p (p + 2 ^ k)

/-- The start of the aligned block of order `k` around `p`. -/
def base (k p : ℕ) : ℕ := p / 2 ^ k * 2 ^ k

/-- The other half of the enclosing block of the next order. -/
def buddy (k p : ℕ) : ℕ := p ^^^ 2 ^ k

/-- A block of order at most `N` that starts at a multiple of its size, lies in `F`, and cannot be
grown inside `F`. -/
structure MaxBlock (N : ℕ) (F : Set ℕ) (k p : ℕ) : Prop where
  le : k ≤ N
  aligned : 2 ^ k ∣ p
  subset : block k p ⊆ F
  top : k = N ∨ ¬ block (k + 1) (base (k + 1) p) ⊆ F

/-- Where the maximal blocks start. -/
def starts (N : ℕ) (F : Set ℕ) : Set ℕ := {p | ∃ k, MaxBlock N F k p}

variable {N k j p q r : ℕ} {F : Set ℕ}

/-! ## Blocks and their bases -/

@[simp] theorem mem_block : q ∈ block k p ↔ p ≤ q ∧ q < p + 2 ^ k := Iff.rfl

theorem self_mem_block (k p : ℕ) : p ∈ block k p :=
  ⟨le_rfl, Nat.lt_add_of_pos_right (Nat.two_pow_pos k)⟩

@[simp] theorem block_zero (p : ℕ) : block 0 p = {p} := by
  ext q
  rw [mem_block, pow_zero, Set.mem_singleton_iff]
  omega

@[simp] theorem ncard_block (k p : ℕ) : (block k p).ncard = 2 ^ k := by
  rw [block, ← Finset.coe_Ico, Set.ncard_coe_finset, Nat.card_Ico, Nat.add_sub_cancel_left]

theorem base_le (k p : ℕ) : base k p ≤ p := Nat.div_mul_le_self p _

theorem base_dvd (k p : ℕ) : 2 ^ k ∣ base k p := Nat.dvd_mul_left _ _

theorem mem_block_base (k q : ℕ) : q ∈ block k (base k q) := by
  refine ⟨base_le k q, ?_⟩
  have := Nat.lt_div_mul_add (a := q) (Nat.two_pow_pos k)
  exact this

theorem base_of_dvd (h : 2 ^ k ∣ p) : base k p = p := Nat.div_mul_cancel h

@[simp] theorem base_zero (p : ℕ) : base 0 p = p := by simp [base]

/-- **An aligned block is named by any of its members.** -/
theorem base_eq_of_mem (h : 2 ^ k ∣ p) (hq : q ∈ block k p) : base k q = p := by
  obtain ⟨i, rfl⟩ := h
  have hi : q / 2 ^ k = i :=
    Nat.div_eq_of_lt_le (by rw [Nat.mul_comm]; exact hq.1)
      (by rw [Nat.mul_comm, Nat.mul_succ]; exact hq.2)
  rw [base, hi, Nat.mul_comm]

theorem base_base (h : k ≤ j) (p : ℕ) : base j (base k p) = base j p := by
  have hdiv : base k p / 2 ^ j = p / 2 ^ j := by
    obtain ⟨d, rfl⟩ := Nat.exists_eq_add_of_le h
    rw [base, pow_add, ← Nat.div_div_eq_div_mul, ← Nat.div_div_eq_div_mul,
      Nat.mul_div_cancel _ (Nat.two_pow_pos k)]
  rw [base, hdiv, base]

/-- **Aligned blocks nest**: the one of the smaller order is inside the other. -/
theorem block_base_subset (h : k ≤ j) (p : ℕ) : block k (base k p) ⊆ block j (base j p) := by
  intro q hq
  rw [← base_base h p, ← base_eq_of_mem (base_dvd k p) hq, base_base h]
  exact mem_block_base j q

/-- Two aligned blocks that meet are nested. -/
theorem block_subset_of_mem (h : k ≤ j) (hp : 2 ^ k ∣ p) (hr : 2 ^ j ∣ r) (hq : q ∈ block k p)
    (hq' : q ∈ block j r) : block k p ⊆ block j r := by
  rw [← base_eq_of_mem hp hq, ← base_eq_of_mem hr hq']
  exact block_base_subset h q

/-! ## Buddies -/

/-- **Where the buddy is**: an aligned block is the left or the right half of the enclosing one. -/
theorem buddy_cases (h : 2 ^ k ∣ p) :
    base (k + 1) p = p ∧ buddy k p = p + 2 ^ k ∨
      base (k + 1) p = buddy k p ∧ p = buddy k p + 2 ^ k := by
  obtain ⟨i, rfl⟩ := h
  have hbuddy : buddy k (2 ^ k * i) = 2 ^ k * (i ^^^ 1) := by
    have h1 : 2 ^ k * i = i <<< k := by rw [Nat.shiftLeft_eq, Nat.mul_comm]
    have h2 : (2 : ℕ) ^ k = 1 <<< k := by rw [Nat.shiftLeft_eq, Nat.one_mul]
    have h3 : 2 ^ k * (i ^^^ 1) = (i ^^^ 1) <<< k := by rw [Nat.shiftLeft_eq, Nat.mul_comm]
    rw [buddy, h1, h3, Nat.shiftLeft_xor_distrib, ← h2]
  have hbase : base (k + 1) (2 ^ k * i) = 2 ^ k * (i / 2 * 2) := by
    rw [base, pow_succ, ← Nat.div_div_eq_div_mul, Nat.mul_div_cancel_left _ (Nat.two_pow_pos k)]
    ring
  rw [hbuddy, hbase]
  rcases Nat.even_or_odd i with hi | hi
  · left
    rw [Nat.xor_one_of_even hi, Nat.div_mul_cancel hi.two_dvd]
    exact ⟨rfl, by ring⟩
  · right
    obtain ⟨m, rfl⟩ := hi
    rw [Nat.xor_one_of_odd ⟨m, rfl⟩]
    refine ⟨by congr 1; omega, ?_⟩
    rw [Nat.add_sub_cancel]
    ring

theorem buddy_dvd (h : 2 ^ k ∣ p) : 2 ^ k ∣ buddy k p := by
  rcases buddy_cases h with ⟨-, hbud⟩ | ⟨hb, -⟩
  · exact hbud ▸ h.add (dvd_refl _)
  · exact hb ▸ (pow_dvd_pow 2 (Nat.le_succ k)).trans (base_dvd _ p)

@[simp] theorem buddy_buddy (k p : ℕ) : buddy k (buddy k p) = p := by
  rw [buddy, buddy, Nat.xor_assoc, Nat.xor_self, Nat.xor_zero]

theorem buddy_ne (k p : ℕ) : buddy k p ≠ p := fun h => by
  have := congrArg (p ^^^ ·) h
  simp only [buddy, ← Nat.xor_assoc, Nat.xor_self, Nat.zero_xor] at this
  exact absurd this (Nat.two_pow_pos k).ne'

theorem base_buddy (h : 2 ^ k ∣ p) : base (k + 1) (buddy k p) = base (k + 1) p := by
  have hdvd : 2 ^ (k + 1) ∣ base (k + 1) p := base_dvd _ _
  have h2 : (2 : ℕ) ^ (k + 1) = 2 ^ k + 2 ^ k := by ring
  rcases buddy_cases h with ⟨hb, hbud⟩ | ⟨hb, hp⟩
  · refine base_eq_of_mem hdvd ?_
    rw [hb, hbud, mem_block, h2]
    have := Nat.two_pow_pos k
    omega
  · rw [← hb, base_of_dvd hdvd]

/-- The blocks of one order that share an enclosing block are a block and its buddy. -/
theorem base_succ_eq_iff (hp : 2 ^ k ∣ p) (hq : 2 ^ k ∣ q) :
    base (k + 1) q = base (k + 1) p ↔ q = p ∨ q = buddy k p := by
  refine ⟨fun h => ?_, ?_⟩
  · rcases buddy_cases hp with ⟨hb, hbud⟩ | ⟨hb, hpb⟩ <;>
      rcases buddy_cases hq with ⟨hb', hbud'⟩ | ⟨hb', hqb⟩ <;> omega
  · rintro (rfl | rfl)
    · rfl
    · exact base_buddy hp

/-- **The enclosing block is the block and its buddy.** -/
theorem block_succ_base (h : 2 ^ k ∣ p) :
    block (k + 1) (base (k + 1) p) = block k p ∪ block k (buddy k p) := by
  have h2 : (2 : ℕ) ^ (k + 1) = 2 ^ k + 2 ^ k := by ring
  ext q
  rw [Set.mem_union, mem_block, mem_block, mem_block, h2]
  rcases buddy_cases h with ⟨hb, hbud⟩ | ⟨hb, hp⟩ <;> omega

theorem disjoint_block_buddy (h : 2 ^ k ∣ p) : Disjoint (block k p) (block k (buddy k p)) := by
  rw [Set.disjoint_left]
  intro q hq hq'
  rw [mem_block] at hq hq'
  rcases buddy_cases h with ⟨-, hbud⟩ | ⟨-, hp⟩ <;> omega

/-- Clearing bit `k` of the start of an aligned block gives the start of the enclosing one. -/
theorem and_not_two_pow {w : ℕ} (h : 2 ^ k ∣ p) (hp : p < 2 ^ w) (hk : k < w) :
    p &&& (2 ^ w - 1 - 2 ^ k) = base (k + 1) p := by
  have hlow : ∀ i < k, p.testBit i = false := fun i hi => by
    obtain ⟨m, rfl⟩ := h
    simp [Nat.testBit_two_pow_mul, hi]
  have hhigh : ∀ i, w ≤ i → p.testBit i = false := fun i hi =>
    Nat.testBit_lt_two_pow (hp.trans_le (Nat.pow_le_pow_right (by omega) hi))
  have hk' : (2 : ℕ) ^ k < 2 ^ w := Nat.pow_lt_pow_right (by omega) hk
  have hmask : 2 ^ w - 1 - 2 ^ k = 2 ^ w - (2 ^ k + 1) := by omega
  refine Nat.eq_of_testBit_eq fun i => ?_
  rw [Nat.testBit_and, hmask, Nat.testBit_two_pow_sub_succ hk', base, Nat.mul_comm,
    Nat.testBit_two_pow_mul, Nat.testBit_div_two_pow, Nat.testBit_two_pow]
  rcases lt_trichotomy i k with hik | rfl | hik
  · simp [hlow i hik, show ¬ k + 1 ≤ i by omega]
  · simp
  · by_cases hiw : i < w
    · simp [hiw, show k ≠ i by omega, show k + 1 ≤ i by omega]
    · simp [hiw, show k + 1 ≤ i by omega, hhigh i (by omega)]

/-! ## MaxBlock blocks -/

/-- A maximal block is at least as large as any aligned block inside the set that it meets. -/
theorem MaxBlock.le_of_subset (h : MaxBlock N F k p) (hj : j ≤ N) (hr : 2 ^ j ∣ r)
    (hsub : block j r ⊆ F) (hq : q ∈ block k p) (hq' : q ∈ block j r) : j ≤ k := by
  by_contra hlt
  rcases h.top with rfl | htop
  · exact hlt hj
  · refine htop (Set.Subset.trans ?_ hsub)
    rw [← base_eq_of_mem h.aligned hq, base_base (by omega), ← base_eq_of_mem hr hq']
    exact block_base_subset (by omega) q

/-- Two maximal blocks that meet are the same. -/
theorem MaxBlock.eq_of_mem (h : MaxBlock N F k p) (h' : MaxBlock N F j r) (hq : q ∈ block k p)
    (hq' : q ∈ block j r) : k = j ∧ p = r := by
  obtain rfl : k = j := le_antisymm (h'.le_of_subset h.le h.aligned h.subset hq' hq)
    (h.le_of_subset h'.le h'.aligned h'.subset hq hq')
  exact ⟨rfl, by rw [← base_eq_of_mem h.aligned hq, ← base_eq_of_mem h'.aligned hq']⟩

theorem MaxBlock.mem_starts (h : MaxBlock N F k p) : p ∈ starts N F := ⟨k, h⟩

theorem starts_subset : starts N F ⊆ F := fun _ ⟨_, h⟩ => h.subset (self_mem_block _ _)

theorem MaxBlock.disjoint (h : MaxBlock N F k p) (h' : MaxBlock N F j r) (hne : ¬ (k = j ∧ p = r)) :
    Disjoint (block k p) (block j r) :=
  Set.disjoint_left.mpr fun _ hq hq' => hne (h.eq_of_mem h' hq hq')

/-- **The maximal blocks cover the set.** -/
theorem exists_maxBlock (N : ℕ) (hq : q ∈ F) : ∃ k p, MaxBlock N F k p ∧ q ∈ block k p := by
  classical
  let P : ℕ → Prop := fun k => block k (base k q) ⊆ F
  have hP0 : P 0 := fun x hx => by
    rw [mem_block, base_zero, pow_zero] at hx
    rwa [show x = q by omega]
  refine ⟨Nat.findGreatest P N, _, ⟨Nat.findGreatest_le N, base_dvd _ _,
    Nat.findGreatest_spec (P := P) (Nat.zero_le N) hP0, ?_⟩, mem_block_base _ q⟩
  by_cases hN : Nat.findGreatest P N = N
  · exact Or.inl hN
  · right
    rw [base_base (Nat.le_succ _)]
    have hlt : Nat.findGreatest P N < N := lt_of_le_of_ne (Nat.findGreatest_le N) hN
    exact Nat.findGreatest_is_greatest (P := P) (Nat.lt_succ_self _) hlt

theorem mem_iff_exists_maxBlock (N : ℕ) (F : Set ℕ) :
    q ∈ F ↔ ∃ k p, MaxBlock N F k p ∧ q ∈ block k p :=
  ⟨exists_maxBlock N, fun ⟨_, _, h, hq⟩ => h.subset hq⟩

/-- **Taking a maximal block out** removes that block and no other. -/
theorem maxBlock_diff (h : MaxBlock N F k p) :
    MaxBlock N (F \ block k p) j r ↔ MaxBlock N F j r ∧ ¬ (j = k ∧ r = p) := by
  constructor
  · intro h'
    refine ⟨⟨h'.le, h'.aligned, h'.subset.trans Set.sdiff_subset, ?_⟩, ?_⟩
    · rcases eq_or_ne j N with rfl | hjN
      · exact Or.inl rfl
      right
      intro hsub
      refine h'.top.resolve_left hjN fun x hx => ⟨hsub hx, fun hxB => ?_⟩
      -- the enclosing block of `r` meets the block taken out, so one is inside the other
      rcases Nat.lt_or_ge k (j + 1) with hkj | hkj
      · have hle := h'.le
        refine h.top.resolve_left (by omega) (Set.Subset.trans ?_ hsub)
        exact block_subset_of_mem (by omega) (base_dvd _ _) (base_dvd _ _)
          (block_base_subset (Nat.le_succ k) p (by rwa [base_of_dvd h.aligned])) hx
      · have hsub' : block (j + 1) (base (j + 1) r) ⊆ block k p :=
          block_subset_of_mem hkj (base_dvd _ _) h.aligned hx hxB
        exact (h'.subset (self_mem_block j r)).2 (hsub' (mem_block_base _ r))
    · rintro ⟨rfl, rfl⟩
      exact (h'.subset (self_mem_block j r)).2 (self_mem_block j r)
  · rintro ⟨h', hne⟩
    have hdisj := h.disjoint h' fun ⟨h1, h2⟩ => hne ⟨h1.symm, h2.symm⟩
    exact ⟨h'.le, h'.aligned, Set.subset_sdiff.mpr ⟨h'.subset, hdisj.symm⟩,
      h'.top.imp_right fun htop hsub => htop (hsub.trans Set.sdiff_subset)⟩

/-- The blocks that stay start where they did. -/
theorem MaxBlock.starts_diff_subset (h : MaxBlock N F k p) :
    starts N (F \ block k p) ⊆ starts N F :=
  fun _ ⟨j, hr⟩ => ⟨j, ((maxBlock_diff h).mp hr).1⟩

/-- **Putting a block in** adds that block and no other, unless it meets its whole buddy there. -/
theorem maxBlock_union (hk : k ≤ N) (hp : 2 ^ k ∣ p) (hdisj : Disjoint (block k p) F)
    (htop : k = N ∨ ¬ block k (buddy k p) ⊆ F) :
    MaxBlock N (F ∪ block k p) j r ↔ MaxBlock N F j r ∨ j = k ∧ r = p := by
  have hmax : MaxBlock N (F ∪ block k p) k p := by
    refine ⟨hk, hp, Set.subset_union_right, htop.imp_right fun htop hsub => htop fun x hx => ?_⟩
    rw [block_succ_base hp] at hsub
    exact (hsub (Or.inr hx)).resolve_right
      (Set.disjoint_right.mp (disjoint_block_buddy hp) hx)
  have hF : (F ∪ block k p) \ block k p = F := by
    rw [Set.union_sdiff_right, hdisj.symm.sdiff_eq_left]
  have hdiff := maxBlock_diff (j := j) (r := r) hmax
  rw [hF] at hdiff
  rw [hdiff]
  by_cases hsame : j = k ∧ r = p
  · simp only [hsame, and_self, not_true, and_false, or_true, iff_true]
    exact hmax
  · simp only [hsame, not_false_eq_true, and_true, or_false]

/-- **When to merge**: a block whose pages are all in `F`, next to one that is not, is maximal. -/
theorem MaxBlock.buddy (hk : k < N) (hp : 2 ^ k ∣ p) (hsub : block k (buddy k p) ⊆ F)
    (hout : ¬ block k p ⊆ F) : MaxBlock N F k (buddy k p) := by
  refine ⟨hk.le, buddy_dvd hp, hsub, Or.inr fun hpar => hout ?_⟩
  rw [base_buddy hp, block_succ_base hp] at hpar
  exact Set.subset_union_left.trans hpar

end BuddyBlocks
