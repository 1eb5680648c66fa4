import Mathlib.Tactic

/-!
# Library/ByteMemory — little-endian loads and stores over a byte-addressed memory

A memory is a total function from addresses to bytes.  `Mem.load m n a` reads the `n` bytes at `a`
as a number and `Mem.store m n a v` writes the low `n` bytes of `v` there; the two laws every client
uses are read-after-write (`load_store_same`) and the frame rule (`load_store_of_disjoint`).
-/

namespace ByteMemory

/-- A byte-addressed memory. -/
abbrev Mem := ℕ → UInt8

namespace Mem

/-- The little-endian number in the `n` bytes at `a`. -/
def load (m : Mem) : ℕ → ℕ → ℕ
  | 0, _ => 0
  | n + 1, a => (m a).toNat + 256 * load m n (a + 1)

/-- Write the low `n` bytes of `v` at `a`. -/
def store (m : Mem) (n a v : ℕ) : Mem := fun x =>
  if a ≤ x ∧ x < a + n then UInt8.ofNat (v / 256 ^ (x - a)) else m x

/-- Write `n` copies of the byte `b` at `a`. -/
def fill (m : Mem) (n a : ℕ) (b : UInt8) : Mem := fun x =>
  if a ≤ x ∧ x < a + n then b else m x

/-- Two memories agree on a set of addresses. -/
def AgreeOn (A : Set ℕ) (m m' : Mem) : Prop := ∀ a ∈ A, m' a = m a

variable {m m' m'' : Mem} {n k a b v : ℕ} {A B : Set ℕ}

@[simp] theorem load_zero (m : Mem) (a : ℕ) : m.load 0 a = 0 := rfl

theorem load_succ (m : Mem) (n a : ℕ) :
    m.load (n + 1) a = (m a).toNat + 256 * m.load n (a + 1) := rfl

@[simp] theorem load_one (m : Mem) (a : ℕ) : m.load 1 a = (m a).toNat := by
  simp [load_succ]

theorem load_lt (m : Mem) : ∀ n a : ℕ, m.load n a < 256 ^ n
  | 0, _ => by simp
  | n + 1, a => by
      have hb : (m a).toNat < 256 := (m a).toNat_lt
      have ih := load_lt m n (a + 1)
      rw [load_succ, pow_succ]
      omega

/-- The last byte of a load is its most significant. -/
theorem load_succ_last (m : Mem) : ∀ n a : ℕ,
    m.load (n + 1) a = m.load n a + 256 ^ n * (m (a + n)).toNat
  | 0, a => by rw [load_one, load_zero, pow_zero, one_mul, zero_add, Nat.add_zero]
  | n + 1, a => by
      rw [load_succ, load_succ_last m n (a + 1), load_succ, pow_succ', Nat.add_right_comm a 1 n,
        Nat.add_assoc a n 1]
      ring

/-- **A load reads only its own bytes.** -/
theorem load_congr : ∀ {n a : ℕ}, (∀ i < n, m' (a + i) = m (a + i)) → m'.load n a = m.load n a
  | 0, _, _ => rfl
  | n + 1, a, h => by
      have h0 : m' a = m a := by simpa using h 0 (by omega)
      have hrest : m'.load n (a + 1) = m.load n (a + 1) := load_congr fun i hi => by
        have := h (i + 1) (by omega)
        rwa [show a + (i + 1) = a + 1 + i by omega] at this
      rw [load_succ, load_succ, h0, hrest]

theorem store_apply_of_lt {x : ℕ} (h : x < a) : m.store n a v x = m x :=
  if_neg (by omega)

theorem store_apply_of_ge {x : ℕ} (h : a + n ≤ x) : m.store n a v x = m x :=
  if_neg (by omega)

theorem fill_apply_of_mem {x : ℕ} {c : UInt8} (h : a ≤ x ∧ x < a + n) : m.fill n a c x = c :=
  if_pos h

theorem fill_apply_of_not_mem {x : ℕ} {c : UInt8} (h : ¬ (a ≤ x ∧ x < a + n)) :
    m.fill n a c x = m x := if_neg h

/-- **Read after write**: a store is read back, truncated to its width. -/
theorem load_store_same (m : Mem) : ∀ n a v : ℕ, (m.store n a v).load n a = v % 256 ^ n
  | 0, a, v => by simp [Nat.mod_one]
  | n + 1, a, v => by
      have hhead : (m.store (n + 1) a v a).toNat = v % 256 := by
        simp [store]
      have htail : (m.store (n + 1) a v).load n (a + 1) = v / 256 % 256 ^ n := by
        rw [← load_store_same m n (a + 1) (v / 256)]
        refine load_congr fun i hi => ?_
        have h1 : m.store (n + 1) a v (a + 1 + i) = UInt8.ofNat (v / 256 ^ (i + 1)) := by
          rw [store, if_pos (by omega), show a + 1 + i - a = i + 1 by omega]
        have h2 : m.store n (a + 1) (v / 256) (a + 1 + i) = UInt8.ofNat (v / 256 / 256 ^ i) := by
          rw [store, if_pos (by omega), show a + 1 + i - (a + 1) = i by omega]
        rw [h1, h2, Nat.div_div_eq_div_mul, pow_succ']
      rw [load_succ, hhead, htail, pow_succ', Nat.mod_mul]

/-- A stored value that fits its width is read back unchanged. -/
theorem load_store_of_lt (hv : v < 256 ^ n) : (m.store n a v).load n a = v := by
  rw [load_store_same, Nat.mod_eq_of_lt hv]

/-- A stored 64-bit word is read back. -/
theorem load_store_word (hv : v < 2 ^ 64) : (m.store 8 a v).load 8 a = v :=
  load_store_of_lt (hv.trans_eq (by norm_num))

/-- **The frame rule**: a store leaves every disjoint load alone. -/
theorem load_store_of_disjoint (h : a + n ≤ b ∨ b + k ≤ a) :
    (m.store n a v).load k b = m.load k b := by
  refine load_congr fun i hi => ?_
  rcases h with h | h
  · exact store_apply_of_ge (by omega)
  · exact store_apply_of_lt (by omega)

theorem load_fill_of_disjoint {c : UInt8} (h : a + n ≤ b ∨ b + k ≤ a) :
    (m.fill n a c).load k b = m.load k b :=
  load_congr fun i hi => fill_apply_of_not_mem (by omega)

/-! ## Byte strings in memory -/

/-- The `n` bytes of a little-endian number. -/
def leBytes : ℕ → ℕ → List UInt8
  | 0, _ => []
  | n + 1, v => UInt8.ofNat v :: leBytes n (v / 256)

/-- A byte string lies at an address. -/
def Holds (m : Mem) : ℕ → List UInt8 → Prop
  | _, [] => True
  | a, b :: bs => m a = b ∧ Holds m (a + 1) bs

@[simp] theorem length_leBytes : ∀ n v : ℕ, (leBytes n v).length = n
  | 0, _ => rfl
  | n + 1, v => congrArg (· + 1) (length_leBytes n (v / 256))

/-- Every string of `n` bytes is a number's. -/
theorem exists_leBytes : ∀ bs : List UInt8, ∃ v < 256 ^ bs.length, leBytes bs.length v = bs
  | [] => ⟨0, by simp, rfl⟩
  | b :: bs => by
      obtain ⟨v, hv, hbs⟩ := exists_leBytes bs
      have hb : b.toNat < 256 := b.toNat_lt
      refine ⟨b.toNat + 256 * v, ?_, ?_⟩
      · rw [List.length_cons, pow_succ]
        omega
      · have hhead : UInt8.ofNat (b.toNat + 256 * v) = b :=
          UInt8.toNat_inj.mp (by rw [UInt8.toNat_ofNat']; omega)
        have htail : (b.toNat + 256 * v) / 256 = v := by omega
        rw [List.length_cons, leBytes, hhead, htail, hbs]

theorem holds_append {bs cs : List UInt8} :
    m.Holds a (bs ++ cs) ↔ m.Holds a bs ∧ m.Holds (a + bs.length) cs := by
  induction bs generalizing a with
  | nil => simp [Holds]
  | cons b bs ih =>
    rw [List.cons_append, Holds, Holds, ih, List.length_cons, and_assoc,
      show a + (bs.length + 1) = a + 1 + bs.length by omega]

/-- **Reading a number back.** -/
theorem load_of_holds : ∀ {n a v : ℕ}, v < 256 ^ n → m.Holds a (leBytes n v) → m.load n a = v
  | 0, _, v, hv, _ => by
      exact (Nat.lt_one_iff.mp hv).symm
  | n + 1, a, v, hv, h => by
      have hhead : (m a).toNat = v % 256 := by
        rw [h.1]
        simp
      have htail : m.load n (a + 1) = v / 256 :=
        load_of_holds (by rw [pow_succ'] at hv; exact Nat.div_lt_of_lt_mul hv) h.2
      rw [load_succ, hhead, htail]
      exact Nat.mod_add_div v 256

/-! ## Agreement on a set of addresses -/

theorem AgreeOn.refl (A : Set ℕ) (m : Mem) : AgreeOn A m m := fun _ _ => rfl

theorem AgreeOn.trans (h : AgreeOn A m m') (h' : AgreeOn A m' m'') : AgreeOn A m m'' :=
  fun a ha => (h' a ha).trans (h a ha)

theorem AgreeOn.mono (h : AgreeOn A m m') (hB : B ⊆ A) : AgreeOn B m m' :=
  fun a ha => h a (hB ha)

/-- A load inside a set of agreement reads the same number. -/
theorem AgreeOn.load_eq (h : AgreeOn A m m') (hA : ∀ i < n, a + i ∈ A) :
    m'.load n a = m.load n a := load_congr fun i hi => h _ (hA i hi)

/-- A store outside a set leaves the set alone. -/
theorem agreeOn_store (h : ∀ x ∈ A, x < a ∨ a + n ≤ x) : AgreeOn A m (m.store n a v) :=
  fun x hx => (h x hx).elim store_apply_of_lt store_apply_of_ge

/-! ## Writes of others -/

/-- Some bytes of a memory are taken from another. -/
def patch (B : ℕ → Bool) (b m : Mem) : Mem := fun x => if B x then b x else m x

/-- The `n` bytes at `a` are not in a set. -/
def Off (A : Set ℕ) (a n : ℕ) : Prop := ∀ x ∈ A, x < a ∨ a + n ≤ x

variable {B' C : ℕ → Bool} {c : Mem} {x : ℕ}

theorem patch_of_not (h : C x = false) : patch C c m x = m x :=
  if_neg (Bool.eq_false_iff.mp h)

/-- Two patches are one. -/
theorem patch_patch : patch C c (patch B' m' m) = patch (fun x => C x || B' x) (patch C c m') m := by
  funext x
  by_cases hx : C x = true <;> simp [patch, hx]

theorem Off.load_patch (h : Off A a n) (hC : ∀ x, C x = true → x ∈ A) :
    (patch C c m).load n a = m.load n a :=
  load_congr fun i hi => patch_of_not (Bool.eq_false_iff.mpr fun hx => by
    have hout := h _ (hC _ hx)
    omega)

theorem Off.store_patch (h : Off A a n) (hC : ∀ x, C x = true → x ∈ A) :
    (patch C c m).store n a v = patch C c (m.store n a v) := by
  funext x
  by_cases hx : C x = true
  · have hout := h x (hC x hx)
    rw [store, if_neg (by omega), patch, patch, if_pos hx, if_pos hx]
  · rw [Bool.not_eq_true] at hx
    rw [patch_of_not hx, store, store, patch_of_not hx]

theorem Off.store_apply (h : Off A a n) (hx : x ∈ A) : m.store n a v x = m x :=
  (h x hx).elim store_apply_of_lt store_apply_of_ge

theorem Off.mono {k b : ℕ} (h : Off A a n) (hab : a ≤ b) (hend : b + k ≤ a + n) : Off A b k :=
  fun x hx => by
    have hout := h x hx
    omega

end Mem

end ByteMemory
