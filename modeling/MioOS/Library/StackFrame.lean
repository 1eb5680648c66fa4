import Mathlib.Data.UInt
import MioOS.Library.ByteMemory

/-!
# Library/StackFrame — the words a machine with a downward stack has pushed

A 64-bit machine pushes a word by moving its stack pointer down by eight and storing there.
`Frame m sp vs` says that the words `vs` lie one above the other from `sp` up, the last one pushed
first.  A push conses onto the frame (`Frame.push`), a pop reads its head (`Frame.load_eq`), and a
frame survives every change of the memory that keeps its words (`Frame.congr`).
-/

namespace StackFrame

open ByteMemory

/-- The word at an address. -/
def word (m : Mem) (a : UInt64) : UInt64 := UInt64.ofNat (m.load 8 a.toNat)

/-- Store a word. -/
def setWord (m : Mem) (a v : UInt64) : Mem := m.store 8 a.toNat v.toNat

/-- Two words at these addresses share no byte. -/
def Apart (a b : UInt64) : Prop := 8 ≤ (a - b).toNat ∧ 8 ≤ (b - a).toNat

instance (a b : UInt64) : Decidable (Apart a b) := inferInstanceAs (Decidable (_ ∧ _))

variable {m m' : Mem} {a b v sp : UInt64} {vs ws : List UInt64}

theorem word_setWord : word (setWord m a v) a = v := by
  rw [word, setWord, Mem.load_store_of_lt (lt_of_lt_of_eq v.toNat_lt (by norm_num)),
    UInt64.ofNat_toNat]

theorem word_setWord_of_apart (h : Apart a b) : word (setWord m a v) b = word m b := by
  obtain ⟨h1, h2⟩ := h
  have ha := a.toNat_lt
  have hb := b.toNat_lt
  rw [UInt64.toNat_sub] at h1 h2
  rw [word, setWord, Mem.load_store_of_disjoint (by omega), word]

theorem word_store_of_disjoint {n c x : ℕ} (h : c + n ≤ a.toNat ∨ a.toNat + 8 ≤ c) :
    word (m.store n c x) a = word m a := by
  rw [word, Mem.load_store_of_disjoint h, word]

/-- Two memories that agree on the bytes of a word agree on the word. -/
theorem word_congr (h : ∀ i < 8, m' (a.toNat + i) = m (a.toNat + i)) : word m' a = word m a := by
  rw [word, Mem.load_congr h, word]

-- unification must not compute bytes
attribute [irreducible] word setWord

/-- The `k`-th word above an address. -/
def slot (a : UInt64) (k : ℕ) : UInt64 := a + UInt64.ofNat (8 * k)

@[simp] theorem slot_zero (a : UInt64) : slot a 0 = a := by
  simp [slot]

theorem slot_succ (a : UInt64) (k : ℕ) : slot a (k + 1) = slot (a + 8) k := by
  rw [slot, slot, UInt64.add_assoc, show 8 * (k + 1) = 8 + 8 * k by ring, UInt64.ofNat_add]
  rfl

/-- The `i`-th word a machine pushes when its stack pointer is `sp`. -/
def below (sp : UInt64) (i : ℕ) : UInt64 := sp - UInt64.ofNat (8 * (i + 1))

theorem below_zero (sp : UInt64) : below sp 0 = sp - 8 := rfl

theorem below_succ (sp : UInt64) (i : ℕ) : below sp (i + 1) = below (sp - 8) i := by
  rw [below, below, show 8 * (i + 1 + 1) = 8 + 8 * (i + 1) by ring, UInt64.ofNat_add,
    show UInt64.ofNat 8 = 8 from rfl]
  grind

/-- What is pushed below an address lies apart from the words above it. -/
theorem apart_below {i k : ℕ} (h : i + k + 1 < 2 ^ 60) : Apart (below a i) (slot a k) := by
  have hi : (UInt64.ofNat (8 * (i + 1))).toNat = 8 * (i + 1) := UInt64.toNat_ofNat_of_lt' (by
    rw [UInt64.size]
    omega)
  have hk : (UInt64.ofNat (8 * k)).toNat = 8 * k := UInt64.toNat_ofNat_of_lt' (by
    rw [UInt64.size]
    omega)
  have ha := a.toNat_lt
  constructor
  · rw [below, slot, UInt64.toNat_sub, UInt64.toNat_sub, UInt64.toNat_add, hi, hk]
    omega
  · rw [below, slot, UInt64.toNat_sub, UInt64.toNat_sub, UInt64.toNat_add, hi, hk]
    omega

/-- The words `vs` lie from `sp` up. -/
def Frame (m : Mem) : UInt64 → List UInt64 → Prop
  | _, [] => True
  | sp, v :: vs => word m sp = v ∧ Frame m (sp + 8) vs

@[simp] theorem frame_nil : Frame m sp [] := trivial

theorem frame_cons : Frame m sp (v :: vs) ↔ word m sp = v ∧ Frame m (sp + 8) vs := Iff.rfl

/-- A pop reads the head of the frame. -/
theorem Frame.load_eq (h : Frame m sp (v :: vs)) : word m sp = v := h.1

theorem Frame.tail (h : Frame m sp (v :: vs)) : Frame m (sp + 8) vs := h.2

/-- Any word of a frame is read at its slot. -/
theorem Frame.word_slot (h : Frame m sp vs) {k : ℕ} (hk : k < vs.length) :
    word m (slot sp k) = vs[k] := by
  induction vs generalizing sp k with
  | nil => exact absurd hk (Nat.not_lt_zero k)
  | cons v vs ih =>
    cases k with
    | zero => rw [slot_zero, h.load_eq, List.getElem_cons_zero]
    | succ k => rw [slot_succ, ih h.tail (Nat.lt_of_succ_lt_succ hk), List.getElem_cons_succ]

/-- **A frame depends on its own words only.** -/
theorem Frame.congr (h : Frame m sp vs)
    (hm : ∀ k < vs.length, word m' (slot sp k) = word m (slot sp k)) : Frame m' sp vs := by
  induction vs generalizing sp with
  | nil => trivial
  | cons v vs ih =>
    have h0 : word m' sp = word m sp := by simpa using hm 0 (Nat.succ_pos _)
    exact ⟨h0.trans h.1, ih h.2 fun k hk => by
      rw [← slot_succ]
      exact hm (k + 1) (Nat.succ_lt_succ hk)⟩

/-- **A push** conses onto the frame. -/
theorem Frame.push (h : Frame m sp vs) (hlen : vs.length < 2 ^ 60) :
    Frame (setWord m (sp - 8) v) (sp - 8) (v :: vs) := by
  refine ⟨word_setWord, ?_⟩
  rw [UInt64.sub_add_cancel]
  exact h.congr fun k hk => word_setWord_of_apart (apart_below (i := 0) (by omega))

end StackFrame
