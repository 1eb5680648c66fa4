import MioOS.Library.ByteMemory

/-!
# Library/CString — byte strings written into memory, and reading up to a zero

`Mem.write` puts a string of bytes at an address, `Mem.cString` reads the bytes of a buffer up to the
first zero, and finds none when the buffer ends before one.  Loops over strings count in `int`s, and
counting one beyond `INT_MAX` is undefined: `stringAt` is the string that such a loop can walk over.
-/

namespace ByteMemory

namespace Mem

/-- Write one byte. -/
def put (m : Mem) (a : ℕ) (b : UInt8) : Mem := fun x => if x = a then b else m x

/-- **Write a string of bytes**, one after the other. -/
def write (m : Mem) (a : ℕ) : List UInt8 → Mem
  | [] => m
  | b :: bs => write (m.put a b) (a + 1) bs

/-- **The string in a buffer** of `n` bytes, up to the first zero. -/
def cString (m : Mem) : ℕ → ℕ → Option (List UInt8)
  | 0, _ => none
  | n + 1, a => if m a = 0 then some [] else (cString m n (a + 1)).map (m a :: ·)

variable {m m' : Mem} {a n x i : ℕ} {b : UInt8} {bs cs : List UInt8} {A : Set ℕ}

@[simp] theorem put_self : m.put a b a = b := if_pos rfl

theorem put_of_ne (h : x ≠ a) : m.put a b x = m x := if_neg h

theorem write_append : m.write a (bs ++ cs) = (m.write a bs).write (a + bs.length) cs := by
  induction bs generalizing m a with
  | nil => rfl
  | cons b bs ih =>
    rw [List.cons_append, write, ih, write, List.length_cons, Nat.add_right_comm, Nat.add_assoc]

theorem write_concat : m.write a (bs ++ [b]) = (m.write a bs).put (a + bs.length) b := write_append

/-- **What writing leaves.** -/
theorem write_apply : m.write a bs x = if a ≤ x then (bs[x - a]?).getD (m x) else m x := by
  induction bs generalizing m a with
  | nil => simp [write]
  | cons b bs ih =>
    rw [write, ih]
    rcases lt_trichotomy x a with h | rfl | h
    · rw [if_neg (by omega), if_neg (by omega), put_of_ne h.ne]
    · rw [if_neg (by omega), if_pos le_rfl, put_self, Nat.sub_self]
      rfl
    · obtain ⟨k, rfl⟩ := Nat.exists_eq_add_of_lt h
      rw [if_pos (by omega), if_pos (by omega), put_of_ne h.ne', show a + k + 1 - (a + 1) = k by omega,
        show a + k + 1 - a = k + 1 by omega, List.getElem?_cons_succ]

theorem write_apply_of_lt (h : x < a) : m.write a bs x = m x := by
  rw [write_apply, if_neg (by omega)]

theorem write_apply_of_ge (h : a + bs.length ≤ x) : m.write a bs x = m x := by
  rw [write_apply, if_pos (by omega), List.getElem?_eq_none (by omega)]
  rfl

theorem write_apply_add (h : i < bs.length) : m.write a bs (a + i) = bs[i] := by
  rw [write_apply, if_pos (by omega), Nat.add_sub_cancel_left, List.getElem?_eq_getElem h]
  rfl

/-- **A string that was written is there.** -/
theorem holds_write : (m.write a bs).Holds a bs := by
  induction bs generalizing m a with
  | nil => trivial
  | cons b bs ih =>
    rw [write]
    exact ⟨(write_apply_of_lt (Nat.lt_succ_self a)).trans put_self, ih⟩

/-- **The bytes of a string in memory**, one by one. -/
theorem holds_iff : m.Holds a bs ↔ ∀ i (hi : i < bs.length), m (a + i) = bs[i] := by
  induction bs generalizing a with
  | nil => exact iff_of_true trivial fun i hi => absurd hi (Nat.not_lt_zero i)
  | cons b bs ih =>
    have hshift : ∀ i, a + 1 + i = a + (i + 1) := fun i => by omega
    refine ⟨fun h i hi => ?_, fun h => ⟨h 0 (Nat.succ_pos _), ih.mpr fun i hi => ?_⟩⟩
    · cases i with
      | zero => exact h.1
      | succ i => exact (congrArg m (hshift i).symm).trans (ih.mp h.2 i (Nat.lt_of_succ_lt_succ hi))
    · exact (congrArg m (hshift i)).trans (h (i + 1) (Nat.succ_lt_succ hi))

/-- Two strings of one length at one address are the same. -/
theorem Holds.inj (h : m.Holds a bs) (h' : m.Holds a cs) (hlen : bs.length = cs.length) : bs = cs :=
  List.ext_getElem hlen fun i hi hi' => (holds_iff.mp h i hi).symm.trans (holds_iff.mp h' i hi')

/-- A string with a zero behind it, read at an index. -/
theorem Holds.getD (h : m.Holds a (bs ++ [0])) (hi : i ≤ bs.length) : m (a + i) = bs.getD i 0 := by
  rw [holds_iff.mp h i (by rw [List.length_append]; exact Nat.lt_succ_of_le hi),
    List.getD_eq_getElem?_getD]
  rcases hi.lt_or_eq with hlt | rfl
  · rw [List.getElem_append_left hlt, List.getElem?_eq_getElem hlt, Option.getD_some]
  · rw [List.getElem_concat_length rfl, List.getElem?_eq_none le_rfl, Option.getD_none]

/-- **Reading a string back**: a string without zeros, with a zero behind it, in a buffer it fits. -/
theorem cString_of_holds (h : m.Holds a (bs ++ [0])) (hbs : ∀ b ∈ bs, b ≠ 0) (hn : bs.length < n) :
    m.cString n a = some bs := by
  induction bs generalizing n a with
  | nil =>
    obtain ⟨k, rfl⟩ := Nat.exists_eq_succ_of_ne_zero hn.ne'
    exact if_pos h.1
  | cons b bs ih =>
    obtain ⟨k, rfl⟩ := Nat.exists_eq_succ_of_ne_zero (Nat.ne_zero_of_lt hn)
    have hhead : m a = b := h.1
    rw [cString, hhead, if_neg (hbs b List.mem_cons_self),
      ih h.2 (fun c hc => hbs c (List.mem_cons_of_mem b hc)) (Nat.lt_of_succ_lt_succ hn), Option.map_some]

/-- **The string in a buffer** is there with a zero behind it, and has none itself. -/
theorem holds_of_cString (h : m.cString n a = some bs) :
    m.Holds a (bs ++ [0]) ∧ (∀ b ∈ bs, b ≠ 0) ∧ bs.length < n := by
  induction n generalizing a bs with
  | zero => exact absurd h.symm (Option.some_ne_none bs)
  | succ n ih =>
    rw [cString] at h
    split at h
    · rename_i hzero
      rw [← Option.some.inj h]
      exact ⟨⟨hzero, trivial⟩, by simp, Nat.succ_pos n⟩
    · rename_i hne
      obtain ⟨rest, hrest, rfl⟩ := Option.map_eq_some_iff.mp h
      obtain ⟨hholds, hnz, hlen⟩ := ih hrest
      exact ⟨⟨rfl, hholds⟩, List.forall_mem_cons.mpr ⟨hne, hnz⟩, Nat.succ_lt_succ hlen⟩

/-- A write outside a set leaves the set alone. -/
theorem agreeOn_write (h : ∀ x ∈ A, x < a ∨ a + bs.length ≤ x) : AgreeOn A m (m.write a bs) :=
  fun x hx => (h x hx).elim write_apply_of_lt write_apply_of_ge

end Mem

/-! ## Counting in an `int` -/

/-- The largest `int`. -/
def intMax : ℕ := 2 ^ 31 - 1

/-- `i++` for an `int`. -/
def intSucc (i : ℕ) : Option ℕ := if i < intMax then some (i + 1) else none

/-- More iterations than an `int` can count. -/
def countFuel : ℕ := intMax + 1

/-- The string at an address, if an `int` can count its characters. -/
def stringAt (m : Mem) (a : ℕ) : Option (List UInt8) := m.cString countFuel a

/-- Characters of which none is zero, by evaluation. -/
theorem noZero_of_all {bs : List UInt8} (h : bs.all (· != 0) = true) : ∀ c ∈ bs, c ≠ 0 := fun c hc =>
  bne_iff_ne.mp (List.all_eq_true.mp h c hc)

theorem lt_countFuel {n : ℕ} (h : n ≤ intMax) : n < countFuel := Nat.lt_succ_of_le h

theorem intSucc_of_lt {i : ℕ} (h : i < intMax) : intSucc i = some (i + 1) := if_pos h

theorem intSucc_of_ge {i : ℕ} (h : intMax ≤ i) : intSucc i = none := if_neg (not_lt.mpr h)

/-- The bytes of the string at an address, the zero behind it included. -/
def stringBytes (m : Mem) (a : ℕ) : Set ℕ :=
  {x | ∃ s, stringAt m a = some s ∧ a ≤ x ∧ x ≤ a + s.length}

variable {m : Mem} {a x i : ℕ} {s : List UInt8}

theorem mem_stringBytes (h : stringAt m a = some s) (hi : i ≤ s.length) : a + i ∈ stringBytes m a :=
  ⟨s, h, Nat.le_add_right a i, Nat.add_le_add_left hi a⟩

theorem mem_stringBytes_iff (h : stringAt m a = some s) :
    x ∈ stringBytes m a ↔ a ≤ x ∧ x ≤ a + s.length := by
  refine ⟨?_, fun hx => ⟨s, h, hx⟩⟩
  rintro ⟨s', h', hx⟩
  rwa [Option.some.inj (h.symm.trans h')]

end ByteMemory
