import MioOS.Acpi.Madt

/-!
# Acpi/Bounds — what the record loop of `parse_madt` reads

`loopReads` lists the bytes the loop reads, in the order of the source; `parseLoop_congr` says that
there are no others.  The loop goes by the length bytes of the records and the fields by their types
alone, so a table has to be `Walkable` for the loop to end inside it.
-/

namespace MioOS

namespace Acpi

open ByteMemory

/-- The flags of a local APIC record. -/
def lapicFlags (m : Mem) (r : ℕ) : UInt32 := UInt32.ofNat (m.load 4 (r + 4))

/-- The flags of a local x2APIC record. -/
def lx2apicFlags (m : Mem) (r : ℕ) : UInt32 := UInt32.ofNat (m.load 4 (r + 8))

/-- **The bytes one iteration reads**: the type, the fields its case uses and the length. -/
def recordReads (m : Mem) (r : ℕ) : List ℕ :=
  r :: (match m.load 1 r with
    | 0 =>
      (r + 3) :: List.range' (r + 4) 4 ++ if usable (lapicFlags m r) then [r + 2] else []
    | 1 => (r + 2) :: List.range' (r + 4) 4 ++ List.range' (r + 8) 4
    | 2 => (r + 2) :: (r + 3) :: List.range' (r + 4) 4 ++ List.range' (r + 8) 2
    | 5 => List.range' (r + 4) 8
    | 9 =>
      List.range' (r + 8) 4 ++
        (if usable (lx2apicFlags m r) then List.range' (r + 4) 4 ++ List.range' (r + 12) 4 else []) ++
        List.range' (r + 4) 4
    | _ => []) ++ [r + 1]

/-- The bytes the loop reads. -/
def loopReads (m : Mem) (endOfTable : ℕ) : ℕ → ℕ → List ℕ
  | 0, _ => []
  | fuel + 1, current =>
    if current < endOfTable then
      recordReads m current ++ loopReads m endOfTable fuel (current + m.load 1 (current + 1))
    else []

/-- How far into a record the iteration reads. -/
def readSize (m : Mem) (r : ℕ) : ℕ :=
  match m.load 1 r with
  | 0 => 8
  | 1 => 12
  | 2 => 10
  | 5 => 12
  | 9 => if usable (lx2apicFlags m r) then 16 else 12
  | _ => 2

/-- **A table the loop can walk**: up to the end each record it comes to has a length, and the bytes
its type needs are left. -/
inductive Walkable (m : Mem) (endOfTable : ℕ) : ℕ → Prop
  | done {current : ℕ} : endOfTable ≤ current → Walkable m endOfTable current
  | record {current : ℕ} : current + readSize m current ≤ endOfTable →
      m.load 1 (current + 1) ≠ 0 → Walkable m endOfTable (current + m.load 1 (current + 1)) →
      Walkable m endOfTable current

/-- **Parsing a table is robust**: the loop comes to its end, and every byte it reads on the way is
one of the table's. -/
structure Robust (m : Mem) (madt : ℕ) : Prop where
  terminates : ∀ lapicPhys t, ∃ fuel,
    (parseLoop m (madt + m.load 4 (madt + 4)) fuel (madt + madtHeaderSize) lapicPhys t).isSome
  within : ∀ fuel, ∀ x ∈ loopReads m (madt + m.load 4 (madt + 4)) fuel (madt + madtHeaderSize),
    madt ≤ x ∧ x < madt + m.load 4 (madt + 4)

variable {m m' : Mem} {r current endOfTable fuel : ℕ} {lapicPhys : UInt64} {t : SystemTopology}

/-! ## The reads are all there are -/

/-- **An iteration depends on the bytes it reads** and on no others. -/
theorem parseRecord_congr (h : ∀ x ∈ recordReads m r, m' x = m x) :
    parseRecord m' r lapicPhys t = parseRecord m r lapicPhys t := by
  have hload {n a : ℕ} (hsub : ∀ i < n, a + i ∈ recordReads m r) : m'.load n a = m.load n a :=
    Mem.load_congr fun i hi => h _ (hsub i hi)
  have htype : m'.load 1 r = m.load 1 r := hload fun i hi => by
    rw [Nat.lt_one_iff.mp hi]
    exact List.mem_cons_self
  rw [parseRecord, parseRecord, htype]
  rw [recordReads] at hload
  split
  · rename_i heq
    simp only [heq, List.mem_append, List.mem_cons, List.mem_range'_1] at hload
    have h3 : m'.load 1 (r + 3) = m.load 1 (r + 3) := hload (by omega)
    have h4 : m'.load 4 (r + 4) = m.load 4 (r + 4) := hload (by omega)
    simp only [h3, h4]
    split
    · rename_i husable
      have h2 : m'.load 1 (r + 2) = m.load 1 (r + 2) := by
        rw [show lapicFlags m r = UInt32.ofNat (m.load 4 (r + 4)) from rfl, husable, if_pos rfl]
          at hload
        exact hload (by simp only [List.mem_singleton]; omega)
      rw [h2]
    · rfl
  · rename_i heq
    simp only [heq, List.mem_append, List.mem_cons, List.mem_range'_1] at hload
    have h2 : m'.load 1 (r + 2) = m.load 1 (r + 2) := hload (by omega)
    have h4 : m'.load 4 (r + 4) = m.load 4 (r + 4) := hload (by omega)
    have h8 : m'.load 4 (r + 8) = m.load 4 (r + 8) := hload (by omega)
    rw [h2, h4, h8]
  · rename_i heq
    simp only [heq, List.mem_append, List.mem_cons, List.mem_range'_1] at hload
    have h2 : m'.load 1 (r + 2) = m.load 1 (r + 2) := hload (by omega)
    have h3 : m'.load 1 (r + 3) = m.load 1 (r + 3) := hload (by omega)
    have h4 : m'.load 4 (r + 4) = m.load 4 (r + 4) := hload (by omega)
    have h8 : m'.load 2 (r + 8) = m.load 2 (r + 8) := hload (by omega)
    rw [h2, h3, h4, h8]
  · rename_i heq
    simp only [heq, List.mem_append, List.mem_cons, List.mem_range'_1] at hload
    have h4 : m'.load 8 (r + 4) = m.load 8 (r + 4) := hload (by omega)
    rw [h4]
  · rename_i heq
    simp only [heq, List.mem_append, List.mem_cons, List.mem_range'_1] at hload
    have h4 : m'.load 4 (r + 4) = m.load 4 (r + 4) := hload (by omega)
    have h8 : m'.load 4 (r + 8) = m.load 4 (r + 8) := hload (by omega)
    simp only [h4, h8]
    split
    · rename_i husable
      have h12 : m'.load 4 (r + 12) = m.load 4 (r + 12) := by
        rw [show lx2apicFlags m r = UInt32.ofNat (m.load 4 (r + 8)) from rfl, husable, if_pos rfl]
          at hload
        exact hload (by simp only [List.mem_append, List.mem_range'_1]; omega)
      rw [h12]
    · rfl
  · rfl

/-- The length byte is read in every iteration. -/
theorem length_mem_recordReads (m : Mem) (r : ℕ) : r + 1 ∈ recordReads m r :=
  List.mem_append_right _ (List.mem_singleton_self _)

/-- **The loop depends on the bytes it reads** and on no others. -/
theorem parseLoop_congr (h : ∀ x ∈ loopReads m endOfTable fuel current, m' x = m x) :
    parseLoop m' endOfTable fuel current lapicPhys t
      = parseLoop m endOfTable fuel current lapicPhys t := by
  induction fuel generalizing current lapicPhys t with
  | zero => rfl
  | succ fuel ih =>
    rw [parseLoop, parseLoop]
    by_cases hlt : current < endOfTable
    · rw [loopReads, if_pos hlt] at h
      have hrecord (x) (hx : x ∈ recordReads m current) := h x (List.mem_append_left _ hx)
      have hlength : m'.load 1 (current + 1) = m.load 1 (current + 1) := by
        rw [Mem.load_one, Mem.load_one, hrecord _ (length_mem_recordReads m current)]
      rw [if_pos hlt, if_pos hlt, parseRecord_congr hrecord, hlength]
      exact ih fun x hx => h x (List.mem_append_right _ hx)
    · rw [if_neg hlt, if_neg hlt]

/-! ## Bounds -/

/-- An iteration reads bytes of its record's first `readSize`. -/
theorem mem_recordReads {x : ℕ} (hx : x ∈ recordReads m r) : r ≤ x ∧ x < r + readSize m r := by
  rw [recordReads] at hx
  rw [readSize]
  split at hx <;>
    simp only [List.mem_append, List.mem_cons, List.mem_range'_1, List.not_mem_nil, or_false,
      List.mem_ite_nil_right] at hx ⊢
  case h_1 => omega
  case h_5 =>
    by_cases husable : usable (lx2apicFlags m r) = true
    · rw [if_pos husable]
      omega
    · rw [if_neg husable]
      simp only [husable, false_and, or_false, Bool.false_eq_true] at hx
      omega
  all_goals omega

/-- The last of them is read. -/
theorem last_mem_recordReads (m : Mem) (r : ℕ) : r + readSize m r - 1 ∈ recordReads m r := by
  rw [recordReads, readSize]
  split <;>
    simp only [List.mem_append, List.mem_cons, List.mem_range'_1, List.not_mem_nil, or_false,
      List.mem_ite_nil_right]
  case h_5 =>
    by_cases husable : usable (lx2apicFlags m r) = true
    · rw [if_pos husable]
      simp only [husable, true_and]
      omega
    · rw [if_neg husable]
      omega
  all_goals omega

theorem readSize_pos (m : Mem) (r : ℕ) : 0 < readSize m r := by
  have h := mem_recordReads (length_mem_recordReads m r)
  omega

/-- **The walk decides**: from a place in the table the loop ends and stays below the end exactly
when the table can be walked from there. -/
theorem walkable_iff :
    Walkable m endOfTable current ↔
      (∀ lapicPhys t, ∃ fuel, (parseLoop m endOfTable fuel current lapicPhys t).isSome) ∧
        ∀ fuel, ∀ x ∈ loopReads m endOfTable fuel current, x < endOfTable := by
  constructor
  · intro h
    induction h with
    | @done current hend =>
      refine ⟨fun lapicPhys t => ⟨1, ?_⟩, fun fuel x hx => ?_⟩
      · rw [parseLoop, if_neg (not_lt.mpr hend)]
        rfl
      · cases fuel with
        | zero => exact absurd hx List.not_mem_nil
        | succ fuel =>
          rw [loopReads, if_neg (not_lt.mpr hend)] at hx
          exact absurd hx List.not_mem_nil
    | @record current hsize hlen _ ih =>
      have hlt : current < endOfTable :=
        (Nat.lt_add_of_pos_right (readSize_pos m current)).trans_le hsize
      refine ⟨fun lapicPhys t => ?_, fun fuel x hx => ?_⟩
      · obtain ⟨fuel, hfuel⟩ := ih.1 (parseRecord m current lapicPhys t).1
          (parseRecord m current lapicPhys t).2
        refine ⟨fuel + 1, ?_⟩
        rw [parseLoop, if_pos hlt]
        exact hfuel
      · cases fuel with
        | zero => exact absurd hx List.not_mem_nil
        | succ fuel =>
          rw [loopReads, if_pos hlt] at hx
          rcases List.mem_append.mp hx with hx | hx
          · exact (mem_recordReads hx).2.trans_le hsize
          · exact ih.2 fuel x hx
  · rintro ⟨hends, hreads⟩
    obtain ⟨fuel, lapicPhys, t, hfuel⟩ : ∃ fuel lapicPhys t,
        (parseLoop m endOfTable fuel current lapicPhys t).isSome := by
      obtain ⟨fuel, hfuel⟩ := hends 0 emptyTopology
      exact ⟨fuel, 0, emptyTopology, hfuel⟩
    clear hends
    induction fuel generalizing current lapicPhys t with
    | zero => exact absurd hfuel Bool.false_ne_true
    | succ fuel ih =>
      by_cases hlt : current < endOfTable
      · rw [parseLoop, if_pos hlt] at hfuel
        by_cases hlen : m.load 1 (current + 1) = 0
        · -- a record without a length is looked at again, with less fuel
          rw [hlen] at hfuel
          exact ih hreads _ _ hfuel
        · have hnow := hreads 1 (current + readSize m current - 1) (by
            rw [loopReads, if_pos hlt]
            exact List.mem_append_left _ (last_mem_recordReads m current))
          have hpos := readSize_pos m current
          refine .record (by omega) hlen (ih (fun fuel x hx => hreads (fuel + 1) x ?_) _ _ hfuel)
          rw [loopReads, if_pos hlt]
          exact List.mem_append_right _ hx
      · exact .done (not_lt.mp hlt)

theorem le_of_mem_loopReads {x : ℕ} (hx : x ∈ loopReads m endOfTable fuel current) :
    current ≤ x := by
  induction fuel generalizing current with
  | zero => exact absurd hx List.not_mem_nil
  | succ fuel ih =>
    rw [loopReads] at hx
    split at hx
    · rcases List.mem_append.mp hx with hx | hx
      · exact (mem_recordReads hx).1
      · exact (Nat.le_add_right ..).trans (ih hx)
    · exact absurd hx List.not_mem_nil

/-- **Parsing is robust** exactly when the table can be walked from its first record on. -/
theorem robust_iff (m : Mem) (madt : ℕ) :
    Robust m madt ↔ Walkable m (madt + m.load 4 (madt + 4)) (madt + madtHeaderSize) := by
  rw [walkable_iff]
  exact ⟨fun h => ⟨h.terminates, fun fuel x hx => (h.within fuel x hx).2⟩, fun h =>
    ⟨h.1, fun fuel x hx => ⟨(Nat.le_add_right ..).trans (le_of_mem_loopReads hx), h.2 fuel x hx⟩⟩⟩

/-! ## A record without a length -/

/-- A table of 46 bytes whose one record is all zeros. -/
def zeroMadt : Mem := fun x => if x = 4 then 46 else 0

/-- **The loop does not come to its end**, and it reads past the table. -/
theorem not_robust_zeroMadt : ¬ ∀ (m : Mem) (madt : ℕ),
    madtHeaderSize ≤ m.load 4 (madt + 4) → Robust m madt := by
  intro h
  have hrobust := h zeroMadt 0 (by decide +kernel)
  obtain ⟨fuel, hfuel⟩ := hrobust.terminates 0 emptyTopology
  have hend : 0 + zeroMadt.load 4 (0 + 4) = 46 := by decide +kernel
  rw [hend] at hfuel
  have hnever : ∀ fuel lapicPhys t,
      parseLoop zeroMadt 46 fuel (0 + madtHeaderSize) lapicPhys t = none := by
    intro fuel
    induction fuel with
    | zero => exact fun _ _ => rfl
    | succ fuel ih =>
      intro lapicPhys t
      rw [parseLoop, if_pos (by decide)]
      exact ih _ _
  rw [hnever] at hfuel
  exact Bool.false_ne_true hfuel

end Acpi

end MioOS
