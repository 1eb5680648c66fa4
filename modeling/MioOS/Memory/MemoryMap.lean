import Mathlib.Data.Set.Card
import Mathlib.Order.Interval.Finset.Nat
import Mathlib.Order.CompletePartialOrder
import MioOS.Memory.Defs

/-!
# Memory/MemoryMap — the firmware memory map of `mmap_util.hpp`

`MmapIterator::for_each` turns a BIOS or EFI map into a sequence of `UnifiedMemoryEntry`, and a memory
map is that sequence.  The source walks over the tag anew each time, so the sequence stands for the
tag as long as nobody overwrites it: the tag lies outside the pages that `initialize_buddy` frees
(`Pmm/CarveTag` is about the pass that frees them).
-/

namespace MioOS

/-- `UnifiedMemoryEntry`: the range `[addr, addr + len)` and what it is. -/
structure UnifiedMemoryEntry where
  addr : ℕ
  len : ℕ
  isUsable : Bool
  type : ℕ
  isUefi : Bool
  deriving DecidableEq, Repr

/-- The entries `MmapIterator::for_each` passes to its callback, in order. -/
abbrev MemoryMap := List UnifiedMemoryEntry

namespace UnifiedMemoryEntry

/-- `is_acpi_reclaimable`. -/
def isAcpiReclaimable (e : UnifiedMemoryEntry) : Bool :=
  (e.isUefi && e.type == 9) || (!e.isUefi && e.type == 3)

/-- The bytes of the entry. -/
def bytes (e : UnifiedMemoryEntry) : Set ℕ := Set.Ico e.addr (e.addr + e.len)

/-- The page frames that lie wholly inside the entry. -/
def wholePages (e : UnifiedMemoryEntry) : Set ℕ :=
  {q | e.addr ≤ q * pageSize ∧ (q + 1) * pageSize ≤ e.addr + e.len}

end UnifiedMemoryEntry

/-- A memory map of a real machine: its usable regions do not overlap, and they end inside the
52-bit physical address space (`PFN_MASK` keeps no higher address bit). -/
structure MemoryMap.WellFormed (mmap : MemoryMap) : Prop where
  disjoint : mmap.Pairwise fun e e' => e.isUsable → e'.isUsable → Disjoint e.bytes e'.bytes
  physical : ∀ e ∈ mmap, e.isUsable → e.addr + e.len ≤ 2 ^ 52

/-- Two usable regions of a well-formed map are the same or do not meet. -/
theorem MemoryMap.WellFormed.disjoint_of_ne {mmap : MemoryMap} (h : mmap.WellFormed)
    {e e' : UnifiedMemoryEntry} (he : e ∈ mmap) (he' : e' ∈ mmap) (hu : e.isUsable)
    (hu' : e'.isUsable) (hne : e ≠ e') : Disjoint e.bytes e'.bytes := by
  have hsymm : Std.Symm fun e e' : UnifiedMemoryEntry =>
      e.isUsable → e'.isUsable → Disjoint e.bytes e'.bytes :=
    ⟨fun _ _ hd hu hu' => (hd hu' hu).symm⟩
  exact h.disjoint.forall he he' hne hu hu'

namespace MemoryMap

variable {mmap : MemoryMap} {e : UnifiedMemoryEntry} {q x : ℕ}

/-- The bytes of the usable regions. -/
def usableBytes (mmap : MemoryMap) : Set ℕ := {x | ∃ e ∈ mmap, e.isUsable = true ∧ x ∈ e.bytes}

/-- The page frames that lie wholly inside a usable region. -/
def usablePages (mmap : MemoryMap) : Set ℕ := {q | ∃ e ∈ mmap, e.isUsable = true ∧ q ∈ e.wholePages}

/-- The sum of the lengths of the usable regions. -/
def usableLength : MemoryMap → ℕ
  | [] => 0
  | e :: rest => (if e.isUsable then e.len else 0) + usableLength rest

/-- The largest end of a usable region. -/
def maxUsable : MemoryMap → ℕ
  | [] => 0
  | e :: rest => max (if e.isUsable then e.addr + e.len else 0) (maxUsable rest)

theorem usableBytes_cons (e : UnifiedMemoryEntry) (rest : MemoryMap) :
    usableBytes (e :: rest) = (if e.isUsable then e.bytes else ∅) ∪ usableBytes rest := by
  ext x
  cases h : e.isUsable <;> simp [usableBytes, h]

theorem usablePages_cons (e : UnifiedMemoryEntry) (rest : MemoryMap) :
    usablePages (e :: rest) = (if e.isUsable then e.wholePages else ∅) ∪ usablePages rest := by
  ext x
  cases h : e.isUsable <;> simp [usablePages, h]

theorem WellFormed.tail (h : WellFormed (e :: mmap)) : mmap.WellFormed :=
  ⟨(List.pairwise_cons.mp h.disjoint).2, fun e' he' => h.physical e' (List.mem_cons_of_mem _ he')⟩

theorem WellFormed.left {rest : MemoryMap} (h : WellFormed (mmap ++ rest)) : mmap.WellFormed :=
  ⟨(List.pairwise_append.mp h.disjoint).1, fun e he => h.physical e (List.mem_append_left _ he)⟩

theorem WellFormed.subset (h : mmap.WellFormed) : mmap.usableBytes ⊆ Set.Iio (2 ^ 52) := by
  rintro x ⟨e, he, hu, -, hx⟩
  exact hx.trans_le (h.physical e he hu)

theorem ncard_bytes (e : UnifiedMemoryEntry) : e.bytes.ncard = e.len := by
  rw [UnifiedMemoryEntry.bytes, ← Finset.coe_Ico, Set.ncard_coe_finset, Nat.card_Ico,
    Nat.add_sub_cancel_left]

/-- **The lengths count the bytes**, since the usable regions do not overlap. -/
theorem WellFormed.ncard_usableBytes (h : mmap.WellFormed) :
    mmap.usableBytes.ncard = mmap.usableLength := by
  induction mmap with
  | nil => simp [usableBytes, usableLength]
  | cons e rest ih =>
    have hfin := (Set.finite_Iio (2 ^ 52)).subset h.tail.subset
    rw [usableBytes_cons, usableLength]
    cases hu : e.isUsable with
    | false => simpa using ih h.tail
    | true =>
      have hdisj : Disjoint e.bytes (usableBytes rest) := Set.disjoint_left.mpr <| by
        rintro x hx ⟨e', he', hu', hx'⟩
        exact Set.disjoint_left.mp ((List.pairwise_cons.mp h.disjoint).1 e' he' hu hu') hx hx'
      rw [if_pos rfl, if_pos rfl, Set.ncard_union_eq hdisj (Set.finite_Ico _ _) hfin, ncard_bytes,
        ih h.tail]

theorem WellFormed.usableLength_le (h : mmap.WellFormed) : mmap.usableLength ≤ 2 ^ 52 := by
  have hcard := Set.ncard_le_ncard h.subset (Set.finite_Iio _)
  rwa [h.ncard_usableBytes, ← Finset.coe_Iio, Set.ncard_coe_finset, Nat.card_Iio] at hcard

theorem wholePages_eq (e : UnifiedMemoryEntry) :
    e.wholePages = Set.Ico ((e.addr + 4095) / pageSize) ((e.addr + e.len) / pageSize) := by
  ext q
  rw [UnifiedMemoryEntry.wholePages, Set.mem_ofPred_eq, Set.mem_Ico, pageSize]
  omega

theorem finite_usablePages (mmap : MemoryMap) : mmap.usablePages.Finite := by
  induction mmap with
  | nil => simp [usablePages]
  | cons e rest ih =>
    rw [usablePages_cons]
    refine Set.Finite.union ?_ ih
    split
    · rw [wholePages_eq]
      exact Set.finite_Ico _ _
    · exact Set.finite_empty

/-- The whole usable pages are no larger than the usable regions. -/
theorem ncard_usablePages_le (mmap : MemoryMap) :
    pageSize * mmap.usablePages.ncard ≤ mmap.usableLength := by
  induction mmap with
  | nil => simp [usablePages]
  | cons e rest ih =>
    have hcard := Set.ncard_union_le (if e.isUsable then e.wholePages else ∅) (usablePages rest)
    have hpage : pageSize * (if e.isUsable then e.wholePages else ∅ : Set ℕ).ncard
        ≤ if e.isUsable then e.len else 0 := by
      split
      · rw [wholePages_eq, ← Finset.coe_Ico, Set.ncard_coe_finset, Nat.card_Ico, pageSize]
        omega
      · simp
    rw [usablePages_cons, usableLength]
    have hmul := Nat.mul_le_mul_left pageSize hcard
    rw [Nat.mul_add] at hmul
    omega

theorem le_maxUsable (he : e ∈ mmap) (hu : e.isUsable = true) : e.addr + e.len ≤ mmap.maxUsable := by
  induction mmap with
  | nil => exact absurd he (by simp)
  | cons e' rest ih =>
    rw [maxUsable]
    rcases List.mem_cons.mp he with rfl | he
    · rw [if_pos hu]
      exact le_max_left _ _
    · exact (ih he).trans (le_max_right _ _)

theorem WellFormed.maxUsable_le (h : mmap.WellFormed) : mmap.maxUsable ≤ 2 ^ 52 := by
  induction mmap with
  | nil => simp [maxUsable]
  | cons e rest ih =>
    refine max_le ?_ (ih h.tail)
    split
    · exact h.physical e List.mem_cons_self ‹_›
    · omega

end MemoryMap

end MioOS
