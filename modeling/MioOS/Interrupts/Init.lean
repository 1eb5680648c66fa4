import MioOS.Interrupts.Ioapic
import MioOS.Paging.Refinement

/-!
# Interrupts/Init — `IOAPIC::initialize`

Initialization maps the chip's page, reads the number of entries off the version register and calls
`write_rte` for every entry; it marks the object initialized afterwards.  What firmware left in the
redirection table is what decides which entries are masked in the end.
-/

namespace MioOS

namespace Interrupts

open Paging

namespace Ioapic

/-- The masking loop, for the entries below `n`. -/
def maskEntries (a : Ioapic) (n : ℕ) : Ioapic :=
  (List.range n).foldl (fun a i => a.writeRte (UInt8.ofNat i) 0 0 0 true) a

/-- The chip's page is mapped again, in case it has been. -/
def mapChip (cpu : CpuFeatures) (s : Backend) (a : Ioapic) : PagingError × Backend :=
  let virtAddr := u64 (a.ioapicInfo.ioapicAddress.toNat + hhdmBase)
  let s := (s.unmapPage virtAddr).2
  s.mapPage cpu virtAddr a.ioapicInfo.ioapicAddress.toNat .mmio

/-- The number of entries is read off the version register, and the entries are masked. -/
def readAndMask (a : Ioapic) : Ioapic :=
  let (verReg, a) := a.readReg ioapicVer
  let a := { a with maxEntries := UInt32.ofBitVec (verReg >>> 16 &&& 0xFF) + 1 }
  let a := a.maskEntries a.maxEntries.toNat
  { a with initialized := true }

/-- **`IOAPIC::initialize`**, without the kernel panic a failure to map ends in. -/
def initializeIoapic (cpu : CpuFeatures) (s : Backend) (a : Ioapic) : Bool × Backend × Ioapic :=
  let mapped := a.mapChip cpu s
  if mapped.1 ≠ .success then (false, mapped.2, a) else (true, mapped.2, a.readAndMask)

variable {a a' : Ioapic} {cpu : CpuFeatures} {s s' : Backend} {k : ℕ}

/-- The number of entries the version register reports. -/
def reportedEntries (a : Ioapic) : ℕ := (a.chip.regs ioapicVer >>> 16 &&& 0xFF).toNat + 1

/-- **Every line is masked** and nothing else is written. -/
structure MasksAll (a a' : Ioapic) : Prop where
  maxEntries : a'.maxEntries.toNat = a.reportedEntries
  masked : ∀ p < a.reportedEntries, (a'.chip.regs (redirectionLow p)).getLsbD 16 = true
  within : ∀ r ∈ a'.chip.written.drop a.chip.written.length,
    ∃ p < a.reportedEntries, r = redirectionLow p ∨ r = redirectionHigh p

/-- An object that is not initialized yet writes nothing. -/
theorem maskEntries_of_not_initialized (h : a.initialized = false) (n : ℕ) :
    a.maskEntries n = a := by
  induction n with
  | zero => rfl
  | succ n ih =>
    rw [maskEntries, List.range_succ, List.foldl_append, ← maskEntries, ih]
    rw [List.foldl_cons, List.foldl_nil, writeRte, h, Bool.not_false, if_pos rfl]

/-- **One entry is masked**: its two registers are written, and the mask bit is set. -/
theorem writeRte_masked (h : a.initialized = true) (gsi : UInt8) :
    (a.writeRte gsi 0 0 0 true).initialized = true ∧
      (a.writeRte gsi 0 0 0 true).chip.written =
        a.chip.written ++ [redirectionLow gsi.toNat, redirectionHigh gsi.toNat] ∧
      ((a.writeRte gsi 0 0 0 true).chip.regs (redirectionLow gsi.toNat)).getLsbD 16 = true ∧
      ∀ r, r ≠ redirectionLow gsi.toNat → r ≠ redirectionHigh gsi.toNat →
        (a.writeRte gsi 0 0 0 true).chip.regs r = a.chip.regs r := by
  obtain ⟨e, heq, -, -, -, hmask⟩ := writeRte_eq h gsi 0 0 0 true
  rw [heq]
  refine ⟨h, List.append_assoc .., ?_, fun r hlo hhi =>
    (Function.update_of_ne hhi ..).trans (Function.update_of_ne hlo ..)⟩
  have hlow : ((a.writeReg (redirectionLow gsi.toNat) e.lowerDword).writeReg
      (redirectionHigh gsi.toNat) e.upperDword).chip.regs (redirectionLow gsi.toNat)
        = e.lowerDword :=
    (Function.update_of_ne (redirectionLow_ne_high _ _) ..).trans (Function.update_self ..)
  rw [hlow, e.lowerDword_mask, hmask]
  rfl

/-- **The loop** of an initialized object masks the entries below `n` and writes no other. -/
theorem maskEntries_spec (h : a.initialized = true) {n : ℕ} (hn : n ≤ 256) :
    (a.maskEntries n).initialized = true ∧
      (∃ rs, (a.maskEntries n).chip.written = a.chip.written ++ rs ∧
        ∀ r ∈ rs, ∃ p < n, r = redirectionLow p ∨ r = redirectionHigh p) ∧
      ∀ p < n, ((a.maskEntries n).chip.regs (redirectionLow p)).getLsbD 16 = true := by
  induction n with
  | zero => exact ⟨h, ⟨[], (List.append_nil _).symm, nofun⟩, nofun⟩
  | succ n ih =>
    obtain ⟨hinit, ⟨rs, hwritten, hrs⟩, hmasked⟩ := ih (Nat.le_of_succ_le hn)
    obtain ⟨hinit', hwritten', hself, hkept⟩ := writeRte_masked hinit (UInt8.ofNat n)
    rw [UInt8.toNat_ofNat_of_lt' (show n < 256 by omega)] at hwritten' hself hkept
    have hstep : a.maskEntries (n + 1) = (a.maskEntries n).writeRte (UInt8.ofNat n) 0 0 0 true := by
      rw [maskEntries, List.range_succ, List.foldl_append, ← maskEntries]
      rfl
    rw [hstep]
    refine ⟨hinit', ⟨rs ++ [redirectionLow n, redirectionHigh n], ?_, ?_⟩, ?_⟩
    · rw [hwritten', hwritten, List.append_assoc]
    · intro r hr
      rcases List.mem_append.mp hr with hr | hr
      · obtain ⟨p, hp, hpr⟩ := hrs r hr
        exact ⟨p, Nat.lt_succ_of_lt hp, hpr⟩
      · exact ⟨n, Nat.lt_succ_self n, List.mem_pair.mp hr⟩
    · intro p hp
      rcases Nat.lt_succ_iff_lt_or_eq.mp hp with hlt | rfl
      · have hne : redirectionLow p ≠ redirectionLow n := fun heq =>
          hlt.ne (redirectionLow_inj (by omega) (by omega) heq)
        rw [hkept _ hne (redirectionLow_ne_high _ _)]
        exact hmasked p hlt
      · exact hself

theorem reportedEntries_le (a : Ioapic) : a.reportedEntries ≤ 256 := by
  have hle : (a.chip.regs ioapicVer >>> 16 &&& 0xFF).toNat ≤ 255 := by
    rw [BitVec.toNat_and]
    exact Nat.and_le_right
  exact Nat.succ_le_succ hle

/-- The number of entries, as the object keeps it. -/
theorem maxEntries_eq (a : Ioapic) :
    (UInt32.ofBitVec (a.chip.regs ioapicVer >>> 16 &&& 0xFF) + 1).toNat = a.reportedEntries := by
  have hle := a.reportedEntries_le
  have h1 : (1 : UInt32).toNat = 1 := rfl
  rw [UInt32.toNat_add, UInt32.toNat_ofBitVec, h1]
  rw [reportedEntries] at hle ⊢
  omega

/-- **What a successful initialization leaves.** -/
theorem initializeIoapic_eq (h : a.initializeIoapic cpu s = (true, s', a')) :
    a' = a.readAndMask := by
  rw [initializeIoapic] at h
  split at h
  · exact absurd (congrArg Prod.fst h) Bool.false_ne_true
  · exact (congrArg (fun q => q.2.2) h).symm

/-- Reading the version register and masking, in terms of the loop. -/
theorem readAndMask_eq (a : Ioapic) :
    ∃ b : Ioapic, b.initialized = a.initialized ∧ b.chip.regs = a.chip.regs ∧
      b.chip.written = a.chip.written ∧ b.maxEntries.toNat = a.reportedEntries ∧
      a.readAndMask = { b.maskEntries a.reportedEntries with initialized := true } := by
  refine ⟨{ (a.readReg ioapicVer).2 with
    maxEntries := UInt32.ofBitVec (a.chip.regs ioapicVer >>> 16 &&& 0xFF) + 1 }, rfl, rfl, rfl,
    maxEntries_eq a, ?_⟩
  rw [← maxEntries_eq]
  rfl

theorem maskEntries_maxEntries (a : Ioapic) (n : ℕ) :
    (a.maskEntries n).maxEntries = a.maxEntries := by
  induction n with
  | zero => rfl
  | succ n ih =>
    rw [maskEntries, List.range_succ, List.foldl_append, ← maskEntries, List.foldl_cons,
      List.foldl_nil, writeRte]
    split
    · exact ih
    · exact ih

/-- **Initialization masks every line** exactly when the object had been initialized before, or
firmware had left every line masked. -/
theorem masksAll_iff (h : a.initializeIoapic cpu s = (true, s', a')) :
    MasksAll a a' ↔ a.initialized = true ∨
      ∀ p < a.reportedEntries, (a.chip.regs (redirectionLow p)).getLsbD 16 = true := by
  obtain ⟨b, hinit, hregs, hwritten, hentries, heq⟩ := a.readAndMask_eq
  rw [initializeIoapic_eq h, heq]
  have hmax : (b.maskEntries a.reportedEntries).maxEntries.toNat = a.reportedEntries := by
    rw [maskEntries_maxEntries, hentries]
  cases hb : b.initialized with
  | false =>
    rw [maskEntries_of_not_initialized hb] at hmax ⊢
    have hnot : ¬ a.initialized = true := by
      rw [← hinit, hb]
      exact Bool.false_ne_true
    rw [or_iff_right hnot, ← hregs]
    refine ⟨fun hall => hall.masked, fun hmasked => ⟨hmax, hmasked, ?_⟩⟩
    intro r hr
    rw [← hwritten, List.drop_length] at hr
    exact absurd hr List.not_mem_nil
  | true =>
    obtain ⟨-, ⟨rs, hrs, hwithin⟩, hmasked⟩ := maskEntries_spec hb a.reportedEntries_le
    refine iff_of_true ⟨hmax, hmasked, ?_⟩ (Or.inl (hinit.symm.trans hb))
    intro r hr
    rw [hrs, hwritten, List.drop_left] at hr
    exact hwithin r hr

/-! ## A chip after reset and one firmware has used -/

/-- An object not yet initialized, of a chip of 24 pins with this table. -/
def coldIoapic (low : BitVec 32) : Ioapic where
  ioapicInfo := ⟨0, 0xFEC00000, 0⟩
  chip := ⟨0, fun r => if r = ioapicVer then 0x170020 else low, []⟩
  initialized := false
  maxEntries := 0

open Paging.Backend (blank fullCpu)

theorem initializeIoapic_coldIoapic (low : BitVec 32) :
    (coldIoapic low).initializeIoapic fullCpu blank =
      (true, ((coldIoapic low).mapChip fullCpu blank).2, (coldIoapic low).readAndMask) := by
  have hmapped : ((coldIoapic 0).mapChip fullCpu blank).1 = .success := by decide +kernel
  have hsame : (coldIoapic low).mapChip fullCpu blank = (coldIoapic 0).mapChip fullCpu blank := rfl
  rw [initializeIoapic]
  refine if_neg (not_not.mpr ?_)
  rw [hsame]
  exact hmapped

theorem masksAll_reset : MasksAll (coldIoapic 0x10000) (coldIoapic 0x10000).readAndMask :=
  (masksAll_iff (initializeIoapic_coldIoapic 0x10000)).mpr (Or.inr (by decide +kernel))

/-- **A line that firmware has left unmasked stays live.** -/
theorem not_masksAll_firmware :
    ¬ ∀ (cpu : CpuFeatures) (s s' : Backend) (a a' : Ioapic),
      a.initializeIoapic cpu s = (true, s', a') → MasksAll a a' := by
  intro h
  have hall := h fullCpu blank _ (coldIoapic 0) _ (initializeIoapic_coldIoapic 0)
  exact absurd (hall.masked 0 (by decide +kernel)) (by decide +kernel)

end Ioapic

end Interrupts

end MioOS
