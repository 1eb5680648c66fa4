import Mathlib.Tactic
import Mathlib.Order.CompletePartialOrder
import MioOS.Acpi.Madt

/-!
# Interrupts/Ioapic — `ioapic.cpp` over the registers of the chips

An I/O APIC is its `IOAPIC` object together with the chip's indirect registers.  The chip also keeps
which registers have been written, in order, for statements about what a routine touches.  Three
numberings meet here: global interrupts, the pins of one chip and its register indices.
-/

namespace MioOS

namespace Interrupts

open Acpi

/-- `CPU_IRQ_NUM`. -/
def cpuIrqNum : ℕ := 32

/-- `IOREDTBL`, the first register of the redirection table. -/
def ioredtbl : UInt32 := 0x10

/-- `IOAPICVER`. -/
def ioapicVer : UInt32 := 0x01

/-- The chip behind `ioapic_virt_base`. -/
structure Chip where
  /-- The register selected through `IOREGSEL`. -/
  select : UInt32
  regs : UInt32 → BitVec 32
  /-- The registers written through `IOWIN`, oldest first. -/
  written : List UInt32

/-- `IOAPIC`. -/
structure Ioapic where
  ioapicInfo : IoapicInfo
  chip : Chip
  initialized : Bool
  maxEntries : UInt32

/-- `IRQDeliveryMode`. -/
inductive DeliveryMode
  | fixed | low | smi | nmi | init | extInit
  deriving DecidableEq, Repr

/-- The bits of a delivery mode. -/
def DeliveryMode.bits : DeliveryMode → BitVec 3
  | fixed => 0b000
  | low => 0b001
  | smi => 0b010
  | nmi => 0b100
  | init => 0b101
  | extInit => 0b111

/-- `IRQDestinationMode`. -/
inductive DestinationMode
  | physical | logical
  deriving DecidableEq, Repr

/-- The bit of a destination mode. -/
def DestinationMode.bits : DestinationMode → BitVec 1
  | physical => 0
  | logical => 1

/-- `rte_t`, from the least significant field up. -/
structure Rte where
  vector : BitVec 8
  delvMode : BitVec 3
  destMode : BitVec 1
  delvStatus : BitVec 1
  pinPolarity : BitVec 1
  remoteIRR : BitVec 1
  triggerMode : BitVec 1
  mask : BitVec 1
  reserved : BitVec 39
  destination : BitVec 8
  deriving DecidableEq, Repr

namespace Rte

/-- The 64 bits of an entry. -/
def raw (e : Rte) : BitVec 64 :=
  e.destination ++ e.reserved ++ e.mask ++ e.triggerMode ++ e.remoteIRR ++ e.pinPolarity ++
    e.delvStatus ++ e.destMode ++ e.delvMode ++ e.vector

/-- `lowerDword`. -/
def lowerDword (e : Rte) : BitVec 32 := e.raw.extractLsb' 0 32

/-- `upperDword`. -/
def upperDword (e : Rte) : BitVec 32 := e.raw.extractLsb' 32 32

/-- A bit of the lower half, looked up in the fields. -/
theorem lowerDword_getLsbD (e : Rte) {i : ℕ} (hi : i < 32) :
    e.lowerDword.getLsbD i = e.raw.getLsbD i := by
  rw [lowerDword, BitVec.getLsbD_extractLsb', decide_eq_true hi, Bool.true_and, Nat.zero_add]

theorem lowerDword_vector (e : Rte) : e.lowerDword.extractLsb' 0 8 = e.vector := by
  refine BitVec.eq_of_getLsbD_eq fun i hi => ?_
  rw [BitVec.getLsbD_extractLsb', decide_eq_true hi, Bool.true_and, Nat.zero_add,
    e.lowerDword_getLsbD (by omega), raw, BitVec.getLsbD_append, if_pos hi]

theorem lowerDword_polarity (e : Rte) : e.lowerDword.getLsbD 13 = e.pinPolarity.getLsbD 0 := by
  rw [e.lowerDword_getLsbD (by norm_num)]
  simp only [raw, BitVec.getLsbD_append]
  rfl

theorem lowerDword_trigger (e : Rte) : e.lowerDword.getLsbD 15 = e.triggerMode.getLsbD 0 := by
  rw [e.lowerDword_getLsbD (by norm_num)]
  simp only [raw, BitVec.getLsbD_append]
  rfl

theorem lowerDword_mask (e : Rte) : e.lowerDword.getLsbD 16 = e.mask.getLsbD 0 := by
  rw [e.lowerDword_getLsbD (by norm_num)]
  simp only [raw, BitVec.getLsbD_append]
  rfl

end Rte

namespace Ioapic

/-- `read_reg`. -/
def readReg (a : Ioapic) (reg : UInt32) : BitVec 32 × Ioapic :=
  (a.chip.regs reg, { a with chip := { a.chip with select := reg } })

/-- `write_reg`. -/
def writeReg (a : Ioapic) (reg : UInt32) (value : BitVec 32) : Ioapic :=
  { a with
    chip :=
      { select := reg
        regs := Function.update a.chip.regs reg value
        written := a.chip.written ++ [reg] } }

/-- **`write_rte`**.  The interrupt arrives in eight bits. -/
def writeRte (a : Ioapic) (gsi vector dest : UInt8) (flags : UInt16) (masked : Bool)
    (delvMode : DeliveryMode := .fixed) (destMode : DestinationMode := .physical) : Ioapic :=
  if !a.initialized then a
  else
    let lowIndex := ioredtbl + gsi.toUInt32 * 2
    let highIndex := lowIndex + 1
    let rte : Rte :=
      { vector := vector.toBitVec
        delvMode := delvMode.bits
        destMode := destMode.bits
        delvStatus := 0
        pinPolarity := if flags &&& 2 ≠ 0 then 1 else 0
        remoteIRR := 0
        triggerMode := if flags &&& 8 ≠ 0 then 1 else 0
        mask := if masked then 1 else 0
        reserved := 0
        destination := dest.toBitVec }
    (a.writeReg lowIndex rte.lowerDword).writeReg highIndex rte.upperDword

/-- **`mask_gsi`**.  The interrupt arrives in eight bits. -/
def maskGsi (a : Ioapic) (gsi : UInt8) : Ioapic :=
  let regLow := 0x10 + gsi.toUInt32 * 2
  let (currentLow, a) := a.readReg regLow
  a.writeReg regLow (currentLow ||| 1 <<< 16)

/-- `get_gsi_base`. -/
def gsiBase (a : Ioapic) : UInt32 := a.ioapicInfo.gsib

/-- Does this I/O APIC own this GSI?  The end of the range is a 32-bit sum. -/
def owns (a : Ioapic) (gsi : UInt32) : Bool :=
  a.initialized && a.gsiBase ≤ gsi && gsi < a.gsiBase + a.maxEntries

end Ioapic

/-- What the routing reads and writes: the overrides and I/O APICs of `SystemTopology`, the BSP's
APIC id and the SCI's interrupt. -/
structure Routing where
  overrides : List IoapicIso
  ioApicObjs : List Ioapic
  bspLocalApicId : UInt32
  sciIrq : UInt16

namespace Routing

/-- **`get_gsi_for_irq`**: the GSI and the flags. -/
def getGsiForIrq (s : Routing) (irq : UInt8) : UInt32 × UInt16 :=
  match s.overrides.find? (fun o => o.irqSource = irq) with
  | some override => (override.gsi, override.flags)
  | none => (irq.toUInt32, if irq.toUInt16 = s.sciIrq then 10 else 0)

/-- **`get_ioapic_for_gsi`**: the position of the first I/O APIC that owns the GSI. -/
def getIoapicForGsi (gsi : UInt32) (ioapics : List Ioapic) : Option ℕ :=
  ioapics.findIdx? (·.owns gsi)

/-- The default destination -1 stands for the BSP. -/
def destinationOf (s : Routing) (destination : Int) : UInt8 :=
  if destination = -1 then s.bspLocalApicId.toUInt8 else UInt8.ofInt destination

/-- **`find_gsi_and_write_rte`**. -/
def findGsiAndWriteRte (s : Routing) (vector : UInt8) (destination : Int := -1) : Bool × Routing :=
  let (gsi, flags) := s.getGsiForIrq (vector - UInt8.ofNat cpuIrqNum)
  match getIoapicForGsi gsi s.ioApicObjs with
  | none => (false, s)
  | some i =>
    (true, { s with
      ioApicObjs := s.ioApicObjs.modify i fun a =>
        a.writeRte gsi.toUInt8 vector (s.destinationOf destination) flags false })

end Routing

/-! ## Ranges and pins -/

namespace Ioapic

/-- An I/O APIC that has been initialized: its version register reports 256 entries at most. -/
structure Ready (a : Ioapic) : Prop where
  initialized : a.initialized = true
  entries : a.maxEntries.toNat ≤ 256

/-- The GSIs of an I/O APIC. -/
def range (a : Ioapic) : Set ℕ :=
  Set.Ico a.gsiBase.toNat (a.gsiBase.toNat + a.maxEntries.toNat)

/-- The pin a GSI of the range arrives at. -/
def pin (a : Ioapic) (gsi : UInt32) : ℕ := gsi.toNat - a.gsiBase.toNat

/-- The low register of a pin. -/
def redirectionLow (pin : ℕ) : UInt32 := ioredtbl + UInt32.ofNat pin * 2

/-- The high register of a pin. -/
def redirectionHigh (pin : ℕ) : UInt32 := redirectionLow pin + 1

variable {a a' : Ioapic} {gsi : UInt32}

/-- **Ownership as the code decides it**: the end of the range must not wrap. -/
theorem owns_iff (h : a.Ready) :
    a.owns gsi = true ↔
      gsi.toNat ∈ a.range ∧ a.gsiBase.toNat + a.maxEntries.toNat < 2 ^ 32 := by
  have hentries := h.entries
  have hgsi := gsi.toNat_lt
  have hbase := a.gsiBase.toNat_lt
  rw [owns, h.initialized, Bool.true_and, Bool.and_eq_true, decide_eq_true_iff, decide_eq_true_iff,
    UInt32.le_iff_toNat_le, UInt32.lt_iff_toNat_lt, UInt32.toNat_add, range, Set.mem_Ico]
  omega

theorem redirectionLow_inj {p q : ℕ} (hp : p < 256) (hq : q < 256)
    (h : redirectionLow p = redirectionLow q) : p = q := by
  have h2 : (2 : UInt32).toNat = 2 := rfl
  have h16 : ioredtbl.toNat = 16 := rfl
  have h' := congrArg UInt32.toNat h
  rw [redirectionLow, redirectionLow, UInt32.toNat_add, UInt32.toNat_add, UInt32.toNat_mul,
    UInt32.toNat_mul, UInt32.toNat_ofNat', UInt32.toNat_ofNat', h2, h16] at h'
  omega

/-- The low registers are the even ones. -/
theorem redirectionLow_mod_two (p : ℕ) : (redirectionLow p).toNat % 2 = 0 := by
  have h2 : (2 : UInt32).toNat = 2 := rfl
  have h16 : ioredtbl.toNat = 16 := rfl
  rw [redirectionLow, UInt32.toNat_add, UInt32.toNat_mul, UInt32.toNat_ofNat', h2, h16]
  omega

theorem redirectionLow_ne_high (p q : ℕ) : redirectionLow p ≠ redirectionHigh q := by
  intro h
  have h' := congrArg UInt32.toNat h
  rw [redirectionHigh, UInt32.toNat_add] at h'
  have h1 : (1 : UInt32).toNat = 1 := rfl
  have hp := redirectionLow_mod_two p
  have hq := redirectionLow_mod_two q
  omega

theorem redirectionHigh_inj {p q : ℕ} (hp : p < 256) (hq : q < 256)
    (h : redirectionHigh p = redirectionHigh q) : p = q :=
  redirectionLow_inj hp hq ((UInt32.add_left_inj 1).mp h)

/-! ## What routing and masking should do -/

/-- **Programming a pin**: only its two registers are written, its entry gets the vector and the
polarity and trigger mode of the flags, unmasked, and every other register keeps its value. -/
structure Programs (a a' : Ioapic) (pin : ℕ) (vector : UInt8) (flags : UInt16) : Prop where
  written : a'.chip.written = a.chip.written ++ [redirectionLow pin, redirectionHigh pin]
  vector : (a'.chip.regs (redirectionLow pin)).extractLsb' 0 8 = vector.toBitVec
  polarity : (a'.chip.regs (redirectionLow pin)).getLsbD 13 = flags.toNat.testBit 1
  trigger : (a'.chip.regs (redirectionLow pin)).getLsbD 15 = flags.toNat.testBit 3
  unmasked : (a'.chip.regs (redirectionLow pin)).getLsbD 16 = false
  kept : ∀ r, r ≠ redirectionLow pin → r ≠ redirectionHigh pin → a'.chip.regs r = a.chip.regs r

/-- **Masking a pin**: only its low register is written, and of it only the mask bit changes. -/
structure Masks (a a' : Ioapic) (pin : ℕ) : Prop where
  written : a'.chip.written = a.chip.written ++ [redirectionLow pin]
  masked : a'.chip.regs (redirectionLow pin) = a.chip.regs (redirectionLow pin) ||| 1 <<< 16
  kept : ∀ r, r ≠ redirectionLow pin → a'.chip.regs r = a.chip.regs r

/-- A bit of the flags, as the code tests it. -/
theorem testBit_flags (flags mask : UInt16) {i : ℕ} (h : mask.toNat = 2 ^ i) :
    (if flags &&& mask ≠ 0 then (1 : BitVec 1) else 0).getLsbD 0 = flags.toNat.testBit i := by
  have hbit : flags &&& mask ≠ 0 ↔ flags.toNat.testBit i = true := by
    rw [ne_eq, ← UInt16.toNat_inj, UInt16.toNat_and, h, Nat.and_two_pow]
    cases flags.toNat.testBit i <;> simp
  rw [if_congr hbit rfl rfl]
  cases flags.toNat.testBit i <;> rfl

/-- The index of an interrupt of eight bits. -/
theorem toUInt32_index (gsi : UInt8) : ioredtbl + gsi.toUInt32 * 2 = redirectionLow gsi.toNat := by
  rw [redirectionLow]
  congr 2
  refine UInt32.toNat_inj.mp ?_
  rw [UInt8.toNat_toUInt32, UInt32.toNat_ofNat', Nat.mod_eq_of_lt]
  exact gsi.toNat_lt.trans (by norm_num)

/-- **The two writes** of an initialized object's `write_rte`. -/
theorem writeRte_eq (h : a.initialized = true) (gsi vector dest : UInt8) (flags : UInt16)
    (masked : Bool) : ∃ e : Rte,
      a.writeRte gsi vector dest flags masked
        = (a.writeReg (redirectionLow gsi.toNat) e.lowerDword).writeReg
            (redirectionHigh gsi.toNat) e.upperDword ∧
      e.vector = vector.toBitVec ∧ e.pinPolarity = (if flags &&& 2 ≠ 0 then 1 else 0) ∧
      e.triggerMode = (if flags &&& 8 ≠ 0 then 1 else 0) ∧
      e.mask = (if masked then 1 else 0) := by
  rw [writeRte, h, Bool.not_true, if_neg Bool.false_ne_true, redirectionHigh, ← toUInt32_index]
  exact ⟨_, rfl, rfl, rfl, rfl, rfl⟩

/-- **`write_rte`** programs the pin with the low eight bits of the GSI for its number. -/
theorem programs_writeRte (h : a.initialized = true) (gsi : UInt32) (vector dest : UInt8)
    (flags : UInt16) :
    Programs a (a.writeRte gsi.toUInt8 vector dest flags false) (gsi.toNat % 256) vector flags := by
  obtain ⟨e, heq, hvector, hpolarity, htrigger, hmask⟩ :=
    writeRte_eq h gsi.toUInt8 vector dest flags false
  have hpin : gsi.toUInt8.toNat = gsi.toNat % 256 := UInt32.toNat_toUInt8 gsi
  rw [heq, hpin]
  have hlow : ((a.writeReg (redirectionLow (gsi.toNat % 256)) e.lowerDword).writeReg
      (redirectionHigh (gsi.toNat % 256)) e.upperDword).chip.regs
        (redirectionLow (gsi.toNat % 256)) = e.lowerDword :=
    (Function.update_of_ne (redirectionLow_ne_high _ _) ..).trans (Function.update_self ..)
  refine ⟨List.append_assoc .., ?_, ?_, ?_, ?_, fun r hlo hhi =>
    (Function.update_of_ne hhi ..).trans (Function.update_of_ne hlo ..)⟩
  · rw [hlow, e.lowerDword_vector, hvector]
  · rw [hlow, e.lowerDword_polarity, hpolarity]
    exact testBit_flags (i := 1) flags 2 rfl
  · rw [hlow, e.lowerDword_trigger, htrigger]
    exact testBit_flags (i := 3) flags 8 rfl
  · rw [hlow, e.lowerDword_mask, hmask]
    rfl

/-- **`mask_gsi`** masks the pin of its eight bits. -/
theorem masks_maskGsi_byte (a : Ioapic) (gsi : UInt8) : Masks a (a.maskGsi gsi) gsi.toNat := by
  have hreg : 0x10 + gsi.toUInt32 * 2 = redirectionLow gsi.toNat := toUInt32_index gsi
  have hmask : a.maskGsi gsi
      = (a.readReg (redirectionLow gsi.toNat)).2.writeReg (redirectionLow gsi.toNat)
          (a.chip.regs (redirectionLow gsi.toNat) ||| 1 <<< 16) := by
    rw [← hreg]
    rfl
  rw [hmask]
  exact ⟨rfl, Function.update_self .., fun r hr => Function.update_of_ne hr ..⟩

/-- Of a GSI the low eight bits are its pin. -/
theorem masks_maskGsi (a : Ioapic) (gsi : UInt32) :
    Masks a (a.maskGsi gsi.toUInt8) (gsi.toNat % 256) := by
  rw [← UInt32.toNat_toUInt8]
  exact masks_maskGsi_byte a gsi.toUInt8

end Ioapic

/-! ## Routing an interrupt -/

namespace Routing

open Ioapic

variable {s : Routing} {a : Ioapic} {i : ℕ} {gsi : UInt32} {vector : UInt8} {d : Int}

/-- What a machine's I/O APICs promise: they are initialized and share no GSI. -/
structure WellFormed (s : Routing) : Prop where
  ready : ∀ a ∈ s.ioApicObjs, a.Ready
  disjoint : s.ioApicObjs.Pairwise fun a b => Disjoint a.range b.range

/-- The GSI and the flags of a vector. -/
def route (s : Routing) (vector : UInt8) : UInt32 × UInt16 :=
  s.getGsiForIrq (vector - UInt8.ofNat cpuIrqNum)

/-- **The right entry is programmed**: that of the pin of the vector's GSI on the I/O APIC at `i`;
the other chips are left alone. -/
def RoutesRight (s : Routing) (vector : UInt8) (d : Int) (i : ℕ) (a : Ioapic) : Prop :=
  ∃ s', s.findGsiAndWriteRte vector d = (true, s') ∧
    (∀ j ≠ i, s'.ioApicObjs[j]? = s.ioApicObjs[j]?) ∧
    ∃ a', s'.ioApicObjs[i]? = some a' ∧ a.pin (s.route vector).1 < a.maxEntries.toNat ∧
      Programs a a' (a.pin (s.route vector).1) vector (s.route vector).2

/-- **The right pin is masked**, for every GSI of the I/O APIC. -/
def MasksRight (a : Ioapic) : Prop :=
  ∀ gsi : UInt32, gsi.toNat ∈ a.range → Masks a (a.maskGsi gsi.toUInt8) (a.pin gsi)

/-- A GSI has one owner. -/
theorem WellFormed.owner_unique (h : s.WellFormed) {b : Ioapic} {j : ℕ}
    (ha : s.ioApicObjs[i]? = some a) (hb : s.ioApicObjs[j]? = some b) (hga : gsi.toNat ∈ a.range)
    (hgb : gsi.toNat ∈ b.range) : j = i := by
  obtain ⟨hi, rfl⟩ := List.getElem?_eq_some_iff.mp ha
  obtain ⟨hj, rfl⟩ := List.getElem?_eq_some_iff.mp hb
  have hapart := List.pairwise_iff_getElem.mp h.disjoint
  rcases lt_trichotomy j i with hlt | heq | hlt
  · exact absurd hga (Set.disjoint_left.mp (hapart j i hj hi hlt) hgb)
  · exact heq
  · exact absurd hgb (Set.disjoint_left.mp (hapart i j hi hj hlt) hga)

/-- **The search finds the owner**, unless the end of its range wraps. -/
theorem getIoapicForGsi_eq (h : s.WellFormed) (ha : s.ioApicObjs[i]? = some a)
    (hg : gsi.toNat ∈ a.range) :
    getIoapicForGsi gsi s.ioApicObjs
      = if a.gsiBase.toNat + a.maxEntries.toNat < 2 ^ 32 then some i else none := by
  rw [getIoapicForGsi]
  cases hfind : s.ioApicObjs.findIdx? (·.owns gsi) with
  | none =>
    have hmem : a ∈ s.ioApicObjs := List.mem_of_getElem? ha
    have hno := List.findIdx?_eq_none_iff.mp hfind a hmem
    have hwrap : ¬ a.gsiBase.toNat + a.maxEntries.toNat < 2 ^ 32 := fun hlt =>
      Bool.false_ne_true (hno.symm.trans ((owns_iff (h.ready a hmem)).mpr ⟨hg, hlt⟩))
    exact (if_neg hwrap).symm
  | some j =>
    obtain ⟨hj, howns, -⟩ := List.findIdx?_eq_some_iff_getElem.mp hfind
    obtain ⟨hgj, hlt⟩ := (owns_iff (h.ready _ (List.getElem_mem hj))).mp howns
    have hbj : s.ioApicObjs[j]? = some s.ioApicObjs[j] := List.getElem?_eq_getElem hj
    obtain rfl := h.owner_unique ha hbj hg hgj
    obtain rfl := Option.some.inj (hbj.symm.trans ha)
    exact (if_pos hlt).symm

/-- **What `find_gsi_and_write_rte` does**: nothing, or it writes an entry of the owner the search
finds. -/
theorem findGsiAndWriteRte_cases (s : Routing) (vector : UInt8) (d : Int) :
    (getIoapicForGsi (s.route vector).1 s.ioApicObjs = none ∧
        s.findGsiAndWriteRte vector d = (false, s)) ∨
      ∃ i, getIoapicForGsi (s.route vector).1 s.ioApicObjs = some i ∧
        s.findGsiAndWriteRte vector d =
          (true, { s with
            ioApicObjs := s.ioApicObjs.modify i fun a =>
              a.writeRte (s.route vector).1.toUInt8 vector (s.destinationOf d)
                (s.route vector).2 false }) := by
  cases h : getIoapicForGsi (s.route vector).1 s.ioApicObjs with
  | none =>
    refine Or.inl ⟨rfl, ?_⟩
    rw [route] at h
    rw [findGsiAndWriteRte]
    simp only [h]
  | some i =>
    refine Or.inr ⟨i, rfl, ?_⟩
    rw [route] at h
    rw [findGsiAndWriteRte]
    simp only [h]
    rfl

/-- The owner a search finds. -/
theorem exists_of_getIoapicForGsi (h : getIoapicForGsi gsi s.ioApicObjs = some i) :
    ∃ a, s.ioApicObjs[i]? = some a ∧ a.owns gsi = true := by
  obtain ⟨hi, howns, -⟩ := List.findIdx?_eq_some_iff_getElem.mp h
  exact ⟨_, List.getElem?_eq_getElem hi, howns⟩

/-- What initialization leaves in an object: a version register reports 256 entries at most. -/
def Sized (s : Routing) : Prop :=
  ∀ a ∈ s.ioApicObjs, a.initialized = true → a.maxEntries.toNat ≤ 256

/-- The owner a search finds has been initialized, and the GSI is in its range. -/
theorem owner_spec (hi : getIoapicForGsi gsi s.ioApicObjs = some i)
    (ha : s.ioApicObjs[i]? = some a) : a.initialized = true ∧ gsi.toNat ∈ a.range := by
  obtain ⟨b, hb, howns⟩ := exists_of_getIoapicForGsi hi
  obtain rfl := Option.some.inj (ha.symm.trans hb)
  rw [owns, Bool.and_eq_true, Bool.and_eq_true, decide_eq_true_iff, decide_eq_true_iff,
    UInt32.le_iff_toNat_le, UInt32.lt_iff_toNat_lt, UInt32.toNat_add] at howns
  exact ⟨howns.1.1, howns.1.2, howns.2.trans_le (Nat.mod_le _ _)⟩

theorem Sized.entries_le (h : s.Sized) (hi : getIoapicForGsi gsi s.ioApicObjs = some i)
    (ha : s.ioApicObjs[i]? = some a) : a.maxEntries.toNat ≤ 256 :=
  h a (List.mem_of_getElem? ha) (owner_spec hi ha).1

/-- **The registers written** when an entry of the chip at `i` is. -/
theorem mem_written_writeRte {dest : UInt8} {flags : UInt16} {b b' : Ioapic} {j : ℕ} {r : UInt32}
    (hinit : a.initialized = true) (ha : s.ioApicObjs[i]? = some a)
    (hb : s.ioApicObjs[j]? = some b)
    (hb' : (s.ioApicObjs.modify i fun a => a.writeRte gsi.toUInt8 vector dest flags false)[j]?
      = some b') :
    r ∈ b'.chip.written.drop b.chip.written.length ↔
      j = i ∧ (r = redirectionLow (gsi.toNat % 256) ∨ r = redirectionHigh (gsi.toNat % 256)) := by
  by_cases hij : i = j
  · subst hij
    rw [List.getElem?_modify_eq, ha] at hb'
    obtain rfl := Option.some.inj (ha.symm.trans hb)
    obtain rfl := Option.some.inj hb'
    rw [(programs_writeRte hinit gsi vector dest flags).written, List.drop_left, List.mem_pair]
    exact (and_iff_right rfl).symm
  · rw [List.getElem?_modify_ne _ _ hij, hb] at hb'
    obtain rfl := Option.some.inj hb'
    rw [List.drop_length]
    exact iff_of_false List.not_mem_nil fun h => hij h.1.symm

/-- Writing a chip's registers moves no GSI to another owner. -/
theorem getIoapicForGsi_modify {f : Ioapic → Ioapic} (hf : ∀ a, (f a).owns gsi = a.owns gsi)
    (l : List Ioapic) (i : ℕ) : getIoapicForGsi gsi (l.modify i f) = getIoapicForGsi gsi l := by
  have hmap : (l.modify i f).map (·.owns gsi) = l.map (·.owns gsi) := by
    refine List.ext_getElem? fun j => ?_
    rw [List.getElem?_map, List.getElem?_modify, List.getElem?_map]
    cases l[j]? with
    | none => rfl
    | some a => by_cases hij : i = j <;> simp [hij, hf]
  have hfind (l : List Ioapic) : getIoapicForGsi gsi l = (l.map (·.owns gsi)).findIdx? id := by
    rw [List.findIdx?_map]
    rfl
  rw [hfind, hfind, hmap]

/-- **What `find_gsi_and_write_rte` does** for a GSI somebody owns. -/
theorem findGsiAndWriteRte_eq (h : s.WellFormed) (ha : s.ioApicObjs[i]? = some a)
    (hg : (s.route vector).1.toNat ∈ a.range) :
    s.findGsiAndWriteRte vector d =
      if a.gsiBase.toNat + a.maxEntries.toNat < 2 ^ 32 then
        (true, { s with
          ioApicObjs := s.ioApicObjs.modify i fun a =>
            a.writeRte (s.route vector).1.toUInt8 vector (s.destinationOf d)
              (s.route vector).2 false })
      else (false, s) := by
  have hsearch := getIoapicForGsi_eq h ha hg
  obtain ⟨hnone, heq⟩ | ⟨j, hsome, heq⟩ := s.findGsiAndWriteRte_cases vector d
  · rw [hnone] at hsearch
    rw [heq, if_neg fun hlt => absurd (hsearch.trans (if_pos hlt)).symm (Option.some_ne_none i)]
  · rw [hsome] at hsearch
    split at hsearch
    · obtain rfl := Option.some.inj hsearch
      rw [heq, if_pos ‹_›]
    · exact absurd hsearch (Option.some_ne_none j)

/-- The pin the code uses is the right one exactly when the GSI base is a multiple of 256. -/
theorem pin_eq_iff (ha : a.Ready) (hg : gsi.toNat ∈ a.range) :
    gsi.toNat % 256 = a.pin gsi ↔ a.gsiBase.toNat % 256 = 0 := by
  obtain ⟨hle, hlt⟩ := hg
  have hentries := ha.entries
  rw [pin]
  omega

theorem pin_lt (ha : a.Ready) (hg : gsi.toNat ∈ a.range) :
    a.pin gsi < 256 ∧ a.pin gsi < a.maxEntries.toNat := by
  obtain ⟨hle, hlt⟩ := hg
  have hentries := ha.entries
  rw [pin]
  omega

/-- **Routing.** -/
theorem routesRight_iff (h : s.WellFormed) (d : Int) (ha : s.ioApicObjs[i]? = some a)
    (hg : (s.route vector).1.toNat ∈ a.range) :
    RoutesRight s vector d i a ↔
      a.gsiBase.toNat % 256 = 0 ∧ a.gsiBase.toNat + a.maxEntries.toNat < 2 ^ 32 := by
  have hready := h.ready a (List.mem_of_getElem? ha)
  have hcode := findGsiAndWriteRte_eq (d := d) h ha hg
  have hprograms := programs_writeRte hready.initialized (s.route vector).1 vector
    (s.destinationOf d) (s.route vector).2
  set b := a.writeRte (s.route vector).1.toUInt8 vector (s.destinationOf d) (s.route vector).2 false
    with hb
  by_cases hlt : a.gsiBase.toNat + a.maxEntries.toNat < 2 ^ 32
  · rw [if_pos hlt] at hcode
    have hat : (s.ioApicObjs.modify i fun a => a.writeRte (s.route vector).1.toUInt8 vector
        (s.destinationOf d) (s.route vector).2 false)[i]? = some b := by
      rw [List.getElem?_modify_eq, ha, hb]
      rfl
    rw [← pin_eq_iff hready hg]
    constructor
    · rintro ⟨s', hres, -, a', ha', -, hright⟩
      obtain ⟨-, rfl⟩ := Prod.mk.inj (hcode.symm.trans hres)
      obtain rfl := Option.some.inj (hat.symm.trans ha')
      have hwritten := List.append_cancel_left (hprograms.written.symm.trans hright.written)
      exact ⟨redirectionLow_inj (Nat.mod_lt _ (by norm_num)) (pin_lt hready hg).1
        (List.cons.inj hwritten).1, hlt⟩
    · rintro ⟨hpin, -⟩
      refine ⟨_, hcode, fun j hj => List.getElem?_modify_ne _ _ (Ne.symm hj), b, hat,
        (pin_lt hready hg).2, ?_⟩
      rw [← hpin]
      exact hprograms
  · rw [if_neg hlt] at hcode
    constructor
    · rintro ⟨s', hres, -⟩
      exact absurd (Prod.mk.inj (hcode.symm.trans hres)).1 Bool.false_ne_true
    · rintro ⟨-, hlt'⟩
      exact absurd hlt' hlt

/-- **Masking.** -/
theorem masksRight_iff (ha : a.Ready) (hg : gsi.toNat ∈ a.range) :
    MasksRight a ↔ a.gsiBase.toNat % 256 = 0 := by
  constructor
  · intro hmasks
    have hwritten := List.append_cancel_left
      ((masks_maskGsi a gsi).written.symm.trans (hmasks gsi hg).written)
    exact (pin_eq_iff ha hg).mp (redirectionLow_inj (Nat.mod_lt _ (by norm_num)) (pin_lt ha hg).1
      (List.singleton_inj.mp hwritten))
  · intro hbase gsi hg
    rw [← (pin_eq_iff ha hg).mpr hbase]
    exact masks_maskGsi a gsi

/-- **Interrupts are routed and masked at the right pin** of an I/O APIC exactly when its GSI base
is a multiple of 256 and its range ends below `2 ^ 32`. -/
theorem routesRight_and_masksRight_iff (h : s.WellFormed) (d : Int)
    (ha : s.ioApicObjs[i]? = some a) (hg : (s.route vector).1.toNat ∈ a.range) :
    (RoutesRight s vector d i a ∧ MasksRight a) ↔
      a.gsiBase.toNat % 256 = 0 ∧ a.gsiBase.toNat + a.maxEntries.toNat < 2 ^ 32 := by
  rw [routesRight_iff h d ha hg, masksRight_iff (h.ready a (List.mem_of_getElem? ha)) hg]
  exact and_iff_left_of_imp And.left

/-! ## Two I/O APICs of 24 pins -/

/-- An initialized I/O APIC of 24 pins with this base, all of them masked. -/
def ioapicAt (gsib : UInt32) : Ioapic where
  ioapicInfo := ⟨0, 0xFEC00000, gsib⟩
  chip := ⟨0, fun r => if r = ioapicVer then 0x170020 else 0x10000, []⟩
  initialized := true
  maxEntries := 24

/-- Two of them side by side, and an override that takes IRQ 5 to GSI 30. -/
def twoIoapics : Routing := ⟨[⟨0, 5, 30, 0⟩], [ioapicAt 0, ioapicAt 24], 0, 9⟩

theorem wellFormed_twoIoapics : twoIoapics.WellFormed where
  ready := by
    intro a ha
    simp only [twoIoapics, List.mem_cons, List.not_mem_nil, or_false] at ha
    rcases ha with rfl | rfl <;> exact ⟨rfl, by decide⟩
  disjoint := by
    refine List.pairwise_pair.mpr (Set.disjoint_left.mpr fun x hx hx' => ?_)
    exact absurd hx'.1 (not_le.mpr hx.2)

/-- IRQ 1 is routed to pin 1 of the first chip. -/
theorem routesRight_irq1 :
    RoutesRight twoIoapics 33 (-1) 0 (ioapicAt 0) ∧ MasksRight (ioapicAt 0) := by
  have hrange : (twoIoapics.route 33).1.toNat ∈ (ioapicAt 0).range :=
    show 1 ∈ Set.Ico 0 (0 + 24) by decide
  exact (routesRight_and_masksRight_iff wellFormed_twoIoapics (-1) rfl hrange).mpr
    ⟨rfl, by decide⟩

/-- **GSI 30 of the second chip is programmed at pin 30**, not at pin 6. -/
theorem not_routesRight_irq5 :
    ¬ ∀ (s : Routing) (vector : UInt8) (d : Int) (i : ℕ) (a : Ioapic), s.WellFormed →
      32 ≤ vector.toNat → s.ioApicObjs[i]? = some a → (s.route vector).1.toNat ∈ a.range →
      RoutesRight s vector d i a ∧ MasksRight a := by
  intro h
  have hrange : (twoIoapics.route 37).1.toNat ∈ (ioapicAt 24).range :=
    show 30 ∈ Set.Ico 24 (24 + 24) by decide
  have hroutes := (h twoIoapics 37 (-1) 1 (ioapicAt 24) wellFormed_twoIoapics (by decide) rfl
    hrange).1
  exact absurd ((routesRight_iff wellFormed_twoIoapics (-1) rfl hrange).mp hroutes).1 (by decide)

end Routing

end Interrupts

end MioOS
