import MioOS.Library.BitField
import MioOS.Memory.Defs

/-!
# Interrupts/Descriptors — `gdt.cpp`, `idt.cpp` and what the CPU reads from their tables

`set_descriptor` and `set_gate` scatter an address over the fields of a descriptor; `segmentAt` and
`gateAt` are how the CPU puts it together again.  `setDescriptor_spec` and `setGate_spec` are the
round trips, for every base, limit, selector and flag; the tables of `GDT::initialize` and of the two
initializations of the IDT follow entry by entry.
-/

namespace MioOS

open ByteMemory BitField

/-! ## Segment descriptors -/

namespace Gdt

/-- `set_descriptor`. -/
def setDescriptor (m : Mem) (seg base limit access flags : ℕ) : Mem :=
  if seg = 0 then m
  else
    let m := m.store 2 seg limit
    let m := setField m (seg + 6) 0 4 (limit >>> 16 % 256)
    let m := m.store 2 (seg + 2) base
    let m := m.store 1 (seg + 4) (base >>> 16)
    let m := m.store 1 (seg + 7) (base >>> 24)
    let m := m.store 1 (seg + 5) access
    setField m (seg + 6) 4 4 flags

/-- A segment as the CPU sees it. -/
structure Segment where
  base : ℕ
  limit : ℕ
  access : ℕ
  flags : ℕ
  deriving DecidableEq, Repr

/-- The descriptor of eight bytes at an address. -/
def segmentAt (m : Mem) (seg : ℕ) : Segment where
  base := m.load 2 (seg + 2) + 2 ^ 16 * m.load 1 (seg + 4) + 2 ^ 24 * m.load 1 (seg + 7)
  limit := m.load 2 seg + 2 ^ 16 * field m (seg + 6) 0 4
  access := m.load 1 (seg + 5)
  flags := field m (seg + 6) 4 4

/-- The base of the system segment at an address: its descriptor has sixteen bytes. -/
def systemBaseAt (m : Mem) (seg : ℕ) : ℕ := (segmentAt m seg).base + 2 ^ 32 * m.load 4 (seg + 8)

variable {m m' : Mem} {seg base limit access flags x : ℕ}

/-- The CPU reads the eight bytes of a descriptor. -/
theorem segmentAt_congr (h : ∀ i < 8, m' (seg + i) = m (seg + i)) :
    segmentAt m' seg = segmentAt m seg := by
  have hload : ∀ k o, o + k ≤ 8 → m'.load k (seg + o) = m.load k (seg + o) := fun k o hko =>
    Mem.load_congr fun i hi => by
      rw [Nat.add_assoc]
      exact h _ (by omega)
  have h0 : m'.load 2 seg = m.load 2 seg := hload 2 0 (by decide)
  rw [segmentAt, segmentAt, field, field, field, field, h0, hload 2 2 (by decide),
    hload 1 4 (by decide), hload 1 7 (by decide), hload 1 6 (by decide), hload 1 5 (by decide)]

/-- **The CPU sees what `set_descriptor` was given**, and nothing else changes. -/
theorem setDescriptor_spec (m : Mem) (hseg : seg ≠ 0) (hbase : base < 2 ^ 32) (hlimit : limit < 2 ^ 20)
    (haccess : access < 2 ^ 8) (hflags : flags < 2 ^ 4) :
    segmentAt (setDescriptor m seg base limit access flags) seg = ⟨base, limit, access, flags⟩ ∧
      ∀ x, x < seg ∨ seg + 8 ≤ x → setDescriptor m seg base limit access flags x = m x := by
  rw [setDescriptor, if_neg hseg]
  dsimp only
  constructor
  · rw [segmentAt, Segment.mk.injEq]
    refine ⟨?_, ?_, ?_, ?_⟩
    · simp (disch := omega) only [load_setField_of_ne, Mem.load_store_of_disjoint,
        Mem.load_store_same, Nat.shiftRight_eq_div_pow]
      omega
    · rw [field_setField_below (by decide) (by decide)]
      have hhigh : ∀ {m : Mem} {k a v : ℕ}, a + k ≤ seg + 6 ∨ seg + 7 ≤ a →
          field (m.store k a v) (seg + 6) 0 4 = field m (seg + 6) 0 4 := fun h =>
        congrArg (bits · 0 4) (Mem.load_store_of_disjoint h)
      simp (disch := omega) only [hhigh, load_setField_of_ne, Mem.load_store_of_disjoint,
        Mem.load_store_same, field_setField_self, Nat.shiftRight_eq_div_pow]
      omega
    · rw [load_setField_of_ne (by omega), Mem.load_store_same]
      omega
    · rw [field_setField_self (by decide)]
      omega
  · rintro x (hx | hx)
    · simp (disch := omega) only [setField_apply_of_ne, Mem.store_apply_of_lt]
    · simp (disch := omega) only [setField_apply_of_ne, Mem.store_apply_of_ge]

/-- A segment whose fields fit their widths. -/
structure Segment.Fits (d : Segment) : Prop where
  base : d.base < 2 ^ 32
  limit : d.limit < 2 ^ 20
  access : d.access < 2 ^ 8
  flags : d.flags < 2 ^ 4

/-- Descriptors written one after the other. -/
def setDescriptors (m : Mem) (seg : ℕ) : List Segment → Mem
  | [] => m
  | d :: ds => setDescriptors (setDescriptor m seg d.base d.limit d.access d.flags) (seg + 8) ds

/-- **A table that was written is read back.** -/
theorem setDescriptors_spec {ds : List Segment} (hds : ∀ d ∈ ds, d.Fits) (hseg : seg ≠ 0) (m : Mem) :
    (∀ i (hi : i < ds.length), segmentAt (setDescriptors m seg ds) (seg + 8 * i) = ds[i]) ∧
      ∀ x, x < seg ∨ seg + 8 * ds.length ≤ x → setDescriptors m seg ds x = m x := by
  induction ds generalizing m seg with
  | nil => exact ⟨fun i hi => absurd hi (Nat.not_lt_zero i), fun _ _ => rfl⟩
  | cons d ds ih =>
    obtain ⟨hb, hl, ha, hf⟩ := hds d List.mem_cons_self
    obtain ⟨hself, hframe⟩ := setDescriptor_spec m hseg hb hl ha hf
    obtain ⟨hrest, hframe'⟩ := ih (fun d hd => hds d (List.mem_cons_of_mem _ hd))
      (show seg + 8 ≠ 0 by omega) (setDescriptor m seg d.base d.limit d.access d.flags)
    refine ⟨fun i hi => ?_, fun x hx => ?_⟩
    · rw [setDescriptors]
      cases i with
      | zero => exact (segmentAt_congr fun k hk => hframe' _ (by omega)).trans hself
      | succ i =>
        have hi' := hrest i (Nat.lt_of_succ_lt_succ hi)
        rwa [show seg + 8 + 8 * i = seg + 8 * (i + 1) by omega] at hi'
    · rw [List.length_cons] at hx
      rw [setDescriptors, hframe' x (by omega), hframe x (by omega)]

/-- `sizeof(gdt_seg_t)`. -/
def segmentBytes : ℕ := 8

/-- `GDT_SEGMENT_QUANTITY`. -/
def segmentQuantity : ℕ := 7

/-- `sizeof(tss_ent_t)`. -/
def tssBytes : ℕ := 104

/-- **`GDT::initialize`** from the `memset` to the `lgdt`, with the array at `segs`. -/
def initializeGdt (m : Mem) (segs tssBase : ℕ) : Mem :=
  let m := m.fill (segmentBytes * segmentQuantity) segs 0
  let m := setDescriptor m segs 0 0 0 0
  let m := setDescriptor m (segs + 8) 0 0xFFFFF 0x9A 0xA
  let m := setDescriptor m (segs + 16) 0 0xFFFFF 0x92 0xC
  let m := setDescriptor m (segs + 24) 0 0xFFFFF 0xF2 0xA
  let m := setDescriptor m (segs + 32) 0 0xFFFFF 0xFA 0xC
  let m := setDescriptor m (segs + 40) (u32 tssBase) (tssBytes - 1) 0x89 0
  let m := m.store 4 (segs + 48) (u32 (tssBase >>> 32))
  m.store 4 (segs + 52) 0

/-- The descriptors before the upper half of the base of the TSS. -/
def segments (tssBase : ℕ) : List Segment :=
  [⟨0, 0, 0, 0⟩, ⟨0, 0xFFFFF, 0x9A, 0xA⟩, ⟨0, 0xFFFFF, 0x92, 0xC⟩, ⟨0, 0xFFFFF, 0xF2, 0xA⟩,
    ⟨0, 0xFFFFF, 0xFA, 0xC⟩, ⟨u32 tssBase, tssBytes - 1, 0x89, 0⟩]

/-- What the CPU reads from the table of a core. -/
structure Loaded (m : Mem) (segs tssBase : ℕ) : Prop where
  segment : ∀ i (hi : i < (segments tssBase).length), segmentAt m (segs + 8 * i) = (segments tssBase)[i]
  tssBase_eq : systemBaseAt m (segs + 0x28) = tssBase

/-- The CPU reads the 56 bytes of the table. -/
theorem Loaded.congr {segs tssBase : ℕ} (h : Loaded m segs tssBase)
    (hm : ∀ x, segs ≤ x → x < segs + 56 → m' x = m x) : Loaded m' segs tssBase := by
  have hlen : (segments tssBase).length = 6 := rfl
  have hkeep : ∀ i < 6, segmentAt m' (segs + 8 * i) = segmentAt m (segs + 8 * i) := fun i hi =>
    segmentAt_congr fun k hk => hm _ (by omega) (by omega)
  refine ⟨fun i hi => (hkeep i (hlen ▸ hi)).trans (h.segment i hi), ?_⟩
  rw [← h.tssBase_eq, systemBaseAt, systemBaseAt, hkeep 5 (by decide),
    Mem.load_congr fun i hi => hm _ (by omega) (by omega)]

/-- **What `GDT::initialize` leaves**, wherever the table and the TSS are. -/
theorem initializeGdt_spec (m : Mem) {segs tssBase : ℕ} (hsegs : segs ≠ 0) (htss : tssBase < 2 ^ 64) :
    Loaded (initializeGdt m segs tssBase) segs tssBase ∧
      ∀ x, x < segs ∨ segs + 56 ≤ x → initializeGdt m segs tssBase x = m x := by
  have hfits : ∀ d ∈ segments tssBase, d.Fits := by
    simp only [segments, List.forall_mem_cons]
    refine ⟨?_, ?_, ?_, ?_, ?_, ⟨u32_lt _, show tssBytes - 1 < 2 ^ 20 by decide,
      show 0x89 < 2 ^ 8 by decide, show 0 < 2 ^ 4 by decide⟩, by simp⟩ <;>
      exact ⟨by decide, by decide, by decide, by decide⟩
  have heq : initializeGdt m segs tssBase = ((setDescriptors (m.fill 56 segs 0) segs
      (segments tssBase)).store 4 (segs + 48) (u32 (tssBase >>> 32))).store 4 (segs + 52) 0 := rfl
  obtain ⟨hsegments, hframe⟩ := setDescriptors_spec hfits hsegs (m.fill 56 segs 0)
  have hlen : (segments tssBase).length = 6 := rfl
  rw [heq]
  generalize setDescriptors (m.fill 56 segs 0) segs (segments tssBase) = m₁ at *
  have hkeep : ∀ i < 6, segmentAt ((m₁.store 4 (segs + 48) (u32 (tssBase >>> 32))).store 4 (segs + 52) 0)
      (segs + 8 * i) = segmentAt m₁ (segs + 8 * i) := fun i hi => segmentAt_congr fun k hk => by
    rw [Mem.store_apply_of_lt (by omega), Mem.store_apply_of_lt (by omega)]
  refine ⟨⟨fun i hi => (hkeep i hi).trans (hsegments i hi), ?_⟩, fun x hx => ?_⟩
  · have hlast : segmentAt m₁ (segs + 0x28) = ⟨u32 tssBase, tssBytes - 1, 0x89, 0⟩ :=
      hsegments 5 (show 5 < 6 by decide)
    have hlow := hkeep 5 (by decide)
    rw [show segs + 8 * 5 = segs + 0x28 from rfl, hlast] at hlow
    rw [systemBaseAt, hlow, Mem.load_store_of_disjoint (by omega), Mem.load_store_same, u32_eq, u32_eq,
      Nat.shiftRight_eq_div_pow]
    dsimp only
    omega
  · rcases hx with hx | hx
    · rw [Mem.store_apply_of_lt (by omega), Mem.store_apply_of_lt (by omega), hframe x (Or.inl hx),
        Mem.fill_apply_of_not_mem (by omega)]
    · rw [Mem.store_apply_of_ge (by omega), Mem.store_apply_of_ge (by omega),
        hframe x (Or.inr (by rw [hlen]; omega)), Mem.fill_apply_of_not_mem (by omega)]

end Gdt

/-! ## Gates -/

namespace Idt

/-- `IDT_ENTRIES`. -/
def idtEntries : ℕ := 256

/-- `CPU_IRQ_NUM`. -/
def cpuIrqNum : ℕ := 32

/-- A gate as the CPU sees it. -/
structure Gate where
  offset : ℕ
  selector : ℕ
  ist : ℕ
  type : ℕ
  dpl : ℕ
  present : Bool
  deriving DecidableEq, Repr

/-- `set_gate`; the invalid parameters end in a kernel panic. -/
def setGate (m : Mem) (gate base selector ist type dpl : ℕ) : Option Mem :=
  if gate = 0 ∨ ist > 0b111 ∨ dpl > 0b11 ∨ type > 0b1111 then none
  else
    let m := m.store 2 gate base
    let m := m.store 2 (gate + 6) (base >>> 16)
    let m := m.store 4 (gate + 8) (base >>> 32)
    let m := setField m (gate + 5) 5 2 dpl
    let m := setField m (gate + 5) 0 4 type
    let m := setField m (gate + 4) 0 3 ist
    let m := m.store 2 (gate + 2) selector
    let m := setField m (gate + 5) 7 1 1
    some (setField m (gate + 5) 4 1 0)

/-- The gate of sixteen bytes at an address. -/
def gateAt (m : Mem) (gate : ℕ) : Gate where
  offset := m.load 2 gate + 2 ^ 16 * m.load 2 (gate + 6) + 2 ^ 32 * m.load 4 (gate + 8)
  selector := m.load 2 (gate + 2)
  ist := field m (gate + 4) 0 3
  type := field m (gate + 5) 0 4
  dpl := field m (gate + 5) 5 2
  present := field m (gate + 5) 7 1 == 1

variable {m m' : Mem} {gate base selector ist type dpl x : ℕ}

/-- The CPU reads the first twelve bytes of a gate. -/
theorem gateAt_congr (h : ∀ i < 16, m' (gate + i) = m (gate + i)) : gateAt m' gate = gateAt m gate := by
  have hload : ∀ k o, o + k ≤ 16 → m'.load k (gate + o) = m.load k (gate + o) := fun k o hko =>
    Mem.load_congr fun i hi => by
      rw [Nat.add_assoc]
      exact h _ (by omega)
  have h0 : m'.load 2 gate = m.load 2 gate := hload 2 0 (by decide)
  simp only [gateAt, field, h0, hload 2 2 (by decide), hload 2 6 (by decide), hload 4 8 (by decide),
    hload 1 4 (by decide), hload 1 5 (by decide)]

/-- A field of a byte does not change with other bytes. -/
theorem field_store_of_disjoint {k a b v lo w : ℕ} (h : a + k ≤ b ∨ b < a) :
    field (m.store k a v) b lo w = field m b lo w :=
  congrArg (bits · lo w) (Mem.load_store_of_disjoint (by omega))

theorem field_setField_of_ne {a b lo w lo' w' v : ℕ} (h : a ≠ b) :
    field (setField m a lo w v) b lo' w' = field m b lo' w' :=
  field_store_of_disjoint (by omega)

/-- **The CPU sees what `set_gate` was given**, and nothing else changes. -/
theorem setGate_spec (m : Mem) (hgate : gate ≠ 0) (hbase : base < 2 ^ 64) (hsel : selector < 2 ^ 16)
    (hist : ist < 2 ^ 3) (htype : type < 2 ^ 4) (hdpl : dpl < 2 ^ 2) :
    ∃ m', setGate m gate base selector ist type dpl = some m' ∧
      gateAt m' gate = ⟨base, selector, ist, type, dpl, true⟩ ∧
      ∀ x, x < gate ∨ gate + 16 ≤ x → m' x = m x := by
  refine ⟨_, if_neg (by omega), ?_, ?_⟩
  · rw [gateAt, Gate.mk.injEq]
    refine ⟨?_, ?_, ?_, ?_, ?_, ?_⟩
    · simp (disch := omega) only [load_setField_of_ne, Mem.load_store_of_disjoint, Mem.load_store_same,
        Nat.shiftRight_eq_div_pow]
      omega
    · simp (disch := omega) only [load_setField_of_ne, Mem.load_store_same]
      omega
    · simp (disch := omega) only [field_setField_of_ne, field_store_of_disjoint, field_setField_self]
      omega
    · simp (disch := omega) only [field_setField_of_ne, field_store_of_disjoint, field_setField_below,
        field_setField_self]
      omega
    · simp (disch := omega) only [field_setField_of_ne, field_store_of_disjoint, field_setField_below,
        field_setField_above, field_setField_self]
      omega
    · simp (disch := omega) only [field_setField_above, field_setField_self]
      rfl
  · rintro x (hx | hx)
    · simp (disch := omega) only [setField_apply_of_ne, Mem.store_apply_of_lt]
    · simp (disch := omega) only [setField_apply_of_ne, Mem.store_apply_of_ge]

/-! ## The table -/

/-- The parameters of `set_gate`. -/
structure GateArgs where
  base : ℕ
  selector : ℕ
  ist : ℕ
  type : ℕ
  dpl : ℕ

/-- Parameters that fit their fields. -/
structure GateArgs.Fits (a : GateArgs) : Prop where
  base : a.base < 2 ^ 64
  selector : a.selector < 2 ^ 16
  ist : a.ist < 2 ^ 3
  type : a.type < 2 ^ 4
  dpl : a.dpl < 2 ^ 2

/-- The gate they make. -/
def GateArgs.toGate (a : GateArgs) : Gate := ⟨a.base, a.selector, a.ist, a.type, a.dpl, true⟩

/-- A loop of `set_gate` over `n` vectors from `i` on. -/
def setGates (gates : ℕ) (args : ℕ → GateArgs) : ℕ → ℕ → Mem → Option Mem
  | 0, _, m => some m
  | n + 1, i, m =>
    let a := args i
    (setGate m (gates + 16 * i) a.base a.selector a.ist a.type a.dpl).bind
      (setGates gates args n (i + 1))

/-- **`IDT::early_initialize`**: every vector goes to its stub. -/
def earlyInitializeIdt (m : Mem) (gates : ℕ) (stub : ℕ → ℕ) : Option Mem :=
  let m := m.fill (16 * idtEntries) gates 0
  (setGates gates (fun i => ⟨stub i, 0x08, 0, 0xE, 0⟩) cpuIrqNum 0 m).bind
    (setGates gates (fun i => ⟨stub i, 0x08, 0, 0xE, 0⟩) (idtEntries - cpuIrqNum) cpuIrqNum)

/-- The gates of the exceptions in `IDT::initialize`. -/
def exceptionArgs (stub : ℕ → ℕ) (i : ℕ) : GateArgs where
  base := stub i
  selector := 0x08
  ist := if i = 18 then 3 else if i = 2 then 2 else if i = 8 then 1 else 0
  type := if i = 1 ∨ i = 3 then 0xF else 0xE
  dpl := if i = 3 then 3 else 0

/-- **`IDT::initialize`**: the exceptions again, and the gate for spurious interrupts. -/
def initializeIdt (m : Mem) (gates : ℕ) (stub : ℕ → ℕ) (spurious : ℕ) : Option Mem :=
  (setGates gates (exceptionArgs stub) cpuIrqNum 0 m).bind fun m =>
    setGate m (gates + 16 * 0xFF) spurious 0x08 0 0xE 0

/-- The gate of a vector in the end. -/
def gateOf (stub : ℕ → ℕ) (spurious v : ℕ) : Gate :=
  if v < cpuIrqNum then (exceptionArgs stub v).toGate
  else if v = 0xFF then ⟨spurious, 0x08, 0, 0xE, 0, true⟩
  else ⟨stub v, 0x08, 0, 0xE, 0, true⟩

variable {gates i n spurious : ℕ} {args : ℕ → GateArgs} {stub : ℕ → ℕ}

theorem setGates_spec (hargs : ∀ j, (args j).Fits) (hgates : gates ≠ 0) (m : Mem) :
    ∃ m', setGates gates args n i m = some m' ∧
      (∀ j, i ≤ j → j < i + n → gateAt m' (gates + 16 * j) = (args j).toGate) ∧
      ∀ x, x < gates + 16 * i ∨ gates + 16 * (i + n) ≤ x → m' x = m x := by
  induction n generalizing i m with
  | zero => exact ⟨m, rfl, fun j hj hj' => by omega, fun _ _ => rfl⟩
  | succ n ih =>
    obtain ⟨hb, hs, hi, ht, hd⟩ := hargs i
    obtain ⟨m₁, heq, hgate, hframe⟩ := setGate_spec m (show gates + 16 * i ≠ 0 by omega) hb hs hi ht hd
    obtain ⟨m', heq', hgates', hframe'⟩ := ih (i := i + 1) m₁
    refine ⟨m', ?_, fun j hj hj' => ?_, fun x hx => ?_⟩
    · rw [setGates, heq]
      exact heq'
    · rcases Nat.eq_or_lt_of_le hj with rfl | hlt
      · exact (gateAt_congr fun k hk => hframe' _ (by omega)).trans hgate
      · exact hgates' j hlt (by omega)
    · rw [hframe' x (by omega), hframe x (by omega)]

theorem exceptionArgs_fits (hstub : ∀ v, stub v < 2 ^ 64) (i : ℕ) : (exceptionArgs stub i).Fits := by
  refine ⟨hstub i, show 0x08 < 2 ^ 16 by decide, ?_, ?_, ?_⟩ <;> simp only [exceptionArgs] <;>
    split_ifs <;> decide

/-- **The whole table after both initializations**, wherever the linker put it and the stubs. -/
theorem initializeIdt_spec (m : Mem) (hgates : gates ≠ 0) (hstub : ∀ v, stub v < 2 ^ 64)
    (hspurious : spurious < 2 ^ 64) :
    ∃ m', (earlyInitializeIdt m gates stub).bind (fun m => initializeIdt m gates stub spurious) = some m' ∧
      (∀ v < idtEntries, gateAt m' (gates + 16 * v) = gateOf stub spurious v) ∧
      ∀ x, x < gates ∨ gates + 16 * idtEntries ≤ x → m' x = m x := by
  have hearly : ∀ j, (⟨stub j, 0x08, 0, 0xE, 0⟩ : GateArgs).Fits := fun j =>
    ⟨hstub j, show 0x08 < 2 ^ 16 by decide, show 0 < 2 ^ 3 by decide, show 0xE < 2 ^ 4 by decide,
      show 0 < 2 ^ 2 by decide⟩
  obtain ⟨m₁, heq₁, -, hframe₁⟩ := setGates_spec (i := 0) (n := cpuIrqNum) hearly hgates
    (m.fill (16 * idtEntries) gates 0)
  obtain ⟨m₂, heq₂, hgates₂, hframe₂⟩ := setGates_spec (i := cpuIrqNum) (n := idtEntries - cpuIrqNum)
    hearly hgates m₁
  obtain ⟨m₃, heq₃, hgates₃, hframe₃⟩ := setGates_spec (i := 0) (n := cpuIrqNum)
    (exceptionArgs_fits hstub) hgates m₂
  obtain ⟨m₄, heq₄, hgate₄, hframe₄⟩ := setGate_spec m₃ (show gates + 16 * 0xFF ≠ 0 by omega) hspurious
    (show 0x08 < 2 ^ 16 by decide) (show 0 < 2 ^ 3 by decide) (show 0xE < 2 ^ 4 by decide)
    (show 0 < 2 ^ 2 by decide)
  rw [idtEntries, cpuIrqNum] at *
  refine ⟨m₄, ?_, fun v hv => ?_, fun x hx => ?_⟩
  · rw [earlyInitializeIdt, idtEntries, cpuIrqNum, heq₁, Option.bind_some, heq₂, Option.bind_some, initializeIdt, cpuIrqNum, heq₃]
    exact heq₄
  · rw [gateOf, cpuIrqNum]
    split_ifs with hlow hlast
    · exact (gateAt_congr fun k hk => hframe₄ _ (by omega)).trans (hgates₃ v (Nat.zero_le v) (by omega))
    · subst hlast
      exact hgate₄
    · refine (gateAt_congr fun k hk => ?_).trans (hgates₂ v (by omega) (by omega))
      rw [hframe₄ _ (by omega), hframe₃ _ (by omega)]
  · rw [hframe₄ x (by omega), hframe₃ x (by omega), hframe₂ x (by omega), hframe₁ x (by omega),
      Mem.fill_apply_of_not_mem (by omega)]

end Idt

end MioOS
