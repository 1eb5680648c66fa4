import Mathlib.Data.Nat.Bitwise
import MioOS.Library.ByteMemory

/-!
# Acpi/Madt — `MADT::parse_madt`

The Multiple APIC Description Table is a header and a sequence of records, each with its type and
its length in its first two bytes.  `parseMadt` is the source's loop over the bytes in memory;
`Record` is what the ACPI tables say about a record, with the bytes that encode it.  The two meet in
`parseMadt_eq`: on a table tiled by records the loop collects their contents, in order.
-/

namespace MioOS

namespace Acpi

open ByteMemory

/-! ## The topology registry -/

/-- `cpu_core_info_t`. -/
structure CpuCoreInfo where
  acpiCpuId : UInt8
  apicId : UInt8
  flags : UInt32
  isBsp : Bool
  deriving DecidableEq, Repr

/-- `ioapic_info_t`. -/
structure IoapicInfo where
  ioapicId : UInt8
  ioapicAddress : UInt32
  gsib : UInt32
  deriving DecidableEq, Repr

/-- `ioapic_iso_t`. -/
structure IoapicIso where
  busSource : UInt8
  irqSource : UInt8
  gsi : UInt32
  flags : UInt16
  deriving DecidableEq, Repr

/-- `lx2apic_t`. -/
structure Lx2apic where
  lx2apicId : UInt32
  flags : UInt32
  acpiId : UInt32
  deriving DecidableEq, Repr

/-- The members of `SystemTopology` the parser reads and fills. -/
structure SystemTopology where
  cpuInfos : List CpuCoreInfo
  ioApics : List IoapicInfo
  overrides : List IoapicIso
  lx2apics : List Lx2apic
  localApicBasePhys : UInt64
  /-- `bsp_cpu.cpuid_cache.local_apic_id` -/
  bspLocalApicId : UInt32
  deriving DecidableEq, Repr

/-! ## The parser -/

/-- `sizeof(madt_t)`: the ACPI header, `lapic_address` and `flags`. -/
def madtHeaderSize : ℕ := 44

/-- Bit 0 = Enabled, Bit 1 = Online Capable. -/
def usable (flags : UInt32) : Bool := flags &&& 1 ≠ 0 || flags &&& 2 ≠ 0

/-- One iteration of the loop: the record at `r`. -/
def parseRecord (m : Mem) (r : ℕ) (lapicPhys : UInt64) (t : SystemTopology) :
    UInt64 × SystemTopology :=
  match m.load 1 r with
  | 0 =>
    let acpiCpuId := UInt8.ofNat (m.load 1 (r + 2))
    let apicId := UInt8.ofNat (m.load 1 (r + 3))
    let flags := UInt32.ofNat (m.load 4 (r + 4))
    let isBsp := apicId.toNat = t.bspLocalApicId.toNat
    if usable flags then
      (lapicPhys, { t with cpuInfos := t.cpuInfos ++ [⟨acpiCpuId, apicId, flags, isBsp⟩] })
    else (lapicPhys, t)
  | 1 =>
    let ioapicId := UInt8.ofNat (m.load 1 (r + 2))
    let ioapicAddress := UInt32.ofNat (m.load 4 (r + 4))
    let gsib := UInt32.ofNat (m.load 4 (r + 8))
    (lapicPhys, { t with ioApics := t.ioApics ++ [⟨ioapicId, ioapicAddress, gsib⟩] })
  | 2 =>
    let busSource := UInt8.ofNat (m.load 1 (r + 2))
    let irqSource := UInt8.ofNat (m.load 1 (r + 3))
    let gsi := UInt32.ofNat (m.load 4 (r + 4))
    let flags := UInt16.ofNat (m.load 2 (r + 8))
    (lapicPhys, { t with overrides := t.overrides ++ [⟨busSource, irqSource, gsi, flags⟩] })
  | 5 => (UInt64.ofNat (m.load 8 (r + 4)), t)
  | 9 =>
    let lx2apicId := UInt32.ofNat (m.load 4 (r + 4))
    let flags := UInt32.ofNat (m.load 4 (r + 8))
    let acpiId := UInt32.ofNat (m.load 4 (r + 12))
    if usable flags then
      (lapicPhys, { t with lx2apics := t.lx2apics ++ [⟨lx2apicId, flags, acpiId⟩] })
    else (lapicPhys, t)
  -- 3 and 4 are printed, any other type is reported; neither is recorded
  | _ => (lapicPhys, t)

/-- The loop over the records in `[current, endOfTable)`. -/
def parseLoop (m : Mem) (endOfTable : ℕ) :
    ℕ → ℕ → UInt64 → SystemTopology → Option (UInt64 × SystemTopology)
  | 0, _, _, _ => none
  | fuel + 1, current, lapicPhys, t =>
    if current < endOfTable then
      let (lapicPhys, t) := parseRecord m current lapicPhys t
      parseLoop m endOfTable fuel (current + m.load 1 (current + 1)) lapicPhys t
    else some (lapicPhys, t)

/-- **`MADT::parse_madt`**.  `madt` is the address of the table uACPI found; without one the kernel
panics. -/
def parseMadt (m : Mem) (madt : Option ℕ) (t : SystemTopology) : Option SystemTopology := do
  let madt ← madt
  let length := m.load 4 (madt + 4)
  let (lapicPhys, t) ← parseLoop m (madt + length) (length + 1) (madt + madtHeaderSize)
    (UInt64.ofNat (m.load 4 (madt + 36))) t
  some { t with localApicBasePhys := lapicPhys }

/-! ## Records -/

/-- What a record says.  `rest` are the bytes past its type's structure. -/
inductive Body
  | lapic (acpiCpuId apicId : UInt8) (flags : UInt32) (rest : List UInt8)
  | ioapic (ioapicId reserved : UInt8) (ioapicAddress gsib : UInt32) (rest : List UInt8)
  | iso (busSource irqSource : UInt8) (gsi : UInt32) (flags : UInt16) (rest : List UInt8)
  | lapicAddr (reserved : UInt16) (address : UInt64) (rest : List UInt8)
  | lx2apic (reserved : UInt16) (lx2apicId flags acpiId : UInt32) (rest : List UInt8)
  /-- A type that tells the kernel nothing, known or not. -/
  | other (type : UInt8) (h : type ∉ [0, 1, 2, 5, 9]) (rest : List UInt8)

namespace Body

/-- The type of a record. -/
def type : Body → UInt8
  | lapic .. => 0
  | ioapic .. => 1
  | iso .. => 2
  | lapicAddr .. => 5
  | lx2apic .. => 9
  | other type .. => type

/-- The bytes after the type and the length. -/
def payload : Body → List UInt8
  | lapic acpiCpuId apicId flags rest =>
    Mem.leBytes 1 acpiCpuId.toNat ++ Mem.leBytes 1 apicId.toNat ++ Mem.leBytes 4 flags.toNat ++ rest
  | ioapic ioapicId reserved ioapicAddress gsib rest =>
    Mem.leBytes 1 ioapicId.toNat ++ Mem.leBytes 1 reserved.toNat ++
      Mem.leBytes 4 ioapicAddress.toNat ++ Mem.leBytes 4 gsib.toNat ++ rest
  | iso busSource irqSource gsi flags rest =>
    Mem.leBytes 1 busSource.toNat ++ Mem.leBytes 1 irqSource.toNat ++ Mem.leBytes 4 gsi.toNat ++
      Mem.leBytes 2 flags.toNat ++ rest
  | lapicAddr reserved address rest =>
    Mem.leBytes 2 reserved.toNat ++ Mem.leBytes 8 address.toNat ++ rest
  | lx2apic reserved lx2apicId flags acpiId rest =>
    Mem.leBytes 2 reserved.toNat ++ Mem.leBytes 4 lx2apicId.toNat ++ Mem.leBytes 4 flags.toNat ++
      Mem.leBytes 4 acpiId.toNat ++ rest
  | other _ _ rest => rest

end Body

/-- A record, short enough for its length byte. -/
structure Record where
  body : Body
  fits : 2 + body.payload.length < 256

namespace Record

/-- The bytes of a record. -/
def encode (r : Record) : List UInt8 :=
  r.body.type :: UInt8.ofNat (2 + r.body.payload.length) :: r.body.payload

/-- The CPU a record announces, if it can be used. -/
def cpuInfo (bspLocalApicId : UInt32) (r : Record) : Option CpuCoreInfo :=
  match r.body with
  | .lapic acpiCpuId apicId flags _ =>
    if flags.toNat.testBit 0 || flags.toNat.testBit 1 then
      some ⟨acpiCpuId, apicId, flags, apicId.toNat = bspLocalApicId.toNat⟩
    else none
  | _ => none

/-- The I/O APIC a record announces. -/
def ioapic (r : Record) : Option IoapicInfo :=
  match r.body with
  | .ioapic ioapicId _ ioapicAddress gsib _ => some ⟨ioapicId, ioapicAddress, gsib⟩
  | _ => none

/-- The source override a record announces. -/
def override (r : Record) : Option IoapicIso :=
  match r.body with
  | .iso busSource irqSource gsi flags _ => some ⟨busSource, irqSource, gsi, flags⟩
  | _ => none

/-- The x2APIC a record announces, if it can be used. -/
def lx2apic (r : Record) : Option Lx2apic :=
  match r.body with
  | .lx2apic _ lx2apicId flags acpiId _ =>
    if flags.toNat.testBit 0 || flags.toNat.testBit 1 then some ⟨lx2apicId, flags, acpiId⟩ else none
  | _ => none

/-- The local APIC address a record announces. -/
def lapicAddress (r : Record) : Option UInt64 :=
  match r.body with
  | .lapicAddr _ address _ => some address
  | _ => none

end Record

/-! ## Tilings -/

/-- The size of a type's structure. -/
def minSize (type : UInt8) : ℕ :=
  match type with
  | 0 => 8
  | 1 => 12
  | 2 => 10
  | 3 => 10
  | 4 => 6
  | 5 => 12
  | 9 => 16
  | _ => 2

/-- **A tiling**: records one after the other, each as long as its length byte says and at least as
long as its type's structure. -/
inductive Tiles : List UInt8 → Prop
  | nil : Tiles []
  | cons {type len : UInt8} {payload rest : List UInt8} : len.toNat = 2 + payload.length →
      minSize type ≤ 2 + payload.length → Tiles rest → Tiles (type :: len :: payload ++ rest)

variable {m : Mem} {a fuel : ℕ} {bs : List UInt8} {lapicPhys : UInt64} {t : SystemTopology}
  {r : Record} {rs : List Record}

/-- A payload starts with a number of every width it has room for. -/
theorem exists_field {n : ℕ} (h : n ≤ bs.length) :
    ∃ v < 256 ^ n, ∃ rest, bs = Mem.leBytes n v ++ rest ∧ bs.length = n + rest.length := by
  have hlen : (bs.take n).length = n := List.length_take_of_le h
  obtain ⟨v, hv, hbs⟩ := Mem.exists_leBytes (bs.take n)
  rw [hlen] at hv hbs
  refine ⟨v, hv, bs.drop n, by rw [hbs, List.take_append_drop], ?_⟩
  rw [List.length_drop, Nat.add_sub_cancel' h]

theorem exists_byte (h : 1 ≤ bs.length) :
    ∃ (x : UInt8) (rest : List UInt8),
      bs = Mem.leBytes 1 x.toNat ++ rest ∧ bs.length = 1 + rest.length := by
  obtain ⟨v, hv, rest, hbs, hlen⟩ := exists_field h
  refine ⟨UInt8.ofNat v, rest, ?_, hlen⟩
  rw [UInt8.toNat_ofNat_of_lt' (hv.trans_eq (by norm_num)), hbs]

theorem exists_word (h : 2 ≤ bs.length) :
    ∃ (x : UInt16) (rest : List UInt8),
      bs = Mem.leBytes 2 x.toNat ++ rest ∧ bs.length = 2 + rest.length := by
  obtain ⟨v, hv, rest, hbs, hlen⟩ := exists_field h
  refine ⟨UInt16.ofNat v, rest, ?_, hlen⟩
  rw [UInt16.toNat_ofNat_of_lt' (hv.trans_eq (by norm_num)), hbs]

theorem exists_dword (h : 4 ≤ bs.length) :
    ∃ (x : UInt32) (rest : List UInt8),
      bs = Mem.leBytes 4 x.toNat ++ rest ∧ bs.length = 4 + rest.length := by
  obtain ⟨v, hv, rest, hbs, hlen⟩ := exists_field h
  refine ⟨UInt32.ofNat v, rest, ?_, hlen⟩
  rw [UInt32.toNat_ofNat_of_lt' (hv.trans_eq (by norm_num)), hbs]

theorem exists_qword (h : 8 ≤ bs.length) :
    ∃ (x : UInt64) (rest : List UInt8),
      bs = Mem.leBytes 8 x.toNat ++ rest ∧ bs.length = 8 + rest.length := by
  obtain ⟨v, hv, rest, hbs, hlen⟩ := exists_field h
  refine ⟨UInt64.ofNat v, rest, ?_, hlen⟩
  rw [UInt64.toNat_ofNat_of_lt' (hv.trans_eq (by norm_num)), hbs]

/-- **Every record that is long enough says something.** -/
theorem exists_body {type : UInt8} (h : minSize type ≤ 2 + bs.length) :
    ∃ b : Body, b.type = type ∧ b.payload = bs := by
  by_cases hother : type ∉ [0, 1, 2, 5, 9]
  · exact ⟨.other type hother bs, rfl, rfl⟩
  simp only [List.mem_cons, List.not_mem_nil, or_false, not_not] at hother
  rcases hother with rfl | rfl | rfl | rfl | rfl
  · have h8 : 8 ≤ 2 + bs.length := h
    obtain ⟨acpiCpuId, bs₁, hbs, h1⟩ := exists_byte (show 1 ≤ bs.length by omega)
    obtain ⟨apicId, bs₂, hbs₁, h2⟩ := exists_byte (show 1 ≤ bs₁.length by omega)
    obtain ⟨flags, rest, hbs₂, -⟩ := exists_dword (show 4 ≤ bs₂.length by omega)
    exact ⟨.lapic acpiCpuId apicId flags rest, rfl, by simp [Body.payload, hbs, hbs₁, hbs₂]⟩
  · have h12 : 12 ≤ 2 + bs.length := h
    obtain ⟨ioapicId, bs₁, hbs, h1⟩ := exists_byte (show 1 ≤ bs.length by omega)
    obtain ⟨reserved, bs₂, hbs₁, h2⟩ := exists_byte (show 1 ≤ bs₁.length by omega)
    obtain ⟨address, bs₃, hbs₂, h3⟩ := exists_dword (show 4 ≤ bs₂.length by omega)
    obtain ⟨gsib, rest, hbs₃, -⟩ := exists_dword (show 4 ≤ bs₃.length by omega)
    exact ⟨.ioapic ioapicId reserved address gsib rest, rfl,
      by simp [Body.payload, hbs, hbs₁, hbs₂, hbs₃]⟩
  · have h10 : 10 ≤ 2 + bs.length := h
    obtain ⟨busSource, bs₁, hbs, h1⟩ := exists_byte (show 1 ≤ bs.length by omega)
    obtain ⟨irqSource, bs₂, hbs₁, h2⟩ := exists_byte (show 1 ≤ bs₁.length by omega)
    obtain ⟨gsi, bs₃, hbs₂, h3⟩ := exists_dword (show 4 ≤ bs₂.length by omega)
    obtain ⟨flags, rest, hbs₃, -⟩ := exists_word (show 2 ≤ bs₃.length by omega)
    exact ⟨.iso busSource irqSource gsi flags rest, rfl,
      by simp [Body.payload, hbs, hbs₁, hbs₂, hbs₃]⟩
  · have h12 : 12 ≤ 2 + bs.length := h
    obtain ⟨reserved, bs₁, hbs, h1⟩ := exists_word (show 2 ≤ bs.length by omega)
    obtain ⟨address, rest, hbs₁, -⟩ := exists_qword (show 8 ≤ bs₁.length by omega)
    exact ⟨.lapicAddr reserved address rest, rfl, by simp [Body.payload, hbs, hbs₁]⟩
  · have h16 : 16 ≤ 2 + bs.length := h
    obtain ⟨reserved, bs₁, hbs, h1⟩ := exists_word (show 2 ≤ bs.length by omega)
    obtain ⟨lx2apicId, bs₂, hbs₁, h2⟩ := exists_dword (show 4 ≤ bs₁.length by omega)
    obtain ⟨flags, bs₃, hbs₂, h3⟩ := exists_dword (show 4 ≤ bs₂.length by omega)
    obtain ⟨acpiId, rest, hbs₃, -⟩ := exists_dword (show 4 ≤ bs₃.length by omega)
    exact ⟨.lx2apic reserved lx2apicId flags acpiId rest, rfl,
      by simp [Body.payload, hbs, hbs₁, hbs₂, hbs₃]⟩

/-- **A tiling is the bytes of a list of records.** -/
theorem Tiles.exists_records (h : Tiles bs) : ∃ rs : List Record, bs = rs.flatMap Record.encode := by
  induction h with
  | nil => exact ⟨[], rfl⟩
  | @cons type len payload rest hlen hmin _ ih =>
    obtain ⟨rs, rfl⟩ := ih
    obtain ⟨b, htype, hpayload⟩ := exists_body hmin
    have hfits : 2 + b.payload.length < 256 := by
      rw [hpayload, ← hlen]
      exact len.toNat_lt
    refine ⟨⟨b, hfits⟩ :: rs, ?_⟩
    have hlen' : UInt8.ofNat (2 + payload.length) = len := by rw [← hlen, UInt8.ofNat_toNat]
    rw [List.flatMap_cons, Record.encode, htype, hpayload, hlen']

/-! ## Parsing -/

/-- The registry after the records have been collected. -/
def SystemTopology.collect (t : SystemTopology) (rs : List Record) : SystemTopology :=
  { t with
    cpuInfos := t.cpuInfos ++ rs.filterMap (Record.cpuInfo t.bspLocalApicId)
    ioApics := t.ioApics ++ rs.filterMap Record.ioapic
    overrides := t.overrides ++ rs.filterMap Record.override
    lx2apics := t.lx2apics ++ rs.filterMap Record.lx2apic }

/-- The flags test asks for bit 0 or bit 1. -/
theorem usable_eq (flags : UInt32) :
    usable flags = (flags.toNat.testBit 0 || flags.toNat.testBit 1) := by
  have hbit (i : ℕ) (x : UInt32) (hx : x.toNat = 2 ^ i) :
      flags &&& x ≠ 0 ↔ flags.toNat.testBit i = true := by
    rw [ne_eq, ← UInt32.toNat_inj, UInt32.toNat_and, hx, Nat.and_two_pow]
    cases flags.toNat.testBit i <;> simp
  rw [usable, Bool.decide_congr (hbit 0 1 rfl), Bool.decide_congr (hbit 1 2 rfl),
    Bool.decide_eq_true, Bool.decide_eq_true]

theorem SystemTopology.collect_singleton (t : SystemTopology) (r : Record) :
    t.collect [r] =
      { t with
        cpuInfos := t.cpuInfos ++ (r.cpuInfo t.bspLocalApicId).toList
        ioApics := t.ioApics ++ r.ioapic.toList
        overrides := t.overrides ++ r.override.toList
        lx2apics := t.lx2apics ++ r.lx2apic.toList } := by
  have hone {β : Type} (f : Record → Option β) : [r].filterMap f = (f r).toList := by
    cases h : f r <;> simp [h]
  simp only [collect, hone]

/-- **One record** is collected. -/
theorem parseRecord_encode (h : m.Holds a r.encode) :
    parseRecord m a lapicPhys t = (r.lapicAddress.getD lapicPhys, t.collect [r]) := by
  obtain ⟨b, hfits⟩ := r
  obtain ⟨htype, -, hp⟩ := h
  have hload : m.load 1 a = b.type.toNat := by rw [Mem.load_one, htype]
  rw [SystemTopology.collect_singleton]
  cases b with
  | lapic acpiCpuId apicId flags rest =>
    simp only [Body.payload, Mem.holds_append, List.length_append, Mem.length_leBytes,
      Nat.add_assoc, Nat.reduceAdd] at hp
    obtain ⟨⟨⟨hid, hapic⟩, hflags⟩, -⟩ := hp
    have h0 : m.load 1 a = 0 := hload
    have h2 := Mem.load_of_holds acpiCpuId.toNat_lt hid
    have h3 := Mem.load_of_holds apicId.toNat_lt hapic
    have h4 := Mem.load_of_holds flags.toNat_lt hflags
    simp only [parseRecord, h0, h2, h3, h4, UInt8.ofNat_toNat, UInt32.ofNat_toNat, usable_eq,
      Record.cpuInfo, Record.ioapic, Record.override, Record.lx2apic, Record.lapicAddress]
    cases flags.toNat.testBit 0 || flags.toNat.testBit 1 <;> simp
  | ioapic ioapicId reserved address gsib rest =>
    simp only [Body.payload, Mem.holds_append, List.length_append, Mem.length_leBytes,
      Nat.add_assoc, Nat.reduceAdd] at hp
    obtain ⟨⟨⟨⟨hid, -⟩, haddress⟩, hgsib⟩, -⟩ := hp
    have h0 : m.load 1 a = 1 := hload
    have h2 := Mem.load_of_holds ioapicId.toNat_lt hid
    have h4 := Mem.load_of_holds address.toNat_lt haddress
    have h8 := Mem.load_of_holds gsib.toNat_lt hgsib
    simp [parseRecord, h0, h2, h4, h8, Record.cpuInfo, Record.ioapic, Record.override,
      Record.lx2apic, Record.lapicAddress]
  | iso busSource irqSource gsi flags rest =>
    simp only [Body.payload, Mem.holds_append, List.length_append, Mem.length_leBytes,
      Nat.add_assoc, Nat.reduceAdd] at hp
    obtain ⟨⟨⟨⟨hbus, hirq⟩, hgsi⟩, hflags⟩, -⟩ := hp
    have h0 : m.load 1 a = 2 := hload
    have h2 := Mem.load_of_holds busSource.toNat_lt hbus
    have h3 := Mem.load_of_holds irqSource.toNat_lt hirq
    have h4 := Mem.load_of_holds gsi.toNat_lt hgsi
    have h8 := Mem.load_of_holds flags.toNat_lt hflags
    simp [parseRecord, h0, h2, h3, h4, h8, Record.cpuInfo, Record.ioapic, Record.override,
      Record.lx2apic, Record.lapicAddress]
  | lapicAddr reserved address rest =>
    simp only [Body.payload, Mem.holds_append, List.length_append, Mem.length_leBytes,
      Nat.add_assoc, Nat.reduceAdd] at hp
    obtain ⟨⟨-, haddress⟩, -⟩ := hp
    have h0 : m.load 1 a = 5 := hload
    have h4 := Mem.load_of_holds address.toNat_lt haddress
    simp [parseRecord, h0, h4, Record.cpuInfo, Record.ioapic, Record.override, Record.lx2apic,
      Record.lapicAddress]
  | lx2apic reserved lx2apicId flags acpiId rest =>
    simp only [Body.payload, Mem.holds_append, List.length_append, Mem.length_leBytes,
      Nat.add_assoc, Nat.reduceAdd] at hp
    obtain ⟨⟨⟨⟨-, hid⟩, hflags⟩, hacpi⟩, -⟩ := hp
    have h0 : m.load 1 a = 9 := hload
    have h4 := Mem.load_of_holds lx2apicId.toNat_lt hid
    have h8 := Mem.load_of_holds flags.toNat_lt hflags
    have h12 := Mem.load_of_holds acpiId.toNat_lt hacpi
    simp only [parseRecord, h0, h4, h8, h12, UInt32.ofNat_toNat, usable_eq, Record.cpuInfo,
      Record.ioapic, Record.override, Record.lx2apic, Record.lapicAddress]
    cases flags.toNat.testBit 0 || flags.toNat.testBit 1 <;> simp
  | other type hother rest =>
    have hskip : parseRecord m a lapicPhys t = (lapicPhys, t) := by
      have hne (k : ℕ) (hk : k < 256) (hmem : UInt8.ofNat k ∈ [0, 1, 2, 5, 9]) :
          m.load 1 a ≠ k := by
        intro heq
        have htype : type = UInt8.ofNat k := by
          rw [← heq, hload]
          exact (UInt8.ofNat_toNat).symm
        exact hother (htype ▸ hmem)
      rw [parseRecord]
      split
      · rename_i heq
        exact absurd heq (hne 0 (by decide) (by decide))
      · rename_i heq
        exact absurd heq (hne 1 (by decide) (by decide))
      · rename_i heq
        exact absurd heq (hne 2 (by decide) (by decide))
      · rename_i heq
        exact absurd heq (hne 5 (by decide) (by decide))
      · rename_i heq
        exact absurd heq (hne 9 (by decide) (by decide))
      · rfl
    rw [hskip]
    simp [Record.cpuInfo, Record.ioapic, Record.override, Record.lx2apic, Record.lapicAddress]

theorem SystemTopology.collect_cons (t : SystemTopology) (r : Record) (rs : List Record) :
    t.collect (r :: rs) = (t.collect [r]).collect rs := by
  have hcons {β : Type} (f : Record → Option β) :
      (r :: rs).filterMap f = [r].filterMap f ++ rs.filterMap f := by
    rw [← List.filterMap_append, List.singleton_append]
  simp only [collect, hcons, List.append_assoc]

/-- The address to be used after the records: the last one announced. -/
def lapicPhysAfter (lapicPhys : UInt64) (rs : List Record) : UInt64 :=
  (rs.filterMap Record.lapicAddress).getLast?.getD lapicPhys

theorem lapicPhysAfter_cons (lapicPhys : UInt64) (r : Record) (rs : List Record) :
    lapicPhysAfter lapicPhys (r :: rs) = lapicPhysAfter (r.lapicAddress.getD lapicPhys) rs := by
  rw [lapicPhysAfter, lapicPhysAfter]
  cases h : r.lapicAddress with
  | none => rw [List.filterMap_cons_none h, Option.getD_none]
  | some address =>
    rw [List.filterMap_cons_some h, List.getLast?_cons, Option.getD_some, Option.getD_some]

theorem Record.length_encode (r : Record) : r.encode.length = 2 + r.body.payload.length := by
  rw [encode, List.length_cons, List.length_cons]
  omega

/-- A record says how long it is. -/
theorem load_length (h : m.Holds a r.encode) : m.load 1 (a + 1) = r.encode.length := by
  rw [Mem.load_one, h.2.1, r.length_encode]
  exact UInt8.toNat_ofNat_of_lt' r.fits

/-- **The loop** collects the records from where it stands. -/
theorem parseLoop_encode (h : m.Holds a (rs.flatMap Record.encode))
    (hfuel : (rs.flatMap Record.encode).length < fuel) :
    parseLoop m (a + (rs.flatMap Record.encode).length) fuel a lapicPhys t
      = some (lapicPhysAfter lapicPhys rs, t.collect rs) := by
  induction rs generalizing a fuel lapicPhys t with
  | nil =>
    obtain ⟨fuel, rfl⟩ := Nat.exists_eq_add_one_of_ne_zero (Nat.ne_zero_of_lt hfuel)
    rw [parseLoop, List.flatMap_nil, List.length_nil, Nat.add_zero, if_neg (Nat.lt_irrefl _)]
    simp [lapicPhysAfter, SystemTopology.collect]
  | cons r rs ih =>
    obtain ⟨fuel, rfl⟩ := Nat.exists_eq_add_one_of_ne_zero (Nat.ne_zero_of_lt hfuel)
    rw [List.flatMap_cons, Mem.holds_append] at h
    have hlen := r.length_encode
    rw [List.flatMap_cons, List.length_append] at hfuel ⊢
    rw [parseLoop, if_pos (by omega), parseRecord_encode h.1, load_length h.1,
      lapicPhysAfter_cons, t.collect_cons r rs, ← Nat.add_assoc]
    exact ih h.2 (by omega)

/-- The header and the records of a table in memory. -/
structure Table (m : Mem) (madt : ℕ) (lapicAddress : UInt32) (records : List UInt8) : Prop where
  length : m.load 4 (madt + 4) = madtHeaderSize + records.length
  lapicAddress : m.load 4 (madt + 36) = lapicAddress.toNat
  holds : m.Holds (madt + madtHeaderSize) records
  tiles : Tiles records

/-- **`parse_madt` extracts the table's content.**  The records of a tiled table are collected in
the table's order, each kind in its list, and the local APIC's address is the last one the records
announce, or else the header's. -/
theorem parseMadt_eq {madt : ℕ} {lapicAddress : UInt32} (h : Table m madt lapicAddress bs)
    (t : SystemTopology) :
    ∃ rs : List Record, bs = rs.flatMap Record.encode ∧
      parseMadt m (some madt) t = some
        { cpuInfos := t.cpuInfos ++ rs.filterMap (Record.cpuInfo t.bspLocalApicId)
          ioApics := t.ioApics ++ rs.filterMap Record.ioapic
          overrides := t.overrides ++ rs.filterMap Record.override
          lx2apics := t.lx2apics ++ rs.filterMap Record.lx2apic
          localApicBasePhys :=
            (rs.filterMap Record.lapicAddress).getLast?.getD lapicAddress.toUInt64
          bspLocalApicId := t.bspLocalApicId } := by
  obtain ⟨rs, rfl⟩ := h.tiles.exists_records
  refine ⟨rs, rfl, ?_⟩
  have hphys : UInt64.ofNat (m.load 4 (madt + 36)) = lapicAddress.toUInt64 := by
    rw [h.lapicAddress]
    exact UInt64.toNat_inj.mp (by simp)
  simp only [parseMadt, Option.bind_eq_bind, Option.bind_some]
  rw [h.length, hphys, ← Nat.add_assoc madt, parseLoop_encode h.holds (by omega)]
  rfl

/-! ## A table of one CPU, one unknown record and one I/O APIC -/

/-- Its records. -/
def smallRecords : List UInt8 :=
  [0, 8, 1, 0, 1, 0, 0, 0] ++ ([7, 2] ++ ([1, 12, 2, 0, 0, 0, 0xC0, 0xFE, 0, 0, 0, 0] ++ []))

/-- The table at address 0. -/
def smallMadt : Mem := fun x =>
  (List.replicate 4 0 ++ Mem.leBytes 4 66 ++ List.replicate 28 0 ++ Mem.leBytes 4 0xFEE00000 ++
    List.replicate 4 0 ++ smallRecords).getD x 0

theorem table_smallMadt : Table smallMadt 0 0xFEE00000 smallRecords where
  length := by decide +kernel
  lapicAddress := by decide +kernel
  holds := by
    simp only [smallRecords, List.cons_append, List.nil_append, Mem.Holds]
    decide +kernel
  tiles := .cons rfl (by decide) (.cons rfl (by decide) (.cons rfl (by decide) .nil))

/-- A registry that has collected nothing. -/
def emptyTopology : SystemTopology := ⟨[], [], [], [], 0, 0⟩

theorem parseMadt_smallMadt :
    ∃ rs : List Record, smallRecords = rs.flatMap Record.encode ∧
      parseMadt smallMadt (some 0) emptyTopology = some
        { cpuInfos := rs.filterMap (Record.cpuInfo 0)
          ioApics := rs.filterMap Record.ioapic
          overrides := rs.filterMap Record.override
          lx2apics := rs.filterMap Record.lx2apic
          localApicBasePhys := (rs.filterMap Record.lapicAddress).getLast?.getD 0xFEE00000
          bspLocalApicId := 0 } :=
  parseMadt_eq table_smallMadt emptyTopology

example : (parseMadt smallMadt (some 0) emptyTopology).map SystemTopology.ioApics
    = some [⟨2, 0xFEC00000, 0⟩] := by decide +kernel

end Acpi

end MioOS
