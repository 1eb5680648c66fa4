import Mathlib.Tactic
import Mathlib.Data.Nat.Bitwise
import MioOS.Memory.MemoryMap

/-!
# Paging/Defs — `paging.hpp` and `paging.cpp`

Physical memory is read as page tables: a page and an index give an entry, whether the page is a
table or not.  Page tables come from the physical allocator, of which the model keeps what it is
going to return.
-/

namespace MioOS

namespace Paging

/-- `PageFlags`, a set of bits. -/
structure PageFlags where
  bits : BitVec 32
  deriving DecidableEq, Repr

namespace PageFlags

def read : PageFlags := ⟨1 <<< 0⟩
def write : PageFlags := ⟨1 <<< 1⟩
def execute : PageFlags := ⟨1 <<< 2⟩
def user : PageFlags := ⟨1 <<< 3⟩
def global : PageFlags := ⟨1 <<< 4⟩
def writeThrough : PageFlags := ⟨1 <<< 5⟩
def noCache : PageFlags := ⟨1 <<< 6⟩
def huge2M : PageFlags := ⟨1 <<< 7⟩
def huge1G : PageFlags := ⟨1 <<< 8⟩
def writeCombining : PageFlags := ⟨1 <<< 9⟩

/-- `KernelRW`. -/
def kernelRW : PageFlags := ⟨read.bits ||| write.bits⟩

/-- `UserRW`. -/
def userRW : PageFlags := ⟨read.bits ||| write.bits ||| user.bits⟩

/-- `MMIO`. -/
def mmio : PageFlags := ⟨read.bits ||| write.bits ||| noCache.bits ||| writeThrough.bits⟩

/-- `has_flag`. -/
def has (flags flag : PageFlags) : Bool := flags.bits &&& flag.bits = flag.bits

end PageFlags

/-- `PageTableEntry`, from the least significant field up. -/
structure PageTableEntry where
  present : Bool := false
  writable : Bool := false
  user : Bool := false
  writeThrough : Bool := false
  cacheDisable : Bool := false
  accessed : Bool := false
  dirty : Bool := false
  hugeOrPat : Bool := false
  global : Bool := false
  available0 : BitVec 3 := 0
  pfn : BitVec 40 := 0
  available1 : BitVec 11 := 0
  noExecute : Bool := false
  deriving DecidableEq, Repr

namespace PageTableEntry

/-- The entry with these 64 bits. -/
def ofRaw (raw : BitVec 64) : PageTableEntry where
  present := raw.getLsbD 0
  writable := raw.getLsbD 1
  user := raw.getLsbD 2
  writeThrough := raw.getLsbD 3
  cacheDisable := raw.getLsbD 4
  accessed := raw.getLsbD 5
  dirty := raw.getLsbD 6
  hugeOrPat := raw.getLsbD 7
  global := raw.getLsbD 8
  available0 := raw.extractLsb' 9 3
  pfn := raw.extractLsb' 12 40
  available1 := raw.extractLsb' 52 11
  noExecute := raw.getLsbD 63

/-- `physical_address`: the bits of `PFN_MASK`. -/
def physicalAddress (e : PageTableEntry) : ℕ := e.pfn.toNat <<< pageShift

/-- `set_physical_address`: the bits of `PFN_MASK` are replaced. -/
def setPhysicalAddress (e : PageTableEntry) (pa : ℕ) : PageTableEntry :=
  { e with pfn := BitVec.ofNat 40 (pa >>> pageShift) }

/-- `apply_flags`. -/
def applyFlags (e : PageTableEntry) (flags : PageFlags) : PageTableEntry :=
  { e with
    writable := flags.has .write
    user := flags.has .user
    writeThrough := flags.has .writeThrough
    cacheDisable := flags.has .noCache || flags.has .writeCombining
    global := flags.has .global
    noExecute := !flags.has .execute
    hugeOrPat := flags.has .huge2M || flags.has .huge1G || flags.has .writeCombining }

/-- `make_empty`. -/
def makeEmpty : PageTableEntry := {}

/-- `make_table`. -/
def makeTable (nextPhys : ℕ) (user : Bool) : PageTableEntry :=
  ({ present := true, writable := true, user := user } : PageTableEntry).setPhysicalAddress nextPhys

/-- `make_page`. -/
def makePage (phys : ℕ) (flags : PageFlags) : PageTableEntry :=
  (({ present := true } : PageTableEntry).setPhysicalAddress phys).applyFlags flags

/-- `make_huge_2m`. -/
def makeHuge2m (phys : ℕ) (flags : PageFlags) : PageTableEntry :=
  (({ present := true, hugeOrPat := true } : PageTableEntry).setPhysicalAddress phys).applyFlags
    flags

/-- `make_huge_1g`. -/
def makeHuge1g (phys : ℕ) (flags : PageFlags) : PageTableEntry :=
  (({ present := true, hugeOrPat := true } : PageTableEntry).setPhysicalAddress phys).applyFlags
    flags

end PageTableEntry

/-- A table has 512 entries. -/
instance neZero_entries : NeZero 512 := ⟨by decide⟩

/-- `VirtualAddressFields`. -/
structure VirtualAddressFields where
  pml4Index : Fin 512
  pdptIndex : Fin 512
  pdIndex : Fin 512
  ptIndex : Fin 512
  pageOffset : Fin 4096
  deriving DecidableEq, Repr

/-- `decompose`: `INDEX_MASK` keeps nine bits and `OFFSET_MASK` twelve. -/
def VirtualAddressFields.decompose (va : ℕ) : VirtualAddressFields where
  pml4Index := Fin.ofNat 512 (va >>> 39)
  pdptIndex := Fin.ofNat 512 (va >>> 30)
  pdIndex := Fin.ofNat 512 (va >>> 21)
  ptIndex := Fin.ofNat 512 (va >>> 12)
  pageOffset := Fin.ofNat 4096 va

/-- `PagingError`. -/
inductive PagingError
  | success | outOfMemory | alreadyMapped | notMapped | invalidAlignment | invalidContext
  | invalidAddress | hardwareFault
  deriving DecidableEq, Repr

/-- What the paging code asks of `cpuid_cache`. -/
structure CpuFeatures where
  hasNx : Bool
  hasPdpe1gb : Bool

/-- `PAGE_SIZE_2M`. -/
def pageSize2M : ℕ := 1 <<< 21

/-- `PAGE_SIZE_1G`. -/
def pageSize1G : ℕ := 1 <<< 30

/-- `is_page_aligned`. -/
def isPageAligned (addr : ℕ) : Bool := addr &&& (pageSize - 1) = 0

/-- `PagingBackend`: physical memory as page tables, the PML4, and what `PMM::alloc_pages` is going
to return, where 0 stands for a failure. -/
structure Backend where
  tables : ℕ → Fin 512 → PageTableEntry
  kernelPml4Phys : ℕ
  allocs : List ℕ

namespace Backend

/-- Writing one entry. -/
def setEntry (s : Backend) (table : ℕ) (index : Fin 512) (e : PageTableEntry) : Backend :=
  { s with
    tables := Function.update s.tables table (Function.update (s.tables table) index e) }

/-- **`alloc_page_table`**: the page is zeroed.  An empty list means that no page is left. -/
def allocPageTable (s : Backend) : ℕ × Backend :=
  match s.allocs with
  | [] => (0, s)
  | pa :: allocs =>
    if pa = 0 then (0, { s with allocs := allocs })
    else
      (pa, { s with
        allocs := allocs
        tables := Function.update s.tables pa fun _ => PageTableEntry.makeEmpty })

/-- **`get_or_create_subtable`** for the entry of a table at an index. -/
def getOrCreateSubtable (s : Backend) (table : ℕ) (index : Fin 512) (user : Bool) :
    Option ℕ × Backend :=
  let entry := s.tables table index
  if entry.present then (some entry.physicalAddress, s)
  else
    match s.allocPageTable with
    | (childPhys, s) =>
      if childPhys = 0 then (none, s)
      else (some childPhys, s.setEntry table index (.makeTable childPhys user))

/-- A leaf as it is written: without NX support `no_execute` stays off. -/
def leafEntry (cpu : CpuFeatures) (e : PageTableEntry) : PageTableEntry :=
  if !cpu.hasNx then { e with noExecute := false } else e

/-- **`map_page`**. -/
def mapPage (cpu : CpuFeatures) (s : Backend) (virt phys : ℕ) (flags : PageFlags) :
    PagingError × Backend :=
  if !isPageAligned virt then (.invalidAlignment, s)
  else if !isPageAligned phys then (.invalidAlignment, s)
  else
    let user := flags.has .user
    let va := VirtualAddressFields.decompose virt
    match s.getOrCreateSubtable s.kernelPml4Phys va.pml4Index user with
    | (none, s) => (.outOfMemory, s)
    | (some pdpt, s) =>
      let pdptEntry := s.tables pdpt va.pdptIndex
      if pdptEntry.present && pdptEntry.hugeOrPat then (.alreadyMapped, s)
      else if flags.has .huge1G then
        if !cpu.hasPdpe1gb then (.hardwareFault, s)
        else if pdptEntry.present then (.alreadyMapped, s)
        else (.success, s.setEntry pdpt va.pdptIndex (leafEntry cpu (.makeHuge1g phys flags)))
      else
        match s.getOrCreateSubtable pdpt va.pdptIndex user with
        | (none, s) => (.outOfMemory, s)
        | (some pd, s) =>
          let pdEntry := s.tables pd va.pdIndex
          if pdEntry.present && pdEntry.hugeOrPat then (.alreadyMapped, s)
          else if flags.has .huge2M then
            if pdEntry.present then (.alreadyMapped, s)
            else (.success, s.setEntry pd va.pdIndex (leafEntry cpu (.makeHuge2m phys flags)))
          else
            match s.getOrCreateSubtable pd va.pdIndex user with
            | (none, s) => (.outOfMemory, s)
            | (some pt, s) =>
              if (s.tables pt va.ptIndex).present then (.alreadyMapped, s)
              else (.success, s.setEntry pt va.ptIndex (leafEntry cpu (.makePage phys flags)))

/-- **`unmap_page`**. -/
def unmapPage (s : Backend) (virt : ℕ) : PagingError × Backend :=
  if !isPageAligned virt then (.invalidAlignment, s)
  else
    let va := VirtualAddressFields.decompose virt
    let pml4e := s.tables s.kernelPml4Phys va.pml4Index
    if !pml4e.present then (.notMapped, s)
    else
      let pdpt := pml4e.physicalAddress
      let pdpte := s.tables pdpt va.pdptIndex
      if !pdpte.present then (.notMapped, s)
      else if pdpte.hugeOrPat then (.success, s.setEntry pdpt va.pdptIndex .makeEmpty)
      else
        let pd := pdpte.physicalAddress
        let pde := s.tables pd va.pdIndex
        if !pde.present then (.notMapped, s)
        else if pde.hugeOrPat then (.success, s.setEntry pd va.pdIndex .makeEmpty)
        else
          let pt := pde.physicalAddress
          let pte := s.tables pt va.ptIndex
          if !pte.present then (.notMapped, s)
          else (.success, s.setEntry pt va.ptIndex .makeEmpty)

/-- **`protect_page`**: the walk does not ask for huge leaves. -/
def protectPage (cpu : CpuFeatures) (s : Backend) (virt : ℕ) (newFlags : PageFlags) :
    PagingError × Backend :=
  if !isPageAligned virt then (.invalidAlignment, s)
  else
    let va := VirtualAddressFields.decompose virt
    let pml4e := s.tables s.kernelPml4Phys va.pml4Index
    if !pml4e.present then (.notMapped, s)
    else
      let pdpte := s.tables pml4e.physicalAddress va.pdptIndex
      if !pdpte.present then (.notMapped, s)
      else
        let pde := s.tables pdpte.physicalAddress va.pdIndex
        if !pde.present then (.notMapped, s)
        else
          let pt := pde.physicalAddress
          let pte := s.tables pt va.ptIndex
          if !pte.present then (.notMapped, s)
          else
            let phys := pte.physicalAddress
            (.success, s.setEntry pt va.ptIndex (leafEntry cpu (.makePage phys newFlags)))

/-- **`translate`**: 0 where nothing is mapped. -/
def translate (s : Backend) (virt : ℕ) : ℕ :=
  let va := VirtualAddressFields.decompose virt
  let e4 := s.tables s.kernelPml4Phys va.pml4Index
  if !e4.present then 0
  else
    let e3 := s.tables e4.physicalAddress va.pdptIndex
    if !e3.present then 0
    else if e3.hugeOrPat then e3.physicalAddress ||| (virt &&& (pageSize1G - 1))
    else
      let e2 := s.tables e3.physicalAddress va.pdIndex
      if !e2.present then 0
      else if e2.hugeOrPat then e2.physicalAddress ||| (virt &&& (pageSize2M - 1))
      else
        let e1 := s.tables e2.physicalAddress va.ptIndex
        if !e1.present then 0
        else e1.physicalAddress ||| va.pageOffset.val

/-- The loop of `initialize` that maps `n` pages from `p` on. -/
def mapRange (cpu : CpuFeatures) (s : Backend) (p : ℕ) : ℕ → Backend
  | 0 => s
  | n + 1 => mapRange cpu (s.mapPage cpu (u64 (p + hhdmBase)) p .kernelRW).2 (p + pageSize) n

/-- What `initialize` does for one entry of the memory map. -/
def mapEntry (cpu : CpuFeatures) (s : Backend) (ent : UnifiedMemoryEntry) : Backend :=
  let regionStart := alignUp ent.addr pageSize
  let regionEnd := alignDown (u64 (ent.addr + ent.len)) pageSize
  if regionStart ≥ regionEnd then s
  else
    let mapStart := if regionStart > earlyBootMapLimit then regionStart else earlyBootMapLimit
    mapRange cpu s mapStart ((regionEnd - mapStart) / pageSize)

/-- **`PagingBackend::initialize`** on the tables in CR3. -/
def initializePaging (cpu : CpuFeatures) (cr3 : ℕ) (mmap : MemoryMap) (s : Backend) : Backend :=
  let p4 := alignDown cr3 pageSize
  let s := { s with kernelPml4Phys := p4 }
  let s := s.setEntry p4 0 .makeEmpty
  mmap.foldl (mapEntry cpu) s

end Backend

end Paging

end MioOS
