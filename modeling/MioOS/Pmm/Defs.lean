import MioOS.Library.ByteMemory
import MioOS.Library.Chain
import MioOS.Memory.MemoryMap

/-!
# Pmm/Defs — the physical memory manager of `pmm.cpp`

The bump allocator that serves early boot, the buddy allocator that replaces it, and the switch
between the two.  `PMM` is the class's static state together with the memory it works on: the free
list nodes and the buddy bitmaps live in that memory, at the addresses the source gives them.

A result of type `Option` is `none` where the source never returns: `kernel_panic` halts the core,
and a loop that does not end runs out of `loopFuel`.

`trace` is a ghost field.  It records, in order of execution backwards, the bitmap byte every
`toggle_buddy_bit` touches and, for every buddy a merge unlinks, whether it was on the list it is
unlinked from.
-/

namespace MioOS

open ByteMemory Intrusive

/-- What the ghost trace records. -/
inductive Event
  /-- `toggle_buddy_bit` flipped a bit of byte `byteIndex` of `buddy_map[order]`. -/
  | toggle (order byteIndex : ℕ)
  /-- A merge passed `block` to `list_remove`; `listed` says it was a member of the list. -/
  | merge (order block : ℕ) (listed : Prop)

/-- The static state of `PMM` and the file-level variables of `pmm.cpp`. -/
structure PMM where
  initializedBuddy : Bool
  mmap : Option MemoryMap
  totalMemory : ℕ
  freeMemory : ℕ
  usedMemory : ℕ
  bumpPtrPhys : ℕ
  bumpRegionEndPhys : ℕ
  highestReservedPhys : ℕ
  bumpWatermark : ℕ
  /-- `free_lists[order]`, a pointer or null. -/
  freeLists : ℕ → ℕ
  /-- `buddy_map[order]`, the address of the slice of that order. -/
  buddyMap : ℕ → ℕ
  /-- The memory behind the HHDM, by virtual address. -/
  mem : Mem
  trace : List Event

/-- The linker symbols `kernel_start_phys` and `kernel_end_phys`. -/
structure KernelImage where
  startPhys : ℕ
  endPhys : ℕ
  /-- `linker.ld` puts the image at 1 MiB. -/
  start_aligned : pageSize ∣ startPhys
  start_lt_end : startPhys < endPhys

/-- More iterations than there are page frames in a 64-bit address space. -/
def loopFuel : ℕ := 2 ^ 52

namespace PMM

/-! ## Bump allocation -/

/-- The callback of `find_bump_alloc_region`: the new bump pointer and region end, if the entry can
serve the request. -/
def bumpCandidate (watermark requiredSize : ℕ) (ent : UnifiedMemoryEntry) : Option (ℕ × ℕ) :=
  if !ent.isUsable || ent.addr == 0 then none
  else
    let entryEnd := u64 (ent.addr + ent.len)
    if entryEnd ≤ watermark then none
    else
      let potentialStart := alignUp (if ent.addr > watermark then ent.addr else watermark) pageSize
      if u64 (potentialStart + requiredSize) > earlyBootMapLimit then none
      else if u64 (potentialStart + requiredSize) ≤ entryEnd then
        some (potentialStart,
          if entryEnd > earlyBootMapLimit then earlyBootMapLimit else entryEnd)
      else none

/-- `find_bump_alloc_region`: the first entry that can serve the request, or a panic. -/
def findBumpAllocRegion (s : PMM) (requiredSize : ℕ) : Option PMM :=
  ((s.mmap.getD []).findSome? (bumpCandidate s.bumpWatermark requiredSize)).map
    fun (start, regionEnd) => { s with bumpPtrPhys := start, bumpRegionEndPhys := regionEnd }

/-- The `while` loop of `alloc_pages_bump`. -/
def settleBump : ℕ → PMM → ℕ → Option PMM
  | 0, _, _ => none
  | fuel + 1, s, allocSize =>
    if s.bumpPtrPhys = 0 ∨ u64 (s.bumpPtrPhys + allocSize) > s.bumpRegionEndPhys then
      (findBumpAllocRegion s allocSize).bind fun s => settleBump fuel s allocSize
    else some s

/-- `alloc_pages_bump`. -/
def allocPagesBump (s : PMM) (num : ℕ) : Option (ℕ × PMM) :=
  if s.initializedBuddy then some (0, s)
  else
    let allocSize := u64 (num * pageSize)
    (settleBump loopFuel s allocSize).map fun s =>
      (s.bumpPtrPhys, { s with bumpPtrPhys := u64 (s.bumpPtrPhys + allocSize) })

/-- `initialize_bump`.  The first eight bytes of the Multiboot block hold its size (and a reserved
zero); `multibootPtr` is a HHDM address, and the two offsets cancel. -/
def initializeBump (k : KernelImage) (s : PMM) (mmap : Option MemoryMap) (multibootPtr : ℕ) :
    Option PMM :=
  match mmap with
  | none => none
  | some mmap =>
    let mbTotalSize := sub64 (s.mem.load 8 multibootPtr) hhdmBase
    let mbEnd := u64 (multibootPtr + mbTotalSize)
    let highest := if mbEnd > k.endPhys then mbEnd else k.endPhys
    some { s with mmap := some mmap, highestReservedPhys := highest, bumpWatermark := highest }

/-! ## Free list nodes

`buddy_free_node` is `{next, prev}` at the start of a free page, reached through the HHDM. -/

/-- `(buddy_free_node*)((pfn << PAGE_SHIFT) + HHDM_BASE)`. -/
def nodeOf (pfn : ℕ) : ℕ := u64 ((pfn <<< pageShift) + hhdmBase)

/-- `((uintptr_t)block - HHDM_BASE) >> PAGE_SHIFT`. -/
def pfnOf (node : ℕ) : ℕ := sub64 node hhdmBase >>> pageShift

/-- `node->next`. -/
def next (m : Mem) (node : ℕ) : ℕ := m.load 8 node

/-- `node->prev`. -/
def prev (m : Mem) (node : ℕ) : ℕ := m.load 8 (node + 8)

/-- `node->next = p`. -/
def setNext (m : Mem) (node p : ℕ) : Mem := m.store 8 node p

/-- `node->prev = p`. -/
def setPrev (m : Mem) (node p : ℕ) : Mem := m.store 8 (node + 8) p

/-- The nodes that a traversal of `free_lists[order]` meets. -/
def OnFreeList (s : PMM) (order node : ℕ) : Prop :=
  Visits 0 (next s.mem) (s.freeLists order) node

/-- `list_add`. -/
def listAdd (s : PMM) (block order : ℕ) : PMM :=
  let m := setPrev s.mem block 0
  let m := setNext m block (s.freeLists order)
  let m := if s.freeLists order ≠ 0 then setPrev m (s.freeLists order) block else m
  { s with mem := m, freeLists := Function.update s.freeLists order block }

/-- `list_remove`. -/
def listRemove (s : PMM) (block order : ℕ) : PMM :=
  let s :=
    if prev s.mem block ≠ 0 then
      { s with mem := setNext s.mem (prev s.mem block) (next s.mem block) }
    else { s with freeLists := Function.update s.freeLists order (next s.mem block) }
  if next s.mem block ≠ 0 then
    { s with mem := setPrev s.mem (next s.mem block) (prev s.mem block) }
  else s

/-- `toggle_buddy_bit`: flips the bit of a buddy pair and returns its new value. -/
def toggleBuddyBit (s : PMM) (pfn order : ℕ) : Bool × PMM :=
  let pairIndex := pfn >>> (order + 1)
  let byteIndex := pairIndex / 8
  let bitIndex := pairIndex % 8
  let m := s.mem.store 1 (s.buddyMap order + byteIndex)
    (s.mem.load 1 (s.buddyMap order + byteIndex) ^^^ (1 <<< bitIndex))
  (m.load 1 (s.buddyMap order + byteIndex) &&& (1 <<< bitIndex) != 0,
    { s with mem := m, trace := .toggle order byteIndex :: s.trace })

/-- The inner `while (curr)` of `is_page_free` and `allocate_specific_page`: the first node of the
list from `curr` whose block contains the frame. -/
def findBlock (s : PMM) (targetPfn order : ℕ) : ℕ → ℕ → Option (Option ℕ)
  | 0, _ => none
  | fuel + 1, curr =>
    if curr = 0 then some none
    else if pfnOf curr ≤ targetPfn ∧ targetPfn < pfnOf curr + 2 ^ order then some (some curr)
    else findBlock s targetPfn order fuel (next s.mem curr)

/-- Their outer `for (order = 0; order <= BUDDY_MAX_ORDER; order++)`, over the orders still to
visit: the node found and its order. -/
def findBlockFrom (s : PMM) (targetPfn : ℕ) : List ℕ → Option (Option (ℕ × ℕ))
  | [] => some none
  | order :: orders =>
    (findBlock s targetPfn order loopFuel (s.freeLists order)).bind fun
      | some curr => some (some (curr, order))
      | none => findBlockFrom s targetPfn orders

/-- `is_page_free`. -/
def isPageFree (s : PMM) (targetPfn : ℕ) : Option Bool :=
  (findBlockFrom s targetPfn (List.range (buddyMaxOrder + 1))).map Option.isSome

/-- The `while (current_order > 0)` of `allocate_specific_page`: split the block at `pfn` and keep
the half that contains the target. -/
def splitToward (targetPfn : ℕ) : ℕ → PMM → ℕ → PMM
  | 0, s, _ => s
  | currentOrder + 1, s, pfn =>
    let buddyPfn := pfn ^^^ (1 <<< currentOrder)
    if buddyPfn ≤ targetPfn ∧ targetPfn < buddyPfn + 2 ^ currentOrder then
      let s := listAdd s (nodeOf pfn) currentOrder
      splitToward targetPfn currentOrder (toggleBuddyBit s buddyPfn currentOrder).2 buddyPfn
    else
      let s := listAdd s (nodeOf buddyPfn) currentOrder
      splitToward targetPfn currentOrder (toggleBuddyBit s pfn currentOrder).2 pfn

/-- `used_memory += n; free_memory -= n`. -/
def countUsed (s : PMM) (n : ℕ) : PMM :=
  { s with usedMemory := u64 (s.usedMemory + n), freeMemory := sub64 s.freeMemory n }

/-- `used_memory -= n; free_memory += n`. -/
def countFreed (s : PMM) (n : ℕ) : PMM :=
  { s with usedMemory := sub64 s.usedMemory n, freeMemory := u64 (s.freeMemory + n) }

/-- `allocate_specific_page`. -/
def allocateSpecificPage (s : PMM) (targetPfn : ℕ) : Option (Bool × PMM) :=
  (findBlockFrom s targetPfn (List.range (buddyMaxOrder + 1))).map fun
    | none => (false, s)
    | some (curr, order) =>
      let blockPfn := pfnOf curr
      let s := (toggleBuddyBit (listRemove s curr order) blockPfn order).2
      (true, countUsed (splitToward targetPfn order s blockPfn) pageSize)

/-- The loop of `pages_to_order`. -/
def orderLoop : ℕ → ℕ → ℕ → ℕ
  | 0, _, order => order
  | fuel + 1, count, order => if count > 0 then orderLoop fuel (count >>> 1) (order + 1) else order

/-- `pages_to_order`; the loop shifts a 64-bit count to zero. -/
def pagesToOrder (pages : ℕ) : ℕ := if pages ≤ 1 then 0 else orderLoop 65 (pages - 1) 0

/-- The `while (order < BUDDY_MAX_ORDER)` of `free_pages` and `free_pages_order`; `left` is how
many more times it can run. -/
def mergeLoop : ℕ → PMM → ℕ → ℕ → PMM × ℕ × ℕ
  | 0, s, pfn, order => (s, pfn, order)
  | left + 1, s, pfn, order =>
    match toggleBuddyBit s pfn order with
    | (true, s) => (s, pfn, order)
    | (false, s) =>
      let buddy := nodeOf (pfn ^^^ (1 <<< order))
      let s := { s with trace := .merge order buddy (s.OnFreeList order buddy) :: s.trace }
      mergeLoop left (listRemove s buddy order) (pfn &&& (2 ^ 64 - 1 - (1 <<< order))) (order + 1)

/-- What `free_pages` and `free_pages_order` do once they have a frame and an order. -/
def freeBlock (s : PMM) (pfn order : ℕ) : PMM :=
  match mergeLoop (buddyMaxOrder - order) s pfn order with
  | (s, pfn, mergedOrder) =>
    countFreed (listAdd s (nodeOf pfn) mergedOrder) (pageSize * 2 ^ order)

/-- `free_pages_order`. -/
def freePagesOrder (s : PMM) (ptr order : ℕ) : PMM :=
  if ptr = 0 ∨ order > buddyMaxOrder then s else freeBlock s (ptr >>> pageShift) order

/-- `free_pages`. -/
def freePages (s : PMM) (ptr num : ℕ) : PMM :=
  let order := pagesToOrder num
  if ptr = 0 ∨ order > buddyMaxOrder then s else freeBlock s (ptr >>> pageShift) order

/-! ## The switch to the buddy allocator -/

/-- `check_overlap_with_reserved`. -/
def checkOverlapWithReserved (k : KernelImage) (s : PMM) (p blockSize : ℕ) : Bool :=
  let blockEnd := u64 (p + blockSize)
  let kernelMbiEnd := alignUp s.highestReservedPhys pageSize
  (p < kernelMbiEnd && blockEnd > k.startPhys) ||
    (p < s.bumpPtrPhys && blockEnd > s.highestReservedPhys)

/-- The first pass of `initialize_buddy` over the map: `total_memory` and `max_usable_addr`. -/
def scanUsable : MemoryMap → ℕ → ℕ → ℕ × ℕ
  | [], total, maxUsable => (total, maxUsable)
  | ent :: rest, total, maxUsable =>
    if !ent.isUsable then scanUsable rest total maxUsable
    else
      let entryEnd := u64 (ent.addr + ent.len)
      scanUsable rest (u64 (total + ent.len)) (if entryEnd > maxUsable then entryEnd else maxUsable)

/-- `bytes_needed` for the bitmap of one order. -/
def bytesNeeded (maxPfn order : ℕ) : ℕ :=
  let numPairs := (maxPfn >>> (order + 1)) + 1
  let bytes := (numPairs + 7) / 8
  if bytes = 0 then 1 else bytes

/-- `current_offset` when the slice of `order` is cut, and for `order = BUDDY_MAX_ORDER + 1` the
`total_bitmap_bytes`. -/
def bitmapOffset (maxPfn : ℕ) : ℕ → ℕ
  | 0 => 0
  | order + 1 => bitmapOffset maxPfn order + bytesNeeded maxPfn order

/-- `total_bitmap_bytes`. -/
def totalBitmapBytes (maxPfn : ℕ) : ℕ := bitmapOffset maxPfn (buddyMaxOrder + 1)

/-- The `while (order > 0)` of the carve: the largest order whose block at `p` is aligned, ends
inside the region and meets nothing reserved. -/
def carveOrder (k : KernelImage) (s : PMM) (p regionEnd : ℕ) : ℕ → ℕ
  | 0 => 0
  | order + 1 =>
    let blockSize := pageSize <<< (order + 1)
    if u64 (p + blockSize) ≤ regionEnd ∧ p % blockSize = 0 ∧
        !checkOverlapWithReserved k s p blockSize then order + 1
    else carveOrder k s p regionEnd order

/-- The `while (p < region_end)` of `initialize_buddy`. -/
def carveRegion (k : KernelImage) : ℕ → PMM → ℕ → ℕ → Option PMM
  | 0, _, _, _ => none
  | fuel + 1, s, p, regionEnd =>
    if p < regionEnd then
      if p = 0 then carveRegion k fuel s (u64 (p + pageSize)) regionEnd
      else if k.startPhys ≤ p ∧ p < alignUp s.highestReservedPhys pageSize then
        carveRegion k fuel s (alignUp s.highestReservedPhys pageSize) regionEnd
      else if s.highestReservedPhys ≤ p ∧ p < s.bumpPtrPhys then
        carveRegion k fuel s s.bumpPtrPhys regionEnd
      else
        let order := carveOrder k s p regionEnd buddyMaxOrder
        carveRegion k fuel (freePagesOrder s p order) (u64 (p + (pageSize <<< order))) regionEnd
    else some s

/-- The callback of the second pass of `initialize_buddy`. -/
def carveEntry (k : KernelImage) (s : PMM) (ent : UnifiedMemoryEntry) : Option PMM :=
  if !ent.isUsable then some s
  else
    carveRegion k loopFuel s (alignUp ent.addr pageSize)
      (alignDown (u64 (ent.addr + ent.len)) pageSize)

/-- The second pass of `initialize_buddy` over the entries of the map.  The source reads them from
the map's tag while it runs; `carveTag` is that pass, and the two agree while the tag lies outside
what the pass writes. -/
def carve (k : KernelImage) : MemoryMap → PMM → Option PMM
  | [], s => some s
  | ent :: rest, s => (carveEntry k s ent).bind (carve k rest)

/-- What `initialize_buddy` does up to the second pass over the map: count the usable memory, size
the bitmaps, take their pages from the bump allocator and cut them into slices. -/
def prepareBuddy (s : PMM) (mmap : MemoryMap) : Option PMM :=
  let s := { s with freeLists := fun order => if order ≤ buddyMaxOrder then 0 else s.freeLists order }
  let (total, maxUsable) := scanUsable mmap s.totalMemory 0
  let s := { s with totalMemory := total }
  let totalPages := u64 (maxUsable + pageSize - 1) / pageSize
  if totalPages = 0 then none
  else
    let s := { s with usedMemory := total, freeMemory := 0 }
    let maxPfn := totalPages - 1
    let bitmapPages := alignUp (totalBitmapBytes maxPfn) pageSize / pageSize
    (allocPagesBump s bitmapPages).map fun (phys, s) =>
      let bitmapMemory := u64 (phys + hhdmBase)
      { s with
        mem := s.mem.fill (bitmapPages * pageSize) bitmapMemory 0
        buddyMap := fun order =>
          if order ≤ buddyMaxOrder then bitmapMemory + bitmapOffset maxPfn order
          else s.buddyMap order }

/-- `initialize_buddy`. -/
def initializeBuddy (k : KernelImage) (s : PMM) (mmap : Option MemoryMap) : Option PMM :=
  match mmap with
  | none => none
  | some mmap =>
    ((prepareBuddy s mmap).bind (carve k mmap)).map fun s => { s with initializedBuddy := true }

/-! ## The allocation interface -/

/-- `while (current_order <= BUDDY_MAX_ORDER && free_lists[current_order] == nullptr)`; `left` is
how many orders are left to try. -/
def firstNonEmpty (s : PMM) : ℕ → ℕ → ℕ
  | 0, currentOrder => currentOrder
  | left + 1, currentOrder =>
    if s.freeLists currentOrder = 0 then firstNonEmpty s left (currentOrder + 1) else currentOrder

/-- `while (current_order > order)` of `alloc_pages`; `left` is `current_order - order`. -/
def splitDown (order : ℕ) : ℕ → PMM → ℕ → PMM
  | 0, s, _ => s
  | left + 1, s, pfn =>
    let currentOrder := order + left
    let buddyPfn := pfn ^^^ (1 <<< currentOrder)
    let s := listAdd s (nodeOf buddyPfn) currentOrder
    splitDown order left (toggleBuddyBit s pfn currentOrder).2 pfn

/-- `alloc_pages`.  The result is a physical address, 0 for `nullptr`. -/
def allocPages (s : PMM) (num : ℕ) : Option (ℕ × PMM) :=
  if !s.initializedBuddy then allocPagesBump s num
  else
    let order := pagesToOrder num
    if order > buddyMaxOrder then some (0, s)
    else
      let currentOrder := firstNonEmpty s (buddyMaxOrder + 1 - order) order
      if currentOrder > buddyMaxOrder then some (0, s)
      else
        let block := s.freeLists currentOrder
        let s := listRemove s block currentOrder
        let pfn := pfnOf block
        let s := (toggleBuddyBit s pfn currentOrder).2
        let s := splitDown order (currentOrder - order) s pfn
        some (u64 (pfn <<< pageShift), countUsed s (pageSize * 2 ^ order))

/-- The `for` loop of `alloc_page_below_1mib`, over the frames still to try. -/
def allocFirstOf (s : PMM) : List ℕ → Option (ℕ × PMM)
  | [] => some (0, s)
  | pfn :: rest =>
    (allocateSpecificPage s pfn).bind fun
      | (true, s) => some (u64 (pfn <<< pageShift), s)
      | (false, s) => allocFirstOf s rest

/-- `alloc_page_below_1mib`: frames 8 to 255. -/
def allocPageBelow1mib (s : PMM) : Option (ℕ × PMM) :=
  if !s.initializedBuddy then some (0, s) else allocFirstOf s (List.range' 8 248)

/-- The loop of `mark_region_free`. -/
def markFreeLoop : ℕ → PMM → ℕ → ℕ → Option PMM
  | 0, _, _, _ => none
  | fuel + 1, s, p, endAddr =>
    if p < endAddr then
      (isPageFree s (p >>> pageShift)).bind fun free =>
        markFreeLoop fuel (if free then s else freePages s p 1) (u64 (p + pageSize)) endAddr
    else some s

/-- `mark_region_free`. -/
def markRegionFree (s : PMM) (base length : ℕ) : Option PMM :=
  if !s.initializedBuddy then some s
  else markFreeLoop loopFuel s (alignUp base pageSize) (alignDown (u64 (base + length)) pageSize)

/-- The loop of `mark_region_used`. -/
def markUsedLoop : ℕ → PMM → ℕ → ℕ → Option PMM
  | 0, _, _, _ => none
  | fuel + 1, s, p, endAddr =>
    if p < endAddr then
      (allocateSpecificPage s (p >>> pageShift)).bind fun (_, s) =>
        markUsedLoop fuel s (u64 (p + pageSize)) endAddr
    else some s

/-- `mark_region_used`. -/
def markRegionUsed (s : PMM) (base length : ℕ) : Option PMM :=
  if !s.initializedBuddy then some s
  else markUsedLoop loopFuel s (alignDown base pageSize) (alignUp (u64 (base + length)) pageSize)

/-- The callback loop of `reclaim_acpi_memory`. -/
def reclaimLoop : MemoryMap → PMM → Option PMM
  | [], s => some s
  | ent :: rest, s =>
    if ent.isAcpiReclaimable then (markRegionFree s ent.addr ent.len).bind (reclaimLoop rest)
    else reclaimLoop rest s

/-- `reclaim_acpi_memory`. -/
def reclaimAcpiMemory (s : PMM) : Option PMM :=
  match s.mmap with
  | none => some s
  | some mmap => if !s.initializedBuddy then some s else reclaimLoop mmap s

end PMM

end MioOS
