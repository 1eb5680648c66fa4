import MioOS.Pmm.Defs

/-!
# Slub/Defs — the SLUB allocator of `slub.cpp`

A slab is a page that starts with a `SlabHeader`; the free objects behind it are chained through
their first eight bytes.  A `KmemCache` serves one object size from its slabs, `kmalloc` picks a
cache by size and core or goes to the PMM, and `kfree` decides from the bytes of the page which of
the two a block came from.

`KmemCache` asks its page source for `alloc_pages()` and `free_pages(ptr)` only, so its operations
are written over any `PageSource`; the PMM is one.  A result `none` is a call that does not return:
`kernel_panic`, a division by zero, or a loop that does not end.
-/

namespace MioOS

open ByteMemory

/-- `sizeof(SlabHeader)`. -/
def slabHeaderSize : ℕ := 48

/-- The magic number of a slab. -/
def slabMagic : ℕ := 0x51AB51AB

/-- The magic number of a block that `kmalloc` took from the PMM directly. -/
def bypassMagic : ℕ := 0xDEADBEEF

/-- `MIN_KMEM_CACHE_SIZE`. -/
def minKmemCacheSize : ℕ := 16

/-- `NUM_KMALLOC_CACHES`. -/
def numKmallocCaches : ℕ := 8

/-- `sizeof(KmemCache)`: three words and a lock. -/
def kmemCacheBytes : ℕ := 32

/-! ## The page source -/

/-- What SLUB uses of a physical memory manager: the memory, and pages by physical address. -/
structure PageSource (σ : Type) where
  mem : σ → Mem
  setMem : σ → Mem → σ
  /-- `alloc_pages`, with 0 for `nullptr`. -/
  allocPages : σ → ℕ → Option (ℕ × σ)
  /-- `free_pages`. -/
  freePages : σ → ℕ → ℕ → σ

/-- The PMM as a page source. -/
def PMM.pageSource : PageSource PMM where
  mem := PMM.mem
  setMem s m := { s with mem := m }
  allocPages := PMM.allocPages
  freePages := PMM.freePages

/-! ## The fields of a `SlabHeader` -/

namespace SlabHeader

/-- `header->magic`. -/
def magic (m : Mem) (header : ℕ) : ℕ := m.load 4 header

/-- `header->cache`. -/
def cache (m : Mem) (header : ℕ) : ℕ := m.load 8 (header + 8)

/-- `header->freelist`. -/
def freelist (m : Mem) (header : ℕ) : ℕ := m.load 8 (header + 16)

/-- `header->inuse`. -/
def inuse (m : Mem) (header : ℕ) : ℕ := m.load 4 (header + 24)

/-- `header->max_objs`. -/
def maxObjs (m : Mem) (header : ℕ) : ℕ := m.load 4 (header + 28)

/-- `header->next_slab`. -/
def nextSlab (m : Mem) (header : ℕ) : ℕ := m.load 8 (header + 32)

/-- `header->prev_slab`. -/
def prevSlab (m : Mem) (header : ℕ) : ℕ := m.load 8 (header + 40)

/-- `header->magic = v`. -/
def setMagic (m : Mem) (header v : ℕ) : Mem := m.store 4 header v

/-- `header->cache = v`. -/
def setCache (m : Mem) (header v : ℕ) : Mem := m.store 8 (header + 8) v

/-- `header->freelist = v`. -/
def setFreelist (m : Mem) (header v : ℕ) : Mem := m.store 8 (header + 16) v

/-- `header->inuse = v`, a 32-bit field. -/
def setInuse (m : Mem) (header v : ℕ) : Mem := m.store 4 (header + 24) v

/-- `header->max_objs = v`, a 32-bit field. -/
def setMaxObjs (m : Mem) (header v : ℕ) : Mem := m.store 4 (header + 28) v

/-- `header->next_slab = v`. -/
def setNextSlab (m : Mem) (header v : ℕ) : Mem := m.store 8 (header + 32) v

/-- `header->prev_slab = v`. -/
def setPrevSlab (m : Mem) (header v : ℕ) : Mem := m.store 8 (header + 40) v

end SlabHeader

open SlabHeader

/-- `*get_freepointer(object)`. -/
def freePointer (m : Mem) (object : ℕ) : ℕ := m.load 8 object

/-- `*get_freepointer(object) = v`. -/
def setFreePointer (m : Mem) (object v : ℕ) : Mem := m.store 8 object v

/-- 32-bit subtraction. -/
def sub32 (a b : ℕ) : ℕ := (a + 2 ^ 32 - b) % 2 ^ 32

theorem sub32_eq (a b : ℕ) : sub32 a b = (a + 2 ^ 32 - b) % 2 ^ 32 := rfl

-- unification must not unfold a remainder by `2 ^ 32`
attribute [irreducible] sub32

/-! ## One cache -/

/-- The state of a `KmemCache`. -/
structure KmemCache where
  objSize : ℕ
  /-- `partial_list`, a pointer or null. -/
  partialList : ℕ
  deriving DecidableEq, Repr

namespace KmemCache

/-- The constructor `KmemCache(cache_name, size)`. -/
def new (size : ℕ) : KmemCache :=
  let size := if size < 8 then 8 else size
  let size := if size % 8 ≠ 0 then u64 (size + (8 - size % 8)) else size
  ⟨size, 0⟩

/-- The `for` loop of `format_new_slab`: the last object and the memory. -/
def chainObjects (header objSize : ℕ) : ℕ → ℕ → ℕ → Mem → Option (ℕ × Mem)
  | 0, _, _, _ => none
  | fuel + 1, i, currentObj, m =>
    if i < sub32 (maxObjs m header) 1 then
      let nextObj := u64 (currentObj + objSize)
      chainObjects header objSize fuel (i + 1) nextObj (setFreePointer m currentObj nextObj)
    else some (currentObj, m)

/-- `format_new_slab`.  The counter of its loop has 32 bits. -/
def formatNewSlab (self : ℕ) (c : KmemCache) (header page : ℕ) (m : Mem) : Option Mem :=
  let m := setMagic m header slabMagic
  let m := setCache m header self
  let m := setInuse m header 0
  let m := setNextSlab m header 0
  let m := setPrevSlab m header 0
  let alignment := if c.objSize < 64 then c.objSize else 64
  let firstObj := alignUp (u64 (page + slabHeaderSize)) alignment
  let m := setFreelist m header firstObj
  let availableSpace := sub64 pageSize (sub64 firstObj page)
  if c.objSize = 0 then none
  else
    let m := setMaxObjs m header (availableSpace / c.objSize)
    (chainObjects header c.objSize (2 ^ 32) 0 firstObj m).map fun (currentObj, m) =>
      setFreePointer m currentObj 0

/-- `header->next_slab = partial_list; header->prev_slab = nullptr; ...`: the slab becomes the head
of the partial list. -/
def pushPartial (c : KmemCache) (header : ℕ) (m : Mem) : KmemCache × Mem :=
  let m := setNextSlab m header c.partialList
  let m := setPrevSlab m header 0
  let m := if c.partialList ≠ 0 then setPrevSlab m c.partialList header else m
  ({ c with partialList := header }, m)

/-- The second half of `alloc`: pop the first free object of the slab, and take the slab off the
partial list if that was the last one. -/
def popObject (c : KmemCache) (targetSlab : ℕ) (m : Mem) : ℕ × KmemCache × Mem :=
  let object := freelist m targetSlab
  let m := setFreelist m targetSlab (freePointer m object)
  let m := setInuse m targetSlab (inuse m targetSlab + 1)
  if freelist m targetSlab = 0 then
    let c := { c with partialList := nextSlab m targetSlab }
    let m := if c.partialList ≠ 0 then setPrevSlab m c.partialList 0 else m
    let m := setNextSlab m targetSlab 0
    let m := setPrevSlab m targetSlab 0
    (object, c, m)
  else (object, c, m)

section Operations

variable {σ : Type} (P : PageSource σ)

/-- `alloc`.  `self` is the address of the cache. -/
def alloc (self : ℕ) (c : KmemCache) (s : σ) : Option (ℕ × KmemCache × σ) :=
  if c.partialList = 0 then
    (P.allocPages s 1).bind fun (physPtr, s) =>
      if physPtr = 0 then some (0, c, s)
      else
        let virtAddr := u64 (physPtr + hhdmBase)
        (formatNewSlab self c virtAddr virtAddr (P.mem s)).map fun m =>
          let (c, m) := pushPartial c virtAddr m
          let (object, c, m) := popObject c virtAddr m
          (object, c, P.setMem s m)
  else
    let (object, c, m) := popObject c c.partialList (P.mem s)
    some (object, c, P.setMem s m)

/-- Taking a slab off the partial list in `free`. -/
def unlinkPartial (c : KmemCache) (header : ℕ) (m : Mem) : KmemCache × Mem :=
  let (c, m) :=
    if prevSlab m header ≠ 0 then (c, setNextSlab m (prevSlab m header) (nextSlab m header))
    else ({ c with partialList := nextSlab m header }, m)
  let m :=
    if nextSlab m header ≠ 0 then setPrevSlab m (nextSlab m header) (prevSlab m header) else m
  (c, m)

/-- `free`. -/
def free (self : ℕ) (c : KmemCache) (s : σ) (object : ℕ) : Option (KmemCache × σ) :=
  if object = 0 then some (c, s)
  else
    let header := alignDown object pageSize
    let m := P.mem s
    if magic m header ≠ slabMagic ∨ cache m header ≠ self then none
    else
      let m := setFreePointer m object (freelist m header)
      let m := setFreelist m header object
      let m := setInuse m header (sub32 (inuse m header) 1)
      let (c, m) :=
        if inuse m header = sub32 (maxObjs m header) 1 then pushPartial c header m else (c, m)
      if inuse m header = 0 then
        let (c, m) := unlinkPartial c header m
        some (c, P.freePages (P.setMem s m) (sub64 header hhdmBase) 1)
      else some (c, P.setMem s m)

end Operations

end KmemCache

/-! ## The heap -/

/-- The allocator's state: the PMM, the caches by address, the static pool that holds the caches of
the BSP and the pools of the cores registered in `ap_kmalloc_caches`, in order.

Cache `i` of a core is the `i`-th object of its pool; the array of cache pointers of a core is
written once, before it is registered. -/
structure Heap where
  pmm : PMM
  cacheAt : ℕ → KmemCache
  bspPool : ℕ
  apPools : List ℕ

/-- `&pool[i * sizeof(KmemCache)]`. -/
def cacheAddr (pool i : ℕ) : ℕ := pool + i * kmemCacheBytes

/-- `__builtin_clzll` of a value that is not 0. -/
def clz64 (x : ℕ) : ℕ := 63 - Nat.log2 x

namespace Heap

/-- `get_kmalloc_cache`: the address of the cache, 0 for `nullptr`. -/
def getKmallocCache (h : Heap) (coreId size : ℕ) : ℕ :=
  match if coreId > 0 then h.apPools[coreId - 1]? else some h.bspPool with
  | none => 0
  | some pool =>
    if size ≤ minKmemCacheSize then cacheAddr pool 0
    else
      let index : ℤ := 64 - clz64 (size - 1) - 4
      if index ≥ 0 ∧ index < numKmallocCaches then cacheAddr pool index.toNat else 0

/-- `kmalloc` on a core. -/
def kmalloc (h : Heap) (coreId size : ℕ) : Option (ℕ × Heap) :=
  if size = 0 then some (0, h)
  else
    let cache := h.getKmallocCache coreId size
    if cache ≠ 0 then
      ((h.cacheAt cache).alloc PMM.pageSource cache h.pmm).map fun (object, c, s) =>
        (object, { h with pmm := s, cacheAt := Function.update h.cacheAt cache c })
    else
      let pagesNeeded := u64 (u64 (size + pageSize - 1) / pageSize + 1)
      (h.pmm.allocPages pagesNeeded).map fun (physPtr, s) =>
        if physPtr = 0 then (0, { h with pmm := s })
        else
          let virtAddr := u64 (physPtr + hhdmBase)
          let m := s.mem.store 4 virtAddr bypassMagic
          let m := m.store 8 (virtAddr + 4) pagesNeeded
          (u64 (virtAddr + pageSize), { h with pmm := { s with mem := m } })

/-- A cache of one of the cores. -/
def registered (h : Heap) (cache : ℕ) : Bool :=
  (h.bspPool :: h.apPools).any fun pool =>
    (List.range numKmallocCaches).any fun i => cache == cacheAddr pool i

/-- `is_slub_page`: the page starts with the header of a slab of a known cache. -/
def isSlubPage (h : Heap) (header : ℕ) : Bool :=
  magic h.pmm.mem header == slabMagic && h.registered (cache h.pmm.mem header)

/-- `kfree`. -/
def kfree (h : Heap) (ptr : ℕ) : Option Heap :=
  if ptr = 0 then some h
  else
    let pageBase := alignDown ptr pageSize
    if h.isSlubPage pageBase then
      let self := cache h.pmm.mem pageBase
      ((h.cacheAt self).free PMM.pageSource self h.pmm ptr).map fun (c, s) =>
        { h with pmm := s, cacheAt := Function.update h.cacheAt self c }
    else
      let metaPage := sub64 pageBase pageSize
      if h.pmm.mem.load 4 metaPage = bypassMagic then
        some { h with
          pmm := h.pmm.freePages (sub64 metaPage hhdmBase) (h.pmm.mem.load 8 (metaPage + 4)) }
      else none

/-- The loop that constructs the caches of a pool, from cache `i` on; `left` is how many there are
still to construct. -/
def constructCaches (pool : ℕ) : ℕ → ℕ → ℕ → (ℕ → KmemCache) → ℕ → KmemCache
  | 0, _, _, cacheAt => cacheAt
  | left + 1, i, targetSize, cacheAt =>
    constructCaches pool left (i + 1) (targetSize * 2)
      (Function.update cacheAt (cacheAddr pool i) (KmemCache.new targetSize))

/-- `initialize_slub`. -/
def initializeSlub (bspPool : ℕ) (s : PMM) : Heap where
  pmm := s
  cacheAt := constructCaches bspPool numKmallocCaches 0 minKmemCacheSize fun _ => ⟨0, 0⟩
  bspPool := bspPool
  apPools := []

/-- `sizeof(Node)` of a list of pointers. -/
def listNodeBytes : ℕ := 24

/-- `initialize_slub_ap` on a core: the array and the pool, then the two list entries.  A list whose
`push_back` finds no memory stays as it is. -/
def initializeSlubAp (h : Heap) (coreId : ℕ) : Option Heap :=
  (h.kmalloc coreId (8 * numKmallocCaches)).bind fun (apCaches, h) =>
  (h.kmalloc coreId (kmemCacheBytes * numKmallocCaches)).bind fun (apPool, h) =>
    if apCaches = 0 ∨ apPool = 0 then none
    else
      let h := { h with
        cacheAt := constructCaches apPool numKmallocCaches 0 minKmemCacheSize h.cacheAt }
      (h.kmalloc coreId listNodeBytes).bind fun (node, h) =>
        let h := if node = 0 then h else { h with apPools := h.apPools ++ [apPool] }
        (h.kmalloc coreId 8).bind fun (poolPtrHolder, h) =>
          if poolPtrHolder = 0 then some h
          else (h.kmalloc coreId listNodeBytes).map fun (_, h) => h

end Heap

end MioOS
