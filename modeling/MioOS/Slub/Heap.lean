import MioOS.Slub.Runs

/-!
# Slub/Heap — the invariant of the heap

The heap is every cache of every core over one PMM, beside the blocks that `kmalloc` took from the PMM
directly and those of the PMM's other clients.  `World.Inv` says how the frames are shared out; one
cache sees the PMM through `Lends`, with everything else as the blocks of others (`Inv.lends`), so a
call of its `alloc` or `free` is taken over from one cache to the heap (`Inv.setCache`).
-/

namespace MioOS

open ByteMemory Intrusive SlabHeader KmemCache PMM

namespace Heap

/-- Where a block of `kmalloc` is from: a cache, or that many pages of the PMM. -/
inductive Origin
  | object (cache : ℕ)
  | pages (num : ℕ)
  deriving DecidableEq

/-- A block that `kmalloc` returned: its address, what was asked for, and where it is from. -/
structure Allocation where
  ptr : ℕ
  size : ℕ
  origin : Origin
  deriving DecidableEq

/-- How many pages `kmalloc` asks the PMM for, if it has to. -/
def Origin.need : Origin → ℕ
  | .object _ => 1
  | .pages num => num

/-- Where `kmalloc` goes on a core for a size. -/
def originOf (h : Heap) (coreId size : ℕ) : Origin :=
  if h.getKmallocCache coreId size ≠ 0 then .object (h.getKmallocCache coreId size)
  else .pages (u64 (u64 (size + pageSize - 1) / pageSize + 1))

/-- The pools of the cores. -/
def pools (h : Heap) : List ℕ := h.bspPool :: h.apPools

/-- The caches of the cores, by address. -/
def caches (h : Heap) : List ℕ :=
  h.pools.flatMap fun pool => (List.range numKmallocCaches).map (cacheAddr pool)

namespace Allocation

/-- The bytes of a block. -/
def bytes (b : Allocation) : Set ℕ := Set.Ico b.ptr (b.ptr + b.size)

/-- The frame of the metadata page. -/
def frame (b : Allocation) : ℕ := (b.ptr - pageSize - hhdmBase) / pageSize

/-- What the PMM gave for it, if `kmalloc` asked the PMM. -/
def block (b : Allocation) : Option PMM.Block :=
  match b.origin with
  | .object _ => none
  | .pages n => some ⟨b.frame * pageSize, n⟩

/-- Its address, if it is an object of a cache. -/
def objectOf (a : ℕ) (b : Allocation) : Option ℕ := if b.origin = .object a then some b.ptr else none

end Allocation

/-- **The heap and its clients**: the blocks that callers of `kmalloc` hold, those that are the pools of
the heap's own caches, and the blocks of the PMM's other clients. -/
structure World where
  heap : Heap
  live : List Allocation
  internal : List Allocation
  others : List PMM.Block
  marked : Set ℕ

/-- The frames of the slabs. -/
def slabBlocks (S : Slabs) : List PMM.Block := (S.part ++ S.full).map frameBlock

namespace World

/-- Every block that `kmalloc` has handed out. -/
def held (w : World) : List Allocation := w.live ++ w.internal

/-- What the PMM has handed out to others than the caches `as`. -/
def restOf (w : World) (S : ℕ → Slabs) (as : List ℕ) : List PMM.Block :=
  as.flatMap (fun a => slabBlocks (S a)) ++ (w.held.filterMap Allocation.block ++ w.others)

/-- What the PMM has handed out. -/
def blocks (w : World) (S : ℕ → Slabs) : List PMM.Block := w.restOf S w.heap.caches

end World

/-- **A block that is pages of the PMM**, behind a page that says how many there are. -/
structure PageBacked (m : Mem) (b : Allocation) (n : ℕ) : Prop where
  ptr_eq : b.ptr = slabAddr b.frame + pageSize
  magic_eq : m.load 4 (slabAddr b.frame) = bypassMagic
  pages_eq : m.load 8 (slabAddr b.frame + 4) = n
  size_le : b.size + pageSize ≤ n * pageSize

/-- **The invariant of the heap**: `S a` are the slabs of cache `a`, and `F₀` is what there is to hand
out. -/
structure World.Inv (g : Geometry) (F₀ : Set ℕ) (w : World) (S : ℕ → Slabs) : Prop where
  pmm : PMM.World.Inv g ⟨w.heap.pmm, w.blocks S, w.marked⟩
  conserved : PMM.World.Conserved F₀ ⟨w.heap.pmm, w.blocks S, w.marked⟩
  cache : ∀ a ∈ w.heap.caches, CacheInv w.heap.pmm.mem a (w.heap.cacheAt a) (S a)
  objects : ∀ a ∈ w.heap.caches, (S a).objects.Perm (w.held.filterMap (Allocation.objectOf a))
  object : ∀ b ∈ w.held, ∀ a, b.origin = .object a →
    a ∈ w.heap.caches ∧ b.size ≤ (w.heap.cacheAt a).objSize
  pages : ∀ b ∈ w.held, ∀ n, b.origin = .pages n → PageBacked w.heap.pmm.mem b n
  size_pos : ∀ b ∈ w.held, 0 < b.size
  objSize : ∀ pool ∈ w.heap.pools, ∀ i < numKmallocCaches,
    (w.heap.cacheAt (cacheAddr pool i)).objSize = minKmemCacheSize * 2 ^ i
  apart : w.heap.pools.Pairwise fun p p' => p + 256 ≤ p' ∨ p' + 256 ≤ p
  pool_mem : ∀ pool ∈ w.heap.pools, 0 < pool ∧ pool + 256 ≤ 2 ^ 64
  bsp : ∀ q ∈ F₀, slabAddr q + 4096 ≤ w.heap.bspPool ∨ w.heap.bspPool + 256 ≤ slabAddr q
  ap : w.internal.map Allocation.ptr = w.heap.apPools
  ap_size : ∀ b ∈ w.internal, 256 ≤ b.size

variable {g : Geometry} {F₀ : Set ℕ} {w : World} {S : ℕ → Slabs} {S' : Slabs} {c' : KmemCache}
  {s' : PMM} {m m' : Mem} {h : Heap} {b b' : Allocation} {B : PMM.Block} {live : List Allocation}
  {a r i j n q p x y pool : ℕ}

/-! ## Caches -/

theorem mem_caches : a ∈ h.caches ↔ ∃ pool ∈ h.pools, ∃ i < numKmallocCaches, cacheAddr pool i = a := by
  simp [caches, List.mem_flatMap]

/-- The addresses of the caches of pools that do not overlap are different. -/
theorem nodup_caches (hapart : h.pools.Pairwise fun p p' => p + 256 ≤ p' ∨ p' + 256 ≤ p) :
    h.caches.Nodup := by
  refine List.nodup_flatMap.mpr ⟨fun pool _ => ?_, ?_⟩
  · refine (List.nodup_range).map fun i j hij => ?_
    rw [cacheAddr, cacheAddr, kmemCacheBytes] at hij
    omega
  · refine hapart.imp fun {p p'} hpp => List.disjoint_left.mpr fun x hx hx' => ?_
    obtain ⟨i, hi, rfl⟩ := List.mem_map.mp hx
    obtain ⟨j, hj, heq⟩ := List.mem_map.mp hx'
    rw [List.mem_range, numKmallocCaches] at hi hj
    rw [cacheAddr, cacheAddr, kmemCacheBytes] at heq
    omega

/-- **`get_kmalloc_cache` gives a cache of a pool whose objects are large enough**, or none. -/
theorem getKmallocCache_cases (h : Heap) (coreId size : ℕ) : h.getKmallocCache coreId size = 0 ∨
    ∃ pool ∈ h.pools, ∃ i < numKmallocCaches, h.getKmallocCache coreId size = cacheAddr pool i ∧
      size ≤ minKmemCacheSize * 2 ^ i := by
  rw [getKmallocCache]
  have hpool : ∀ pool, (if coreId > 0 then h.apPools[coreId - 1]? else some h.bspPool) = some pool →
      pool ∈ h.pools := by
    intro pool hp
    split at hp
    · exact List.mem_cons_of_mem _ (List.mem_of_getElem? hp)
    · obtain rfl := Option.some.inj hp
      exact List.mem_cons_self
  cases hp : (if coreId > 0 then h.apPools[coreId - 1]? else some h.bspPool) with
  | none => exact Or.inl rfl
  | some pool =>
    dsimp only
    by_cases hsmall : size ≤ minKmemCacheSize
    · rw [if_pos hsmall]
      exact Or.inr ⟨pool, hpool pool hp, 0, by decide, rfl, by simpa using hsmall⟩
    · rw [if_neg hsmall]
      split
      · rename_i hindex
        obtain ⟨hnonneg, hlt⟩ := hindex
        have hne : size - 1 ≠ 0 := by
          rw [minKmemCacheSize] at hsmall
          omega
        have hlog : (64 - clz64 (size - 1) - 4 : ℤ).toNat + 4 = Nat.log2 (size - 1) + 1 ∨
            63 < Nat.log2 (size - 1) := by
          rw [clz64] at hnonneg ⊢
          omega
        refine Or.inr ⟨pool, hpool pool hp, _, by exact_mod_cast (Int.toNat_lt hnonneg).mpr hlt, rfl, ?_⟩
        have hpow : size - 1 < 2 ^ (Nat.log2 (size - 1) + 1) := Nat.lt_log2_self
        rcases hlog with hlog | hlog
        · rw [← hlog, pow_add] at hpow
          rw [minKmemCacheSize]
          omega
        · rw [clz64, numKmallocCaches] at hlt
          omega
      · exact Or.inl rfl

theorem mem_slabBlocks : B ∈ slabBlocks S' ↔ ∃ q ∈ S'.part ++ S'.full, frameBlock q = B := by
  rw [slabBlocks, List.mem_map]

theorem heldBytes_slabBlocks (S' : Slabs) : heldBytes (slabBlocks S') = frameBytes S'.frames :=
  heldBytes_frameBlocks

namespace World.Inv

theorem nodup (h : w.Inv g F₀ S) : w.heap.caches.Nodup := nodup_caches h.apart

theorem fits (h : w.Inv g F₀ S) (ha : a ∈ w.heap.caches) : Fits (w.heap.cacheAt a).objSize := by
  obtain ⟨pool, hpool, i, hi, rfl⟩ := mem_caches.mp ha
  rw [h.objSize pool hpool i hi]
  exact fits_of_lt hi

theorem addr_lt (h : w.Inv g F₀ S) (ha : a ∈ w.heap.caches) : a < 2 ^ 64 ∧ a ≠ 0 := by
  obtain ⟨pool, hpool, i, hi, rfl⟩ := mem_caches.mp ha
  obtain ⟨hpos, hlt⟩ := h.pool_mem pool hpool
  rw [numKmallocCaches] at hi
  rw [cacheAddr, kmemCacheBytes]
  omega

/-- **One cache and the rest.** -/
theorem blocks_perm (ha : a ∈ w.heap.caches) (S : ℕ → Slabs) :
    (w.blocks S).Perm (slabBlocks (S a) ++ w.restOf S (w.heap.caches.erase a)) := by
  have hperm := (List.perm_cons_erase ha).flatMap_right fun a => slabBlocks (S a)
  rw [List.flatMap_cons] at hperm
  have happ := hperm.append_right (w.held.filterMap Allocation.block ++ w.others)
  rwa [List.append_assoc] at happ

/-- **What the PMM lends a cache**, the rest of the heap being held by others. -/
theorem lends (h : w.Inv g F₀ S) (ha : a ∈ w.heap.caches) :
    Lends g F₀ w.marked (w.restOf S (w.heap.caches.erase a)) w.heap.pmm.mem w.heap.pmm (S a).frames :=
  ⟨⟨(S a).part ++ (S a).full, (h.cache a ha).nodup, rfl, h.pmm.perm (blocks_perm ha S) _,
    h.conserved.perm (blocks_perm ha S)⟩, Mem.AgreeOn.refl _ _⟩

/-- The bytes of the rest and of a cache's slabs are different. -/
theorem apart_rest (h : w.Inv g F₀ S) (ha : a ∈ w.heap.caches) :
    Disjoint (frameBytes (S a).frames) (heldBytes (w.restOf S (w.heap.caches.erase a))) := by
  rw [← heldBytes_slabBlocks]
  exact (h.pmm.perm (blocks_perm ha S) w.marked).apart_bytes

/-- The slabs of another cache are part of the rest. -/
theorem slabs_sub_rest (hr : r ∈ w.heap.caches) (hra : r ≠ a) (S : ℕ → Slabs) :
    frameBytes (S r).frames ⊆ heldBytes (w.restOf S (w.heap.caches.erase a)) := by
  rw [← heldBytes_slabBlocks]
  refine heldBytes_mono fun B hB => List.mem_append_left _ ?_
  exact List.mem_flatMap.mpr ⟨r, (List.mem_erase_of_ne hra).mpr hr, hB⟩

/-- So are the pages of a block that is pages. -/
theorem block_sub_rest (hb : b ∈ w.held) (hB : b.block = some B) (S : ℕ → Slabs) (as : List ℕ) :
    heldBytes [B] ⊆ heldBytes (w.restOf S as) :=
  heldBytes_mono fun B' hB' => by
    obtain rfl := List.mem_singleton.mp hB'
    exact List.mem_append_right _ (List.mem_append_left _ (List.mem_filterMap.mpr ⟨b, hb, hB⟩))

theorem others_sub_rest (S : ℕ → Slabs) (as : List ℕ) :
    heldBytes w.others ⊆ heldBytes (w.restOf S as) :=
  heldBytes_mono fun _ hB => List.mem_append_right _ (List.mem_append_right _ hB)

/-! ## Where a block is -/

/-- An object is a slot of a slab of its cache, and live there. -/
theorem slot (h : w.Inv g F₀ S) (hb : b ∈ w.held) (ho : b.origin = .object a) :
    a ∈ w.heap.caches ∧ b.ptr ∈ (S a).objects ∧ b.size ≤ (w.heap.cacheAt a).objSize ∧
      ∃ q ∈ (S a).part ++ (S a).full, b.ptr ∈ slots (slabAddr q) (w.heap.cacheAt a).objSize := by
  obtain ⟨ha, hsize⟩ := h.object b hb a ho
  have hx : b.ptr ∈ (S a).objects := (h.objects a ha).symm.subset
    (List.mem_filterMap.mpr ⟨b, hb, if_pos ho⟩)
  obtain ⟨q, hq, hslot, -⟩ := (h.cache a ha).object (h.fits ha) hx
  exact ⟨ha, hx, hsize, q, hq, hslot⟩

/-- The bytes of an object are in a slab of its cache, behind the header. -/
theorem object_bytes (h : w.Inv g F₀ S) (hb : b ∈ w.held) (ho : b.origin = .object a)
    (hy : y ∈ b.bytes) :
    ∃ q ∈ (S a).part ++ (S a).full, slabAddr q + 48 ≤ y ∧ y < slabAddr q + 4096 := by
  obtain ⟨ha, -, hsize, q, hq, hslot⟩ := h.slot hb ho
  obtain ⟨hlow, hhigh⟩ := mem_slots_bounds (h.fits ha) hslot
  rw [Allocation.bytes, Set.mem_Ico] at hy
  exact ⟨q, hq, by omega, by omega⟩

/-- **The pages of a block that is pages**: it is behind the first of them, and they hold it. -/
theorem pages_spec (h : w.Inv g F₀ S) (hb : b ∈ w.held) (ho : b.origin = .pages n) :
    2 ≤ n ∧ b.block = some ⟨b.frame * pageSize, n⟩ ∧
      PMM.Held g w.heap.pmm.freeFrames ⟨b.frame * pageSize, n⟩ ∧
      slabAddr b.frame + n * pageSize ≤ 2 ^ 64 ∧
      ∀ x, slabAddr b.frame ≤ x → x < slabAddr b.frame + n * pageSize →
        x ∈ heldBytes [⟨b.frame * pageSize, n⟩] := by
  have hblock : b.block = some ⟨b.frame * pageSize, n⟩ := by
    rw [Allocation.block, ho]
  have hpb := h.pages b hb n ho
  have hpos := h.size_pos b hb
  have hsize := hpb.size_le
  have hn : n < 2 ^ 64 := by
    rw [← hpb.pages_eq]
    exact (Mem.load_lt _ 8 _).trans_eq (by norm_num)
  have hmem : (⟨b.frame * pageSize, n⟩ : PMM.Block) ∈ w.blocks S :=
    List.mem_append_right _ (List.mem_append_left _ (List.mem_filterMap.mpr ⟨b, hb, hblock⟩))
  have hheld := h.pmm.held _ hmem
  have hpages := PMM.pages_eq b.frame n
  have hle : n ≤ 2 ^ pagesToOrder n := (pagesToOrder_le_iff hn).mp le_rfl
  have hlast : b.frame + (2 ^ pagesToOrder n - 1) < 2 ^ 35 := by
    have hpow := Nat.two_pow_pos (pagesToOrder n)
    refine (hheld.frames _ ?_).lt
    rw [hpages, BuddyBlocks.block, Set.mem_Ico]
    omega
  rw [pageSize] at hsize ⊢
  refine ⟨by omega, by rw [hblock, pageSize], hheld, ?_, fun x hx hx' => ?_⟩
  · rw [slabAddr, hhdmBase, pageSize]
    omega
  · rw [slabAddr, pageSize] at hx hx'
    refine ⟨_, List.mem_singleton.mpr rfl, (x - hhdmBase) / 4096, ?_, ?_⟩
    · change _ ∈ (Block.mk (b.frame * pageSize) n).pages
      rw [hpages, BuddyBlocks.block, Set.mem_Ico]
      omega
    · rw [pageBytes, Set.mem_Ico]
      omega

theorem pages_bytes (h : w.Inv g F₀ S) (hb : b ∈ w.held) (ho : b.origin = .pages n)
    (hy : y ∈ b.bytes) : slabAddr b.frame + pageSize ≤ y ∧ y < slabAddr b.frame + n * pageSize := by
  have hpb := h.pages b hb n ho
  have hptr := hpb.ptr_eq
  have hsize := hpb.size_le
  rw [Allocation.bytes, Set.mem_Ico] at hy
  omega

/-- **Every byte of a block is in what the PMM has handed out.** -/
theorem bytes_held (h : w.Inv g F₀ S) (hb : b ∈ w.held) : b.bytes ⊆ heldBytes (w.blocks S) := by
  intro y hy
  cases ho : b.origin with
  | object a =>
    obtain ⟨q, hq, hlow, hhigh⟩ := h.object_bytes hb ho hy
    obtain ⟨ha, -⟩ := h.object b hb a ho
    have hin : y ∈ frameBytes (S a).frames := ⟨q, hq, by omega, hhigh⟩
    rw [← heldBytes_slabBlocks] at hin
    exact heldBytes_mono (fun B hB => (blocks_perm ha S).symm.subset (List.mem_append_left _ hB)) hin
  | pages n =>
    obtain ⟨-, hblock, -, -, hmem⟩ := h.pages_spec hb ho
    obtain ⟨hlow, hhigh⟩ := h.pages_bytes hb ho hy
    exact block_sub_rest hb hblock S _ (hmem y (by omega) hhigh)

/-- A block of another origin is part of the rest. -/
theorem bytes_rest (h : w.Inv g F₀ S) (hb : b ∈ w.held) (ho : b.origin ≠ .object a) :
    b.bytes ⊆ heldBytes (w.restOf S (w.heap.caches.erase a)) := by
  intro y hy
  cases ho' : b.origin with
  | object r =>
    obtain ⟨q, hq, hlow, hhigh⟩ := h.object_bytes hb ho' hy
    obtain ⟨hr, -⟩ := h.object b hb r ho'
    exact slabs_sub_rest hr (fun hra => ho (by rw [ho', hra])) S ⟨q, hq, by omega, hhigh⟩
  | pages n =>
    obtain ⟨-, hblock, -, -, hmem⟩ := h.pages_spec hb ho'
    obtain ⟨hlow, hhigh⟩ := h.pages_bytes hb ho' hy
    exact block_sub_rest hb hblock S _ (hmem y (by omega) hhigh)

/-- The metadata of a block that is pages is part of the rest too. -/
theorem meta_rest (h : w.Inv g F₀ S) (hb : b ∈ w.held) (ho : b.origin = .pages n) (as : List ℕ)
    (hy : slabAddr b.frame ≤ y) (hy' : y < slabAddr b.frame + pageSize) :
    y ∈ heldBytes (w.restOf S as) := by
  obtain ⟨hn, hblock, -, -, hmem⟩ := h.pages_spec hb ho
  refine block_sub_rest hb hblock S _ (hmem y hy (hy'.trans_le ?_))
  exact Nat.add_le_add_left (Nat.le_mul_of_pos_left _ (by omega)) _

end World.Inv

/-- A block that is pages reads twelve bytes of its first page. -/
theorem PageBacked.congr (h : PageBacked m b n)
    (hm : ∀ x, slabAddr b.frame ≤ x → x < slabAddr b.frame + pageSize → m' x = m x) :
    PageBacked m' b n := by
  have hmagic : m'.load 4 (slabAddr b.frame) = m.load 4 (slabAddr b.frame) :=
    Mem.load_congr fun i hi => hm _ (by omega) (by rw [pageSize]; omega)
  have hpages : m'.load 8 (slabAddr b.frame + 4) = m.load 8 (slabAddr b.frame + 4) :=
    Mem.load_congr fun i hi => hm _ (by omega) (by rw [pageSize]; omega)
  exact ⟨h.ptr_eq, hmagic.trans h.magic_eq, hpages.trans h.pages_eq, h.size_le⟩

/-! ## A call of one cache -/

/-- The world after a call of a cache. -/
def World.setCache (w : World) (a : ℕ) (c' : KmemCache) (s' : PMM) (live : List Allocation) : World :=
  { w with
    heap := { w.heap with pmm := s', cacheAt := Function.update w.heap.cacheAt a c' }
    live := live }

/-- A change of the blocks that only the cache `a` has to know of. -/
structure ObjectsOf (w : World) (a : ℕ) (live : List Allocation) : Prop where
  other : ∀ r, r ≠ a → ((live ++ w.internal).filterMap (Allocation.objectOf r)).Perm
    (w.held.filterMap (Allocation.objectOf r))
  blocks : ((live ++ w.internal).filterMap Allocation.block).Perm (w.held.filterMap Allocation.block)
  mem : ∀ b ∈ live, b ∈ w.live ∨
    b.origin = .object a ∧ 0 < b.size ∧ b.size ≤ (w.heap.cacheAt a).objSize

/-- **A call of a cache keeps the invariant of the heap**: the others' bytes stay, and what the cache
holds is again one block for each frame. -/
theorem World.Inv.setCache (h : w.Inv g F₀ S) (ha : a ∈ w.heap.caches)
    (hobj : c'.objSize = (w.heap.cacheAt a).objSize)
    (hlends : Lends g F₀ w.marked (w.restOf S (w.heap.caches.erase a)) w.heap.pmm.mem s' S'.frames)
    (hcache : CacheInv s'.mem a c' S') (hlive : ObjectsOf w a live)
    (hobjects : S'.objects.Perm ((live ++ w.internal).filterMap (Allocation.objectOf a))) :
    (w.setCache a c' s' live).Inv g F₀ (Function.update S a S') := by
  obtain ⟨⟨l, hnd, hl, hpmm, hcons⟩, hrest⟩ := hlends
  have hnotin : a ∉ w.heap.caches.erase a := h.nodup.not_mem_erase
  have hold : ∀ r ∈ w.heap.caches.erase a, Function.update S a S' r = S r := fun r hr =>
    Function.update_of_ne (by rintro rfl; exact hnotin hr) ..
  have hblocks : (l.map frameBlock ++ w.restOf S (w.heap.caches.erase a)).Perm
      ((w.setCache a c' s' live).blocks (Function.update S a S')) := by
    have hslabs : (l.map frameBlock).Perm (slabBlocks S') :=
      ((List.perm_ext_iff_of_nodup hnd hcache.nodup).mpr fun q => Set.ext_iff.mp hl q).map _
    have hsplit := World.Inv.blocks_perm (w := w.setCache a c' s' live) ha (Function.update S a S')
    rw [Function.update_self] at hsplit
    refine (hslabs.append ?_).trans hsplit.symm
    rw [World.restOf, World.restOf]
    refine List.Perm.append (List.Perm.of_eq ?_) (hlive.blocks.symm.append_right _)
    exact List.flatMap_congr fun r hr => by rw [hold r hr]
  have hmem : ∀ b ∈ live ++ w.internal, b ∈ w.held ∨
      b.origin = .object a ∧ 0 < b.size ∧ b.size ≤ (w.heap.cacheAt a).objSize := fun b hb =>
    (List.mem_append.mp hb).elim (fun hb => (hlive.mem b hb).imp_left (List.mem_append_left _))
      fun hb => Or.inl (List.mem_append_right _ hb)
  have hsize : ∀ r, (Function.update w.heap.cacheAt a c' r).objSize = (w.heap.cacheAt r).objSize := by
    intro r
    by_cases hra : r = a
    · rw [hra, Function.update_self, hobj]
    · rw [Function.update_of_ne hra]
  refine ⟨hpmm.perm hblocks _, hcons.perm hblocks, fun r hr => ?_, fun r hr => ?_, fun b hb r ho => ?_,
    fun b hb n ho => ?_, fun b hb => ?_, fun pool hpool i hi => ?_, h.apart, h.pool_mem, h.bsp, h.ap,
    h.ap_size⟩
  · by_cases hra : r = a
    · subst hra
      simp only [World.setCache, Function.update_self]
      exact hcache
    · simp only [World.setCache, Function.update_of_ne hra]
      have hsub : frameBytes (S r).frames ⊆ heldBytes (w.restOf S (w.heap.caches.erase a)) :=
        World.Inv.slabs_sub_rest (w := w) hr hra S
      exact (h.cache r hr).congr (h.fits hr) (hrest.mono hsub)
  · by_cases hra : r = a
    · rw [hra, Function.update_self]
      exact hobjects
    · rw [Function.update_of_ne hra]
      exact (h.objects r hr).trans (hlive.other r hra).symm
  · rcases hmem b hb with hb | ⟨ho', -, hle⟩
    · obtain ⟨hr, hle⟩ := h.object b hb r ho
      exact ⟨hr, hle.trans_eq (hsize r).symm⟩
    · obtain rfl : r = a := Origin.object.inj (ho.symm.trans ho')
      exact ⟨ha, hle.trans_eq (hsize r).symm⟩
  · rcases hmem b hb with hb | ⟨ho', -⟩
    · exact (h.pages b hb n ho).congr fun x hx hx' => hrest x (h.meta_rest hb ho _ hx hx')
    · exact absurd (ho.symm.trans ho') Origin.noConfusion
  · rcases hmem b hb with hb | ⟨-, hpos, -⟩
    · exact h.size_pos b hb
    · exact hpos
  · exact (hsize _).trans (h.objSize pool hpool i hi)

/-! ## A call of the PMM -/

/-- The world after a call of the PMM. -/
def World.setPmm (w : World) (s' : PMM) (live : List Allocation) (others : List PMM.Block)
    (marked : Set ℕ) : World :=
  { w with heap := { w.heap with pmm := s' }, live := live, others := others, marked := marked }

/-- A change of the blocks that no cache has to know of. -/
structure PagesOf (w : World) (m : Mem) (live : List Allocation) : Prop where
  objects : ∀ a, ((live ++ w.internal).filterMap (Allocation.objectOf a)).Perm
    (w.held.filterMap (Allocation.objectOf a))
  mem : ∀ b ∈ live, b ∈ w.live ∨ (∃ n, b.origin = .pages n) ∧ 0 < b.size
  pages : ∀ b ∈ live ++ w.internal, ∀ n, b.origin = .pages n → PageBacked m b n

/-- **A call of the PMM keeps the invariant of the heap** if the caches and the metadata stay. -/
theorem World.Inv.setPmm {others : List PMM.Block} {marked : Set ℕ} (h : w.Inv g F₀ S)
    (hpmm : PMM.World.Inv g ⟨s', (w.setPmm s' live others marked).blocks S, marked⟩)
    (hcons : PMM.World.Conserved F₀ ⟨s', (w.setPmm s' live others marked).blocks S, marked⟩)
    (hcache : ∀ a ∈ w.heap.caches, CacheInv s'.mem a (w.heap.cacheAt a) (S a))
    (hlive : PagesOf w s'.mem live) : (w.setPmm s' live others marked).Inv g F₀ S := by
  refine ⟨hpmm, hcons, hcache, fun a ha => (h.objects a ha).trans (hlive.objects a).symm,
    fun b hb a ho => ?_, hlive.pages, fun b hb => ?_, h.objSize, h.apart, h.pool_mem, h.bsp, h.ap,
    h.ap_size⟩
  · rcases List.mem_append.mp hb with hb | hb
    · rcases hlive.mem b hb with hb | ⟨⟨n, ho'⟩, -⟩
      · exact h.object b (List.mem_append_left _ hb) a ho
      · exact absurd (ho.symm.trans ho') Origin.noConfusion
    · exact h.object b (List.mem_append_right _ hb) a ho
  · rcases List.mem_append.mp hb with hb | hb
    · rcases hlive.mem b hb with hb | ⟨-, hpos⟩
      · exact h.size_pos b (List.mem_append_left _ hb)
      · exact hpos
    · exact h.size_pos b (List.mem_append_right _ hb)

end Heap

end MioOS
