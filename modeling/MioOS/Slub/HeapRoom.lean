import MioOS.Slub.HeapSafety

/-!
# Slub/HeapRoom — is a block as large as was asked for?

`kmalloc` rounds the size up to pages with `size + PAGE_SIZE - 1`, which wraps for the last sizes: the
call then asks the PMM for one page, and returns the address behind it.

* `Run.hasRoom_iff` — in every run, a block has the bytes asked for, and alone, if and only if its size
  does not wrap;
* `not_hasRoom` — a block of `2^64 - 1` bytes.
-/

namespace MioOS

open ByteMemory Intrusive SlabHeader KmemCache PMM

namespace Heap

variable {g : Geometry} {F₀ : Set ℕ} {w w' : World} {S : ℕ → Slabs} {mmap : MemoryMap}
  {k : KernelImage} {s₀ : PMM} {p : PMM.World} {h h' : Heap} {b b' : Allocation}
  {s : PMM} {a i n q x y pool phys coreId size : ℕ}

/-! ## Room for a block -/

/-- **The memory of a new block is its own**; `w` is the world before the call and `w'` the one after,
and `S` are the slabs of the caches. -/
structure World.HasRoom (mmap : MemoryMap) (w w' : World) (S : ℕ → Slabs) (b : Allocation) : Prop where
  no_wrap : b.ptr + b.size ≤ 2 ^ 64
  cache : ∀ a ∈ w'.heap.caches, CacheInv w'.heap.pmm.mem a (w'.heap.cacheAt a) (S a)
  /-- An object is one slot of one slab. -/
  slot : ∀ a, b.origin = .object a → a ∈ w'.heap.caches ∧
    ∃ q ∈ (S a).part ++ (S a).full, b.ptr ∈ slots (slabAddr q) (w'.heap.cacheAt a).objSize ∧
      b.size ≤ (w'.heap.cacheAt a).objSize
  /-- Pages are those that `alloc_pages` returned to this call, without the first. -/
  pages : ∀ n, b.origin = .pages n → ∃ i s', w.heap.pmm.allocPages n = some (i * pageSize, s') ∧
    b.ptr = slabAddr i + pageSize ∧ b.ptr + b.size ≤ slabAddr i + n * pageSize
  /-- It overlaps no other block, no header and no metadata. -/
  apart : ∀ b' ∈ w.held, Disjoint b.bytes b'.bytes
  others : Disjoint b.bytes (heldBytes w'.others)
  pmm : Disjoint b.bytes (allocatorBytes mmap w'.heap.pmm)
  header : ∀ a ∈ w'.heap.caches, ∀ q ∈ (S a).part ++ (S a).full,
    Disjoint b.bytes (Set.Ico (slabAddr q) (slabAddr q + slabHeaderSize))
  metadata : ∀ b' ∈ w'.held, ∀ n, b'.origin = .pages n →
    Disjoint b.bytes (Set.Ico (slabAddr b'.frame) (slabAddr b'.frame + pageSize))

/-! ## A call that asks for pages -/

/-- Only small sizes are served by a cache. -/
theorem originOf_of_large (hsize : 2048 < size) (h : Heap) (coreId : ℕ) :
    h.originOf coreId size = .pages (u64 (u64 (size + pageSize - 1) / pageSize + 1)) := by
  refine if_neg (not_not.mpr ?_)
  obtain hnone | ⟨pool, -, i, hi, -, hle⟩ := getKmallocCache_cases h coreId size
  · exact hnone
  · rw [numKmallocCaches] at hi
    rw [minKmemCacheSize] at hle
    have hpow : 2 ^ i ≤ 2 ^ 7 := Nat.pow_le_pow_right (by decide) (by omega)
    omega

/-- **What `kmalloc` does with the pages it is given.** -/
theorem kmalloc_pages (hpos : 0 < size) (ho : h.originOf coreId size = .pages n)
    (hal : h.pmm.allocPages n = some (phys, s)) :
    h.kmalloc coreId size = some (if phys = 0 then (0, { h with pmm := s })
      else (u64 (u64 (phys + hhdmBase) + pageSize),
        { h with pmm := { s with mem := writeMeta s.mem (u64 (phys + hhdmBase)) n } })) := by
  have hcache : h.getKmallocCache coreId size = 0 := by
    by_contra hne
    rw [originOf, if_pos hne] at ho
    exact Origin.noConfusion ho
  have hn : u64 (u64 (size + pageSize - 1) / pageSize + 1) = n := by
    rw [originOf, if_neg (not_not.mpr hcache)] at ho
    exact Origin.pages.inj ho
  rw [Heap.kmalloc, if_neg hpos.ne', if_neg (not_not.mpr hcache), hn]
  exact congrArg (Option.map _) hal

/-- The block is behind the first of them. -/
theorem World.Inv.kmalloc_ptr (hinv : w.Inv g F₀ S) (hpos : 0 < size)
    (ho : w.heap.originOf coreId size = .pages n) (hx : x ≠ 0)
    (heq : w.heap.kmalloc coreId size = some (x, h')) :
    ∃ i s', w.heap.pmm.allocPages n = some (i * pageSize, s') ∧ x = slabAddr i + pageSize := by
  rcases hinv.pmm.allocPages n with ⟨i, s', hal, hne, -, -, ht⟩ | hal
  · have hi := (hinv.pmm.buddy.frames i (ht.subset (BuddyBlocks.self_mem_block _ i))).lt
    have hend : slabAddr i + pageSize ≤ 2 ^ 64 := slabAddr_lt hi
    rw [kmalloc_pages hpos ho hal, if_neg hne, virtAddr_eq hi] at heq
    obtain rfl := (Prod.mk.inj (Option.some.inj heq)).1
    rcases hend.lt_or_eq with hlt | hend
    · exact ⟨i, s', hal, u64_of_lt hlt⟩
    · rw [hend] at hx
      exact absurd ((u64_eq _).trans (Nat.mod_self _)) hx
  · rw [kmalloc_pages hpos ho hal, if_pos rfl] at heq
    exact absurd (Prod.mk.inj (Option.some.inj heq)).1.symm hx

/-- **A size that wraps**: the block ends behind the address space. -/
theorem World.Inv.kmalloc_wraps (hinv : w.Inv g F₀ S) (hsize : 2 ^ 64 < size + pageSize)
    (hx : x ≠ 0) (heq : w.heap.kmalloc coreId size = some (x, h')) : 2 ^ 64 < x + size := by
  have ho := originOf_of_large (show 2048 < size by rw [pageSize] at hsize; omega) w.heap coreId
  obtain ⟨i, -, -, rfl⟩ := hinv.kmalloc_ptr (by rw [pageSize] at hsize; omega) ho hx heq
  omega

/-- **A size that does not wrap.** -/
theorem World.Inv.hasRoom (hinv : w.Inv g F₀ S) (hmap : g.maxPfn = maxPfnOf mmap)
    (hsize : size + pageSize ≤ 2 ^ 64) (hx : x ≠ 0)
    (heq : w.heap.kmalloc coreId size = some (x, h')) :
    ∃ S', World.HasRoom mmap w (w.took h' coreId size x) S'
      ⟨x, size, w.heap.originOf coreId size⟩ := by
  obtain ⟨x₁, h₁, S', heq₁, hinv', -⟩ := hinv.kmalloc hsize coreId
  obtain ⟨rfl, rfl⟩ := Prod.mk.inj (Option.some.inj (heq.symm.trans heq₁))
  have hlive : (w.took h' coreId size x).live = ⟨x, size, w.heap.originOf coreId size⟩ :: w.live :=
    if_neg hx
  have hheld : (w.took h' coreId size x).held
      = ⟨x, size, w.heap.originOf coreId size⟩ :: w.held := by
    rw [World.held, hlive]
    rfl
  generalize hb : Allocation.mk x size (w.heap.originOf coreId size) = b at hheld
  have hptr : b.ptr = x ∧ b.size = size ∧ b.origin = w.heap.originOf coreId size := by
    rw [← hb]
    exact ⟨rfl, rfl, rfl⟩
  generalize w.took h' coreId size x = w' at hinv' hheld
  have hmem : b ∈ w'.held := hheld ▸ List.mem_cons_self
  have hsound := hinv'.sound hmap
  refine ⟨S', (hsound.aligned b hmem).2, fun a ha => (hsound.cache a ha).1, fun a ho => ?_,
    fun n ho => ?_, ?_, hsound.others b hmem, hsound.pmm b hmem, hsound.header b hmem,
    hsound.metadata b hmem⟩
  · obtain ⟨ha, -, hle, q, hq, hslot⟩ := hinv'.slot hmem ho
    exact ⟨ha, q, hq, hslot, hle⟩
  · have hpos := hinv'.size_pos b hmem
    have hroom := (hinv'.pages b hmem n ho).size_le
    rw [hptr.2.1] at hpos hroom
    rw [hptr.2.2] at ho
    obtain ⟨i, s', hal, hxi⟩ := hinv.kmalloc_ptr hpos ho hx heq
    refine ⟨i, s', hal, hptr.1.trans hxi, ?_⟩
    rw [hptr.1, hptr.2.1, hxi]
    omega
  · have hapart := hsound.apart
    rw [hheld] at hapart
    exact (List.pairwise_cons.mp hapart).1

/-- **In every run, a new block has the bytes asked for if and only if its size does not wrap.** -/
theorem Run.hasRoom_iff (hwf : mmap.WellFormed) (hboot : Boots k mmap s₀)
    (hreach : Reaches mmap (PMM.World.start s₀) p) (hpos : 0 < pool) (hlt : pool + 256 ≤ 2 ^ 64)
    (hapart : ∀ q ∈ s₀.freeFrames, slabAddr q + 4096 ≤ pool ∨ pool + 256 ≤ slabAddr q)
    (hrun : Run (World.start pool p) w) (heq : w.heap.kmalloc coreId size = some (x, h')) (hx : x ≠ 0) :
    (∃ S, World.HasRoom mmap w (w.took h' coreId size x) S ⟨x, size, w.heap.originOf coreId size⟩) ↔
      size + pageSize ≤ 2 ^ 64 := by
  obtain ⟨g, hmap, hinv₀, hcons₀, -⟩ := hboot.start hwf
  have hstart := start_inv (hreach.inv hmap hinv₀) (hreach.conserved hmap hinv₀ hcons₀) hpos hlt hapart
  obtain ⟨S, hinv⟩ := hrun.inv hstart hmap
  constructor
  · rintro ⟨S', hroom⟩
    by_contra hsize
    exact absurd hroom.no_wrap (not_le.mpr (hinv.kmalloc_wraps (not_le.mp hsize) hx heq))
  · exact fun hsize => hinv.hasRoom hmap hsize hx heq

/-! ## A small machine -/

/-- A block of 5000 bytes. -/
theorem hasRoom_lowAndHigh : ∃ s₀ x h' S, Boots imageAt1M lowAndHigh s₀ ∧
    (World.onLowAndHigh s₀).heap.kmalloc 0 5000 = some (x, h') ∧ x ≠ 0 ∧
    World.HasRoom lowAndHigh (World.onLowAndHigh s₀) ((World.onLowAndHigh s₀).took h' 0 5000 x) S
      ⟨x, 5000, .pages 3⟩ := by
  obtain ⟨s₀, g, hboot, -, hinv, hapart, hfree⟩ := onLowAndHigh_inv
  obtain ⟨x, h', -, heq, -, -, hnull⟩ := hinv.kmalloc (show 5000 + pageSize ≤ 2 ^ 64 by decide) 0
  have hx : x ≠ 0 := by
    intro h0
    rcases hnull h0 with hzero | ⟨s', hs'⟩
    · exact absurd hzero (by decide)
    · exact allocPages_5000 hinv hfree s' hs'
  obtain ⟨S, hroom⟩ := (Run.hasRoom_iff lowAndHigh_wellFormed hboot .refl (by decide) (by decide) hapart
    .refl heq hx).mpr (by decide)
  rw [show (World.start 0xFFFFFFFF80200000 (PMM.World.start s₀)).heap.originOf 0 5000 = .pages 3 from
    originOf_5000 s₀] at hroom
  exact ⟨s₀, x, h', S, hboot, heq, hx, hroom⟩

/-- **A block of `2^64 - 1` bytes** is one page, and its address is the one behind it. -/
theorem not_hasRoom : ∃ s₀ x h', Boots imageAt1M lowAndHigh s₀ ∧
    (World.onLowAndHigh s₀).heap.kmalloc 0 (2 ^ 64 - 1) = some (x, h') ∧ x ≠ 0 ∧
    ∀ S, ¬ World.HasRoom lowAndHigh (World.onLowAndHigh s₀)
      ((World.onLowAndHigh s₀).took h' 0 (2 ^ 64 - 1) x) S ⟨x, 2 ^ 64 - 1, .pages 1⟩ := by
  obtain ⟨s₀, g, hboot, -, hinv, -, hfree⟩ := onLowAndHigh_inv
  have ho : (World.onLowAndHigh s₀).heap.originOf 0 (2 ^ 64 - 1) = .pages 1 :=
    (originOf_of_large (by decide) _ 0).trans (congrArg Origin.pages (by decide +kernel))
  obtain ⟨i, hi, s', hal, hne, -⟩ := hinv.pmm.exists_page ⟨1, hfree (by simp)⟩
  have hle := freeFrames_lt lowAndHigh_wellFormed hboot hi
  have hmax : maxPfnOf lowAndHigh < 0x100000 := by decide +kernel
  have hend : slabAddr i + pageSize < 2 ^ 64 := by
    rw [slabAddr, hhdmBase, pageSize]
    omega
  have hx : slabAddr i + pageSize ≠ 0 := by
    rw [pageSize]
    omega
  have heq := kmalloc_pages (by decide : 0 < 2 ^ 64 - 1) ho hal
  rw [if_neg hne, virtAddr_eq (by omega), u64_of_lt hend] at heq
  have hwraps : 2 ^ 64 < 2 ^ 64 - 1 + pageSize := by decide
  refine ⟨s₀, _, _, hboot, heq, hx, fun S hroom => ?_⟩
  exact absurd hroom.no_wrap (not_le.mpr (hinv.kmalloc_wraps hwraps hx heq))

end Heap

end MioOS
