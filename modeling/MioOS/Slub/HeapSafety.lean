import MioOS.Slub.HeapRuns

/-!
# Slub/HeapSafety — what clients of the heap can rely on

`initialize_slub_ap` is a run (`initializeSlubAp_run`), so `Run` covers the start of every core.
`Run.soundOverPmm` collects what holds in every world that a run from `initialize_slub` reaches.
-/

namespace MioOS

open ByteMemory Intrusive SlabHeader KmemCache PMM

namespace Heap

variable {g : Geometry} {F₀ : Set ℕ} {w w' : World} {S : ℕ → Slabs} {mmap : MemoryMap}
  {k : KernelImage} {s₀ : PMM} {p : PMM.World} {h h' : Heap} {b b' : Allocation}
  {a i n q x y pool coreId size : ℕ}

/-! ## The start of a core -/

/-- `kmalloc` touches a cache in use, if any. -/
theorem kmalloc_frame (heq : h.kmalloc coreId size = some (x, h')) :
    h'.pools = h.pools ∧ ∀ a ∉ h.caches, h'.cacheAt a = h.cacheAt a := by
  rw [Heap.kmalloc] at heq
  split_ifs at heq with hzero
  · obtain ⟨-, rfl⟩ := Prod.mk.inj (Option.some.inj heq)
    exact ⟨rfl, fun _ _ => rfl⟩
  · dsimp only at heq
    split_ifs at heq with hcache
    · obtain ⟨⟨object, c, s⟩, -, heq⟩ := Option.map_eq_some_iff.mp heq
      obtain ⟨-, rfl⟩ := Prod.mk.inj heq
      refine ⟨rfl, fun a ha => Function.update_of_ne ?_ ..⟩
      rintro rfl
      obtain hnone | ⟨pool, hpool, i, hi, heq, -⟩ := getKmallocCache_cases h coreId size
      · exact hcache hnone
      · exact ha (mem_caches.mpr ⟨pool, hpool, i, hi, heq.symm⟩)
    · obtain ⟨⟨phys, s⟩, -, heq⟩ := Option.map_eq_some_iff.mp heq
      dsimp only at heq
      split_ifs at heq
      · obtain ⟨-, rfl⟩ := Prod.mk.inj heq
        exact ⟨rfl, fun _ _ => rfl⟩
      · obtain ⟨-, rfl⟩ := Prod.mk.inj heq
        exact ⟨rfl, fun _ _ => rfl⟩

/-- A call of `kmalloc` as a step. -/
theorem kmalloc_step (hsize : size + pageSize ≤ 2 ^ 64)
    (heq : w.heap.kmalloc coreId size = some (x, h')) :
    ∃ w', Step w w' ∧ w'.heap = h' ∧ w.live ⊆ w'.live ∧
      (x ≠ 0 → ∃ b ∈ w'.live, b.ptr = x ∧ b.size = size) := by
  refine ⟨_, .kmalloc hsize heq, rfl, ?_, fun hx => ?_⟩
  · rw [World.took]
    split_ifs
    · exact fun _ hb => hb
    · exact List.subset_cons_self _ _
  · rw [World.took, if_neg hx]
    exact ⟨_, List.mem_cons_self, rfl, rfl⟩

/-- **`initialize_slub_ap` is a run**: the caches of the core are in a block of its own, and they are
in use from the `push_back` on. -/
theorem initializeSlubAp_run (h : w.Inv g F₀ S) (hmap : g.maxPfn = maxPfnOf mmap)
    (heq : w.heap.initializeSlubAp coreId = some h') : ∃ w', Run w w' ∧ w'.heap = h' := by
  obtain ⟨⟨apCaches, h₁⟩, heq₁, heq⟩ := Option.bind_eq_some_iff.mp heq
  obtain ⟨⟨apPool, h₂⟩, heq₂, heq⟩ := Option.bind_eq_some_iff.mp heq
  dsimp only at heq₂ heq
  split_ifs at heq with hnull
  obtain ⟨⟨node, h₃⟩, heq₃, heq⟩ := Option.bind_eq_some_iff.mp heq
  obtain ⟨⟨holder, h₄⟩, heq₄, heq⟩ := Option.bind_eq_some_iff.mp heq
  dsimp only at heq₄ heq
  -- the array and the pool
  obtain ⟨w₁, hstep₁, rfl, -⟩ := kmalloc_step (by decide) heq₁
  obtain ⟨w₂, hstep₂, rfl, -, hpool⟩ := kmalloc_step (by decide) heq₂
  obtain ⟨b, hb, rfl, hsize⟩ := hpool fun h0 => hnull (Or.inr h0)
  -- the caches in the pool
  have hrun₂ : Run w (w₂.withCaches b) :=
    (Relation.ReflTransGen.single hstep₁).tail hstep₂ |>.tail (.construct hb hsize.ge)
  obtain ⟨S₂, hinv₂⟩ := hrun₂.inv h hmap
  have hnew : ∀ i < numKmallocCaches, cacheAddr b.ptr i ∉ (w₂.withCaches b).heap.caches := fun i hi =>
    hinv₂.cacheAddr_notMem hb hsize.ge hi
  obtain ⟨w₃, hstep₃, rfl, hlive₃, -⟩ := kmalloc_step (w := w₂.withCaches b) (by decide) heq₃
  have hrun₃ := hrun₂.tail hstep₃
  -- the entry of the list
  obtain ⟨w₅, hrun₅, hheap₅⟩ : ∃ w₅, Run w w₅ ∧ w₅.heap
      = if node = 0 then w₃.heap else { w₃.heap with apPools := w₃.heap.apPools ++ [b.ptr] } := by
    split_ifs with hnode
    · exact ⟨w₃, hrun₃, rfl⟩
    · have hfresh : Constructed w₃.heap.cacheAt b.ptr := fun i hi => by
        rw [(kmalloc_frame heq₃).2 _ (hnew i hi)]
        exact constructed_constructCaches _ _ i hi
      exact ⟨_, hrun₃.tail (.register (hlive₃ hb) hsize.ge hfresh), rfl⟩
  rw [← hheap₅] at heq₄
  obtain ⟨w₆, hstep₆, rfl, -⟩ := kmalloc_step (by decide) heq₄
  have hrun₆ := hrun₅.tail hstep₆
  split_ifs at heq with hholder
  · exact ⟨w₆, hrun₆, Option.some.inj heq⟩
  · obtain ⟨⟨node', h₇⟩, heq₇, rfl⟩ := Option.map_eq_some_iff.mp heq
    obtain ⟨w₇, hstep₇, rfl, -⟩ := kmalloc_step (by decide) heq₇
    exact ⟨w₇, hrun₆.tail hstep₇, rfl⟩

/-! ## What a run leaves -/

/-- The pages that a block keeps from being free. -/
def Allocation.frames (b : Allocation) : Set ℕ :=
  match b.origin with
  | .object _ => {(b.ptr - hhdmBase) / pageSize}
  | .pages n => BuddyBlocks.block (pagesToOrder n) b.frame

/-- **What clients can rely on**; `F₀` are the frames that were free after boot, and `S a` the slabs of
the cache `a`. -/
structure World.Sound (mmap : MemoryMap) (F₀ : Set ℕ) (w : World) (S : ℕ → Slabs) : Prop where
  /-- Each cache consists of its slabs, and their live objects are the blocks from this cache. -/
  cache : ∀ a ∈ w.heap.caches, CacheInv w.heap.pmm.mem a (w.heap.cacheAt a) (S a) ∧
    (S a).objects.Perm (w.held.filterMap (Allocation.objectOf a))
  /-- Blocks overlap neither each other nor those of other clients of the PMM. -/
  apart : w.held.Pairwise fun b b' => Disjoint b.bytes b'.bytes
  others : ∀ b ∈ w.held, Disjoint b.bytes (heldBytes w.others)
  /-- Nor what the allocators keep for themselves. -/
  pmm : ∀ b ∈ w.held, Disjoint b.bytes (allocatorBytes mmap w.heap.pmm)
  header : ∀ b ∈ w.held, ∀ a ∈ w.heap.caches, ∀ q ∈ (S a).part ++ (S a).full,
    Disjoint b.bytes (Set.Ico (slabAddr q) (slabAddr q + slabHeaderSize))
  metadata : ∀ b ∈ w.held, ∀ b' ∈ w.held, ∀ n, b'.origin = .pages n →
    Disjoint b.bytes (Set.Ico (slabAddr b'.frame) (slabAddr b'.frame + pageSize))
  /-- They are aligned, and in pages that were free. -/
  aligned : ∀ b ∈ w.held, 16 ∣ b.ptr ∧ b.ptr + b.size ≤ 2 ^ 64
  frames : ∀ b ∈ w.held, ∀ y ∈ b.bytes, ∃ q ∈ F₀, y ∈ pageBytes q
  /-- The next call returns, and keeps what is in the blocks; null means that pages are short. -/
  kmalloc : ∀ coreId size, size + pageSize ≤ 2 ^ 64 →
    ∃ x h', w.heap.kmalloc coreId size = some (x, h') ∧ w.Keeps (w.took h' coreId size x) ∧
      (x = 0 → size = 0 ∨
        ∃ s', w.heap.pmm.allocPages (w.heap.originOf coreId size).need = some (0, s'))
  kfree : ∀ b ∈ w.live, b.Unmistaken w.heap →
    ∃ h', w.heap.kfree b.ptr = some h' ∧ w.Keeps (w.gave h' b)
  /-- The start of a core is a run, unless it panics. -/
  initializeSlubAp : ∀ coreId h', w.heap.initializeSlubAp coreId = some h' →
    ∃ w', Run w w' ∧ w'.heap = h'
  /-- A page is taken only if there is something of a client in it. -/
  no_leak : w.heap.pmm.freeFrames = F₀ \ ({q | ∃ b ∈ w.held, q ∈ b.frames} ∪
    PMM.World.livePages ⟨w.heap.pmm, w.others, w.marked⟩ ∪ w.marked)

namespace World.Inv

theorem bytes_header (h : w.Inv g F₀ S) (hb : b ∈ w.held) (ha : a ∈ w.heap.caches)
    (hq : q ∈ (S a).part ++ (S a).full) :
    Disjoint b.bytes (Set.Ico (slabAddr q) (slabAddr q + slabHeaderSize)) := by
  rw [Set.disjoint_left]
  intro y hy hin
  rw [Set.mem_Ico, slabHeaderSize] at hin
  by_cases ho : b.origin = .object a
  · obtain ⟨r, -, hlow, hhigh⟩ := h.object_bytes hb ho hy
    by_cases hqr : q = r
    · subst hqr
      omega
    · have hapart := slabAddr_apart hqr
      omega
  · exact Set.disjoint_left.mp (h.apart_rest ha) ⟨q, hq, hin.1, by omega⟩ (h.bytes_rest hb ho hy)

theorem bytes_metadata (h : w.Inv g F₀ S) (hb : b ∈ w.held) (hb' : b' ∈ w.held)
    (ho' : b'.origin = .pages n) :
    Disjoint b.bytes (Set.Ico (slabAddr b'.frame) (slabAddr b'.frame + pageSize)) := by
  rw [Set.disjoint_left]
  intro y hy hin
  rw [Set.mem_Ico] at hin
  cases ho : b.origin with
  | object a =>
    obtain ⟨ha, -⟩ := h.object b hb a ho
    exact Set.disjoint_left.mp (h.apart_rest ha) (h.bytes_slabs hb ho hy)
      (h.meta_rest hb' ho' _ hin.1 hin.2)
  | pages k =>
    by_cases heq : b = b'
    · subst heq
      have hlow := (h.pages_bytes hb ho hy).1
      omega
    · obtain ⟨hblock, hsub⟩ := h.bytes_block hb ho
      obtain ⟨hn, hblock', -, -, hmem⟩ := h.pages_spec hb' ho'
      have hone := Nat.le_mul_of_pos_left pageSize (show 0 < n by omega)
      exact Set.disjoint_left.mp (h.pages_apart_of_ne hb hb' heq hblock hblock') (hsub hy)
        (hmem y hin.1 (by omega))

theorem ptr_dvd (h : w.Inv g F₀ S) (hb : b ∈ w.held) : 16 ∣ b.ptr := by
  cases ho : b.origin with
  | object a =>
    obtain ⟨ha, -, -, q, -, hslot⟩ := h.slot hb ho
    obtain ⟨pool, hpool, i, hi, rfl⟩ := mem_caches.mp ha
    have hz := h.fits ha
    obtain ⟨j, -, heq⟩ := mem_slots.mp hslot
    have hpow : (w.heap.cacheAt (cacheAddr pool i)).objSize = 2 ^ (4 + i) := by
      rw [h.objSize pool hpool i hi, minKmemCacheSize, pow_add]
      rfl
    have hmin : 16 ∣ min (w.heap.cacheAt (cacheAddr pool i)).objSize 64 := by
      rw [hpow, pow_add]
      rcases min_choice (2 ^ 4 * 2 ^ i) 64 with hmin | hmin <;> rw [hmin]
      · exact Dvd.intro _ rfl
      · decide
    rw [← heq]
    exact hmin.trans ((slot_dvd hz.dvd hz.ge (pageSize_dvd_slabAddr q)).2 _ hpow)
  | pages n =>
    rw [(h.pages b hb n ho).ptr_eq, slabAddr, hhdmBase, pageSize]
    omega

/-- The page of an object is that of its slab. -/
theorem frames_of_slot (h : w.Inv g F₀ S) (ha : a ∈ w.heap.caches) (ho : b.origin = .object a)
    (hslot : b.ptr ∈ slots (slabAddr q) (w.heap.cacheAt a).objSize) : b.frames = {q} := by
  obtain ⟨hlow, hhigh⟩ := mem_slots_bounds (h.fits ha) hslot
  have hge := (h.fits ha).ge
  rw [Allocation.frames, ho]
  dsimp only
  rw [Set.singleton_eq_singleton_iff, pageSize]
  rw [slabAddr, pageSize] at hlow hhigh
  omega

/-- The slabs of a cache are the pages with live objects of it. -/
theorem slab_iff (h : w.Inv g F₀ S) (ha : a ∈ w.heap.caches) :
    q ∈ (S a).part ++ (S a).full ↔ ∃ b ∈ w.held, b.origin = .object a ∧ q ∈ b.frames := by
  constructor
  · intro hq
    have hslab := (h.cache a ha).slab q hq
    obtain ⟨x, hx⟩ := List.exists_mem_of_ne_nil _ ((h.cache a ha).used q hq)
    have hin := (h.objects a ha).subset (Slabs.mem_objects.mpr ⟨q, hq, hx⟩)
    obtain ⟨b, hb, hobj⟩ := List.mem_filterMap.mp hin
    rw [Allocation.objectOf] at hobj
    split_ifs at hobj with ho
    obtain rfl := Option.some.inj hobj
    refine ⟨b, hb, ho, ?_⟩
    rw [h.frames_of_slot ha ho (hslab.mem_live hx)]
    rfl
  · rintro ⟨b, hb, ho, hq⟩
    obtain ⟨-, -, -, r, hr, hslot⟩ := h.slot hb ho
    rw [h.frames_of_slot ha ho hslot] at hq
    rwa [Set.mem_singleton_iff.mp hq]

/-- **A page is taken only if there is something of a client in it.** -/
theorem no_leak (h : w.Inv g F₀ S) : w.heap.pmm.freeFrames = F₀ \ ({q | ∃ b ∈ w.held, q ∈ b.frames} ∪
    PMM.World.livePages ⟨w.heap.pmm, w.others, w.marked⟩ ∪ w.marked) := by
  have hpages : PMM.World.livePages ⟨w.heap.pmm, w.blocks S, w.marked⟩
      = {q | ∃ b ∈ w.held, q ∈ b.frames} ∪
        PMM.World.livePages ⟨w.heap.pmm, w.others, w.marked⟩ := by
    ext q
    constructor
    · rintro ⟨B, hB, hq⟩
      rcases List.mem_append.mp hB with hB | hB
      · obtain ⟨a, ha, hB⟩ := List.mem_flatMap.mp hB
        obtain ⟨r, hr, rfl⟩ := mem_slabBlocks.mp hB
        obtain rfl : q = r := by rwa [pages_frameBlock] at hq
        obtain ⟨b, hb, -, hqb⟩ := (h.slab_iff ha).mp hr
        exact Or.inl ⟨b, hb, hqb⟩
      · rcases List.mem_append.mp hB with hB | hB
        · obtain ⟨b, hb, hblock⟩ := List.mem_filterMap.mp hB
          refine Or.inl ⟨b, hb, ?_⟩
          cases ho : b.origin with
          | object a =>
            rw [Allocation.block, ho] at hblock
            exact absurd hblock (Option.some_ne_none _).symm
          | pages n =>
            rw [Allocation.block, ho] at hblock
            obtain rfl := Option.some.inj hblock
            rw [PMM.pages_eq] at hq
            rw [Allocation.frames, ho]
            exact hq
        · exact Or.inr ⟨B, hB, hq⟩
    · rintro (⟨b, hb, hq⟩ | ⟨B, hB, hq⟩)
      · cases ho : b.origin with
        | object a =>
          obtain ⟨ha, -⟩ := h.object b hb a ho
          refine ⟨frameBlock q, List.mem_append_left _ (List.mem_flatMap.mpr ⟨a, ha, ?_⟩), ?_⟩
          · exact mem_slabBlocks.mpr ⟨q, (h.slab_iff ha).mpr ⟨b, hb, ho, hq⟩, rfl⟩
          · rw [pages_frameBlock]
            rfl
        | pages n =>
          obtain ⟨hblock, -⟩ := h.bytes_block hb ho
          refine ⟨_, List.mem_append_right _ (List.mem_append_left _
            (List.mem_filterMap.mpr ⟨b, hb, hblock⟩)), ?_⟩
          rw [Allocation.frames, ho] at hq
          rwa [PMM.pages_eq]
      · exact ⟨B, List.mem_append_right _ (List.mem_append_right _ hB), hq⟩
  rw [← hpages]
  exact h.conserved.freeFrames_eq fun b hb => (h.pmm.held b hb).disjoint

theorem sound (h : w.Inv g F₀ S) (hmap : g.maxPfn = maxPfnOf mmap) : w.Sound mmap F₀ S where
  cache a ha := ⟨h.cache a ha, h.objects a ha⟩
  apart := h.bytes_apart
  others _ hb := h.bytes_others hb
  pmm b hb := by
    obtain ⟨L, B, hrepr, -⟩ := h.pmm.buddy.repr
    have hbase : w.heap.pmm.buddyMap 0 = g.bitmapBase := hrepr.slices 0 (Nat.zero_le _)
    rw [allocatorBytes, hbase, ← hmap]
    exact Set.disjoint_left.mpr fun y hy => h.pmm.held_outside (h.bytes_held hb hy)
  header _ hb _ ha _ hq := h.bytes_header hb ha hq
  metadata _ hb _ hb' _ ho' := h.bytes_metadata hb hb' ho'
  aligned _ hb := ⟨h.ptr_dvd hb, (h.bytes_bound hb).2⟩
  frames _ hb _ hy := h.bytes_frames hb hy
  kmalloc coreId _ hsize := by
    obtain ⟨x, h', -, heq, -, hkeeps, hnull⟩ := h.kmalloc hsize coreId
    exact ⟨x, h', heq, hkeeps, hnull⟩
  kfree _ hb hu := by
    obtain ⟨h', _, heq, -, hback⟩ := h.kfree hb hu
    exact ⟨h', heq, hback.keeps⟩
  initializeSlubAp _ _ heq := initializeSlubAp_run h hmap heq
  no_leak := h.no_leak

end World.Inv

/-- **The heap is sound in every run** from `initialize_slub` on, over the PMM of any boot. -/
theorem Run.soundOverPmm (hwf : mmap.WellFormed) (hboot : Boots k mmap s₀)
    (hreach : Reaches mmap (PMM.World.start s₀) p) (hpos : 0 < pool) (hlt : pool + 256 ≤ 2 ^ 64)
    (hapart : ∀ q ∈ s₀.freeFrames, slabAddr q + 4096 ≤ pool ∨ pool + 256 ≤ slabAddr q)
    (hrun : Run (World.start pool p) w) : ∃ S, w.Sound mmap s₀.freeFrames S := by
  obtain ⟨g, hmap, hinv₀, hcons₀, -⟩ := hboot.start hwf
  have hstart := start_inv (hreach.inv hmap hinv₀) (hreach.conserved hmap hinv₀ hcons₀) hpos hlt hapart
  obtain ⟨S, h⟩ := hrun.inv hstart hmap
  exact ⟨S, h.sound hmap⟩

/-- The frames of a small machine are below the kernel image. -/
theorem freeFrames_lt (hwf : mmap.WellFormed) (hboot : Boots k mmap s₀) (hq : q ∈ s₀.freeFrames) :
    q ≤ maxPfnOf mmap + 15 := by
  obtain ⟨g, hmap, hinv, -⟩ := hboot.start hwf
  have hcovered := (hinv.buddy.frames q hq).covered
  omega

/-- **A client takes a block and writes to its head.** -/
theorem exists_unmistaken (h : w.Inv g F₀ S) (coreId size : ℕ) (hfour : 4 ≤ size)
    (hsize : size + pageSize ≤ 2 ^ 64)
    (hpages : ∀ s', w.heap.pmm.allocPages (w.heap.originOf coreId size).need ≠ some (0, s')) :
    ∃ w₁ w₂ x S₂, Run w w₁ ∧ w₁.live = ⟨x, size, w.heap.originOf coreId size⟩ :: w.live ∧ Run w₁ w₂ ∧
      w₂.live = w₁.live ∧ w₂.Inv g F₀ S₂ ∧
      Allocation.Unmistaken w₂.heap ⟨x, size, w.heap.originOf coreId size⟩ := by
  obtain ⟨x, h', S', heq, hinv, -, hnull⟩ := h.kmalloc hsize coreId
  have hx : x ≠ 0 := fun h0 => (hnull h0).elim (fun hzero => by omega) fun ⟨s', hs'⟩ => hpages s' hs'
  have hstep : Step w (w.took h' coreId size x) := .kmalloc hsize heq
  have hlive : (w.took h' coreId size x).live = ⟨x, size, w.heap.originOf coreId size⟩ :: w.live :=
    if_neg hx
  generalize w.took h' coreId size x = w₁ at hinv hstep hlive
  have hb : ⟨x, size, w.heap.originOf coreId size⟩ ∈ w₁.live := hlive ▸ List.mem_cons_self
  have hwrite : Mem.AgreeOn w₁.writableᶜ w₁.heap.pmm.mem (w₁.heap.pmm.mem.store 4 x 0) :=
    Mem.agreeOn_store fun y hy => by
      have hout : ¬ (x ≤ y ∧ y < x + size) := fun hin => hy (Or.inl ⟨_, hb, hin⟩)
      omega
  refine ⟨w₁, _, x, S', .single hstep, hlive, .single (.write hwrite), rfl, hinv.write hwrite,
    fun n _ hmagic => ?_⟩
  have hzero : magic (w₁.heap.pmm.mem.store 4 x 0) x = 0 := Mem.load_store_of_lt (by decide)
  exact absurd (hzero.symm.trans hmagic) (by decide)

/-- **And frees it.** -/
theorem exists_run (h : w.Inv g F₀ S) (coreId size : ℕ) (hfour : 4 ≤ size)
    (hsize : size + pageSize ≤ 2 ^ 64)
    (hpages : ∀ s', w.heap.pmm.allocPages (w.heap.originOf coreId size).need ≠ some (0, s')) :
    ∃ w₁ w₂ x, Run w w₁ ∧ w₁.live = ⟨x, size, w.heap.originOf coreId size⟩ :: w.live ∧ Run w₁ w₂ ∧
      w₂.live = w.live := by
  obtain ⟨w₁, w₂, x, S₂, hrun₁, hlive₁, hrun₂, hlive₂, hinv₂, hu⟩ :=
    exists_unmistaken h coreId size hfour hsize hpages
  have hb : ⟨x, size, w.heap.originOf coreId size⟩ ∈ w₂.live := by
    rw [hlive₂, hlive₁]
    exact List.mem_cons_self
  obtain ⟨h₃, -, heq₃, -⟩ := hinv₂.kfree hb hu
  refine ⟨w₁, _, x, hrun₁, hlive₁, hrun₂.tail (.kfree hb hu heq₃), ?_⟩
  change w₂.live.erase _ = w.live
  rw [hlive₂, hlive₁, List.erase_cons_head]

/-- The heap of a small machine, with the pool of the boot core in the kernel image. -/
def World.onLowAndHigh (s₀ : PMM) : World := World.start 0xFFFFFFFF80200000 (PMM.World.start s₀)

theorem onLowAndHigh_inv : ∃ s₀ g, Boots imageAt1M lowAndHigh s₀ ∧ g.maxPfn = maxPfnOf lowAndHigh ∧
    (World.onLowAndHigh s₀).Inv g s₀.freeFrames (fun _ => Slabs.none) ∧
    (∀ q ∈ s₀.freeFrames,
      slabAddr q + 4096 ≤ 0xFFFFFFFF80200000 ∨ 0xFFFFFFFF80200000 + 256 ≤ slabAddr q) ∧
    Set.Ico 1 8 ⊆ s₀.freeFrames := by
  obtain ⟨s₀, hboot, hfree⟩ := lowAndHigh_boots
  have hapart : ∀ q ∈ s₀.freeFrames, slabAddr q + 4096 ≤ 0xFFFFFFFF80200000 ∨
      0xFFFFFFFF80200000 + 256 ≤ slabAddr q := fun q hq => by
    have hle := freeFrames_lt lowAndHigh_wellFormed hboot hq
    have hmax : maxPfnOf lowAndHigh < 0x100000 := by decide +kernel
    rw [slabAddr, hhdmBase, pageSize]
    omega
  obtain ⟨g, hmap, hinv₀, hcons₀, -⟩ := hboot.start lowAndHigh_wellFormed
  exact ⟨s₀, g, hboot, hmap, start_inv hinv₀ hcons₀ (by decide) (by decide) hapart, hapart, hfree⟩

theorem originOf_5000 (s₀ : PMM) : (World.onLowAndHigh s₀).heap.originOf 0 5000 = .pages 3 := by
  have hlog : Nat.log2 (5000 - 1) = 12 := by decide +kernel
  have hcache : (World.onLowAndHigh s₀).heap.getKmallocCache 0 5000 = 0 := by
    rw [getKmallocCache, if_neg (by decide)]
    dsimp only
    rw [if_neg (by decide), clz64, hlog]
    rfl
  rw [originOf, if_neg (not_not.mpr hcache)]
  exact congrArg Origin.pages (by decide +kernel)

/-- It has three pages. -/
theorem allocPages_5000 {s₀ : PMM} (h : (World.onLowAndHigh s₀).Inv g F₀ S)
    (hfree : Set.Ico 1 8 ⊆ s₀.freeFrames) (s' : PMM) :
    (World.onLowAndHigh s₀).heap.pmm.allocPages
      ((World.onLowAndHigh s₀).heap.originOf 0 5000).need ≠ some (0, s') := by
  rw [originOf_5000]
  refine h.pmm.allocPages_ne (q := 4) (by decide) (by decide) (fun r hr => hfree ?_) s'
  have hblock : BuddyBlocks.block (pagesToOrder 3) 4 = Set.Ico 4 8 := rfl
  rw [Origin.need, hblock, Set.mem_Ico] at hr
  rw [Set.mem_Ico]
  omega

/-- It has a block of three pages, and the block goes back. -/
theorem soundOverPmm_lowAndHigh : ∃ s₀ x w₁ w₂ S₁ S₂, Boots imageAt1M lowAndHigh s₀ ∧
    w₁.live = [⟨x, 5000, .pages 3⟩] ∧ World.Sound lowAndHigh s₀.freeFrames w₁ S₁ ∧
    w₂.live = [] ∧ World.Sound lowAndHigh s₀.freeFrames w₂ S₂ := by
  obtain ⟨s₀, g, hboot, -, hinv, hapart, hfree⟩ := onLowAndHigh_inv
  obtain ⟨w₁, w₂, x, hrun₁, hlive₁, hrun₂, hlive₂⟩ := exists_run hinv 0 5000 (by decide) (by decide)
    (allocPages_5000 hinv hfree)
  rw [originOf_5000] at hlive₁
  obtain ⟨S₁, hsound₁⟩ := Run.soundOverPmm lowAndHigh_wellFormed hboot .refl (by decide) (by decide)
    hapart hrun₁
  obtain ⟨S₂, hsound₂⟩ := Run.soundOverPmm lowAndHigh_wellFormed hboot .refl (by decide) (by decide)
    hapart (hrun₁.trans hrun₂)
  exact ⟨s₀, x, w₁, w₂, S₁, S₂, hboot, hlive₁, hsound₁, hlive₂, hsound₂⟩

end Heap

end MioOS
