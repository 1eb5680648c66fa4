import MioOS.Slub.HeapCalls

/-!
# Slub/HeapRuns — histories of the heap

`Step` is one call of `kmalloc` or `kfree` on some core, a call of the PMM by someone else, a write to
memory that a client holds, or one of the two moves by which `initialize_slub_ap` adds a pool.
`Run.inv` carries the invariant through every run from `initialize_slub` on; `World.Sound` is what a
client can rely on.
-/

namespace MioOS

open ByteMemory Intrusive SlabHeader KmemCache PMM

namespace Heap

variable {g : Geometry} {F₀ : Set ℕ} {w w' : World} {S S' : ℕ → Slabs} {s' : PMM} {m m' : Mem}
  {mmap : MemoryMap} {h h' : Heap} {b b' : Allocation} {B : PMM.Block} {live : List Allocation}
  {others : List PMM.Block} {marked : Set ℕ} {a i n q r x y pool coreId size : ℕ}

/-! ## Steps -/

/-- The bytes that clients may write to. -/
def World.writable (w : World) : Set ℕ := {y | ∃ b ∈ w.live, y ∈ b.bytes} ∪ heldBytes w.others

/-- The caches of a pool are as `initialize_slub` leaves them. -/
def Constructed (cacheAt : ℕ → KmemCache) (pool : ℕ) : Prop :=
  ∀ i < numKmallocCaches, cacheAt (cacheAddr pool i) = ⟨minKmemCacheSize * 2 ^ i, 0⟩

/-- The world after the loop that constructs caches in a block. -/
def World.withCaches (w : World) (b : Allocation) : World :=
  { w with heap := { w.heap with
    cacheAt := constructCaches b.ptr numKmallocCaches 0 minKmemCacheSize w.heap.cacheAt } }

/-- The world after a block became a pool. -/
def World.withPool (w : World) (b : Allocation) : World :=
  { w with
    heap := { w.heap with apPools := w.heap.apPools ++ [b.ptr] }
    live := w.live.erase b
    internal := w.internal ++ [b] }

/-- **One step** of the heap and its clients. -/
inductive Step (w : World) : World → Prop
  | kmalloc {coreId size x : ℕ} {h' : Heap} : size + pageSize ≤ 2 ^ 64 →
      w.heap.kmalloc coreId size = some (x, h') → Step w (w.took h' coreId size x)
  | kfree {b : Allocation} {h' : Heap} : b ∈ w.live → b.Unmistaken w.heap →
      w.heap.kfree b.ptr = some h' → Step w (w.gave h' b)
  | call {s' : PMM} {others : List PMM.Block} {marked : Set ℕ} :
      PMM.Call ⟨w.heap.pmm, w.others, w.marked⟩ ⟨s', others, marked⟩ →
      Step w (w.setPmm s' w.live others marked)
  | write {m : Mem} : Mem.AgreeOn w.writableᶜ w.heap.pmm.mem m →
      Step w (w.setPmm { w.heap.pmm with mem := m } w.live w.others w.marked)
  /-- The loop of `initialize_slub_ap` over its pool. -/
  | construct {b : Allocation} : b ∈ w.live → kmemCacheBytes * numKmallocCaches ≤ b.size →
      Step w (w.withCaches b)
  /-- The `push_back` of `initialize_slub_ap`. -/
  | register {b : Allocation} : b ∈ w.live → kmemCacheBytes * numKmallocCaches ≤ b.size →
      Constructed w.heap.cacheAt b.ptr → Step w (w.withPool b)

/-- `w'` is reached from `w`. -/
abbrev Run : World → World → Prop := Relation.ReflTransGen Step

/-- The heap right after `initialize_slub`, beside the other clients of the PMM. -/
def World.start (bspPool : ℕ) (p : PMM.World) : World where
  heap := initializeSlub bspPool p.pmm
  live := []
  internal := []
  others := p.live
  marked := p.marked

/-! ## Blocks do not overlap -/

namespace World.Inv

theorem bytes_slabs (h : w.Inv g F₀ S) (hb : b ∈ w.held) (ho : b.origin = .object a) :
    b.bytes ⊆ frameBytes (S a).frames := fun _ hy => by
  obtain ⟨q, hq, hlow, hhigh⟩ := h.object_bytes hb ho hy
  exact ⟨q, hq, by omega, hhigh⟩

theorem bytes_block (h : w.Inv g F₀ S) (hb : b ∈ w.held) (ho : b.origin = .pages n) :
    b.block = some ⟨b.frame * pageSize, n⟩ ∧ b.bytes ⊆ heldBytes [⟨b.frame * pageSize, n⟩] := by
  obtain ⟨-, hblock, -, -, hmem⟩ := h.pages_spec hb ho
  refine ⟨hblock, fun y hy => ?_⟩
  obtain ⟨hlow, hhigh⟩ := h.pages_bytes hb ho hy
  exact hmem y (by omega) hhigh

/-- The blocks that are pages are apart. -/
theorem pages_apart (h : w.Inv g F₀ S) : w.held.Pairwise fun b b' =>
    ∀ B, b.block = some B → ∀ B', b'.block = some B' → Disjoint (heldBytes [B]) (heldBytes [B']) := by
  have hpair : (w.held.filterMap Allocation.block).Pairwise fun B B' => Disjoint B.pages B'.pages :=
    (List.pairwise_append.mp (List.pairwise_append.mp h.pmm.apart).2.1).1
  refine (List.pairwise_filterMap.mp hpair).imp fun hd B hB B' hB' => ?_
  rw [Set.disjoint_left]
  rintro y ⟨C, hC, q, hq, hy⟩ ⟨C', hC', q', hq', hy'⟩
  rw [List.mem_singleton] at hC hC'
  subst hC hC'
  obtain rfl := eq_of_mem_pageBytes hy hy'
  exact Set.disjoint_left.mp (hd _ hB _ hB') hq hq'

theorem pages_apart_of_ne {B' : PMM.Block} (h : w.Inv g F₀ S) (hb : b ∈ w.held) (hb' : b' ∈ w.held)
    (hne : b ≠ b') (hB : b.block = some B) (hB' : b'.block = some B') :
    Disjoint (heldBytes [B]) (heldBytes [B']) := by
  have hsymm : Std.Symm fun b b' : Allocation => ∀ B, b.block = some B → ∀ B', b'.block = some B' →
      Disjoint (heldBytes [B]) (heldBytes [B']) :=
    ⟨fun _ _ hd B' hB' B hB => (hd B hB B' hB').symm⟩
  exact h.pages_apart.forall hb hb' hne B hB B' hB'

/-- **No two blocks overlap.** -/
theorem bytes_apart (h : w.Inv g F₀ S) : w.held.Pairwise fun b b' => Disjoint b.bytes b'.bytes := by
  refine List.pairwise_iff_forall_sublist.mpr fun {b b'} hsub => ?_
  have hb : b ∈ w.held := hsub.subset List.mem_cons_self
  have hb' : b' ∈ w.held := hsub.subset (List.mem_cons_of_mem _ List.mem_cons_self)
  cases ho : b.origin with
  | object a =>
    obtain ⟨ha, hx, hsize, -⟩ := h.slot hb ho
    by_cases ho' : b'.origin = .object a
    · obtain ⟨-, hx', hsize', -⟩ := h.slot hb' ho'
      have hnd : (w.held.filterMap (Allocation.objectOf a)).Nodup :=
        (h.objects a ha).nodup_iff.mp ((h.cache a ha).nodup_objects (h.fits ha))
      have hne := List.pairwise_iff_forall_sublist.mp (List.pairwise_filterMap.mp hnd) hsub b.ptr
        (if_pos ho) b'.ptr (if_pos ho')
      have hapart := (h.cache a ha).apart (h.fits ha) hx hx' hne
      rw [Allocation.bytes, Allocation.bytes, Set.disjoint_left]
      intro y hy hy'
      rw [Set.mem_Ico] at hy hy'
      omega
    · exact ((h.apart_rest ha).mono_left (h.bytes_slabs hb ho)).mono_right (h.bytes_rest hb' ho')
  | pages n =>
    cases ho' : b'.origin with
    | object a =>
      obtain ⟨ha, -⟩ := h.object b' hb' a ho'
      have hne : b.origin ≠ .object a := fun heq => Origin.noConfusion (ho.symm.trans heq)
      exact (((h.apart_rest ha).mono_left (h.bytes_slabs hb' ho')).mono_right
        (h.bytes_rest hb hne)).symm
    | pages k =>
      obtain ⟨hblock, hsub₁⟩ := h.bytes_block hb ho
      obtain ⟨hblock', hsub₂⟩ := h.bytes_block hb' ho'
      exact ((List.pairwise_iff_forall_sublist.mp h.pages_apart hsub _ hblock _ hblock').mono_left
        hsub₁).mono_right hsub₂

/-- Nor does a block overlap those of other clients. -/
theorem bytes_others (h : w.Inv g F₀ S) (hb : b ∈ w.held) : Disjoint b.bytes (heldBytes w.others) := by
  have hsplit : PMM.World.Inv g ⟨w.heap.pmm, (w.heap.caches.flatMap (fun a => slabBlocks (S a)) ++
      w.held.filterMap Allocation.block) ++ w.others, w.marked⟩ := by
    rw [List.append_assoc]
    exact h.pmm
  refine hsplit.apart_bytes.mono_left fun y hy => ?_
  cases ho : b.origin with
  | object a =>
    obtain ⟨ha, -⟩ := h.object b hb a ho
    have hin := h.bytes_slabs hb ho hy
    rw [← heldBytes_slabBlocks] at hin
    exact heldBytes_mono (fun B hB => List.mem_append_left _ (List.mem_flatMap.mpr ⟨a, ha, hB⟩)) hin
  | pages n =>
    obtain ⟨hblock, hsub⟩ := h.bytes_block hb ho
    refine heldBytes_mono (fun B hB => ?_) (hsub hy)
    obtain rfl := List.mem_singleton.mp hB
    exact List.mem_append_right _ (List.mem_filterMap.mpr ⟨b, hb, hblock⟩)

/-- Every byte of a block is in a page of `F₀`. -/
theorem bytes_frames (h : w.Inv g F₀ S) (hb : b ∈ w.held) (hy : y ∈ b.bytes) :
    ∃ q ∈ F₀, y ∈ pageBytes q := by
  obtain ⟨B, hB, q, hq, hyq⟩ := h.bytes_held hb hy
  refine ⟨q, ?_, hyq⟩
  rw [← h.conserved.total]
  exact Or.inl (Or.inr ⟨B, hB, hq⟩)

theorem bytes_bound (h : w.Inv g F₀ S) (hb : b ∈ w.held) :
    hhdmBase ≤ b.ptr ∧ b.ptr + b.size ≤ 2 ^ 64 := by
  cases ho : b.origin with
  | object a =>
    obtain ⟨ha, -, hsize, q, hq, hslot⟩ := h.slot hb ho
    obtain ⟨hlow, hhigh⟩ := mem_slots_bounds (h.fits ha) hslot
    have hlt := slabAddr_lt ((h.cache a ha).lt q hq)
    rw [slabAddr] at *
    omega
  | pages n =>
    obtain ⟨-, -, -, hend, -⟩ := h.pages_spec hb ho
    have hpb := h.pages b hb n ho
    have hptr := hpb.ptr_eq
    have hsize := hpb.size_le
    rw [slabAddr] at *
    omega

/-- A block that can hold a pool is apart from the pools. -/
theorem pool_apart (h : w.Inv g F₀ S) (hb : b ∈ w.live) (hsize : 256 ≤ b.size)
    (hpool : pool ∈ w.heap.pools) : pool + 256 ≤ b.ptr ∨ b.ptr + 256 ≤ pool := by
  by_contra hover
  have hmem : max pool b.ptr ∈ b.bytes := by
    rw [Allocation.bytes, Set.mem_Ico]
    omega
  rcases List.mem_cons.mp hpool with rfl | hpool
  · obtain ⟨q, hq, hy⟩ := h.bytes_frames (List.mem_append_left _ hb) hmem
    have hbsp := h.bsp q hq
    rw [mem_pageBytes] at hy
    omega
  · rw [← h.ap] at hpool
    obtain ⟨b', hb', rfl⟩ := List.mem_map.mp hpool
    have hsize' := h.ap_size b' hb'
    have hd := (List.pairwise_append.mp h.bytes_apart).2.2 b hb b' hb'
    refine Set.disjoint_left.mp hd hmem ?_
    rw [Allocation.bytes, Set.mem_Ico]
    omega

end World.Inv

/-! ## A new pool -/

/-- A cache without slabs. -/
theorem cacheInv_none {c : KmemCache} (hc : c.partialList = 0) : CacheInv m a c Slabs.none :=
  ⟨⟨by simp [Slabs.none], List.nodup_nil, by simp [Slabs.none], hc⟩, by simp [Slabs.none],
    by simp [Slabs.none], by simp [Slabs.none]⟩

theorem constructCaches_other {cacheAt : ℕ → KmemCache} {left t : ℕ} :
    (∀ j < left, a ≠ cacheAddr pool (i + j)) → constructCaches pool left i t cacheAt a = cacheAt a := by
  induction left generalizing i t cacheAt with
  | zero => exact fun _ => rfl
  | succ left ih =>
    intro hne
    have hhead : a ≠ cacheAddr pool i := hne 0 (by omega)
    rw [constructCaches, ih fun j hj => ?_, Function.update_of_ne hhead]
    have hnext := hne (j + 1) (by omega)
    rwa [Nat.add_right_comm, Nat.add_assoc]

theorem constructCaches_at (cacheAt : ℕ → KmemCache) (pool i t : ℕ) {left j : ℕ} (hj : j < left) :
    constructCaches pool left i t cacheAt (cacheAddr pool (i + j)) = KmemCache.new (t * 2 ^ j) := by
  induction left generalizing i t cacheAt j with
  | zero => omega
  | succ left ih =>
    rw [constructCaches]
    cases j with
    | zero =>
      rw [constructCaches_other fun k _ => ?_, Nat.add_zero, Function.update_self, pow_zero, mul_one]
      rw [cacheAddr, cacheAddr, kmemCacheBytes]
      omega
    | succ j =>
      have heq := ih (Function.update cacheAt (cacheAddr pool i) (KmemCache.new t)) (i + 1) (t * 2) (j := j)
        (by omega)
      rw [Nat.add_right_comm, Nat.add_assoc, mul_assoc, ← pow_succ'] at heq
      exact heq

/-- **The loop leaves fresh caches** at the places of the pool. -/
theorem constructed_constructCaches (cacheAt : ℕ → KmemCache) (pool : ℕ) :
    Constructed (constructCaches pool numKmallocCaches 0 minKmemCacheSize cacheAt) pool := by
  intro i hi
  have heq := constructCaches_at cacheAt pool 0 minKmemCacheSize hi
  rwa [Nat.zero_add, new_eq hi] at heq

theorem caches_append (h : Heap) (pool : ℕ) : caches { h with apPools := h.apPools ++ [pool] }
    = h.caches ++ (List.range numKmallocCaches).map (cacheAddr pool) := by
  simp [caches, pools]

namespace World.Inv

/-- The caches of a block that can hold a pool are none of those in use. -/
theorem cacheAddr_notMem (h : w.Inv g F₀ S) (hb : b ∈ w.live) (hsize : 256 ≤ b.size)
    (hi : i < numKmallocCaches) : cacheAddr b.ptr i ∉ w.heap.caches := fun hmem => by
  obtain ⟨pool, hpool, j, hj, heq⟩ := mem_caches.mp hmem
  have hapart := h.pool_apart hb hsize hpool
  rw [numKmallocCaches] at hi hj
  rw [cacheAddr, cacheAddr, kmemCacheBytes] at heq
  omega

/-! ## Every step keeps the invariant -/

/-- **Calls of other clients.** -/
theorem otherCall (h : w.Inv g F₀ S) (hmap : g.maxPfn = maxPfnOf mmap)
    (hcall : PMM.Call ⟨w.heap.pmm, w.others, w.marked⟩ ⟨s', others, marked⟩) :
    (w.setPmm s' w.live others marked).Inv g F₀ S ∧ w.Keeps (w.setPmm s' w.live others marked) := by
  obtain ⟨l, hcall', hl⟩ := hcall.frame
    (w.heap.caches.flatMap (fun a => slabBlocks (S a)) ++ w.held.filterMap Allocation.block)
  rw [List.append_assoc] at hcall'
  have hperm : l.Perm ((w.setPmm s' w.live others marked).blocks S) := by
    rw [List.append_assoc] at hl
    exact hl
  have hm := hcall'.keeps h.pmm
  refine h.pmmCall ((h.pmm.step hmap (hcall'.step mmap)).perm hperm _)
    ((h.conserved.step h.pmm hmap (hcall'.step mmap)).perm hperm) ?_ (fun _ => .refl _)
    fun b hb => Or.inl hb
  exact hm.mono fun y hy => ⟨hy.1, heldBytes_mono hperm.symm.subset hy.2⟩

/-- **Writes of clients.** -/
theorem write (h : w.Inv g F₀ S) (hm : Mem.AgreeOn w.writableᶜ w.heap.pmm.mem m) :
    (w.setPmm { w.heap.pmm with mem := m } w.live w.others w.marked).Inv g F₀ S := by
  have hclient : w.writable ⊆ w.clientBytes := Set.union_subset_union_left _
    fun y ⟨b, hb, hy⟩ => ⟨b, List.mem_append_left _ hb, hy⟩
  obtain ⟨hpmm, hF⟩ := h.pmm.write (hm.mono fun y hy hin =>
    h.pmm.held_off (h.clientBytes_sub (hclient hin)) hy)
  refine h.setPmm hpmm (h.conserved.congr hF) (fun a ha => ?_)
    ⟨fun _ => .refl _, fun b hb => Or.inl hb, fun b hb n ho => ?_⟩
  · -- in the slabs of a cache only live objects are written
    classical
    let m₁ : Mem := fun y => if y ∈ frameBytes (S a).frames then m y else w.heap.pmm.mem y
    have hcache : CacheInv m₁ a (w.heap.cacheAt a) (S a) := by
      refine (h.cache a ha).write (h.fits ha) fun y hy => ?_
      change (if _ then _ else _) = _
      split_ifs with hin
      · refine hm y fun hw => ?_
        rcases h.clientBytes_cases a (hclient hw) with ⟨b, hb, ho, hyb⟩ | hrest
        · obtain ⟨-, hx, hsize, -⟩ := h.slot hb ho
          have hout := hy b.ptr hx
          rw [Allocation.bytes, Set.mem_Ico] at hyb
          omega
        · exact Set.disjoint_left.mp (h.apart_rest ha) hin hrest
      · rfl
    exact hcache.congr (h.fits ha) fun y hy => (if_pos hy).symm
  · -- nor is the metadata before a block that is pages
    refine (h.pages b hb n ho).congr fun y hy hy' => hm y fun hw => ?_
    obtain ⟨hblock, -⟩ := h.bytes_block hb ho
    obtain ⟨hn, -, -, -, hmem⟩ := h.pages_spec hb ho
    have hone := Nat.le_mul_of_pos_left pageSize (show 0 < n by omega)
    have hyb := hmem y hy (by omega)
    rcases hw with ⟨b', hb', hyb'⟩ | hother
    · have hb'' : b' ∈ w.held := List.mem_append_left _ hb'
      cases ho' : b'.origin with
      | object a =>
        obtain ⟨ha, -⟩ := h.object b' hb'' a ho'
        exact Set.disjoint_left.mp (h.apart_rest ha) (h.bytes_slabs hb'' ho' hyb')
          (block_sub_rest hb hblock S _ hyb)
      | pages k =>
        obtain ⟨hblock', hsub⟩ := h.bytes_block hb'' ho'
        by_cases heq : b = b'
        · subst heq
          obtain ⟨hlow, -⟩ := h.pages_bytes hb ho hyb'
          omega
        · exact Set.disjoint_left.mp (h.pages_apart_of_ne hb hb'' heq hblock hblock') hyb (hsub hyb')
    · have hsplit : PMM.World.Inv g ⟨w.heap.pmm, (w.heap.caches.flatMap (fun a => slabBlocks (S a)) ++
          w.held.filterMap Allocation.block) ++ w.others, w.marked⟩ := by
        rw [List.append_assoc]
        exact h.pmm
      refine Set.disjoint_left.mp hsplit.apart_bytes (heldBytes_mono (fun B hB => ?_) hyb) hother
      obtain rfl := List.mem_singleton.mp hB
      exact List.mem_append_right _ (List.mem_filterMap.mpr ⟨b, hb, hblock⟩)

/-- **The loop over a pool** touches no cache in use. -/
theorem construct (h : w.Inv g F₀ S) (hb : b ∈ w.live) (hsize : 256 ≤ b.size) :
    (w.withCaches b).Inv g F₀ S := by
  have hsame : ∀ a ∈ w.heap.caches, (w.withCaches b).heap.cacheAt a = w.heap.cacheAt a :=
    fun a ha => constructCaches_other fun j hj heq => by
      rw [Nat.zero_add] at heq
      exact h.cacheAddr_notMem hb hsize hj (heq ▸ ha)
  refine ⟨h.pmm, h.conserved, fun a ha => ?_, h.objects, fun b hb a ho => ?_, h.pages, h.size_pos,
    fun pool hpool i hi => ?_, h.apart, h.pool_mem, h.bsp, h.ap, h.ap_size⟩
  · rw [hsame a ha]
    exact h.cache a ha
  · obtain ⟨ha, hle⟩ := h.object b hb a ho
    refine ⟨ha, ?_⟩
    rwa [hsame a ha]
  · rw [hsame _ (mem_caches.mpr ⟨pool, hpool, i, hi, rfl⟩)]
    exact h.objSize pool hpool i hi

end World.Inv

/-- The slabs when more caches are in use. -/
def slabsOf (w : World) (S : ℕ → Slabs) (a : ℕ) : Slabs := if a ∈ w.heap.caches then S a else Slabs.none

theorem held_withPool (hb : b ∈ w.live) : (w.withPool b).held.Perm w.held := by
  have hperm := (List.perm_cons_erase hb).symm.append_right w.internal
  refine List.Perm.trans ?_ hperm
  change (w.live.erase b ++ (w.internal ++ [b])).Perm (b :: (w.live.erase b ++ w.internal))
  rw [← List.append_assoc]
  exact List.perm_append_singleton b _

theorem blocks_withPool (hb : b ∈ w.live) (hnew : ∀ i < numKmallocCaches,
      cacheAddr b.ptr i ∉ w.heap.caches) (S : ℕ → Slabs) :
    (w.blocks S).Perm ((w.withPool b).blocks (slabsOf w S)) := by
  have hcaches : (w.withPool b).heap.caches
      = w.heap.caches ++ (List.range numKmallocCaches).map (cacheAddr b.ptr) := caches_append ..
  have hold : w.heap.caches.flatMap (fun a => slabBlocks (slabsOf w S a))
      = w.heap.caches.flatMap (fun a => slabBlocks (S a)) :=
    List.flatMap_congr fun a ha => by rw [slabsOf, if_pos ha]
  have hnone : ((List.range numKmallocCaches).map (cacheAddr b.ptr)).flatMap
      (fun a => slabBlocks (slabsOf w S a)) = [] := by
    refine List.flatMap_eq_nil_iff.mpr fun a ha => ?_
    obtain ⟨i, hi, rfl⟩ := List.mem_map.mp ha
    rw [slabsOf, if_neg (hnew i (List.mem_range.mp hi))]
    rfl
  rw [World.blocks, World.blocks, World.restOf, World.restOf, hcaches, List.flatMap_append, hold, hnone,
    List.append_nil]
  exact List.Perm.append_left _ (((held_withPool hb).symm.filterMap _).append_right _)

/-- **Registering a pool** of fresh caches. -/
theorem World.Inv.register (h : w.Inv g F₀ S) (hb : b ∈ w.live) (hsize : 256 ≤ b.size)
    (hfresh : Constructed w.heap.cacheAt b.ptr) : (w.withPool b).Inv g F₀ (slabsOf w S) := by
  have hnew : ∀ i < numKmallocCaches, cacheAddr b.ptr i ∉ w.heap.caches := fun i hi =>
    h.cacheAddr_notMem hb hsize hi
  have hheld := held_withPool hb
  have hblocks := blocks_withPool hb hnew S
  have hmem : ∀ a, a ∈ (w.withPool b).heap.caches →
      a ∈ w.heap.caches ∨ ∃ i < numKmallocCaches, a = cacheAddr b.ptr i := fun a ha => by
    rw [World.withPool, caches_append, List.mem_append, List.mem_map] at ha
    exact ha.imp_right fun ⟨i, hi, heq⟩ => ⟨i, List.mem_range.mp hi, heq.symm⟩
  have hbound := h.bytes_bound (List.mem_append_left _ hb)
  have hpools : (w.withPool b).heap.pools = w.heap.pools ++ [b.ptr] := rfl
  refine ⟨h.pmm.perm hblocks _, h.conserved.perm hblocks, fun a ha => ?_, fun a ha => ?_,
    fun b' hb' a ho => ?_, fun b' hb' => h.pages b' (hheld.subset hb'),
    fun b' hb' => h.size_pos b' (hheld.subset hb'), fun pool hpool i hi => ?_, ?_, fun pool hpool => ?_,
    h.bsp, ?_, fun b' hb' => ?_⟩
  · rcases hmem a ha with ha | ⟨i, hi, rfl⟩
    · rw [slabsOf, if_pos ha]
      exact h.cache a ha
    · rw [slabsOf, if_neg (hnew i hi)]
      have hcache : (w.withPool b).heap.cacheAt (cacheAddr b.ptr i) = ⟨minKmemCacheSize * 2 ^ i, 0⟩ :=
        hfresh i hi
      rw [hcache]
      exact cacheInv_none rfl
  · rcases hmem a ha with ha | ⟨i, hi, rfl⟩
    · rw [slabsOf, if_pos ha]
      exact (h.objects a ha).trans (hheld.symm.filterMap _)
    · rw [slabsOf, if_neg (hnew i hi)]
      have hnone : (w.withPool b).held.filterMap (Allocation.objectOf (cacheAddr b.ptr i)) = [] :=
        List.filterMap_eq_nil_iff.mpr fun b' hb' =>
          if_neg fun ho => hnew i hi (h.object b' (hheld.subset hb') _ ho).1
      rw [hnone]
      exact .refl _
  · obtain ⟨ha, hle⟩ := h.object b' (hheld.subset hb') a ho
    refine ⟨?_, hle⟩
    rw [World.withPool, caches_append]
    exact List.mem_append_left _ ha
  · rw [hpools, List.mem_append, List.mem_singleton] at hpool
    rcases hpool with hpool | rfl
    · exact h.objSize pool hpool i hi
    · exact congrArg KmemCache.objSize (hfresh i hi)
  · rw [hpools]
    refine List.pairwise_append.mpr ⟨h.apart, List.pairwise_singleton _ _, fun p hp p' hp' => ?_⟩
    obtain rfl := List.mem_singleton.mp hp'
    exact h.pool_apart hb hsize hp
  · rw [hpools, List.mem_append, List.mem_singleton] at hpool
    rcases hpool with hpool | rfl
    · exact h.pool_mem pool hpool
    · rw [hhdmBase] at hbound
      omega
  · change (w.internal ++ [b]).map Allocation.ptr = w.heap.apPools ++ [b.ptr]
    rw [List.map_append, h.ap]
    rfl
  · rcases List.mem_append.mp hb' with hb' | hb'
    · exact h.ap_size b' hb'
    · rwa [List.mem_singleton.mp hb']

/-- **Every step keeps the invariant.** -/
theorem Step.inv (h : w.Inv g F₀ S) (hmap : g.maxPfn = maxPfnOf mmap) (hstep : Step w w') :
    ∃ S', w'.Inv g F₀ S' := by
  cases hstep with
  | @kmalloc coreId size x h' hsize heq =>
    obtain ⟨x', h'', S', heq', hinv, -⟩ := h.kmalloc hsize coreId
    obtain ⟨rfl, rfl⟩ := Prod.mk.inj (Option.some.inj (heq.symm.trans heq'))
    exact ⟨S', hinv⟩
  | @kfree b h' hb hu heq =>
    obtain ⟨h'', S', heq', hinv, -⟩ := h.kfree hb hu
    obtain rfl := Option.some.inj (heq.symm.trans heq')
    exact ⟨S', hinv⟩
  | call hcall => exact ⟨S, (h.otherCall hmap hcall).1⟩
  | write hm => exact ⟨S, h.write hm⟩
  | construct hb hsize => exact ⟨S, h.construct hb hsize⟩
  | register hb hsize hfresh => exact ⟨_, h.register hb hsize hfresh⟩

/-- **The invariant holds in every world a run reaches.** -/
theorem Run.inv (h : w.Inv g F₀ S) (hmap : g.maxPfn = maxPfnOf mmap) (hrun : Run w w') :
    ∃ S', w'.Inv g F₀ S' := by
  induction hrun with
  | refl => exact ⟨S, h⟩
  | tail _ hstep ih =>
    obtain ⟨S', h'⟩ := ih
    exact hstep.inv h' hmap

/-- **`initialize_slub` establishes it.** -/
theorem start_inv {p : PMM.World} (hinv : p.Inv g) (hcons : p.Conserved F₀) (hpos : 0 < pool)
    (hlt : pool + 256 ≤ 2 ^ 64)
    (hapart : ∀ q ∈ F₀, slabAddr q + 4096 ≤ pool ∨ pool + 256 ≤ slabAddr q) :
    (World.start pool p).Inv g F₀ fun _ => Slabs.none := by
  have hblocks : (World.start pool p).blocks (fun _ => Slabs.none) = p.live := by
    have hnil : (World.start pool p).heap.caches.flatMap (fun _ => slabBlocks Slabs.none) = [] :=
      List.flatMap_eq_nil_iff.mpr fun _ _ => rfl
    rw [World.blocks, World.restOf, hnil]
    rfl
  have hfresh : ∀ i < numKmallocCaches, (World.start pool p).heap.cacheAt (cacheAddr pool i)
      = ⟨minKmemCacheSize * 2 ^ i, 0⟩ := constructed_constructCaches _ pool
  have hpool : ∀ pool' ∈ (World.start pool p).heap.pools, pool' = pool := fun _ h =>
    List.mem_singleton.mp h
  refine ⟨?_, ?_, fun a ha => ?_, fun _ _ => .refl _, fun b hb => absurd hb List.not_mem_nil,
    fun b hb => absurd hb List.not_mem_nil, fun b hb => absurd hb List.not_mem_nil,
    fun pool' hp i hi => ?_, List.pairwise_singleton _ _, fun pool' hp => ?_, hapart, rfl,
    fun b hb => absurd hb List.not_mem_nil⟩
  · rw [hblocks]
    exact hinv
  · rw [hblocks]
    exact hcons
  · obtain ⟨pool', hp, i, hi, rfl⟩ := mem_caches.mp ha
    obtain rfl := hpool pool' hp
    rw [hfresh i hi]
    exact cacheInv_none rfl
  · obtain rfl := hpool pool' hp
    exact congrArg KmemCache.objSize (hfresh i hi)
  · obtain rfl := hpool pool' hp
    exact ⟨hpos, hlt⟩

end Heap

end MioOS
