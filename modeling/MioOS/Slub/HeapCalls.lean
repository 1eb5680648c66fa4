import MioOS.Slub.Heap

/-!
# Slub/HeapCalls — `kmalloc` and `kfree` keep the invariant of the heap

A call goes to one cache, or to the PMM for whole pages.  Either way the invariant holds again and the
bytes that clients hold before and after the call are what they were (`World.Keeps`).
-/

namespace MioOS

open ByteMemory Intrusive SlabHeader KmemCache PMM

namespace Heap

namespace World

/-- The bytes that clients hold. -/
def clientBytes (w : World) : Set ℕ := {y | ∃ b ∈ w.held, y ∈ b.bytes} ∪ heldBytes w.others

/-- The bytes that clients hold in both worlds are the same in both. -/
def Keeps (w w' : World) : Prop :=
  Mem.AgreeOn (w.clientBytes ∩ w'.clientBytes) w.heap.pmm.mem w'.heap.pmm.mem

/-- The world after `kmalloc` returned `x`. -/
def took (w : World) (h' : Heap) (coreId size x : ℕ) : World :=
  { w with
    heap := h'
    live := if x = 0 then w.live else ⟨x, size, w.heap.originOf coreId size⟩ :: w.live }

/-- The world after `kfree` of a block. -/
def gave (w : World) (h' : Heap) (b : Allocation) : World :=
  { w with heap := h', live := w.live.erase b }

end World

variable {g : Geometry} {F₀ : Set ℕ} {w w' : World} {S S' : ℕ → Slabs} {s' : PMM} {m m' : Mem}
  {h : Heap} {b b' : Allocation} {live : List Allocation} {a i n q r x y coreId size : ℕ}

/-! ## The blocks of a world -/

theorem filterMap_objectOf_cons (b : Allocation) (l : List Allocation) (a : ℕ) :
    (b :: l).filterMap (Allocation.objectOf a)
      = if b.origin = .object a then b.ptr :: l.filterMap (Allocation.objectOf a)
        else l.filterMap (Allocation.objectOf a) := by
  rw [List.filterMap_cons, Allocation.objectOf]
  split_ifs <;> rfl

/-- The blocks without one of them. -/
theorem held_perm (hb : b ∈ w.live) : w.held.Perm (b :: (w.live.erase b ++ w.internal)) :=
  (List.perm_cons_erase hb).append_right _

theorem ObjectsOf.refl (w : World) (a : ℕ) : ObjectsOf w a w.live :=
  ⟨fun _ _ => .refl _, .refl _, fun _ hb => Or.inl hb⟩

/-- One more object. -/
theorem ObjectsOf.cons (hpos : 0 < size) (hle : size ≤ (w.heap.cacheAt a).objSize) (x : ℕ) :
    ObjectsOf w a (⟨x, size, .object a⟩ :: w.live) := by
  refine ⟨fun r hr => ?_, .refl _, fun b hb => ?_⟩
  · rw [List.cons_append, filterMap_objectOf_cons, if_neg fun heq => hr (Origin.object.inj heq).symm]
    exact .refl _
  · rcases List.mem_cons.mp hb with rfl | hb
    · exact Or.inr ⟨rfl, hpos, hle⟩
    · exact Or.inl hb

/-- One object less. -/
theorem ObjectsOf.erase (hb : b ∈ w.live) (ho : b.origin = .object a) :
    ObjectsOf w a (w.live.erase b) := by
  refine ⟨fun r hr => ?_, ?_, fun b' hb' => Or.inl (List.mem_of_mem_erase hb')⟩
  · have hperm := (held_perm hb).filterMap (Allocation.objectOf r)
    rw [filterMap_objectOf_cons, if_neg fun heq => hr (Origin.object.inj (heq.symm.trans ho))] at hperm
    exact hperm.symm
  · have hperm := (held_perm hb).filterMap Allocation.block
    have hnone : b.block = none := by rw [Allocation.block, ho]
    rw [List.filterMap_cons_none hnone] at hperm
    exact hperm.symm

/-! ## Objects -/

namespace World.Inv

/-- A byte of a client is in an object of the cache, or the cache has nothing to do with it. -/
theorem clientBytes_cases (h : w.Inv g F₀ S) (a : ℕ) (hy : y ∈ w.clientBytes) :
    (∃ b ∈ w.held, b.origin = .object a ∧ y ∈ b.bytes) ∨
      y ∈ heldBytes (w.restOf S (w.heap.caches.erase a)) := by
  rcases hy with ⟨b, hb, hy⟩ | hy
  · by_cases ho : b.origin = .object a
    · exact Or.inl ⟨b, hb, ho, hy⟩
    · exact Or.inr (h.bytes_rest hb ho hy)
  · exact Or.inr (others_sub_rest S _ hy)

theorem object_pos (h : w.Inv g F₀ S) (ha : a ∈ w.heap.caches) (hx : x ∈ (S a).objects) : 0 < x := by
  obtain ⟨q, -, hxq, -⟩ := (h.cache a ha).object (h.fits ha) hx
  have hlow := (mem_slots_bounds (h.fits ha) hxq).1
  omega

/-- **`kmalloc` from a cache.** -/
theorem allocObject (h : w.Inv g F₀ S) (ha : a ∈ w.heap.caches) (hpos : 0 < size)
    (hle : size ≤ (w.heap.cacheAt a).objSize) :
    ∃ x c' s' S', (w.heap.cacheAt a).alloc PMM.pageSource a w.heap.pmm = some (x, c', s') ∧
      World.Inv g F₀ (w.setCache a c' s'
        (if x = 0 then w.live else ⟨x, size, .object a⟩ :: w.live)) S' ∧
      Mem.AgreeOn w.clientBytes w.heap.pmm.mem s'.mem ∧
      (x = 0 → w.heap.pmm.allocPages 1 = some (0, s')) := by
  have hP := handsOut_pmm g F₀ w.marked (w.restOf S (w.heap.caches.erase a)) w.heap.pmm.mem
  rcases alloc_spec hP (h.lends ha) (h.cache a ha) (h.fits ha) (h.addr_lt ha).1 with
    ⟨s', heq, hs', hagree, hnull⟩ | ⟨x, c', s', S', heq, hobj, hs', hcache, hobjects, hkeeps⟩
  · refine ⟨0, _, s', Function.update S a (S a), heq, ?_, fun y hy => ?_, fun _ => hnull⟩
    · rw [if_pos rfl]
      exact h.setCache ha rfl hs' ((h.cache a ha).congr (h.fits ha) hagree) (.refl w a) (h.objects a ha)
    · rcases h.clientBytes_cases a hy with ⟨b, hb, ho, hy⟩ | hy
      · obtain ⟨q, hq, hlow, hhigh⟩ := h.object_bytes hb ho hy
        exact hagree y ⟨q, hq, by omega, hhigh⟩
      · exact hs'.rest y hy
  · have hz : Fits c'.objSize := by
      rw [hobj]
      exact h.fits ha
    have hne : x ≠ 0 := hcache.ne_zero hz (hobjects.symm.subset List.mem_cons_self)
    refine ⟨x, c', s', Function.update S a S', heq, ?_, fun y hy => ?_, fun h0 => absurd h0 hne⟩
    · rw [if_neg hne]
      refine h.setCache ha hobj hs' hcache (.cons hpos hle x) ?_
      rw [List.cons_append, filterMap_objectOf_cons, if_pos rfl]
      exact hobjects.trans ((h.objects a ha).cons x)
    · rcases h.clientBytes_cases a hy with ⟨b, hb, ho, hy⟩ | hy
      · exact hkeeps y (h.object_bytes hb ho hy)
      · exact hs'.rest y hy

/-- **`kfree` of an object.** -/
theorem freeObject (h : w.Inv g F₀ S) (hb : b ∈ w.live) (ho : b.origin = .object a) :
    ∃ c' s' S', (w.heap.cacheAt a).free PMM.pageSource a w.heap.pmm b.ptr = some (c', s') ∧
      (w.setCache a c' s' (w.live.erase b)).Inv g F₀ S' ∧
      Mem.AgreeOn (w.setCache a c' s' (w.live.erase b)).clientBytes w.heap.pmm.mem s'.mem ∧
      (∀ r, r ≠ a → S' r = S r) ∧ ∃ q, Freed (S a) q b.ptr (S' a) ∧
        s'.freeFrames = w.heap.pmm.freeFrames ∪ ({q} \ (S' a).frames) ∧
        (q ∉ (S' a).frames → LeavesHeader PMM.pageSource (Lends g F₀ w.marked
          (w.restOf S (w.heap.caches.erase a)) w.heap.pmm.mem) a (S a).frames q s') := by
  obtain ⟨ha, hx, hsize, -⟩ := h.slot (List.mem_append_left _ hb) ho
  have hP := handsOut_pmm g F₀ w.marked (w.restOf S (w.heap.caches.erase a)) w.heap.pmm.mem
  obtain ⟨c', s', S', heq, hobj, hs', hcache, hobjects, ⟨q, hfreed, hleaves⟩, hframe⟩ :=
    free_spec hP (h.lends ha) (h.cache a ha) (h.fits ha) hx
  have hperm := (held_perm hb).filterMap (Allocation.objectOf a)
  rw [filterMap_objectOf_cons, if_pos ho] at hperm
  have hobjects' : S'.objects.Perm
      ((w.live.erase b ++ w.internal).filterMap (Allocation.objectOf a)) := by
    have herase := ((h.objects a ha).trans hperm).erase b.ptr
    rw [List.erase_cons_head] at herase
    exact hobjects.trans herase
  have h' := h.setCache ha hobj hs' hcache (.erase hb ho) hobjects'
  refine ⟨c', s', _, heq, h', fun y hy => ?_, fun r hr => Function.update_of_ne hr .., q, ?_⟩
  case refine_2 =>
    rw [Function.update_self, ← hfreed.frames_diff]
    exact ⟨hfreed, (h.lends ha).freeFrames_union hs' hfreed.subset, hleaves⟩
  rcases hy with ⟨b', hb', hy⟩ | hy
  · have hmem : b' ∈ w.held := (held_perm hb).symm.subset (List.mem_cons_of_mem _ hb')
    by_cases ho' : b'.origin = .object a
    · -- another object of the same cache
      obtain ⟨ha', hx', hsize', -⟩ := h'.slot hb' ho'
      obtain ⟨q, hq, hlow, hhigh⟩ := h'.object_bytes hb' ho' hy
      rw [Function.update_self] at hq hx'
      refine hframe y ⟨q, hq, hlow, hhigh⟩ ?_
      have hne : b.ptr ≠ b'.ptr := by
        have hnd : (b.ptr :: (w.live.erase b ++ w.internal).filterMap
            (Allocation.objectOf a)).Nodup :=
          ((h.objects a ha).trans hperm).nodup_iff.mp ((h.cache a ha).nodup_objects (h.fits ha))
        intro heq
        refine (List.nodup_cons.mp hnd).1 (heq ▸ hobjects'.subset hx')
      have hx'' : b'.ptr ∈ (S a).objects :=
        ((h.objects a ha).trans hperm).symm.subset (List.mem_cons_of_mem _ (hobjects'.subset hx'))
      have hapart := (h.cache a ha).apart (h.fits ha) hx hx'' hne
      have hge := (h.fits ha).ge
      have hle := (h.object b' hmem a ho').2
      rw [Allocation.bytes, Set.mem_Ico] at hy
      omega
    · exact hs'.rest y (h.bytes_rest hmem ho' hy)
  · exact hs'.rest y (others_sub_rest S _ hy)

end World.Inv

/-! ## Pages -/

/-- The metadata that `kmalloc` writes before the pages it returns. -/
def writeMeta (m : Mem) (virtAddr n : ℕ) : Mem := (m.store 4 virtAddr bypassMagic).store 8 (virtAddr + 4) n

/-- The block behind the metadata page `i`. -/
def pagesAt (i size n : ℕ) : Allocation := ⟨slabAddr i + pageSize, size, .pages n⟩

theorem frame_pagesAt (i size n : ℕ) : (pagesAt i size n).frame = i := by
  rw [Allocation.frame, pagesAt, Nat.add_sub_cancel, slabAddr, Nat.add_sub_cancel_left,
    Nat.mul_div_cancel _ (by decide)]

theorem block_pagesAt (i size n : ℕ) : (pagesAt i size n).block = some ⟨i * pageSize, n⟩ := by
  change some (PMM.Block.mk ((pagesAt i size n).frame * pageSize) n) = _
  rw [frame_pagesAt]

theorem writeMeta_apply (hy : y ∉ pageBytes i) : writeMeta m (slabAddr i) n y = m y := by
  rw [mem_pageBytes] at hy
  have hout : y < slabAddr i ∨ slabAddr i + 12 ≤ y := by omega
  rw [writeMeta]
  rcases hout with hout | hout
  · rw [Mem.store_apply_of_lt (by omega), Mem.store_apply_of_lt hout]
  · rw [Mem.store_apply_of_ge (by omega), Mem.store_apply_of_ge (by omega)]

theorem pageBacked_writeMeta (hlt : n < 2 ^ 64) (hn : size + pageSize ≤ n * pageSize) :
    PageBacked (writeMeta m (slabAddr i) n) (pagesAt i size n) n := by
  refine ⟨by rw [frame_pagesAt]; rfl, ?_, ?_, hn⟩
  · rw [frame_pagesAt, writeMeta, Mem.load_store_of_disjoint (by omega),
      Mem.load_store_of_lt (by decide)]
  · rw [frame_pagesAt, writeMeta, Mem.load_store_word hlt]

/-- One more block that is pages. -/
theorem blocks_cons {B : PMM.Block} (hB : b.block = some B) (S : ℕ → Slabs) (s' : PMM) :
    (B :: w.blocks S).Perm ((w.setPmm s' (b :: w.live) w.others w.marked).blocks S) := by
  change List.Perm _ (w.heap.caches.flatMap (fun a => slabBlocks (S a)) ++
    ((b :: (w.live ++ w.internal)).filterMap Allocation.block ++ w.others))
  rw [List.filterMap_cons_some hB]
  exact List.perm_middle.symm

/-- One block that is pages less. -/
theorem blocks_erase {B : PMM.Block} (hb : b ∈ w.live) (hB : b.block = some B) (S : ℕ → Slabs)
    (s' : PMM) : ((w.blocks S).erase B).Perm
      ((w.setPmm s' (w.live.erase b) w.others w.marked).blocks S) := by
  have hheld := (held_perm hb).filterMap Allocation.block
  rw [List.filterMap_cons_some hB] at hheld
  have hperm : (w.blocks S).Perm
      (B :: (w.setPmm s' (w.live.erase b) w.others w.marked).blocks S) :=
    (List.Perm.append_left _ (hheld.append_right _)).trans List.perm_middle
  have herase := hperm.erase B
  rwa [List.erase_cons_head] at herase

namespace World.Inv

theorem clientBytes_sub (h : w.Inv g F₀ S) : w.clientBytes ⊆ heldBytes (w.blocks S) := by
  rintro y (⟨b, hb, hy⟩ | hy)
  · exact h.bytes_held hb hy
  · exact others_sub_rest S _ hy

/-- **A call of the PMM keeps the invariant** if it leaves alone the bytes of the blocks that are held
before and after it. -/
theorem pmmCall {others : List PMM.Block} {marked : Set ℕ} {S : ℕ → Slabs} (h : w.Inv g F₀ S)
    (hpmm : PMM.World.Inv g ⟨s', (w.setPmm s' live others marked).blocks S, marked⟩)
    (hcons : PMM.World.Conserved F₀ ⟨s', (w.setPmm s' live others marked).blocks S, marked⟩)
    (hm : Mem.AgreeOn (heldBytes (w.blocks S) ∩ heldBytes ((w.setPmm s' live others marked).blocks S))
      w.heap.pmm.mem s'.mem)
    (hobjects : ∀ a, ((live ++ w.internal).filterMap (Allocation.objectOf a)).Perm
      (w.held.filterMap (Allocation.objectOf a)))
    (hlive : ∀ b ∈ live, b ∈ w.live ∨ 0 < b.size ∧ ∃ n, b.origin = .pages n ∧ PageBacked s'.mem b n) :
    (w.setPmm s' live others marked).Inv g F₀ S ∧ w.Keeps (w.setPmm s' live others marked) := by
  have hslabs : ∀ (w : World) a, a ∈ w.heap.caches →
      frameBytes (S a).frames ⊆ heldBytes (w.blocks S) := fun w a ha => by
    rw [← heldBytes_slabBlocks]
    exact heldBytes_mono fun B hB => (blocks_perm ha S).symm.subset (List.mem_append_left _ hB)
  have hinv : (w.setPmm s' live others marked).Inv g F₀ S := by
    refine h.setPmm hpmm hcons (fun a ha => (h.cache a ha).congr (h.fits ha) fun y hy =>
      hm y ⟨hslabs w a ha hy, hslabs (w.setPmm s' live others marked) a ha hy⟩)
      ⟨hobjects, fun b hb => ?_, fun b hb n ho => ?_⟩
    · exact (hlive b hb).imp_right fun ⟨hpos, n, ho, _⟩ => ⟨⟨n, ho⟩, hpos⟩
    · have hold : b ∈ w.held → PageBacked s'.mem b n := fun hheld => by
        refine (h.pages b hheld n ho).congr fun y hy hy' => hm y ⟨h.meta_rest hheld ho _ hy hy', ?_⟩
        have hblock := (h.pages_spec hheld ho).2.1
        obtain ⟨hn, -, -, -, hmem⟩ := h.pages_spec hheld ho
        have hone := Nat.le_mul_of_pos_left pageSize (show 0 < n by omega)
        exact block_sub_rest (w := w.setPmm s' live others marked) hb hblock S _
          (hmem y hy (by omega))
      rcases List.mem_append.mp hb with hb' | hb'
      · rcases hlive b hb' with hb' | ⟨-, k, ho', hpb⟩
        · exact hold (List.mem_append_left _ hb')
        · rwa [Origin.pages.inj (ho.symm.trans ho')]
      · exact hold (List.mem_append_right _ hb')
  exact ⟨hinv, fun y hy => hm y ⟨h.clientBytes_sub hy.1, hinv.clientBytes_sub hy.2⟩⟩

/-- **`kmalloc` of pages.** -/
theorem allocBlock (h : w.Inv g F₀ S) (hpos : 0 < size) (hn : size + pageSize ≤ n * pageSize)
    (hlt : n < 2 ^ 64) :
    w.heap.pmm.allocPages n = some (0, w.heap.pmm) ∨
    ∃ i s' w', w.heap.pmm.allocPages n = some (i * pageSize, s') ∧ i * pageSize ≠ 0 ∧
      i + 1 < 2 ^ 35 ∧
      w' = w.setPmm { s' with mem := writeMeta s'.mem (slabAddr i) n } (pagesAt i size n :: w.live)
        w.others w.marked ∧
      w'.Inv g F₀ S ∧ w.Keeps w' := by
  rcases h.pmm.allocPages n with ⟨i, s', heq, hne, ho, hal, ht⟩ | heq
  · right
    have hpages : (PMM.Block.mk (i * pageSize) n).pages = BuddyBlocks.block (pagesToOrder n) i :=
      PMM.pages_eq i n
    have ht' : Takes g w.heap.pmm w.heap.pmm.freeFrames (PMM.Block.mk (i * pageSize) n).pages s' := by
      rwa [hpages]
    have hdiv : i * pageSize / pageSize = i := Nat.mul_div_cancel _ (by decide)
    have hinv₁ : PMM.World.Inv g ⟨s', [PMM.Block.mk (i * pageSize) n] ++ w.blocks S, w.marked⟩ :=
      h.pmm.takeBlock ht' (by simp only [hdiv]) ho (by simpa only [hdiv])
    have hcons₁ : PMM.World.Conserved F₀ ⟨s', [⟨i * pageSize, n⟩] ++ w.blocks S, w.marked⟩ :=
      h.conserved.takeBlock ht'
    have hle : n ≤ 2 ^ pagesToOrder n := (pagesToOrder_le_iff hlt).mp le_rfl
    have hlast : i + 1 < 2 ^ 35 := by
      refine (h.pmm.buddy.frames (i + 1) (ht.subset ?_)).lt
      rw [pageSize] at hn
      rw [BuddyBlocks.block, Set.mem_Ico]
      omega
    -- the metadata is in the first page of the block, which no client held
    have hnew : pageBytes i ⊆ heldBytes [⟨i * pageSize, n⟩] := fun y hy =>
      ⟨_, List.mem_singleton.mpr rfl, i, by rw [hpages]; exact BuddyBlocks.self_mem_block _ i, hy⟩
    have hoff := hinv₁.held_off
    rw [heldBytes_append, Set.union_subset_iff] at hoff
    obtain ⟨hinv₂, hF₂⟩ := hinv₁.write (m := writeMeta s'.mem (slabAddr i) n) fun y hy =>
      writeMeta_apply fun hin => hoff.1 (hnew hin) hy
    have hperm : ([PMM.Block.mk (i * pageSize) n] ++ w.blocks S).Perm
        ((w.setPmm { s' with mem := writeMeta s'.mem (slabAddr i) n } (pagesAt i size n :: w.live)
          w.others w.marked).blocks S) := blocks_cons (block_pagesAt i size n) S _
    have hagree : Mem.AgreeOn (heldBytes (w.blocks S)) w.heap.pmm.mem
        (writeMeta s'.mem (slabAddr i) n) := fun y hy => by
      have hnotin : y ∉ pageBytes i := fun hin =>
        Set.disjoint_left.mp hinv₁.apart_bytes (hnew hin) hy
      exact (writeMeta_apply hnotin).trans (ht.agreeOn y (h.pmm.held_off hy))
    have hcall : _ ∧ w.Keeps (w.setPmm { s' with mem := writeMeta s'.mem (slabAddr i) n }
        (pagesAt i size n :: w.live) w.others w.marked) := h.pmmCall (hinv₂.perm hperm _)
      ((hcons₁.congr hF₂).perm hperm) (hagree.mono Set.inter_subset_left)
      (fun a => by
        rw [List.cons_append, filterMap_objectOf_cons, if_neg Origin.noConfusion]
        exact .refl _)
      fun b hb => (List.mem_cons.mp hb).symm.imp_right fun heq => by
        rw [heq]
        exact ⟨hpos, n, rfl, pageBacked_writeMeta hlt hn⟩
    exact ⟨i, s', _, heq, hne, hlast, rfl, hcall⟩
  · exact Or.inl heq

/-- **`kfree` of pages.** -/
theorem freeBlock (h : w.Inv g F₀ S) (hb : b ∈ w.live) (ho : b.origin = .pages n) :
    let w' := w.setPmm (w.heap.pmm.freePages (b.frame * pageSize) n) (w.live.erase b) w.others w.marked
    w'.Inv g F₀ S ∧ w.Keeps w' := by
  have hheld : b ∈ w.held := List.mem_append_left _ hb
  obtain ⟨-, hblock, -⟩ := h.pages_spec hheld ho
  have hmem : (PMM.Block.mk (b.frame * pageSize) n) ∈ w.blocks S :=
    List.mem_append_right _ (List.mem_append_left _ (List.mem_filterMap.mpr ⟨b, hheld, hblock⟩))
  have hg := h.pmm.freeBlock_gives hmem
  have hperm := blocks_erase hb hblock S (w.heap.pmm.freePages (b.frame * pageSize) n)
  have hinv₁ := (h.pmm.free hmem).perm hperm w.marked
  have hoff := hinv₁.held_off
  have hF : (w.heap.pmm.freePages (b.frame * pageSize) n).freeFrames
      = w.heap.pmm.freeFrames ∪ (PMM.Block.mk (b.frame * pageSize) n).pages := hg.freeFrames
  rw [hF] at hoff
  refine h.pmmCall hinv₁ ((h.conserved.free hmem hg).perm hperm) (fun y hy => ?_) (fun a => ?_)
    fun b' hb' => Or.inl (List.mem_of_mem_erase hb')
  · exact hg.agreeOn y (hoff hy.2)
  · have hobj := (held_perm hb).filterMap (Allocation.objectOf a)
    rw [filterMap_objectOf_cons, if_neg (by rw [ho]; exact Origin.noConfusion)] at hobj
    exact hobj.symm

/-- They are free then. -/
theorem freeFrames_freeBlock (h : w.Inv g F₀ S) (hb : b ∈ w.live) (ho : b.origin = .pages n) :
    (w.heap.pmm.freePages (b.frame * pageSize) n).freeFrames
      = w.heap.pmm.freeFrames ∪ BuddyBlocks.block (pagesToOrder n) b.frame := by
  have hheld : b ∈ w.held := List.mem_append_left _ hb
  obtain ⟨-, hblock, -⟩ := h.pages_spec hheld ho
  have hmem : (PMM.Block.mk (b.frame * pageSize) n) ∈ w.blocks S :=
    List.mem_append_right _ (List.mem_append_left _ (List.mem_filterMap.mpr ⟨b, hheld, hblock⟩))
  rw [← PMM.pages_eq]
  exact (h.pmm.freeBlock_gives hmem).freeFrames

end World.Inv

/-! ## The two calls -/

theorem registered_iff : h.registered a = true ↔ a ∈ h.caches := by
  simp only [registered, List.any_eq_true, mem_caches, pools, List.mem_range, beq_iff_eq]
  exact exists_congr fun _ => and_congr_right fun _ => exists_congr fun _ =>
    and_congr_right fun _ => eq_comm

/-- The pages do not start with the magic number of a slab and the address of a cache in use, where a
slab would have them.  What is there is what their client wrote, or what was left there. -/
def Allocation.Unmistaken (h : Heap) (b : Allocation) : Prop :=
  ∀ n, b.origin = .pages n → magic h.pmm.mem b.ptr = slabMagic → cache h.pmm.mem b.ptr ∉ h.caches

/-- Then `is_slub_page` is false. -/
theorem Allocation.Unmistaken.isSlubPage (hu : b.Unmistaken h) (ho : b.origin = .pages n) :
    h.isSlubPage b.ptr = false := by
  rw [Heap.isSlubPage, Bool.and_eq_false_iff, beq_eq_false_iff_ne]
  refine or_iff_not_imp_left.mpr fun hmagic => ?_
  rw [Bool.eq_false_iff, Ne, registered_iff]
  exact hu n ho (not_not.mp hmagic)

/-- The header of a slab is what it was, but for its links. -/
def SameHeader (m m' : Mem) (header : ℕ) : Prop :=
  magic m' header = magic m header ∧ cache m' header = cache m header ∧
    freelist m' header = freelist m header ∧ inuse m' header = inuse m header ∧
    maxObjs m' header = maxObjs m header

/-- **A block goes back to the allocator that made it**, and nothing else changes: `S` and `S'` are the
slabs of the caches before and after the call. -/
structure World.GoesBack (w : World) (S S' : ℕ → Slabs) (b : Allocation) (h' : Heap) : Prop where
  pools : h'.pools = w.heap.pools
  before : ∀ a ∈ w.heap.caches, CacheInv w.heap.pmm.mem a (w.heap.cacheAt a) (S a)
  after : ∀ a ∈ w.heap.caches, CacheInv h'.pmm.mem a (h'.cacheAt a) (S' a)
  /-- Slabs that the block is not in keep their headers; only neighbours are linked anew. -/
  headers : ∀ a ∈ w.heap.caches, ∀ r ∈ (S a).frames, (b.origin = .object a → b.ptr ∉ (S a).live r) →
    SameHeader w.heap.pmm.mem h'.pmm.mem (slabAddr r)
  /-- An object is the first free one of its slab, or the page of the slab is free with it. -/
  object : ∀ a, b.origin = .object a → (∀ r, r ≠ a → S' r = S r) ∧ ∃ q, Freed (S a) q b.ptr (S' a) ∧
    h'.pmm.freeFrames = w.heap.pmm.freeFrames ∪ ({q} \ (S' a).frames)
  /-- Pages are given to `free_pages` as `alloc_pages` gave them. -/
  pages : ∀ n, b.origin = .pages n → S' = S ∧ h'.cacheAt = w.heap.cacheAt ∧
    h'.pmm = w.heap.pmm.freePages (b.frame * pageSize) n ∧
    h'.pmm.freeFrames = w.heap.pmm.freeFrames ∪ BuddyBlocks.block (pagesToOrder n) b.frame
  /-- Blocks that are still held keep their bytes. -/
  keeps : w.Keeps (w.gave h' b)

namespace World.Inv

/-- **`kmalloc` returns and keeps the invariant**, and so does every byte that a client holds.  It
returns null only for size 0 or when the PMM has no block of the size it needs. -/
theorem kmalloc (h : w.Inv g F₀ S) (hsize : size + pageSize ≤ 2 ^ 64) (coreId : ℕ) :
    ∃ x h' S', w.heap.kmalloc coreId size = some (x, h') ∧
      (w.took h' coreId size x).Inv g F₀ S' ∧ w.Keeps (w.took h' coreId size x) ∧
      (x = 0 → size = 0 ∨
        ∃ s', w.heap.pmm.allocPages (w.heap.originOf coreId size).need = some (0, s')) := by
  by_cases hzero : size = 0
  · refine ⟨0, w.heap, S, ?_, h, Mem.AgreeOn.refl _ _, fun _ => Or.inl hzero⟩
    rw [Heap.kmalloc, if_pos hzero]
  have hpos := Nat.pos_of_ne_zero hzero
  by_cases hcache : w.heap.getKmallocCache coreId size = 0
  · -- whole pages
    have horigin : w.heap.originOf coreId size
        = .pages (u64 (u64 (size + pageSize - 1) / pageSize + 1)) := if_neg (not_not.mpr hcache)
    rw [Heap.kmalloc, if_neg hzero]
    dsimp only
    rw [if_neg (not_not.mpr hcache)]
    generalize hn : u64 (u64 (size + pageSize - 1) / pageSize + 1) = n at *
    have hlt : n < 2 ^ 64 := hn ▸ u64_lt _
    have hroom : size + pageSize ≤ n * pageSize := by
      rw [pageSize] at *
      have hbytes : u64 (size + 4096 - 1) = size + 4096 - 1 := u64_of_lt (by omega)
      rw [hbytes, u64_of_lt (by omega)] at hn
      omega
    rcases h.allocBlock hpos hroom hlt with heq | ⟨i, s', w', heq, hne, hi, rfl, hinv, hkeeps⟩
    · refine ⟨0, w.heap, S, ?_, h, Mem.AgreeOn.refl _ _, fun _ => Or.inr ⟨_, by rw [horigin]; exact heq⟩⟩
      rw [heq]
      rfl
    · have hvirt : u64 (i * pageSize + hhdmBase) = slabAddr i := virtAddr_eq (by omega)
      have hptr : u64 (slabAddr i + pageSize) = slabAddr i + pageSize := by
        have hend := slabAddr_lt hi
        rw [slabAddr, hhdmBase, pageSize] at *
        rw [u64_of_lt (by omega)]
      have hx : slabAddr i + pageSize ≠ 0 := by
        rw [pageSize]
        omega
      have htook : w.took { w.heap with
          pmm := { s' with mem := writeMeta s'.mem (slabAddr i) n } } coreId size (slabAddr i + pageSize)
          = w.setPmm { s' with mem := writeMeta s'.mem (slabAddr i) n } (pagesAt i size n :: w.live)
            w.others w.marked := by
        rw [World.took, if_neg hx, horigin]
        rfl
      refine ⟨slabAddr i + pageSize, _, S, ?_, htook ▸ hinv, htook ▸ hkeeps, fun h0 => absurd h0 hx⟩
      rw [heq, Option.map_some, if_neg hne, hvirt, hptr]
      rfl
  · -- an object
    have horigin : w.heap.originOf coreId size = .object (w.heap.getKmallocCache coreId size) :=
      if_pos hcache
    obtain hnone | ⟨pool, hpool, i, hi, heq, hle⟩ := getKmallocCache_cases w.heap coreId size
    · exact absurd hnone hcache
    have ha : w.heap.getKmallocCache coreId size ∈ w.heap.caches :=
      mem_caches.mpr ⟨pool, hpool, i, hi, heq.symm⟩
    obtain ⟨x, c', s', S', halloc, hinv, hkeeps, hnull⟩ := h.allocObject ha hpos
      (by rw [heq, h.objSize pool hpool i hi]; exact hle)
    refine ⟨x, (w.setCache (w.heap.getKmallocCache coreId size) c' s' w.live).heap, S', ?_, ?_, ?_,
      fun h0 => Or.inr ⟨s', by rw [horigin]; exact hnull h0⟩⟩
    · rw [Heap.kmalloc, if_neg hzero]
      dsimp only
      rw [if_pos hcache, halloc]
      rfl
    · rw [World.took, horigin]
      exact hinv
    · exact hkeeps.mono Set.inter_subset_left

/-- A slab with the same objects has the same header. -/
theorem sameHeader (h : w.Inv g F₀ S) (hw : w'.Inv g F₀ S') (hpools : w'.heap.pools = w.heap.pools)
    (ha : a ∈ w.heap.caches) (hr : r ∈ (S a).frames) (hr' : r ∈ (S' a).frames)
    (hfree : (S' a).free r = (S a).free r) (hlive : (S' a).live r = (S a).live r) :
    SameHeader w.heap.pmm.mem w'.heap.pmm.mem (slabAddr r) := by
  have hcaches : w'.heap.caches = w.heap.caches := by
    rw [caches, caches, hpools]
  have hsize : (w'.heap.cacheAt a).objSize = (w.heap.cacheAt a).objSize := by
    obtain ⟨pool, hpool, i, hi, rfl⟩ := mem_caches.mp ha
    rw [h.objSize pool hpool i hi, hw.objSize pool (hpools ▸ hpool) i hi]
  have hslab := (h.cache a ha).slab r hr
  have hslab' := (hw.cache a (hcaches ▸ ha)).slab r hr'
  rw [hfree, hlive] at hslab'
  refine ⟨?_, ?_, ?_, ?_, ?_⟩
  · rw [hslab.magic_eq, hslab'.magic_eq]
  · rw [hslab.cache_eq, hslab'.cache_eq]
  · exact hslab'.chain.head_unique hslab.chain
  · rw [hslab.inuse_eq, hslab'.inuse_eq]
  · rw [hslab.maxObjs_eq, hslab'.maxObjs_eq, hsize]

/-- A call that gives pages back. -/
theorem goesBack_pages (h : w.Inv g F₀ S) (ho : b.origin = .pages n)
    (hinv : (w.setPmm s' (w.live.erase b) w.others w.marked).Inv g F₀ S)
    (hs : s' = w.heap.pmm.freePages (b.frame * pageSize) n)
    (hfree : s'.freeFrames = w.heap.pmm.freeFrames ∪ BuddyBlocks.block (pagesToOrder n) b.frame)
    (hkeeps : w.Keeps (w.setPmm s' (w.live.erase b) w.others w.marked)) :
    w.GoesBack S S b { w.heap with pmm := s' } where
  pools := rfl
  before := h.cache
  after := hinv.cache
  headers a ha r hr _ := h.sameHeader hinv rfl ha hr hr rfl rfl
  object a ho' := absurd (ho.symm.trans ho') Origin.noConfusion
  pages n' ho' := by
    obtain rfl := Origin.pages.inj (ho.symm.trans ho')
    exact ⟨rfl, rfl, hs, hfree⟩
  keeps := hkeeps

/-- `kfree` of an object goes to its cache. -/
theorem kfree_object {c' : KmemCache} (h : w.Inv g F₀ S) (hb : b ∈ w.held) (ho : b.origin = .object a)
    (heq : (w.heap.cacheAt a).free PMM.pageSource a w.heap.pmm b.ptr = some (c', s')) :
    w.heap.kfree b.ptr
      = some { w.heap with pmm := s', cacheAt := Function.update w.heap.cacheAt a c' } := by
  obtain ⟨ha, hx, -, q, hq, hslot⟩ := h.slot hb ho
  have hslab := (h.cache a ha).slab q hq
  have hheader : alignDown b.ptr pageSize = slabAddr q :=
    alignDown_object (h.fits ha) ((h.cache a ha).lt q hq) hslot
  have hslub : w.heap.isSlubPage (slabAddr q) = true := by
    rw [isSlubPage, hslab.magic_eq, hslab.cache_eq, registered_iff.mpr ha]
    rfl
  rw [Heap.kfree, if_neg (h.object_pos ha hx).ne']
  dsimp only
  rw [hheader, if_pos hslub, hslab.cache_eq, heq]
  rfl

/-- A call that gives an object back. -/
theorem goesBack_object {c' : KmemCache} (h : w.Inv g F₀ S)
    (ho : b.origin = .object a) (hinv : (w.setCache a c' s' (w.live.erase b)).Inv g F₀ S')
    (hrest : ∀ r, r ≠ a → S' r = S r) (hfreed : Freed (S a) q b.ptr (S' a))
    (hF : s'.freeFrames = w.heap.pmm.freeFrames ∪ ({q} \ (S' a).frames))
    (hkeeps : w.Keeps (w.setCache a c' s' (w.live.erase b))) :
    w.GoesBack S S' b { w.heap with pmm := s', cacheAt := Function.update w.heap.cacheAt a c' } where
  pools := rfl
  before := h.cache
  after := hinv.cache
  headers a' ha r hr hout := by
    by_cases haa : a' = a
    · subst haa
      have hrq : r ≠ q := fun heq => hout ho (heq ▸ hfreed.live)
      exact h.sameHeader hinv rfl ha hr ((hfreed.frames r hrq).mpr hr) (hfreed.free_of r hrq)
        (hfreed.live_of r hrq)
    · have hsame := hrest a' haa
      exact h.sameHeader hinv rfl ha hr (hsame ▸ hr) (by rw [hsame]) (by rw [hsame])
  object a' ho' := by
    obtain rfl := Origin.object.inj (ho.symm.trans ho')
    exact ⟨hrest, q, hfreed, hF⟩
  pages n ho' := absurd (ho.symm.trans ho') Origin.noConfusion
  keeps := hkeeps

/-- How `kfree` reads the address of a block that is pages. -/
theorem pages_ptr (h : w.Inv g F₀ S) (hb : b ∈ w.held) (ho : b.origin = .pages n) :
    b.ptr ≠ 0 ∧ alignDown b.ptr pageSize = b.ptr ∧ sub64 b.ptr pageSize = slabAddr b.frame ∧
      b.frame < 2 ^ 35 := by
  have hpb := h.pages b hb n ho
  obtain ⟨hn, -, hpages, hend, -⟩ := h.pages_spec hb ho
  have hpos := h.size_pos b hb
  have hlt : b.frame < 2 ^ 35 := by
    refine (hpages.frames b.frame ?_).lt
    rw [PMM.pages_eq]
    exact BuddyBlocks.self_mem_block _ _
  have hptr : b.ptr < 2 ^ 64 := by
    rw [hpb.ptr_eq]
    rw [pageSize] at hend ⊢
    omega
  refine ⟨?_, ?_, ?_, hlt⟩
  · rw [hpb.ptr_eq, pageSize]
    omega
  · rw [alignDown_page hptr, hpb.ptr_eq, slabAddr, hhdmBase, pageSize]
    omega
  · rw [sub64_of_le hptr (by rw [hpb.ptr_eq]; exact Nat.le_add_left _ _), hpb.ptr_eq,
      Nat.add_sub_cancel]

/-- **`kfree` of a block that a client holds returns, keeps the invariant and gives the block back.** -/
theorem kfree (h : w.Inv g F₀ S) (hb : b ∈ w.live) (hu : b.Unmistaken w.heap) :
    ∃ h' S', w.heap.kfree b.ptr = some h' ∧ (w.gave h' b).Inv g F₀ S' ∧ w.GoesBack S S' b h' := by
  have hheld : b ∈ w.held := List.mem_append_left _ hb
  cases ho : b.origin with
  | object a =>
    obtain ⟨c', s', S', heq, hinv, hkeeps, hrest, q, hfreed, hF, -⟩ := h.freeObject hb ho
    exact ⟨_, S', h.kfree_object hheld ho heq, hinv, h.goesBack_object ho hinv hrest hfreed hF
      (hkeeps.mono Set.inter_subset_right)⟩
  | pages n =>
    have hpb := h.pages b hheld n ho
    obtain ⟨hne, hbase, hmeta, hlt⟩ := h.pages_ptr hheld ho
    obtain ⟨hinv, hkeeps⟩ := h.freeBlock hb ho
    refine ⟨_, S, ?_, hinv, h.goesBack_pages ho hinv rfl (h.freeFrames_freeBlock hb ho) hkeeps⟩
    rw [Heap.kfree, if_neg hne]
    dsimp only
    rw [hbase, if_neg (by rw [hu.isSlubPage ho]; exact Bool.false_ne_true), hmeta, if_pos hpb.magic_eq,
      physAddr_eq hlt, hpb.pages_eq]

end World.Inv

end Heap

end MioOS
