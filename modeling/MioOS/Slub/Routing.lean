import MioOS.Slub.HeapRoom

/-!
# Slub/Routing — does `kfree` give a block back to its allocator?

`kfree` decides by the first bytes of the page a block starts in.  A slab starts with its header, but
pages of the PMM start with whatever was left there, and `KmemCache::free` returns a page with the header
still in it.

* `Run.goesBack_iff` — in every run, a block goes back to the allocator that made it if and only if it is
  an object, or its first bytes are not the header of a slab of a cache in use;
* `not_goesBack` — two objects and a block of 4096 bytes.
-/

namespace MioOS

open ByteMemory Intrusive SlabHeader KmemCache PMM

namespace Heap

variable {g : Geometry} {F₀ : Set ℕ} {w w' : World} {S : ℕ → Slabs} {mmap : MemoryMap}
  {k : KernelImage} {s₀ : PMM} {p : PMM.World} {h h' : Heap} {b b' : Allocation} {c c' : KmemCache}
  {s s' : PMM} {a i n q x y pool phys coreId size : ℕ}

/-! ## How much a call of `free_pages` counts -/

theorem usedMemory_freePages (s : PMM) (ptr num : ℕ) : (s.freePages ptr num).usedMemory
    = if ptr = 0 ∨ pagesToOrder num > buddyMaxOrder then s.usedMemory
      else sub64 s.usedMemory (pageSize * 2 ^ pagesToOrder num) := by
  rw [PMM.freePages]
  split_ifs
  · rfl
  · have hmerge := congrArg PMM.usedMemory (scalars_mergeLoop (buddyMaxOrder - pagesToOrder num) s
      (ptr >>> pageShift) (pagesToOrder num))
    exact congrArg (sub64 · (pageSize * 2 ^ pagesToOrder num)) hmerge

/-- What `KmemCache::free` does to the page source: it writes, and gives back one page, or none. -/
theorem free_cases {σ : Type} {P : PageSource σ} {s s' : σ}
    (heq : KmemCache.free P a c s x = some (c', s')) :
    s' = s ∨ ∃ m, s' = P.setMem s m ∨ ∃ ptr, s' = P.freePages (P.setMem s m) ptr 1 := by
  by_cases hx : x = 0
  · rw [KmemCache.free, if_pos hx] at heq
    exact Or.inl (Prod.mk.inj (Option.some.inj heq)).2.symm
  have hheader : magic (P.mem s) (alignDown x pageSize) = slabMagic ∧
      cache (P.mem s) (alignDown x pageSize) = a := by
    rw [KmemCache.free, if_neg hx] at heq
    extract_lets header m at heq
    by_contra hheader
    rw [not_and_or] at hheader
    rw [if_pos hheader] at heq
    exact absurd heq.symm (Option.some_ne_none _)
  rw [free_eq hx hheader.1 hheader.2] at heq
  dsimp only at heq
  generalize pushedIfWasFull c _ _ = r at heq
  rw [returnedIfEmpty] at heq
  split_ifs at heq
  · exact Or.inr ⟨_, Or.inr ⟨_, (Prod.mk.inj (Option.some.inj heq)).2.symm⟩⟩
  · exact Or.inr ⟨_, Or.inl (Prod.mk.inj (Option.some.inj heq)).2.symm⟩

theorem usedMemory_free (heq : KmemCache.free PMM.pageSource a c s x = some (c', s')) :
    s'.usedMemory = s.usedMemory ∨ s'.usedMemory = sub64 s.usedMemory pageSize := by
  rcases free_cases heq with rfl | ⟨m, rfl | ⟨ptr, rfl⟩⟩
  · exact Or.inl rfl
  · exact Or.inl rfl
  · have hfree : PMM.pageSource.freePages (PMM.pageSource.setMem s m) ptr 1
        = PMM.freePages { s with mem := m } ptr 1 := rfl
    rw [hfree, usedMemory_freePages]
    split_ifs
    · exact Or.inl rfl
    · exact Or.inr rfl

/-- A block of at least two pages is not what it gives back. -/
theorem not_one_page {u o : ℕ} (ho : 1 ≤ o) (ho' : o ≤ buddyMaxOrder) :
    ¬ (sub64 u (pageSize * 2 ^ o) = u ∨ sub64 u (pageSize * 2 ^ o) = sub64 u pageSize) := by
  rw [buddyMaxOrder] at ho'
  rw [sub64_eq, sub64_eq, pageSize]
  interval_cases o <;> omega

/-! ## Blocks in use -/

namespace World.Inv

/-- **A block that is taken for a slab** does not go back to the PMM: at most one page does. -/
theorem stays (hinv : w.Inv g F₀ S) (hb : b ∈ w.live) (hu : ¬ b.Unmistaken w.heap)
    (heq : w.heap.kfree b.ptr = some h') (S₁ S₂ : ℕ → Slabs) : ¬ w.GoesBack S₁ S₂ b h' := by
  intro hback
  simp only [Allocation.Unmistaken, not_forall, not_not] at hu
  obtain ⟨n, ho, hmagic, hcache⟩ := hu
  have hheld : b ∈ w.held := List.mem_append_left _ hb
  obtain ⟨hne, hbase, -⟩ := hinv.pages_ptr hheld ho
  obtain ⟨hn, -, hpages, -⟩ := hinv.pages_spec hheld ho
  have hslub : w.heap.isSlubPage b.ptr = true := by
    rw [isSlubPage, hmagic, registered_iff.mpr hcache]
    rfl
  rw [Heap.kfree, if_neg hne] at heq
  dsimp only at heq
  rw [hbase, if_pos hslub] at heq
  obtain ⟨⟨c, s⟩, hfree, rfl⟩ := Option.map_eq_some_iff.mp heq
  obtain ⟨-, -, hpmm, -⟩ := hback.pages n ho
  have hframe : b.frame ≠ 0 := by
    refine (hpages.frames b.frame ?_).pos.ne'
    rw [PMM.pages_eq]
    exact BuddyBlocks.self_mem_block _ _
  have hnum : n < 2 ^ 64 := by
    rw [← (hinv.pages b hheld n ho).pages_eq]
    exact (Mem.load_lt _ 8 _).trans_eq (by norm_num)
  have horder : 1 ≤ pagesToOrder n := by
    by_contra hlow
    have hone := (pagesToOrder_le_iff (k := 0) hnum).mp (by omega)
    omega
  have hused : s.usedMemory = sub64 w.heap.pmm.usedMemory (pageSize * 2 ^ pagesToOrder n) := by
    have hs : s = w.heap.pmm.freePages (b.frame * pageSize) n := hpmm
    rw [hs, usedMemory_freePages, if_neg]
    have hle : pagesToOrder n ≤ buddyMaxOrder := hpages.order_le
    rw [pageSize]
    omega
  have hone := usedMemory_free hfree
  rw [hused] at hone
  exact not_one_page horder hpages.order_le hone

/-- **A block goes back exactly when it is not taken for a slab.** -/
theorem goesBack_iff_unmistaken (hinv : w.Inv g F₀ S) (hb : b ∈ w.live) :
    (∃ h' S S', w.heap.kfree b.ptr = some h' ∧ w.GoesBack S S' b h') ↔ b.Unmistaken w.heap := by
  constructor
  · rintro ⟨h', S₁, S₂, heq, hback⟩
    by_contra hu
    exact hinv.stays hb hu heq S₁ S₂ hback
  · intro hu
    obtain ⟨h', S', heq, -, hback⟩ := hinv.kfree hb hu
    exact ⟨h', S, S', heq, hback⟩

end World.Inv

/-! ## Sizes that wrap -/

/-- **A call with a size that wraps** takes a page and writes to it, as any client of the PMM could. -/
theorem World.Inv.wraps_run (hinv : w.Inv g F₀ S) (hsize : 2 ^ 64 < size + pageSize) (hx : x ≠ 0)
    (heq : w.heap.kmalloc coreId size = some (x, h')) :
    ∃ i n, w.heap.originOf coreId size = .pages n ∧ x = slabAddr i + pageSize ∧ x < 2 ^ 64 ∧
      i < 2 ^ 35 ∧ h'.pmm.mem.load 4 (slabAddr i) = bypassMagic ∧
      h'.pmm.mem.load 8 (slabAddr i + 4) = n ∧ h' = { w.heap with pmm := h'.pmm } ∧
      Run w (w.setPmm h'.pmm w.live (⟨i * pageSize, n⟩ :: w.others) w.marked) := by
  have hlarge : 2048 < size := by
    rw [pageSize] at hsize
    omega
  have ho := originOf_of_large hlarge w.heap coreId
  have hn : u64 (u64 (size + pageSize - 1) / pageSize + 1) < 2 ^ 64 := u64_lt _
  generalize u64 (u64 (size + pageSize - 1) / pageSize + 1) = n at ho hn
  rcases hinv.pmm.allocPages n with ⟨i, s', hal, hne, -, -, ht⟩ | hal
  · have hi := (hinv.pmm.buddy.frames i (ht.subset (BuddyBlocks.self_mem_block _ i))).lt
    have hend : slabAddr i + pageSize ≤ 2 ^ 64 := slabAddr_lt hi
    rw [kmalloc_pages (by omega) ho hal, if_neg hne, virtAddr_eq hi] at heq
    obtain ⟨rfl, rfl⟩ := Prod.mk.inj (Option.some.inj heq)
    have hlt : slabAddr i + pageSize < 2 ^ 64 := by
      rcases hend.lt_or_eq with hlt | hend
      · exact hlt
      · rw [hend, u64_eq, Nat.mod_self] at hx
        exact absurd rfl hx
    have hpages : i ∈ (PMM.Block.mk (i * pageSize) n).pages := by
      rw [PMM.pages_eq]
      exact BuddyBlocks.self_mem_block _ i
    have hwrite : Mem.AgreeOn (w.setPmm s' w.live (⟨i * pageSize, n⟩ :: w.others) w.marked).writableᶜ
        s'.mem (writeMeta s'.mem (slabAddr i) n) := fun y hy =>
      writeMeta_apply fun hin => hy (Or.inr ⟨_, List.mem_cons_self, i, hpages, hin⟩)
    refine ⟨i, n, ho, u64_of_lt hlt, u64_lt _, hi, ?_, Mem.load_store_word hn, rfl,
      (Relation.ReflTransGen.single (.call (.alloc hal hne))).tail (.write hwrite)⟩
    exact (Mem.load_store_of_disjoint (by omega)).trans (Mem.load_store_of_lt (by decide))
  · rw [kmalloc_pages (by omega) ho hal, if_pos rfl] at heq
    exact absurd (Prod.mk.inj (Option.some.inj heq)).1.symm hx

/-- **The page goes back**, if it is not taken for a slab. -/
theorem World.Inv.kfree_wraps (hinv : w.Inv g F₀ S) (hmap : g.maxPfn = maxPfnOf mmap)
    (hsize : 2 ^ 64 < size + pageSize) (hx : x ≠ 0)
    (heq : w.heap.kmalloc coreId size = some (x, h'))
    (hu : Allocation.Unmistaken h' ⟨x, size, w.heap.originOf coreId size⟩) :
    ∃ h'' S₁ S₂, h'.kfree x = some h'' ∧ (w.took h' coreId size x).GoesBack S₁ S₂
      ⟨x, size, w.heap.originOf coreId size⟩ h'' := by
  obtain ⟨i, n, ho, hxi, hlt, hi, hmagic, hpages, hheap, hrun⟩ := hinv.wraps_run hsize hx heq
  obtain ⟨s, rfl⟩ : ∃ s, h' = { w.heap with pmm := s } := ⟨_, hheap⟩
  obtain ⟨S₁, hinv₁⟩ := hrun.inv hinv hmap
  have hlive : (w.took { w.heap with pmm := s } coreId size x).live = ⟨x, size, .pages n⟩ :: w.live := by
    rw [World.took, if_neg hx, ho]
  rw [ho] at hu ⊢
  have hframe : Allocation.frame ⟨x, size, .pages n⟩ = i := by
    rw [Allocation.frame, hxi, slabAddr, Nat.add_sub_cancel, Nat.add_sub_cancel_left,
      Nat.mul_div_cancel _ (by decide)]
  -- the PMM's client gives the block back
  have hcall : PMM.Call ⟨s, ⟨i * pageSize, n⟩ :: w.others, w.marked⟩
      ⟨s.freePages (i * pageSize) n, w.others, w.marked⟩ := by
    have hfree := PMM.Call.free (w := ⟨s, ⟨i * pageSize, n⟩ :: w.others, w.marked⟩)
      List.mem_cons_self
    rwa [List.erase_cons_head] at hfree
  obtain ⟨hinv₂, hkeeps⟩ := hinv₁.otherCall hmap hcall
  have hfree : (s.freePages (i * pageSize) n).freeFrames
      = s.freeFrames ∪ BuddyBlocks.block (pagesToOrder n) i := by
    rw [← PMM.pages_eq]
    exact (hinv₁.pmm.freeBlock_gives (List.mem_append_right _ (List.mem_append_right _
      List.mem_cons_self))).freeFrames
  have hbase : alignDown x pageSize = x := by
    rw [alignDown_page hlt, hxi, slabAddr, hhdmBase, pageSize]
    omega
  have hmeta : sub64 x pageSize = slabAddr i := by
    rw [sub64_of_le hlt (by rw [hxi]; exact Nat.le_add_left _ _), hxi, Nat.add_sub_cancel]
  have hkfree : Heap.kfree { w.heap with pmm := s } x
      = some { w.heap with pmm := s.freePages (i * pageSize) n } := by
    rw [Heap.kfree, if_neg hx]
    dsimp only
    rw [hbase, if_neg (by rw [hu.isSlubPage rfl]; exact Bool.false_ne_true), hmeta, if_pos hmagic,
      physAddr_eq hi, hpages]
  refine ⟨_, S₁, S₁, hkfree, ⟨rfl, hinv₁.cache, hinv₂.cache,
    fun a ha r hr _ => hinv₁.sameHeader hinv₂ rfl ha hr hr rfl rfl,
    fun a ho' => absurd ho' Origin.noConfusion, fun n' ho' => ?_, ?_⟩⟩
  · obtain rfl := Origin.pages.inj ho'
    rw [hframe]
    exact ⟨rfl, rfl, rfl, hfree⟩
  · have hgave : World.clientBytes ((w.took { w.heap with pmm := s } coreId size x).gave
        { w.heap with pmm := s.freePages (i * pageSize) n } ⟨x, size, .pages n⟩) = w.clientBytes := by
      rw [World.clientBytes, World.held, World.gave, hlive, List.erase_cons_head]
      rfl
    refine hkeeps.mono fun y hy => ?_
    have hclient : y ∈ w.clientBytes := hgave ▸ hy.2
    exact ⟨hclient.imp_right (heldBytes_mono (List.subset_cons_self _ _) ·), hclient⟩

/-! ## Runs -/

/-- **In every run a block goes back exactly when it is not taken for a slab.**  A block of a size that
wraps has no bytes of its own; it goes back too, unless what is behind its page is taken for a slab. -/
theorem Run.goesBack_iff (hwf : mmap.WellFormed) (hboot : Boots k mmap s₀)
    (hreach : Reaches mmap (PMM.World.start s₀) p) (hpos : 0 < pool) (hlt : pool + 256 ≤ 2 ^ 64)
    (hapart : ∀ q ∈ s₀.freeFrames, slabAddr q + 4096 ≤ pool ∨ pool + 256 ≤ slabAddr q)
    (hrun : Run (World.start pool p) w) :
    (∀ b ∈ w.live, (∃ h' S S', w.heap.kfree b.ptr = some h' ∧ w.GoesBack S S' b h') ↔
      b.Unmistaken w.heap) ∧
    ∀ coreId size x h', 2 ^ 64 < size + pageSize → w.heap.kmalloc coreId size = some (x, h') → x ≠ 0 →
      Allocation.Unmistaken h' ⟨x, size, w.heap.originOf coreId size⟩ →
      ∃ h'' S S', h'.kfree x = some h'' ∧
        (w.took h' coreId size x).GoesBack S S' ⟨x, size, w.heap.originOf coreId size⟩ h'' := by
  obtain ⟨g, hmap, hinv₀, hcons₀, -⟩ := hboot.start hwf
  have hstart := start_inv (hreach.inv hmap hinv₀) (hreach.conserved hmap hinv₀ hcons₀) hpos hlt hapart
  obtain ⟨S, hinv⟩ := hrun.inv hstart hmap
  exact ⟨fun b hb => hinv.goesBack_iff_unmistaken hb, fun coreId size x h' hsize heq hx hu =>
    hinv.kfree_wraps hmap hsize hx heq hu⟩

/-- A block of three pages goes back. -/
theorem goesBack_lowAndHigh : ∃ s₀ w x h' S S', Boots imageAt1M lowAndHigh s₀ ∧
    Run (World.onLowAndHigh s₀) w ∧ w.live = [⟨x, 5000, .pages 3⟩] ∧ w.heap.kfree x = some h' ∧
    w.GoesBack S S' ⟨x, 5000, .pages 3⟩ h' := by
  obtain ⟨s₀, g, hboot, -, hinv, hapart, hfree⟩ := onLowAndHigh_inv
  obtain ⟨w₁, w₂, x, S₂, hrun₁, hlive₁, hrun₂, hlive₂, -, hu⟩ := exists_unmistaken hinv 0 5000
    (by decide) (by decide) (allocPages_5000 hinv hfree)
  rw [originOf_5000] at hlive₁ hu
  have hb : ⟨x, 5000, .pages 3⟩ ∈ w₂.live := by
    rw [hlive₂, hlive₁]
    exact List.mem_cons_self
  obtain ⟨h', S₁, S₂, heq, hback⟩ := ((Run.goesBack_iff lowAndHigh_wellFormed hboot .refl (by decide)
    (by decide) hapart (hrun₁.trans hrun₂)).1 _ hb).mpr hu
  exact ⟨s₀, w₂, x, h', S₁, S₂, hboot, hrun₁.trans hrun₂, hlive₂.trans hlive₁, heq, hback⟩

/-! ## Headers that are left behind -/

namespace World.Inv

/-- The page of an object is a slab of its cache. -/
theorem page_object (hinv : w.Inv g F₀ S) (hb : b ∈ w.held) (ho : b.origin = .object a) :
    ∃ q ∈ (S a).frames, b.frames = {q} ∧ q ∈ F₀ := by
  obtain ⟨ha, -, -, q, hq, hslot⟩ := hinv.slot hb ho
  exact ⟨q, hq, hinv.frames_of_slot ha ho hslot, ((hinv.lends ha).subset hq).1⟩

/-- Caches have no page in common. -/
theorem slabs_apart (hinv : w.Inv g F₀ S) {r : ℕ} (ha : a ∈ w.heap.caches) (hr : r ∈ w.heap.caches)
    (hne : r ≠ a) : Disjoint (S a).frames (S r).frames := by
  refine Set.disjoint_left.mpr fun q hq hq' => ?_
  have hbyte : ∀ {H : Set ℕ}, q ∈ H → slabAddr q ∈ frameBytes H := fun hq =>
    ⟨q, hq, le_rfl, Nat.lt_add_of_pos_right (by decide)⟩
  exact Set.disjoint_left.mp (hinv.apart_rest ha) (hbyte hq) (slabs_sub_rest hr hne S (hbyte hq'))

end World.Inv

/-- The page starts like a slab of the cache. -/
def LooksLikeSlab (m : Mem) (q a : ℕ) : Prop :=
  magic m (slabAddr q) = slabMagic ∧ cache m (slabAddr q) = a

theorem LooksLikeSlab.congr {m m' : Mem} (h : LooksLikeSlab m q a)
    (hm : ∀ y ∈ pageBytes q, m' y = m y) : LooksLikeSlab m' q a := by
  have hbyte : ∀ y, slabAddr q ≤ y → y < slabAddr q + 4096 → m' y = m y := fun y hy hy' =>
    hm y (mem_pageBytes.mpr ⟨hy, hy'⟩)
  exact ⟨(Mem.load_congr fun i hi => hbyte _ (by omega) (by omega)).trans h.1,
    (Mem.load_congr fun i hi => hbyte _ (by omega) (by omega)).trans h.2⟩

/-- A page whose head the allocator does not own keeps what is there. -/
theorem page_of_agreeOn {W : Set ℕ} {m m' : Mem} (hm : Mem.AgreeOn (owned g W)ᶜ m m')
    (hframe : g.Frame q) (hq : q ∉ W) : ∀ y ∈ pageBytes q, m' y = m y := by
  intro y hy
  refine hm y fun hin => ?_
  rcases hin with hbit | ⟨r, hr, hnode⟩
  · have hoff := hframe.off_bitmap
    rw [Geometry.bitmap, Set.mem_Ico] at hbit
    rw [pageBytes, Set.mem_Ico] at hy
    omega
  · exact hq (eq_of_mem_pageBytes (nodeBytes_subset r hnode) hy ▸ hr)

/-- **A page that is merged into a block before it keeps the header of its slab** when the last object of
the slab is freed. -/
theorem World.Inv.kfree_leaves (hinv : w.Inv g F₀ S) (hb : b ∈ w.live) (ho : b.origin = .object a)
    (hframes : b.frames = {q}) (hlast : ∀ b' ∈ w.live.erase b ++ w.internal, q ∉ b'.frames)
    (hmerge : q ∉ BuddyBlocks.starts buddyMaxOrder (w.heap.pmm.freeFrames ∪ {q})) :
    ∃ h' S', w.heap.kfree b.ptr = some h' ∧ (w.gave h' b).Inv g F₀ S' ∧ h'.pools = w.heap.pools ∧
      LooksLikeSlab h'.pmm.mem q a := by
  have hheld : b ∈ w.held := List.mem_append_left _ hb
  obtain ⟨ha, -⟩ := hinv.object b hheld a ho
  obtain ⟨c', s', S', heq, hinv', -, -, r, hfreed, -, hleaves⟩ := hinv.freeObject hb ho
  have hslot := ((hinv.cache a ha).slab r hfreed.mem).mem_live hfreed.live
  obtain rfl : q = r :=
    Set.singleton_eq_singleton_iff.mp (hframes.symm.trans (hinv.frames_of_slot ha ho hslot))
  have hout : q ∉ (S' a).frames := fun hq => by
    obtain ⟨b', hb', -, hqb⟩ := (hinv'.slab_iff ha).mp hq
    exact hlast b' hb' hqb
  obtain ⟨s₁, hlends, hmagic, hcache, rfl⟩ := hleaves hout
  have hF : s₁.freeFrames = w.heap.pmm.freeFrames :=
    hlends.freeFrames_eq.trans (hinv.lends ha).freeFrames_eq.symm
  obtain ⟨⟨l, -, hl, hinv₁, -⟩, -⟩ := hlends
  have hql : q ∈ l := (Set.ext_iff.mp hl q).mpr hfreed.mem
  have hblock := hinv₁.held _ (List.mem_append_left _ (List.mem_map_of_mem hql))
  have hone : (frameBlock q).pages = BuddyBlocks.block (pagesToOrder 1) q := PMM.pages_eq q 1
  have hpage : q ∈ (frameBlock q).pages := by
    rw [pages_frameBlock]
    rfl
  have hframe := hblock.frames q hpage
  have hdisj := hblock.disjoint
  have hnotin : q ∉ w.heap.pmm.freeFrames := fun hq =>
    Set.disjoint_left.mp hdisj hpage (hF.symm ▸ hq)
  have hbuddy : BuddyInv g s₁ w.heap.pmm.freeFrames := hF ▸ hinv₁.buddy
  have hmem := freePages_agreeOn hbuddy
    (W := BuddyBlocks.starts buddyMaxOrder w.heap.pmm.freeFrames ∪
      BuddyBlocks.starts buddyMaxOrder (w.heap.pmm.freeFrames ∪ {q}))
    (by decide) (one_dvd q) (hone ▸ hblock.frames) (hF ▸ hone ▸ hdisj) Set.subset_union_left
    (by rw [← hone, pages_frameBlock]; exact Set.subset_union_right)
  have hpagebytes := page_of_agreeOn hmem hframe
    (not_or.mpr ⟨fun hq => hnotin (BuddyBlocks.starts_subset hq), hmerge⟩)
  exact ⟨_, S', hinv.kfree_object hheld ho heq, hinv', rfl,
    LooksLikeSlab.congr ⟨hmagic, hcache⟩ hpagebytes⟩

/-- **A page in the middle of a block that is not split keeps what is there** when the block is taken. -/
theorem World.Inv.kmalloc_keeps (hinv : w.Inv g F₀ S) (hpos : 0 < size)
    (ho : w.heap.originOf coreId size = .pages n) (hx : x ≠ 0)
    (heq : w.heap.kmalloc coreId size = some (x, h'))
    (hexact : ∀ k p, pagesToOrder n ≤ k →
      BuddyBlocks.MaxBlock buddyMaxOrder w.heap.pmm.freeFrames k p → k = pagesToOrder n)
    (hq : q ∈ w.heap.pmm.freeFrames)
    (hstart : q ∉ BuddyBlocks.starts buddyMaxOrder w.heap.pmm.freeFrames) :
    (∃ i ∈ BuddyBlocks.starts buddyMaxOrder w.heap.pmm.freeFrames, x = slabAddr i + pageSize) ∧
      ∀ y ∈ pageBytes q, h'.pmm.mem y = w.heap.pmm.mem y := by
  obtain ⟨i, s', hal, hxi⟩ := hinv.kmalloc_ptr hpos ho hx heq
  rcases hinv.pmm.allocPages n with ⟨r, s₁, hal₁, hne, horder, haligned, ht⟩ | hal₁
  · obtain ⟨hir, rfl⟩ := Prod.mk.inj (Option.some.inj (hal.symm.trans hal₁))
    obtain rfl : i = r := Nat.eq_of_mul_eq_mul_right (by decide) hir
    have hi : i ∈ BuddyBlocks.starts buddyMaxOrder w.heap.pmm.freeFrames := by
      obtain ⟨k, r, hmax, hin⟩ := BuddyBlocks.exists_maxBlock buddyMaxOrder
        (ht.subset (BuddyBlocks.self_mem_block _ i))
      have hk := hexact k r (hmax.le_of_subset horder haligned ht.subset hin
        (BuddyBlocks.self_mem_block _ i)) hmax
      rw [hk] at hin hmax
      have hbase := BuddyBlocks.base_eq_of_mem hmax.aligned hin
      rw [BuddyBlocks.base_of_dvd haligned] at hbase
      exact hbase ▸ hmax.mem_starts
    have hframe := hinv.pmm.buddy.frames q hq
    have hi0 : i ≠ 0 := fun h0 => hne (by rw [h0, Nat.zero_mul])
    have hlt := (hinv.pmm.buddy.frames i (BuddyBlocks.starts_subset hi)).lt
    have hpage := page_of_agreeOn
      (hinv.pmm.buddy.allocPages_exact hinv.pmm.initialized hexact hal hi0) hframe hstart
    rw [kmalloc_pages hpos ho hal, if_neg hne, virtAddr_eq hlt] at heq
    obtain ⟨-, rfl⟩ := Prod.mk.inj (Option.some.inj heq)
    refine ⟨⟨i, hi, hxi⟩, fun y hy => ?_⟩
    have hout : y ∉ pageBytes i := fun hin => hstart (eq_of_mem_pageBytes hin hy ▸ hi)
    exact (writeMeta_apply hout).trans (hpage y hy)
  · rw [kmalloc_pages hpos ho hal₁, if_pos rfl] at heq
    exact absurd (Prod.mk.inj (Option.some.inj heq)).1.symm hx

/-! ## A machine with two pages -/

/-- Two pages below the kernel, and one above it, for the bitmaps. -/
def twoPages : MemoryMap := [⟨0x4000, 0x2000, true, 1, false⟩, ⟨0x200000, 0x1000, true, 1, false⟩]

theorem twoPages_wellFormed : twoPages.WellFormed := by
  refine ⟨List.pairwise_pair.mpr fun _ _ => ?_, by decide⟩
  refine Set.disjoint_left.mpr fun x hx hx' => ?_
  have h1 := hx.2
  have h2 := hx'.1
  simp only at h1 h2
  omega

theorem twoPages_boots : ∃ s₀, Boots imageAt1M twoPages s₀ ∧ s₀.freeFrames = {4, 5} := by
  obtain ⟨s, phys, s₁, s', g, hrun, halloc, hinit, hswitched⟩ :=
    switch_of_room twoPages_wellFormed (by decide) 0x103000 0x100 (by decide) rfl (by decide +kernel)
  refine ⟨s', ⟨_, _, s, [], [], hrun, hinit⟩, ?_⟩
  -- the bitmaps are in the page above the kernel
  have hbitmap : bitmapPagesOf twoPages = 1 := by decide +kernel
  have hmax : max imageAt1M.endPhys (mbEnd (withBlock 0x103000 0x100) (hhdmBase + 0x103000))
      = 0x103100 := by
    rw [mbEnd_eq (multibootBlock_withBlock (by decide))]
    rfl
  rw [hmax] at hrun
  obtain ⟨hrange, -⟩ := bitmapRange twoPages_wellFormed hrun halloc
  have hbp := hrange.bp_eq
  rw [hbitmap] at halloc hbp
  have hphys : 0x200000 ≤ phys := by
    obtain ⟨e, -, hcut⟩ := ((hrun.alloc le_rfl (by decide) halloc).inv twoPages_wellFormed).cut _
      List.mem_cons_self
    have hahead := hcut.ahead
    have hstart := hcut.start_le
    rcases List.mem_pair.mp hcut.mem with rfl | rfl
    · exact absurd hahead (by decide)
    · exact le_trans (by decide +kernel) hstart
  rw [hswitched.inv.freeFrames_eq]
  ext q
  rw [Set.mem_insert_iff, Set.mem_singleton_iff]
  constructor
  · rintro ⟨⟨e, he, -, hlow, hhigh⟩, hres⟩
    rw [Reserved, not_or, not_or] at hres
    rw [pageSize] at *
    rcases List.mem_pair.mp he with rfl | rfl
    · dsimp only at hlow hhigh
      omega
    · dsimp only at hlow hhigh
      omega
  · intro hq
    refine ⟨⟨_, List.mem_cons_self, rfl, ?_, ?_⟩, ?_⟩
    · rcases hq with rfl | rfl <;> decide
    · rcases hq with rfl | rfl <;> decide
    · rintro (h0 | ⟨hc, -⟩ | ⟨hc, -⟩)
      · omega
      · rw [pageSize] at hc
        change 0x100000 ≤ _ at hc
        omega
      · rw [pageSize] at hc
        omega

/-- The heap of this machine. -/
def World.onTwoPages (s₀ : PMM) : World := World.start 0xFFFFFFFF80200000 (PMM.World.start s₀)

theorem onTwoPages_inv : ∃ s₀ g, Boots imageAt1M twoPages s₀ ∧
    (World.onTwoPages s₀).Inv g {4, 5} fun _ => Slabs.none := by
  obtain ⟨s₀, hboot, hfree⟩ := twoPages_boots
  obtain ⟨g, -, hinv₀, hcons₀, -⟩ := hboot.start twoPages_wellFormed
  rw [hfree] at hcons₀
  refine ⟨s₀, g, hboot, start_inv hinv₀ hcons₀ (by decide) (by decide) fun q hq => Or.inl ?_⟩
  rw [Set.mem_insert_iff, Set.mem_singleton_iff] at hq
  rw [slabAddr, hhdmBase, pageSize]
  omega

/-- The second page is not where a block starts. -/
theorem notMem_starts : 5 ∉ BuddyBlocks.starts buddyMaxOrder ({4, 5} : Set ℕ) := by
  rintro ⟨k, hmax⟩
  have hk := hmax.le_of_subset (j := 1) (r := 4) (q := 5) (by decide) (by decide)
    (fun q hq => by
      rw [BuddyBlocks.mem_block] at hq
      rw [Set.mem_insert_iff, Set.mem_singleton_iff]
      omega) (BuddyBlocks.self_mem_block _ _) ⟨by decide, by decide⟩
  have hdvd := (pow_dvd_pow 2 hk).trans hmax.aligned
  omega

/-- Both pages are one block. -/
theorem order_of_maxBlock {k r : ℕ} (hk : 1 ≤ k)
    (hmax : BuddyBlocks.MaxBlock buddyMaxOrder ({4, 5} : Set ℕ) k r) : k = 1 := by
  by_contra hne
  have hfour : 2 ^ 2 ≤ 2 ^ k := Nat.pow_le_pow_right two_pos (by omega)
  have hfirst := hmax.subset (BuddyBlocks.self_mem_block k r)
  have hlast := hmax.subset (show r + 3 ∈ BuddyBlocks.block k r from ⟨by omega, by omega⟩)
  rw [Set.mem_insert_iff, Set.mem_singleton_iff] at hfirst hlast
  omega

/-! ## A stale header -/

namespace World.Inv

/-- Without other clients of the PMM, a page is free unless a block is in it. -/
theorem freeFrames_alone (hinv : w.Inv g F₀ S) (hothers : w.others = []) (hmarked : w.marked = ∅) :
    w.heap.pmm.freeFrames = F₀ \ {q | ∃ b ∈ w.held, q ∈ b.frames} := by
  rw [hinv.no_leak, hothers, hmarked, Set.union_empty, PMM.World.livePages]
  simp

/-- While a page is free, a cache has an object. -/
theorem kmalloc_object (hinv : w.Inv g F₀ S) (hpos : 0 < size) (hsize : size + pageSize ≤ 2 ^ 64)
    (ho : w.heap.originOf coreId size = .object a) (hfree : w.heap.pmm.freeFrames.Nonempty) :
    ∃ x h' S', w.heap.kmalloc coreId size = some (x, h') ∧ (w.took h' coreId size x).Inv g F₀ S' ∧
      (w.took h' coreId size x).live = ⟨x, size, .object a⟩ :: w.live ∧ h'.pools = w.heap.pools := by
  obtain ⟨x, h', S', heq, hinv', -, hnull⟩ := hinv.kmalloc hsize coreId
  have hx : x ≠ 0 := by
    intro h0
    rcases hnull h0 with hzero | ⟨s', hs'⟩
    · omega
    · obtain ⟨i, -, s, hal, hne, -⟩ := hinv.pmm.exists_page hfree
      rw [ho] at hs'
      exact hne (Prod.mk.inj (Option.some.inj (hal.symm.trans hs'))).1
  refine ⟨x, h', S', heq, hinv', ?_, (kmalloc_frame heq).1⟩
  rw [World.took, if_neg hx, ho]

/-- A block of both pages is taken for a slab if there is the header of one in the second. -/
theorem mistaken_of_stale (hinv : w.Inv g {4, 5} S) (hfree : w.heap.pmm.freeFrames = {4, 5})
    (hcache : a ∈ w.heap.caches) (hlooks : LooksLikeSlab w.heap.pmm.mem 5 a) :
    ∃ x h', w.heap.kmalloc 0 4096 = some (x, h') ∧ x ≠ 0 ∧ ¬ ∃ h'' S S', h'.kfree x = some h'' ∧
      (w.took h' 0 4096 x).GoesBack S S' ⟨x, 4096, .pages 2⟩ h'' := by
  have ho : w.heap.originOf 0 4096 = .pages 2 :=
    (originOf_of_large (by decide) _ 0).trans (congrArg Origin.pages (by decide +kernel))
  have hone : pagesToOrder 2 = 1 := rfl
  obtain ⟨x, h', S', heq, hinv', -, hnull⟩ := hinv.kmalloc (show 4096 + pageSize ≤ 2 ^ 64 by decide) 0
  have hx : x ≠ 0 := by
    intro h0
    rcases hnull h0 with hzero | ⟨s', hs'⟩
    · exact absurd hzero (by decide)
    · rw [ho] at hs'
      refine hinv.pmm.allocPages_ne (q := 4) (by decide) (by decide) (fun q hq => ?_) s' hs'
      rw [Origin.need, hone, BuddyBlocks.mem_block] at hq
      rw [show _ = _ from hfree, Set.mem_insert_iff, Set.mem_singleton_iff]
      omega
  obtain ⟨⟨i, hi, rfl⟩, hpage⟩ := hinv.kmalloc_keeps (q := 5) (by decide) ho hx heq
    (by rw [hfree, hone]; exact fun _ _ => order_of_maxBlock)
    (by rw [hfree]; exact Set.mem_insert_of_mem _ rfl) (by rw [hfree]; exact notMem_starts)
  -- the block starts in the first page
  obtain rfl : i = 4 := by
    rw [hfree] at hi
    have hin := BuddyBlocks.starts_subset hi
    rcases hin with rfl | rfl
    · rfl
    · exact absurd hi notMem_starts
  have hlooks' : LooksLikeSlab h'.pmm.mem 5 a := hlooks.congr hpage
  have hcaches : h'.caches = w.heap.caches := by
    rw [caches, caches, (kmalloc_frame heq).1]
  have hptr : slabAddr 4 + pageSize = slabAddr 5 := rfl
  have hb : ⟨slabAddr 4 + pageSize, 4096, .pages 2⟩ ∈
      (w.took h' 0 4096 (slabAddr 4 + pageSize)).live := by
    rw [World.took, if_neg hx, ho]
    exact List.mem_cons_self
  have hu : ¬ Allocation.Unmistaken h' ⟨slabAddr 4 + pageSize, 4096, .pages 2⟩ := fun hu => by
    have hout := hu 2 rfl (by rw [hptr]; exact hlooks'.1)
    rw [hptr, hlooks'.2, hcaches] at hout
    exact hout hcache
  refine ⟨_, h', heq, hx, ?_⟩
  rintro ⟨h'', S₁, S₂, heq', hback⟩
  exact hinv'.stays hb hu heq' S₁ S₂ hback

/-- **Two objects on two pages.**  The second page freed is merged into the block of the first, so its
header stays, and a block of both pages is taken for a slab. -/
theorem mistaken (hinv : w.Inv g {4, 5} S) (hlive : w.live.Perm [b, b']) (hinternal : w.internal = [])
    (hothers : w.others = []) (hmarked : w.marked = ∅) (ho : b.origin = .object a)
    (ho' : b'.origin = .object i) (hframes : b'.frames = {5}) :
    ∃ h₃ h₄ x h₅, w.heap.kfree b.ptr = some h₃ ∧ h₃.kfree b'.ptr = some h₄ ∧
      h₄.kmalloc 0 4096 = some (x, h₅) ∧ x ≠ 0 ∧ ¬ ∃ h₆ S S', h₅.kfree x = some h₆ ∧
      (((w.gave h₃ b).gave h₄ b').took h₅ 0 4096 x).GoesBack S S' ⟨x, 4096, .pages 2⟩ h₆ := by
  -- the first page is free
  obtain ⟨h₃, S₃, heq₃, hinv₃, -⟩ := hinv.kfree (hlive.symm.subset List.mem_cons_self)
    fun n hn => absurd (ho.symm.trans hn) Origin.noConfusion
  have hlive₃ : (w.gave h₃ b).live = [b'] := by
    have herase := hlive.erase b
    rw [List.erase_cons_head] at herase
    exact List.perm_singleton.mp herase
  have hheld₃ : (w.gave h₃ b).held = [b'] := by
    rw [World.held, hlive₃]
    exact congrArg ([b'] ++ ·) hinternal
  have hF₃ : (w.gave h₃ b).heap.pmm.freeFrames ∪ {5} = {4, 5} := by
    rw [hinv₃.freeFrames_alone hothers hmarked, hheld₃]
    ext q
    simp [hframes]
    omega
  -- and the second one
  have hb' : b' ∈ (w.gave h₃ b).live := hlive₃ ▸ List.mem_cons_self
  have hrest : (w.gave h₃ b).live.erase b' ++ (w.gave h₃ b).internal = [] := by
    rw [hlive₃, List.erase_cons_head]
    exact hinternal
  obtain ⟨h₄, S₄, heq₄, hinv₄, hpools₄, hlooks⟩ := hinv₃.kfree_leaves hb' ho' hframes
    (by rw [hrest]; exact fun _ hmem => absurd hmem List.not_mem_nil) (by rw [hF₃]; exact notMem_starts)
  have hF₄ : ((w.gave h₃ b).gave h₄ b').heap.pmm.freeFrames = {4, 5} := by
    have hheld₄ : ((w.gave h₃ b).gave h₄ b').held = [] := hrest
    rw [hinv₄.freeFrames_alone hothers hmarked, hheld₄]
    simp
  have hcache : i ∈ h₄.caches := by
    obtain ⟨hi, -⟩ := hinv₃.object b' (hheld₃ ▸ List.mem_cons_self) i ho'
    rw [caches, hpools₄]
    exact hi
  obtain ⟨x, h₅, heq₅, hx, hnot⟩ := hinv₄.mistaken_of_stale hF₄ hcache hlooks
  exact ⟨h₃, h₄, x, h₅, heq₃, heq₄, heq₅, hx, hnot⟩

end World.Inv

/-- The boot core has a cache for these sizes. -/
theorem originOf_boot {l : ℕ} (hpool : 0 < pool) (hsize : 16 < size) (hlog : Nat.log2 (size - 1) = l)
    (hlow : 3 ≤ l) (hhigh : l < 11) (heq : h.bspPool = pool) :
    h.originOf 0 size = .object (cacheAddr pool (l - 3)) := by
  have hindex : (64 - clz64 (size - 1) - 4 : ℤ) = (l - 3 : ℕ) := by
    rw [clz64, hlog]
    omega
  have hcache : h.getKmallocCache 0 size = cacheAddr pool (l - 3) := by
    rw [getKmallocCache, if_neg (by decide)]
    dsimp only
    rw [if_neg (by rw [minKmemCacheSize]; omega), hindex,
      if_pos ⟨Int.natCast_nonneg _, by rw [numKmallocCaches]; omega⟩, Int.toNat_natCast, heq]
  rw [originOf, hcache, if_pos (by rw [cacheAddr]; omega)]

/-- **Objects of two caches** are on different pages. -/
theorem World.Inv.exists_twoObjects (hinv : w.Inv g {4, 5} S) (size size' : ℕ) (hheld : w.held = [])
    (hothers : w.others = []) (hmarked : w.marked = ∅) (hpos : 0 < size) (hpos' : 0 < size')
    (hsize : size + pageSize ≤ 2 ^ 64) (hsize' : size' + pageSize ≤ 2 ^ 64)
    (ho : ∀ h : Heap, h.pools = w.heap.pools → h.originOf 0 size = .object a)
    (ho' : ∀ h : Heap, h.pools = w.heap.pools → h.originOf 0 size' = .object i) (hne : i ≠ a) :
    ∃ x₁ h₁ x₂ h₂ S₂ q r, w.heap.kmalloc 0 size = some (x₁, h₁) ∧
      h₁.kmalloc 0 size' = some (x₂, h₂) ∧
      ((w.took h₁ 0 size x₁).took h₂ 0 size' x₂).Inv g {4, 5} S₂ ∧
      ((w.took h₁ 0 size x₁).took h₂ 0 size' x₂).live = [⟨x₂, size', .object i⟩, ⟨x₁, size, .object a⟩] ∧
      Allocation.frames ⟨x₁, size, .object a⟩ = {q} ∧ Allocation.frames ⟨x₂, size', .object i⟩ = {r} ∧
      (q = 4 ∧ r = 5 ∨ q = 5 ∧ r = 4) := by
  obtain ⟨hlive, hinternal⟩ := List.append_eq_nil_iff.mp hheld
  -- an object on one page
  obtain ⟨x₁, h₁, S₁, heq₁, hinv₁, hlive₁, hpools₁⟩ := hinv.kmalloc_object hpos hsize (ho _ rfl)
    ⟨4, by rw [hinv.freeFrames_alone hothers hmarked, hheld]; simp⟩
  rw [hlive] at hlive₁
  have hheld₁ : (w.took h₁ 0 size x₁).held = [⟨x₁, size, .object a⟩] := by
    rw [World.held, hlive₁]
    exact congrArg ([_] ++ ·) hinternal
  obtain ⟨q₁, -, hframes₁, hq₁⟩ := hinv₁.page_object (hheld₁ ▸ List.mem_cons_self) rfl
  have hfree₁ : (w.took h₁ 0 size x₁).heap.pmm.freeFrames = {4, 5} \ {q₁} := by
    rw [hinv₁.freeFrames_alone hothers hmarked, hheld₁]
    simp [hframes₁]
  -- and one on the other
  obtain ⟨x₂, h₂, S₂, heq₂, hinv₂, hlive₂, -⟩ := hinv₁.kmalloc_object hpos' hsize' (ho' _ hpools₁) <| by
    rw [hfree₁]
    by_cases hq : q₁ = 4
    · exact ⟨5, by simp [hq]⟩
    · exact ⟨4, by simp [Ne.symm hq]⟩
  rw [hlive₁] at hlive₂
  have hmem : ∀ {b}, b ∈ [⟨x₂, size', .object i⟩, ⟨x₁, size, .object a⟩] →
      b ∈ ((w.took h₁ 0 size x₁).took h₂ 0 size' x₂).held := fun hb =>
    List.mem_append_left _ (hlive₂ ▸ hb)
  have hb₁ := hmem (List.mem_cons_of_mem _ List.mem_cons_self)
  have hb₂ := hmem List.mem_cons_self
  obtain ⟨q, hq, hframes, hqF⟩ := hinv₂.page_object hb₁ rfl
  obtain ⟨r, hr, hframes', hrF⟩ := hinv₂.page_object hb₂ rfl
  have hapart := hinv₂.slabs_apart (hinv₂.object _ hb₁ a rfl).1 (hinv₂.object _ hb₂ i rfl).1 hne
  have hqr : q ≠ r := fun heq => Set.disjoint_left.mp hapart hq (heq ▸ hr)
  refine ⟨x₁, h₁, x₂, h₂, S₂, q, r, heq₁, heq₂, hinv₂, hlive₂, hframes, hframes', ?_⟩
  rw [Set.mem_insert_iff, Set.mem_singleton_iff] at hqF hrF
  omega

/-- **Two objects and a block of 4096 bytes**, with no write of a client.  The pages of the objects are
freed, the second one last; the block is these two pages, starts in the second and does not go back. -/
theorem not_goesBack : ∃ s₀ x₁ h₁ x₂ h₂ b h₃ b' h₄ x h₅ w₂ w₅, Boots imageAt1M twoPages s₀ ∧
    (World.onTwoPages s₀).heap.kmalloc 0 64 = some (x₁, h₁) ∧ h₁.kmalloc 0 128 = some (x₂, h₂) ∧
    w₂ = ((World.onTwoPages s₀).took h₁ 0 64 x₁).took h₂ 0 128 x₂ ∧ w₂.live.Perm [b, b'] ∧
    h₂.kfree b.ptr = some h₃ ∧ h₃.kfree b'.ptr = some h₄ ∧ h₄.kmalloc 0 4096 = some (x, h₅) ∧ x ≠ 0 ∧
    w₅ = ((w₂.gave h₃ b).gave h₄ b').took h₅ 0 4096 x ∧
    ¬ ∃ h₆ S S', h₅.kfree x = some h₆ ∧ w₅.GoesBack S S' ⟨x, 4096, .pages 2⟩ h₆ := by
  obtain ⟨s₀, g, hboot, hinv⟩ := onTwoPages_inv
  have hpools : ∀ h : Heap, h.pools = (World.onTwoPages s₀).heap.pools →
      h.bspPool = 0xFFFFFFFF80200000 := fun h hpools => (List.cons.inj hpools).1
  obtain ⟨x₁, h₁, x₂, h₂, S₂, q, r, heq₁, heq₂, hinv₂, hlive₂, hq, hr, hqr⟩ :=
    hinv.exists_twoObjects (a := cacheAddr 0xFFFFFFFF80200000 2) (i := cacheAddr 0xFFFFFFFF80200000 3) 64
      128 rfl rfl rfl (by decide) (by decide) (by decide) (by decide)
      (fun h hp => originOf_boot (l := 5) (by decide) (by decide) (by decide +kernel) (by decide)
        (by decide) (hpools h hp))
      (fun h hp => originOf_boot (l := 6) (by decide) (by decide) (by decide +kernel) (by decide)
        (by decide) (hpools h hp)) (by decide)
  have hperm := List.Perm.of_eq hlive₂
  rcases hqr with ⟨rfl, rfl⟩ | ⟨rfl, rfl⟩
  · have hswap := hperm.trans (List.Perm.swap ..)
    obtain ⟨h₃, h₄, x, h₅, heq₃, heq₄, heq₅, hx, hnot⟩ := hinv₂.mistaken hswap rfl rfl rfl rfl rfl hr
    exact ⟨s₀, x₁, h₁, x₂, h₂, _, h₃, _, h₄, x, h₅, _, _, hboot, heq₁, heq₂, rfl, hswap, heq₃, heq₄,
      heq₅, hx, rfl, hnot⟩
  · obtain ⟨h₃, h₄, x, h₅, heq₃, heq₄, heq₅, hx, hnot⟩ := hinv₂.mistaken hperm rfl rfl rfl rfl rfl hq
    exact ⟨s₀, x₁, h₁, x₂, h₂, _, h₃, _, h₄, x, h₅, _, _, hboot, heq₁, heq₂, rfl, hperm, heq₃, heq₄,
      heq₅, hx, rfl, hnot⟩

end Heap

end MioOS
