import MioOS.Pmm.Init

/-!
# Pmm/Runs — histories of the buddy allocator

A `World` is the allocator together with what its clients know: the blocks they hold and the frames
that `mark_region_used` took.  `Step` is one call, or a write to memory that is not the allocator's.
`World.Inv` holds after the switch and every step keeps it; the step lemmas go through two facts
about any call, `Inv.take` and `Inv.give`.
-/

namespace MioOS

open ByteMemory Intrusive BuddyBlocks

namespace PMM

/-- A block that a client holds: what it asked for and the address it got. -/
structure Block where
  ptr : ℕ
  num : ℕ
  deriving DecidableEq

/-- The frames of a block. -/
def Block.pages (b : Block) : Set ℕ := block (pagesToOrder b.num) (b.ptr / pageSize)

/-- The allocator and its clients. -/
structure World where
  pmm : PMM
  live : List Block
  marked : Set ℕ

/-- The clients hold nothing. -/
def World.start (s : PMM) : World := ⟨s, [], ∅⟩

/-- What the allocator reads: its bitmaps and the free pages. -/
def allocatorBytes (mmap : MemoryMap) (s : PMM) : Set ℕ :=
  Set.Ico (s.buddyMap 0) (s.buddyMap 0 + totalBitmapBytes (maxPfnOf mmap)) ∪
    {x | ∃ q ∈ s.freeFrames, x ∈ pageBytes q}

/-- The frames that `mark_region_used` visits. -/
def usedRegion (base length : ℕ) : Set ℕ := Set.Ico (usedFrom base) (usedUpTo base length)

/-- The frames that `mark_region_free` visits. -/
def freeRegion (base length : ℕ) : Set ℕ := Set.Ico (freeFrom base) (freeUpTo base length)

/-- **One step**: a call that returned, or a write outside the allocator's bytes. -/
inductive Step (mmap : MemoryMap) (w : World) : World → Prop
  | alloc {n p : ℕ} {s' : PMM} : w.pmm.allocPages n = some (p, s') → p ≠ 0 →
      Step mmap w ⟨s', ⟨p, n⟩ :: w.live, w.marked⟩
  | allocNull {n : ℕ} {s' : PMM} : w.pmm.allocPages n = some (0, s') →
      Step mmap w ⟨s', w.live, w.marked⟩
  | free {b : Block} : b ∈ w.live →
      Step mmap w ⟨w.pmm.freePages b.ptr b.num, w.live.erase b, w.marked⟩
  | below {p : ℕ} {s' : PMM} : w.pmm.allocPageBelow1mib = some (p, s') → p ≠ 0 →
      Step mmap w ⟨s', ⟨p, 1⟩ :: w.live, w.marked⟩
  | belowNull {s' : PMM} : w.pmm.allocPageBelow1mib = some (0, s') →
      Step mmap w ⟨s', w.live, w.marked⟩
  | markUsed {base length : ℕ} {s' : PMM} : base < 2 ^ 64 →
      w.pmm.markRegionUsed base length = some s' →
      Step mmap w ⟨s', w.live, w.marked ∪ w.pmm.freeFrames ∩ usedRegion base length⟩
  | write {m : Mem} : Mem.AgreeOn (allocatorBytes mmap w.pmm) w.pmm.mem m →
      Step mmap w ⟨{ w.pmm with mem := m }, w.live, w.marked⟩

/-- What holds of a block that a client holds. -/
structure Held (g : Geometry) (F : Set ℕ) (b : Block) : Prop where
  ptr_eq : b.ptr = b.ptr / pageSize * pageSize
  order_le : pagesToOrder b.num ≤ buddyMaxOrder
  aligned : 2 ^ pagesToOrder b.num ∣ b.ptr / pageSize
  frames : ∀ q ∈ b.pages, g.Frame q
  disjoint : Disjoint b.pages F

/-- **The invariant of a run.** -/
structure World.Inv (g : Geometry) (w : World) : Prop where
  initialized : w.pmm.initializedBuddy = true
  buddy : BuddyInv g w.pmm w.pmm.freeFrames
  sized : w.pmm.Sized
  held : ∀ b ∈ w.live, Held g w.pmm.freeFrames b
  apart : w.live.Pairwise fun b b' => Disjoint b.pages b'.pages

variable {g : Geometry} {mmap : MemoryMap} {w w' : World} {s s' : PMM} {F R M : Set ℕ} {b : Block}
  {n p : ℕ}

/-! ## What any call does -/

theorem Takes.freeFrames (h : Takes g s F R s') : s'.freeFrames = F \ R := h.inv.freeFrames_eq

theorem Gives.freeFrames (h : Gives g s F R s') : s'.freeFrames = F ∪ R := h.inv.freeFrames_eq

/-- The invariant reads the bitmaps and the free pages only. -/
theorem BuddyInv.write {m : Mem} (h : BuddyInv g s F) (hm : Mem.AgreeOn (owned g F) s.mem m) :
    BuddyInv g { s with mem := m } F := by
  obtain ⟨L, B, hrepr, hsync⟩ := h.repr
  -- the fields of a listed node are at the head of its page, which is free
  have hfield : ∀ o ≤ buddyMaxOrder, ∀ x ∈ (L o).map nodeOf, ∀ j ≤ 8,
      m.load 8 (x + j) = s.mem.load 8 (x + j) := by
    intro o ho x hx j hj
    obtain ⟨q, hq, rfl⟩ := List.mem_map.mp hx
    have hfree := hsync.frames_sub ho q hq
    refine hm.load_eq fun i hi => Or.inr ⟨q, hfree, ?_⟩
    rw [nodeOf_eq (h.frames q hfree).lt, nodeBytes, Set.mem_Ico]
    omega
  refine ⟨h.frames, ⟨L, B, ?_, hsync⟩, h.trace⟩
  exact hrepr.congr (fun o ho x hx => hfield o ho x hx 0 (by omega))
    (fun o ho x hx => hfield o ho x hx 8 le_rfl) (fun _ _ => rfl) (fun _ _ => rfl)
    fun x hx => hm x (Or.inl hx)

namespace World.Inv

/-- Taking frames that no client gets. -/
theorem take (h : w.Inv g) (ht : Takes g w.pmm w.pmm.freeFrames R s') (M : Set ℕ) :
    World.Inv g ⟨s', w.live, M⟩ := by
  refine ⟨ht.initialized.trans h.initialized, ?_, ht.sized, fun b hb => ?_, h.apart⟩
  · rw [ht.freeFrames]
    exact ht.inv
  · obtain ⟨hptr, ho, hal, hfr, hd⟩ := h.held b hb
    rw [ht.freeFrames]
    exact ⟨hptr, ho, hal, hfr, hd.mono_right Set.sdiff_subset⟩

/-- Taking the frames of a block for a client. -/
theorem takeBlock (h : w.Inv g) (ht : Takes g w.pmm w.pmm.freeFrames b.pages s')
    (hptr : b.ptr = b.ptr / pageSize * pageSize) (ho : pagesToOrder b.num ≤ buddyMaxOrder)
    (hal : 2 ^ pagesToOrder b.num ∣ b.ptr / pageSize) :
    World.Inv g ⟨s', b :: w.live, w.marked⟩ := by
  obtain ⟨hinit, hbuddy, hsized, hheld, hapart⟩ := h.take ht w.marked
  refine ⟨hinit, hbuddy, hsized, List.forall_mem_cons.mpr ⟨⟨hptr, ho, hal, ?_, ?_⟩, hheld⟩,
    List.pairwise_cons.mpr ⟨fun b' hb' => ?_, hapart⟩⟩
  · exact fun q hq => h.buddy.frames q (ht.subset hq)
  · rw [ht.freeFrames]
    exact Set.disjoint_sdiff_right
  · exact ((h.held b' hb').disjoint.mono_right ht.subset).symm

/-- Giving frames that no remaining client holds. -/
theorem give {live : List Block} (h : w.Inv g) (hg : Gives g w.pmm w.pmm.freeFrames R s')
    (hsub : live.Sublist w.live) (hdisj : ∀ b ∈ live, Disjoint b.pages R) (M : Set ℕ) :
    World.Inv g ⟨s', live, M⟩ := by
  refine ⟨hg.initialized.trans h.initialized, ?_, hg.sized, fun b hb => ?_,
    h.apart.sublist hsub⟩
  · rw [hg.freeFrames]
    exact hg.inv
  · obtain ⟨hptr, ho, hal, hfr, hd⟩ := h.held b (hsub.subset hb)
    rw [hg.freeFrames]
    exact ⟨hptr, ho, hal, hfr, Set.disjoint_union_right.mpr ⟨hd, hdisj b hb⟩⟩

/-- What `free_pages` gives when a client frees a block. -/
theorem freeBlock_gives (h : w.Inv g) (hb : b ∈ w.live) :
    Gives g w.pmm w.pmm.freeFrames b.pages (w.pmm.freePages b.ptr b.num) := by
  obtain ⟨hptr, ho, hal, hfr, hd⟩ := h.held b hb
  rw [hptr]
  exact freePages_gives h.buddy ho hal hfr hd

theorem erase_apart (h : w.Inv g) (hb : b ∈ w.live) :
    ∀ b' ∈ w.live.erase b, Disjoint b'.pages b.pages := by
  have hperm := (List.perm_cons_erase hb).pairwise_iff (fun hd => hd.symm) |>.mp h.apart
  exact fun b' hb' => ((List.pairwise_cons.mp hperm).1 b' hb').symm

theorem free (h : w.Inv g) (hb : b ∈ w.live) :
    World.Inv g ⟨w.pmm.freePages b.ptr b.num, w.live.erase b, w.marked⟩ :=
  h.give (h.freeBlock_gives hb) List.erase_sublist (h.erase_apart hb) w.marked

end World.Inv

/-! ## What each operation does -/

theorem pages_eq (p n : ℕ) : (Block.mk (p * pageSize) n).pages = block (pagesToOrder n) p := by
  rw [Block.pages, Nat.mul_div_cancel _ (by decide)]

/-- **`alloc_pages` in a run.** -/
theorem World.Inv.allocPages (h : w.Inv g) (n : ℕ) :
    (∃ i s', w.pmm.allocPages n = some (i * pageSize, s') ∧ i * pageSize ≠ 0 ∧
      pagesToOrder n ≤ buddyMaxOrder ∧ 2 ^ pagesToOrder n ∣ i ∧
      Takes g w.pmm w.pmm.freeFrames (block (pagesToOrder n) i) s') ∨
      w.pmm.allocPages n = some (0, w.pmm) := by
  rcases allocPages_spec h.buddy h.initialized n with ⟨ho, i, s', hal, heq, ht⟩ | ⟨heq, -⟩
  · have hpos := (h.buddy.frames i (ht.subset (self_mem_block _ i))).pos
    exact Or.inl ⟨i, s', heq, Nat.mul_ne_zero hpos.ne' (by decide), ho, hal, ht⟩
  · exact Or.inr heq

/-- While an aligned block is free, `alloc_pages` has one. -/
theorem World.Inv.allocPages_ne {n q : ℕ} (h : w.Inv g) (ho : pagesToOrder n ≤ buddyMaxOrder)
    (hq : 2 ^ pagesToOrder n ∣ q) (hfree : block (pagesToOrder n) q ⊆ w.pmm.freeFrames) (s' : PMM) :
    w.pmm.allocPages n ≠ some (0, s') := by
  intro hnull
  rcases allocPages_spec h.buddy h.initialized n with ⟨-, i, s₁, -, heq, ht⟩ | ⟨-, hnone⟩
  · have hpos := (h.buddy.frames i (ht.subset (self_mem_block _ i))).pos
    have hzero := (Prod.mk.inj (Option.some.inj (heq.symm.trans hnull))).1
    exact absurd hzero (Nat.mul_ne_zero hpos.ne' (by decide))
  · exact hnone ho q hq hfree

/-- While a frame is free, `alloc_pages` has a page. -/
theorem World.Inv.exists_page (h : w.Inv g) (hne : w.pmm.freeFrames.Nonempty) :
    ∃ i ∈ w.pmm.freeFrames, ∃ s', w.pmm.allocPages 1 = some (i * pageSize, s') ∧ i * pageSize ≠ 0 ∧
      s'.freeFrames = w.pmm.freeFrames \ {i} := by
  obtain ⟨q, hq⟩ := hne
  have hone : pagesToOrder 1 = 0 := rfl
  rcases allocPages_spec h.buddy h.initialized 1 with ⟨-, i, s', -, heq, ht⟩ | ⟨-, hnone⟩
  · have hpos := (h.buddy.frames i (ht.subset (self_mem_block _ i))).pos
    rw [hone, block_zero] at ht
    exact ⟨i, ht.subset rfl, s', heq, Nat.mul_ne_zero hpos.ne' (by decide), ht.freeFrames⟩
  · refine absurd ?_ (hnone (by decide) q (one_dvd q))
    rw [hone, block_zero]
    exact Set.singleton_subset_iff.mpr hq

/-- While a frame is free, one page can be had. -/
theorem World.Inv.allocPage (mmap : MemoryMap) (h : w.Inv g) (hne : w.pmm.freeFrames.Nonempty) :
    ∃ i ∈ w.pmm.freeFrames, ∃ s', Step mmap w ⟨s', ⟨i * pageSize, 1⟩ :: w.live, w.marked⟩ ∧
      s'.freeFrames = w.pmm.freeFrames \ {i} := by
  obtain ⟨i, hi, s', heq, hpos, hF⟩ := h.exists_page hne
  exact ⟨i, hi, s', .alloc heq hpos, hF⟩

/-- A client may write to its page. -/
theorem World.Inv.writePage {i : ℕ} (h : w.Inv g) (hmap : g.maxPfn = maxPfnOf mmap)
    (hb : ⟨i * pageSize, 1⟩ ∈ w.live) (v : ℕ) :
    Step mmap w ⟨{ w.pmm with mem := w.pmm.mem.store 1 (hhdmBase + i * pageSize) v }, w.live,
      w.marked⟩ := by
  have hi : i ∈ (Block.mk (i * pageSize) 1).pages := by
    rw [pages_eq]
    exact self_mem_block _ i
  have hout : i ∉ w.pmm.freeFrames := Set.disjoint_left.mp (h.held _ hb).disjoint hi
  have hoff := ((h.held _ hb).frames i hi).off_bitmap
  obtain ⟨L, B, hrepr, -⟩ := h.buddy.repr
  have hbase : w.pmm.buddyMap 0 = g.bitmapBase := hrepr.slices 0 (Nat.zero_le _)
  refine .write (Mem.agreeOn_store fun x hx => ?_)
  rw [pageSize]
  rcases hx with hbit | ⟨q, hq, hx⟩
  · rw [hbase, ← hmap, Set.mem_Ico] at hbit
    omega
  · have hne : q ≠ i := fun hqi => hout (hqi ▸ hq)
    rw [pageBytes, Set.mem_Ico] at hx
    omega

/-- A `Step` takes frames, gives the frames of a live block, or leaves the allocator alone. -/
theorem Step.cases (h : w.Inv g) (hmap : g.maxPfn = maxPfnOf mmap) (hstep : Step mmap w w') :
    (∃ b, w'.live = b :: w.live ∧ w'.marked = w.marked ∧
      b.ptr = b.ptr / pageSize * pageSize ∧ pagesToOrder b.num ≤ buddyMaxOrder ∧
      2 ^ pagesToOrder b.num ∣ b.ptr / pageSize ∧
      Takes g w.pmm w.pmm.freeFrames b.pages w'.pmm) ∨
    (∃ M, w'.live = w.live ∧ w'.marked = w.marked ∪ M ∧
      Takes g w.pmm w.pmm.freeFrames M w'.pmm) ∨
    (∃ b ∈ w.live, w'.live = w.live.erase b ∧ w'.marked = w.marked ∧
      Gives g w.pmm w.pmm.freeFrames b.pages w'.pmm) ∨
    (w'.live = w.live ∧ w'.marked = w.marked ∧
      ∃ m, Mem.AgreeOn (owned g w.pmm.freeFrames) w.pmm.mem m ∧ w'.pmm = { w.pmm with mem := m }) := by
  have hnone : Takes g w.pmm w.pmm.freeFrames ∅ w.pmm := .refl h.buddy h.sized
  cases hstep with
  | @alloc n p s' heq hne =>
    rcases h.allocPages n with ⟨i, s₁, heq', hne', ho, hal, ht⟩ | heq'
    · obtain ⟨rfl, rfl⟩ := Prod.mk.inj (Option.some.inj (heq.symm.trans heq'))
      have hdiv : i * pageSize / pageSize = i := Nat.mul_div_cancel _ (by decide)
      refine Or.inl ⟨⟨i * pageSize, n⟩, rfl, rfl, ?_, ho, ?_, ?_⟩
      · simp only [hdiv]
      · simpa only [hdiv] using hal
      · rw [pages_eq]
        exact ht
    · exact absurd (Prod.mk.inj (Option.some.inj (heq.symm.trans heq'))).1 hne
  | @allocNull n s' heq =>
    rcases h.allocPages n with ⟨i, s₁, heq', hne', ho, hal, ht⟩ | heq'
    · exact absurd (Prod.mk.inj (Option.some.inj (heq'.symm.trans heq))).1 hne'
    · obtain ⟨-, rfl⟩ := Prod.mk.inj (Option.some.inj (heq.symm.trans heq'))
      exact Or.inr (Or.inl ⟨∅, rfl, (Set.union_empty _).symm, hnone⟩)
  | @free b hb => exact Or.inr (Or.inr (Or.inl ⟨b, hb, rfl, rfl, h.freeBlock_gives hb⟩))
  | @below p s' heq hne =>
    rcases allocPageBelow1mib_spec h.buddy h.initialized with ⟨q, hq, -, s₁, heq', ht⟩ | ⟨-, heq'⟩
    · obtain ⟨rfl, rfl⟩ := Prod.mk.inj (Option.some.inj (heq.symm.trans heq'))
      have hone : pagesToOrder 1 = 0 := rfl
      have hdiv : q * pageSize / pageSize = q := Nat.mul_div_cancel _ (by decide)
      refine Or.inl ⟨⟨q * pageSize, 1⟩, rfl, rfl, ?_, ?_, ?_, ?_⟩
      · simp only [hdiv]
      · rw [hone]
        exact Nat.zero_le _
      · rw [hone]
        exact one_dvd _
      · rw [pages_eq, hone, block_zero]
        exact ht
    · exact absurd (Prod.mk.inj (Option.some.inj (heq.symm.trans heq'))).1 hne
  | @belowNull s' heq =>
    rcases allocPageBelow1mib_spec h.buddy h.initialized with ⟨q, hq, -, s₁, heq', ht⟩ | ⟨-, heq'⟩
    · have h0 := (Prod.mk.inj (Option.some.inj (heq'.symm.trans heq))).1
      rw [pageSize] at h0
      omega
    · obtain ⟨-, rfl⟩ := Prod.mk.inj (Option.some.inj (heq.symm.trans heq'))
      exact Or.inr (Or.inl ⟨∅, rfl, (Set.union_empty _).symm, hnone⟩)
  | @markUsed base length s' hbase heq =>
    obtain ⟨s₁, heq', ht⟩ := markRegionUsed_takes length h.buddy h.sized h.initialized hbase
    obtain rfl := Option.some.inj (heq.symm.trans heq')
    exact Or.inr (Or.inl ⟨_, rfl, rfl, ht⟩)
  | @write m hm =>
    refine Or.inr (Or.inr (Or.inr ⟨rfl, rfl, m, ?_, rfl⟩))
    obtain ⟨L, B, hrepr, -⟩ := h.buddy.repr
    have hbase : w.pmm.buddyMap 0 = g.bitmapBase := hrepr.slices 0 (Nat.zero_le _)
    rw [allocatorBytes, hbase, ← hmap] at hm
    refine hm.mono (Set.union_subset_union_right _ ?_)
    rintro x ⟨q, hq, hx⟩
    exact ⟨q, hq, nodeBytes_subset q hx⟩

theorem World.Inv.step (h : w.Inv g) (hmap : g.maxPfn = maxPfnOf mmap) (hstep : Step mmap w w') :
    w'.Inv g := by
  obtain ⟨s', live', marked'⟩ := w'
  rcases hstep.cases h hmap with ⟨b, rfl, rfl, hptr, ho, hal, ht⟩ | ⟨M, rfl, rfl, ht⟩ |
    ⟨b, hb, rfl, rfl, hg⟩ | ⟨rfl, rfl, m, hm, rfl⟩
  · exact h.takeBlock ht hptr ho hal
  · exact h.take ht _
  · exact h.give hg List.erase_sublist (h.erase_apart hb) w.marked
  · have hinv := h.buddy.write hm
    have hF : PMM.freeFrames { w.pmm with mem := m } = w.pmm.freeFrames := hinv.freeFrames_eq
    refine ⟨h.initialized, ?_, ⟨h.sized.used, h.sized.free⟩, fun b hb => ?_, h.apart⟩
    · rw [hF]
      exact hinv
    · rw [hF]
      exact h.held b hb

/-! ## Conservation -/

/-- The frames that clients hold. -/
def World.livePages (w : World) : Set ℕ := {q | ∃ b ∈ w.live, q ∈ b.pages}

/-- **No frame is lost**: every frame of `F₀` is free, held by a client, or was marked used, and no
two of these. -/
structure World.Conserved (F₀ : Set ℕ) (w : World) : Prop where
  total : w.pmm.freeFrames ∪ w.livePages ∪ w.marked = F₀
  marked_free : Disjoint w.marked w.pmm.freeFrames
  marked_live : ∀ b ∈ w.live, Disjoint w.marked b.pages

theorem livePages_cons (s : PMM) (b : Block) (live : List Block) (M : Set ℕ) :
    World.livePages ⟨s, b :: live, M⟩ = b.pages ∪ World.livePages ⟨s, live, M⟩ := by
  ext q
  simp [World.livePages]

theorem livePages_perm {live live' : List Block} (h : live.Perm live') (s s' : PMM) (M M' : Set ℕ) :
    World.livePages ⟨s, live, M⟩ = World.livePages ⟨s', live', M'⟩ := by
  ext q
  simp [World.livePages, h.mem_iff]

/-- A step of the clients brings no frame in. -/
theorem Step.pages_subset (h : w.Inv g) (hmap : g.maxPfn = maxPfnOf mmap) (hstep : Step mmap w w') :
    w'.pmm.freeFrames ∪ w'.livePages ⊆ w.pmm.freeFrames ∪ w.livePages := by
  obtain ⟨s', live', marked'⟩ := w'
  rcases hstep.cases h hmap with ⟨b, rfl, -, -, -, -, ht⟩ | ⟨M, rfl, -, ht⟩ |
    ⟨b, hb, rfl, -, hg⟩ | ⟨rfl, -, m, hm, rfl⟩
  · rw [ht.freeFrames, livePages_cons, ← Set.union_assoc, Set.sdiff_union_of_subset ht.subset]
    exact subset_rfl
  · rw [ht.freeFrames]
    exact Set.union_subset_union_left _ Set.sdiff_subset
  · have hperm := livePages_perm (List.perm_cons_erase hb) w.pmm s' w.marked marked'
    rw [livePages_cons] at hperm
    rw [hg.freeFrames, Set.union_assoc, ← hperm]
  · rw [show PMM.freeFrames { w.pmm with mem := m } = w.pmm.freeFrames from
      (h.buddy.write hm).freeFrames_eq]
    exact subset_rfl

namespace World.Conserved

variable {F₀ : Set ℕ}

theorem takeBlock (hc : w.Conserved F₀) (ht : Takes g w.pmm w.pmm.freeFrames b.pages s') :
    World.Conserved F₀ ⟨s', b :: w.live, w.marked⟩ := by
  refine ⟨?_, ?_, List.forall_mem_cons.mpr ⟨hc.marked_free.mono_right ht.subset, hc.marked_live⟩⟩
  · rw [ht.freeFrames, livePages_cons, ← Set.union_assoc, Set.sdiff_union_of_subset ht.subset]
    exact hc.total
  · rw [ht.freeFrames]
    exact hc.marked_free.mono_right Set.sdiff_subset

theorem take (hc : w.Conserved F₀) (h : w.Inv g) (ht : Takes g w.pmm w.pmm.freeFrames M s') :
    World.Conserved F₀ ⟨s', w.live, w.marked ∪ M⟩ := by
  refine ⟨?_, ?_, fun b hb => ?_⟩
  · have hM : w.pmm.freeFrames \ M ∪ w.livePages ∪ (w.marked ∪ M)
        = (w.pmm.freeFrames \ M ∪ M) ∪ w.livePages ∪ w.marked := by
      ext q
      simp only [Set.mem_union]
      tauto
    rw [Set.sdiff_union_of_subset ht.subset] at hM
    rw [ht.freeFrames]
    exact hM.trans hc.total
  · rw [ht.freeFrames]
    exact Set.disjoint_union_left.mpr
      ⟨hc.marked_free.mono_right Set.sdiff_subset, Set.disjoint_sdiff_right⟩
  · exact Set.disjoint_union_left.mpr
      ⟨hc.marked_live b hb, ((h.held b hb).disjoint.mono_right ht.subset).symm⟩

theorem free (hc : w.Conserved F₀) (hb : b ∈ w.live)
    (hg : Gives g w.pmm w.pmm.freeFrames b.pages s') :
    World.Conserved F₀ ⟨s', w.live.erase b, w.marked⟩ := by
  refine ⟨?_, ?_, fun b' hb' => hc.marked_live b' (List.mem_of_mem_erase hb')⟩
  · have hperm := livePages_perm (List.perm_cons_erase hb) w.pmm s' w.marked w.marked
    rw [livePages_cons] at hperm
    rw [hg.freeFrames, Set.union_assoc w.pmm.freeFrames, ← hperm]
    exact hc.total
  · rw [hg.freeFrames]
    exact Set.disjoint_union_right.mpr ⟨hc.marked_free, hc.marked_live b hb⟩

theorem step (hc : w.Conserved F₀) (h : w.Inv g) (hmap : g.maxPfn = maxPfnOf mmap)
    (hstep : Step mmap w w') : w'.Conserved F₀ := by
  obtain ⟨s', live', marked'⟩ := w'
  rcases hstep.cases h hmap with ⟨b, rfl, rfl, -, -, -, ht⟩ | ⟨M, rfl, rfl, ht⟩ |
    ⟨b, hb, rfl, rfl, hg⟩ | ⟨rfl, rfl, m, hm, rfl⟩
  · exact hc.takeBlock ht
  · exact hc.take h ht
  · exact hc.free hb hg
  · have hF : PMM.freeFrames { w.pmm with mem := m } = w.pmm.freeFrames :=
      (h.buddy.write hm).freeFrames_eq
    refine ⟨?_, ?_, hc.marked_live⟩
    · rw [hF]
      exact hc.total
    · rw [hF]
      exact hc.marked_free

end World.Conserved

/-! ## Reachable worlds -/

/-- `s₀` is the state after the switch, at the end of some early boot.  The entries `mmap` are those
that the second pass reads, which it does as long as the map's tag lies outside the pages that it
frees (`ReadsIntact.of_outside`). -/
def Boots (k : KernelImage) (mmap : MemoryMap) (s₀ : PMM) : Prop :=
  ∃ m mb s ranges opened, BumpRun mmap (max k.endPhys (mbEnd m mb)) s ranges opened ∧
    initializeBuddy k s (some mmap) = some s₀

/-- `w` is reached from `w₀` by any sequence of steps. -/
abbrev Reaches (mmap : MemoryMap) : World → World → Prop := Relation.ReflTransGen (Step mmap)

variable {k : KernelImage} {s₀ : PMM}

theorem Boots.start (hwf : mmap.WellFormed) (hboot : Boots k mmap s₀) :
    ∃ g : Geometry, g.maxPfn = maxPfnOf mmap ∧ (World.start s₀).Inv g ∧
      (World.start s₀).Conserved s₀.freeFrames ∧ Accounted s₀ s₀.freeFrames ∧
      pageSize * s₀.freeFrames.ncard ≤ s₀.totalMemory := by
  obtain ⟨m, mb, s, ranges, opened, hrun, hinit⟩ := hboot
  obtain ⟨phys, s₁, g, -, -, hsw⟩ := initializeBuddy_switched hwf hrun hinit
  have hF := hsw.inv.freeFrames_eq
  have hinv := hsw.inv
  have hacc := hsw.accounted
  rw [← hF] at hinv hacc
  refine ⟨g, hsw.maxPfn, ⟨hsw.initialized, hinv, hacc.sized, ?_, List.Pairwise.nil⟩, ⟨?_, ?_, ?_⟩,
    hacc, ?_⟩
  · exact fun b hb => absurd hb List.not_mem_nil
  · simp [World.livePages, World.start]
  · exact Set.empty_disjoint _
  · exact fun b hb => absurd hb List.not_mem_nil
  · have hfree := hacc.free
    have htotal := hacc.total
    omega

/-- **The invariant holds in every reachable world.** -/
theorem Reaches.inv (hmap : g.maxPfn = maxPfnOf mmap) (h : w.Inv g) (hreach : Reaches mmap w w') :
    w'.Inv g := by
  induction hreach with
  | refl => exact h
  | tail _ hstep ih => exact ih.step hmap hstep

theorem Reaches.conserved {F₀ : Set ℕ} (hmap : g.maxPfn = maxPfnOf mmap) (h : w.Inv g)
    (hc : w.Conserved F₀) (hreach : Reaches mmap w w') : w'.Conserved F₀ := by
  induction hreach with
  | refl => exact hc
  | tail hsteps hstep ih => exact ih.step (Reaches.inv hmap h hsteps) hmap hstep

end PMM

end MioOS
