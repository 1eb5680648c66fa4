import MioOS.Pmm.Handover
import MioOS.Pmm.Runs

/-!
# Pmm/Refinement — what holds in every reachable world

After the switch, and after any sequence of calls and of writes to memory that is not the
allocator's:

* `reaches_refinesFreeSet` — the allocator is a set of free frames from which runs are taken and to
  which they are given back;
* `reaches_wellFormedLists` — the lists are well linked and agree with the bitmaps;
* `reaches_canonical` — the lists and the bitmaps depend on the set of free frames only.
-/

namespace MioOS

open ByteMemory Intrusive BuddyBlocks

namespace PMM

variable {g : Geometry} {k : KernelImage} {mmap : MemoryMap} {s s' s₀ : PMM} {w w' : World}
  {F : Set ℕ} {o p i : ℕ}

/-! ## A set of free frames -/

/-- **The allocator refines a set of free frames**, since `s₀`. -/
structure RefinesFreeSet (s₀ : PMM) (w : World) : Prop where
  /-- `alloc_pages` returns; if it returns memory, that is an aligned run of free frames of the
  least sufficient power of two, which no client holds and which it takes out of the free set. -/
  alloc : ∀ n < 2 ^ 64, ∃ p s', w.pmm.allocPages n = some (p, s') ∧
    (p = 0 → s'.freeFrames = w.pmm.freeFrames) ∧
    (p ≠ 0 → ∃ o i, IsLeast {j | n ≤ 2 ^ j} o ∧ p = i * pageSize ∧ 2 ^ o ∣ i ∧
      block o i ⊆ w.pmm.freeFrames ∧ (∀ b ∈ w.live, Disjoint (block o i) b.pages) ∧
      s'.freeFrames = w.pmm.freeFrames \ block o i)
  /-- `free_pages` gives back the frames of the block. -/
  free : ∀ b ∈ w.live, (w.pmm.freePages b.ptr b.num).freeFrames = w.pmm.freeFrames ∪ b.pages
  /-- No frame is held twice, or held and free. -/
  apart : w.live.Pairwise fun b b' => Disjoint b.pages b'.pages
  held : ∀ b ∈ w.live, Disjoint b.pages w.pmm.freeFrames
  /-- No frame is lost. -/
  conserved : w.Conserved s₀.freeFrames

/-- **Buddy allocation refines taking runs from a set of free frames.** -/
theorem reaches_refinesFreeSet (hwf : mmap.WellFormed) (hboot : Boots k mmap s₀)
    (hreach : Reaches mmap (World.start s₀) w) : RefinesFreeSet s₀ w := by
  obtain ⟨g, hmap, hinv₀, hcons₀, -, -⟩ := hboot.start hwf
  have hinv := Reaches.inv hmap hinv₀ hreach
  refine ⟨fun n hn => ?_, fun b hb => (hinv.freeBlock_gives hb).freeFrames, hinv.apart,
    fun b hb => (hinv.held b hb).disjoint, Reaches.conserved hmap hinv₀ hcons₀ hreach⟩
  rcases hinv.allocPages n with ⟨i, s', heq, hne, ho, hal, ht⟩ | heq
  · refine ⟨_, s', heq, fun h0 => absurd h0 hne, fun _ => ⟨_, i, isLeast_pagesToOrder hn, rfl, hal,
      ht.subset, fun b hb => ?_, ht.freeFrames⟩⟩
    exact ((hinv.held b hb).disjoint.mono_right ht.subset).symm
  · exact ⟨0, w.pmm, heq, fun _ => rfl, fun h0 => absurd rfl h0⟩

/-! ## The lists and the bitmaps -/

/-- **The lists are well formed** and the bitmaps agree with them. -/
structure WellFormedLists (mmap : MemoryMap) (s : PMM) : Prop where
  /-- A list is finite, without repetition, and linked in both directions from a null `prev`. -/
  linked : ∀ o ≤ buddyMaxOrder, ∃ l : List ℕ, l.Nodup ∧
    Linked 0 (next s.mem) (prev s.mem) 0 (s.freeLists o) l ∧ ∀ x, s.OnFreeList o x ↔ x ∈ l
  inverse : ∀ o ≤ buddyMaxOrder, ∀ x, s.OnFreeList o x →
    (next s.mem x = 0 ∨ prev s.mem (next s.mem x) = x) ∧
      (prev s.mem x = 0 ∧ s.freeLists o = x ∨ next s.mem (prev s.mem x) = x)
  aligned : ∀ o ≤ buddyMaxOrder, ∀ x, s.OnFreeList o x → 2 ^ o ∣ pfnOf x ∧ nodeOf (pfnOf x) = x
  disjoint : ∀ o ≤ buddyMaxOrder, ∀ o' ≤ buddyMaxOrder, ∀ x x', s.OnFreeList o x →
    s.OnFreeList o' x' → ¬ (o = o' ∧ x = x') → Disjoint (block o (pfnOf x)) (block o' (pfnOf x'))
  /-- The bit of a pair tells whether exactly one of the two is listed. -/
  bits : ∀ o < buddyMaxOrder, ∀ i, i / 8 < bytesNeeded (maxPfnOf mmap) o →
    (s.bitAt o i = true ↔
      Xor (s.OnFreeList o (nodeOf (2 * i * 2 ^ o))) (s.OnFreeList o (nodeOf ((2 * i + 1) * 2 ^ o))))
  /-- Every buddy that a merge unlinked was on the list it was unlinked from. -/
  merges : ∀ o x listed, Event.merge o x listed ∈ s.trace → listed

theorem Repr.mem_iff_onFreeList {L : ℕ → List ℕ} {B : ℕ → ℕ → Bool} (hrepr : Repr g s L B)
    (ho : o ≤ buddyMaxOrder) (hp : p < 2 ^ 52) : p ∈ L o ↔ s.OnFreeList o (nodeOf p) := by
  rw [hrepr.onFreeList_iff ho]
  constructor
  · exact fun hmem => ⟨p, hmem, rfl⟩
  · rintro ⟨q, hq, hqp⟩
    have hlt := (hrepr.frames o ho q hq).lt
    rwa [← nodeOf_inj (by omega) hp hqp]

/-- The frames of a pair whose bit is in the slice. -/
theorem pair_lt (hi : i / 8 < bytesNeeded g.maxPfn o) (ho : o ≤ buddyMaxOrder) :
    (2 * i + 1) * 2 ^ o < 2 ^ 52 := by
  have hmax := g.maxPfn_lt
  rw [bytesNeeded_eq] at hi
  have hpow : 2 ^ o ≤ 2 ^ 10 := Nat.pow_le_pow_right two_pos ho
  have hpos := Nat.two_pow_pos o
  have hdiv : g.maxPfn / 2 ^ (o + 4) ≤ g.maxPfn := Nat.div_le_self _ _
  calc (2 * i + 1) * 2 ^ o ≤ (2 * i + 1) * 2 ^ 10 := Nat.mul_le_mul_left _ hpow
    _ < 2 ^ 52 := by omega

/-- **The invariant, read as a statement about the lists.** -/
theorem BuddyInv.wellFormedLists (h : BuddyInv g s F) (hmap : g.maxPfn = maxPfnOf mmap) :
    WellFormedLists mmap s := by
  obtain ⟨L, B, hrepr, hsync⟩ := h.repr
  refine ⟨fun o ho => ⟨_, hrepr.nodup_nodes ho, hrepr.linked o ho,
    fun x => (hrepr.linked o ho).chain.visits_iff⟩, fun o ho x hx => ?_, fun o ho x hx => ?_,
    fun o ho o' ho' x x' hx hx' hne => ?_, fun o ho i hi => ?_, fun o x listed hmem =>
      h.trace _ hmem⟩
  · have hmem := (hrepr.linked o ho).chain.visits_iff.mp hx
    exact ⟨(hrepr.linked o ho).prev_next x hmem, (hrepr.linked o ho).next_prev x hmem⟩
  · obtain ⟨q, hmax, rfl⟩ := (h.onFreeList_iff ho).mp hx
    rw [pfnOf_nodeOf (h.frames q (hmax.subset (self_mem_block o q))).lt]
    exact ⟨hmax.aligned, rfl⟩
  · obtain ⟨q, hmax, rfl⟩ := (h.onFreeList_iff ho).mp hx
    obtain ⟨q', hmax', rfl⟩ := (h.onFreeList_iff ho').mp hx'
    rw [pfnOf_nodeOf (h.frames q (hmax.subset (self_mem_block o q))).lt,
      pfnOf_nodeOf (h.frames q' (hmax'.subset (self_mem_block o' q'))).lt]
    exact hmax.disjoint hmax' fun ⟨h1, h2⟩ => hne ⟨h1, by rw [h2]⟩
  · rw [← hmap] at hi
    have hlt := pair_lt hi ho.le
    have hpos := Nat.two_pow_pos o
    have hleft : 2 ^ o ∣ 2 * i * 2 ^ o := Nat.dvd_mul_left _ _
    have hdvd : 2 ^ (o + 1) ∣ 2 * i * 2 ^ o := ⟨i, by ring⟩
    have hpair : 2 * i * 2 ^ o / 2 ^ (o + 1) = i := by
      rw [show 2 * i * 2 ^ o = i * 2 ^ (o + 1) by ring, Nat.mul_div_cancel _ (Nat.two_pow_pos _)]
    have hright : buddy o (2 * i * 2 ^ o) = (2 * i + 1) * 2 ^ o := by
      rw [(block_halves hdvd).2.1]
      ring
    have hle : 2 * i * 2 ^ o < 2 ^ 52 :=
      (Nat.mul_le_mul_right _ (Nat.le_succ _)).trans_lt hlt
    have hbit := hsync.bits o ho _ hleft
    rw [hpair, hright, ← hrepr.bits o ho.le i hi] at hbit
    rw [hbit, ← hrepr.mem_iff_onFreeList ho.le hle,
      ← hrepr.mem_iff_onFreeList ho.le hlt]
    by_cases h1 : 2 * i * 2 ^ o ∈ L o <;> by_cases h2 : (2 * i + 1) * 2 ^ o ∈ L o <;>
      simp [h1, h2, Xor]

/-- **The representation invariant holds in every reachable world.** -/
theorem reaches_wellFormedLists (hwf : mmap.WellFormed) (hboot : Boots k mmap s₀)
    (hreach : Reaches mmap (World.start s₀) w) : WellFormedLists mmap w.pmm := by
  obtain ⟨g, hmap, hinv₀, -, -, -⟩ := hboot.start hwf
  exact (Reaches.inv hmap hinv₀ hreach).buddy.wellFormedLists hmap

/-! ## The lists are canonical -/

/-- The lists are those of the maximal aligned blocks of free frames. -/
def CanonicalLists (s : PMM) : Prop :=
  ∀ o ≤ buddyMaxOrder, ∀ p < 2 ^ 52, s.OnFreeList o (nodeOf p) ↔
    2 ^ o ∣ p ∧ block o p ⊆ s.freeFrames ∧
      (o = buddyMaxOrder ∨ ¬ block (o + 1) (base (o + 1) p) ⊆ s.freeFrames)

/-- Two states have the same blocks on every list, and the same bitmaps below the largest order, bit
for bit. -/
structure SameLists (mmap : MemoryMap) (s s' : PMM) : Prop where
  lists : ∀ o ≤ buddyMaxOrder, ∀ x, s.OnFreeList o x ↔ s'.OnFreeList o x
  bitmaps : ∀ o < buddyMaxOrder, ∀ j < bytesNeeded (maxPfnOf mmap) o,
    s.mem (s.buddyMap o + j) = s'.mem (s'.buddyMap o + j)

theorem BuddyInv.canonicalLists (h : BuddyInv g s F) : CanonicalLists s := by
  intro o ho p hp
  rw [h.onFreeList_iff ho, h.freeFrames_eq]
  constructor
  · rintro ⟨q, hmax, heq⟩
    have hlt := (h.frames q (hmax.subset (self_mem_block o q))).lt
    obtain rfl := nodeOf_inj (by omega) hp heq
    exact ⟨hmax.aligned, hmax.subset, hmax.top⟩
  · rintro ⟨hal, hsub, htop⟩
    exact ⟨p, ⟨ho, hal, hsub, htop⟩, rfl⟩

/-- A byte of a slice, bit by bit. -/
theorem byte_testBit (s : PMM) (o j b : ℕ) (hb : b < 8) :
    (s.mem (s.buddyMap o + j)).toNat.testBit b = s.bitAt o (8 * j + b) := by
  rw [bitAt, show (8 * j + b) / 8 = j by omega, show (8 * j + b) % 8 = b by omega]

/-- **The free set determines the lists and the bitmaps.** -/
theorem BuddyInv.sameLists (h : BuddyInv g s F) (h' : BuddyInv g s' F)
    (hmap : g.maxPfn = maxPfnOf mmap) : SameLists mmap s s' := by
  refine ⟨fun o ho x => by rw [h.onFreeList_iff ho, h'.onFreeList_iff ho], fun o ho j hj => ?_⟩
  obtain ⟨L, B, hrepr, hsync⟩ := h.repr
  obtain ⟨L', B', hrepr', hsync'⟩ := h'.repr
  rw [← hmap] at hj
  -- the bit of a pair is read off the maximal blocks
  have hmem : ∀ q, q ∈ L o ↔ q ∈ L' o := fun q => by
    rw [hsync.maximal o ho.le, hsync'.maximal o ho.le]
  have hbits : ∀ i, B o i = B' o i := fun i => by
    have hal : 2 ^ o ∣ i * 2 ^ (o + 1) := ⟨i * 2, by ring⟩
    have hb := hsync.bits o ho _ hal
    have hb' := hsync'.bits o ho _ hal
    rw [Nat.mul_div_cancel _ (Nat.two_pow_pos _)] at hb hb'
    rw [hb, hb', decide_eq_decide.mpr (hmem _), decide_eq_decide.mpr (hmem _)]
  refine UInt8.toNat_inj.mp (Nat.eq_of_testBit_eq fun b => ?_)
  by_cases hb : b < 8
  · have hi : (8 * j + b) / 8 < bytesNeeded g.maxPfn o := by omega
    rw [byte_testBit _ _ _ _ hb, byte_testBit _ _ _ _ hb, hrepr.bits o ho.le _ hi,
      hrepr'.bits o ho.le _ hi, hbits]
  · have hlow : ∀ x : UInt8, x.toNat.testBit b = false := fun x =>
      Nat.testBit_lt_two_pow (x.toNat_lt.trans_le (Nat.pow_le_pow_right two_pos (not_lt.mp hb)))
    rw [hlow, hlow]

/-- What clients hold determines what is free. -/
theorem World.Conserved.freeFrames_eq {F₀ : Set ℕ} (hc : w.Conserved F₀)
    (hheld : ∀ b ∈ w.live, Disjoint b.pages w.pmm.freeFrames) :
    w.pmm.freeFrames = F₀ \ (w.livePages ∪ w.marked) := by
  rw [← hc.total, Set.union_assoc, Set.union_sdiff_right, eq_comm, sdiff_eq_left,
    Set.disjoint_union_right]
  refine ⟨Set.disjoint_right.mpr ?_, hc.marked_free.symm⟩
  rintro q ⟨b, hb, hq⟩
  exact Set.disjoint_left.mp (hheld b hb) hq

/-- **The free lists are canonical in every reachable world**: what is on them depends on the set of
free frames only, so a history that ends with what it started with restores them. -/
theorem reaches_canonical (hwf : mmap.WellFormed) (hboot : Boots k mmap s₀)
    (hreach : Reaches mmap (World.start s₀) w) (hreach' : Reaches mmap (World.start s₀) w') :
    CanonicalLists w.pmm ∧
      (w.pmm.freeFrames = w'.pmm.freeFrames → SameLists mmap w.pmm w'.pmm) ∧
      (w.live.Perm w'.live → w.marked = w'.marked → SameLists mmap w.pmm w'.pmm) := by
  obtain ⟨g, hmap, hinv₀, hcons₀, -, -⟩ := hboot.start hwf
  have hinv := Reaches.inv hmap hinv₀ hreach
  have hinv' := Reaches.inv hmap hinv₀ hreach'
  have hcons := Reaches.conserved hmap hinv₀ hcons₀ hreach
  have hcons' := Reaches.conserved hmap hinv₀ hcons₀ hreach'
  have hsame : w.pmm.freeFrames = w'.pmm.freeFrames → SameLists mmap w.pmm w'.pmm := fun heq =>
    (heq ▸ hinv.buddy).sameLists hinv'.buddy hmap
  refine ⟨hinv.buddy.canonicalLists, hsame, fun hlive hmarked => hsame ?_⟩
  have hpages : w.livePages = w'.livePages := livePages_perm hlive w.pmm w'.pmm w.marked w'.marked
  rw [hcons.freeFrames_eq fun b hb => (hinv.held b hb).disjoint,
    hcons'.freeFrames_eq fun b hb => (hinv'.held b hb).disjoint, hpages, hmarked]

/-! ## A run on a machine with memory below and above the kernel -/

theorem lowAndHigh_boots : ∃ s₀, Boots imageAt1M lowAndHigh s₀ ∧ Set.Ico 1 8 ⊆ s₀.freeFrames := by
  obtain ⟨s, p, s₁, s', g, hrun, -, hinit, hswitched⟩ :=
    switch_of_room lowAndHigh_wellFormed (by decide) 0x103000 0x100 (by decide) rfl (by decide +kernel)
  refine ⟨s', ⟨_, _, s, [], [], hrun, hinit⟩, ?_⟩
  rw [hswitched.inv.freeFrames_eq]
  rintro q ⟨hlow, hhigh⟩
  interval_cases q
  all_goals
    refine ⟨⟨_, List.mem_cons_self, rfl, Nat.zero_le _, by decide⟩, ?_⟩
    rintro (h0 | ⟨hc, -⟩ | ⟨hc, -⟩)
    · exact absurd h0 (by decide)
    · exact absurd hc (by decide)
    · exact absurd hc (by decide)

/-- **Two runs with one outcome**: a client takes a page, writes to it and keeps it, and the pages 1
and 2 are marked used if they are free.  In the first run a second client takes a page in between
and frees it. -/
theorem exists_runs (hwf : mmap.WellFormed) (hboot : Boots k mmap s₀) (hfree : {1, 2} ⊆ s₀.freeFrames) :
    ∃ w w' i, Reaches mmap (World.start s₀) w ∧ Reaches mmap (World.start s₀) w' ∧
      w.live = [⟨i * pageSize, 1⟩] ∧ w'.live = w.live ∧ w'.marked = w.marked ∧
      w.marked.Nonempty := by
  obtain ⟨g, hmap, hinv₀, hcons₀, -, -⟩ := hboot.start hwf
  have hregion : {1, 2} ⊆ usedRegion 0x1000 0x2000 := by
    have huf : usedFrom 0x1000 = 1 := by decide
    have huu : usedUpTo 0x1000 0x2000 = 3 := by decide +kernel
    rw [usedRegion, huf, huu]
    rintro q (rfl | rfl) <;> decide
  -- what is free depends on what is held and marked only
  have hF : ∀ {w}, Reaches mmap (World.start s₀) w →
      w.pmm.freeFrames = s₀.freeFrames \ (w.livePages ∪ w.marked) := fun hreach =>
    (Reaches.conserved hmap hinv₀ hcons₀ hreach).freeFrames_eq fun b hb =>
      ((Reaches.inv hmap hinv₀ hreach).held b hb).disjoint
  have hmark : ∀ {w}, Reaches mmap (World.start s₀) w → ∃ s',
      Step mmap w ⟨s', w.live, w.marked ∪ w.pmm.freeFrames ∩ usedRegion 0x1000 0x2000⟩ := by
    intro w hreach
    have hinv := Reaches.inv hmap hinv₀ hreach
    obtain ⟨s', heq, -⟩ :=
      @markRegionUsed_takes _ _ _ 0x1000 0x2000 hinv.buddy hinv.sized hinv.initialized (by decide)
    exact ⟨s', .markUsed (by decide) heq⟩
  -- the first client takes a page and writes to it
  obtain ⟨i, -, s₁, hstep₁, -⟩ := hinv₀.allocPage mmap ⟨1, hfree (by simp)⟩
  have hstep₂ := (hinv₀.step hmap hstep₁).writePage hmap List.mem_cons_self 1
  have hreach₂ := (Relation.ReflTransGen.single hstep₁).tail hstep₂
  generalize hw₂ : World.mk _ _ _ = w₂ at hreach₂
  have hlive₂ : w₂.live = [⟨i * pageSize, 1⟩] := by rw [← hw₂]; rfl
  have hmarked₂ : w₂.marked = ∅ := by rw [← hw₂]; rfl
  have hF₂ : w₂.pmm.freeFrames = s₀.freeFrames \ {i} := by
    have hpages : (Block.mk (i * pageSize) 1).pages = {i} := (pages_eq i 1).trans (block_zero i)
    rw [hF hreach₂, hmarked₂, Set.union_empty, World.livePages, hlive₂]
    simp [hpages]
  have hleft : (w₂.pmm.freeFrames ∩ usedRegion 0x1000 0x2000).Nonempty := by
    rw [hF₂]
    by_cases hi : i = 1
    · exact ⟨2, ⟨hfree (by simp), by simp [hi]⟩, hregion (by simp)⟩
    · exact ⟨1, ⟨hfree (by simp), fun h => hi h.symm⟩, hregion (by simp)⟩
  -- the second client takes a page and frees it
  obtain ⟨j, -, s₃, hstep₃, -⟩ :=
    (Reaches.inv hmap hinv₀ hreach₂).allocPage mmap (hleft.mono Set.inter_subset_left)
  have hreach₄ := (hreach₂.tail hstep₃).tail (.free List.mem_cons_self)
  rw [List.erase_cons_head] at hreach₄
  generalize hw₄ : World.mk _ _ _ = w₄ at hreach₄
  have hlive₄ : w₄.live = w₂.live := by rw [← hw₄]
  have hmarked₄ : w₄.marked = w₂.marked := by rw [← hw₄]
  have hF₄ : w₄.pmm.freeFrames = w₂.pmm.freeFrames := by
    rw [hF hreach₄, hF hreach₂, World.livePages, hlive₄, hmarked₄, World.livePages]
  obtain ⟨s₅, hstep₅⟩ := hmark hreach₄
  obtain ⟨s₆, hstep₆⟩ := hmark hreach₂
  refine ⟨_, _, i, hreach₄.tail hstep₅, hreach₂.tail hstep₆, hlive₄.trans hlive₂, hlive₄.symm, ?_, ?_⟩
  · rw [hmarked₄, hF₄]
  · rw [hF₄]
    exact hleft.mono Set.subset_union_right

/-- The runs on that machine. -/
theorem lowAndHigh_runs : ∃ s₀ w w', Boots imageAt1M lowAndHigh s₀ ∧
    Reaches lowAndHigh (World.start s₀) w ∧ Reaches lowAndHigh (World.start s₀) w' ∧
    (w.live ≠ [] ∧ w.marked.Nonempty) ∧ w'.live = w.live ∧ w'.marked = w.marked := by
  obtain ⟨s₀, hboot, hfree⟩ := lowAndHigh_boots
  obtain ⟨w, w', i, hreach, hreach', hlive, hsame, hsame', hmarked⟩ :=
    exists_runs lowAndHigh_wellFormed hboot fun q hq => hfree <| by
      rcases hq with rfl | rfl <;> decide
  exact ⟨s₀, w, w', hboot, hreach, hreach', ⟨by simp [hlive], hmarked⟩, hsame, hsame'⟩

theorem lowAndHigh_refinesFreeSet : ∃ s₀ w, (w.live ≠ [] ∧ w.marked.Nonempty) ∧
    RefinesFreeSet s₀ w := by
  obtain ⟨s₀, w, -, hboot, hreach, -, hbusy, -⟩ := lowAndHigh_runs
  exact ⟨s₀, w, hbusy, reaches_refinesFreeSet lowAndHigh_wellFormed hboot hreach⟩

theorem lowAndHigh_wellFormedLists : ∃ w : World, (w.live ≠ [] ∧ w.marked.Nonempty) ∧
    WellFormedLists lowAndHigh w.pmm := by
  obtain ⟨s₀, w, -, hboot, hreach, -, hbusy, -⟩ := lowAndHigh_runs
  exact ⟨w, hbusy, reaches_wellFormedLists lowAndHigh_wellFormed hboot hreach⟩

theorem lowAndHigh_canonical : ∃ w w' : World, (w.live ≠ [] ∧ w.marked.Nonempty) ∧
    CanonicalLists w.pmm ∧ SameLists lowAndHigh w.pmm w'.pmm := by
  obtain ⟨s₀, w, w', hboot, hreach, hreach', hbusy, hlive, hmarked⟩ := lowAndHigh_runs
  obtain ⟨hcan, -, hlists⟩ := reaches_canonical lowAndHigh_wellFormed hboot hreach hreach'
  exact ⟨w, w', hbusy, hcan, hlists (by rw [hlive]) hmarked.symm⟩

end PMM

end MioOS
