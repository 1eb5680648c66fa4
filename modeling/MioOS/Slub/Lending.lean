import MioOS.Pmm.Refinement
import MioOS.Slub.Cache

/-!
# Slub/Lending — the PMM as a page source

The PMM serves several clients at once.  `Lends` is what one of them sees: the frames it was handed
out one by one, and `rest`, the blocks of the others, whose bytes stay what they are while this client
calls.  So the PMM hands out unused pages to each (`handsOut_pmm`).
-/

namespace MioOS

open ByteMemory Intrusive BuddyBlocks

namespace PMM

variable {g : Geometry} {s s' : PMM} {F F₀ H H' M M' R : Set ℕ} {m m₀ m₁ : Mem} {w w' : World} {b : Block}
  {rest live live' : List Block} {l : List ℕ} {p q r x : ℕ}

/-- The block of one frame. -/
def frameBlock (q : ℕ) : Block := ⟨q * pageSize, 1⟩

theorem pages_frameBlock (q : ℕ) : (frameBlock q).pages = {q} := by
  rw [frameBlock, pages_eq]
  exact block_zero q

theorem frameBlock_inj : frameBlock p = frameBlock q ↔ p = q := by
  rw [frameBlock, frameBlock, Block.mk.injEq, pageSize]
  omega

/-- The bytes of blocks that clients hold. -/
def heldBytes (live : List Block) : Set ℕ := {x | ∃ b ∈ live, ∃ q ∈ b.pages, x ∈ pageBytes q}

theorem heldBytes_append : heldBytes (live ++ live') = heldBytes live ∪ heldBytes live' := by
  ext x
  simp [heldBytes, or_and_right, exists_or]

theorem heldBytes_mono (h : live ⊆ live') : heldBytes live ⊆ heldBytes live' :=
  fun _ ⟨b, hb, hx⟩ => ⟨b, h hb, hx⟩

theorem mem_pageBytes : x ∈ pageBytes q ↔ slabAddr q ≤ x ∧ x < slabAddr q + 4096 := by
  rw [pageBytes, Set.mem_Ico, slabAddr, pageSize]
  omega

theorem eq_of_mem_pageBytes (hp : x ∈ pageBytes p) (hq : x ∈ pageBytes q) : p = q := by
  rw [pageBytes, Set.mem_Ico] at hp hq
  omega

theorem heldBytes_frameBlocks : heldBytes (l.map frameBlock) = KmemCache.frameBytes {q | q ∈ l} := by
  ext x
  constructor
  · rintro ⟨_, hb, r, hr, hx⟩
    obtain ⟨q, hq, rfl⟩ := List.mem_map.mp hb
    rw [pages_frameBlock, Set.mem_singleton_iff] at hr
    exact ⟨q, hq, mem_pageBytes.mp (hr ▸ hx)⟩
  · rintro ⟨q, hq, hx⟩
    exact ⟨_, List.mem_map_of_mem hq, q, by rw [pages_frameBlock]; rfl, mem_pageBytes.mpr hx⟩

/-! ## What clients hold is not the allocator's -/

namespace World.Inv

/-- **A held byte is in neither a bitmap nor a free page.** -/
theorem held_outside (h : w.Inv g) :
    heldBytes w.live ⊆ (g.bitmap ∪ {x | ∃ q ∈ w.pmm.freeFrames, x ∈ pageBytes q})ᶜ := by
  rintro x ⟨b, hb, q, hq, hx⟩ (hbit | ⟨p, hp, hx'⟩)
  · have hoff := ((h.held b hb).frames q hq).off_bitmap
    rw [pageBytes, Set.mem_Ico] at hx
    rw [Geometry.bitmap, Set.mem_Ico] at hbit
    omega
  · obtain rfl := eq_of_mem_pageBytes hx hx'
    exact Set.disjoint_left.mp (h.held b hb).disjoint hq hp

/-- So the allocator does not write to it. -/
theorem held_off (h : w.Inv g) : heldBytes w.live ⊆ (owned g w.pmm.freeFrames)ᶜ :=
  h.held_outside.trans (Set.compl_subset_compl.mpr
    (Set.union_subset_union_right _ fun _ ⟨p, hp, hx⟩ => ⟨p, hp, nodeBytes_subset p hx⟩))

/-- Bytes of different blocks are different. -/
theorem apart_bytes (h : World.Inv g ⟨s, live ++ live', M⟩) :
    Disjoint (heldBytes live) (heldBytes live') := by
  rw [Set.disjoint_left]
  rintro x ⟨b, hb, q, hq, hx⟩ ⟨b', hb', q', hq', hx'⟩
  obtain rfl := eq_of_mem_pageBytes hx hx'
  exact Set.disjoint_left.mp ((List.pairwise_append.mp h.apart).2.2 b hb b' hb') hq hq'

/-- The order of the clients does not matter. -/
theorem perm (h : World.Inv g ⟨s, live, M⟩) (hl : live.Perm live') (M' : Set ℕ) :
    World.Inv g ⟨s, live', M'⟩ :=
  ⟨h.initialized, h.buddy, h.sized, fun b hb => h.held b (hl.symm.subset hb),
    (hl.pairwise_iff fun hd => hd.symm).mp h.apart⟩

/-- A write that the allocator does not see. -/
theorem write (h : World.Inv g ⟨s, live, M⟩) (hm : Mem.AgreeOn (owned g s.freeFrames) s.mem m) :
    World.Inv g ⟨{ s with mem := m }, live, M⟩ ∧
      PMM.freeFrames { s with mem := m } = s.freeFrames := by
  have hinv := h.buddy.write hm
  have hF : PMM.freeFrames { s with mem := m } = s.freeFrames := hinv.freeFrames_eq
  refine ⟨⟨h.initialized, ?_, ⟨h.sized.used, h.sized.free⟩, fun b hb => ?_, h.apart⟩, hF⟩
  · rw [hF]
    exact hinv
  · rw [hF]
    exact h.held b hb

end World.Inv

namespace World.Conserved

theorem perm (h : World.Conserved F₀ ⟨s, live, M⟩) (hl : live.Perm live') :
    World.Conserved F₀ ⟨s, live', M⟩ := by
  refine ⟨?_, h.marked_free, fun b hb => h.marked_live b (hl.symm.subset hb)⟩
  rw [← livePages_perm hl s s M M]
  exact h.total

theorem congr (h : World.Conserved F₀ ⟨s, live, M⟩) (hF : s'.freeFrames = s.freeFrames) :
    World.Conserved F₀ ⟨s', live, M⟩ := by
  refine ⟨?_, ?_, h.marked_live⟩
  · rw [hF]
    exact h.total
  · rw [hF]
    exact h.marked_free

end World.Conserved

/-! ## One client -/

/-- **What the PMM lends one client**: it has handed out the frames `H` to it and the blocks `rest` to
others, and the others' bytes are those of `m₀`. -/
structure Lends (g : Geometry) (F₀ M : Set ℕ) (rest : List Block) (m₀ : Mem) (s : PMM) (H : Set ℕ) :
    Prop where
  frames : ∃ l : List ℕ, l.Nodup ∧ {q | q ∈ l} = H ∧
    World.Inv g ⟨s, l.map frameBlock ++ rest, M⟩ ∧
    World.Conserved F₀ ⟨s, l.map frameBlock ++ rest, M⟩
  rest : Mem.AgreeOn (heldBytes rest) m₀ s.mem

theorem Takes.agreeOn (h : Takes g s F R s') : Mem.AgreeOn (owned g F)ᶜ s.mem s'.mem := by
  have hm := h.evolves.mem
  rwa [mem_countUsed] at hm

theorem Gives.agreeOn (h : Gives g s F R s') : Mem.AgreeOn (owned g (F ∪ R))ᶜ s.mem s'.mem := by
  have hm := h.evolves.mem
  rwa [mem_countFreed] at hm

namespace Lends

/-- What is lent is of the frames there are, and nobody else has it. -/
theorem subset (h : Lends g F₀ M rest m₀ s H) : H ⊆ F₀ \ ({q | ∃ b ∈ rest, q ∈ b.pages} ∪ M) := by
  obtain ⟨⟨l, -, rfl, hinv, hcons⟩, -⟩ := h
  intro q hq
  have hb : frameBlock q ∈ l.map frameBlock ++ rest :=
    List.mem_append_left _ (List.mem_map_of_mem hq)
  have hpages : q ∈ (frameBlock q).pages := by
    rw [pages_frameBlock]
    rfl
  refine ⟨hcons.total ▸ Or.inl (Or.inr ⟨_, hb, hpages⟩), ?_⟩
  rintro (⟨b, hb', hqb⟩ | hqM)
  · exact Set.disjoint_left.mp
      ((List.pairwise_append.mp hinv.apart).2.2 _ (List.mem_map_of_mem hq) b hb') hpages hqb
  · exact Set.disjoint_left.mp (hcons.marked_live _ hb) hqM hpages

theorem freeFrames_eq (h : Lends g F₀ M rest m₀ s H) :
    s.freeFrames = F₀ \ (H ∪ ({q | ∃ b ∈ rest, q ∈ b.pages} ∪ M)) := by
  obtain ⟨⟨l, -, rfl, hinv, hcons⟩, -⟩ := h
  have hlive : World.livePages ⟨s, l.map frameBlock ++ rest, M⟩
      = {q | q ∈ l} ∪ {q | ∃ b ∈ rest, q ∈ b.pages} := by
    ext q
    simp [World.livePages, or_and_right, exists_or, pages_frameBlock]
  have hF : s.freeFrames = _ := hcons.freeFrames_eq fun b hb => (hinv.held b hb).disjoint
  rw [hF, hlive, Set.union_assoc]

/-- **What the client gives back is free.** -/
theorem freeFrames_union (h : Lends g F₀ M rest m₀ s H) (h' : Lends g F₀ M rest m₁ s' H')
    (hsub : H' ⊆ H) : s'.freeFrames = s.freeFrames ∪ (H \ H') := by
  have hlent := h.subset
  rw [h.freeFrames_eq, h'.freeFrames_eq]
  ext q
  have hq := @hlent q
  have hq' := @hsub q
  simp only [Set.mem_sdiff, Set.mem_union] at hq ⊢
  tauto

end Lends

/-- **The PMM hands out unused pages** to each of its clients. -/
theorem handsOut_pmm (g : Geometry) (F₀ M : Set ℕ) (rest : List Block) (m₀ : Mem) :
    KmemCache.HandsOut PMM.pageSource (Lends g F₀ M rest m₀) where
  mem_setMem _ _ := rfl
  lt := by
    rintro s H ⟨⟨l, -, rfl, hinv, -⟩, -⟩ q hq
    have hb : frameBlock q ∈ l.map frameBlock ++ rest :=
      List.mem_append_left _ (List.mem_map_of_mem hq)
    exact ((hinv.held _ hb).frames q (by rw [pages_frameBlock]; rfl)).lt
  alloc := by
    rintro s H ⟨⟨l, hnd, rfl, hinv, hcons⟩, hrest⟩
    have hoff := hinv.held_off
    rw [heldBytes_append, Set.union_subset_iff, heldBytes_frameBlocks] at hoff
    rcases hinv.allocPages 1 with ⟨i, s', heq, hne, ho, hal, ht⟩ | heq
    · have hpages : (frameBlock i).pages = block (pagesToOrder 1) i := pages_eq i 1
      have ht' : Takes g s s.freeFrames (frameBlock i).pages s' := by rwa [hpages]
      have hdiv : i * pageSize / pageSize = i := Nat.mul_div_cancel _ (by decide)
      have hinv' : World.Inv g ⟨s', frameBlock i :: (l.map frameBlock ++ rest), M⟩ :=
        hinv.takeBlock ht' (by simp only [frameBlock, hdiv]) ho (by simpa only [frameBlock, hdiv])
      have hfree : i ∈ s.freeFrames := ht'.subset (by rw [pages_frameBlock]; rfl)
      have hnotin : i ∉ l := fun hin => by
        have hheld := hinv.held _ (List.mem_append_left _ (List.mem_map_of_mem hin))
        exact Set.disjoint_left.mp hheld.disjoint (by rw [pages_frameBlock]; rfl) hfree
      refine Or.inr ⟨i, s', heq, Nat.pos_of_ne_zero fun h0 => hne (by rw [h0, Nat.zero_mul]),
        hnotin, ⟨⟨i :: l, List.nodup_cons.mpr ⟨hnotin, hnd⟩, ?_, hinv', hcons.takeBlock ht'⟩, ?_⟩, ?_⟩
      · ext q
        simp
      · exact hrest.trans (ht'.agreeOn.mono hoff.2)
      · exact ht'.agreeOn.mono hoff.1
    · exact Or.inl ⟨s, heq, ⟨⟨l, hnd, rfl, hinv, hcons⟩, hrest⟩, Mem.AgreeOn.refl _ _⟩
  free := by
    rintro s H q ⟨⟨l, hnd, rfl, hinv, hcons⟩, hrest⟩ hq
    have hq : q ∈ l := hq
    have hb : frameBlock q ∈ l.map frameBlock ++ rest :=
      List.mem_append_left _ (List.mem_map_of_mem hq)
    have hg := hinv.freeBlock_gives hb
    have hperm : ((l.map frameBlock ++ rest).erase (frameBlock q)).Perm
        ((l.erase q).map frameBlock ++ rest) := by
      rw [List.erase_append_left _ (List.mem_map_of_mem hq),
        List.map_erase fun _ _ => frameBlock_inj.mp]
    have hinv' : World.Inv g ⟨s.freePages (q * pageSize) 1, (l.erase q).map frameBlock ++ rest, M⟩ :=
      (hinv.free hb).perm hperm M
    have hF : (s.freePages (q * pageSize) 1).freeFrames = s.freeFrames ∪ (frameBlock q).pages :=
      hg.freeFrames
    have hoff : heldBytes ((l.erase q).map frameBlock ++ rest) ⊆
        (owned g (s.freePages (q * pageSize) 1).freeFrames)ᶜ := hinv'.held_off
    rw [hF, heldBytes_append, Set.union_subset_iff, heldBytes_frameBlocks] at hoff
    have hset : {r | r ∈ l.erase q} = {r | r ∈ l} \ {q} := by
      ext r
      simp [hnd.mem_erase_iff, and_comm]
    refine ⟨⟨⟨l.erase q, hnd.erase q, hset, hinv', ?_⟩, ?_⟩, ?_⟩
    · exact (hcons.free hb hg).perm hperm
    · exact hrest.trans (hg.agreeOn.mono hoff.2)
    · rw [← hset]
      exact hg.agreeOn.mono hoff.1
  write := by
    rintro s H m ⟨⟨l, hnd, rfl, hinv, hcons⟩, hrest⟩ hm
    have hoff := hinv.held_off
    rw [heldBytes_append, Set.union_subset_iff, heldBytes_frameBlocks] at hoff
    obtain ⟨hinv', hF⟩ := hinv.write (hm.mono fun x hx hx' => hoff.1 hx' hx)
    refine ⟨⟨l, hnd, rfl, hinv', hcons.congr hF⟩, hrest.trans (hm.mono fun x hx hx' => ?_)⟩
    rw [← heldBytes_frameBlocks] at hx'
    exact Set.disjoint_left.mp hinv.apart_bytes hx' hx

/-! ## Calls of the PMM -/

/-- A call of the PMM that returned. -/
inductive Call (w : World) : World → Prop
  | alloc {n p : ℕ} {s' : PMM} : w.pmm.allocPages n = some (p, s') → p ≠ 0 →
      Call w ⟨s', ⟨p, n⟩ :: w.live, w.marked⟩
  | allocNull {n : ℕ} {s' : PMM} : w.pmm.allocPages n = some (0, s') →
      Call w ⟨s', w.live, w.marked⟩
  | free {b : Block} : b ∈ w.live →
      Call w ⟨w.pmm.freePages b.ptr b.num, w.live.erase b, w.marked⟩
  | below {p : ℕ} {s' : PMM} : w.pmm.allocPageBelow1mib = some (p, s') → p ≠ 0 →
      Call w ⟨s', ⟨p, 1⟩ :: w.live, w.marked⟩
  | belowNull {s' : PMM} : w.pmm.allocPageBelow1mib = some (0, s') →
      Call w ⟨s', w.live, w.marked⟩
  | markUsed {base length : ℕ} {s' : PMM} : base < 2 ^ 64 →
      w.pmm.markRegionUsed base length = some s' →
      Call w ⟨s', w.live, w.marked ∪ w.pmm.freeFrames ∩ usedRegion base length⟩

namespace Call

theorem step (h : Call w w') (mmap : MemoryMap) : Step mmap w w' := by
  cases h with
  | alloc heq hne => exact .alloc heq hne
  | allocNull heq => exact .allocNull heq
  | free hb => exact .free hb
  | below heq hne => exact .below heq hne
  | belowNull heq => exact .belowNull heq
  | markUsed hbase heq => exact .markUsed hbase heq

/-- A call among blocks that others hold. -/
theorem frame (h : Call ⟨s, live, M⟩ ⟨s', live', M'⟩) (rest : List Block) :
    ∃ l, Call ⟨s, rest ++ live, M⟩ ⟨s', l, M'⟩ ∧ l.Perm (rest ++ live') := by
  cases h with
  | alloc heq hne => exact ⟨_, .alloc heq hne, List.perm_middle.symm⟩
  | allocNull heq => exact ⟨_, .allocNull heq, .refl _⟩
  | @free b hb =>
    refine ⟨_, .free (List.mem_append_right _ hb), List.cons_perm_iff_perm_erase.mp ?_ |>.2.symm⟩
    exact List.perm_middle.symm.trans ((List.perm_cons_erase hb).symm.append_left rest)
  | below heq hne => exact ⟨_, .below heq hne, List.perm_middle.symm⟩
  | belowNull heq => exact ⟨_, .belowNull heq, .refl _⟩
  | markUsed hbase heq => exact ⟨_, .markUsed hbase heq, .refl _⟩

/-- **A call leaves what clients hold before and after it.** -/
theorem keeps (h : w.Inv g) (hcall : Call w w') :
    Mem.AgreeOn (heldBytes w.live ∩ heldBytes w'.live) w.pmm.mem w'.pmm.mem := by
  have htakes : ∀ {R s'}, Takes g w.pmm w.pmm.freeFrames R s' →
      Mem.AgreeOn (heldBytes w.live) w.pmm.mem s'.mem := fun ht => ht.agreeOn.mono h.held_off
  cases hcall with
  | alloc heq hne =>
    rcases h.allocPages _ with ⟨i, s₁, heq', -, -, -, ht⟩ | heq'
    · obtain ⟨rfl, rfl⟩ := Prod.mk.inj (Option.some.inj (heq.symm.trans heq'))
      exact (htakes ht).mono Set.inter_subset_left
    · exact absurd (Prod.mk.inj (Option.some.inj (heq.symm.trans heq'))).1 hne
  | allocNull heq =>
    rcases h.allocPages _ with ⟨i, s₁, heq', hne, -⟩ | heq'
    · exact absurd (Prod.mk.inj (Option.some.inj (heq'.symm.trans heq))).1 hne
    · obtain ⟨-, rfl⟩ := Prod.mk.inj (Option.some.inj (heq.symm.trans heq'))
      exact Mem.AgreeOn.refl _ _
  | @free b hb =>
    have hg := h.freeBlock_gives hb
    have hoff := (h.free hb).held_off
    have hF : (w.pmm.freePages b.ptr b.num).freeFrames = w.pmm.freeFrames ∪ b.pages := hg.freeFrames
    rw [hF] at hoff
    exact (hg.agreeOn.mono hoff).mono Set.inter_subset_right
  | below heq hne =>
    rcases allocPageBelow1mib_spec h.buddy h.initialized with ⟨q, -, -, s₁, heq', ht⟩ | ⟨-, heq'⟩
    · obtain ⟨rfl, rfl⟩ := Prod.mk.inj (Option.some.inj (heq.symm.trans heq'))
      exact (htakes ht).mono Set.inter_subset_left
    · exact absurd (Prod.mk.inj (Option.some.inj (heq.symm.trans heq'))).1 hne
  | belowNull heq =>
    rcases allocPageBelow1mib_spec h.buddy h.initialized with ⟨q, -, -, s₁, heq', ht⟩ | ⟨-, heq'⟩
    · obtain ⟨-, rfl⟩ := Prod.mk.inj (Option.some.inj (heq.symm.trans heq'))
      exact (htakes ht).mono Set.inter_subset_left
    · obtain ⟨-, rfl⟩ := Prod.mk.inj (Option.some.inj (heq.symm.trans heq'))
      exact Mem.AgreeOn.refl _ _
  | @markUsed base length s' hbase heq =>
    obtain ⟨s₁, heq', ht⟩ := markRegionUsed_takes length h.buddy h.sized h.initialized hbase
    obtain rfl := Option.some.inj (heq.symm.trans heq')
    exact (htakes ht).mono Set.inter_subset_left

end Call

end PMM

end MioOS
