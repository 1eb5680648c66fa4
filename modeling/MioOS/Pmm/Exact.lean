import MioOS.Pmm.Refinement

/-!
# Pmm/Exact — nothing too little and nothing too much

Three operations do exactly what their callers rely on:

* `carve_exact` — the carve of a map's entries frees every usable page that is not reserved, once, and
  no other;
* `allocPages_null_iff` — in every reachable world `alloc_pages` fails only for want of an aligned
  free run;
* `markRegion_exact` — in every reachable world `mark_region_used` removes the free pages of the
  region and no other, and `mark_region_free` is its inverse.

The middle one is where the lists being canonical pays: a free run cannot be left split across
lower lists (`BuddyInv.exists_listed`).
-/

namespace MioOS

open ByteMemory Intrusive BuddyBlocks

namespace PMM

variable {g : Geometry} {k : KernelImage} {mmap : MemoryMap} {s s' s₀ : PMM} {w w' : World}
  {F F₀ R : Set ℕ} {base length hr phys bp n o p q : ℕ}

/-! ## The carve -/

/-- `max_pfn` of a map whose usable regions end inside the HHDM. -/
theorem maxPfnOf_lt (hend : ∀ e ∈ mmap, e.isUsable = true → e.addr + e.len ≤ 2 ^ 47) :
    maxPfnOf mmap < 2 ^ 35 := by
  have hmax : mmap.maxUsable ≤ 2 ^ 47 := by
    induction mmap with
    | nil => exact Nat.zero_le _
    | cons e rest ih =>
      refine max_le ?_ (ih fun e' he' => hend e' (List.mem_cons_of_mem _ he'))
      split
      · exact hend e List.mem_cons_self ‹_›
      · exact Nat.zero_le _
  rw [maxPfnOf, pageSize]
  omega

/-- **The carve of the entries is exact**: it ends; the calls of `free_pages_order` it makes hand over
no page twice; the free pages are then the whole usable pages without page 0 and the two reserved
stretches, and `free_memory` counts them. -/
theorem carve_exact (hwf : mmap.WellFormed)
    (hend : ∀ e ∈ mmap, e.isUsable = true → e.addr + e.len ≤ 2 ^ 47)
    (h : Prepared mmap hr phys bp s) :
    ∃ s', carve k mmap s = some s' ∧
      s' = s.freeEach (carveCalls k mmap s) ∧
      (carveCalls k mmap s).Pairwise (fun c c' => Disjoint (callPages c) (callPages c')) ∧
      s'.freeFrames = {q ∈ mmap.usablePages | q ≠ 0 ∧
        ¬ (k.startPhys ≤ q * pageSize ∧ q * pageSize < alignUp hr pageSize) ∧
        ¬ (hr ≤ q * pageSize ∧ q * pageSize < bp)} ∧
      s'.freeMemory = pageSize * s'.freeFrames.ncard := by
  obtain ⟨heq, hcalls⟩ := carve_eq (k := k) hwf h.scalars
  obtain ⟨s', heq', hgives⟩ := h.carve (k := k) hwf (maxPfnOf_lt hend)
  obtain rfl := Option.some.inj (heq'.symm.trans heq)
  have hfree := hgives.freeFrames
  rw [Set.empty_union] at hfree
  refine ⟨_, heq, rfl, hcalls.pairwise, ?_, ?_⟩
  · rw [hfree]
    ext q
    simp only [initialFree, Reserved, not_or, ne_eq, Set.mem_ofPred_eq]
  · have hle := hgives.inv.ncard_le
    rw [Set.empty_union] at hle
    rw [hgives.evolves.free, hfree]
    change u64 (s.freeMemory + _) = _
    rw [h.free, Nat.zero_add, u64_of_lt (by rw [pageSize]; omega)]

/-! ## Failing to allocate -/

/-- **`alloc_pages` fails only when it must**: it returns null exactly when the least order that
holds the pages is too large, or no aligned run of that order is free. -/
theorem allocPages_null_iff (hwf : mmap.WellFormed) (hboot : Boots k mmap s₀)
    (hreach : Reaches mmap (World.start s₀) w) (hn : n < 2 ^ 64) (ho : IsLeast {j | n ≤ 2 ^ j} o) :
    ∃ p s', w.pmm.allocPages n = some (p, s') ∧
      (p = 0 ↔ buddyMaxOrder < o ∨ ¬ ∃ i, 2 ^ o ∣ i ∧ block o i ⊆ w.pmm.freeFrames) := by
  obtain ⟨g, hmap, hinv₀, -, -, -⟩ := hboot.start hwf
  have hinv := Reaches.inv hmap hinv₀ hreach
  obtain rfl : pagesToOrder n = o := (isLeast_pagesToOrder hn).unique ho
  rcases allocPages_spec hinv.buddy hinv.initialized n with
    ⟨hle, i, s', hdvd, heq, ht⟩ | ⟨heq, hnone⟩
  · have hpos := (hinv.buddy.frames i (ht.subset (self_mem_block _ i))).pos
    refine ⟨_, s', heq, iff_of_false (Nat.mul_ne_zero hpos.ne' (by decide)) ?_⟩
    rintro (hlt | hno)
    · omega
    · exact hno ⟨i, hdvd, ht.subset⟩
  · refine ⟨0, w.pmm, heq, iff_of_true rfl (or_iff_not_imp_left.mpr fun hle => ?_)⟩
    rintro ⟨i, hdvd, hsub⟩
    exact hnone (not_lt.mp hle) i hdvd hsub

theorem allocPages_null_lowAndHigh : ∃ (w : World) (p : ℕ) (s' : PMM),
    (w.live ≠ [] ∧ w.marked.Nonempty) ∧ w.pmm.allocPages 0x1000 = some (p, s') ∧ p = 0 := by
  obtain ⟨s₀, w, -, hboot, hreach, -, hbusy, -⟩ := lowAndHigh_runs
  have hleast : IsLeast {j | 0x1000 ≤ 2 ^ j} 12 :=
    ⟨by decide, fun j hj => (Nat.pow_le_pow_iff_right (by decide)).mp (show 2 ^ 12 ≤ 2 ^ j from hj)⟩
  obtain ⟨p, s', heq, hnull⟩ := @allocPages_null_iff _ _ _ _ 0x1000 _ lowAndHigh_wellFormed hboot
    hreach (by decide) hleast
  exact ⟨w, p, s', hbusy, heq, hnull.mpr (Or.inl (by decide))⟩

/-! ## The counters of a run -/

/-- **The counters are exact in every reachable world.** -/
theorem Reaches.accounted (hmap : g.maxPfn = maxPfnOf mmap) (h : w.Inv g) (hc : w.Conserved F₀)
    (hfin : F₀.Finite) (ha : Accounted w.pmm w.pmm.freeFrames)
    (htotal : pageSize * F₀.ncard ≤ w.pmm.totalMemory) (hreach : Reaches mmap w w') :
    Accounted w'.pmm w'.pmm.freeFrames ∧ w'.pmm.totalMemory = w.pmm.totalMemory := by
  induction hreach with
  | refl => exact ⟨ha, rfl⟩
  | @tail v v' hsteps hstep ih =>
    obtain ⟨hacc, htot⟩ := ih
    have hinv := Reaches.inv hmap h hsteps
    have hcons := Reaches.conserved hmap h hc hsteps
    have hfinite := hinv.buddy.finite
    rcases hstep.cases hinv hmap with ⟨b, -, -, -, -, -, ht⟩ | ⟨M, -, -, ht⟩ | ⟨b, hb, -, -, hg⟩ |
      ⟨-, -, m, hm, heq⟩
    · rw [ht.freeFrames, ht.evolves.total, totalMemory_countUsed]
      exact ⟨ht.accounted hfinite hacc, htot⟩
    · rw [ht.freeFrames, ht.evolves.total, totalMemory_countUsed]
      exact ⟨ht.accounted hfinite hacc, htot⟩
    · rw [hg.freeFrames, hg.evolves.total, totalMemory_countFreed]
      refine ⟨hg.accounted hacc ?_, htot⟩
      -- the block and the free frames are apart, and all of them were there at the start
      have hsub : v.pmm.freeFrames ∪ b.pages ⊆ F₀ := by
        rw [← hcons.total]
        refine (Set.union_subset_union_right _ fun q hq => ?_).trans Set.subset_union_left
        exact ⟨b, hb, hq⟩
      have hcard := Set.ncard_union_eq hg.disjoint.symm hfinite
        (hfin.subset (Set.subset_union_right.trans hsub))
      have hle := Nat.mul_le_mul_left pageSize (Set.ncard_le_ncard hsub hfin)
      have hfree := hacc.free
      have hsum := hacc.total
      rw [hcard, Nat.mul_add] at hle
      omega
    · have hbuddy := hinv.buddy.write hm
      rw [heq]
      exact ⟨hbuddy.freeFrames_eq.symm ▸ hacc.congr rfl rfl rfl, htot⟩

/-! ## Regions -/

/-- The frames `mark_region_used` visits are those the region touches. -/
theorem usedRegion_eq (hlen : 1 ≤ length) (hbound : base + length < 2 ^ 63) :
    usedRegion base length = touchedPages base (base + length) := by
  have hfrom : usedFrom base = base / pageSize := by
    rw [usedFrom, alignDown_page (by omega), Nat.mul_div_cancel _ (by decide)]
  have hto : usedUpTo base length = (base + length + 4095) / pageSize := by
    rw [usedUpTo, u64_of_lt (by omega), alignUp_page (by omega), Nat.mul_div_cancel _ (by decide)]
  ext q
  rw [usedRegion, hfrom, hto, Set.mem_Ico, pageSize]
  constructor
  · rintro ⟨hlo, hhi⟩
    refine ⟨max base (q * 4096), le_max_left _ _, max_lt (by omega) (by omega), ?_⟩
    rw [pageSize]
    omega
  · rintro ⟨x, hx, hx', rfl⟩
    rw [pageSize]
    omega

/-- For whole pages, `mark_region_free` visits the same frames. -/
theorem freeRegion_eq (hbase : pageSize ∣ base) (hlength : pageSize ∣ length)
    (hbound : base + length < 2 ^ 63) :
    freeRegion base length = usedRegion base length := by
  obtain ⟨i, rfl⟩ := hbase
  obtain ⟨j, rfl⟩ := hlength
  rw [pageSize] at hbound ⊢
  have hsum : u64 (4096 * i + 4096 * j) = 4096 * i + 4096 * j := u64_of_lt (by omega)
  have hff : freeFrom (4096 * i) = i := by
    rw [freeFrom, alignUp_page (by omega), pageSize]
    omega
  have hfu : freeUpTo (4096 * i) (4096 * j) = i + j := by
    rw [freeUpTo, hsum, alignDown_page (by omega), pageSize]
    omega
  have huf : usedFrom (4096 * i) = i := by
    rw [usedFrom, alignDown_page (by omega), pageSize]
    omega
  have huu : usedUpTo (4096 * i) (4096 * j) = i + j := by
    rw [usedUpTo, hsum, alignUp_page (by omega), pageSize]
    omega
  rw [freeRegion, usedRegion, hff, hfu, huf, huu]

/-- Giving back what was taken restores the counters. -/
theorem Takes.restored {s'' : PMM} (h : BuddyInv g s F) (hsz : s.Sized) (ht : Takes g s F R s')
    (hg : Gives g s' (F \ R) R s'') :
    s''.usedMemory = s.usedMemory ∧ s''.freeMemory = s.freeMemory := by
  have hu := hsz.used
  have hf := hsz.free
  have hcard := (Set.ncard_le_ncard ht.subset h.finite).trans h.ncard_le
  have hbytes : pageSize * R.ncard < 2 ^ 64 := by
    rw [pageSize]
    omega
  constructor
  · rw [hg.evolves.used]
    change sub64 s'.usedMemory _ = _
    rw [ht.evolves.used]
    change sub64 (u64 (s.usedMemory + _)) _ = _
    rw [sub64_eq, u64_eq]
    omega
  · rw [hg.evolves.free]
    change u64 (s'.freeMemory + _) = _
    rw [ht.evolves.free]
    change u64 (sub64 s.freeMemory _ + _) = _
    rw [sub64_eq, u64_eq]
    omega

/-- **Marking a region used, and free again.** -/
theorem markRegion_exact (hwf : mmap.WellFormed) (hboot : Boots k mmap s₀)
    (hreach : Reaches mmap (World.start s₀) w) (hlen : 1 ≤ length)
    (hbound : base + length < 2 ^ 63) :
    ∃ s', w.pmm.markRegionUsed base length = some s' ∧
      s'.freeFrames = w.pmm.freeFrames \ touchedPages base (base + length) ∧
      WellFormedLists mmap s' ∧ CanonicalLists s' ∧
      s'.usedMemory = w.pmm.usedMemory
        + pageSize * (w.pmm.freeFrames ∩ touchedPages base (base + length)).ncard ∧
      (pageSize ∣ base → pageSize ∣ length →
        touchedPages base (base + length) ⊆ w.pmm.freeFrames →
        ∃ s'', s'.markRegionFree base length = some s'' ∧
          s''.freeFrames = w.pmm.freeFrames ∧ SameLists mmap w.pmm s'' ∧
          s''.usedMemory = w.pmm.usedMemory ∧ s''.freeMemory = w.pmm.freeMemory) := by
  obtain ⟨g, hmap, hinv₀, hcons₀, hacc₀, htotal⟩ := hboot.start hwf
  have hinv := Reaches.inv hmap hinv₀ hreach
  have hacc := (Reaches.accounted hmap hinv₀ hcons₀ hinv₀.buddy.finite hacc₀ htotal hreach).1
  have hregion := usedRegion_eq hlen hbound
  obtain ⟨s', heq, ht⟩ := @markRegionUsed_takes _ _ _ base length hinv.buddy hinv.sized
    hinv.initialized (by omega)
  change Takes g w.pmm w.pmm.freeFrames (w.pmm.freeFrames ∩ usedRegion base length) s' at ht
  have hused := (ht.accounted hinv.buddy.finite hacc).total
  have hfree := (ht.accounted hinv.buddy.finite hacc).free
  have hcard := Set.ncard_sdiff ht.subset (hinv.buddy.finite.subset ht.subset)
  have hle := Set.ncard_le_ncard ht.subset hinv.buddy.finite
  have htot : s'.totalMemory = w.pmm.totalMemory := by
    rw [ht.evolves.total, totalMemory_countUsed]
  refine ⟨s', heq, ?_, ht.inv.wellFormedLists hmap, ht.inv.canonicalLists, ?_, ?_⟩
  · rw [ht.freeFrames, hregion, Set.sdiff_self_inter]
  · have hf := hacc.free
    have htot' := hacc.total
    rw [hcard, Nat.mul_sub] at hfree
    have hmul := Nat.mul_le_mul_left pageSize hle
    rw [hregion] at hfree hmul
    omega
  · intro hbase hlength hall
    rw [← hregion] at hall
    rw [Set.inter_eq_right.mpr hall] at ht
    have hfreeRegion := freeRegion_eq hbase hlength hbound
    obtain ⟨s'', heq', hg⟩ := @markRegionFree_gives _ _ _ base length ht.inv
      ht.sized (ht.initialized.trans hinv.initialized) fun q hq _ _ =>
        hinv.buddy.frames q (hall (hfreeRegion ▸ hq))
    change Gives g s' _ (freeRegion base length \ _) s'' at hg
    have hR : freeRegion base length \ (w.pmm.freeFrames \ usedRegion base length ∪ {0})
        = usedRegion base length := by
      rw [hfreeRegion]
      refine sdiff_eq_left.mpr (Set.disjoint_union_right.mpr ⟨Set.disjoint_sdiff_right, ?_⟩)
      rw [Set.disjoint_singleton_right]
      exact fun h0 => absurd (hinv.buddy.frames 0 (hall h0)).pos (by decide)
    rw [hR] at hg
    have hback : w.pmm.freeFrames \ usedRegion base length ∪ usedRegion base length
        = w.pmm.freeFrames := Set.sdiff_union_of_subset hall
    have hinv' := hg.inv
    rw [hback] at hinv'
    exact ⟨s'', heq', by rw [hg.freeFrames, hback], hinv.buddy.sameLists hinv' hmap,
      ht.restored hinv.buddy hinv.sized hg⟩

theorem markRegion_lowAndHigh : ∃ (w : World) (s' : PMM), (w.live ≠ [] ∧ w.marked.Nonempty) ∧
    w.pmm.markRegionUsed 0x205000 0x2000 = some s' ∧
    s'.freeFrames = w.pmm.freeFrames \ touchedPages 0x205000 (0x205000 + 0x2000) := by
  obtain ⟨s₀, w, -, hboot, hreach, -, hbusy, -⟩ := lowAndHigh_runs
  obtain ⟨s', heq, hused, -⟩ := @markRegion_exact _ _ _ _ 0x205000 0x2000
    lowAndHigh_wellFormed hboot hreach (by decide) (by decide)
  exact ⟨w, s', hbusy, heq, hused⟩

end PMM

end MioOS
