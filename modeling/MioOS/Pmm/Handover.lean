import MioOS.Pmm.Init

/-!
# Pmm/Handover — memory in use at the switch

`initialize_buddy` does not know which pages are in use: it protects page 0, the stretch from the
start of the kernel to `highest_reserved_phys`, and the stretch from there to the bump pointer.
`Handover.safe_iff` says exactly when that covers the kernel image, the Multiboot block and all
ranges the bump allocator handed out.
-/

namespace MioOS

open ByteMemory Intrusive BuddyBlocks

namespace PMM

variable {k : KernelImage} {s s' : PMM} {mmap : MemoryMap} {ranges : List (ℕ × ℕ)}
  {opened : List UnifiedMemoryEntry} {bp hr n p q : ℕ} {e : UnifiedMemoryEntry} {r : ℕ × ℕ}

/-- The pages that the bytes `[start, stop)` touch. -/
def touchedPages (start stop : ℕ) : Set ℕ := {q | ∃ x, start ≤ x ∧ x < stop ∧ x / pageSize = q}

/-- The Multiboot block that `initialize_bump` was given: the HHDM pointer `mb` to `size` bytes at
`phys`, of which the first eight hold the size. -/
structure MultibootBlock (m : Mem) (mb phys size : ℕ) : Prop where
  ptr : mb = hhdmBase + phys
  size_eq : m.load 8 mb = size
  physical : phys + size ≤ 2 ^ 47

/-- **No memory in use is free**: not page 0, nor a page of the kernel, of the Multiboot block or of
a range that the bump allocator handed out. -/
structure Safe (k : KernelImage) (mbPhys mbSize : ℕ) (ranges : List (ℕ × ℕ)) (s : PMM) : Prop where
  zero : 0 ∉ s.freeFrames
  kernel : Disjoint s.freeFrames (touchedPages k.startPhys k.endPhys)
  multiboot : Disjoint s.freeFrames (touchedPages mbPhys (mbPhys + mbSize))
  bump : ∀ r ∈ ranges, Disjoint s.freeFrames (touchedPages r.1 (r.1 + r.2 * pageSize))

/-- Where the next request leaves the bump pointer: behind the rest of the current region if it
fits there, else behind the start of the first entry with room. -/
def bumpAfter (s : PMM) (mmap : MemoryMap) (n : ℕ) : ℕ :=
  (if s.Fits (n * pageSize) then s.bumpPtrPhys
    else ((firstFit mmap s.bumpWatermark (n * pageSize)).map (bumpStart s.bumpWatermark)).getD 0)
    + n * pageSize

theorem bumpAfter_eq (hwf : mmap.WellFormed) (hrun : BumpRun mmap hr s ranges opened) (hn : 1 ≤ n)
    (hn' : n < 2 ^ 32) (halloc : s.allocPages n = some (p, s')) :
    s'.bumpPtrPhys = bumpAfter s mmap n := by
  have hinv := hrun.inv hwf
  rw [allocPages, if_pos (by simp [hinv.boot.initialized])] at halloc
  rw [hinv.ptr_eq hwf hn hn' halloc, bumpAfter]
  rw [allocPagesBump_eq hwf hinv.boot.map_eq hinv.boot.initialized hn'] at halloc
  split at halloc
  · rw [if_pos ‹_›]
    rw [← (Prod.mk.inj (Option.some.inj halloc)).1]
  · obtain ⟨e, he, heq⟩ := Option.map_eq_some_iff.mp halloc
    rw [if_neg ‹_›, he, ← (Prod.mk.inj heq).1]
    rfl

theorem mbEnd_eq {m : Mem} {mb phys size : ℕ} (h : MultibootBlock m mb phys size) :
    mbEnd m mb = phys + size := by
  have hphys := h.physical
  rw [mbEnd, h.size_eq, h.ptr, u64_eq, sub64_eq, hhdmBase]
  omega

/-! ## Which pages in use are reserved -/

/-- A page of the kernel image, or of a block behind it, is reserved. -/
theorem reserved_of_touched {start stop : ℕ} (hstart : k.startPhys ≤ start) (hstop : stop ≤ hr)
    (hhr : hr < 2 ^ 52) (hq : q ∈ touchedPages start stop) : Reserved k hr bp q := by
  obtain ⟨x, hx, hx', rfl⟩ := hq
  obtain ⟨i, hi⟩ := k.start_aligned
  refine Or.inr (Or.inl ⟨?_, ?_⟩)
  · rw [hi] at hstart ⊢
    rw [pageSize] at hstart ⊢
    omega
  · rw [alignUp_page (by omega), pageSize]
    omega

/-- The pages of a range are usable pages behind the reserved stretch of the kernel. -/
theorem CutFrom.page (hwf : mmap.WellFormed) (h : CutFrom mmap hr e r)
    (hq : q ∈ touchedPages r.1 (r.1 + r.2 * pageSize)) :
    q ∈ mmap.usablePages ∧ r.1 ≤ q * pageSize ∧ (q + 1) * pageSize ≤ r.1 + r.2 * pageSize ∧
      alignUp hr pageSize ≤ q * pageSize ∧ hr ≤ q * pageSize := by
  obtain ⟨x, hx, hx', rfl⟩ := hq
  have hend := hwf.physical e h.mem h.usable
  have hahead := h.ahead
  obtain ⟨-, haddr, hwm, -⟩ := bumpStart_spec hend hahead
  have hstart := h.start_le
  have hstop := h.end_le
  rw [bumpEnd] at hstop
  obtain ⟨i, hi⟩ := h.aligned
  rw [alignUp_page (by omega)]
  simp only [pageSize] at hi hx' hstop ⊢
  refine ⟨⟨e, h.mem, h.usable, ?_, ?_⟩, by omega, by omega, by omega, by omega⟩ <;>
  · simp only [pageSize]
    omega

/-- A page of a range is free exactly when the bump pointer ended up below it. -/
theorem CutFrom.free_iff (hwf : mmap.WellFormed) (hk : k.endPhys ≤ hr) (h : CutFrom mmap hr e r)
    (hq : q ∈ touchedPages r.1 (r.1 + r.2 * pageSize)) :
    q ∈ initialFree k mmap hr bp ↔ bp ≤ q * pageSize := by
  obtain ⟨husable, -, -, hup, hhr⟩ := h.page hwf hq
  have hpos := k.start_lt_end
  constructor
  · rintro ⟨-, hres⟩
    by_contra hlt
    exact hres (Or.inr (Or.inr ⟨hhr, not_le.mp hlt⟩))
  · intro hle
    refine ⟨husable, ?_⟩
    rintro (rfl | ⟨-, hc⟩ | ⟨-, hc⟩)
    · omega
    · omega
    · omega

/-- A range has no free page exactly when the bump pointer ended up behind it. -/
theorem CutFrom.disjoint_iff (hwf : mmap.WellFormed) (hk : k.endPhys ≤ hr)
    (hbp : pageSize ∣ bp) (h : CutFrom mmap hr e r) :
    Disjoint (initialFree k mmap hr bp) (touchedPages r.1 (r.1 + r.2 * pageSize)) ↔
      r.1 + r.2 * pageSize ≤ bp := by
  constructor
  · intro hdisj
    by_contra hlt
    -- its last page
    have hn := h.nonempty
    have hlast : (r.1 + r.2 * pageSize - 1) / pageSize
        ∈ touchedPages r.1 (r.1 + r.2 * pageSize) :=
      ⟨_, by rw [pageSize]; omega, by rw [pageSize]; omega, rfl⟩
    refine Set.disjoint_right.mp hdisj hlast ((h.free_iff hwf hk hlast).mpr ?_)
    obtain ⟨i, hi⟩ := h.aligned
    obtain ⟨b, hb⟩ := hbp
    simp only [pageSize] at hi hb hlt ⊢
    omega
  · intro hle
    refine Set.disjoint_right.mpr fun q hq hfree => ?_
    obtain ⟨-, -, hend, -, -⟩ := h.page hwf hq
    have hge := (h.free_iff hwf hk hq).mp hfree
    rw [pageSize] at hend hge hle
    omega

/-- **The switch keeps memory in use exactly when** no page of the Multiboot block below the kernel
is a whole usable page other than page 0, and every range handed out earlier ends no later than the
one the bitmaps get. -/
theorem safe_iff {m : Mem} {mb mbPhys mbSize phys : ℕ} {s₁ : PMM} (hwf : mmap.WellFormed)
    (hmb : MultibootBlock m mb mbPhys mbSize)
    (hrun : BumpRun mmap (max k.endPhys (mbEnd m mb)) s ranges opened)
    (halloc : s.allocPages (bitmapPagesOf mmap) = some (phys, s₁))
    (hinit : initializeBuddy k s (some mmap) = some s') :
    Safe k mbPhys mbSize ((phys, bitmapPagesOf mmap) :: ranges) s' ↔
      (∀ q ∈ touchedPages mbPhys (mbPhys + mbSize), q * pageSize < k.startPhys →
        q = 0 ∨ q ∉ mmap.usablePages) ∧
      ∀ r ∈ ranges, r.1 + r.2 * pageSize ≤ bumpAfter s mmap (bitmapPagesOf mmap) := by
  have hk : k.endPhys ≤ max k.endPhys (mbEnd m mb) := le_max_left _ _
  obtain ⟨phys', s₂, g, halloc', hrange, hswitched⟩ := initializeBuddy_switched hwf hrun hinit
  obtain ⟨rfl, rfl⟩ := Prod.mk.inj (Option.some.inj (halloc.symm.trans halloc'))
  obtain ⟨-, hpos, hpages, -⟩ := bitmapPagesOf_bounds hwf
  have hinv := (hrun.alloc hpos hpages halloc).inv hwf
  have hafter := bumpAfter_eq hwf hrun hpos hpages halloc
  have hfree := hswitched.inv.freeFrames_eq
  have hend : mbPhys + mbSize ≤ max k.endPhys (mbEnd m mb) := by
    rw [mbEnd_eq hmb]
    exact le_max_right _ _
  have hbp : pageSize ∣ s₁.bumpPtrPhys := by
    rw [hrange.bp_eq]
    exact hrange.aligned.add (Nat.dvd_mul_left _ _)
  have hcut : ∀ r ∈ (phys, bitmapPagesOf mmap) :: ranges,
      Disjoint s'.freeFrames (touchedPages r.1 (r.1 + r.2 * pageSize)) ↔
        r.1 + r.2 * pageSize ≤ s₁.bumpPtrPhys := fun r hr => by
    obtain ⟨e, -, hcut⟩ := hinv.cut r hr
    rw [hfree]
    exact hcut.disjoint_iff hwf hk hbp
  rw [← hafter]
  generalize max k.endPhys (mbEnd m mb) = hr at *
  have hstart := k.start_lt_end
  constructor
  · intro hsafe
    refine ⟨fun q hq hbelow => ?_, fun r hr => (hcut r (List.mem_cons_of_mem _ hr)).mp
      (hsafe.bump r (List.mem_cons_of_mem _ hr))⟩
    by_contra hc
    obtain ⟨h0, husable⟩ := not_or.mp hc
    refine Set.disjoint_right.mp hsafe.multiboot hq ?_
    rw [hfree]
    refine ⟨not_not.mp husable, ?_⟩
    rintro (rfl | ⟨hge, -⟩ | ⟨hge, -⟩)
    · exact h0 rfl
    · omega
    · omega
  · rintro ⟨hbelow, hranges⟩
    refine ⟨?_, ?_, ?_, ?_⟩
    · rw [hfree]
      exact fun h0 => h0.2 (Or.inl rfl)
    · rw [hfree]
      exact Set.disjoint_right.mpr fun q hq hf =>
        hf.2 (reserved_of_touched le_rfl hk hrange.hr_lt hq)
    · rw [hfree]
      refine Set.disjoint_right.mpr fun q hq hf => ?_
      by_cases hlow : q * pageSize < k.startPhys
      · exact (hbelow q hq hlow).elim (fun h0 => hf.2 (Or.inl h0)) fun hout => hout hf.1
      · refine hf.2 (Or.inr (Or.inl ⟨not_lt.mp hlow, ?_⟩))
        obtain ⟨x, -, hx, rfl⟩ := hq
        rw [alignUp_page (by have := hrange.hr_lt; omega), pageSize]
        omega
    · refine List.forall_mem_cons.mpr ⟨?_, fun r hr => ?_⟩
      · exact (hcut _ List.mem_cons_self).mpr hrange.bp_eq.ge
      · exact (hcut r (List.mem_cons_of_mem _ hr)).mpr (hranges r hr)

/-! ## A Multiboot block below the kernel -/

/-- The kernel image at 1 MiB. -/
def imageAt1M : KernelImage := ⟨0x100000, 0x102000, by decide, by decide⟩

/-- Usable memory below and above the kernel. -/
def lowAndHigh : MemoryMap := [⟨0, 0xA000, true, 1, false⟩, ⟨0x200000, 0x10000, true, 1, false⟩]

theorem lowAndHigh_wellFormed : lowAndHigh.WellFormed := by
  refine ⟨List.pairwise_pair.mpr fun _ _ => ?_, by decide⟩
  refine Set.disjoint_left.mpr fun x hx hx' => ?_
  have h1 := hx.2
  have h2 := hx'.1
  simp only at h1 h2
  omega

/-- Memory with a Multiboot block. -/
def withBlock (phys size : ℕ) : Mem := Mem.store (fun _ => 0) 8 (hhdmBase + phys) size

theorem multibootBlock_withBlock {phys size : ℕ} (h : phys + size ≤ 2 ^ 47) :
    MultibootBlock (withBlock phys size) (hhdmBase + phys) phys size :=
  ⟨rfl, Mem.load_store_of_lt (by norm_num; omega), h⟩

/-- The switch on a machine with the kernel at 1 MiB, with no request before it. -/
theorem switch_of_room (hwf : mmap.WellFormed) (husable : mmap.maxUsable ≠ 0) (phys size : ℕ)
    {hr : ℕ} (h : phys + size ≤ 2 ^ 47) (hhr : max 0x102000 (phys + size) = hr)
    (hroom : (firstFit mmap hr (bitmapPagesOf mmap * pageSize)).isSome) :
    ∃ s p s₁ s' g, BumpRun mmap
        (max imageAt1M.endPhys (mbEnd (withBlock phys size) (hhdmBase + phys))) s [] [] ∧
      s.allocPages (bitmapPagesOf mmap) = some (p, s₁) ∧
      initializeBuddy imageAt1M s (some mmap) = some s' ∧
      Switched imageAt1M mmap hr p s₁.bumpPtrPhys g s' := by
  obtain ⟨s, -, -, hready⟩ :=
    initializeBump_ready imageAt1M (withBlock phys size) mmap (hhdmBase + phys)
  have hmax : max imageAt1M.endPhys (mbEnd (withBlock phys size) (hhdmBase + phys)) = hr := by
    rw [mbEnd_eq (multibootBlock_withBlock h), ← hhr]
    rfl
  rw [hmax] at hready ⊢
  have hrun := BumpRun.start hready
  obtain ⟨p, s₁, s', g, halloc, -, hinit, hswitched⟩ :=
    initializeBuddy_spec (k := imageAt1M) hwf hrun (prepareBuddy_isSome hwf hready husable hroom)
  exact ⟨s, p, s₁, s', g, hrun, halloc, hinit, hswitched⟩

/-- A block above the kernel is kept. -/
theorem safe_lowAndHigh : ∃ (p : ℕ) (s' : PMM),
    Safe imageAt1M 0x103000 0x100 [(p, bitmapPagesOf lowAndHigh)] s' := by
  obtain ⟨s, p, s₁, s', g, hrun, halloc, hinit, -⟩ :=
    switch_of_room lowAndHigh_wellFormed (by decide) 0x103000 0x100 (by decide) rfl (by decide +kernel)
  refine ⟨p, s', (safe_iff lowAndHigh_wellFormed (multibootBlock_withBlock (by decide)) hrun halloc
    hinit).mpr ⟨fun q hq hlow => ?_, by simp⟩⟩
  obtain ⟨x, hx, -, rfl⟩ := hq
  simp only [imageAt1M, pageSize] at hlow
  omega

/-- **A Multiboot block below the kernel is freed**: page 9 holds one and is free after the
switch. -/
theorem not_safe_lowAndHigh :
    ¬ ∀ (k : KernelImage) (mmap : MemoryMap) (m : Mem) (mb mbPhys mbSize hr : ℕ) (s s' : PMM)
      (ranges : List (ℕ × ℕ)) (opened : List UnifiedMemoryEntry), mmap.WellFormed →
      MultibootBlock m mb mbPhys mbSize → hr = max k.endPhys (mbEnd m mb) →
      BumpRun mmap hr s ranges opened → initializeBuddy k s (some mmap) = some s' →
      Safe k mbPhys mbSize ranges s' := by
  intro h
  obtain ⟨s, p, s₁, s', g, hrun, -, hinit, hswitched⟩ :=
    switch_of_room lowAndHigh_wellFormed (by decide) 0x9000 0x100 (by decide) rfl (by decide +kernel)
  have hsafe := h _ _ _ _ _ _ _ _ _ _ _ lowAndHigh_wellFormed
    (multibootBlock_withBlock (by decide)) rfl hrun hinit
  have htouched : 9 ∈ touchedPages 0x9000 (0x9000 + 0x100) := ⟨0x9000, by decide⟩
  refine Set.disjoint_right.mp hsafe.multiboot htouched ?_
  rw [hswitched.inv.freeFrames_eq]
  refine ⟨⟨_, List.mem_cons_self, rfl, Nat.zero_le _, by decide⟩, ?_⟩
  rintro (h0 | ⟨hc, -⟩ | ⟨hc, -⟩)
  · exact absurd h0 (by decide)
  · exact absurd hc (by decide)
  · exact absurd hc (by decide)

end PMM

end MioOS
