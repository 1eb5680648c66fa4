import MioOS.Pmm.Bump
import MioOS.Pmm.Ranges

/-!
# Pmm/Init — the switch to the buddy allocator

`prepareBuddy` leaves the invariant of the buddy allocator with no frame free.  The carve gives it
the whole usable pages that are not reserved, each once, in blocks (`carve_gives`); reserved is page
0 and what the three scalars `kernel_start`, `highest_reserved_phys` and `bump_ptr_phys` protect.
-/

namespace MioOS

open ByteMemory Intrusive BuddyBlocks

namespace PMM

variable {g : Geometry} {k : KernelImage} {s s' : PMM} {mmap : MemoryMap} {F : Set ℕ}
  {bp e hr i n o p q total maxUsable fuel : ℕ}

/-! ## What the carve leaves out -/

/-- The carve passes over the page: page 0, the pages from the kernel's to the highest reserved one,
and the pages from there to the bump pointer. -/
def Reserved (k : KernelImage) (hr bp q : ℕ) : Prop :=
  q = 0 ∨ k.startPhys ≤ q * pageSize ∧ q * pageSize < alignUp hr pageSize ∨
    hr ≤ q * pageSize ∧ q * pageSize < bp

/-- The frames that are free after the switch. -/
def initialFree (k : KernelImage) (mmap : MemoryMap) (hr bp : ℕ) : Set ℕ :=
  {q ∈ mmap.usablePages | ¬ Reserved k hr bp q}

/-- The block the carve picks is one it may free. -/
theorem carveOrder_spec (k : KernelImage) (s : PMM) (p regionEnd n : ℕ) :
    carveOrder k s p regionEnd n ≤ n ∧ (carveOrder k s p regionEnd n = 0 ∨
      u64 (p + pageSize <<< carveOrder k s p regionEnd n) ≤ regionEnd ∧
      p % (pageSize <<< carveOrder k s p regionEnd n) = 0 ∧
      checkOverlapWithReserved k s p (pageSize <<< carveOrder k s p regionEnd n) = false) := by
  induction n with
  | zero => exact ⟨le_rfl, Or.inl rfl⟩
  | succ n ih =>
    rw [carveOrder]
    split
    · rename_i h
      exact ⟨le_rfl, Or.inr ⟨h.1, h.2.1, by simpa using h.2.2⟩⟩
    · exact ⟨ih.1.trans (Nat.le_succ n), ih.2⟩

/-- What the scalars must satisfy for the carve to work. -/
structure Scalars (hr bp : ℕ) (s : PMM) : Prop where
  reserved : s.highestReservedPhys = hr
  ptr : s.bumpPtrPhys = bp
  hr_le : hr ≤ bp
  bp_lt : bp < 2 ^ 64
  bp_aligned : pageSize ∣ bp

/-- The reserved stretch of the kernel ends at a page. -/
theorem Scalars.alignUp (hs : Scalars hr bp s) :
    MioOS.alignUp hr pageSize = (hr + 4095) / pageSize * pageSize := by
  obtain ⟨b, hb⟩ := hs.bp_aligned
  have hle := hs.hr_le
  have hlt := hs.bp_lt
  rw [pageSize] at hb
  exact alignUp_page (by omega)

theorem scalars_mergeLoop (left : ℕ) (s : PMM) (p o : ℕ) :
    (mergeLoop left s p o).1.scalars = s.scalars := by
  induction left generalizing s p o with
  | zero => rfl
  | succ left ih =>
    rw [mergeLoop]
    split
    · rename_i heq
      rw [← scalars_toggle s p o, heq]
    · rename_i s' heq
      rw [ih, scalars_listRemove, ← scalars_toggle s p o, heq]
      rfl

/-- Freeing a block leaves what the carve reads. -/
theorem Scalars.freePagesOrder (hs : Scalars hr bp s) (p o : ℕ) :
    Scalars hr bp (s.freePagesOrder p o) := by
  rw [PMM.freePagesOrder]
  split
  · exact hs
  · have h := scalars_mergeLoop (buddyMaxOrder - o) s (p >>> pageShift) o
    have hres := congrArg PMM.highestReservedPhys h
    have hptr := congrArg PMM.bumpPtrPhys h
    refine ⟨?_, ?_, hs.hr_le, hs.bp_lt, hs.bp_aligned⟩
    · rw [freeBlock, highestReservedPhys_countFreed, ← hs.reserved]
      exact hres
    · rw [freeBlock, bumpPtrPhys_countFreed, ← hs.ptr]
      exact hptr

/-- The pages of a block that passes the tests are not reserved. -/
theorem carveOrder_unreserved (hs : Scalars hr bp s) (hi : ¬ Reserved k hr bp i) (hie : i < e)
    (he : e ≤ 2 ^ 40) (ho : carveOrder k s (i * pageSize) (e * pageSize) buddyMaxOrder = o) :
    o ≤ buddyMaxOrder ∧ 2 ^ o ∣ i ∧ i + 2 ^ o ≤ e ∧ ∀ q ∈ block o i, ¬ Reserved k hr bp q := by
  obtain ⟨hle, hcases⟩ := carveOrder_spec k s (i * pageSize) (e * pageSize) buddyMaxOrder
  rw [ho] at hle hcases
  refine ⟨hle, ?_⟩
  rcases hcases with rfl | ⟨hend, hmod, hover⟩
  · refine ⟨one_dvd i, by omega, ?_⟩
    rw [block_zero]
    rintro q rfl
    exact hi
  have hpow : 2 ^ o ≤ 2 ^ 10 := Nat.pow_le_pow_right two_pos hle
  have hsize : pageSize <<< o = pageSize * 2 ^ o := Nat.shiftLeft_eq _ _
  have hu : u64 (i * pageSize + pageSize * 2 ^ o) = i * pageSize + pageSize * 2 ^ o := by
    rw [pageSize]
    exact u64_of_lt (by omega)
  rw [hsize, hu, pageSize] at hend
  rw [hsize, Nat.mul_comm i] at hmod
  rw [checkOverlapWithReserved, hsize, hu, hs.reserved, hs.ptr] at hover
  simp only [Bool.or_eq_false_iff, Bool.and_eq_false_iff, decide_eq_false_iff_not] at hover
  refine ⟨?_, by omega, fun q hq hres => ?_⟩
  · exact Nat.dvd_of_mul_dvd_mul_left (by rw [pageSize]; omega) (Nat.dvd_of_mod_eq_zero hmod)
  · rw [mem_block] at hq
    rw [Reserved] at hres hi
    rw [pageSize] at hover hres hi
    omega

/-- Skipping a reserved stretch leaves the same pages to free. -/
theorem unreserved_skip {j : ℕ} (hij : i ≤ j) (hskip : ∀ q, i ≤ q → q < j → Reserved k hr bp q) :
    {q ∈ Set.Ico i e | ¬ Reserved k hr bp q} = {q ∈ Set.Ico j e | ¬ Reserved k hr bp q} := by
  ext q
  simp only [Set.mem_Ico]
  refine ⟨fun ⟨⟨h1, h2⟩, h3⟩ => ⟨⟨?_, h2⟩, h3⟩, fun ⟨⟨h1, h2⟩, h3⟩ => ⟨⟨by omega, h2⟩, h3⟩⟩
  by_contra hlt
  exact h3 (hskip q h1 (by omega))

/-- Freeing the block at `i` leaves the rest of the region. -/
theorem unreserved_block (hend : i + 2 ^ o ≤ e) (hblock : ∀ q ∈ block o i, ¬ Reserved k hr bp q) :
    {q ∈ Set.Ico i e | ¬ Reserved k hr bp q}
      = block o i ∪ {q ∈ Set.Ico (i + 2 ^ o) e | ¬ Reserved k hr bp q} := by
  ext q
  refine ⟨fun hq => ?_, ?_⟩
  · by_cases hlt : q < i + 2 ^ o
    · exact Or.inl ⟨hq.1.1, hlt⟩
    · exact Or.inr ⟨⟨not_lt.mp hlt, hq.1.2⟩, hq.2⟩
  · rintro (hq | hq)
    · exact ⟨⟨hq.1, hq.2.trans_le hend⟩, hblock q hq⟩
    · exact ⟨⟨(Nat.le_add_right _ _).trans hq.1.1, hq.1.2⟩, hq.2⟩

/-! ## The calls of the carve -/

/-- The calls `free_pages_order(p, order)` that the carve of one region makes, in order. -/
def regionCalls (k : KernelImage) : ℕ → PMM → ℕ → ℕ → List (ℕ × ℕ)
  | 0, _, _, _ => []
  | fuel + 1, s, p, regionEnd =>
    if p < regionEnd then
      if p = 0 then regionCalls k fuel s (u64 (p + pageSize)) regionEnd
      else if k.startPhys ≤ p ∧ p < alignUp s.highestReservedPhys pageSize then
        regionCalls k fuel s (alignUp s.highestReservedPhys pageSize) regionEnd
      else if s.highestReservedPhys ≤ p ∧ p < s.bumpPtrPhys then
        regionCalls k fuel s s.bumpPtrPhys regionEnd
      else
        let order := carveOrder k s p regionEnd buddyMaxOrder
        (p, order) ::
          regionCalls k fuel (freePagesOrder s p order) (u64 (p + (pageSize <<< order))) regionEnd
    else []

/-- The calls of the callback of the second pass. -/
def entryCalls (k : KernelImage) (s : PMM) (ent : UnifiedMemoryEntry) : List (ℕ × ℕ) :=
  if !ent.isUsable then []
  else
    regionCalls k loopFuel s (alignUp ent.addr pageSize)
      (alignDown (u64 (ent.addr + ent.len)) pageSize)

/-- The calls of the second pass of `initialize_buddy` over the entries of the map. -/
def carveCalls (k : KernelImage) : MemoryMap → PMM → List (ℕ × ℕ)
  | [], _ => []
  | ent :: rest, s =>
    entryCalls k s ent ++ (carveEntry k s ent).elim [] (carveCalls k rest)

/-- What a sequence of calls does. -/
def freeEach (s : PMM) (calls : List (ℕ × ℕ)) : PMM :=
  calls.foldl (fun s c => s.freePagesOrder c.1 c.2) s

/-- The frames a call hands over. -/
def callPages (c : ℕ × ℕ) : Set ℕ := block c.2 (c.1 / pageSize)

/-- **The calls hand over the frames of `R`**, each once and in aligned blocks. -/
inductive HandsOver : List (ℕ × ℕ) → Set ℕ → Prop
  | nil : HandsOver [] ∅
  | cons {i o : ℕ} {calls : List (ℕ × ℕ)} {R : Set ℕ} : o ≤ buddyMaxOrder → 2 ^ o ∣ i →
      Disjoint (block o i) R → HandsOver calls R →
      HandsOver ((i * pageSize, o) :: calls) (block o i ∪ R)

section Calls

variable {calls calls' : List (ℕ × ℕ)} {R R' : Set ℕ}

theorem callPages_mul (i o : ℕ) : callPages (i * pageSize, o) = block o i := by
  rw [callPages, Nat.mul_div_cancel _ (by decide)]

theorem freeEach_append (s : PMM) (calls calls' : List (ℕ × ℕ)) :
    s.freeEach (calls ++ calls') = (s.freeEach calls).freeEach calls' := List.foldl_append ..

theorem Scalars.freeEach (hs : Scalars hr bp s) (calls : List (ℕ × ℕ)) :
    Scalars hr bp (s.freeEach calls) := by
  induction calls generalizing s with
  | nil => exact hs
  | cons c calls ih => exact ih (hs.freePagesOrder c.1 c.2)

namespace HandsOver

theorem append (h : HandsOver calls R) (h' : HandsOver calls' R') (hdisj : Disjoint R R') :
    HandsOver (calls ++ calls') (R ∪ R') := by
  induction h with
  | nil => rwa [Set.empty_union]
  | cons ho hdvd hapart _ ih =>
    obtain ⟨hblock, hrest⟩ := Set.disjoint_union_left.mp hdisj
    rw [Set.union_assoc]
    exact .cons ho hdvd (Set.disjoint_union_right.mpr ⟨hapart, hblock⟩) (ih hrest)

theorem mem_iff (h : HandsOver calls R) : q ∈ R ↔ ∃ c ∈ calls, q ∈ callPages c := by
  induction h with
  | nil => simp
  | cons _ _ _ _ ih =>
    rw [Set.mem_union, ih, List.exists_mem_cons_iff, callPages_mul]

/-- No frame is in two calls. -/
theorem pairwise (h : HandsOver calls R) :
    calls.Pairwise fun c c' => Disjoint (callPages c) (callPages c') := by
  induction h with
  | nil => exact .nil
  | cons _ _ hapart h ih =>
    refine .cons (fun c hc => ?_) ih
    rw [callPages_mul]
    exact hapart.mono_right fun q hq => h.mem_iff.mpr ⟨c, hc, hq⟩

/-- **Calls that hand frames over give them**, each block in one `Gives`. -/
theorem gives (hcalls : HandsOver calls R) (h : BuddyInv g s F) (hsz : s.Sized)
    (hframes : ∀ q ∈ R, g.Frame q) (hfresh : Disjoint R F) :
    Gives g s F R (s.freeEach calls) := by
  induction hcalls generalizing s F with
  | nil => exact .refl h hsz
  | cons ho hdvd hapart _ ih =>
    obtain ⟨hblock, hrest⟩ := Set.disjoint_union_left.mp hfresh
    have hgives := freePagesOrder_gives h ho hdvd (fun q hq => hframes q (Or.inl hq)) hblock
    exact hgives.trans (ih hgives.inv hgives.sized (fun q hq => hframes q (Or.inr hq))
      (Set.disjoint_union_right.mpr ⟨hrest, hapart.symm⟩))

end HandsOver

end Calls

/-! ## The carve -/

/-- **The carve of one region** ends, and hands over its pages that are not reserved. -/
theorem carveRegion_eq (hs : Scalars hr bp s) (he : e ≤ 2 ^ 40) (hfuel : e - i < fuel) :
    carveRegion k fuel s (i * pageSize) (e * pageSize)
        = some (s.freeEach (regionCalls k fuel s (i * pageSize) (e * pageSize))) ∧
      HandsOver (regionCalls k fuel s (i * pageSize) (e * pageSize))
        {q ∈ Set.Ico i e | ¬ Reserved k hr bp q} := by
  obtain ⟨b, rfl⟩ : ∃ b, bp = b * pageSize :=
    hs.bp_aligned.imp fun b hb => hb.trans (Nat.mul_comm _ _)
  have hkme := hs.alignUp
  induction fuel generalizing s i with
  | zero => omega
  | succ fuel ih =>
    rw [carveRegion, regionCalls]
    by_cases hi : i < e
    · simp only [if_pos (mul_pageSize_lt.mpr hi), hs.reserved, hs.ptr]
      -- `[i, j)` is reserved and passed over
      have hjump : ∀ j, i < j → (∀ q, i ≤ q → q < j → Reserved k hr (b * pageSize) q) →
          carveRegion k fuel s (j * pageSize) (e * pageSize)
              = some (s.freeEach (regionCalls k fuel s (j * pageSize) (e * pageSize))) ∧
            HandsOver (regionCalls k fuel s (j * pageSize) (e * pageSize))
              {q ∈ Set.Ico i e | ¬ Reserved k hr (b * pageSize) q} := by
        intro j hij hskip
        rw [unreserved_skip hij.le hskip]
        exact ih (by omega) hs
      by_cases h0 : i * pageSize = 0
      · obtain rfl : i = 0 := by
          rw [pageSize] at h0
          omega
        simp only [if_pos h0, u64_next hi (show e < 2 ^ 52 by omega)]
        exact hjump 1 one_pos fun q _ hq => Or.inl (by omega)
      simp only [if_neg h0]
      by_cases hkernel : k.startPhys ≤ i * pageSize ∧ i * pageSize < alignUp hr pageSize
      · simp only [if_pos hkernel]
        rw [hkme, mul_pageSize_lt] at hkernel
        rw [hkme]
        refine hjump _ hkernel.2 fun q hq hq' => Or.inr (Or.inl ⟨?_, ?_⟩)
        · exact hkernel.1.trans (Nat.mul_le_mul_right _ hq)
        · rw [hkme]
          exact mul_pageSize_lt.mpr hq'
      simp only [if_neg hkernel]
      by_cases hbump : hr ≤ i * pageSize ∧ i * pageSize < b * pageSize
      · simp only [if_pos hbump]
        refine hjump _ (mul_pageSize_lt.mp hbump.2) fun q hq hq' => Or.inr (Or.inr ⟨?_, ?_⟩)
        · exact hbump.1.trans (Nat.mul_le_mul_right _ hq)
        · exact mul_pageSize_lt.mpr hq'
      simp only [if_neg hbump]
      have hunres : ¬ Reserved k hr (b * pageSize) i := by
        rintro (rfl | hc | hc)
        · exact h0 (Nat.zero_mul _)
        · exact hkernel hc
        · exact hbump hc
      generalize ho : carveOrder k s (i * pageSize) (e * pageSize) buddyMaxOrder = o
      obtain ⟨hle, hdvd, hend, hblock⟩ := carveOrder_unreserved hs hunres hi he ho
      have hpos := Nat.two_pow_pos o
      have hnext : u64 (i * pageSize + pageSize <<< o) = (i + 2 ^ o) * pageSize := by
        rw [Nat.shiftLeft_eq, Nat.add_mul, Nat.mul_comm pageSize, pageSize]
        exact u64_of_lt (by omega)
      rw [hnext, unreserved_block hend hblock]
      obtain ⟨heq, hcalls⟩ := ih (i := i + 2 ^ o) (by omega) (hs.freePagesOrder (i * pageSize) o)
      refine ⟨heq, .cons hle hdvd (Set.disjoint_left.mpr fun q hq hq' => ?_) hcalls⟩
      exact absurd hq.2 (not_lt.mpr hq'.1.1)
    · simp only [if_neg (mul_pageSize_lt.not.mpr hi)]
      rw [Set.Ico_eq_empty hi, Set.sep_empty]
      exact ⟨rfl, .nil⟩

/-- **The carve** ends, and hands over the whole usable pages that are not reserved. -/
theorem carve_eq (hwf : mmap.WellFormed) (hs : Scalars hr bp s) :
    carve k mmap s = some (s.freeEach (carveCalls k mmap s)) ∧
      HandsOver (carveCalls k mmap s) (initialFree k mmap hr bp) := by
  induction mmap generalizing s with
  | nil =>
    have hnone : initialFree k [] hr bp = ∅ := by
      ext q
      simp [initialFree, MemoryMap.usablePages]
    rw [hnone]
    exact ⟨rfl, .nil⟩
  | cons ent rest ih =>
    have hpages := MemoryMap.usablePages_cons ent rest
    rw [carve, carveEntry, carveCalls, carveEntry, entryCalls]
    cases hu : ent.isUsable with
    | false =>
      have hsame : initialFree k (ent :: rest) hr bp = initialFree k rest hr bp := by
        rw [initialFree, hpages, hu, if_neg Bool.false_ne_true, Set.empty_union, initialFree]
      simp only [Bool.not_false, if_true, Option.bind_some, Option.elim_some, List.nil_append, hsame]
      exact ih hwf.tail hs
    | true =>
      have hend := hwf.physical ent List.mem_cons_self hu
      have hup : alignUp ent.addr pageSize = (ent.addr + 4095) / pageSize * pageSize :=
        alignUp_page (by omega)
      have hdown : alignDown (u64 (ent.addr + ent.len)) pageSize
          = (ent.addr + ent.len) / pageSize * pageSize := by
        rw [u64_of_lt (by omega), alignDown_page (by omega)]
      have hlast : (ent.addr + ent.len) / pageSize ≤ 2 ^ 40 := by
        rw [pageSize]
        omega
      have hfuel : (ent.addr + ent.len) / pageSize - (ent.addr + 4095) / pageSize < loopFuel :=
        (Nat.sub_le _ _).trans_lt (hlast.trans_lt (by norm_num [loopFuel]))
      obtain ⟨heq, hcalls⟩ := carveRegion_eq (k := k) hs hlast hfuel
      obtain ⟨heq', hcalls'⟩ := ih hwf.tail (hs.freeEach (regionCalls k loopFuel s
        ((ent.addr + 4095) / pageSize * pageSize) ((ent.addr + ent.len) / pageSize * pageSize)))
      have hR : initialFree k (ent :: rest) hr bp
          = {q ∈ ent.wholePages | ¬ Reserved k hr bp q} ∪ initialFree k rest hr bp := by
        rw [initialFree, hpages, hu, if_pos rfl, initialFree]
        ext q
        exact or_and_right
      simp only [Bool.not_true, if_neg Bool.false_ne_true, hup, hdown, heq, Option.bind_some,
        Option.elim_some]
      rw [hR, MemoryMap.wholePages_eq, freeEach_append]
      refine ⟨heq', hcalls.append hcalls' (Set.disjoint_left.mpr ?_)⟩
      -- a page is in one region only
      rintro q ⟨hq, -⟩ ⟨⟨e', he', hu', hq'⟩, -⟩
      rw [← MemoryMap.wholePages_eq] at hq
      have hdisj := (List.pairwise_cons.mp hwf.disjoint).1 e' he' hu hu'
      rw [UnifiedMemoryEntry.wholePages, Set.mem_ofPred_eq, pageSize] at hq hq'
      have hin : q * 4096 ∈ ent.bytes := ⟨by omega, by omega⟩
      have hin' : q * 4096 ∈ e'.bytes := ⟨by omega, by omega⟩
      exact Set.disjoint_left.mp hdisj hin hin'

/-- **The carve gives** the whole usable pages that are not reserved. -/
theorem carve_gives (hwf : mmap.WellFormed) (h : BuddyInv g s F) (hsz : s.Sized)
    (hs : Scalars hr bp s)
    (hframes : ∀ q ∈ mmap.usablePages, ¬ Reserved k hr bp q → g.Frame q)
    (hfresh : ∀ q ∈ mmap.usablePages, ¬ Reserved k hr bp q → q ∉ F) :
    ∃ s', carve k mmap s = some s' ∧ Gives g s F (initialFree k mmap hr bp) s' := by
  obtain ⟨heq, hcalls⟩ := carve_eq (k := k) hwf hs
  exact ⟨_, heq, hcalls.gives h hsz (fun q hq => hframes q hq.1 hq.2)
    (Set.disjoint_left.mpr fun q hq => hfresh q hq.1 hq.2)⟩

/-! ## Before the carve -/

/-- `max_pfn`. -/
def maxPfnOf (mmap : MemoryMap) : ℕ := (mmap.maxUsable + 4095) / pageSize - 1

/-- `bitmap_pages`. -/
def bitmapPagesOf (mmap : MemoryMap) : ℕ := (totalBitmapBytes (maxPfnOf mmap) + 4095) / pageSize

/-- The first pass over the map adds up the usable lengths and finds the largest usable end. -/
theorem scanUsable_eq (hwf : mmap.WellFormed) (htotal : total + mmap.usableLength < 2 ^ 64) :
    scanUsable mmap total maxUsable = (total + mmap.usableLength, max maxUsable mmap.maxUsable) := by
  induction mmap generalizing total maxUsable with
  | nil => simp [scanUsable, MemoryMap.usableLength, MemoryMap.maxUsable]
  | cons ent rest ih =>
    rw [scanUsable, MemoryMap.usableLength, MemoryMap.maxUsable]
    rw [MemoryMap.usableLength] at htotal
    cases hu : ent.isUsable with
    | false =>
      rw [hu] at htotal
      simpa using ih hwf.tail (by simpa using htotal)
    | true =>
      rw [hu, if_pos rfl] at htotal
      have hend := hwf.physical ent List.mem_cons_self hu
      have hsum : u64 (ent.addr + ent.len) = ent.addr + ent.len := u64_of_lt (by omega)
      have hlen : u64 (total + ent.len) = total + ent.len := u64_of_lt (by omega)
      have hmax : (if ent.addr + ent.len > maxUsable then ent.addr + ent.len else maxUsable)
          = max maxUsable (ent.addr + ent.len) := by
        split <;> omega
      simp only [Bool.not_true, if_neg Bool.false_ne_true, if_pos, hsum, hlen, hmax]
      rw [ih hwf.tail (by omega), Nat.add_assoc, max_assoc]

theorem bitmapOffset_le (n o : ℕ) : bitmapOffset n o ≤ o * (n / 16 + 1) := by
  induction o with
  | zero => simp [bitmapOffset]
  | succ o ih =>
    have hpow : n / 2 ^ (o + 4) ≤ n / 16 :=
      Nat.div_le_div_left (by rw [pow_add]; have := Nat.two_pow_pos o; omega) (by norm_num)
    rw [bitmapOffset, bytesNeeded_eq, Nat.succ_mul]
    omega

theorem totalBitmapBytes_bounds (n : ℕ) :
    n / 16 + 1 ≤ totalBitmapBytes n ∧ totalBitmapBytes n ≤ 11 * (n / 16 + 1) := by
  have hlow := bitmapOffset_mono n (show 0 < buddyMaxOrder + 1 by decide)
  have hhigh := bitmapOffset_le n (buddyMaxOrder + 1)
  rw [bytesNeeded_eq, show bitmapOffset n 0 = 0 from rfl, Nat.zero_add] at hlow
  exact ⟨hlow, hhigh⟩

/-- The frames up to `max_pfn` and the bitmaps of a well-formed map. -/
theorem bitmapPagesOf_bounds (hwf : mmap.WellFormed) :
    maxPfnOf mmap < 2 ^ 40 ∧ 1 ≤ bitmapPagesOf mmap ∧ bitmapPagesOf mmap < 2 ^ 32 ∧
      totalBitmapBytes (maxPfnOf mmap) ≤ bitmapPagesOf mmap * pageSize := by
  have hmax := hwf.maxUsable_le
  have hpfn : maxPfnOf mmap < 2 ^ 40 := by
    rw [maxPfnOf, pageSize]
    omega
  obtain ⟨hlow, hhigh⟩ := totalBitmapBytes_bounds (maxPfnOf mmap)
  simp only [bitmapPagesOf, pageSize]
  omega

/-- `initialize_buddy` empties the lists and counts all usable memory as used. -/
def counted (s : PMM) (total : ℕ) : PMM :=
  { s with
    freeLists := fun order => if order ≤ buddyMaxOrder then 0 else s.freeLists order
    totalMemory := total
    usedMemory := total
    freeMemory := 0 }

/-- It clears the bitmap pages and cuts them into slices. -/
def withBitmaps (s : PMM) (mmap : MemoryMap) (phys : ℕ) : PMM :=
  { s with
    mem := s.mem.fill (bitmapPagesOf mmap * pageSize) (u64 (phys + hhdmBase)) 0
    buddyMap := fun order =>
      if order ≤ buddyMaxOrder then u64 (phys + hhdmBase) + bitmapOffset (maxPfnOf mmap) order
      else s.buddyMap order }

theorem prepareBuddy_eq (hwf : mmap.WellFormed) (htotal : s.totalMemory = 0) :
    prepareBuddy s mmap = if (mmap.maxUsable + 4095) / pageSize = 0 then none
      else (allocPagesBump (s.counted mmap.usableLength) (bitmapPagesOf mmap)).map
        fun r => r.2.withBitmaps mmap r.1 := by
  have hlen := hwf.usableLength_le
  have hmax := hwf.maxUsable_le
  have hscan : scanUsable mmap s.totalMemory 0 = (mmap.usableLength, mmap.maxUsable) := by
    rw [htotal, scanUsable_eq hwf (by omega), Nat.zero_add, Nat.zero_max]
  have hpages : u64 (mmap.maxUsable + pageSize - 1) = mmap.maxUsable + 4095 := by
    rw [pageSize]
    exact u64_of_lt (by omega)
  have hbitmap : alignUp (totalBitmapBytes (maxPfnOf mmap)) pageSize / pageSize
      = bitmapPagesOf mmap := by
    obtain ⟨hpfn, -, -, -⟩ := bitmapPagesOf_bounds hwf
    obtain ⟨-, hhigh⟩ := totalBitmapBytes_bounds (maxPfnOf mmap)
    rw [alignUp_page (by omega), Nat.mul_div_cancel _ (by decide), bitmapPagesOf]
  rw [maxPfnOf] at hbitmap
  simp only [prepareBuddy, hscan, hpages, hbitmap]
  rfl

theorem allocPagesBump_counted (hwf : mmap.WellFormed) (hmap : s.mmap = some mmap)
    (hinit : s.initializedBuddy = false) (hn : n < 2 ^ 32) (total : ℕ) :
    (s.counted total).allocPagesBump n
      = (s.allocPagesBump n).map fun r => (r.1, r.2.counted total) := by
  rw [allocPagesBump_eq hwf (show (s.counted total).mmap = some mmap from hmap)
    (show (s.counted total).initializedBuddy = false from hinit) hn,
    allocPagesBump_eq hwf hmap hinit hn]
  by_cases hfits : s.Fits (n * pageSize)
  · rw [if_pos hfits, if_pos (show (s.counted total).Fits (n * pageSize) from hfits)]
    rfl
  · rw [if_neg hfits, if_neg (show ¬ (s.counted total).Fits (n * pageSize) from hfits),
      Option.map_map]
    rfl

variable {ranges : List (ℕ × ℕ)} {opened : List UnifiedMemoryEntry} {phys : ℕ}

/-- **What `initialize_buddy` does before the carve**: it takes the bitmap pages from the bump
allocator. -/
theorem prepareBuddy_some (hwf : mmap.WellFormed) (hrun : BumpRun mmap hr s ranges opened)
    (h : prepareBuddy s mmap = some s') :
    ∃ phys s₁, s.allocPages (bitmapPagesOf mmap) = some (phys, s₁) ∧
      s' = (s₁.counted mmap.usableLength).withBitmaps mmap phys := by
  have hboot := (hrun.inv hwf).boot
  obtain ⟨-, -, hpages, -⟩ := bitmapPagesOf_bounds hwf
  rw [prepareBuddy_eq hwf hboot.total, allocPagesBump_counted hwf hboot.map_eq hboot.initialized
    hpages] at h
  split at h
  · exact absurd h (by simp)
  · obtain ⟨r, hr, rfl⟩ := Option.map_eq_some_iff.mp h
    obtain ⟨⟨phys, s₁⟩, halloc, rfl⟩ := Option.map_eq_some_iff.mp hr
    refine ⟨phys, s₁, ?_, rfl⟩
    rw [allocPages, if_pos (by simp [hboot.initialized])]
    exact halloc

/-- What the range of the bitmaps is like. -/
structure BitmapRange (mmap : MemoryMap) (hr phys bp : ℕ) : Prop where
  hr_lt : hr < 2 ^ 52
  hr_le : hr ≤ phys
  aligned : pageSize ∣ phys
  bp_eq : bp = phys + bitmapPagesOf mmap * pageSize
  bp_le : bp ≤ earlyBootMapLimit

theorem bitmapRange (hwf : mmap.WellFormed) (hrun : BumpRun mmap hr s ranges opened)
    (halloc : s.allocPages (bitmapPagesOf mmap) = some (phys, s')) :
    BitmapRange mmap hr phys s'.bumpPtrPhys ∧ s'.highestReservedPhys = hr ∧ s'.trace = [] ∧
      s'.initializedBuddy = false ∧ s'.mmap = some mmap := by
  obtain ⟨-, hpos, hpages, -⟩ := bitmapPagesOf_bounds hwf
  have hinv := hrun.inv hwf
  have hinv' := (hrun.alloc hpos hpages halloc).inv hwf
  obtain ⟨e, -, hcut⟩ := hinv'.cut _ List.mem_cons_self
  have hend := hwf.physical e hcut.mem hcut.usable
  have hahead := hcut.ahead
  obtain ⟨-, -, hwm, -⟩ := bumpStart_spec hend hahead
  rw [allocPages, if_pos (by simp [hinv.boot.initialized])] at halloc
  have hptr := hinv.ptr_eq hwf hpos hpages halloc
  refine ⟨⟨by omega, hwm.trans hcut.start_le, hcut.aligned, hptr, ?_⟩, hinv'.boot.reserved,
    hinv'.boot.trace, hinv'.boot.initialized, hinv'.boot.map_eq⟩
  rw [hptr]
  exact hcut.end_le.trans (min_le_right _ _)

/-- The bitmaps that end below the boot limit cover few frames. -/
theorem BitmapRange.maxPfn_lt (h : BitmapRange mmap hr phys bp) (hwf : mmap.WellFormed) :
    maxPfnOf mmap < 2 ^ 34 := by
  obtain ⟨-, -, -, hfit⟩ := bitmapPagesOf_bounds hwf
  obtain ⟨hlow, -⟩ := totalBitmapBytes_bounds (maxPfnOf mmap)
  have hend := h.bp_le
  rw [h.bp_eq, earlyBootMapLimit] at hend
  omega

/-- The geometry of the bitmaps at `phys`. -/
def geometryOf (mmap : MemoryMap) (phys : ℕ) (h : maxPfnOf mmap < 2 ^ 35) : Geometry where
  maxPfn := maxPfnOf mmap
  bitmapBase := phys + hhdmBase
  maxPfn_lt := h

/-- **The state in which the carve starts**: the bitmaps are at `phys`, between
`highest_reserved_phys` and the bump pointer, and clear; the lists are empty; all memory is counted
as used.  Where the map's tag lies is left open. -/
structure Prepared (mmap : MemoryMap) (hr phys bp : ℕ) (s : PMM) : Prop where
  scalars : Scalars hr bp s
  hr_le : hr ≤ phys
  aligned : pageSize ∣ phys
  end_le : phys + totalBitmapBytes (maxPfnOf mmap) ≤ bp
  lists : ∀ o ≤ buddyMaxOrder, s.freeLists o = 0
  slices : ∀ o ≤ buddyMaxOrder,
    s.buddyMap o = phys + hhdmBase + bitmapOffset (maxPfnOf mmap) o
  clear : ∀ x, phys + hhdmBase ≤ x → x < phys + hhdmBase + totalBitmapBytes (maxPfnOf mmap) →
    s.mem x = 0
  free : s.freeMemory = 0
  used : s.usedMemory = s.totalMemory
  total_lt : s.totalMemory < 2 ^ 64
  trace : s.trace = []

namespace Prepared

variable {hmax : maxPfnOf mmap < 2 ^ 35}

/-- **The carve gives only frames the bitmaps cover** and that are not theirs. -/
theorem frame (h : Prepared mmap hr phys bp s) (hq : q ∈ mmap.usablePages)
    (hres : ¬ Reserved k hr bp q) : (geometryOf mmap phys hmax).Frame q := by
  obtain ⟨e, he, hu, -, hend⟩ := hq
  have hlast := MemoryMap.le_maxUsable he hu
  obtain ⟨b, hb⟩ := h.aligned
  have hle := h.hr_le
  have hbp := h.end_le
  rw [Reserved, not_or, not_or] at hres
  rw [pageSize] at hend hres hb
  refine ⟨Nat.pos_of_ne_zero hres.1, Nat.div_le_div_right ?_, ?_⟩
  · change q ≤ maxPfnOf mmap
    rw [maxPfnOf, pageSize]
    omega
  · change hhdmBase + (q + 1) * 4096 ≤ phys + hhdmBase ∨
      phys + hhdmBase + totalBitmapBytes (maxPfnOf mmap) ≤ hhdmBase + q * 4096
    omega

/-- **Before the carve no frame is free.** -/
theorem inv (h : Prepared mmap hr phys bp s) : BuddyInv (geometryOf mmap phys hmax) s ∅ := by
  refine ⟨fun q hq => absurd hq (Set.notMem_empty q), ⟨fun _ => [], fun _ _ => false, ?_, ?_⟩, ?_⟩
  · refine ⟨h.lists, fun _ _ => List.nodup_nil, by simp, by simp, h.slices, fun o ho i hi => ?_⟩
    have hmem := slice_mem_bitmap (g := geometryOf mmap phys hmax) ho hi
    have hzero := h.clear _ hmem.1 hmem.2
    rw [bitAt, h.slices o ho]
    exact (congrArg (fun v : UInt8 => v.toNat.testBit (i % 8)) hzero).trans (Nat.zero_testBit _)
  · refine ⟨fun o _ p => iff_of_false List.not_mem_nil fun hmax => ?_, fun _ _ _ _ => rfl⟩
    exact hmax.subset (self_mem_block o p)
  · rw [h.trace]
    simp

/-- Nothing is counted as free. -/
theorem accounted (h : Prepared mmap hr phys bp s) : Accounted s ∅ :=
  ⟨by rw [h.free, Set.ncard_empty, Nat.mul_zero], by rw [h.free, h.used, Nat.zero_add], h.total_lt⟩

end Prepared

/-- **What `initialize_buddy` does before the carve** prepares it. -/
theorem BitmapRange.prepared (hwf : mmap.WellFormed) (h : BitmapRange mmap hr phys bp)
    (hres : s.highestReservedPhys = hr) (hbp : s.bumpPtrPhys = bp) (htrace : s.trace = []) :
    Prepared mmap hr phys bp ((s.counted mmap.usableLength).withBitmaps mmap phys) := by
  obtain ⟨-, -, -, hfit⟩ := bitmapPagesOf_bounds hwf
  have hlen := hwf.usableLength_le
  have hle := h.hr_le
  have hend := h.bp_le
  have heq := h.bp_eq
  rw [earlyBootMapLimit] at hend
  have hphys : u64 (phys + hhdmBase) = phys + hhdmBase := by
    rw [hhdmBase]
    exact u64_of_lt (by omega)
  refine ⟨⟨hres, hbp, by omega, by omega, ?_⟩, hle, h.aligned, by omega, fun o ho => ?_,
    fun o ho => ?_, fun x hx hx' => ?_, rfl, rfl, ?_, htrace⟩
  · rw [heq]
    exact h.aligned.add (Nat.dvd_mul_left _ _)
  · change (if o ≤ buddyMaxOrder then 0 else s.freeLists o) = 0
    exact if_pos ho
  · change (if o ≤ buddyMaxOrder then u64 (phys + hhdmBase) + bitmapOffset (maxPfnOf mmap) o
      else s.buddyMap o) = _
    rw [if_pos ho, hphys]
  · refine Mem.fill_apply_of_mem ?_
    rw [hphys]
    exact ⟨hx, hx'.trans_le (Nat.add_le_add_left hfit _)⟩
  · change mmap.usableLength < 2 ^ 64
    omega

/-- **The carve from a prepared state** gives the whole usable pages that are not reserved. -/
theorem Prepared.carve (hwf : mmap.WellFormed) (hmax : maxPfnOf mmap < 2 ^ 35)
    (h : Prepared mmap hr phys bp s) :
    ∃ s', PMM.carve k mmap s = some s' ∧
      Gives (geometryOf mmap phys hmax) s ∅ (initialFree k mmap hr bp) s' :=
  carve_gives hwf h.inv h.accounted.sized h.scalars (fun _ => h.frame)
    fun q _ _ => Set.notMem_empty q

/-! ## `initialize_buddy` -/

/-- **The state after the switch**: `g` is where the bitmaps are, `[phys, bp)` the range the bump
allocator gave for them. -/
structure Switched (k : KernelImage) (mmap : MemoryMap) (hr phys bp : ℕ) (g : Geometry) (s : PMM) :
    Prop where
  initialized : s.initializedBuddy = true
  map_eq : s.mmap = some mmap
  inv : BuddyInv g s (initialFree k mmap hr bp)
  accounted : Accounted s (initialFree k mmap hr bp)
  maxPfn : g.maxPfn = maxPfnOf mmap
  base : g.bitmapBase = phys + hhdmBase
  total : s.totalMemory = mmap.usableLength

theorem Accounted.congr (h : Accounted s F) (hfree : s'.freeMemory = s.freeMemory)
    (hused : s'.usedMemory = s.usedMemory) (htotal : s'.totalMemory = s.totalMemory) :
    Accounted s' F :=
  ⟨hfree ▸ h.free, by rw [hfree, hused, htotal, h.total], htotal ▸ h.bound⟩

/-- **After `initialize_buddy`** the free frames are the whole usable pages that are not
reserved. -/
theorem initializeBuddy_spec (hwf : mmap.WellFormed) (hrun : BumpRun mmap hr s ranges opened)
    (hprep : (prepareBuddy s mmap).isSome) :
    ∃ phys s₁ s' g, s.allocPages (bitmapPagesOf mmap) = some (phys, s₁) ∧
      BitmapRange mmap hr phys s₁.bumpPtrPhys ∧ initializeBuddy k s (some mmap) = some s' ∧
      Switched k mmap hr phys s₁.bumpPtrPhys g s' := by
  obtain ⟨s₀, hs₀⟩ := Option.isSome_iff_exists.mp hprep
  obtain ⟨phys, s₁, halloc, rfl⟩ := prepareBuddy_some hwf hrun hs₀
  obtain ⟨hrange, hres, htrace, -, hmap⟩ := bitmapRange hwf hrun halloc
  have hprepared := hrange.prepared hwf hres rfl htrace
  have hacc := hprepared.accounted
  have hmax := (hrange.maxPfn_lt hwf).trans (show 2 ^ 34 < 2 ^ 35 by norm_num)
  obtain ⟨s₂, hcarve, hgives⟩ := hprepared.carve (k := k) hwf hmax
  have hsub : initialFree k mmap hr s₁.bumpPtrPhys ⊆ mmap.usablePages := fun q hq => hq.1
  have hcard := Nat.mul_le_mul_left pageSize
    (Set.ncard_le_ncard hsub (MemoryMap.finite_usablePages mmap))
  have hacc' := hgives.accounted hacc (hcard.trans (MemoryMap.ncard_usablePages_le mmap))
  rw [Set.empty_union] at hacc'
  have hinv' := hgives.inv
  rw [Set.empty_union] at hinv'
  refine ⟨phys, s₁, { s₂ with initializedBuddy := true }, geometryOf mmap phys hmax, halloc,
    hrange, ?_, rfl, ?_, hinv'.congr rfl rfl rfl rfl, hacc'.congr rfl rfl rfl, rfl, rfl, ?_⟩
  · rw [initializeBuddy]
    simp only [hs₀, Option.bind_some, hcarve, Option.map_some]
  · have hmap' := hgives.mmap
    exact hmap'.trans hmap
  · have htotal := hgives.evolves.total
    rw [totalMemory_countFreed] at htotal
    exact htotal

/-- The same, from a call that returned. -/
theorem initializeBuddy_switched (hwf : mmap.WellFormed) (hrun : BumpRun mmap hr s ranges opened)
    (h : initializeBuddy k s (some mmap) = some s') :
    ∃ phys s₁ g, s.allocPages (bitmapPagesOf mmap) = some (phys, s₁) ∧
      BitmapRange mmap hr phys s₁.bumpPtrPhys ∧ Switched k mmap hr phys s₁.bumpPtrPhys g s' := by
  have hprep : (prepareBuddy s mmap).isSome := by
    rw [Option.isSome_iff_ne_none]
    intro hnone
    rw [initializeBuddy] at h
    simp [hnone] at h
  obtain ⟨phys, s₁, s₂, g, halloc, hrange, heq, hswitched⟩ :=
    initializeBuddy_spec hwf hrun hprep
  obtain rfl := Option.some.inj (heq.symm.trans h)
  exact ⟨phys, s₁, g, halloc, hrange, hswitched⟩

/-- The switch succeeds when the first request of early boot is the one for the bitmaps and the map
has room for it. -/
theorem prepareBuddy_isSome (hwf : mmap.WellFormed) (hready : Ready mmap hr s)
    (husable : mmap.maxUsable ≠ 0)
    (hroom : (firstFit mmap hr (bitmapPagesOf mmap * pageSize)).isSome) :
    (prepareBuddy s mmap).isSome := by
  obtain ⟨-, -, hpages, -⟩ := bitmapPagesOf_bounds hwf
  have hfits : ¬ s.Fits (bitmapPagesOf mmap * pageSize) := fun h => h (Or.inl hready.ptr)
  rw [prepareBuddy_eq hwf hready.total, allocPagesBump_counted hwf hready.map_eq hready.initialized
    hpages, allocPagesBump_eq hwf hready.map_eq hready.initialized hpages, if_neg hfits,
    hready.watermark, if_neg (by rw [pageSize]; omega)]
  simpa using hroom

end PMM

end MioOS
