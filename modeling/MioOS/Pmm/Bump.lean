import MioOS.Pmm.Defs

/-!
# Pmm/Bump — the allocator of early boot

`alloc_pages_bump` serves requests from one region of the memory map at a time and searches the map
for another one when a request does not fit.  A `BumpRun` is a history of such requests, with the
ranges handed out and the entries the searches stopped at.

The search starts from the watermark, which never moves, so it can stop at an entry it stopped at
before and hand out its start again.  `BumpRun.rangesOk_iff` says that this is the only way two
ranges can meet.
-/

namespace MioOS

open ByteMemory

namespace PMM

variable {s s' : PMM} {mmap : MemoryMap} {e : UnifiedMemoryEntry} {r : ℕ × ℕ}
  {fuel hr n p size wm : ℕ}

/-! ## One request -/

/-- The request fits what is left of the current region. -/
def Fits (s : PMM) (size : ℕ) : Prop :=
  ¬ (s.bumpPtrPhys = 0 ∨ u64 (s.bumpPtrPhys + size) > s.bumpRegionEndPhys)

instance (s : PMM) (size : ℕ) : Decidable (s.Fits size) := inferInstanceAs (Decidable (¬ _))

/-- Where the search would place a request in the entry. -/
def bumpStart (watermark : ℕ) (ent : UnifiedMemoryEntry) : ℕ :=
  alignUp (if ent.addr > watermark then ent.addr else watermark) pageSize

/-- Where a region that the search selects ends. -/
def bumpEnd (ent : UnifiedMemoryEntry) : ℕ := min (ent.addr + ent.len) earlyBootMapLimit

/-- The entry at which the search for room stops. -/
def firstFit (mmap : MemoryMap) (watermark size : ℕ) : Option UnifiedMemoryEntry :=
  mmap.find? fun ent => (bumpCandidate watermark size ent).isSome

/-- The entry can serve a request: it is usable and not all behind the watermark, and the request
fits below its end and below the limit. -/
structure HasRoom (wm size : ℕ) (e : UnifiedMemoryEntry) : Prop where
  usable : e.isUsable = true
  addr_ne : e.addr ≠ 0
  ahead : wm < e.addr + e.len
  fits : bumpStart wm e + size ≤ bumpEnd e

/-- Where a region starts: at the first page boundary that is in the entry and not below the
watermark. -/
theorem bumpStart_spec (hend : e.addr + e.len ≤ 2 ^ 52) (hahead : wm < e.addr + e.len) :
    pageSize ∣ bumpStart wm e ∧ e.addr ≤ bumpStart wm e ∧ wm ≤ bumpStart wm e ∧
      bumpStart wm e < 2 ^ 52 + 4096 := by
  have hstart : bumpStart wm e = (max e.addr wm + 4095) / pageSize * pageSize := by
    have hmax : (if e.addr > wm then e.addr else wm) = max e.addr wm := by
      split <;> omega
    rw [bumpStart, hmax]
    exact alignUp_page (by omega)
  refine ⟨hstart ▸ Nat.dvd_mul_left _ _, ?_, ?_, ?_⟩ <;> rw [hstart, pageSize] <;> omega

/-- **What the search accepts**, and what it makes of it. -/
theorem bumpCandidate_some_iff (hphys : e.isUsable = true → e.addr + e.len ≤ 2 ^ 52)
    (hsize : size < 2 ^ 44) : bumpCandidate wm size e = some r ↔
      HasRoom wm size e ∧ r = (bumpStart wm e, bumpEnd e) := by
  rw [bumpCandidate]
  by_cases hskip : (!e.isUsable || e.addr == 0) = true
  · rw [if_pos hskip]
    refine iff_of_false (by simp) fun h => ?_
    simp [h.1.usable, h.1.addr_ne] at hskip
  obtain ⟨husable, haddr⟩ : e.isUsable = true ∧ e.addr ≠ 0 := by simpa using hskip
  have hend := hphys husable
  have hu : u64 (e.addr + e.len) = e.addr + e.len := u64_of_lt (by omega)
  rw [if_neg hskip]
  simp only [hu]
  by_cases hbehind : e.addr + e.len ≤ wm
  · rw [if_pos hbehind]
    exact iff_of_false (by simp) fun h => absurd h.1.ahead (by omega)
  have hahead : wm < e.addr + e.len := by omega
  obtain ⟨-, -, -, hlt⟩ := bumpStart_spec hend hahead
  have hsum : u64 (bumpStart wm e + size) = bumpStart wm e + size := u64_of_lt (by omega)
  change (if e.addr + e.len ≤ wm then none else
    if u64 (bumpStart wm e + size) > earlyBootMapLimit then none
    else if u64 (bumpStart wm e + size) ≤ e.addr + e.len then
      some (bumpStart wm e, if e.addr + e.len > earlyBootMapLimit then earlyBootMapLimit
        else e.addr + e.len)
    else none) = some r ↔ _
  have hmin : (if e.addr + e.len > earlyBootMapLimit then earlyBootMapLimit else e.addr + e.len)
      = bumpEnd e := by
    rw [bumpEnd]
    split <;> omega
  rw [if_neg hbehind, hsum, hmin]
  constructor
  · intro h
    split at h
    · simp at h
    · split at h
      · refine ⟨⟨husable, haddr, hahead, ?_⟩, (Option.some.inj h).symm⟩
        rw [bumpEnd]
        omega
      · simp at h
  · rintro ⟨h, rfl⟩
    have hfits := h.fits
    rw [bumpEnd] at hfits
    rw [if_neg (by omega), if_pos (by omega)]

theorem findSome?_eq_bind_find? {α β : Type*} (f : α → Option β) (l : List α) :
    l.findSome? f = (l.find? fun x => (f x).isSome).bind f := by
  induction l with
  | nil => rfl
  | cons a l ih =>
    rw [List.findSome?_cons, List.find?_cons, ih]
    cases h : f a <;> simp [h]

/-- **The entry the search stops at** has room. -/
theorem firstFit_spec (hwf : mmap.WellFormed) (hsize : size < 2 ^ 44)
    (h : firstFit mmap wm size = some e) :
    e ∈ mmap ∧ HasRoom wm size e ∧ bumpCandidate wm size e = some (bumpStart wm e, bumpEnd e) := by
  rw [firstFit] at h
  have hmem := List.mem_of_find?_eq_some h
  have hsome := List.find?_some h
  obtain ⟨r, hr⟩ := Option.isSome_iff_exists.mp hsome
  obtain ⟨hroom, rfl⟩ := (bumpCandidate_some_iff (hwf.physical e hmem) hsize).mp hr
  exact ⟨hmem, hroom, hr⟩

/-- `find_bump_alloc_region` opens the first entry with room. -/
theorem findBumpAllocRegion_eq (hwf : mmap.WellFormed) (hmap : s.mmap = some mmap)
    (hsize : size < 2 ^ 44) : s.findBumpAllocRegion size
      = (firstFit mmap s.bumpWatermark size).map fun e =>
        { s with bumpPtrPhys := bumpStart s.bumpWatermark e, bumpRegionEndPhys := bumpEnd e } := by
  rw [findBumpAllocRegion, hmap, Option.getD_some, findSome?_eq_bind_find?]
  change ((firstFit mmap s.bumpWatermark size).bind _).map _ = _
  cases hfirst : firstFit mmap s.bumpWatermark size with
  | none => rfl
  | some e =>
    rw [Option.bind_some, (firstFit_spec hwf hsize hfirst).2.2]
    rfl

/-- A region that was opened for a request serves it. -/
theorem fits_opened (hend : e.addr + e.len ≤ 2 ^ 52) (hsize : size < 2 ^ 44)
    (hroom : HasRoom wm size e) :
    Fits { s with bumpPtrPhys := bumpStart wm e, bumpRegionEndPhys := bumpEnd e } size := by
  obtain ⟨-, haddr, -, hlt⟩ := bumpStart_spec hend hroom.ahead
  have hne := hroom.addr_ne
  have hfits := hroom.fits
  have hu : u64 (bumpStart wm e + size) = bumpStart wm e + size := u64_of_lt (by omega)
  simp only [Fits, hu]
  omega

/-- The loop searches at most once. -/
theorem settleBump_eq (hwf : mmap.WellFormed) (hmap : s.mmap = some mmap) (hsize : size < 2 ^ 44)
    (fuel : ℕ) : settleBump (fuel + 2) s size
      = if s.Fits size then some s else s.findBumpAllocRegion size := by
  rw [settleBump]
  by_cases hfits : s.Fits size
  · rw [if_neg hfits, if_pos hfits]
  · rw [if_pos (not_not.mp hfits), if_neg hfits, findBumpAllocRegion_eq hwf hmap hsize]
    cases hfirst : firstFit mmap s.bumpWatermark size with
    | none => rfl
    | some e =>
      obtain ⟨hmem, hroom, -⟩ := firstFit_spec hwf hsize hfirst
      have hopened := fits_opened (s := s) (hwf.physical e hmem hroom.usable) hsize hroom
      rw [Option.map_some, Option.bind_some, settleBump, if_neg hopened]

/-- **What `alloc_pages_bump` does**: it cuts the request off the current region, or off the start
of the first entry with room. -/
theorem allocPagesBump_eq (hwf : mmap.WellFormed) (hmap : s.mmap = some mmap)
    (hinit : s.initializedBuddy = false) (hn : n < 2 ^ 32) : s.allocPagesBump n
      = if s.Fits (n * pageSize) then
          some (s.bumpPtrPhys, { s with bumpPtrPhys := u64 (s.bumpPtrPhys + n * pageSize) })
        else (firstFit mmap s.bumpWatermark (n * pageSize)).map fun e =>
          (bumpStart s.bumpWatermark e,
            { s with
              bumpPtrPhys := bumpStart s.bumpWatermark e + n * pageSize
              bumpRegionEndPhys := bumpEnd e }) := by
  have hsize : n * pageSize < 2 ^ 44 := by
    rw [pageSize]
    omega
  have hfuel : loopFuel = 2 ^ 52 - 2 + 2 := rfl
  rw [allocPagesBump, if_neg (by simp [hinit]), u64_of_lt (by omega), hfuel]
  simp only [settleBump_eq hwf hmap hsize]
  by_cases hfits : s.Fits (n * pageSize)
  · rw [if_pos hfits, if_pos hfits]
    rfl
  · rw [if_neg hfits, if_neg hfits, findBumpAllocRegion_eq hwf hmap hsize]
    cases hfirst : firstFit mmap s.bumpWatermark (n * pageSize) with
    | none => rfl
    | some e =>
      obtain ⟨hmem, hroom, -⟩ := firstFit_spec hwf hsize hfirst
      obtain ⟨-, -, -, hlt⟩ :=
        bumpStart_spec (hwf.physical e hmem hroom.usable) hroom.ahead
      have hu : u64 (bumpStart s.bumpWatermark e + n * pageSize)
          = bumpStart s.bumpWatermark e + n * pageSize := u64_of_lt (by omega)
      simp only [Option.map_some, hu]

/-! ## Histories of requests -/

/-- The state when the image starts: every static is zero. -/
def initial (m : Mem) : PMM where
  initializedBuddy := false
  mmap := none
  totalMemory := 0
  freeMemory := 0
  usedMemory := 0
  bumpPtrPhys := 0
  bumpRegionEndPhys := 0
  highestReservedPhys := 0
  bumpWatermark := 0
  freeLists := fun _ => 0
  buddyMap := fun _ => 0
  mem := m
  trace := []

/-- What holds of the state from `initialize_bump` to `initialize_buddy`. -/
structure EarlyBoot (mmap : MemoryMap) (hr : ℕ) (s : PMM) : Prop where
  initialized : s.initializedBuddy = false
  map_eq : s.mmap = some mmap
  total : s.totalMemory = 0
  reserved : s.highestReservedPhys = hr
  watermark : s.bumpWatermark = hr
  trace : s.trace = []

/-- The state after `initialize_bump`. -/
structure Ready (mmap : MemoryMap) (hr : ℕ) (s : PMM) : Prop extends EarlyBoot mmap hr s where
  ptr : s.bumpPtrPhys = 0

/-- Where the Multiboot block ends, as `initialize_bump` computes it. -/
def mbEnd (m : Mem) (multibootPtr : ℕ) : ℕ :=
  u64 (multibootPtr + sub64 (m.load 8 multibootPtr) hhdmBase)

theorem initializeBump_ready (k : KernelImage) (m : Mem) (mmap : MemoryMap) (mb : ℕ) :
    ∃ s, initializeBump k (initial m) (some mmap) mb = some s ∧ s.mem = m ∧
      Ready mmap (max k.endPhys (mbEnd m mb)) s := by
  have hmax : (if mbEnd m mb > k.endPhys then mbEnd m mb else k.endPhys)
      = max k.endPhys (mbEnd m mb) := by
    split <;> omega
  exact ⟨_, rfl, rfl, ⟨rfl, rfl, rfl, hmax, hmax, rfl⟩, rfl⟩

/-- **A history of early boot**: the requests served, latest first, and the entries the searches
stopped at, while anything may be written to memory. -/
inductive BumpRun (mmap : MemoryMap) (hr : ℕ) :
    PMM → List (ℕ × ℕ) → List UnifiedMemoryEntry → Prop
  | start {s : PMM} : Ready mmap hr s → BumpRun mmap hr s [] []
  | alloc {s s' : PMM} {ranges : List (ℕ × ℕ)} {opened : List UnifiedMemoryEntry} {n p : ℕ} :
      BumpRun mmap hr s ranges opened → 1 ≤ n → n < 2 ^ 32 → s.allocPages n = some (p, s') →
      BumpRun mmap hr s' ((p, n) :: ranges)
        (if s.Fits (n * pageSize) then opened
          else (firstFit mmap hr (n * pageSize)).toList ++ opened)
  | write {s : PMM} {ranges : List (ℕ × ℕ)} {opened : List UnifiedMemoryEntry} (m : Mem) :
      BumpRun mmap hr s ranges opened → BumpRun mmap hr { s with mem := m } ranges opened

/-- The bytes of a range that was handed out. -/
def rangeBytes (r : ℕ × ℕ) : Set ℕ := Set.Ico r.1 (r.1 + r.2 * pageSize)

/-- **What a client may expect** of the ranges handed out. -/
structure RangesOk (mmap : MemoryMap) (hr : ℕ) (ranges : List (ℕ × ℕ)) : Prop where
  disjoint : ranges.Pairwise fun r r' => Disjoint (rangeBytes r) (rangeBytes r')
  aligned : ∀ r ∈ ranges, pageSize ∣ r.1
  usable : ∀ r ∈ ranges, ∃ e ∈ mmap, e.isUsable = true ∧ rangeBytes r ⊆ e.bytes
  reserved : ∀ r ∈ ranges, hr ≤ r.1
  limit : ∀ r ∈ ranges, r.1 + r.2 * pageSize ≤ earlyBootMapLimit

/-- The range was cut off a region that was opened in the entry. -/
structure CutFrom (mmap : MemoryMap) (hr : ℕ) (e : UnifiedMemoryEntry) (r : ℕ × ℕ) : Prop where
  mem : e ∈ mmap
  usable : e.isUsable = true
  ahead : hr < e.addr + e.len
  nonempty : 1 ≤ r.2
  start_le : bumpStart hr e ≤ r.1
  aligned : pageSize ∣ r.1
  end_le : r.1 + r.2 * pageSize ≤ bumpEnd e

/-- The region that the bump pointer is in. -/
structure InRegion (mmap : MemoryMap) (hr : ℕ) (s : PMM) (e : UnifiedMemoryEntry) : Prop where
  mem : e ∈ mmap
  usable : e.isUsable = true
  ahead : hr < e.addr + e.len
  start_le : bumpStart hr e ≤ s.bumpPtrPhys
  aligned : pageSize ∣ s.bumpPtrPhys
  ptr_le : s.bumpPtrPhys ≤ s.bumpRegionEndPhys
  region_end : s.bumpRegionEndPhys = bumpEnd e

/-- **The invariant of early boot.** -/
structure BumpInv (mmap : MemoryMap) (hr : ℕ) (s : PMM) (ranges : List (ℕ × ℕ))
    (opened : List UnifiedMemoryEntry) : Prop where
  boot : EarlyBoot mmap hr s
  region : s.bumpPtrPhys = 0 ∧ opened = [] ∨ ∃ e rest, opened = e :: rest ∧ InRegion mmap hr s e
  cut : ∀ r ∈ ranges, ∃ e ∈ opened, CutFrom mmap hr e r
  first : ∀ e ∈ opened, ∃ r ∈ ranges, r.1 = bumpStart hr e
  disjoint : opened.Nodup → ranges.Pairwise fun r r' => Disjoint (rangeBytes r) (rangeBytes r')
  behind : opened.Nodup → ∀ r ∈ ranges,
    Disjoint (rangeBytes r) (Set.Ico s.bumpPtrPhys s.bumpRegionEndPhys)
  repeated : ¬ opened.Nodup → ¬ ranges.Pairwise fun r r' => Disjoint (rangeBytes r) (rangeBytes r')

theorem rangeBytes_nonempty (h : 1 ≤ r.2) : r.1 ∈ rangeBytes r := by
  rw [rangeBytes, Set.mem_Ico, pageSize]
  omega

theorem CutFrom.subset (hwf : mmap.WellFormed) (h : CutFrom mmap hr e r) :
    rangeBytes r ⊆ e.bytes := by
  obtain ⟨-, haddr, -, -⟩ := bumpStart_spec (hwf.physical e h.mem h.usable) h.ahead
  have hstart := h.start_le
  have hend := h.end_le
  rw [bumpEnd] at hend
  exact Set.Ico_subset_Ico (by omega) (by omega)

/-- A request that fits is cut off the current region. -/
theorem InRegion.cut (h : InRegion mmap hr s e) (hn : 1 ≤ n) (hn' : n < 2 ^ 32)
    (hfits : s.Fits (n * pageSize)) :
    u64 (s.bumpPtrPhys + n * pageSize) = s.bumpPtrPhys + n * pageSize ∧
      CutFrom mmap hr e (s.bumpPtrPhys, n) := by
  have hptr := h.ptr_le
  have hreg := h.region_end
  have hlim : bumpEnd e ≤ earlyBootMapLimit := min_le_right _ _
  have hu : u64 (s.bumpPtrPhys + n * pageSize) = s.bumpPtrPhys + n * pageSize := by
    rw [earlyBootMapLimit] at hlim
    rw [pageSize]
    exact u64_of_lt (by omega)
  rw [Fits, hu] at hfits
  have hend : s.bumpPtrPhys + n * pageSize ≤ bumpEnd e := by omega
  exact ⟨hu, h.mem, h.usable, h.ahead, hn, h.start_le, h.aligned, hend⟩

/-- A request that makes the search open an entry is cut off its start. -/
theorem HasRoom.cut (hwf : mmap.WellFormed) (hmem : e ∈ mmap)
    (hroom : HasRoom hr (n * pageSize) e) (hn : 1 ≤ n) :
    CutFrom mmap hr e (bumpStart hr e, n) := by
  obtain ⟨hal, -, -, -⟩ := bumpStart_spec (hwf.physical e hmem hroom.usable) hroom.ahead
  exact ⟨hmem, hroom.usable, hroom.ahead, hn, le_rfl, hal, hroom.fits⟩

/-- After the cut the bump pointer is in that entry. -/
theorem CutFrom.inRegion (h : CutFrom mmap hr e r) (hptr : s.bumpPtrPhys = r.1 + r.2 * pageSize)
    (hend : s.bumpRegionEndPhys = bumpEnd e) : InRegion mmap hr s e := by
  refine ⟨h.mem, h.usable, h.ahead, ?_, ?_, ?_, hend⟩ <;> rw [hptr]
  · exact h.start_le.trans (Nat.le_add_right _ _)
  · exact h.aligned.add (Nat.dvd_mul_left _ _)
  · rw [hend]
    exact h.end_le

variable {ranges : List (ℕ × ℕ)} {opened : List UnifiedMemoryEntry}

theorem Ico_end_disjoint (a b c : ℕ) : Disjoint (Set.Ico a b) (Set.Ico b c) :=
  Set.disjoint_left.mpr fun _ h h' => absurd h.2 (not_lt.mpr h'.1)

/-- Cutting the next request off the current region. -/
theorem BumpInv.fit (h : BumpInv mmap hr s ranges opened) (hn : 1 ≤ n) (hn' : n < 2 ^ 32)
    (hfits : s.Fits (n * pageSize)) :
    BumpInv mmap hr { s with bumpPtrPhys := u64 (s.bumpPtrPhys + n * pageSize) }
      ((s.bumpPtrPhys, n) :: ranges) opened := by
  obtain ⟨e, rest, hopened, hregion⟩ := h.region.resolve_left fun h0 => hfits (Or.inl h0.1)
  obtain ⟨hu, hcut⟩ := hregion.cut hn hn' hfits
  have hmem : e ∈ opened := hopened ▸ List.mem_cons_self
  have hsub : rangeBytes (s.bumpPtrPhys, n) ⊆ Set.Ico s.bumpPtrPhys s.bumpRegionEndPhys :=
    Set.Ico_subset_Ico_right (hcut.end_le.trans hregion.region_end.ge)
  rw [hu]
  refine ⟨⟨h.boot.initialized, h.boot.map_eq, h.boot.total, h.boot.reserved, h.boot.watermark,
    h.boot.trace⟩, Or.inr ⟨e, rest, hopened, hcut.inRegion rfl hregion.region_end⟩, ?_, ?_, ?_,
    ?_, ?_⟩
  · exact List.forall_mem_cons.mpr ⟨⟨e, hmem, hcut⟩, h.cut⟩
  · intro e' he'
    obtain ⟨r, hr, hstart⟩ := h.first e' he'
    exact ⟨r, List.mem_cons_of_mem _ hr, hstart⟩
  · intro hnd
    refine List.pairwise_cons.mpr ⟨fun r hr => ?_, h.disjoint hnd⟩
    exact ((h.behind hnd r hr).mono_right hsub).symm
  · intro hnd
    refine List.forall_mem_cons.mpr ⟨Ico_end_disjoint _ _ _, fun r hr => ?_⟩
    exact (h.behind hnd r hr).mono_right (Set.Ico_subset_Ico_left (Nat.le_add_right _ _))
  · exact fun hnd hpair => h.repeated hnd (List.pairwise_cons.mp hpair).2

/-- Opening an entry for the next request. -/
theorem BumpInv.search (hwf : mmap.WellFormed) (h : BumpInv mmap hr s ranges opened) (hn : 1 ≤ n)
    (hmem : e ∈ mmap) (hroom : HasRoom hr (n * pageSize) e) :
    BumpInv mmap hr { s with
        bumpPtrPhys := bumpStart s.bumpWatermark e + n * pageSize
        bumpRegionEndPhys := bumpEnd e }
      ((bumpStart s.bumpWatermark e, n) :: ranges) (e :: opened) := by
  rw [h.boot.watermark]
  have hcut := hroom.cut hwf hmem hn
  have hbytes := hcut.subset hwf
  -- ranges from other entries do not meet this one
  have hother : e ∉ opened → ∀ r ∈ ranges, Disjoint (rangeBytes r) e.bytes := fun hnew r hr => by
    obtain ⟨e', he', hcut'⟩ := h.cut r hr
    refine Disjoint.mono_left (hcut'.subset hwf) ?_
    exact hwf.disjoint_of_ne hcut'.mem hmem hcut'.usable hroom.usable
      (ne_of_mem_of_not_mem he' hnew)
  refine ⟨⟨h.boot.initialized, h.boot.map_eq, h.boot.total, h.boot.reserved, rfl, h.boot.trace⟩,
    Or.inr ⟨e, opened, rfl, hcut.inRegion rfl rfl⟩, ?_, ?_, ?_, ?_, ?_⟩
  · refine List.forall_mem_cons.mpr ⟨⟨e, List.mem_cons_self, hcut⟩, fun r hr => ?_⟩
    obtain ⟨e', he', hcut'⟩ := h.cut r hr
    exact ⟨e', List.mem_cons_of_mem _ he', hcut'⟩
  · refine List.forall_mem_cons.mpr ⟨⟨_, List.mem_cons_self, rfl⟩, fun e' he' => ?_⟩
    obtain ⟨r, hr, hstart⟩ := h.first e' he'
    exact ⟨r, List.mem_cons_of_mem _ hr, hstart⟩
  · intro hnd
    obtain ⟨hnew, hnd⟩ := List.nodup_cons.mp hnd
    refine List.pairwise_cons.mpr ⟨fun r hr => ?_, h.disjoint hnd⟩
    exact ((hother hnew r hr).mono_right hbytes).symm
  · intro hnd
    obtain ⟨hnew, hnd⟩ := List.nodup_cons.mp hnd
    refine List.forall_mem_cons.mpr ⟨Ico_end_disjoint _ _ _, fun r hr => ?_⟩
    refine (hother hnew r hr).mono_right (Set.Ico_subset_Ico ?_ (min_le_left _ _))
    exact (bumpStart_spec (hwf.physical e hmem hroom.usable) hroom.ahead).2.1.trans
      (Nat.le_add_right _ _)
  · intro hnd hpair
    obtain ⟨hhead, hpair⟩ := List.pairwise_cons.mp hpair
    by_cases hnew : e ∈ opened
    · obtain ⟨r, hr, hstart⟩ := h.first e hnew
      obtain ⟨e', -, hcut'⟩ := h.cut r hr
      refine Set.disjoint_left.mp (hhead r hr) (rangeBytes_nonempty (r := (_, n)) hn) ?_
      exact hstart ▸ rangeBytes_nonempty hcut'.nonempty
    · exact h.repeated (fun hnd' => hnd (List.nodup_cons.mpr ⟨hnew, hnd'⟩)) hpair

theorem BumpRun.inv (hwf : mmap.WellFormed) (h : BumpRun mmap hr s ranges opened) :
    BumpInv mmap hr s ranges opened := by
  induction h with
  | start h =>
    exact ⟨h.toEarlyBoot, Or.inl ⟨h.ptr, rfl⟩, by simp, by simp, fun _ => List.Pairwise.nil,
      by simp, fun h => absurd List.nodup_nil h⟩
  | @alloc s s' ranges opened n p _ hn hn' halloc ih =>
    rw [allocPages, ih.boot.initialized, Bool.not_false, if_pos rfl,
      allocPagesBump_eq hwf ih.boot.map_eq ih.boot.initialized hn'] at halloc
    by_cases hfits : s.Fits (n * pageSize)
    · rw [if_pos hfits] at halloc ⊢
      obtain ⟨rfl, rfl⟩ := Prod.mk.inj (Option.some.inj halloc)
      exact ih.fit hn hn' hfits
    · rw [if_neg hfits] at halloc ⊢
      obtain ⟨e, he, heq⟩ := Option.map_eq_some_iff.mp halloc
      obtain ⟨rfl, rfl⟩ := Prod.mk.inj heq
      rw [ih.boot.watermark] at he
      obtain ⟨hmem, hroom, -⟩ := firstFit_spec hwf (by rw [pageSize]; omega) he
      rw [he]
      exact ih.search hwf hn hmem hroom
  | write m _ ih =>
    refine ⟨⟨ih.boot.initialized, ih.boot.map_eq, ih.boot.total, ih.boot.reserved,
      ih.boot.watermark, ih.boot.trace⟩, ih.region.imp_right ?_, ih.cut, ih.first, ih.disjoint,
      ih.behind, ih.repeated⟩
    rintro ⟨e, rest, hopened, hregion⟩
    exact ⟨e, rest, hopened, ⟨hregion.mem, hregion.usable, hregion.ahead, hregion.start_le,
      hregion.aligned, hregion.ptr_le, hregion.region_end⟩⟩

/-- The bump pointer is left behind the range. -/
theorem BumpInv.ptr_eq (hwf : mmap.WellFormed) (h : BumpInv mmap hr s ranges opened) (hn : 1 ≤ n)
    (hn' : n < 2 ^ 32) (halloc : s.allocPagesBump n = some (p, s')) :
    s'.bumpPtrPhys = p + n * pageSize := by
  rw [allocPagesBump_eq hwf h.boot.map_eq h.boot.initialized hn'] at halloc
  by_cases hfits : s.Fits (n * pageSize)
  · obtain ⟨e, rest, hopened, hregion⟩ := h.region.resolve_left fun h0 => hfits (Or.inl h0.1)
    rw [if_pos hfits] at halloc
    obtain ⟨rfl, rfl⟩ := Prod.mk.inj (Option.some.inj halloc)
    exact (hregion.cut hn hn' hfits).1
  · rw [if_neg hfits] at halloc
    obtain ⟨e, he, heq⟩ := Option.map_eq_some_iff.mp halloc
    obtain ⟨rfl, rfl⟩ := Prod.mk.inj heq
    rfl

/-- A request that does not fit is served from the first entry with room. -/
theorem BumpRun.open_first (hwf : mmap.WellFormed) (h : BumpRun mmap hr s ranges opened)
    (hn : 1 ≤ n) (hn' : n < 2 ^ 32) (hfits : ¬ s.Fits (n * pageSize))
    (hfirst : firstFit mmap hr (n * pageSize) = some e) :
    ∃ s', BumpRun mmap hr s' ((bumpStart hr e, n) :: ranges) (e :: opened) ∧
      s'.bumpPtrPhys = bumpStart hr e + n * pageSize ∧ s'.bumpRegionEndPhys = bumpEnd e := by
  have hboot := (h.inv hwf).boot
  have hfirst' : firstFit mmap s.bumpWatermark (n * pageSize) = some e := by
    rw [hboot.watermark]
    exact hfirst
  have halloc : s.allocPages n = some (bumpStart s.bumpWatermark e, { s with
      bumpPtrPhys := bumpStart s.bumpWatermark e + n * pageSize
      bumpRegionEndPhys := bumpEnd e }) := by
    rw [allocPages, if_pos (by simp [hboot.initialized]),
      allocPagesBump_eq hwf hboot.map_eq hboot.initialized hn', if_neg hfits, hfirst']
    rfl
  have hstep := h.alloc hn hn' halloc
  rw [if_neg hfits, hfirst, hboot.watermark] at hstep
  exact ⟨_, hstep, rfl, rfl⟩

/-- **The bump allocator hands out what it should exactly as long as no search stops at an entry
where an earlier one stopped.** -/
theorem BumpRun.rangesOk_iff (hwf : mmap.WellFormed) (h : BumpRun mmap hr s ranges opened) :
    RangesOk mmap hr ranges ↔ opened.Nodup := by
  have hinv := h.inv hwf
  refine ⟨fun hok => ?_, fun hnd => ⟨hinv.disjoint hnd, ?_, ?_, ?_, ?_⟩⟩
  · by_contra hnd
    exact hinv.repeated hnd hok.disjoint
  all_goals
    intro r hr
    obtain ⟨e, -, hcut⟩ := hinv.cut r hr
  · exact hcut.aligned
  · exact ⟨e, hcut.mem, hcut.usable, hcut.subset hwf⟩
  · exact (bumpStart_spec (hwf.physical e hcut.mem hcut.usable) hcut.ahead).2.2.1.trans
      hcut.start_le
  · exact hcut.end_le.trans (min_le_right _ _)

/-! ## A region that is opened twice -/

/-- One usable region of three pages. -/
def threePages : MemoryMap := [⟨0x200000, 0x3000, true, 1, false⟩]

theorem threePages_wellFormed : threePages.WellFormed :=
  ⟨List.pairwise_singleton _ _, by decide⟩

/-- Two of the pages are handed out. -/
theorem threePages_run : ∃ s, BumpRun threePages 0x102000 s [(0x200000, 2)] threePages ∧
    s.bumpPtrPhys = 0x202000 ∧ s.bumpRegionEndPhys = 0x203000 := by
  obtain ⟨s, -, -, hready⟩ := initializeBump_ready ⟨0x100000, 0x102000, by decide, by decide⟩
    (fun _ => 0) threePages (hhdmBase + 0x10000)
  have hhr : max 0x102000 (mbEnd (fun _ => 0) (hhdmBase + 0x10000)) = 0x102000 := by
    decide +kernel
  rw [hhr] at hready
  obtain ⟨s', hrun, hptr, hend⟩ := (BumpRun.start hready).open_first (n := 2)
    (e := ⟨0x200000, 0x3000, true, 1, false⟩) threePages_wellFormed (by decide) (by decide)
    (fun h => h (Or.inl hready.ptr)) (by decide +kernel)
  have hstart : bumpStart 0x102000 ⟨0x200000, 0x3000, true, 1, false⟩ = 0x200000 := by
    decide +kernel
  rw [hstart] at hrun hptr
  exact ⟨s', hrun, hptr, hend⟩

/-- One request of two pages gets what it should. -/
theorem threePages_rangesOk : ∃ s, BumpRun threePages 0x102000 s [(0x200000, 2)] threePages ∧
    RangesOk threePages 0x102000 [(0x200000, 2)] := by
  obtain ⟨s, hrun, -, -⟩ := threePages_run
  exact ⟨s, hrun, (hrun.rangesOk_iff threePages_wellFormed).mpr (by decide)⟩

/-- **The same two pages are handed out twice**: the second request does not fit the page that is
left, and the search opens the region again, from its start. -/
theorem not_rangesOk_threePages :
    ¬ ∀ (mmap : MemoryMap) (hr : ℕ) (s : PMM) (ranges : List (ℕ × ℕ))
      (opened : List UnifiedMemoryEntry), mmap.WellFormed → BumpRun mmap hr s ranges opened →
        RangesOk mmap hr ranges := by
  intro h
  obtain ⟨s, hrun, hptr, hend⟩ := threePages_run
  have hfull : ¬ s.Fits (2 * pageSize) := by
    rw [Fits, hptr, hend]
    decide +kernel
  obtain ⟨s', hrun', -, -⟩ := hrun.open_first (n := 2)
    (e := ⟨0x200000, 0x3000, true, 1, false⟩) threePages_wellFormed (by decide) (by decide) hfull
    (by decide +kernel)
  have hstart : bumpStart 0x102000 ⟨0x200000, 0x3000, true, 1, false⟩ = 0x200000 := by
    decide +kernel
  rw [hstart] at hrun'
  have hdisj := (h _ _ _ _ _ threePages_wellFormed hrun').disjoint
  have hpair := (List.pairwise_cons.mp hdisj).1 (0x200000, 2) List.mem_cons_self
  exact Set.disjoint_left.mp hpair (rangeBytes_nonempty (by decide))
    (rangeBytes_nonempty (by decide))

end PMM

end MioOS
