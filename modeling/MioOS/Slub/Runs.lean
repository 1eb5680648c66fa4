import MioOS.Slub.Lending

/-!
# Slub/Runs — runs of one cache

A `World` is a cache, its page source and the objects its callers hold.  `Step` is a call of `alloc`
or `free`, or a caller writing to objects it holds; `Run.soundOverSource` says what every run leaves, and
`Run.correct` what that is in memory for a cache of `kmalloc`.

The pages are counted in a log: `logged` is a page source that writes down the pages it hands out
and takes back, and it hands out unused pages if the source under it does.
-/

namespace MioOS

open ByteMemory Intrusive SlabHeader PMM

/-! ## A page source that keeps a log -/

/-- A call of the page source, by physical address. -/
inductive PageCall
  | alloc (phys : ℕ)
  | free (phys : ℕ)
  deriving DecidableEq

namespace PageCall

/-- The page a call handed out. -/
def taken : PageCall → Option ℕ
  | .alloc phys => if phys = 0 then none else some phys
  | .free _ => none

/-- The page a call took back. -/
def returned : PageCall → Option ℕ
  | .alloc _ => none
  | .free phys => some phys

end PageCall

/-- The page source with a log of its calls, the latest first. -/
def PageSource.logged {σ : Type} (P : PageSource σ) : PageSource (σ × List PageCall) where
  mem s := P.mem s.1
  setMem s m := (P.setMem s.1 m, s.2)
  allocPages s n := (P.allocPages s.1 n).map fun r => (r.1, r.2, .alloc r.1 :: s.2)
  freePages s p n := (P.freePages s.1 p n, .free p :: s.2)

/-- **Every page that was handed out and is not in `frames` was taken back once**, and those in
`frames` were not. -/
def Balanced (log : List PageCall) (frames : List ℕ) : Prop :=
  (log.filterMap PageCall.taken).Perm
    (log.filterMap PageCall.returned ++ frames.map (· * pageSize))

namespace KmemCache

section Log

variable {σ : Type} {P : PageSource σ} {I : σ → Set ℕ → Prop}

/-- The log of a source that has handed out the frames `H`. -/
def LogInv (I : σ → Set ℕ → Prop) (s : σ × List PageCall) (H : Set ℕ) : Prop :=
  I s.1 H ∧ ∃ l : List ℕ, l.Nodup ∧ {q | q ∈ l} = H ∧ Balanced s.2 l

/-- **With a log it still hands out unused pages.** -/
theorem HandsOut.logged (hP : HandsOut P I) : HandsOut P.logged (LogInv I) where
  mem_setMem s m := hP.mem_setMem s.1 m
  lt := fun ⟨hs, _⟩ => hP.lt hs
  alloc := by
    rintro ⟨s, log⟩ H ⟨hs, l, hnd, hl, hbal⟩
    rcases hP.alloc hs with ⟨s', heq, hs', hagree⟩ | ⟨q, s', heq, hpos, hq, hs', hagree⟩
    · refine Or.inl ⟨(s', .alloc 0 :: log), ?_, ⟨hs', l, hnd, hl, hbal⟩, hagree⟩
      exact congrArg (Option.map _) heq
    · refine Or.inr ⟨q, (s', .alloc (q * pageSize) :: log), congrArg (Option.map _) heq, hpos, hq,
        ⟨hs', q :: l, ?_, ?_, ?_⟩, hagree⟩
      · exact List.nodup_cons.mpr ⟨fun hin => hq (hl ▸ hin), hnd⟩
      · rw [← hl]
        ext r
        simp
      · have htaken : PageCall.taken (.alloc (q * pageSize)) = some (q * pageSize) :=
          if_neg (Nat.mul_ne_zero hpos.ne' (by decide))
        rw [Balanced, List.filterMap_cons_some htaken, List.filterMap_cons_none rfl, List.map_cons]
        exact (hbal.cons _).trans List.perm_middle.symm
  free := by
    rintro ⟨s, log⟩ H q ⟨hs, l, hnd, hl, hbal⟩ hq
    obtain ⟨hs', hagree⟩ := hP.free hs hq
    have hql : q ∈ l := by rwa [← hl] at hq
    refine ⟨⟨hs', l.erase q, hnd.erase q, ?_, ?_⟩, hagree⟩
    · rw [← hl]
      ext r
      simp [hnd.mem_erase_iff, and_comm]
    · have hreturned : PageCall.returned (.free (q * pageSize)) = some (q * pageSize) := rfl
      have hperm := ((List.perm_cons_erase hql).map (· * pageSize)).append_left
        (log.filterMap PageCall.returned)
      change Balanced (.free (q * pageSize) :: log) _
      rw [Balanced, List.filterMap_cons_none rfl, List.filterMap_cons_some hreturned]
      exact (hbal.trans hperm).trans List.perm_middle
  write := fun ⟨hs, hl⟩ hm => ⟨hP.write hs hm, hl⟩

end Log

/-! ## Runs -/

/-- A cache, its page source and the objects that callers hold. -/
structure World (σ : Type) where
  cache : KmemCache
  source : σ
  live : List ℕ

variable {σ : Type} {P : PageSource σ} {I : σ → Set ℕ → Prop} {c c' : KmemCache} {S : Slabs}
  {m m' : Mem} {w w' : World σ} {s s₀ : σ} {addr k o q r x y : ℕ} {l : List ℕ}

/-- **One step**: a call that returned, or a write to objects that callers hold. -/
inductive Step (P : PageSource σ) (addr : ℕ) (w : World σ) : World σ → Prop
  | alloc {x : ℕ} {c : KmemCache} {s : σ} : KmemCache.alloc P addr w.cache w.source = some (x, c, s) →
      x ≠ 0 → Step P addr w ⟨c, s, x :: w.live⟩
  | allocNull {c : KmemCache} {s : σ} : KmemCache.alloc P addr w.cache w.source = some (0, c, s) →
      Step P addr w ⟨c, s, w.live⟩
  | free {x : ℕ} {c : KmemCache} {s : σ} : x ∈ w.live →
      KmemCache.free P addr w.cache w.source x = some (c, s) → Step P addr w ⟨c, s, w.live.erase x⟩
  | write {m : Mem} : (∀ y, (∀ x ∈ w.live, y < x ∨ x + w.cache.objSize ≤ y) →
      m y = P.mem w.source y) → Step P addr w ⟨w.cache, P.setMem w.source m, w.live⟩

/-- `w'` is reached from `w`. -/
abbrev Run (P : PageSource σ) (addr : ℕ) : World σ → World σ → Prop :=
  Relation.ReflTransGen (Step P addr)

/-- **The invariant of a run**: the slabs are the pages the source has handed out, and their live
objects are those that callers hold. -/
structure World.Inv (P : PageSource σ) (I : σ → Set ℕ → Prop) (addr : ℕ) (w : World σ)
    (S : Slabs) : Prop where
  source : I w.source S.frames
  cache : CacheInv (P.mem w.source) addr w.cache S
  live : S.objects.Perm w.live

/-! ## Objects of a cache -/

/-- Two slots of a cache do not overlap. -/
theorem apart_of_slots {objSize : ℕ} (hz : Fits objSize) (hx : x ∈ slots (slabAddr q) objSize)
    (hy : y ∈ slots (slabAddr r) objSize) (hne : x ≠ y) : x + objSize ≤ y ∨ y + objSize ≤ x := by
  by_cases hqr : q = r
  · subst hqr
    obtain ⟨a, -, rfl⟩ := mem_slots.mp hx
    obtain ⟨b, -, rfl⟩ := mem_slots.mp hy
    rcases Nat.lt_or_gt_of_ne (fun hab => hne (by rw [hab]) : a ≠ b) with hab | hab
    · exact Or.inl (slot_apart hab)
    · exact Or.inr (slot_apart hab)
  · obtain ⟨hx1, hx2⟩ := mem_slots_bounds hz hx
    obtain ⟨hy1, hy2⟩ := mem_slots_bounds hz hy
    have hapart := slabAddr_apart hqr
    omega

/-- A slot overlaps no header. -/
theorem apart_of_header {objSize : ℕ} (hz : Fits objSize) (hx : x ∈ slots (slabAddr q) objSize)
    (r : ℕ) : x + objSize ≤ slabAddr r ∨ slabAddr r + slabHeaderSize ≤ x := by
  obtain ⟨hlow, hhigh⟩ := mem_slots_bounds hz hx
  rw [slabHeaderSize]
  by_cases hqr : q = r
  · rw [← hqr]
    omega
  · have hapart := slabAddr_apart hqr
    omega

namespace CacheInv

/-- A live object is a slot of its slab, and not on the free list. -/
theorem object (h : CacheInv m addr c S) (hz : Fits c.objSize) (hx : x ∈ S.objects) :
    ∃ q ∈ S.part ++ S.full, x ∈ slots (slabAddr q) c.objSize ∧ x ∉ S.free q := by
  obtain ⟨q, hq, hxq⟩ := Slabs.mem_objects.mp hx
  have hslab := h.slab q hq
  refine ⟨q, hq, hslab.mem_live hxq, fun hfree => ?_⟩
  exact (List.nodup_append.mp (hslab.nodup hz)).2.2 x hfree x hxq rfl

/-- No object is at address 0. -/
theorem ne_zero (h : CacheInv m addr c S) (hz : Fits c.objSize) (hx : x ∈ S.objects) : x ≠ 0 := by
  obtain ⟨q, -, hxq, -⟩ := h.object hz hx
  have hlow := (mem_slots_bounds hz hxq).1
  omega

/-- The live objects are different. -/
theorem nodup_objects (h : CacheInv m addr c S) (hz : Fits c.objSize) : S.objects.Nodup := by
  refine List.nodup_flatMap.mpr ⟨fun q hq => ?_, ?_⟩
  · exact (List.nodup_append.mp ((h.slab q hq).nodup hz)).2.1
  · refine h.nodup.imp_of_mem fun {q r} hq hr hqr => ?_
    refine List.disjoint_left.mpr fun x hx hx' => ?_
    obtain ⟨h1, h2⟩ := mem_slots_bounds hz ((h.slab q hq).mem_live hx)
    obtain ⟨h3, h4⟩ := mem_slots_bounds hz ((h.slab r hr).mem_live hx')
    have hge := hz.ge
    have hapart := slabAddr_apart hqr
    omega

/-- Two live objects do not overlap. -/
theorem apart (h : CacheInv m addr c S) (hz : Fits c.objSize) (hx : x ∈ S.objects)
    (hy : y ∈ S.objects) (hne : x ≠ y) : x + c.objSize ≤ y ∨ y + c.objSize ≤ x := by
  obtain ⟨q, -, hxq, -⟩ := h.object hz hx
  obtain ⟨r, -, hyr, -⟩ := h.object hz hy
  exact apart_of_slots hz hxq hyr hne

/-- A free object is none of the live ones. -/
theorem notMem_objects (h : CacheInv m addr c S) (hz : Fits c.objSize) (hq : q ∈ S.part ++ S.full)
    (ho : o ∈ S.free q) : o ∉ S.objects := by
  intro hx
  have hslab := h.slab q hq
  obtain ⟨a, ha, hoa⟩ := Slabs.mem_objects.mp hx
  by_cases haq : a = q
  · subst haq
    exact (List.nodup_append.mp (hslab.nodup hz)).2.2 o ho o hoa rfl
  · obtain ⟨h1, h2⟩ := mem_slots_bounds hz (hslab.mem_free ho)
    obtain ⟨h3, h4⟩ := mem_slots_bounds hz ((h.slab a ha).mem_live hoa)
    have hge := hz.ge
    have hapart := slabAddr_apart haq
    omega

/-- **A write to live objects** leaves headers and free lists. -/
theorem write (h : CacheInv m addr c S) (hz : Fits c.objSize)
    (hm : ∀ y, (∀ x ∈ S.objects, y < x ∨ x + c.objSize ≤ y) → m' y = m y) :
    CacheInv m' addr c S := by
  have hheader : ∀ q y, slabAddr q ≤ y → y < slabAddr q + slabHeaderSize → m' y = m y :=
    fun q y hy hy' => hm y fun x hx => by
      obtain ⟨r, -, hxr, -⟩ := h.object hz hx
      have hapart := apart_of_header hz hxr q
      omega
  have hlinks : ∀ q k, k + 8 ≤ 48 → m'.load 8 (slabAddr q + k) = m.load 8 (slabAddr q + k) :=
    fun q k hk => Mem.load_congr fun i hi => hheader q _ (by omega) (by rw [slabHeaderSize]; omega)
  refine ⟨⟨fun q hq => ?_, h.nodup, h.lt, h.linked.congr (fun x hx => ?_) fun x hx => ?_⟩,
    h.part_free, h.full_free, h.used⟩
  · have hslab := h.slab q hq
    refine hslab.congr (fun y hy hy' => hheader q y hy (by rw [slabHeaderSize]; omega))
      fun o ho y hy hy' => hm y fun x hx => ?_
    obtain ⟨r, -, hxr, -⟩ := h.object hz hx
    have hge := hz.ge
    have hne : o ≠ x := by
      rintro rfl
      exact h.notMem_objects hz hq ho hx
    have hapart := apart_of_slots hz (hslab.mem_free ho) hxr hne
    omega
  · obtain ⟨q, -, rfl⟩ := List.mem_map.mp hx
    exact hlinks q 32 (by decide)
  · obtain ⟨q, -, rfl⟩ := List.mem_map.mp hx
    exact hlinks q 40 (by decide)

end CacheInv

/-! ## The invariant holds in every run -/

/-- The invariant at the start. -/
theorem inv_start (hs : I s₀ ∅) (c : KmemCache) (hc : c.partialList = 0) :
    World.Inv P I addr ⟨c, s₀, []⟩ Slabs.none := by
  have hnone : Slabs.none.frames = ∅ := by
    ext q
    simp [Slabs.none, Slabs.frames]
  refine ⟨hnone ▸ hs, ⟨⟨?_, List.nodup_nil, ?_, hc⟩, ?_, ?_, ?_⟩, .refl _⟩ <;>
    simp [Slabs.none]

/-- **A step keeps the invariant** and the object size. -/
theorem Step.inv (hP : HandsOut P I) (haddr : addr < 2 ^ 64) (hz : Fits w.cache.objSize)
    (h : w.Inv P I addr S) (hstep : Step P addr w w') :
    w'.cache.objSize = w.cache.objSize ∧ ∃ S', w'.Inv P I addr S' := by
  obtain ⟨hs, hcache, hlive⟩ := h
  cases hstep with
  | @alloc x c s heq hne =>
    rcases alloc_spec hP hs hcache hz haddr with ⟨s', heq', -⟩ |
      ⟨x', c', s', S', heq', hobj, hs', hcache', hobjects, -⟩
    · exact absurd (Prod.mk.inj (Option.some.inj (heq.symm.trans heq'))).1 hne
    · obtain ⟨rfl, rest⟩ := Prod.mk.inj (Option.some.inj (heq.symm.trans heq'))
      obtain ⟨rfl, rfl⟩ := Prod.mk.inj rest
      exact ⟨hobj, S', hs', hcache', hobjects.trans (hlive.cons _)⟩
  | @allocNull c s heq =>
    rcases alloc_spec hP hs hcache hz haddr with ⟨s', heq', hs', hagree, -⟩ |
      ⟨x', c', s', S', heq', hobj, hs', hcache', hobjects, -⟩
    · obtain ⟨-, rest⟩ := Prod.mk.inj (Option.some.inj (heq.symm.trans heq'))
      obtain ⟨rfl, rfl⟩ := Prod.mk.inj rest
      exact ⟨rfl, S, hs', hcache.congr hz hagree, hlive⟩
    · -- an object is not at address 0
      obtain ⟨h0, rest⟩ := Prod.mk.inj (Option.some.inj (heq.symm.trans heq'))
      obtain ⟨rfl, rfl⟩ := Prod.mk.inj rest
      have hx : x' ∈ S'.objects := hobjects.symm.subset List.mem_cons_self
      exact absurd h0.symm (hcache'.ne_zero (by rwa [hobj]) hx)
  | @free x c s hx heq =>
    obtain ⟨c', s', S', heq', hobj, hs', hcache', hobjects, -, -⟩ :=
      free_spec hP hs hcache hz (hlive.symm.subset hx)
    obtain ⟨rfl, rfl⟩ := Prod.mk.inj (Option.some.inj (heq.symm.trans heq'))
    exact ⟨hobj, S', hs', hcache', hobjects.trans (hlive.erase x)⟩
  | @write m hm =>
    have hm' : ∀ y, (∀ x ∈ S.objects, y < x ∨ x + w.cache.objSize ≤ y) →
        m y = P.mem w.source y := fun y hy => hm y fun x hx => hy x (hlive.symm.subset hx)
    refine ⟨rfl, S, hP.write hs fun y hy => hm' y fun x hx => ?_, ?_, hlive⟩
    · obtain ⟨q, hq, hxq, -⟩ := hcache.object hz hx
      obtain ⟨h1, h2⟩ := mem_slots_bounds hz hxq
      by_contra hin
      exact hy ⟨q, hq, by omega, by omega⟩
    · change CacheInv (P.mem (P.setMem w.source m)) addr w.cache S
      rw [hP.mem_setMem]
      exact hcache.write hz hm'

/-- **The invariant holds in every world a run reaches.** -/
theorem Run.inv (hP : HandsOut P I) (haddr : addr < 2 ^ 64) (hz : Fits w.cache.objSize)
    (h : w.Inv P I addr S) (hrun : Run P addr w w') :
    w'.cache.objSize = w.cache.objSize ∧ ∃ S', w'.Inv P I addr S' := by
  induction hrun with
  | refl => exact ⟨rfl, S, h⟩
  | tail _ hstep ih =>
    obtain ⟨hobj, S', h'⟩ := ih
    obtain ⟨hobj', S'', h''⟩ := hstep.inv hP haddr (by rwa [hobj]) h'
    exact ⟨hobj'.trans hobj, S'', h''⟩

/-! ## What every run leaves -/

/-- **What a run leaves**: `S` says which pages the cache has, which of their objects are free and
which are live. -/
structure World.Sound (P : PageSource σ) (addr : ℕ) (w : World (σ × List PageCall)) (S : Slabs) :
    Prop where
  /-- The lists and the headers in memory are those of `S`. -/
  cache : CacheInv (P.mem w.source.1) addr w.cache S
  /-- The live objects are those that callers hold. -/
  live : S.objects.Perm w.live
  /-- The pages are those that were taken and not returned. -/
  balanced : Balanced w.source.2 (S.part ++ S.full)
  /-- Live objects overlap neither each other nor a header. -/
  apart : w.live.Pairwise fun x y => x + w.cache.objSize ≤ y ∨ y + w.cache.objSize ≤ x
  header : ∀ x ∈ w.live, ∀ q ∈ S.part ++ S.full,
    x + w.cache.objSize ≤ slabAddr q ∨ slabAddr q + slabHeaderSize ≤ x
  /-- No page without a live object is kept. -/
  empty : w.live = [] → S.part ++ S.full = []
  /-- The next call returns. -/
  alloc : (KmemCache.alloc P.logged addr w.cache w.source).isSome
  free : ∀ x ∈ w.live, (KmemCache.free P.logged addr w.cache w.source x).isSome

/-- A balanced log does not depend on the order of the pages. -/
theorem Balanced.perm {log : List PageCall} {l l' : List ℕ} (h : Balanced log l) (hl : l.Perm l') :
    Balanced log l' :=
  List.Perm.trans h (List.Perm.append_left _ (hl.map _))

theorem World.Inv.sound {w : World (σ × List PageCall)} (hP : HandsOut P I) (haddr : addr < 2 ^ 64)
    (hz : Fits w.cache.objSize) (h : w.Inv P.logged (LogInv I) addr S) : w.Sound P addr S := by
  obtain ⟨hs, hcache, hlive⟩ := h
  obtain ⟨l, hnd, hl, hbal⟩ := hs.2
  have hmem : ∀ x ∈ w.live, x ∈ S.objects := fun x hx => hlive.symm.subset hx
  have hperm : l.Perm (S.part ++ S.full) :=
    (List.perm_ext_iff_of_nodup hnd hcache.nodup).mpr fun q => Set.ext_iff.mp hl q
  refine ⟨hcache, hlive, Balanced.perm hbal hperm, ?_, fun x hx q _ => ?_, fun hnil => ?_, ?_, fun x hx => ?_⟩
  · have hnodup : w.live.Nodup := hlive.nodup_iff.mp (hcache.nodup_objects hz)
    exact hnodup.imp_of_mem fun hx hy hne => hcache.apart hz (hmem _ hx) (hmem _ hy) hne
  · obtain ⟨r, -, hxr, -⟩ := hcache.object hz (hmem x hx)
    exact apart_of_header hz hxr q
  · refine List.eq_nil_iff_forall_not_mem.mpr fun q hq => ?_
    obtain ⟨x, hx⟩ := List.exists_mem_of_ne_nil _ (hcache.used q hq)
    have hin := hlive.subset (Slabs.mem_objects.mpr ⟨q, hq, hx⟩)
    rw [hnil] at hin
    exact List.not_mem_nil hin
  · rcases alloc_spec hP.logged hs hcache hz haddr with ⟨s', heq, -⟩ |
      ⟨x', c', s', S', heq, -⟩
    · rw [heq]
      rfl
    · rw [heq]
      rfl
  · obtain ⟨c', s', S', heq, -⟩ := free_spec hP.logged hs hcache hz (hmem x hx)
    rw [heq]
    rfl

/-- The invariant at the start, with an empty log. -/
theorem inv_logged (hs : I s₀ ∅) (hc : c.partialList = 0) :
    World.Inv P.logged (LogInv I) addr ⟨c, (s₀, []), []⟩ Slabs.none :=
  inv_start ⟨hs, [], List.nodup_nil, by simp, .refl _⟩ c hc

/-- **A cache is sound in every run** over a page source that hands out unused pages. -/
theorem Run.soundOverSource {w : World (σ × List PageCall)} (hP : HandsOut P I) (hs : I s₀ ∅)
    (haddr : addr < 2 ^ 64) (hc : c.partialList = 0) (hz : Fits c.objSize)
    (hrun : Run P.logged addr ⟨c, (s₀, []), []⟩ w) : ∃ S, w.Sound P addr S := by
  obtain ⟨hobj, S, h⟩ := hrun.inv hP.logged haddr hz (inv_logged hs hc)
  exact ⟨S, h.sound hP haddr (by rwa [hobj])⟩

/-! ## The caches of `kmalloc` -/

/-- An object size of a cache of `kmalloc`. -/
theorem fits_of_lt (hi : i < numKmallocCaches) : Fits (minKmemCacheSize * 2 ^ i) := by
  rw [numKmallocCaches] at hi
  interval_cases i <;> exact ⟨by decide, by decide, by decide⟩

theorem new_eq (hi : i < numKmallocCaches) :
    new (minKmemCacheSize * 2 ^ i) = ⟨minKmemCacheSize * 2 ^ i, 0⟩ := by
  rw [numKmallocCaches] at hi
  interval_cases i <;> rfl

theorem fits_new (hi : i < numKmallocCaches) : Fits (new (minKmemCacheSize * 2 ^ i)).objSize := by
  rw [new_eq hi]
  exact fits_of_lt hi

/-- **A cache as it is in memory**: the pages it holds, those on its partial list in order, and the
free list of each. -/
structure World.Correct (P : PageSource σ) (addr : ℕ) (w : World (σ × List PageCall))
    (pages part : List ℕ) (free : ℕ → List ℕ) : Prop where
  /-- It holds the pages it took and has not returned; every other one it returned once. -/
  balanced : Balanced w.source.2 pages
  nodup : pages.Nodup
  /-- No slab with `inuse` 0 is kept. -/
  inuse : ∀ q ∈ pages, inuse (P.mem w.source.1) (slabAddr q) ≠ 0
  /-- The partial list has exactly the slabs with a free object, once each. -/
  linked : Linked 0 (nextSlab (P.mem w.source.1)) (prevSlab (P.mem w.source.1)) 0 w.cache.partialList
    (part.map slabAddr)
  part_nodup : part.Nodup
  part_iff : ∀ q, q ∈ part ↔ q ∈ pages ∧ free q ≠ []
  /-- The free list of a slab ends, and has exactly the slots that no caller holds, once each. -/
  chain : ∀ q ∈ pages,
    Chain 0 (freePointer (P.mem w.source.1)) (freelist (P.mem w.source.1) (slabAddr q)) (free q)
  free_nodup : ∀ q ∈ pages, (free q).Nodup
  free_iff : ∀ q ∈ pages, ∀ x, x ∈ free q ↔ x ∈ slots (slabAddr q) w.cache.objSize ∧ x ∉ w.live
  count : ∀ q ∈ pages, SlabHeader.inuse (P.mem w.source.1) (slabAddr q) + (free q).length
    = maxObjs (P.mem w.source.1) (slabAddr q)
  /-- Live objects are slots of these pages, and overlap neither each other nor a header. -/
  slot : ∀ x ∈ w.live, ∃ q ∈ pages, x ∈ slots (slabAddr q) w.cache.objSize
  apart : w.live.Pairwise fun x y => x + w.cache.objSize ≤ y ∨ y + w.cache.objSize ≤ x
  header : ∀ x ∈ w.live, ∀ q ∈ pages,
    x + w.cache.objSize ≤ slabAddr q ∨ slabAddr q + slabHeaderSize ≤ x
  /-- Without a live object it holds no page. -/
  empty : w.live = [] → pages = []
  /-- The next call returns. -/
  alloc : (KmemCache.alloc P.logged addr w.cache w.source).isSome
  free : ∀ x ∈ w.live, (KmemCache.free P.logged addr w.cache w.source x).isSome

theorem World.Sound.toCorrect {w : World (σ × List PageCall)} (h : w.Sound P addr S)
    (hz : Fits w.cache.objSize) : w.Correct P addr (S.part ++ S.full) S.part S.free := by
  have hcache := h.cache
  refine ⟨h.balanced, hcache.nodup, fun q hq => ?_, hcache.linked,
    (List.nodup_append.mp hcache.nodup).1, fun q => ⟨fun hq => ?_, ?_⟩,
    fun q hq => (hcache.slab q hq).chain, fun q hq => ?_, fun q hq x => ⟨fun hx => ?_, ?_⟩,
    fun q hq => ?_, fun x hx => ?_, h.apart, h.header, h.empty, h.alloc, h.free⟩
  · rw [(hcache.slab q hq).inuse_eq]
    exact (List.length_pos_iff.mpr (hcache.used q hq)).ne'
  · exact ⟨List.mem_append_left _ hq, hcache.part_free q hq⟩
  · rintro ⟨hq, hfree⟩
    exact (List.mem_append.mp hq).resolve_right fun hq => hfree (hcache.full_free q hq)
  · exact (List.nodup_append.mp ((hcache.slab q hq).nodup hz)).1
  · exact ⟨(hcache.slab q hq).mem_free hx, fun hlive =>
      hcache.notMem_objects hz hq hx (h.live.symm.subset hlive)⟩
  · rintro ⟨hslot, hlive⟩
    refine (List.mem_append.mp ((hcache.slab q hq).perm.symm.subset hslot)).resolve_right fun hx =>
      hlive (h.live.subset (Slabs.mem_objects.mpr ⟨q, hq, hx⟩))
  · have hslab := hcache.slab q hq
    rw [hslab.inuse_eq, hslab.maxObjs_eq, ← hslab.length, Nat.add_comm]
  · obtain ⟨q, hq, hslot, -⟩ := hcache.object hz (h.live.symm.subset hx)
    exact ⟨q, hq, hslot⟩

/-- **A cache of `kmalloc` is correct in every run** over a page source that hands out unused pages. -/
theorem Run.correct {w : World (σ × List PageCall)} (hP : HandsOut P I) (hs : I s₀ ∅)
    (haddr : addr < 2 ^ 64) (hi : i < numKmallocCaches)
    (hrun : Run P.logged addr ⟨new (minKmemCacheSize * 2 ^ i), (s₀, []), []⟩ w) :
    ∃ pages part free, w.Correct P addr pages part free := by
  obtain ⟨hobj, S, h⟩ := hrun.inv hP.logged haddr (fits_new hi) (inv_logged hs (by rw [new_eq hi]))
  have hz : Fits w.cache.objSize := hobj ▸ fits_new hi
  exact ⟨_, _, _, (h.sound hP haddr hz).toCorrect hz⟩

/-! ## A cache over the PMM -/

/-- The PMM right after boot, as the page source of one cache: it has a page. -/
theorem boots_handsOut : ∃ (s₀ : PMM) (J : PMM → Set ℕ → Prop), Boots imageAt1M lowAndHigh s₀ ∧
    HandsOut PMM.pageSource J ∧ J s₀ ∅ ∧
    ∀ s', PMM.pageSource.allocPages s₀ 1 ≠ some (0, s') := by
  obtain ⟨s₀, hboot, hfree⟩ := lowAndHigh_boots
  obtain ⟨g, -, hinv, hcons, -, -⟩ := hboot.start lowAndHigh_wellFormed
  refine ⟨s₀, _, hboot, handsOut_pmm g s₀.freeFrames ∅ [] s₀.mem,
    ⟨⟨[], List.nodup_nil, by simp, hinv, hcons⟩, Mem.AgreeOn.refl _ _⟩, fun s' hnull => ?_⟩
  obtain ⟨i, -, s₁, heq, hne, -⟩ := hinv.exists_page ⟨1, hfree (by simp)⟩
  exact hne (Prod.mk.inj (Option.some.inj (heq.symm.trans hnull))).1

theorem fits_new64 : Fits (KmemCache.new 64).objSize := by
  have hobj : (KmemCache.new 64).objSize = 64 := by decide +kernel
  rw [hobj]
  exact ⟨by decide, by decide, by decide⟩

/-- **A caller takes an object, writes to it and frees it**, from a source that has a page. -/
theorem exists_run {w : World σ} (hP : HandsOut P I) (haddr : addr < 2 ^ 64) (hz : Fits w.cache.objSize)
    (h : w.Inv P I addr S) (hpage : ∀ s', P.allocPages w.source 1 ≠ some (0, s')) :
    ∃ w₁ w₂ x, Run P addr w w₁ ∧ w₁.live = x :: w.live ∧ Run P addr w₁ w₂ ∧ w₂.live = w.live := by
  rcases alloc_spec hP h.source h.cache hz haddr with ⟨s', -, -, -, hnull⟩ |
    ⟨x, c, s, S', heq, hobj, hs, hcache, hobjects, -⟩
  · exact absurd hnull (hpage s')
  have hx : x ∈ S'.objects := hobjects.symm.subset List.mem_cons_self
  have hz' : Fits c.objSize := by rwa [hobj]
  have hne : x ≠ 0 := hcache.ne_zero hz' hx
  have hlive : S'.objects.Perm (x :: w.live) := hobjects.trans (h.live.cons x)
  have hstep₁ : Step P addr w ⟨c, s, x :: w.live⟩ := .alloc heq hne
  have hstep₂ : Step P addr ⟨c, s, x :: w.live⟩ ⟨c, P.setMem s ((P.mem s).store 8 x 1), x :: w.live⟩ :=
    .write fun y hy => by
      have hout := hy x List.mem_cons_self
      have hge := hz'.ge
      dsimp only at hout
      exact (by omega : y < x ∨ x + 8 ≤ y).elim Mem.store_apply_of_lt Mem.store_apply_of_ge
  obtain ⟨-, S₂, h₂⟩ := hstep₂.inv hP haddr hz' ⟨hs, hcache, hlive⟩
  obtain ⟨c₃, s₃, -, heq₃, -⟩ :=
    free_spec hP h₂.source h₂.cache hz' (h₂.live.symm.subset List.mem_cons_self)
  have hstep₃ : Step P addr _ ⟨c₃, s₃, (x :: w.live).erase x⟩ := .free List.mem_cons_self heq₃
  rw [List.erase_cons_head] at hstep₃
  exact ⟨_, _, x, (Relation.ReflTransGen.single hstep₁).tail hstep₂, rfl, .single hstep₃, rfl⟩

/-- **A run of a cache over the PMM**: with an object, and when the object is back. -/
theorem overPmm_run (hz : Fits c.objSize) (hc : c.partialList = 0) :
    ∃ (s₀ : PMM) (J : PMM → Set ℕ → Prop) (x : ℕ) (w₁ w₂ : World (PMM × List PageCall)),
      Boots imageAt1M lowAndHigh s₀ ∧ HandsOut PMM.pageSource J ∧ J s₀ ∅ ∧
      Run PMM.pageSource.logged 0x1000 ⟨c, (s₀, []), []⟩ w₁ ∧ w₁.live = [x] ∧
      Run PMM.pageSource.logged 0x1000 ⟨c, (s₀, []), []⟩ w₂ ∧ w₂.live = [] := by
  obtain ⟨s₀, J, hboot, hP, hs, hpage⟩ := boots_handsOut
  obtain ⟨w₁, w₂, x, hrun₁, hlive₁, hrun₂, hlive₂⟩ :=
    exists_run hP.logged (show 0x1000 < 2 ^ 64 by decide) hz (inv_logged hs hc) fun s' hnull => by
      obtain ⟨⟨p, s⟩, heq, hzero⟩ := Option.map_eq_some_iff.mp hnull
      obtain rfl : p = 0 := (Prod.mk.inj hzero).1
      exact hpage s heq
  exact ⟨s₀, J, x, w₁, w₂, hboot, hP, hs, hrun₁, hlive₁, hrun₁.trans hrun₂, hlive₂⟩

/-- The cache of 64-byte objects over the PMM: with an object, and when the object is back. -/
theorem sound_overPmm : ∃ s₀ x, Boots imageAt1M lowAndHigh s₀ ∧ ∃ w₁ w₂ S₁ S₂,
    w₁.live = [x] ∧ World.Sound PMM.pageSource 0x1000 w₁ S₁ ∧
    w₂.live = [] ∧ World.Sound PMM.pageSource 0x1000 w₂ S₂ := by
  obtain ⟨s₀, J, x, w₁, w₂, hboot, hP, hs, hrun₁, hlive₁, hrun₂, hlive₂⟩ :=
    overPmm_run (c := new 64) fits_new64 rfl
  obtain ⟨S₁, hsound₁⟩ := Run.soundOverSource hP hs (by decide) rfl fits_new64 hrun₁
  obtain ⟨S₂, hsound₂⟩ := Run.soundOverSource hP hs (by decide) rfl fits_new64 hrun₂
  exact ⟨s₀, x, hboot, w₁, w₂, S₁, S₂, hlive₁, hsound₁, hlive₂, hsound₂⟩

/-- The cache of 2048-byte objects, whose slabs hold one object each. -/
theorem correct_overPmm : ∃ s₀ x, Boots imageAt1M lowAndHigh s₀ ∧ ∃ w₁ w₂ pages part free part' free',
    w₁.live = [x] ∧ World.Correct PMM.pageSource 0x1000 w₁ pages part free ∧
    w₂.live = [] ∧ World.Correct PMM.pageSource 0x1000 w₂ [] part' free' := by
  have h2048 : 7 < numKmallocCaches := by decide
  obtain ⟨s₀, J, x, w₁, w₂, hboot, hP, hs, hrun₁, hlive₁, hrun₂, hlive₂⟩ :=
    overPmm_run (fits_new h2048) rfl
  obtain ⟨pages, part, free, h₁⟩ := Run.correct hP hs (by decide) h2048 hrun₁
  obtain ⟨pages', part', free', h₂⟩ := Run.correct hP hs (by decide) h2048 hrun₂
  obtain rfl := h₂.empty hlive₂
  exact ⟨s₀, x, hboot, w₁, w₂, pages, part, free, part', free', hlive₁, h₁, hlive₂, h₂⟩

end KmemCache

end MioOS
