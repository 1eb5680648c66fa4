import MioOS.Slub.Locked
import MioOS.Slub.Runs

/-!
# Slub/Footprint — what `alloc` and `free` touch under the lock

While a core holds `cache_lock`, callers on other cores write to objects they hold, and `free` on
other cores reads `magic` and `cache` of the slabs of theirs.  `quiet` lemmas say that no access under
the lock meets the bytes `A` that others write, nor a store the bytes `K` that others read: loads and
stores are in headers, in free objects and in fresh pages.  `oneCall_alloc` and `oneCall_free` are the
two functions whole.
-/

namespace MioOS

open ByteMemory Intrusive SlabHeader Spinlock

namespace KmemCache

namespace Locked

variable {σ α β : Type} {P : PageSource σ} {I : σ → Set ℕ → Prop} {c c' : KmemCache} {S : Slabs}
  {s s' : σ} {m m' : Mem} {A K : Set ℕ} {B : ℕ → Bool} {b : Mem} {addr n a q r v x : ℕ} {L : List ℕ}

/-! ## What others do -/

/-- A write of others. -/
def write (P : PageSource σ) (B : ℕ → Bool) (b : Mem) (s : KmemCache × σ) : KmemCache × σ :=
  (s.1, P.setMem s.2 (Mem.patch B b (P.mem s.2)))

/-- The writes to bytes of `A`. -/
def writes (P : PageSource σ) (A : Set ℕ) : Set (KmemCache × σ → KmemCache × σ) :=
  {w | ∃ B b, (∀ x, B x = true → x ∈ A) ∧ w = write P B b}

/-- Reading bytes of `K`. -/
def reads (P : PageSource σ) (K : Set ℕ) : Set (KmemCache × σ → UInt8) :=
  {f | ∃ x ∈ K, f = fun s => P.mem s.2 x}

theorem writes_reads (hP : P.Lawful) (hAK : Disjoint A K) : Writes (writes P A) (reads P K) where
  id_mem := by
    refine ⟨fun _ => false, fun _ => 0, fun x hx => absurd hx Bool.false_ne_true, funext fun s => ?_⟩
    have hpatch : Mem.patch (fun _ => false) (fun _ => 0) (P.mem s.2) = P.mem s.2 :=
      funext fun x => Mem.patch_of_not rfl
    rw [write, hpatch, hP.setMem_mem]
    rfl
  comp_mem := by
    rintro _ ⟨B, b, hB, rfl⟩ _ ⟨B', b', hB', rfl⟩
    refine ⟨fun x => B x || B' x, Mem.patch B b b', fun x hx => ?_, funext fun s => ?_⟩
    · rcases Bool.or_eq_true_iff.mp hx with hx | hx
      · exact hB x hx
      · exact hB' x hx
    · rw [Function.comp_apply, write, write, hP.mem_setMem, hP.setMem_setMem, Mem.patch_patch]
      rfl
  obs := by
    rintro _ ⟨B, b, hB, rfl⟩ _ ⟨x, hx, rfl⟩ s
    simp only [write, hP.mem_setMem]
    refine Mem.patch_of_not (Bool.eq_false_iff.mpr fun hBx => ?_)
    exact Set.disjoint_left.mp hAK (hB x hBx) hx

/-! ## Accesses that others do not meet -/

section Actions

variable {k' : Unit → Prog (KmemCache × σ) β} {j k : ℕ → Prog (KmemCache × σ) β} {f : Mem → ℕ}
  {g : Mem → Mem}

theorem quiet_load (hP : P.Lawful) (hf : ∀ m, f m = m.load n a) (h : Mem.Off A a n)
    (hk : Quiet (writes P A) (reads P K) (k (f m)) (c, P.setMem s m)) :
    Quiet (writes P A) (reads P K) (load P f >>= k) (c, P.setMem s m) := by
  refine ⟨⟨fun _ _ => rfl, ?_, fun _ _ => rfl⟩, ?_⟩
  · rintro _ ⟨B, b, hB, rfl⟩
    change k (f (P.mem (P.setMem _ _))) = k _
    rw [hP.mem_setMem, hf, h.load_patch hB, ← hf]
  · change Quiet _ _ (k (f (P.mem (P.setMem s m)))) (c, P.setMem s m)
    rwa [hP.mem_setMem]

theorem quiet_store (hP : P.Lawful) (hg : ∀ m, g m = m.store n a v) (hA : Mem.Off A a n)
    (hK : Mem.Off K a n) : Quiet (writes P A) (reads P K) (store P g) (c, s) := by
  refine ⟨⟨?_, fun _ _ => rfl, ?_⟩, trivial⟩
  · rintro _ ⟨B, b, hB, rfl⟩
    simp only [write, hP.mem_setMem, hP.setMem_setMem, hg, hA.store_patch hB]
  · rintro _ ⟨x, hx, rfl⟩
    simp only [hP.mem_setMem, hg, hK.store_apply hx]

theorem quiet_store_bind (hP : P.Lawful) (hg : ∀ m, g m = m.store n a v) (hA : Mem.Off A a n)
    (hK : Mem.Off K a n) (hk : Quiet (writes P A) (reads P K) (k' ()) (c, P.setMem s (g m))) :
    Quiet (writes P A) (reads P K) (store P g >>= k') (c, P.setMem s m) :=
  (quiet_store hP hg hA hK).seq (run_store hP g) hk

theorem quiet_getObjSize (hk : Quiet (writes P A) (reads P K) (j c.objSize) (c, s)) :
    Quiet (writes P A) (reads P K) (getObjSize >>= j) (c, s) := by
  refine ⟨⟨fun _ _ => rfl, ?_, fun _ _ => rfl⟩, hk⟩
  rintro _ ⟨B, b, -, rfl⟩
  rfl

theorem quiet_getPartialList (hk : Quiet (writes P A) (reads P K) (j c.partialList) (c, s)) :
    Quiet (writes P A) (reads P K) (getPartialList >>= j) (c, s) := by
  refine ⟨⟨fun _ _ => rfl, ?_, fun _ _ => rfl⟩, hk⟩
  rintro _ ⟨B, b, -, rfl⟩
  rfl

theorem quiet_setPartialList : Quiet (writes P A) (reads P K) (setPartialList v) (c, s) := by
  refine ⟨⟨?_, fun _ _ => rfl, ?_⟩, trivial⟩
  · rintro _ ⟨B, b, -, rfl⟩
    rfl
  · rintro _ ⟨x, -, rfl⟩
    rfl

theorem quiet_setPartialList_bind
    (hk : Quiet (writes P A) (reads P K) (k' ()) ({ c with partialList := v }, s)) :
    Quiet (writes P A) (reads P K) (setPartialList v >>= k') (c, s) :=
  Quiet.seq quiet_setPartialList (run_setPartialList v) hk

end Actions

/-! ## The partial list -/

/-- Of headers, others meet `magic` and `cache` only, and read them. -/
structure Guarded (A K : Set ℕ) : Prop where
  header : ∀ q, Mem.Off A (slabAddr q) 48
  fields : ∀ q, Mem.Off K (slabAddr q + 16) 32

/-- A link: null or a slab. -/
def Link (v : ℕ) : Prop := v = 0 ∨ ∃ r, v = slabAddr r

theorem Guarded.load {o : ℕ} (h : Guarded A K) (ho : o + n ≤ 48) : Mem.Off A (slabAddr q + o) n :=
  (h.header q).mono (Nat.le_add_right _ _) (by omega)

theorem Guarded.store {o : ℕ} (h : Guarded A K) (hlow : 16 ≤ o) (ho : o + n ≤ 48) :
    Mem.Off K (slabAddr q + o) n :=
  (h.fields q).mono (by omega) (by omega)

section Fields

variable {k' : Unit → Prog (KmemCache × σ) β} {k : ℕ → Prog (KmemCache × σ) β} {f : Mem → ℕ}
  {g : Mem → Mem} {o : ℕ}

theorem Guarded.quiet_load (hg : Guarded A K) (hP : P.Lawful)
    (hf : ∀ m, f m = m.load n (slabAddr q + o)) (ho : o + n ≤ 48)
    (hk : Quiet (writes P A) (reads P K) (k (f m)) (c, P.setMem s m)) :
    Quiet (writes P A) (reads P K) (Locked.load P f >>= k) (c, P.setMem s m) :=
  Locked.quiet_load hP hf (hg.load ho) hk

theorem Guarded.quiet_store (hg : Guarded A K) (hP : P.Lawful)
    (hf : ∀ m, g m = m.store n (slabAddr q + o) v) (hlow : 16 ≤ o) (ho : o + n ≤ 48) :
    Quiet (writes P A) (reads P K) (Locked.store P g) (c, s) :=
  Locked.quiet_store hP hf (hg.load ho) (hg.store hlow ho)

theorem Guarded.quiet_store_bind (hg : Guarded A K) (hP : P.Lawful)
    (hf : ∀ m, g m = m.store n (slabAddr q + o) v) (hlow : 16 ≤ o) (ho : o + n ≤ 48)
    (hk : Quiet (writes P A) (reads P K) (k' ()) (c, P.setMem s (g m))) :
    Quiet (writes P A) (reads P K) (Locked.store P g >>= k') (c, P.setMem s m) :=
  Locked.quiet_store_bind hP hf (hg.load ho) (hg.store hlow ho) hk

end Fields

theorem quiet_setPrevOf (hP : P.Lawful) (hg : Guarded A K) {slab : ℕ} (hslab : Link slab) :
    Quiet (writes P A) (reads P K) (setPrevOf P slab v) (c, P.setMem s m) := by
  rw [setPrevOf]
  split
  · rename_i hne
    obtain ⟨r, rfl⟩ := hslab.resolve_left hne
    exact hg.quiet_store hP (fun _ => rfl) (by decide) (by decide)
  · trivial

theorem quiet_pushPartial (hP : P.Lawful) (hg : Guarded A K) (hc : Link c.partialList) :
    Quiet (writes P A) (reads P K) (pushPartial P (slabAddr q)) (c, P.setMem s m) := by
  refine quiet_getPartialList ?_
  refine hg.quiet_store_bind hP (fun _ => rfl) (by decide) (by decide) ?_
  refine hg.quiet_store_bind hP (fun _ => rfl) (by decide) (by decide) ?_
  exact (quiet_setPrevOf hP hg hc).seq (run_setPrevOf hP _ _) quiet_setPartialList

theorem quiet_dropHead (hP : P.Lawful) (hg : Guarded A K) (hnext : Link (nextSlab m (slabAddr q))) :
    Quiet (writes P A) (reads P K) (dropHead P (slabAddr q)) (c, P.setMem s m) := by
  refine hg.quiet_load hP (fun _ => rfl) (by decide) ?_
  -- the link is not to be evaluated
  generalize nextSlab m (slabAddr q) = next at hnext ⊢
  refine quiet_setPartialList_bind ?_
  refine (quiet_setPrevOf hP hg hnext).seq (run_setPrevOf hP _ _) ?_
  refine hg.quiet_store_bind hP (fun _ => rfl) (by decide) (by decide) ?_
  exact hg.quiet_store hP (fun _ => rfl) (by decide) (by decide)

theorem quiet_popObject (hP : P.Lawful) (hg : Guarded A K)
    (hobject : Mem.Off A (freelist m (slabAddr q)) 8) (hnext : Link (nextSlab m (slabAddr q))) :
    Quiet (writes P A) (reads P K) (popObject P (slabAddr q)) (c, P.setMem s m) := by
  have hkeep : nextSlab (takeObject m (slabAddr q)) (slabAddr q) = nextSlab m (slabAddr q) :=
    Mem.load_congr fun i hi => takeObject_apply (by omega)
  refine hg.quiet_load hP (fun _ => rfl) (by decide) ?_
  refine quiet_load hP (fun _ => rfl) hobject ?_
  refine hg.quiet_store_bind hP (fun _ => rfl) (by decide) (by decide) ?_
  refine hg.quiet_load hP (fun _ => rfl) (by decide) ?_
  refine hg.quiet_store_bind hP (fun _ => rfl) (by decide) (by decide) ?_
  change Quiet _ _ (load P (freelist · (slabAddr q)) >>= _)
    (c, P.setMem s (takeObject m (slabAddr q)))
  generalize takeObject m (slabAddr q) = m₁ at hkeep ⊢
  refine hg.quiet_load hP (fun _ => rfl) (by decide) ?_
  generalize freelist m₁ (slabAddr q) = free
  refine Quiet.ite (fun _ => ?_) fun _ => trivial
  exact (quiet_dropHead hP hg (hkeep ▸ hnext)).seq (run_dropHead hP _) trivial

/-! ## A fresh page -/

/-- The loop stores in the page. -/
theorem quiet_chainObjects (hP : P.Lawful) {page f z i fuel : ℕ} (hA : Mem.Off A page 4096)
    (hK : Mem.Off K page 4096) (h8 : 8 ≤ z) (hheader : page + 48 ≤ f)
    (hend : f + n * z ≤ page + 4096) (hlt : page + 4096 ≤ 2 ^ 64) (hn : maxObjs m page = n)
    (hi : i < n) (hfuel : n - i ≤ fuel) (hn32 : n < 2 ^ 32) :
    Quiet (writes P A) (reads P K) (chainObjects P page z fuel i (f + i * z))
      (c, P.setMem s m) := by
  induction fuel generalizing i m with
  | zero => omega
  | succ fuel ih =>
    have hbound : sub32 n 1 = n - 1 := by
      rw [sub32_eq]
      omega
    refine quiet_load hP (fun _ => rfl) (hA.mono (Nat.le_add_right _ _) (by omega)) ?_
    rw [hn, hbound]
    refine Quiet.ite (fun hlast => ?_) fun _ => trivial
    have hmul : (i + 1) * z = i * z + z := Nat.succ_mul i z
    have hle : (i + 1) * z + z ≤ n * z := by
      rw [← Nat.succ_mul]
      exact Nat.mul_le_mul_right z (by omega)
    have hnext : u64 (f + i * z + z) = f + (i + 1) * z := by
      rw [hmul, ← Nat.add_assoc]
      exact u64_of_lt (by omega)
    rw [hnext]
    refine quiet_store_bind hP (fun _ => rfl) (hA.mono (by omega) (by omega))
      (hK.mono (by omega) (by omega)) (ih ?_ (by omega) (by omega))
    rw [← hn, maxObjs, maxObjs, setFreePointer]
    exact Mem.load_store_of_disjoint (by omega)

/-- **`format_new_slab` stores in its page.** -/
theorem quiet_formatNewSlab (hP : P.Lawful) (hz : Fits c.objSize) (hq : q < 2 ^ 35)
    (haddr : addr < 2 ^ 64) (hA : Mem.Off A (slabAddr q) 4096) (hK : Mem.Off K (slabAddr q) 4096) :
    Quiet (writes P A) (reads P K) (formatNewSlab P addr (slabAddr q) (slabAddr q))
      (c, P.setMem s m) := by
  obtain ⟨hlow, hhigh, -⟩ := firstOffset_bounds hz.dvd hz.ge
  have hlt := slabAddr_lt hq
  have hpos := (slotCount_pos_iff hz.dvd hz.ge).mpr hz.le
  have hfits := @slotCount_mul_le c.objSize
  have hcount := slotCount_le hz
  have hfirst := alignUp_first hz.dvd hz.ge (pageSize_dvd_slabAddr q) hlt
  have hoffset : sub64 (slabAddr q + firstOffset c.objSize) (slabAddr q) = firstOffset c.objSize := by
    rw [sub64_of_le (by omega) (Nat.le_add_right _ _), Nat.add_sub_cancel_left]
  have havail : sub64 pageSize (firstOffset c.objSize) = pageSize - firstOffset c.objSize := by
    rw [pageSize]
    exact sub64_of_le (by omega) (by omega)
  have hge := hz.ge
  have hstore : ∀ {k : Unit → Prog (KmemCache × σ) Unit} {g : Mem → Mem} {n a v : ℕ} {m : Mem},
      (∀ m, g m = m.store n a v) → slabAddr q ≤ a → a + n ≤ slabAddr q + 4096 →
      Quiet (writes P A) (reads P K) (k ()) (c, P.setMem s (g m)) →
      Quiet (writes P A) (reads P K) (store P g >>= k) (c, P.setMem s m) :=
    fun hg h1 h2 hk => quiet_store_bind hP hg (hA.mono h1 h2) (hK.mono h1 h2) hk
  rw [pageSize] at hfits
  rw [slabHeaderSize] at hlow
  rw [formatNewSlab]
  refine hstore (fun _ => rfl) le_rfl (by omega) ?_
  refine hstore (fun _ => rfl) (by omega) (by omega) ?_
  refine hstore (fun _ => rfl) (by omega) (by omega) ?_
  refine hstore (fun _ => rfl) (by omega) (by omega) ?_
  refine hstore (fun _ => rfl) (by omega) (by omega) ?_
  refine quiet_getObjSize ?_
  dsimp only
  rw [hfirst, hoffset, havail, if_neg (show ¬ c.objSize = 0 by omega)]
  refine hstore (fun _ => rfl) (by omega) (by omega) ?_
  refine hstore (fun _ => rfl) (by omega) (by omega) ?_
  change Quiet _ _ (chainObjects P (slabAddr q) c.objSize (2 ^ 32) 0
      (slabAddr q + firstOffset c.objSize) >>= _)
    (c, P.setMem s (writeHeader addr (slabAddr q) (slabAddr q + firstOffset c.objSize)
      (slotCount c.objSize) m))
  obtain ⟨-, -, -, -, hmax, -⟩ :=
    @writeHeader_fields _ (slabAddr q) (slabAddr q + firstOffset c.objSize) (slotCount c.objSize)
      haddr (by omega) m
  rw [Nat.mod_eq_of_lt (by omega)] at hmax
  generalize writeHeader addr (slabAddr q) _ _ m = w at hmax ⊢
  obtain ⟨m₁, heq, -⟩ := @chainObjects_spec _ _ (slabAddr q + firstOffset c.objSize) 0 _ c.objSize
    (2 ^ 32) hz.ge (by rw [slabHeaderSize]; omega) (by omega) hmax hpos (by omega) (by omega)
  have hloop := quiet_chainObjects (c := c) (s := s) hP hA hK hz.ge
    (show slabAddr q + 48 ≤ slabAddr q + firstOffset c.objSize by omega) (by omega) hlt hmax hpos
    (show slotCount c.objSize - 0 ≤ 2 ^ 32 by omega) (by omega)
  have hrun := run_chainObjects (c := c) (s := s) hP (slabAddr q) c.objSize (2 ^ 32) 0
    (slabAddr q + firstOffset c.objSize) w
  rw [Nat.zero_mul, Nat.add_zero] at heq hloop
  rw [heq, Option.map_some] at hrun
  have hlast : (slotCount c.objSize - 1) * c.objSize + c.objSize
      = slotCount c.objSize * c.objSize := by
    rw [← Nat.succ_mul, Nat.succ_eq_add_one, Nat.sub_add_cancel hpos]
  exact hloop.seq hrun (quiet_store hP (fun _ => rfl) (hA.mono (by omega) (by omega))
    (hK.mono (by omega) (by omega)))

/-! ## The bytes of live objects -/

/-- The bytes of objects, which their callers may write. -/
def liveBytes (objSize : ℕ) (L : List ℕ) : Set ℕ := {y | ∃ o ∈ L, o ≤ y ∧ y < o + objSize}

/-- `magic` and `cache` of the slabs of objects, which `free` reads without the lock. -/
def headBytes (L : List ℕ) : Set ℕ :=
  {y | ∃ o ∈ L, alignDown o pageSize ≤ y ∧ y < alignDown o pageSize + 16}

section Live

variable (h : CacheInv m addr c S) (hz : Fits c.objSize) (hL : ∀ o ∈ L, o ∈ S.objects)

include h hz hL

/-- Live objects are in their slabs, behind the header. -/
theorem live_bounds {o : ℕ} (ho : o ∈ L) : ∃ r ∈ S.part ++ S.full,
    o ∈ slots (slabAddr r) c.objSize ∧ alignDown o pageSize = slabAddr r ∧ slabAddr r + 48 ≤ o ∧
      o + c.objSize ≤ slabAddr r + 4096 := by
  obtain ⟨r, hr, hor, -⟩ := h.object hz (hL o ho)
  exact ⟨r, hr, hor, alignDown_object hz (h.lt r hr) hor, mem_slots_bounds hz hor⟩

theorem guarded : Guarded (liveBytes c.objSize L) (headBytes L) where
  header q := by
    rintro y ⟨o, ho, hy, hy'⟩
    obtain ⟨r, -, hor, -⟩ := live_bounds h hz hL ho
    have hapart := apart_of_header hz hor q
    rw [slabHeaderSize] at hapart
    omega
  fields q := by
    rintro y ⟨o, ho, hy, hy'⟩
    obtain ⟨r, -, -, hdown, -⟩ := live_bounds h hz hL ho
    rw [hdown] at hy hy'
    by_cases hrq : r = q
    · subst hrq
      omega
    · have hapart := slabAddr_apart hrq
      omega

theorem disjoint_live : Disjoint (liveBytes c.objSize L) (headBytes L) := by
  rw [Set.disjoint_left]
  rintro y hy ⟨o, ho, hlow, hhigh⟩
  obtain ⟨r, -, -, hdown, -⟩ := live_bounds h hz hL ho
  rw [hdown] at hlow hhigh
  have hout := (guarded h hz hL).header r y hy
  omega

/-- Other pages have nothing of them. -/
theorem off_page (hq : q ∉ S.frames) :
    Mem.Off (liveBytes c.objSize L) (slabAddr q) 4096 ∧ Mem.Off (headBytes L) (slabAddr q) 4096 := by
  refine ⟨?_, ?_⟩
  · rintro y ⟨o, ho, hy, hy'⟩
    obtain ⟨r, hr, -, -, hlow, hhigh⟩ := live_bounds h hz hL ho
    have hapart := slabAddr_apart (show r ≠ q from fun heq => hq (heq ▸ hr))
    omega
  · rintro y ⟨o, ho, hy, hy'⟩
    obtain ⟨r, hr, -, hdown, -⟩ := live_bounds h hz hL ho
    rw [hdown] at hy hy'
    have hapart := slabAddr_apart (show r ≠ q from fun heq => hq (heq ▸ hr))
    omega

/-- An object that is none of them has nothing of them. -/
theorem off_object (hx : x ∈ slots (slabAddr q) c.objSize) (hxL : x ∉ L) :
    Mem.Off (liveBytes c.objSize L) x 8 ∧ Mem.Off (headBytes L) x 8 := by
  have hge := hz.ge
  refine ⟨?_, ?_⟩
  · rintro y ⟨o, ho, hy, hy'⟩
    obtain ⟨r, -, hor, -⟩ := live_bounds h hz hL ho
    have hapart := apart_of_slots hz hor hx (fun heq => hxL (heq ▸ ho))
    omega
  · rintro y ⟨o, ho, hy, hy'⟩
    obtain ⟨r, -, -, hdown, -⟩ := live_bounds h hz hL ho
    rw [hdown] at hy hy'
    have hapart := apart_of_header hz hx r
    rw [slabHeaderSize] at hapart
    omega

/-- They are in the pages of the cache. -/
theorem liveBytes_subset : liveBytes c.objSize L ⊆ frameBytes S.frames := by
  rintro y ⟨o, ho, hy, hy'⟩
  obtain ⟨r, hr, -, -, hlow, hhigh⟩ := live_bounds h hz hL ho
  exact ⟨r, hr, by omega, by omega⟩

theorem headBytes_subset : headBytes L ⊆ frameBytes S.frames := by
  rintro y ⟨o, ho, hy, hy'⟩
  obtain ⟨r, hr, -, hdown, -⟩ := live_bounds h hz hL ho
  rw [hdown] at hy hy'
  exact ⟨r, hr, hy, by omega⟩

/-- A write to them keeps the invariants. -/
theorem patch_inv (hH : HandsOut P I) (hs : I s S.frames) (hm : P.mem s = m)
    (hB : ∀ x, B x = true → x ∈ liveBytes c.objSize L) :
    I (P.setMem s (Mem.patch B b m)) S.frames ∧ CacheInv (Mem.patch B b m) addr c S := by
  subst hm
  refine ⟨hH.write hs fun y hy => ?_, h.write hz fun y hy => ?_⟩
  · refine Mem.patch_of_not (Bool.eq_false_iff.mpr fun hBy => ?_)
    exact hy (liveBytes_subset h hz hL (hB y hBy))
  · refine Mem.patch_of_not (Bool.eq_false_iff.mpr fun hBy => ?_)
    obtain ⟨o, ho, hlow, hhigh⟩ := hB y hBy
    have hout := hy o (hL o ho)
    omega

end Live

/-! ## `alloc` -/

/-- A link of the partial list leads to a slab of it. -/
theorem next_link (h : CacheCore m addr c S) (hq : q ∈ S.part) : Link (nextSlab m (slabAddr q)) := by
  refine (h.linked.next_mem _ (List.mem_map_of_mem hq)).imp_right fun hin => ?_
  obtain ⟨r, -, heq⟩ := List.mem_map.mp hin
  exact ⟨r, heq.symm⟩

theorem prev_link (h : CacheCore m addr c S) (hq : q ∈ S.part) : Link (prevSlab m (slabAddr q)) := by
  refine (h.linked.prev_mem _ (List.mem_map_of_mem hq)).imp_right fun hin => ?_
  obtain ⟨r, -, heq⟩ := List.mem_map.mp hin
  exact ⟨r, heq.symm⟩

theorem head_link (h : CacheCore m addr c S) : Link c.partialList := by
  rcases h.head with ⟨hnull, -⟩ | ⟨q, -, -, hhead⟩
  · exact Or.inl hnull
  · exact Or.inr ⟨q, hhead⟩

/-- The head of a free list. -/
theorem freelist_head (h : CacheCore m addr c S) (hq : q ∈ S.part ++ S.full)
    (hfree : S.free q ≠ []) : ∃ x ∈ S.free q, freelist m (slabAddr q) = x := by
  obtain ⟨x, rest, hx⟩ := List.exists_cons_of_ne_nil hfree
  have hchain := (h.slab q hq).chain
  rw [hx] at hchain
  exact ⟨x, by simp [hx], hchain.1⟩

theorem free_not_live (h : CacheInv m addr c S) (hz : Fits c.objSize) (hq : q ∈ S.part ++ S.full)
    (hx : x ∈ S.free q) : x ∉ S.objects := fun hin => by
  obtain ⟨r, -, hxr, hnot⟩ := h.object hz hin
  obtain ⟨h1, h2⟩ := mem_slots_bounds hz hxr
  obtain ⟨h3, h4⟩ := mem_slots_bounds hz ((h.slab q hq).mem_free hx)
  have hge := hz.ge
  by_cases hrq : r = q
  · exact hnot (hrq ▸ hx)
  · have hapart := slabAddr_apart hrq
    omega

/-- **A fresh page** is formatted, linked and served from without meeting others. -/
theorem quiet_allocFresh (hP : P.Lawful) (hg : Guarded A K) (h : CacheCore (P.mem s) addr c S)
    (hz : Fits c.objSize) (haddr : addr < 2 ^ 64) (hq : q ∉ S.frames) (hlt : q < 2 ^ 35)
    (hnull : c.partialList = 0) (hA : Mem.Off A (slabAddr q) 4096)
    (hK : Mem.Off K (slabAddr q) 4096) :
    Quiet (writes P A) (reads P K) (allocFresh P addr (slabAddr q)) (c, s) := by
  obtain ⟨m₁, c₂, m₂, hformat, hpush, hobj₂, hcore₂, -⟩ := h.new hz haddr hq hlt
  have hrun : (formatNewSlab P addr (slabAddr q) (slabAddr q)).run (c, P.setMem s (P.mem s))
      = some ((), c, P.setMem s m₁) := by
    rw [run_formatNewSlab hP, hformat, Option.map_some]
  have hrun₂ : (pushPartial P (slabAddr q)).run (c, P.setMem s m₁)
      = some ((), c₂, P.setMem s m₂) := by
    rw [run_pushPartial hP, hpush]
  have hquiet := quiet_formatNewSlab (c := c) (s := s) (m := P.mem s) hP hz hlt haddr hA hK
  rw [hP.setMem_mem] at hrun hquiet
  have hin : q ∈ (withNew S q (slots (slabAddr q) c.objSize)).part := List.mem_cons_self
  have hfree : (withNew S q (slots (slabAddr q) c.objSize)).free q = slots (slabAddr q) c.objSize :=
    Slabs.set_free_self
  obtain ⟨x, hx, hhead⟩ := freelist_head hcore₂ (List.mem_append_left _ hin)
    (by rw [hfree]; exact slots_ne_nil hz)
  rw [hfree] at hx
  obtain ⟨hlow, hhigh⟩ := mem_slots_bounds hz hx
  have hge := hz.ge
  refine hquiet.seq hrun ?_
  refine (quiet_pushPartial hP hg (Or.inl hnull)).seq hrun₂ ?_
  refine quiet_popObject hP hg ?_ (next_link hcore₂ hin)
  rw [hhead]
  exact hA.mono (by omega) (by omega)

theorem oneCall_allocPages {j : ℕ → Prog (KmemCache × σ) β}
    (h : ∀ B b, (∀ x, B x = true → x ∈ A) →
      ∃ p s', P.allocPages (P.setMem s (Mem.patch B b (P.mem s))) 1 = some (p, s') ∧
        (∀ x ∈ K, P.mem s' x = P.mem s x) ∧ Quiet (writes P A) (reads P K) (j p) (c, s')) :
    OneCall (writes P A) (reads P K) (allocPages P >>= j) (c, s) := by
  rintro _ ⟨B, b, hB, rfl⟩
  obtain ⟨p, s', heq, hobs, hquiet⟩ := h B b hB
  simp only [write, heq, Option.elim_some]
  refine ⟨?_, hquiet⟩
  rintro _ ⟨x, hx, rfl⟩
  exact hobs x hx

/-- **`alloc` under the lock** meets no byte that others write. -/
theorem oneCall_alloc (hP : P.Lawful) (hH : HandsOut P I) (hs : I s S.frames)
    (h : CacheInv (P.mem s) addr c S) (hz : Fits c.objSize) (haddr : addr < 2 ^ 64)
    (hL : ∀ o ∈ L, o ∈ S.objects) :
    OneCall (writes P (liveBytes c.objSize L)) (reads P (headBytes L)) (alloc P addr) (c, s) := by
  have hg := guarded h hz hL
  have hstart : Quiet (writes P (liveBytes c.objSize L)) (reads P (headBytes L))
      (getPartialList (σ := σ)) (c, s) := quiet_getPartialList (j := .ret) trivial
  refine hstart.seq_oneCall rfl ?_
  by_cases hnull : c.partialList = 0
  · rw [if_pos hnull]
    refine oneCall_allocPages fun B b hB => ?_
    obtain ⟨hs₁, h₁⟩ := patch_inv h hz hL (b := b) hH hs rfl hB
    have hobs : ∀ s', Mem.AgreeOn (frameBytes S.frames)
        (P.mem (P.setMem s (Mem.patch B b (P.mem s)))) (P.mem s') →
        ∀ x ∈ headBytes L, P.mem s' x = P.mem s x := fun s' hagree x hx => by
      rw [hagree x (headBytes_subset h hz hL hx), hP.mem_setMem]
      refine Mem.patch_of_not (Bool.eq_false_iff.mpr fun hBx => ?_)
      exact Set.disjoint_left.mp (disjoint_live h hz hL) (hB x hBx) hx
    rcases hH.alloc hs₁ with ⟨s₂, heq, -, hagree⟩ | ⟨q, s₂, heq, hpos, hq, hs₂, hagree⟩
    · exact ⟨0, s₂, heq, hobs s₂ hagree, trivial⟩
    · have hlt := hH.lt hs₂ q (Set.mem_insert q _)
      have hne : ¬ q * pageSize = 0 := Nat.mul_ne_zero hpos.ne' (by decide)
      obtain ⟨hA, hK⟩ := off_page h hz hL hq
      refine ⟨q * pageSize, s₂, heq, hobs s₂ hagree, ?_⟩
      rw [if_neg hne, virtAddr_eq hlt]
      rw [hP.mem_setMem] at hagree
      exact quiet_allocFresh hP hg (h₁.toCacheCore.congr hz hagree) hz haddr hq hlt hnull hA hK
  · rw [if_neg hnull]
    rcases h.head with ⟨h0, -⟩ | ⟨q, part, hpart, hhead⟩
    · exact absurd h0 hnull
    have hin : q ∈ S.part := by simp [hpart]
    have hq : q ∈ S.part ++ S.full := List.mem_append_left _ hin
    obtain ⟨x, hx, hfirst⟩ := freelist_head h.toCacheCore hq (h.part_free q hin)
    have hslot := (h.slab q hq).mem_free hx
    have hxL : x ∉ L := fun hxL => free_not_live h hz hq hx (hL x hxL)
    rw [hhead]
    have hquiet := quiet_popObject (c := c) (s := s) (m := P.mem s) hP hg
      (by rw [hfirst]; exact (off_object h hz hL hslot hxL).1) (next_link h.toCacheCore hin)
    rw [hP.setMem_mem] at hquiet
    exact hquiet.oneCall

/-! ## `free` -/

theorem quiet_putObject (hP : P.Lawful) (hg : Guarded A K) (hA : Mem.Off A x 8)
    (hK : Mem.Off K x 8) :
    Quiet (writes P A) (reads P K) (putObject P (slabAddr q) x) (c, P.setMem s m) := by
  refine hg.quiet_load hP (fun _ => rfl) (by decide) ?_
  refine quiet_store_bind hP (fun _ => rfl) hA hK ?_
  refine hg.quiet_store_bind hP (fun _ => rfl) (by decide) (by decide) ?_
  refine hg.quiet_load hP (fun _ => rfl) (by decide) ?_
  exact hg.quiet_store hP (fun _ => rfl) (by decide) (by decide)

theorem quiet_pushIfWasFull (hP : P.Lawful) (hg : Guarded A K) (hc : Link c.partialList) :
    Quiet (writes P A) (reads P K) (pushIfWasFull P (slabAddr q)) (c, P.setMem s m) := by
  refine hg.quiet_load hP (fun _ => rfl) (by decide) ?_
  refine hg.quiet_load hP (fun _ => rfl) (by decide) ?_
  generalize inuse m (slabAddr q) = inuse, maxObjs m (slabAddr q) = maxObjs
  exact Quiet.ite (fun _ => quiet_pushPartial hP hg hc) fun _ => trivial

theorem quiet_unlinkNext (hP : P.Lawful) (hg : Guarded A K) {prev : ℕ} (hprev : Link prev) :
    Quiet (writes P A) (reads P K) (unlinkNext P (slabAddr q) prev) (c, P.setMem s m) := by
  rw [unlinkNext]
  refine Quiet.ite (fun hne => ?_) fun _ => ?_
  · obtain ⟨r, rfl⟩ := hprev.resolve_left hne
    refine hg.quiet_load hP (fun _ => rfl) (by decide) ?_
    exact hg.quiet_store hP (fun _ => rfl) (by decide) (by decide)
  · exact hg.quiet_load hP (fun _ => rfl) (by decide) quiet_setPartialList

theorem quiet_unlinkPartial (hP : P.Lawful) (hg : Guarded A K) (h : CacheCore m addr c S)
    (hq : q ∈ S.part) :
    Quiet (writes P A) (reads P K) (unlinkPartial P (slabAddr q)) (c, P.setMem s m) := by
  have hprev := prev_link h hq
  have hnext := next_link h hq
  have hlt : nextSlab m (slabAddr q) < 2 ^ 64 := (m.load_lt 8 _).trans_eq (by norm_num)
  refine hg.quiet_load hP (fun _ => rfl) (by decide) ?_
  generalize prevSlab m (slabAddr q) = prev at hprev ⊢
  refine (quiet_unlinkNext hP hg hprev).seq (run_unlinkNext hP _ _) ?_
  -- the first store leaves the link of the slab itself
  have hkeep : nextSlab (nextUnlinked (slabAddr q) prev m) (slabAddr q) = nextSlab m (slabAddr q) := by
    rw [nextUnlinked]
    split
    · rename_i hne
      obtain ⟨r, rfl⟩ := hprev.resolve_left hne
      rw [nextSlab_setNextSlab hlt]
      split <;> rfl
    · rfl
  generalize nextUnlinked (slabAddr q) prev m = m₁ at hkeep ⊢
  refine hg.quiet_load hP (fun _ => rfl) (by decide) ?_
  refine hg.quiet_load hP (fun _ => rfl) (by decide) ?_
  rw [hkeep]
  generalize nextSlab m (slabAddr q) = next at hnext ⊢
  generalize prevSlab m₁ (slabAddr q) = prev
  exact quiet_setPrevOf hP hg hnext

theorem oneCall_freePages {phys : ℕ}
    (h : ∀ B b, (∀ x, B x = true → x ∈ A) → ∀ x ∈ K,
      P.mem (P.freePages (P.setMem s (Mem.patch B b (P.mem s))) phys 1) x = P.mem s x) :
    OneCall (writes P A) (reads P K) (freePages P phys) (c, s) := by
  rintro _ ⟨B, b, hB, rfl⟩
  refine ⟨?_, trivial⟩
  rintro _ ⟨x, hx, rfl⟩
  exact h B b hB x hx

/-- **`free` under the lock** meets no byte that others write, and the page it returns has nothing
that they read. -/
theorem oneCall_free (hP : P.Lawful) (hH : HandsOut P I) (hs : I s S.frames)
    (h : CacheInv (P.mem s) addr c S) (hz : Fits c.objSize) (hx : x ∈ S.objects)
    (hL : ∀ o ∈ L, o ∈ S.objects) (hxL : x ∉ L) :
    OneCall (writes P (liveBytes c.objSize L)) (reads P (headBytes L)) (free P x) (c, s) := by
  obtain ⟨q, hq, hxq⟩ := Slabs.mem_objects.mp hx
  have hslab := h.slab q hq
  have hlt := h.lt q hq
  have hslot := hslab.mem_live hxq
  obtain ⟨hlow, hhigh⟩ := mem_slots_bounds hz hslot
  have hge := hz.ge
  have hg := guarded h hz hL
  obtain ⟨hA, hK⟩ := off_object h hz hL hslot hxL
  obtain ⟨c₂, m₂, S₂, hpush, hobj₂, hcore₂, hq₂, hperm₂, -, hlive₂, -, -, -, hframe₂⟩ :=
    h.putBack hz hq hxq
  have hput := quiet_putObject (c := c) (s := s) (m := P.mem s) (q := q) hP hg hA hK
  have hrun := run_putObject (c := c) (s := s) (m := P.mem s) hP (slabAddr q) x
  rw [hP.setMem_mem] at hput hrun
  have hrun₂ : (pushIfWasFull P (slabAddr q)).run
      (c, P.setMem s (KmemCache.putObject (P.mem s) (slabAddr q) x))
        = some ((), c₂, P.setMem s m₂) := by
    rw [run_pushIfWasFull hP, hpush]
  rw [free, alignDown_object hz hlt hslot]
  refine hput.seq_oneCall hrun ?_
  refine (quiet_pushIfWasFull hP hg (head_link h.toCacheCore)).seq_oneCall hrun₂ ?_
  have hload : Quiet (writes P (liveBytes c.objSize L)) (reads P (headBytes L))
      (load P (inuse · (slabAddr q))) (c₂, P.setMem s m₂) :=
    hg.quiet_load (k := .ret) hP (fun _ => rfl) (by decide) trivial
  refine hload.seq_oneCall (run_load hP _) ?_
  have hinuse : inuse m₂ (slabAddr q) = ((S.live q).erase x).length := by
    rw [(hcore₂.slab q (List.mem_append_left _ hq₂)).inuse_eq, hlive₂, Slabs.set_live_self]
  rw [hinuse]
  by_cases hempty : ((S.live q).erase x).length = 0
  · rw [if_pos hempty]
    obtain ⟨-, honly₃⟩ := hcore₂.unlink (by rwa [hobj₂]) hq₂
    refine (quiet_unlinkPartial hP hg hcore₂ hq₂).seq_oneCall (run_unlinkPartial hP _) ?_
    generalize KmemCache.unlinkPartial c₂ (slabAddr q) m₂ = unlinked at honly₃ ⊢
    obtain ⟨c₃, m₃⟩ := unlinked
    refine oneCall_freePages fun B b hB y hy => ?_
    have hframe₃ : ∀ y, y ∉ frameBytes S.frames → m₃ y = P.mem s y := fun y hy => by
      have hout : ∀ r ∈ S.part ++ S.full, y < slabAddr r ∨ slabAddr r + 48 ≤ y := fun r hr => by
        by_contra hin
        exact hy ⟨r, hr, by omega, by omega⟩
      have hobject : y < x ∨ x + 8 ≤ y := by
        by_contra hin
        exact hy ⟨q, hq, by omega, by omega⟩
      exact (honly₃.headers y fun r hr => hout r (hperm₂.subset hr)).trans (hframe₂ y hout hobject)
    have hs₃ : I (P.setMem s (Mem.patch B b m₃)) S.frames := hH.write hs fun y hy => by
      rw [Mem.patch_of_not, hframe₃ y hy]
      exact Bool.eq_false_iff.mpr fun hBy => hy (liveBytes_subset h hz hL (hB y hBy))
    obtain ⟨-, hagree⟩ := hH.free hs₃ (q := q) hq
    have hin : y ∈ frameBytes (S.frames \ {q}) := by
      obtain ⟨o, ho, hlow', hhigh'⟩ := hy
      obtain ⟨r, hr, hor⟩ := Slabs.mem_objects.mp (hL o ho)
      have hrq : r ≠ q := by
        rintro rfl
        have hox : o ≠ x := fun heq => hxL (heq ▸ ho)
        have hmem : o ∈ (S.live r).erase x := (List.mem_erase_of_ne hox).mpr hor
        rw [List.eq_nil_of_length_eq_zero hempty] at hmem
        exact List.not_mem_nil hmem
      rw [alignDown_object hz (h.lt r hr) ((h.slab r hr).mem_live hor)] at hlow' hhigh'
      exact ⟨r, ⟨hr, hrq⟩, hlow', by omega⟩
    rw [hP.mem_setMem, hP.setMem_setMem, physAddr_eq hlt, hagree y hin, hP.mem_setMem]
    refine Mem.patch_of_not (Bool.eq_false_iff.mpr fun hBy => ?_)
    exact Set.disjoint_left.mp (disjoint_live h hz hL) (hB y hBy) hy
  · rw [if_neg hempty]
    trivial

end Locked

end KmemCache

end MioOS
