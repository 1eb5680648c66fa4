import MioOS.Library.Chain
import MioOS.Slub.Defs

/-!
# Slub/Geometry — where the objects of a slab are

`format_new_slab` rounds the address behind the header up with a mask, also when the object size is
not a power of two, and divides what is left of the page by the object size.  `slots` are the
addresses that come out; `formatNewSlab_spec` says that the free list is the chain of these slots
and that nothing outside the page changes, for every object size up to 4032.  For a larger one no
object fits, and `max_objs - 1` wraps.
-/

namespace MioOS

open ByteMemory Intrusive SlabHeader

namespace KmemCache

variable {c : KmemCache} {m m' : Mem} {self page header size objSize f i n z x : ℕ}

/-! ## Rounding up -/

/-- Where the first object starts in its page. -/
def firstOffset (objSize : ℕ) : ℕ :=
  let alignment := if objSize < 64 then objSize else 64
  (47 + alignment) &&& (4096 - alignment)

/-- How many objects there are behind it. -/
def slotCount (objSize : ℕ) : ℕ := (pageSize - firstOffset objSize) / objSize

/-- The address of object `i`. -/
def slot (page objSize i : ℕ) : ℕ := page + firstOffset objSize + i * objSize

/-- The addresses of the objects of a slab. -/
def slots (page objSize : ℕ) : List ℕ := (List.range (slotCount objSize)).map (slot page objSize)

/-- The mask is applied to the page and to the offset. -/
theorem and_page {q x l y : ℕ} (hx : x < 2 ^ 12) (hy : y < 2 ^ 12) :
    (2 ^ 12 * q + x) &&& (2 ^ 12 * l + y) = 2 ^ 12 * (q &&& l) + (x &&& y) := by
  have hxy : x &&& y < 2 ^ 12 := Nat.and_lt_two_pow x hy
  refine Nat.eq_of_testBit_eq fun j => ?_
  rw [Nat.testBit_and, Nat.testBit_two_pow_mul_add _ hx, Nat.testBit_two_pow_mul_add _ hy,
    Nat.testBit_two_pow_mul_add _ hxy]
  split <;> rw [Nat.testBit_and]

/-- The sizes below 64 that the constructor leaves. -/
theorem small_cases (hdvd : 8 ∣ objSize) (h8 : 8 ≤ objSize) (h64 : objSize < 64) :
    objSize = 8 ∨ objSize = 16 ∨ objSize = 24 ∨ objSize = 32 ∨ objSize = 40 ∨ objSize = 48 ∨
      objSize = 56 := by
  omega

theorem firstOffset_of_le (h : 64 ≤ objSize) : firstOffset objSize = 64 := by
  rw [firstOffset, if_neg (by omega)]
  rfl

/-- **Where the first object can start**: behind the header, at a multiple of 8. -/
theorem firstOffset_bounds (hdvd : 8 ∣ objSize) (h8 : 8 ≤ objSize) :
    slabHeaderSize ≤ firstOffset objSize ∧ firstOffset objSize ≤ 80 ∧ 8 ∣ firstOffset objSize := by
  by_cases h64 : objSize < 64
  · rcases small_cases hdvd h8 h64 with rfl | rfl | rfl | rfl | rfl | rfl | rfl <;> decide
  · rw [firstOffset_of_le (by omega)]
    decide

/-- For a power of two the mask does align. -/
theorem dvd_firstOffset {k : ℕ} (h8 : 8 ≤ objSize) (hk : objSize = 2 ^ k) :
    min objSize 64 ∣ firstOffset objSize := by
  by_cases h64 : objSize < 64
  · have hlow : 3 ≤ k := by
      by_contra hlt
      have := Nat.pow_le_pow_right two_pos (show k ≤ 2 by omega)
      omega
    have hhigh : k ≤ 5 := by
      by_contra hlt
      have := Nat.pow_le_pow_right two_pos (show 6 ≤ k by omega)
      omega
    obtain rfl | rfl | rfl : k = 3 ∨ k = 4 ∨ k = 5 := by omega
    all_goals subst hk; decide
  · rw [firstOffset_of_le (by omega), min_eq_right (by omega)]

/-- **What `align_up` makes of the address behind the header.** -/
theorem alignUp_first (hdvd : 8 ∣ objSize) (h8 : 8 ≤ objSize) (hpage : pageSize ∣ page)
    (hlt : page + pageSize ≤ 2 ^ 64) :
    alignUp (u64 (page + slabHeaderSize)) (if objSize < 64 then objSize else 64)
      = page + firstOffset objSize := by
  obtain ⟨q, rfl⟩ := hpage
  rw [firstOffset]
  generalize ha : (if objSize < 64 then objSize else 64) = a
  have ha' : 8 ≤ a ∧ a ≤ 64 := by
    split at ha <;> omega
  dsimp only [pageSize, slabHeaderSize] at hlt ⊢
  have hsum : u64 (4096 * q + 48) + (a - 1) = 2 ^ 12 * q + (47 + a) := by
    rw [u64_of_lt (by omega)]
    omega
  have hmask : 2 ^ 64 - a = 2 ^ 12 * (2 ^ 52 - 1) + (4096 - a) := by omega
  rw [alignUp, hsum, u64_of_lt (by omega), hmask, and_page (by omega) (by omega),
    Nat.and_two_pow_sub_one_eq_mod, Nat.mod_eq_of_lt (by omega)]
  norm_num

/-! ## Slots -/

/-- The last slot ends in the page. -/
theorem slotCount_mul_le : slotCount objSize * objSize ≤ pageSize - firstOffset objSize :=
  Nat.div_mul_le_self _ _

/-- **One object fits exactly up to 4032 bytes.** -/
theorem slotCount_pos_iff (hdvd : 8 ∣ objSize) (h8 : 8 ≤ objSize) :
    0 < slotCount objSize ↔ objSize ≤ 4032 := by
  rw [slotCount, Nat.div_pos_iff]
  by_cases h64 : objSize < 64
  · obtain ⟨-, hhigh, -⟩ := firstOffset_bounds hdvd h8
    rw [pageSize]
    omega
  · rw [firstOffset_of_le (by omega), pageSize]
    omega

theorem slot_end_le (hdvd : 8 ∣ objSize) (h8 : 8 ≤ objSize) (hi : i < slotCount objSize) :
    slot page objSize i + objSize ≤ page + pageSize := by
  obtain ⟨-, hhigh, -⟩ := firstOffset_bounds hdvd h8
  have hle := @slotCount_mul_le objSize
  have hmul := Nat.mul_le_mul_right objSize (Nat.succ_le_of_lt hi)
  rw [Nat.succ_mul] at hmul
  rw [slot, pageSize] at *
  omega

theorem slot_ge (hdvd : 8 ∣ objSize) (h8 : 8 ≤ objSize) :
    page + slabHeaderSize ≤ slot page objSize i := by
  obtain ⟨hlow, -, -⟩ := firstOffset_bounds hdvd h8
  rw [slot]
  omega

/-- Different slots do not overlap. -/
theorem slot_apart {j : ℕ} (hij : i < j) :
    slot page objSize i + objSize ≤ slot page objSize j := by
  have hmul := Nat.mul_le_mul_right objSize (Nat.succ_le_of_lt hij)
  rw [Nat.succ_mul] at hmul
  rw [slot, slot]
  omega

theorem slot_inj (h8 : 8 ≤ objSize) {j : ℕ} (h : slot page objSize i = slot page objSize j) :
    i = j := by
  rw [slot, slot] at h
  exact Nat.eq_of_mul_eq_mul_right (by omega) (Nat.add_left_cancel h)

theorem mem_slots : x ∈ slots page objSize ↔ ∃ i < slotCount objSize, slot page objSize i = x := by
  simp [slots]

theorem length_slots : (slots page objSize).length = slotCount objSize := by
  simp [slots]

theorem nodup_slots (h8 : 8 ≤ objSize) : (slots page objSize).Nodup :=
  List.nodup_range.map fun _ _ h => slot_inj h8 h

theorem pairwise_slots :
    (slots page objSize).Pairwise fun x y =>
      Disjoint (Set.Ico x (x + objSize)) (Set.Ico y (y + objSize)) := by
  rw [slots, List.pairwise_map]
  refine List.pairwise_lt_range.imp fun hij => ?_
  have hapart := @slot_apart page objSize _ _ hij
  exact Set.disjoint_left.mpr fun x hx hx' => absurd (hx.2.trans_le hapart) (not_lt.mpr hx'.1)

/-! ## The loop -/

/-- **The loop chains the objects** from `i` on to the last one, and touches no other byte. -/
theorem chainObjects_spec {fuel : ℕ} (h8 : 8 ≤ z) (hheader : header + slabHeaderSize ≤ f)
    (hend : f + n * z ≤ 2 ^ 64) (hn : maxObjs m header = n) (hi : i < n) (hfuel : n - i ≤ fuel)
    (hn32 : n < 2 ^ 32) :
    ∃ m', chainObjects header z fuel i (f + i * z) m = some (f + (n - 1) * z, m') ∧
      (∀ x, x < f + i * z ∨ f + (n - 1) * z ≤ x → m' x = m x) ∧
      ∀ j, i ≤ j → j + 1 < n → freePointer m' (f + j * z) = f + (j + 1) * z := by
  induction fuel generalizing i m with
  | zero => omega
  | succ fuel ih =>
    have hbound : sub32 (maxObjs m header) 1 = n - 1 := by
      rw [hn, sub32_eq]
      omega
    rw [chainObjects, hbound]
    by_cases hlast : i < n - 1
    · -- one more object: its successor is written and stays
      have hmul : (i + 1) * z = i * z + z := Nat.succ_mul i z
      have hle : (i + 1) * z + z ≤ n * z := by
        rw [← Nat.succ_mul]
        exact Nat.mul_le_mul_right z (by omega)
      have hle' : (i + 1) * z ≤ (n - 1) * z := Nat.mul_le_mul_right z (by omega)
      have hnext : u64 (f + i * z + z) = f + (i + 1) * z := by
        rw [hmul, ← Nat.add_assoc]
        exact u64_of_lt (by omega)
      simp only [if_pos hlast, hnext]
      have hmax : maxObjs (setFreePointer m (f + i * z) (f + (i + 1) * z)) header = n := by
        rw [← hn, maxObjs, setFreePointer, slabHeaderSize] at *
        exact Mem.load_store_of_disjoint (by omega)
      obtain ⟨m', heq, hframe, hchain⟩ := ih (i := i + 1) hmax (by omega) (by omega)
      refine ⟨m', heq, fun x hx => ?_, fun j hj hj' => ?_⟩
      · rw [hframe x (by omega), setFreePointer]
        rcases hx with hx | hx
        · exact Mem.store_apply_of_lt hx
        · exact Mem.store_apply_of_ge (by omega)
      · rcases Nat.eq_or_lt_of_le hj with rfl | hj
        · have hkeep : freePointer m' (f + i * z)
              = freePointer (setFreePointer m (f + i * z) (f + (i + 1) * z)) (f + i * z) :=
            Mem.load_congr fun b hb => hframe _ (by omega)
          have hfit : f + (i + 1) * z < 2 ^ 64 := by omega
          rw [hkeep]
          exact Mem.load_store_word hfit
        · exact hchain j hj hj'
    · obtain rfl : i = n - 1 := by omega
      rw [if_neg (lt_irrefl _)]
      exact ⟨m, rfl, fun _ _ => rfl, fun j hj hj' => absurd hj (by omega)⟩

/-! ## A new slab -/

/-- **What `format_new_slab` leaves** in the page: an empty slab whose free list is the chain of all
slots. -/
structure Formatted (addr page objSize : ℕ) (m m' : Mem) : Prop where
  frame : ∀ x, x < page ∨ page + pageSize ≤ x → m' x = m x
  magic_eq : magic m' page = slabMagic
  cache_eq : cache m' page = addr
  inuse_eq : inuse m' page = 0
  maxObjs_eq : maxObjs m' page = slotCount objSize
  next_eq : nextSlab m' page = 0
  prev_eq : prevSlab m' page = 0
  chain : Chain 0 (freePointer m') (freelist m' page) (slots page objSize)

/-- The header that `format_new_slab` writes, with `n` for `max_objs` and `f` for the free list. -/
def writeHeader (self page f n : ℕ) (m : Mem) : Mem :=
  setMaxObjs (setFreelist (setPrevSlab (setNextSlab (setInuse (setCache (setMagic m page slabMagic)
    page self) page 0) page 0) page 0) page f) page n

/-- The header is read back. -/
theorem writeHeader_fields (hself : self < 2 ^ 64) (hf : f < 2 ^ 64) (m : Mem) :
    magic (writeHeader self page f n m) page = slabMagic ∧
      cache (writeHeader self page f n m) page = self ∧
      freelist (writeHeader self page f n m) page = f ∧
      inuse (writeHeader self page f n m) page = 0 ∧
      maxObjs (writeHeader self page f n m) page = n % 2 ^ 32 ∧
      nextSlab (writeHeader self page f n m) page = 0 ∧
      prevSlab (writeHeader self page f n m) page = 0 := by
  simp only [writeHeader, magic, cache, freelist, inuse, maxObjs, nextSlab, prevSlab, setMagic,
    setCache, setFreelist, setInuse, setMaxObjs, setNextSlab, setPrevSlab]
  refine ⟨?_, ?_, ?_, ?_, ?_, ?_, ?_⟩
  · simp (disch := omega) only [Mem.load_store_of_disjoint, Mem.load_store_same]
    rfl
  · simp (disch := omega) only [Mem.load_store_of_disjoint, Mem.load_store_word]
  · simp (disch := omega) only [Mem.load_store_of_disjoint, Mem.load_store_word]
  · simp (disch := omega) only [Mem.load_store_of_disjoint, Mem.load_store_same]
    rfl
  · rw [Mem.load_store_same]
    norm_num
  · simp (disch := omega) only [Mem.load_store_of_disjoint, Mem.load_store_word]
  · simp (disch := omega) only [Mem.load_store_of_disjoint, Mem.load_store_word]

theorem writeHeader_apply (h : x < page ∨ page + slabHeaderSize ≤ x) (m : Mem) :
    writeHeader self page f n m x = m x := by
  rw [slabHeaderSize] at h
  simp only [writeHeader, setMagic, setCache, setFreelist, setInuse, setMaxObjs, setNextSlab,
    setPrevSlab]
  rcases h with h | h
  · simp (disch := omega) only [Mem.store_apply_of_lt]
  · simp (disch := omega) only [Mem.store_apply_of_ge]

/-- `format_new_slab` writes the header, then chains the objects. -/
theorem formatNewSlab_eq (hdvd : 8 ∣ c.objSize) (h8 : 8 ≤ c.objSize) (hpage : pageSize ∣ page)
    (hlt : page + pageSize ≤ 2 ^ 64) :
    formatNewSlab self c page page m
      = (chainObjects page c.objSize (2 ^ 32) 0 (page + firstOffset c.objSize)
          (writeHeader self page (page + firstOffset c.objSize) (slotCount c.objSize) m)).map
        fun (currentObj, m) => setFreePointer m currentObj 0 := by
  obtain ⟨-, hhigh, -⟩ := firstOffset_bounds hdvd h8
  have hfirst := alignUp_first hdvd h8 hpage hlt
  have hoffset : sub64 (page + firstOffset c.objSize) page = firstOffset c.objSize := by
    rw [pageSize] at hlt
    rw [sub64_of_le (by omega) (Nat.le_add_right _ _), Nat.add_sub_cancel_left]
  have havail : sub64 pageSize (firstOffset c.objSize) = pageSize - firstOffset c.objSize := by
    rw [pageSize]
    exact sub64_of_le (by omega) (by omega)
  rw [formatNewSlab]
  simp only [hfirst, hoffset, havail, if_neg (show ¬ c.objSize = 0 by omega)]
  rfl

/-- **A new slab**: for every object size up to 4032, `format_new_slab` ends and leaves a chain of
all slots. -/
theorem formatNewSlab_spec (hdvd : 8 ∣ c.objSize) (h8 : 8 ≤ c.objSize) (hle : c.objSize ≤ 4032)
    (hpage : pageSize ∣ page) (hlt : page + pageSize ≤ 2 ^ 64) (hself : self < 2 ^ 64) (m : Mem) :
    ∃ m', formatNewSlab self c page page m = some m' ∧ Formatted self page c.objSize m m' := by
  obtain ⟨hlow, hhigh, -⟩ := firstOffset_bounds hdvd h8
  have hpos := (slotCount_pos_iff hdvd h8).mpr hle
  have hfits := @slotCount_mul_le c.objSize
  have hcount : slotCount c.objSize ≤ slotCount c.objSize * c.objSize :=
    Nat.le_mul_of_pos_right _ (by omega)
  rw [formatNewSlab_eq hdvd h8 hpage hlt]
  generalize hn : slotCount c.objSize = n at *
  generalize hf : firstOffset c.objSize = off at *
  generalize c.objSize = z at *
  rw [pageSize] at hlt hfits
  rw [slabHeaderSize] at hlow
  have hfirst : page + off < 2 ^ 64 := by omega
  obtain ⟨hmagic, hcache, hlist, hinuse, hmax, hnext, hprev⟩ :=
    @writeHeader_fields _ page _ n hself hfirst m
  generalize hw : writeHeader self page (page + off) n m = w at *
  rw [Nat.mod_eq_of_lt (by omega)] at hmax
  obtain ⟨m₁, heq, hframe, hchain⟩ := @chainObjects_spec _ _ (page + off) 0 _ z (2 ^ 32) h8 (by rw [slabHeaderSize]; omega) (by omega) hmax hpos (by omega) (by omega)
  rw [Nat.zero_mul, Nat.add_zero] at heq hframe
  have hlast : (n - 1) * z + z = n * z := by
    rw [← Nat.succ_mul, Nat.succ_eq_add_one, Nat.sub_add_cancel hpos]
  -- the loop and the last store leave the header alone
  have hkeep : ∀ x, x < page + slabHeaderSize →
      setFreePointer m₁ (page + off + (n - 1) * z) 0 x = w x := fun x hx => by
    rw [slabHeaderSize] at hx
    rw [setFreePointer, Mem.store_apply_of_lt (by omega), hframe x (Or.inl (by omega))]
  have hload : ∀ k o, o + k ≤ slabHeaderSize →
      (setFreePointer m₁ (page + off + (n - 1) * z) 0).load k (page + o) = w.load k (page + o) :=
    fun k o hko => Mem.load_congr fun i hi => hkeep _ (by omega)
  refine ⟨_, by rw [heq]; rfl, fun x hx => ?_, (hload 4 0 (by decide)).trans hmagic,
    (hload 8 8 (by decide)).trans hcache, (hload 4 24 (by decide)).trans hinuse,
    (hload 4 28 (by decide)).trans (hmax.trans hn.symm), (hload 8 32 (by decide)).trans hnext,
    (hload 8 40 (by decide)).trans hprev, ?_⟩
  · rw [pageSize] at hx
    have hout : w x = m x := by
      rw [← hw]
      exact writeHeader_apply (by rw [slabHeaderSize]; omega) m
    rw [← hout]
    rcases hx with hx | hx
    · exact hkeep x (by omega)
    · rw [setFreePointer, Mem.store_apply_of_ge (by omega), hframe x (Or.inr (by omega))]
  · have hhead : freelist (setFreePointer m₁ (page + off + (n - 1) * z) 0) page
        = slot page z 0 := by
      rw [slot, hf, Nat.zero_mul, Nat.add_zero]
      exact (hload 8 16 (by decide)).trans hlist
    rw [hhead, slots, List.range_eq_range', hn]
    refine chain_range' (fun j _ _ => ?_) (fun j _ hj => ?_) (fun _ => ?_) (by omega)
    · rw [slot, hf]
      omega
    · rw [Nat.zero_add] at hj
      have hmul : (j + 1) * z ≤ (n - 1) * z := Nat.mul_le_mul_right z (by omega)
      rw [slot, slot, hf, ← hchain j (Nat.zero_le _) hj]
      rw [Nat.succ_mul] at hmul
      exact Mem.load_store_of_disjoint (by omega)
    · rw [Nat.zero_add, slot, hf]
      exact Mem.load_store_word (by norm_num)

/-! ## Which sizes are sound -/

/-- **A sound slab**: the page alone was written, and the free list is a chain of `max_objs` slots,
at least one, that lie behind the header and do not overlap. -/
structure SlabSound (page objSize : ℕ) (m m' : Mem) : Prop where
  frame : ∀ x, x < page ∨ page + pageSize ≤ x → m' x = m x
  pos : 1 ≤ maxObjs m' page
  chain : ∃ l : List ℕ, Chain 0 (freePointer m') (freelist m' page) l ∧ l.Nodup ∧
    l.length = maxObjs m' page ∧
    (l.Pairwise fun x y => Disjoint (Set.Ico x (x + objSize)) (Set.Ico y (y + objSize))) ∧
    ∀ x ∈ l, 8 ∣ x ∧ page + slabHeaderSize ≤ x ∧ x + objSize ≤ page + pageSize ∧
      ∀ k, objSize = 2 ^ k → min objSize 64 ∣ x

/-- What the constructor makes of a size: at least 8, and the next multiple of 8, or 0 when that
does not fit 64 bits. -/
theorem objSize_new (hsize : size < 2 ^ 64) :
    (new size).objSize = if 2 ^ 64 - 8 < size then 0 else max 8 ((size + 7) / 8 * 8) := by
  have hmod : size < 8 → ¬ (8 % 8 ≠ 0) := fun _ => by decide
  rw [new]
  by_cases h8 : size < 8
  · simp only [if_pos h8, if_neg (hmod h8)]
    rw [if_neg (by omega)]
    omega
  · simp only [if_neg h8]
    by_cases hdvd : size % 8 ≠ 0
    · rw [if_pos hdvd, u64_eq]
      split <;> omega
    · rw [if_neg hdvd]
      split <;> omega

theorem slot_dvd (hdvd : 8 ∣ objSize) (h8 : 8 ≤ objSize) (hpage : pageSize ∣ page) :
    8 ∣ slot page objSize i ∧ ∀ k, objSize = 2 ^ k → min objSize 64 ∣ slot page objSize i := by
  obtain ⟨-, -, hoff⟩ := firstOffset_bounds hdvd h8
  have hpage8 : 8 ∣ page := (show 8 ∣ pageSize by decide).trans hpage
  refine ⟨(hpage8.add hoff).add (hdvd.mul_left i), fun k hk => ?_⟩
  have hmin : min objSize 64 ∣ objSize := by
    rcases le_total objSize 64 with h | h
    · rw [min_eq_left h]
    · rw [min_eq_right h, hk]
      refine pow_dvd_pow 2 (show 6 ≤ k from ?_)
      by_contra hlt
      have := Nat.pow_lt_pow_right one_lt_two (not_le.mp hlt)
      omega
  have hmin' : min objSize 64 ∣ page := by
    refine Dvd.dvd.trans ?_ hpage
    rcases le_total objSize 64 with h | h
    · rw [min_eq_left h, hk]
      refine pow_dvd_pow 2 (show k ≤ 12 from ?_)
      by_contra hlt
      have := Nat.pow_lt_pow_right one_lt_two (not_le.mp hlt)
      omega
    · rw [min_eq_right h]
      decide
  exact (hmin'.add (dvd_firstOffset h8 hk)).add (hmin.mul_left i)

theorem Formatted.sound (hdvd : 8 ∣ objSize) (h8 : 8 ≤ objSize) (hle : objSize ≤ 4032)
    (hpage : pageSize ∣ page) (h : Formatted self page objSize m m') :
    SlabSound page objSize m m' := by
  refine ⟨h.frame, ?_, slots page objSize, h.chain, nodup_slots h8, ?_, pairwise_slots, ?_⟩
  · rw [h.maxObjs_eq]
    exact (slotCount_pos_iff hdvd h8).mpr hle
  · rw [length_slots, h.maxObjs_eq]
  · intro x hx
    obtain ⟨i, hi, rfl⟩ := mem_slots.mp hx
    exact ⟨(slot_dvd hdvd h8 hpage).1, slot_ge hdvd h8, slot_end_le hdvd h8 hi,
      (slot_dvd hdvd h8 hpage).2⟩

theorem setFreePointer_apply {cur v : ℕ}
    (hout : cur + 8 ≤ header ∨ header + slabHeaderSize ≤ cur) (hx : header ≤ x)
    (hx' : x < header + slabHeaderSize) (m : Mem) : setFreePointer m cur v x = m x := by
  rcases hout with hout | hout
  · exact Mem.store_apply_of_ge (by omega)
  · exact Mem.store_apply_of_lt (by omega)

/-- The loop leaves a header alone that no object meets. -/
theorem chainObjects_keeps {fuel cur cur' : ℕ} (hcur : cur < 2 ^ 64)
    (hout : ∀ j < fuel, u64 (cur + j * z) + 8 ≤ header ∨
      header + slabHeaderSize ≤ u64 (cur + j * z))
    (h : chainObjects header z fuel i cur m = some (cur', m')) :
    ∀ x, header ≤ x → x < header + slabHeaderSize → setFreePointer m' cur' 0 x = m x := by
  induction fuel generalizing i cur m with
  | zero => exact absurd h (by simp [chainObjects])
  | succ fuel ih =>
    have hfirst := hout 0 (Nat.succ_pos _)
    simp only [Nat.zero_mul, Nat.add_zero, u64_of_lt hcur] at hfirst
    rw [chainObjects] at h
    split at h
    · have hnext : ∀ j < fuel, u64 (u64 (cur + z) + j * z) + 8 ≤ header ∨
          header + slabHeaderSize ≤ u64 (u64 (cur + z) + j * z) := fun j hj => by
        have hj' := hout (j + 1) (by omega)
        have hmod : u64 (u64 (cur + z) + j * z) = u64 (cur + (j + 1) * z) := by
          rw [Nat.succ_mul]
          simp only [u64_eq]
          omega
        rwa [hmod]
      intro x hx hx'
      exact (ih (u64_lt _) hnext h x hx hx').trans (setFreePointer_apply hfirst hx hx' m)
    · obtain ⟨rfl, rfl⟩ := Prod.mk.inj (Option.some.inj h)
      exact fun x hx hx' => setFreePointer_apply hfirst hx hx' m

/-- **No slab of objects of more than 4032 bytes is sound.** -/
theorem not_sound_of_large (hsize : size < 2 ^ 64) (hlarge : 4032 < size)
    (hpage : pageSize ∣ page) (hlt : page + pageSize ≤ 2 ^ 64) (hself : self < 2 ^ 64) (m : Mem) :
    ¬ ∃ m', formatNewSlab self (new size) page page m = some m' ∧
      SlabSound page (new size).objSize m m' := by
  rintro ⟨m', heq, hsound⟩
  have hobj := objSize_new hsize
  by_cases hwrap : 2 ^ 64 - 8 < size
  · -- the size wraps to 0 and the division faults
    rw [if_pos hwrap] at hobj
    rw [formatNewSlab] at heq
    simp [hobj] at heq
  rw [if_neg hwrap, max_eq_right (by omega)] at hobj
  generalize new size = c at *
  have hdvd : 8 ∣ c.objSize := ⟨_, hobj.trans (Nat.mul_comm _ _)⟩
  have h8 : 8 ≤ c.objSize := by omega
  have hbig : 4032 < c.objSize := by omega
  obtain ⟨l, -, -, hlen, -, hslots⟩ := hsound.chain
  have hpos := hsound.pos
  -- a slot fits between the header and the end of the page
  have hfit : c.objSize ≤ 4048 := by
    cases l with
    | nil =>
      rw [List.length_nil] at hlen
      omega
    | cons x l =>
      obtain ⟨-, hlow, hend, -⟩ := hslots x List.mem_cons_self
      rw [slabHeaderSize] at hlow
      rw [pageSize] at hend
      omega
  -- but the code counts none
  have hzero : slotCount c.objSize = 0 := by
    have := (slotCount_pos_iff hdvd h8).not.mpr (by omega)
    omega
  have hoff := @firstOffset_of_le c.objSize (by omega)
  rw [formatNewSlab_eq hdvd h8 hpage hlt, hoff, hzero] at heq
  obtain ⟨⟨cur', m₁⟩, hloop, rfl⟩ := Option.map_eq_some_iff.mp heq
  have hpage64 : page + 64 < 2 ^ 64 := by
    rw [pageSize] at hlt
    omega
  have hout : ∀ j < 2 ^ 32, u64 (page + 64 + j * c.objSize) + 8 ≤ page ∨
      page + slabHeaderSize ≤ u64 (page + 64 + j * c.objSize) := fun j hj => by
    have hmul : j * c.objSize ≤ 2 ^ 32 * 4048 := Nat.mul_le_mul hj.le hfit
    rw [slabHeaderSize, u64_eq]
    omega
  have hkeep := chainObjects_keeps hpage64 hout hloop
  obtain ⟨-, -, -, -, hmax, -⟩ := @writeHeader_fields _ page _ 0 hself hpage64 m
  have hread : maxObjs (setFreePointer m₁ cur' 0) page
      = maxObjs (writeHeader self page (page + 64) 0 m) page :=
    Mem.load_congr fun b hb => hkeep _ (by omega) (by rw [slabHeaderSize]; omega)
  rw [Nat.zero_mod] at hmax
  exact absurd (hread.trans hmax) (Nat.one_le_iff_ne_zero.mp hpos)

/-- **A slab is sound exactly for the sizes up to 4032.** -/
theorem formatNewSlab_sound_iff (hsize : size < 2 ^ 64) (hpage : pageSize ∣ page)
    (hlt : page + pageSize ≤ 2 ^ 64) (hself : self < 2 ^ 64) (m : Mem) :
    (∃ m', formatNewSlab self (new size) page page m = some m' ∧
      SlabSound page (new size).objSize m m') ↔ size ≤ 4032 := by
  refine ⟨fun h => not_lt.mp fun hlarge => not_sound_of_large hsize hlarge hpage hlt hself m h,
    fun hle => ?_⟩
  have hobj := objSize_new hsize
  rw [if_neg (by omega)] at hobj
  have hdvd : 8 ∣ (new size).objSize := by
    rw [hobj]
    omega
  obtain ⟨m', heq, hformat⟩ := formatNewSlab_spec (c := new size) hdvd (by omega) (by omega) hpage
    hlt hself m
  exact ⟨m', heq, hformat.sound hdvd (by omega) (by omega) hpage⟩

theorem formatNewSlab_sound_24 : ∃ m', formatNewSlab 1 (new 24) hhdmBase hhdmBase (fun _ => 0)
      = some m' ∧ SlabSound hhdmBase (new 24).objSize (fun _ => 0) m' :=
  (formatNewSlab_sound_iff (by norm_num) (by decide) (by decide) (by norm_num) _).mpr (by norm_num)

/-- **A cache of pages cannot format its slab**: the size 4096 is accepted. -/
theorem not_formatNewSlab_sound : ¬ ∀ size < 2 ^ 64, ∀ self < 2 ^ 64, ∀ page, pageSize ∣ page →
    page + pageSize ≤ 2 ^ 64 → ∀ m, ∃ m', formatNewSlab self (new size) page page m = some m' ∧
      SlabSound page (new size).objSize m m' := fun h =>
  @not_sound_of_large _ _ 4096 (by norm_num) (by norm_num) (by decide) (by decide)
    (by norm_num) _ (h 4096 (by norm_num) 1 (by norm_num) hhdmBase (by decide) (by decide)
      fun _ => 0)

end KmemCache

end MioOS
