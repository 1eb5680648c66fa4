import MioOS.Pmm.Blocks
import MioOS.Slub.Geometry

/-!
# Slub/Slabs — the slabs of a cache

`Slabs` is what a cache consists of: the frames of its slabs, in the order of the partial list and
then the rest, and the free and the live objects of each.  `CacheCore` relates it to memory:
headers, free lists and the links of the partial list.  `CacheInv` adds what holds between calls:
a slab is on the partial list exactly if it has a free object, and every slab has a live one.

The edits of `alloc` and `free` are taking and putting an object (`SlabOk.take`, `SlabOk.put`) and
changing the partial list (`CacheCore.push`, `CacheCore.drop`, `CacheCore.unlink`).
-/

namespace MioOS

open ByteMemory Intrusive SlabHeader

/-- The HHDM address of a frame. -/
def slabAddr (q : ℕ) : ℕ := hhdmBase + q * pageSize

/-- What a cache consists of. -/
structure Slabs where
  /-- The frames on the partial list, in its order. -/
  part : List ℕ
  /-- The frames of the other slabs. -/
  full : List ℕ
  /-- The free objects of a slab, in the order of its free list. -/
  free : ℕ → List ℕ
  /-- The objects of a slab that callers hold. -/
  live : ℕ → List ℕ

/-- No slab. -/
def Slabs.none : Slabs := ⟨[], [], fun _ => [], fun _ => []⟩

/-- The frames of the slabs. -/
def Slabs.frames (S : Slabs) : Set ℕ := {q | q ∈ S.part ++ S.full}

/-- All live objects. -/
def Slabs.objects (S : Slabs) : List ℕ := (S.part ++ S.full).flatMap S.live

namespace Slabs

variable {S : Slabs} {q r : ℕ} {free live : List ℕ}

/-- New objects for one slab. -/
def set (S : Slabs) (q : ℕ) (free live : List ℕ) : Slabs :=
  { S with free := Function.update S.free q free, live := Function.update S.live q live }

/-- All slabs but one of the partial list. -/
def drop (S : Slabs) (q : ℕ) : Slabs := { S with part := S.part.erase q }

@[simp] theorem drop_free : (S.drop q).free = S.free := rfl

@[simp] theorem drop_live : (S.drop q).live = S.live := rfl

@[simp] theorem set_part : (S.set q free live).part = S.part := rfl

@[simp] theorem set_full : (S.set q free live).full = S.full := rfl

@[simp] theorem set_free_self : (S.set q free live).free q = free := Function.update_self ..

@[simp] theorem set_live_self : (S.set q free live).live q = live := Function.update_self ..

theorem set_free_of_ne (h : r ≠ q) : (S.set q free live).free r = S.free r :=
  Function.update_of_ne h ..

theorem set_live_of_ne (h : r ≠ q) : (S.set q free live).live r = S.live r :=
  Function.update_of_ne h ..

end Slabs

namespace KmemCache

/-- **One slab**: its header, and a free list that holds the slots no caller has. -/
structure SlabOk (m : Mem) (addr objSize q : ℕ) (free live : List ℕ) : Prop where
  magic_eq : magic m (slabAddr q) = slabMagic
  cache_eq : cache m (slabAddr q) = addr
  inuse_eq : inuse m (slabAddr q) = live.length
  maxObjs_eq : maxObjs m (slabAddr q) = slotCount objSize
  chain : Chain 0 (freePointer m) (freelist m (slabAddr q)) free
  perm : (free ++ live).Perm (slots (slabAddr q) objSize)

/-- **A cache in memory**: its slabs, and the partial list linked in both directions from a null
`prev_slab`. -/
structure CacheCore (m : Mem) (addr : ℕ) (c : KmemCache) (S : Slabs) : Prop where
  slab : ∀ q ∈ S.part ++ S.full, SlabOk m addr c.objSize q (S.free q) (S.live q)
  nodup : (S.part ++ S.full).Nodup
  lt : ∀ q ∈ S.part ++ S.full, q < 2 ^ 35
  linked : Linked 0 (nextSlab m) (prevSlab m) 0 c.partialList (S.part.map slabAddr)

/-- **The invariant of a cache** between calls. -/
structure CacheInv (m : Mem) (addr : ℕ) (c : KmemCache) (S : Slabs) : Prop
    extends CacheCore m addr c S where
  part_free : ∀ q ∈ S.part, S.free q ≠ []
  full_free : ∀ q ∈ S.full, S.free q = []
  used : ∀ q ∈ S.part ++ S.full, S.live q ≠ []

/-- An object size the constructor leaves and a page has room for. -/
structure Fits (objSize : ℕ) : Prop where
  dvd : 8 ∣ objSize
  ge : 8 ≤ objSize
  le : objSize ≤ 4032

variable {c c' : KmemCache} {S : Slabs} {m m' : Mem} {addr objSize o q r x : ℕ}
  {free live : List ℕ}

/-! ## Addresses -/

theorem slabAddr_apart (h : q ≠ r) :
    slabAddr q + 4096 ≤ slabAddr r ∨ slabAddr r + 4096 ≤ slabAddr q := by
  rw [slabAddr, slabAddr, pageSize]
  omega

theorem slabAddr_lt (h : q < 2 ^ 35) : slabAddr q + 4096 ≤ 2 ^ 64 := by
  rw [slabAddr, hhdmBase, pageSize]
  omega

theorem slabAddr_ne_zero (q : ℕ) : slabAddr q ≠ 0 := by
  rw [slabAddr, hhdmBase]
  omega

theorem slabAddr_inj : slabAddr q = slabAddr r ↔ q = r := by
  rw [slabAddr, slabAddr, pageSize]
  omega

theorem pageSize_dvd_slabAddr (q : ℕ) : pageSize ∣ slabAddr q :=
  (show pageSize ∣ hhdmBase by decide).add (Nat.dvd_mul_left _ _)

theorem slotCount_le (hz : Fits objSize) : slotCount objSize ≤ 512 := by
  have hle : slotCount objSize * objSize ≤ pageSize - firstOffset objSize := slotCount_mul_le
  have hmul := Nat.mul_le_mul_left (slotCount objSize) hz.ge
  rw [pageSize] at hle
  omega

/-- Where the objects of a slab are. -/
theorem mem_slots_bounds (hz : Fits objSize) (hx : x ∈ slots (slabAddr q) objSize) :
    slabAddr q + 48 ≤ x ∧ x + objSize ≤ slabAddr q + 4096 := by
  obtain ⟨i, hi, rfl⟩ := mem_slots.mp hx
  exact ⟨slot_ge hz.dvd hz.ge, slot_end_le hz.dvd hz.ge hi⟩

/-- The header of an object is at the start of its page. -/
theorem alignDown_object (hz : Fits objSize) (hq : q < 2 ^ 35)
    (hx : x ∈ slots (slabAddr q) objSize) : alignDown x pageSize = slabAddr q := by
  obtain ⟨hlow, hhigh⟩ := mem_slots_bounds hz hx
  have hlt := slabAddr_lt hq
  have hge := hz.ge
  rw [alignDown_page (by omega)]
  rw [slabAddr, hhdmBase, pageSize] at *
  omega

/-! ## One slab -/

namespace SlabOk

theorem mem_free (h : SlabOk m addr objSize q free live) (hx : x ∈ free) :
    x ∈ slots (slabAddr q) objSize := h.perm.subset (List.mem_append_left _ hx)

theorem mem_live (h : SlabOk m addr objSize q free live) (hx : x ∈ live) :
    x ∈ slots (slabAddr q) objSize := h.perm.subset (List.mem_append_right _ hx)

theorem nodup (h : SlabOk m addr objSize q free live) (hz : Fits objSize) :
    (free ++ live).Nodup := h.perm.nodup_iff.mpr (nodup_slots hz.ge)

theorem length (h : SlabOk m addr objSize q free live) :
    free.length + live.length = slotCount objSize := by
  rw [← List.length_append, h.perm.length_eq, length_slots]

/-- A slab reads the first 32 bytes of its header and its free objects. -/
theorem congr (h : SlabOk m addr objSize q free live)
    (hheader : ∀ x, slabAddr q ≤ x → x < slabAddr q + 32 → m' x = m x)
    (hobjects : ∀ o ∈ free, ∀ x, o ≤ x → x < o + 8 → m' x = m x) :
    SlabOk m' addr objSize q free live := by
  have hload : ∀ k o, o + k ≤ 32 → m'.load k (slabAddr q + o) = m.load k (slabAddr q + o) :=
    fun k o hko => Mem.load_congr fun i hi => hheader _ (by omega) (by omega)
  refine ⟨(hload 4 0 (by decide)).trans h.magic_eq, (hload 8 8 (by decide)).trans h.cache_eq,
    (hload 4 24 (by decide)).trans h.inuse_eq, (hload 4 28 (by decide)).trans h.maxObjs_eq, ?_,
    h.perm⟩
  have hlist : freelist m' (slabAddr q) = freelist m (slabAddr q) := hload 8 16 (by decide)
  rw [hlist]
  exact h.chain.congr fun o ho => Mem.load_congr fun i hi => hobjects o ho _ (by omega) (by omega)

/-- A write to other pages leaves the slab alone. -/
theorem congr_page (h : SlabOk m addr objSize q free live) (hz : Fits objSize)
    (hpage : ∀ x, slabAddr q ≤ x → x < slabAddr q + 4096 → m' x = m x) :
    SlabOk m' addr objSize q free live := by
  refine h.congr (fun x hx hx' => hpage x hx (by omega)) fun o ho x hx hx' => ?_
  obtain ⟨hlow, hhigh⟩ := mem_slots_bounds hz (h.mem_free ho)
  have hge := hz.ge
  exact hpage x (by omega) (by omega)

end SlabOk

/-! ## Taking and putting an object -/

/-- `freelist` and `inuse` of `alloc`. -/
def takeObject (m : Mem) (header : ℕ) : Mem :=
  let m := setFreelist m header (freePointer m (freelist m header))
  setInuse m header (inuse m header + 1)

/-- `freelist` and `inuse` of `free`. -/
def putObject (m : Mem) (header object : ℕ) : Mem :=
  let m := setFreePointer m object (freelist m header)
  let m := setFreelist m header object
  setInuse m header (sub32 (inuse m header) 1)

theorem takeObject_apply {header : ℕ} (h : x < header ∨ header + 32 ≤ x) :
    takeObject m header x = m x := by
  simp only [takeObject, setFreelist, setInuse]
  rcases h with h | h
  · simp (disch := omega) only [Mem.store_apply_of_lt]
  · simp (disch := omega) only [Mem.store_apply_of_ge]

theorem putObject_apply {header object : ℕ} (h : x < header ∨ header + 32 ≤ x)
    (h' : x < object ∨ object + 8 ≤ x) : putObject m header object x = m x := by
  simp only [putObject, setFreelist, setInuse, setFreePointer]
  rcases h with h | h <;> rcases h' with h' | h'
  · simp (disch := omega) only [Mem.store_apply_of_lt]
  · simp (disch := omega) only [Mem.store_apply_of_lt, Mem.store_apply_of_ge]
  · simp (disch := omega) only [Mem.store_apply_of_lt, Mem.store_apply_of_ge]
  · simp (disch := omega) only [Mem.store_apply_of_ge]

/-- **Taking the first free object.** -/
theorem SlabOk.take (h : SlabOk m addr objSize q (x :: free) live) (hz : Fits objSize) :
    SlabOk (takeObject m (slabAddr q)) addr objSize q free (x :: live) ∧
      freelist m (slabAddr q) = x ∧
      (freelist (takeObject m (slabAddr q)) (slabAddr q) = 0 ↔ free = []) := by
  obtain ⟨hx, hne, hchain⟩ := h.chain
  have hlen := h.length
  have hcount := slotCount_le hz
  have hnd := h.nodup hz
  have hnext : freePointer m x < 2 ^ 64 := (m.load_lt 8 x).trans_eq (by norm_num)
  rw [List.length_cons] at hlen
  have hlist : freelist (takeObject m (slabAddr q)) (slabAddr q) = freePointer m x := by
    simp only [takeObject, setInuse, setFreelist, hx]
    simp (disch := omega) only [freelist, Mem.load_store_of_disjoint, Mem.load_store_word]
  have hchain' : Chain 0 (freePointer (takeObject m (slabAddr q))) (freePointer m x) free := by
    refine hchain.congr fun o ho => Mem.load_congr fun i hi => takeObject_apply (Or.inr ?_)
    obtain ⟨hlow, -⟩ := mem_slots_bounds hz (h.mem_free (List.mem_cons_of_mem _ ho))
    omega
  refine ⟨⟨?_, ?_, ?_, ?_, ?_, ?_⟩, hx, ?_⟩
  · rw [← h.magic_eq]
    simp only [takeObject, setInuse, setFreelist]
    simp (disch := omega) only [magic, Mem.load_store_of_disjoint]
  · rw [← h.cache_eq]
    simp only [takeObject, setInuse, setFreelist]
    simp (disch := omega) only [cache, Mem.load_store_of_disjoint]
  · have hread : inuse (setFreelist m (slabAddr q) (freePointer m (freelist m (slabAddr q))))
        (slabAddr q) = live.length := by
      rw [← h.inuse_eq]
      simp only [setFreelist]
      simp (disch := omega) only [inuse, Mem.load_store_of_disjoint]
    rw [takeObject]
    simp only [hread]
    exact Mem.load_store_of_lt (by norm_num; omega)
  · rw [← h.maxObjs_eq]
    simp only [takeObject, setInuse, setFreelist]
    simp (disch := omega) only [maxObjs, Mem.load_store_of_disjoint]
  · rw [hlist]
    exact hchain'
  · exact List.perm_middle.trans h.perm
  · rw [hlist]
    exact hchain'.eq_null_iff

/-- **Putting a live object back.** -/
theorem SlabOk.put (h : SlabOk m addr objSize q free live) (hz : Fits objSize) (hq : q < 2 ^ 35)
    (hx : x ∈ live) :
    SlabOk (putObject m (slabAddr q) x) addr objSize q (x :: free) (live.erase x) := by
  obtain ⟨hlow, hhigh⟩ := mem_slots_bounds hz (h.mem_live hx)
  have hge := hz.ge
  have hlt := slabAddr_lt hq
  have hlen := h.length
  have hcount := slotCount_le hz
  have hnd := h.nodup hz
  have hpos : 0 < live.length := List.length_pos_of_mem hx
  have hhead : freelist m (slabAddr q) < 2 ^ 64 := (m.load_lt 8 _).trans_eq (by norm_num)
  have hkeep : ∀ k o, o + k ≤ 16 ∨ (28 ≤ o ∧ o + k ≤ 48) →
      (putObject m (slabAddr q) x).load k (slabAddr q + o) = m.load k (slabAddr q + o) := by
    intro k o hko
    simp only [putObject, setInuse, setFreelist, setFreePointer]
    simp (disch := omega) only [Mem.load_store_of_disjoint]
  refine ⟨(hkeep 4 0 (by decide)).trans h.magic_eq, (hkeep 8 8 (by decide)).trans h.cache_eq, ?_,
    (hkeep 4 28 (by decide)).trans h.maxObjs_eq, ?_, ?_⟩
  · have hread : inuse (setFreelist (setFreePointer m x (freelist m (slabAddr q))) (slabAddr q) x)
        (slabAddr q) = live.length := by
      rw [← h.inuse_eq]
      simp only [setFreelist, setFreePointer]
      simp (disch := omega) only [inuse, Mem.load_store_of_disjoint]
    rw [putObject, List.length_erase_of_mem hx]
    simp only [hread]
    rw [inuse, setInuse, Mem.load_store_of_lt]
    · rw [sub32_eq]
      omega
    · rw [sub32_eq]
      exact Nat.mod_lt _ (by norm_num)
  · have hlist : freelist (putObject m (slabAddr q) x) (slabAddr q) = x := by
      simp only [putObject, setInuse, setFreelist]
      simp (disch := omega) only [freelist, Mem.load_store_of_disjoint, Mem.load_store_word]
    have hptr : freePointer (putObject m (slabAddr q) x) x = freelist m (slabAddr q) := by
      simp only [putObject, setInuse, setFreelist, setFreePointer]
      simp (disch := omega) only [freePointer, Mem.load_store_of_disjoint, Mem.load_store_word]
    rw [hlist]
    refine ⟨rfl, by omega, ?_⟩
    rw [hptr]
    refine h.chain.congr fun o ho => Mem.load_congr fun i hi => putObject_apply ?_ ?_
    · obtain ⟨hlow', -⟩ := mem_slots_bounds hz (h.mem_free ho)
      omega
    · -- two slots of a slab do not overlap
      have hne : o ≠ x := fun hox =>
        (List.nodup_append.mp hnd).2.2 o ho x hx hox
      obtain ⟨a, -, rfl⟩ := mem_slots.mp (h.mem_free ho)
      obtain ⟨b, -, rfl⟩ := mem_slots.mp (h.mem_live hx)
      rcases Nat.lt_or_gt_of_ne (fun hab => hne (by rw [hab]) : a ≠ b) with hab | hab
      · have hapart : slot (slabAddr q) objSize a + objSize ≤ slot (slabAddr q) objSize b :=
          slot_apart hab
        omega
      · have hapart : slot (slabAddr q) objSize b + objSize ≤ slot (slabAddr q) objSize a :=
          slot_apart hab
        omega
  · refine List.Perm.trans ?_ h.perm
    rw [List.cons_append]
    exact (List.perm_middle.symm).trans (List.Perm.append_left _ (List.perm_cons_erase hx).symm)

/-! ## Links -/

section Links

variable {v : ℕ}

theorem nextSlab_setNextSlab (hv : v < 2 ^ 64) (m : Mem) :
    nextSlab (setNextSlab m (slabAddr q) v) (slabAddr r)
      = if r = q then v else nextSlab m (slabAddr r) := by
  split
  · rename_i heq
    rw [heq]
    exact Mem.load_store_word hv
  · rename_i hne
    have hapart := slabAddr_apart hne
    exact Mem.load_store_of_disjoint (by omega)

theorem prevSlab_setPrevSlab (hv : v < 2 ^ 64) (m : Mem) :
    prevSlab (setPrevSlab m (slabAddr q) v) (slabAddr r)
      = if r = q then v else prevSlab m (slabAddr r) := by
  split
  · rename_i heq
    rw [heq]
    exact Mem.load_store_word hv
  · rename_i hne
    have hapart := slabAddr_apart hne
    exact Mem.load_store_of_disjoint (by omega)

theorem prevSlab_setNextSlab (m : Mem) :
    prevSlab (setNextSlab m (slabAddr q) v) (slabAddr r) = prevSlab m (slabAddr r) := by
  refine Mem.load_store_of_disjoint ?_
  rw [slabAddr, slabAddr, pageSize]
  omega

theorem nextSlab_setPrevSlab (m : Mem) :
    nextSlab (setPrevSlab m (slabAddr q) v) (slabAddr r) = nextSlab m (slabAddr r) := by
  refine Mem.load_store_of_disjoint ?_
  rw [slabAddr, slabAddr, pageSize]
  omega

/-- A write that only changes links of slabs of `S`. -/
def LinksOnly (S : Slabs) (m m' : Mem) : Prop :=
  ∀ x, (∀ q ∈ S.part ++ S.full, x < slabAddr q + 32 ∨ slabAddr q + 48 ≤ x) → m' x = m x

theorem LinksOnly.refl (S : Slabs) (m : Mem) : LinksOnly S m m := fun _ _ => rfl

theorem LinksOnly.setNext (h : LinksOnly S m m') (hq : q ∈ S.part ++ S.full) :
    LinksOnly S m (setNextSlab m' (slabAddr q) v) := fun x hx => by
  rw [← h x hx]
  rcases hx q hq with hlt | hge
  · exact Mem.store_apply_of_lt hlt
  · exact Mem.store_apply_of_ge (by omega)

theorem LinksOnly.setPrev (h : LinksOnly S m m') (hq : q ∈ S.part ++ S.full) :
    LinksOnly S m (setPrevSlab m' (slabAddr q) v) := fun x hx => by
  rw [← h x hx]
  rcases hx q hq with hlt | hge
  · exact Mem.store_apply_of_lt (by omega)
  · exact Mem.store_apply_of_ge (by omega)

end Links

/-- The end of `alloc` when the slab has no free object left. -/
def dropHead (c : KmemCache) (header : ℕ) (m : Mem) : KmemCache × Mem :=
  let c := { c with partialList := nextSlab m header }
  let m := if c.partialList ≠ 0 then setPrevSlab m c.partialList 0 else m
  (c, setPrevSlab (setNextSlab m header 0) header 0)

namespace CacheCore

/-- Changing the content of one slab. -/
theorem setSlab (h : CacheCore m addr c S) (hz : Fits c.objSize) (hq : q ∈ S.part ++ S.full)
    (hslab : SlabOk m' addr c.objSize q free live)
    (hframe : ∀ x, x < slabAddr q ∨ slabAddr q + 4096 ≤ x → m' x = m x)
    (hlinks : ∀ x, slabAddr q + 32 ≤ x → x < slabAddr q + 48 → m' x = m x) :
    CacheCore m' addr c (S.set q free live) := by
  have hlink : ∀ r k, 32 ≤ k → k + 8 ≤ 48 →
      m'.load 8 (slabAddr r + k) = m.load 8 (slabAddr r + k) := fun r k hk hk' => by
    refine Mem.load_congr fun i hi => ?_
    by_cases hrq : r = q
    · rw [hrq]
      exact hlinks _ (by omega) (by omega)
    · have hapart := slabAddr_apart hrq
      exact hframe _ (by omega)
  refine ⟨fun r hr => ?_, h.nodup, h.lt, h.linked.congr (fun x hx => ?_) fun x hx => ?_⟩
  · by_cases hrq : r = q
    · subst hrq
      rw [Slabs.set_free_self, Slabs.set_live_self]
      exact hslab
    · rw [Slabs.set_free_of_ne hrq, Slabs.set_live_of_ne hrq]
      have hapart := slabAddr_apart hrq
      exact (h.slab r hr).congr_page hz fun x hx hx' => hframe x (by omega)
  · obtain ⟨r, -, rfl⟩ := List.mem_map.mp hx
    exact hlink r 32 le_rfl (by decide)
  · obtain ⟨r, -, rfl⟩ := List.mem_map.mp hx
    exact hlink r 40 (by decide) (by decide)

/-- Changing links. -/
theorem relink {part full : List ℕ} (h : CacheCore m addr c S) (hz : Fits c.objSize)
    (hm : LinksOnly S m m') (hperm : (part ++ full).Perm (S.part ++ S.full))
    (hobj : c'.objSize = c.objSize)
    (hlinked : Linked 0 (nextSlab m') (prevSlab m') 0 c'.partialList (part.map slabAddr)) :
    CacheCore m' addr c' { S with part := part, full := full } := by
  refine ⟨fun q hq => ?_, hperm.nodup_iff.mpr h.nodup, fun q hq => h.lt q (hperm.subset hq),
    hlinked⟩
  have hq' := hperm.subset hq
  have hok := h.slab q hq'
  -- the links of a slab are in its own page
  have hout : ∀ x, slabAddr q ≤ x → x < slabAddr q + 4096 →
      x < slabAddr q + 32 ∨ slabAddr q + 48 ≤ x → m' x = m x := fun x hx hx' hoff => by
    refine hm x fun r hr => ?_
    by_cases hrq : r = q
    · rwa [hrq]
    · have hapart := slabAddr_apart hrq
      omega
  rw [hobj]
  refine hok.congr (fun x hx hx' => hout x hx (by omega) (by omega)) fun o ho x hx hx' => ?_
  obtain ⟨hlow, hhigh⟩ := mem_slots_bounds hz (hok.mem_free ho)
  have hge := hz.ge
  exact hout x (by omega) (by omega) (by omega)

/-- The head of the partial list. -/
theorem head (h : CacheCore m addr c S) : c.partialList = 0 ∧ S.part = [] ∨
    ∃ q part, S.part = q :: part ∧ c.partialList = slabAddr q := by
  have hl := h.linked
  cases hpart : S.part with
  | nil =>
    rw [hpart] at hl
    exact Or.inl ⟨hl, rfl⟩
  | cons q part =>
    rw [hpart] at hl
    exact Or.inr ⟨q, part, rfl, hl.1⟩

/-- **A slab becomes the head of the partial list.** -/
theorem push (h : CacheCore m addr c S) (hz : Fits c.objSize) (hq : q ∈ S.full) :
    CacheCore (pushPartial c (slabAddr q) m).2 addr (pushPartial c (slabAddr q) m).1
        { S with part := q :: S.part, full := S.full.erase q } ∧
      LinksOnly S m (pushPartial c (slabAddr q) m).2 := by
  have hmem : q ∈ S.part ++ S.full := List.mem_append_right _ hq
  have hnotin : q ∉ S.part := fun hin => (List.nodup_append.mp h.nodup).2.2 q hin q hq rfl
  have hlt := slabAddr_lt (h.lt q hmem)
  have hperm : (q :: S.part ++ S.full.erase q).Perm (S.part ++ S.full) :=
    List.perm_middle.symm.trans (List.Perm.append_left _ (List.perm_cons_erase hq).symm)
  have hl := h.linked
  rcases h.head with ⟨hnull, hpart⟩ | ⟨r, part, hpart, hhead⟩
  · have hmem' : (pushPartial c (slabAddr q) m).2
        = setPrevSlab (setNextSlab m (slabAddr q) c.partialList) (slabAddr q) 0 := by
      simp only [pushPartial, hnull, ne_eq, not_true_eq_false, if_false]
    have honly : LinksOnly S m (pushPartial c (slabAddr q) m).2 := by
      rw [hmem']
      exact ((LinksOnly.refl S m).setNext hmem).setPrev hmem
    refine ⟨h.relink hz honly hperm rfl ?_, honly⟩
    rw [hmem', hpart]
    refine ⟨rfl, slabAddr_ne_zero q, ?_, ?_⟩
    · rw [prevSlab_setPrevSlab (by norm_num), if_pos rfl]
    · rw [nextSlab_setPrevSlab, nextSlab_setNextSlab (by omega), if_pos rfl]
      exact hnull
  · have hr : r ∈ S.part ++ S.full := by simp [hpart]
    have hrq : q ≠ r := fun heq => hnotin (by simp [hpart, heq])
    have hlt' := slabAddr_lt (h.lt r hr)
    have hmem' : (pushPartial c (slabAddr q) m).2
        = setPrevSlab (setPrevSlab (setNextSlab m (slabAddr q) (slabAddr r)) (slabAddr q) 0)
            (slabAddr r) (slabAddr q) := by
      simp only [pushPartial, hhead, ne_eq, slabAddr_ne_zero, not_false_eq_true, if_true]
    have honly : LinksOnly S m (pushPartial c (slabAddr q) m).2 := by
      rw [hmem']
      exact (((LinksOnly.refl S m).setNext hmem).setPrev hmem).setPrev hr
    refine ⟨h.relink hz honly hperm rfl ?_, honly⟩
    have hnd : (S.part.map slabAddr).Nodup :=
      (List.nodup_append.mp h.nodup).1.map fun _ _ => slabAddr_inj.mp
    rw [hmem']
    change Linked 0 _ _ 0 (slabAddr q) (slabAddr q :: S.part.map slabAddr)
    refine hl.push hnd (slabAddr_ne_zero q) ?_ ?_ (fun _ => ?_) (fun x hx => ?_)
      fun x hx hne => ?_
    · rw [nextSlab_setPrevSlab, nextSlab_setPrevSlab, nextSlab_setNextSlab (by omega), if_pos rfl,
        hhead]
    · rw [prevSlab_setPrevSlab (by omega), if_neg hrq, prevSlab_setPrevSlab (by norm_num),
        if_pos rfl]
    · rw [hhead, prevSlab_setPrevSlab (by omega), if_pos rfl]
    · obtain ⟨a, ha, rfl⟩ := List.mem_map.mp hx
      have haq : a ≠ q := fun heq => hnotin (heq ▸ ha)
      rw [nextSlab_setPrevSlab, nextSlab_setPrevSlab, nextSlab_setNextSlab (by omega), if_neg haq]
    · obtain ⟨a, ha, rfl⟩ := List.mem_map.mp hx
      have haq : a ≠ q := fun heq => hnotin (heq ▸ ha)
      have har : a ≠ r := fun heq => hne (by rw [heq, hhead])
      rw [prevSlab_setPrevSlab (by omega), if_neg har, prevSlab_setPrevSlab (by norm_num),
        if_neg haq, prevSlab_setNextSlab]

/-- **The head of the partial list leaves it.** -/
theorem drop {part : List ℕ} (h : CacheCore m addr c S) (hz : Fits c.objSize)
    (hpart : S.part = q :: part) :
    CacheCore (dropHead c (slabAddr q) m).2 addr (dropHead c (slabAddr q) m).1
        { S with part := part, full := q :: S.full } ∧
      LinksOnly S m (dropHead c (slabAddr q) m).2 := by
  have hobj : (dropHead c (slabAddr q) m).1.objSize = c.objSize := by
    rw [dropHead]
  have hl := h.linked
  have hnodup := h.nodup
  have hmem : q ∈ S.part ++ S.full := by simp [hpart]
  have hperm : (part ++ q :: S.full).Perm (S.part ++ S.full) := by
    rw [hpart]
    exact List.perm_middle
  rw [hpart] at hl hnodup
  have hq : q ∉ part := fun hin =>
    (List.nodup_cons.mp hnodup).1 (List.mem_append_left _ hin)
  have hnd : (part.map slabAddr).Nodup :=
    (List.nodup_append.mp (List.nodup_cons.mp hnodup).2).1.map fun _ _ => slabAddr_inj.mp
  obtain ⟨-, -, -, hrest⟩ := hl
  -- what the second slab is, if there is one
  have hnext : nextSlab m (slabAddr q) = 0 ∨
      ∃ r ∈ part, nextSlab m (slabAddr q) = slabAddr r := by
    refine hrest.head_mem.imp_right fun hin => ?_
    obtain ⟨r, hr, heq⟩ := List.mem_map.mp hin
    exact ⟨r, hr, heq.symm⟩
  have hl := h.linked
  rw [hpart, List.map_cons] at hl
  rcases hnext with hnull | ⟨r, hr, hnext⟩
  · have hmem' : (dropHead c (slabAddr q) m).2
        = setPrevSlab (setNextSlab m (slabAddr q) 0) (slabAddr q) 0 := by
      simp only [dropHead, hnull, ne_eq, not_true_eq_false, if_false]
    have honly : LinksOnly S m (dropHead c (slabAddr q) m).2 := by
      rw [hmem']
      exact ((LinksOnly.refl S m).setNext hmem).setPrev hmem
    refine ⟨h.relink hz honly hperm hobj ?_, honly⟩
    rw [hmem']
    change Linked 0 _ _ 0 (nextSlab m (slabAddr q)) (part.map slabAddr)
    refine hl.pop hnd (fun hne => absurd hnull hne) (fun x hx => ?_) fun x hx _ => ?_
    all_goals
      obtain ⟨a, ha, rfl⟩ := List.mem_map.mp hx
      have haq : a ≠ q := fun heq => hq (heq ▸ ha)
    · rw [nextSlab_setPrevSlab, nextSlab_setNextSlab (by norm_num), if_neg haq]
    · rw [prevSlab_setPrevSlab (by norm_num), if_neg haq, prevSlab_setNextSlab]
  · have hr' : r ∈ S.part ++ S.full := by simp [hpart, hr]
    have hrq : r ≠ q := fun heq => hq (heq ▸ hr)
    have hmem' : (dropHead c (slabAddr q) m).2
        = setPrevSlab (setNextSlab (setPrevSlab m (slabAddr r) 0) (slabAddr q) 0)
            (slabAddr q) 0 := by
      simp only [dropHead, hnext, ne_eq, slabAddr_ne_zero, not_false_eq_true, if_true]
    have honly : LinksOnly S m (dropHead c (slabAddr q) m).2 := by
      rw [hmem']
      exact (((LinksOnly.refl S m).setPrev hr').setNext hmem).setPrev hmem
    refine ⟨h.relink hz honly hperm hobj ?_, honly⟩
    rw [hmem']
    change Linked 0 _ _ 0 (nextSlab m (slabAddr q)) (part.map slabAddr)
    refine hl.pop hnd (fun _ => ?_) (fun x hx => ?_) fun x hx hne => ?_
    · rw [hnext, prevSlab_setPrevSlab (by norm_num), if_neg hrq, prevSlab_setNextSlab,
        prevSlab_setPrevSlab (by norm_num), if_pos rfl]
    · obtain ⟨a, ha, rfl⟩ := List.mem_map.mp hx
      have haq : a ≠ q := fun heq => hq (heq ▸ ha)
      rw [nextSlab_setPrevSlab, nextSlab_setNextSlab (by norm_num), if_neg haq,
        nextSlab_setPrevSlab]
    · obtain ⟨a, ha, rfl⟩ := List.mem_map.mp hx
      have haq : a ≠ q := fun heq => hq (heq ▸ ha)
      have har : a ≠ r := fun heq => hne (by rw [heq, hnext])
      rw [prevSlab_setPrevSlab (by norm_num), if_neg haq, prevSlab_setNextSlab,
        prevSlab_setPrevSlab (by norm_num), if_neg har]

/-- **A slab is unlinked from the partial list**, wherever it is. -/
theorem unlink (h : CacheCore m addr c S) (hz : Fits c.objSize) (hq : q ∈ S.part) :
    CacheCore (unlinkPartial c (slabAddr q) m).2 addr (unlinkPartial c (slabAddr q) m).1
        { S with part := S.part.erase q, full := q :: S.full } ∧
      LinksOnly S m (unlinkPartial c (slabAddr q) m).2 := by
  have hl := h.linked
  have hmem : slabAddr q ∈ S.part.map slabAddr := List.mem_map_of_mem hq
  have hnd : (S.part.map slabAddr).Nodup :=
    (List.nodup_append.mp h.nodup).1.map fun _ _ => slabAddr_inj.mp
  have hpart : ∀ r ∈ S.part, r ∈ S.part ++ S.full := fun r hr => List.mem_append_left _ hr
  have hperm : (S.part.erase q ++ q :: S.full).Perm (S.part ++ S.full) :=
    List.perm_middle.trans (List.Perm.append_right _ (List.perm_cons_erase hq).symm)
  have herase : (S.part.erase q).map slabAddr = (S.part.map slabAddr).erase (slabAddr q) :=
    List.map_erase (fun _ _ => slabAddr_inj.mp) ..
  have hprev : prevSlab m (slabAddr q) = 0 ∨
      ∃ r ∈ S.part, prevSlab m (slabAddr q) = slabAddr r ∧ r ≠ q := by
    refine (hl.prev_mem _ hmem).imp_right fun hin => ?_
    obtain ⟨r, hr, heq⟩ := List.mem_map.mp hin
    refine ⟨r, hr, heq.symm, fun hrq => hl.prev_ne hnd (fun h0 => ?_) _ hmem (by rw [← heq, hrq])⟩
    exact hl.chain.ne_null _ h0 rfl
  have hnext : nextSlab m (slabAddr q) = 0 ∨
      ∃ r ∈ S.part, nextSlab m (slabAddr q) = slabAddr r := by
    refine (hl.next_mem _ hmem).imp_right fun hin => ?_
    obtain ⟨r, hr, heq⟩ := List.mem_map.mp hin
    exact ⟨r, hr, heq.symm⟩
  -- the first store
  obtain ⟨m₁, hm₁, honly₁, hnext₁, hprev₁⟩ : ∃ m₁,
      unlinkPartial c (slabAddr q) m = (if prevSlab m (slabAddr q) ≠ 0 then c
          else { c with partialList := nextSlab m (slabAddr q) },
        if nextSlab m₁ (slabAddr q) ≠ 0 then
          setPrevSlab m₁ (nextSlab m₁ (slabAddr q)) (prevSlab m₁ (slabAddr q)) else m₁) ∧
      LinksOnly S m m₁ ∧
      (∀ a ∈ S.part, nextSlab m₁ (slabAddr a) = if slabAddr a = prevSlab m (slabAddr q)
        then nextSlab m (slabAddr q) else nextSlab m (slabAddr a)) ∧
      ∀ a, prevSlab m₁ (slabAddr a) = prevSlab m (slabAddr a) := by
    have hnlt : nextSlab m (slabAddr q) < 2 ^ 64 := (m.load_lt 8 _).trans_eq (by norm_num)
    rcases hprev with h0 | ⟨r, hr, hprev, -⟩
    · refine ⟨m, ?_, LinksOnly.refl S m, fun a _ => ?_, fun _ => rfl⟩
      · simp only [unlinkPartial, h0, ne_eq, not_true_eq_false, if_false]
      · rw [h0, if_neg (slabAddr_ne_zero a)]
    · refine ⟨setNextSlab m (slabAddr r) (nextSlab m (slabAddr q)), ?_,
        (LinksOnly.refl S m).setNext (hpart r hr), fun a _ => ?_, fun a => prevSlab_setNextSlab m⟩
      · simp only [unlinkPartial, hprev, ne_eq, slabAddr_ne_zero, not_false_eq_true, if_true]
      · rw [nextSlab_setNextSlab hnlt, hprev]
        simp only [slabAddr_inj]
  -- it leaves the links of the slab itself
  have hself : nextSlab m₁ (slabAddr q) = nextSlab m (slabAddr q) := by
    rw [hnext₁ q hq]
    split
    · rfl
    · rfl
  have hplt : prevSlab m (slabAddr q) < 2 ^ 64 := (m.load_lt 8 _).trans_eq (by norm_num)
  rw [hself, hprev₁] at hm₁
  have honly : LinksOnly S m (unlinkPartial c (slabAddr q) m).2 := by
    rw [hm₁]
    rcases hnext with h0 | ⟨r, hr, hnext⟩
    · simpa only [h0, ne_eq, not_true_eq_false, if_false] using honly₁
    · simpa only [hnext, ne_eq, slabAddr_ne_zero, not_false_eq_true, if_true]
        using honly₁.setPrev (hpart r hr)
  have hobj : (unlinkPartial c (slabAddr q) m).1.objSize = c.objSize := by
    rw [hm₁]
    dsimp only
    split <;> rfl
  refine ⟨h.relink hz honly hperm hobj ?_, honly⟩
  have hlist : (unlinkPartial c (slabAddr q) m).1.partialList
      = if prevSlab m (slabAddr q) = 0 then nextSlab m (slabAddr q) else c.partialList := by
    rw [hm₁]
    by_cases h0 : prevSlab m (slabAddr q) = 0 <;> simp [h0]
  rw [hlist, herase]
  refine hl.remove hnd hmem (fun x hx hne => ?_) fun x hx hne => ?_
  all_goals
    obtain ⟨a, ha, rfl⟩ := List.mem_map.mp hx
    rw [hm₁]
    rcases hnext with h0 | ⟨r, hr, hnext⟩
  · simpa only [h0, ne_eq, not_true_eq_false, if_false] using hnext₁ a ha
  · simp only [hnext, ne_eq, slabAddr_ne_zero, not_false_eq_true, if_true]
    rw [nextSlab_setPrevSlab, hnext₁ a ha, hnext]
  · simp only [h0, ne_eq, not_true_eq_false, if_false, slabAddr_ne_zero]
    exact hprev₁ a
  · simp only [hnext, ne_eq, slabAddr_ne_zero, not_false_eq_true, if_true, slabAddr_inj]
    rw [prevSlab_setPrevSlab hplt, hprev₁ a]

end CacheCore

end KmemCache

end MioOS
