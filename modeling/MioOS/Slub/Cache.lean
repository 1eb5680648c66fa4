import MioOS.Slub.Slabs

/-!
# Slub/Cache — runs of one cache

`alloc` and `free` keep the invariant of a cache over any page source that hands out unused pages
(`HandsOut`), so it holds in every run (`Run.inv` in `Slub/Runs`).
-/

namespace MioOS

open ByteMemory Intrusive SlabHeader

namespace KmemCache

variable {c c' : KmemCache} {S : Slabs} {m m' : Mem} {addr objSize o q r x : ℕ}
  {free live : List ℕ}

/-! ## A page source -/

/-- The bytes of frames. -/
def frameBytes (H : Set ℕ) : Set ℕ := {x | ∃ q ∈ H, slabAddr q ≤ x ∧ x < slabAddr q + 4096}

/-- **A page source that hands out unused pages**: `Inv s H` says that it is in state `s` and has
handed out the frames `H`, to this cache, and not taken them back.  It leaves their bytes alone. -/
structure HandsOut {σ : Type} (P : PageSource σ) (Inv : σ → Set ℕ → Prop) : Prop where
  mem_setMem : ∀ s m, P.mem (P.setMem s m) = m
  lt : ∀ {s H}, Inv s H → ∀ q ∈ H, q < 2 ^ 35
  alloc : ∀ {s H}, Inv s H →
    (∃ s', P.allocPages s 1 = some (0, s') ∧ Inv s' H ∧
      Mem.AgreeOn (frameBytes H) (P.mem s) (P.mem s')) ∨
    ∃ q s', P.allocPages s 1 = some (q * pageSize, s') ∧ 0 < q ∧ q ∉ H ∧ Inv s' (insert q H) ∧
      Mem.AgreeOn (frameBytes H) (P.mem s) (P.mem s')
  free : ∀ {s H q}, Inv s H → q ∈ H → Inv (P.freePages s (q * pageSize) 1) (H \ {q}) ∧
    Mem.AgreeOn (frameBytes (H \ {q})) (P.mem s) (P.mem (P.freePages s (q * pageSize) 1))
  write : ∀ {s H m}, Inv s H → Mem.AgreeOn (frameBytes H)ᶜ (P.mem s) m → Inv (P.setMem s m) H

/-- A write that changes headers of slabs of `S` only. -/
def HeadersOnly (S : Slabs) (m m' : Mem) : Prop :=
  ∀ x, (∀ q ∈ S.part ++ S.full, x < slabAddr q ∨ slabAddr q + 48 ≤ x) → m' x = m x

theorem LinksOnly.headers (h : LinksOnly S m m') : HeadersOnly S m m' := fun x hx =>
  h x fun q hq => (hx q hq).imp_left fun hlt => by omega

theorem HeadersOnly.agreeOn (h : HeadersOnly S m m') :
    Mem.AgreeOn (frameBytes S.frames)ᶜ m m' := fun x hx => by
  refine h x fun q hq => ?_
  by_contra hin
  exact hx ⟨q, hq, by omega, by omega⟩

theorem CacheCore.congr (h : CacheCore m addr c S) (hz : Fits c.objSize)
    (hm : Mem.AgreeOn (frameBytes S.frames) m m') : CacheCore m' addr c S := by
  have hpage : ∀ q ∈ S.part ++ S.full, ∀ x, slabAddr q ≤ x → x < slabAddr q + 4096 →
      m' x = m x := fun q hq x hx hx' => hm x ⟨q, hq, hx, hx'⟩
  refine ⟨fun q hq => (h.slab q hq).congr_page hz (hpage q hq), h.nodup, h.lt,
    h.linked.congr (fun x hx => ?_) fun x hx => ?_⟩
  all_goals
    obtain ⟨q, hq, rfl⟩ := List.mem_map.mp hx
    have hq' : q ∈ S.part ++ S.full := List.mem_append_left _ hq
    exact Mem.load_congr fun i hi => hpage q hq' _ (by omega) (by omega)

theorem CacheInv.congr (h : CacheInv m addr c S) (hz : Fits c.objSize)
    (hm : Mem.AgreeOn (frameBytes S.frames) m m') : CacheInv m' addr c S :=
  ⟨h.toCacheCore.congr hz hm, h.part_free, h.full_free, h.used⟩

/-! ## Objects -/

/-- The live objects, when those of one slab change. -/
theorem flatMap_set {l : List ℕ} (hl : l.Nodup) (hq : q ∈ l) :
    (l.flatMap (S.set q free live).live).Perm (live ++ (l.erase q).flatMap S.live) := by
  have hperm := (List.perm_cons_erase hq).flatMap_right (S.set q free live).live
  rw [List.flatMap_cons, Slabs.set_live_self] at hperm
  have hrest : (l.erase q).flatMap (S.set q free live).live = (l.erase q).flatMap S.live := by
    refine List.flatMap_congr fun r hr => Slabs.set_live_of_ne fun heq => ?_
    exact (hl.not_mem_erase (heq ▸ hr)).elim
  rwa [hrest] at hperm

theorem flatMap_split {l : List ℕ} (hq : q ∈ l) :
    (l.flatMap S.live).Perm (S.live q ++ (l.erase q).flatMap S.live) := by
  have hperm := (List.perm_cons_erase hq).flatMap_right S.live
  rwa [List.flatMap_cons] at hperm

theorem Slabs.mem_objects : x ∈ S.objects ↔ ∃ q ∈ S.part ++ S.full, x ∈ S.live q :=
  List.mem_flatMap

/-! ## Taking an object from the partial list -/

theorem popObject_eq (c : KmemCache) (header : ℕ) (m : Mem) : popObject c header m
    = if freelist (takeObject m header) header = 0 then
        (freelist m header, dropHead c header (takeObject m header))
      else (freelist m header, c, takeObject m header) := rfl

/-- What is left when the first object of the head of the partial list is taken. -/
def afterPop (S : Slabs) (q x : ℕ) (rest part : List ℕ) : Slabs :=
  if rest = [] then { S.set q rest (x :: S.live q) with part := part, full := q :: S.full }
  else S.set q rest (x :: S.live q)

/-- **Popping an object.** -/
theorem CacheCore.pop {part rest : List ℕ} (h : CacheCore m addr c S) (hz : Fits c.objSize)
    (hpart : S.part = q :: part) (hfree : S.free q = x :: rest) :
    ∃ c' m', popObject c (slabAddr q) m = (x, c', m') ∧ c'.objSize = c.objSize ∧
      CacheCore m' addr c' (afterPop S q x rest part) ∧ HeadersOnly S m m' := by
  have hq : q ∈ S.part ++ S.full := by simp [hpart]
  have hslab := h.slab q hq
  rw [hfree] at hslab
  obtain ⟨htake, hhead, hnull⟩ := hslab.take hz
  have hcore := h.setSlab hz hq htake (fun y hy => takeObject_apply (by omega))
    fun y hy _ => takeObject_apply (by omega)
  have hheaders : HeadersOnly S m (takeObject m (slabAddr q)) := fun y hy =>
    takeObject_apply (by have := hy q hq; omega)
  rw [popObject_eq, hhead, afterPop]
  by_cases hrest : rest = []
  · have hdrop := hcore.drop hz (q := q) hpart
    rw [if_pos (hnull.mpr hrest), if_pos hrest]
    exact ⟨_, _, rfl, rfl, hdrop.1, fun y hy =>
      (hdrop.2.headers y hy).trans (hheaders y hy)⟩
  · rw [if_neg (hnull.not.mpr hrest), if_neg hrest]
    exact ⟨c, _, rfl, rfl, hcore, hheaders⟩

/-- The frames and the objects after it. -/
theorem afterPop_perm {part rest : List ℕ} (hpart : S.part = q :: part) :
    ((afterPop S q x rest part).part ++ (afterPop S q x rest part).full).Perm
      (S.part ++ S.full) := by
  rw [afterPop]
  split
  · rw [hpart]
    exact List.perm_middle
  · exact .refl _

theorem afterPop_live {part rest : List ℕ} :
    (afterPop S q x rest part).live = (S.set q rest (x :: S.live q)).live := by
  rw [afterPop]
  split <;> rfl

theorem afterPop_free {part rest : List ℕ} :
    (afterPop S q x rest part).free = (S.set q rest (x :: S.live q)).free := by
  rw [afterPop]
  split <;> rfl

theorem afterPop_objects {part rest : List ℕ} (hnd : (S.part ++ S.full).Nodup)
    (hpart : S.part = q :: part) :
    (afterPop S q x rest part).objects.Perm (x :: S.objects) := by
  have hq : q ∈ S.part ++ S.full := by simp [hpart]
  rw [Slabs.objects, afterPop_live]
  refine ((afterPop_perm hpart).flatMap_right _).trans ((flatMap_set hnd hq).trans ?_)
  exact List.Perm.cons x (flatMap_split hq).symm

/-- **What holds between calls holds again after it.** -/
theorem afterPop_inv {part rest : List ℕ} (hcore : CacheCore m addr c (afterPop S q x rest part))
    (hnd : (S.part ++ S.full).Nodup) (hpart : S.part = q :: part)
    (hpf : ∀ r ∈ S.part, r ≠ q → S.free r ≠ []) (hff : ∀ r ∈ S.full, S.free r = [])
    (hused : ∀ r ∈ S.part ++ S.full, r ≠ q → S.live r ≠ []) :
    CacheInv m addr c (afterPop S q x rest part) := by
  have hperm : ((afterPop S q x rest part).part ++ (afterPop S q x rest part).full).Perm
      (S.part ++ S.full) := afterPop_perm hpart
  rw [hpart, List.cons_append, List.nodup_cons] at hnd
  have hout : ∀ r, r ∈ part ∨ r ∈ S.full → r ≠ q := fun r hr heq =>
    hnd.1 (List.mem_append.mpr (heq ▸ hr))
  refine ⟨hcore, fun r hr => ?_, fun r hr => ?_, fun r hr => ?_⟩
  · by_cases hrq : r = q
    · subst hrq
      rw [afterPop_free, Slabs.set_free_self]
      rintro rfl
      rw [afterPop, if_pos rfl] at hr
      exact hout r (Or.inl hr) rfl
    · rw [afterPop_free, Slabs.set_free_of_ne hrq]
      refine hpf r ?_ hrq
      rw [afterPop] at hr
      split at hr
      · rw [hpart]
        exact List.mem_cons_of_mem _ hr
      · exact hr
  · by_cases hrq : r = q
    · subst hrq
      rw [afterPop_free, Slabs.set_free_self]
      rw [afterPop] at hr
      split at hr
      · assumption
      · exact absurd rfl (hout r (Or.inr hr))
    · rw [afterPop_free, Slabs.set_free_of_ne hrq]
      refine hff r ?_
      rw [afterPop] at hr
      split at hr
      · exact (List.mem_cons.mp hr).resolve_left hrq
      · exact hr
  · by_cases hrq : r = q
    · rw [hrq, afterPop_live, Slabs.set_live_self]
      exact List.cons_ne_nil _ _
    · rw [afterPop_live, Slabs.set_live_of_ne hrq]
      exact hused r (hperm.subset hr) hrq

/-! ## Adding and dropping a slab -/

/-- A page becomes a slab of its own. -/
theorem CacheCore.add (h : CacheCore m addr c S) (hz : Fits c.objSize) (hq : q ∉ S.frames)
    (hlt : q < 2 ^ 35) (hslab : SlabOk m' addr c.objSize q free live)
    (hframe : ∀ x, x < slabAddr q ∨ slabAddr q + 4096 ≤ x → m' x = m x) :
    CacheCore m' addr c (Slabs.set { S with full := q :: S.full } q free live) := by
  have hagree : Mem.AgreeOn (frameBytes S.frames) m m' := by
    rintro x ⟨r, hr, hx, hx'⟩
    have hapart := slabAddr_apart (show r ≠ q from fun heq => hq (heq ▸ hr))
    exact hframe x (by omega)
  have hold := h.congr hz hagree
  have hperm : (S.part ++ q :: S.full).Perm (q :: (S.part ++ S.full)) := List.perm_middle
  refine ⟨fun r hr => ?_, hperm.nodup_iff.mpr (List.nodup_cons.mpr ⟨hq, h.nodup⟩), fun r hr => ?_,
    hold.linked⟩
  · by_cases hrq : r = q
    · subst hrq
      rw [Slabs.set_free_self, Slabs.set_live_self]
      exact hslab
    · rw [Slabs.set_free_of_ne hrq, Slabs.set_live_of_ne hrq]
      exact hold.slab r ((List.mem_cons.mp (hperm.subset hr)).resolve_left hrq)
  · rcases List.mem_cons.mp (hperm.subset hr) with rfl | hr
    · exact hlt
    · exact h.lt r hr

/-- A page that is on no list any more. -/
theorem CacheCore.dropFull {full : List ℕ} (h : CacheCore m addr c S)
    (hfull : S.full = q :: full) :
    q ∉ S.part ++ full ∧ CacheCore m addr c { S with full := full } := by
  have hperm : (S.part ++ S.full).Perm (q :: (S.part ++ full)) := by
    rw [hfull]
    exact List.perm_middle
  have hnd := List.nodup_cons.mp (hperm.nodup_iff.mp h.nodup)
  have hsub : ∀ r ∈ S.part ++ full, r ∈ S.part ++ S.full := fun r hr =>
    hperm.symm.subset (List.mem_cons_of_mem _ hr)
  exact ⟨hnd.1, fun r hr => h.slab r (hsub r hr), hnd.2, fun r hr => h.lt r (hsub r hr), h.linked⟩

/-! ## `alloc` -/

variable {σ : Type} {P : PageSource σ} {Inv : σ → Set ℕ → Prop} {s s' : σ} {H : Set ℕ}

/-- The bytes of held pages that are in no header keep their values. -/
def KeepsObjects (S : Slabs) (m m' : Mem) : Prop :=
  ∀ x, (∃ q ∈ S.part ++ S.full, slabAddr q + 48 ≤ x ∧ x < slabAddr q + 4096) → m' x = m x

/-- A byte of a page behind its header is in no header. -/
theorem apart_header (h : slabAddr q + 48 ≤ x) (h' : x < slabAddr q + 4096) (r : ℕ) :
    x < slabAddr r ∨ slabAddr r + 48 ≤ x := by
  by_cases hrq : r = q
  · rw [hrq]
    exact Or.inr h
  · have hapart := slabAddr_apart hrq
    omega

/-- A byte of no held page is in none of them. -/
theorem apart_pages {l : List ℕ} (hx : x ∈ (frameBytes {r | r ∈ l})ᶜ) :
    ∀ r ∈ l, x < slabAddr r ∨ slabAddr r + 4096 ≤ x := by
  intro r hr
  by_contra hin
  exact hx ⟨r, hr, by omega, by omega⟩

theorem HeadersOnly.keepsObjects (h : HeadersOnly S m m') : KeepsObjects S m m' := by
  rintro x ⟨q, -, hx, hx'⟩
  exact h x fun r _ => apart_header hx hx' r

theorem virtAddr_eq (h : q < 2 ^ 35) : u64 (q * pageSize + hhdmBase) = slabAddr q := by
  have hlt := slabAddr_lt h
  rw [slabAddr] at hlt ⊢
  rw [u64_of_lt (by omega)]
  omega

/-- A formatted page is a slab with all its objects free. -/
theorem Formatted.slabOk (h : Formatted addr (slabAddr q) objSize m m') :
    SlabOk m' addr objSize q (slots (slabAddr q) objSize) [] :=
  ⟨h.magic_eq, h.cache_eq, h.inuse_eq, h.maxObjs_eq, h.chain, by simp⟩

theorem slots_ne_nil (hz : Fits objSize) : slots (slabAddr q) objSize ≠ [] := by
  have hpos := (slotCount_pos_iff hz.dvd hz.ge).mpr hz.le
  intro hnil
  have hlen : (slots (slabAddr q) objSize).length = slotCount objSize := length_slots
  rw [hnil, List.length_nil] at hlen
  omega

/-- A new slab at the head of the partial list. -/
def withNew (S : Slabs) (q : ℕ) (free : List ℕ) : Slabs :=
  Slabs.set { S with part := q :: S.part } q free []

theorem withNew_objects (hq : q ∉ S.frames) : (withNew S q free).objects = S.objects := by
  have hlive : ∀ r ∈ S.part ++ S.full, (withNew S q free).live r = S.live r := fun r hr => by
    have hrq : r ≠ q := fun heq => hq (heq ▸ hr)
    exact Function.update_of_ne hrq ..
  have hself : (withNew S q free).live q = [] := Function.update_self ..
  change (q :: (S.part ++ S.full)).flatMap _ = _
  rw [List.flatMap_cons, hself, List.nil_append]
  exact List.flatMap_congr hlive

/-- **A fresh page becomes the head of the partial list.** -/
theorem CacheCore.new (h : CacheCore m addr c S) (hz : Fits c.objSize) (haddr : addr < 2 ^ 64)
    (hq : q ∉ S.frames) (hlt : q < 2 ^ 35) :
    ∃ m₁ c' m', formatNewSlab addr c (slabAddr q) (slabAddr q) m = some m₁ ∧
      pushPartial c (slabAddr q) m₁ = (c', m') ∧ c'.objSize = c.objSize ∧
      CacheCore m' addr c' (withNew S q (slots (slabAddr q) c.objSize)) ∧
      ∀ x, (x < slabAddr q ∨ slabAddr q + 4096 ≤ x) →
        (∀ r ∈ S.part ++ S.full, x < slabAddr r ∨ slabAddr r + 48 ≤ x) → m' x = m x := by
  have hend := slabAddr_lt hlt
  obtain ⟨m₁, hformat, hformatted⟩ := formatNewSlab_spec hz.dvd hz.ge hz.le
    (pageSize_dvd_slabAddr q) hend haddr m
  have hadd := h.add hz hq hlt hformatted.slabOk fun x hx => hformatted.frame x hx
  have hpush := hadd.push hz (q := q) List.mem_cons_self
  have hS : { Slabs.set { S with full := q :: S.full } q (slots (slabAddr q) c.objSize) [] with
      part := q :: S.part, full := (q :: S.full).erase q }
        = withNew S q (slots (slabAddr q) c.objSize) := by
    rw [List.erase_cons_head]
    rfl
  have hcore := hpush.1
  rw [Slabs.set_part, Slabs.set_full, hS] at hcore
  refine ⟨m₁, _, _, hformat, rfl, rfl, hcore, fun x hx hx' => ?_⟩
  refine (hpush.2.headers x fun r hr => ?_).trans (hformatted.frame x hx)
  have hr' : r ∈ q :: (S.part ++ S.full) := List.perm_middle.subset hr
  rcases List.mem_cons.mp hr' with rfl | hr'
  · omega
  · exact hx' r hr'

/-- `alloc` when the partial list is empty and the page source has a page. -/
theorem alloc_new {p v : ℕ} {s₁ : σ} {c₂ : KmemCache} {m₁ m₂ m₃ : Mem} (hnull : c.partialList = 0)
    (heq : P.allocPages s 1 = some (p, s₁)) (hp : p ≠ 0) (hv : u64 (p + hhdmBase) = v)
    (hformat : formatNewSlab addr c v v (P.mem s₁) = some m₁)
    (hpush : pushPartial c v m₁ = (c₂, m₂)) (hpop : popObject c₂ v m₂ = (x, c', m₃)) :
    alloc P addr c s = some (x, c', P.setMem s₁ m₃) := by
  delta alloc
  -- the three parts are not to be unfolded
  generalize formatNewSlab = format at hformat ⊢
  generalize pushPartial = push at hpush ⊢
  generalize popObject = pop at hpop ⊢
  rw [if_pos hnull, heq, Option.bind_some]
  refine (if_neg hp).trans ?_
  rw [hv]
  extract_lets w
  rw [show format addr c w w (P.mem s₁) = some m₁ from hformat, Option.map_some,
    show push c w m₁ = (c₂, m₂) from hpush]
  exact congrArg (fun r : ℕ × KmemCache × Mem => some (r.1, r.2.1, P.setMem s₁ r.2.2)) hpop

/-- `alloc` from the head of the partial list. -/
theorem alloc_old {m₃ : Mem} (hnull : c.partialList ≠ 0)
    (hpop : popObject c c.partialList (P.mem s) = (x, c', m₃)) :
    alloc P addr c s = some (x, c', P.setMem s m₃) := by
  delta alloc
  generalize popObject = pop at hpop ⊢
  rw [if_neg hnull]
  exact congrArg (fun r : ℕ × KmemCache × Mem => some (r.1, r.2.1, P.setMem s r.2.2)) hpop

/-- `alloc` when the page source has no page. -/
theorem alloc_none {s₁ : σ} (hnull : c.partialList = 0) (heq : P.allocPages s 1 = some (0, s₁)) :
    alloc P addr c s = some (0, c, s₁) := by
  delta alloc
  rw [if_pos hnull, heq, Option.bind_some]
  exact if_pos rfl

/-- **The memory side of `alloc` with a new page**: the page becomes a slab, and its first object is
taken. -/
theorem CacheInv.allocNew (h : CacheInv m addr c S) (hz : Fits c.objSize) (haddr : addr < 2 ^ 64)
    (hq : q ∉ S.frames) (hlt : q < 2 ^ 35) :
    ∃ x c' c₂ m₁ m₂ m₃ S', formatNewSlab addr c (slabAddr q) (slabAddr q) m = some m₁ ∧
      pushPartial c (slabAddr q) m₁ = (c₂, m₂) ∧ popObject c₂ (slabAddr q) m₂ = (x, c', m₃) ∧
      c'.objSize = c.objSize ∧ CacheInv m₃ addr c' S' ∧ S'.frames = insert q S.frames ∧
      S'.objects.Perm (x :: S.objects) ∧
      ∀ y, (y < slabAddr q ∨ slabAddr q + 4096 ≤ y) →
        (∀ r ∈ S.part ++ S.full, y < slabAddr r ∨ slabAddr r + 48 ≤ y) → m₃ y = m y := by
  obtain ⟨m₁, c₂, m₂, hformat, hpush, hobj₂, hcore₂, hframe₂⟩ := h.toCacheCore.new hz haddr hq hlt
  obtain ⟨x, rest, hslots⟩ := List.exists_cons_of_ne_nil (slots_ne_nil (q := q) hz)
  rw [hslots] at hcore₂
  obtain ⟨c', m₃, hpop, hobj, hcore₃, hheaders⟩ :
      ∃ c' m₃, popObject c₂ (slabAddr q) m₂ = (x, c', m₃) ∧ c'.objSize = c₂.objSize ∧
        CacheCore m₃ addr c' (afterPop (withNew S q (x :: rest)) q x rest S.part) ∧
        HeadersOnly (withNew S q (x :: rest)) m₂ m₃ :=
    hcore₂.pop (by rwa [hobj₂]) rfl Slabs.set_free_self
  have hinv := afterPop_inv hcore₃ hcore₂.nodup rfl
    (fun r hr hrq => by
      have hr' := (List.mem_cons.mp hr).resolve_left hrq
      rw [withNew, Slabs.set_free_of_ne hrq]
      exact h.part_free r hr')
    (fun r hr => by
      have hrq : r ≠ q := fun heq => hq (heq ▸ List.mem_append_right _ hr)
      rw [withNew, Slabs.set_free_of_ne hrq]
      exact h.full_free r hr)
    (fun r hr hrq => by
      have hr' := (List.mem_cons.mp hr).resolve_left hrq
      rw [withNew, Slabs.set_live_of_ne hrq]
      exact h.used r hr')
  have hobjects : (afterPop (withNew S q (x :: rest)) q x rest S.part).objects.Perm
      (x :: (withNew S q (x :: rest)).objects) := afterPop_objects hcore₂.nodup rfl
  rw [withNew_objects hq] at hobjects
  refine ⟨x, c', c₂, m₁, m₂, m₃, _, hformat, hpush, hpop, hobj.trans hobj₂, hinv, ?_, hobjects,
    fun y hy hy' => ?_⟩
  · ext r
    exact (afterPop_perm (S := withNew S q (x :: rest)) rfl).mem_iff.trans List.mem_cons
  · refine (hheaders y fun r hr => ?_).trans (hframe₂ y hy hy')
    rcases List.mem_cons.mp hr with rfl | hr
    · omega
    · exact hy' r hr

/-- **What a call of `alloc` leaves** that returns `x`. -/
structure Allocated (P : PageSource σ) (Inv : σ → Set ℕ → Prop) (addr : ℕ) (c : KmemCache) (s : σ)
    (S : Slabs) (x : ℕ) (c' : KmemCache) (s' : σ) (S' : Slabs) : Prop where
  objSize : c'.objSize = c.objSize
  source : Inv s' S'.frames
  cache : CacheInv (P.mem s') addr c' S'
  objects : S'.objects.Perm (x :: S.objects)
  keeps : KeepsObjects S (P.mem s) (P.mem s')

/-- `alloc` when a new page is needed, and there is one. -/
theorem alloc_fresh {s₁ : σ} (hP : HandsOut P Inv) (h : CacheInv (P.mem s) addr c S)
    (hz : Fits c.objSize) (haddr : addr < 2 ^ 64) (hnull : c.partialList = 0)
    (heq : P.allocPages s 1 = some (q * pageSize, s₁)) (hpos : 0 < q) (hq : q ∉ S.frames)
    (hs₁ : Inv s₁ (insert q S.frames))
    (hagree : Mem.AgreeOn (frameBytes S.frames) (P.mem s) (P.mem s₁)) :
    ∃ x c' s' S', alloc P addr c s = some (x, c', s') ∧ Allocated P Inv addr c s S x c' s' S' := by
  have hlt := hP.lt hs₁ q (Set.mem_insert q _)
  have hne : ¬ q * pageSize = 0 := Nat.mul_ne_zero hpos.ne' (by decide)
  obtain ⟨x, c', c₂, m₁, m₂, m₃, S', hformat, hpush, hpop, hobj, hinv, hframes, hobjects, hframe⟩ :=
    (h.congr hz hagree).allocNew hz haddr hq hlt
  refine ⟨x, c', P.setMem s₁ m₃, S',
    alloc_new hnull heq hne (virtAddr_eq hlt) hformat hpush hpop, hobj, ?_, ?_, hobjects, ?_⟩
  · rw [hframes]
    refine hP.write hs₁ fun y hy => ?_
    have hout : ∀ r ∈ q :: (S.part ++ S.full), y < slabAddr r ∨ slabAddr r + 4096 ≤ y :=
      apart_pages fun ⟨r, hr, hy'⟩ => hy ⟨r, List.mem_cons.mp hr, hy'⟩
    exact hframe y (hout q List.mem_cons_self) fun r hr =>
      (hout r (List.mem_cons_of_mem _ hr)).imp_right fun hge => by omega
  · rw [hP.mem_setMem]
    exact hinv
  · rw [hP.mem_setMem]
    rintro y ⟨r, hr, hy, hy'⟩
    have hrq := slabAddr_apart (show r ≠ q from fun heq => hq (heq ▸ hr))
    rw [hframe y (by omega) fun a _ => apart_header hy hy' a]
    exact hagree y ⟨r, hr, by omega, hy'⟩

/-- `alloc` when a slab has a free object. -/
theorem alloc_fromPartial (hP : HandsOut P Inv) (hs : Inv s S.frames) (h : CacheInv (P.mem s) addr c S)
    (hz : Fits c.objSize) (hnull : c.partialList ≠ 0) :
    ∃ x c' s' S', alloc P addr c s = some (x, c', s') ∧ Allocated P Inv addr c s S x c' s' S' := by
  rcases h.head with ⟨h0, -⟩ | ⟨q, part, hpart, hhead⟩
  · exact absurd h0 hnull
  have hq : q ∈ S.part := by simp [hpart]
  obtain ⟨x, rest, hfree⟩ := List.exists_cons_of_ne_nil (h.part_free q hq)
  obtain ⟨c', m', hpop, hobj, hcore, hheaders⟩ := h.toCacheCore.pop hz hpart hfree
  have hinv := afterPop_inv hcore h.nodup hpart (fun r hr _ => h.part_free r hr) h.full_free
    fun r hr _ => h.used r hr
  have hframes : (afterPop S q x rest part).frames = S.frames :=
    Set.ext fun r => (afterPop_perm hpart).mem_iff
  refine ⟨x, c', P.setMem s m', afterPop S q x rest part, alloc_old hnull (hhead ▸ hpop), hobj,
    ?_, ?_, afterPop_objects h.nodup hpart, ?_⟩
  · rw [hframes]
    exact hP.write hs hheaders.agreeOn
  · rw [hP.mem_setMem]
    exact hinv
  · rw [hP.mem_setMem]
    exact hheaders.keepsObjects

/-- **What `alloc` does**: it returns an object that no caller has, or nothing when the page source
has no page. -/
theorem alloc_spec (hP : HandsOut P Inv) (hs : Inv s S.frames)
    (h : CacheInv (P.mem s) addr c S) (hz : Fits c.objSize) (haddr : addr < 2 ^ 64) :
    (∃ s', alloc P addr c s = some (0, c, s') ∧ Inv s' S.frames ∧
      Mem.AgreeOn (frameBytes S.frames) (P.mem s) (P.mem s') ∧ P.allocPages s 1 = some (0, s')) ∨
    ∃ x c' s' S', alloc P addr c s = some (x, c', s') ∧ Allocated P Inv addr c s S x c' s' S' := by
  by_cases hnull : c.partialList = 0
  · rcases hP.alloc hs with ⟨s₁, heq, hs₁, hagree⟩ | ⟨q, s₁, heq, hpos, hq, hs₁, hagree⟩
    · exact Or.inl ⟨s₁, alloc_none hnull heq, hs₁, hagree, heq⟩
    · exact Or.inr (alloc_fresh hP h hz haddr hnull heq hpos hq hs₁ hagree)
  · exact Or.inr (alloc_fromPartial hP hs h hz hnull)

/-! ## `free` -/

/-- The partial list after an object is back: a slab that was full is partial now. -/
def pushedIfWasFull (c : KmemCache) (header : ℕ) (m : Mem) : KmemCache × Mem :=
  if inuse m header = sub32 (maxObjs m header) 1 then pushPartial c header m else (c, m)

/-- The end of `free`: a slab without live objects is returned. -/
def returnedIfEmpty (P : PageSource σ) (c : KmemCache) (header : ℕ) (s : σ) (m : Mem) :
    KmemCache × σ :=
  if inuse m header = 0 then
    ((unlinkPartial c header m).1,
      P.freePages (P.setMem s (unlinkPartial c header m).2) (sub64 header hhdmBase) 1)
  else (c, P.setMem s m)

/-- `free` of an object of a slab of the cache. -/
theorem free_eq (hx : x ≠ 0) (hmagic : magic (P.mem s) (alignDown x pageSize) = slabMagic)
    (hcache : cache (P.mem s) (alignDown x pageSize) = addr) :
    KmemCache.free P addr c s x =
      let header := alignDown x pageSize
      let r := pushedIfWasFull c header (putObject (P.mem s) header x)
      some (returnedIfEmpty P r.1 header s r.2) := by
  rw [KmemCache.free, if_neg hx]
  simp only [hmagic, hcache, ne_eq, not_true_eq_false, or_self, if_false]
  change (if inuse (pushedIfWasFull c _ (putObject (P.mem s) _ x)).2 _ = 0 then _ else _) = _
  dsimp only [returnedIfEmpty]
  split <;> rfl

theorem unlinkPartial_objSize (c : KmemCache) (header : ℕ) (m : Mem) :
    (unlinkPartial c header m).1.objSize = c.objSize := by
  simp only [unlinkPartial]
  split <;> rfl

theorem physAddr_eq (h : q < 2 ^ 35) : sub64 (slabAddr q) hhdmBase = q * pageSize := by
  have hlt := slabAddr_lt h
  rw [slabAddr] at hlt ⊢
  rw [sub64_of_le (by omega) (Nat.le_add_right _ _), Nat.add_sub_cancel_left]

/-- **An object is back in its slab**, which is on the partial list then; a slab without live objects
is not returned yet. -/
structure PutBack (addr : ℕ) (S : Slabs) (q x : ℕ) (m : Mem) (c' : KmemCache) (m' : Mem) (S' : Slabs) :
    Prop where
  core : CacheCore m' addr c' S'
  head : q ∈ S'.part
  perm : (S'.part ++ S'.full).Perm (S.part ++ S.full)
  free : S'.free = (S.set q (x :: S.free q) ((S.live q).erase x)).free
  live : S'.live = (S.set q (x :: S.free q) ((S.live q).erase x)).live
  part : ∀ r ∈ S'.part, r ≠ q → r ∈ S.part
  order : S'.part.erase q = S.part.erase q
  full : ∀ r ∈ S'.full, r ≠ q ∧ r ∈ S.full
  frame : ∀ y, (∀ r ∈ S.part ++ S.full, y < slabAddr r ∨ slabAddr r + 48 ≤ y) →
    (y < x ∨ x + 8 ≤ y) → m' y = m y

/-- **What `free` of an object changes**: the object is the first free one of its slab `q`, or the slab
is gone with it.  The other slabs stay, and those on the partial list keep their order. -/
structure Freed (S : Slabs) (q x : ℕ) (S' : Slabs) : Prop where
  mem : q ∈ S.frames
  live : x ∈ S.live q
  own : q ∈ S'.frames ∧ S'.free q = x :: S.free q ∧ S'.live q = (S.live q).erase x ∨
    q ∉ S'.frames ∧ (S.live q).erase x = []
  frames : ∀ r, r ≠ q → (r ∈ S'.frames ↔ r ∈ S.frames)
  part : S'.part.erase q = S.part.erase q
  free_of : ∀ r, r ≠ q → S'.free r = S.free r
  live_of : ∀ r, r ≠ q → S'.live r = S.live r

namespace Freed

variable {S' : Slabs}

theorem subset (h : Freed S q x S') : S'.frames ⊆ S.frames := fun r hr => by
  by_cases hrq : r = q
  · exact hrq ▸ h.mem
  · exact (h.frames r hrq).mp hr

/-- Only the page of this slab may be gone. -/
theorem frames_diff (h : Freed S q x S') : S.frames \ S'.frames = {q} \ S'.frames := by
  ext r
  refine and_congr_left fun hr => ⟨fun hrS => ?_, fun hrq => ?_⟩
  · by_contra hrq
    exact hr ((h.frames r hrq).mpr hrS)
  · rw [Set.mem_singleton_iff.mp hrq]
    exact h.mem

end Freed

/-- **An object goes back to its slab.** -/
theorem CacheInv.putBack (h : CacheInv m addr c S) (hz : Fits c.objSize) (hq : q ∈ S.part ++ S.full)
    (hxq : x ∈ S.live q) :
    ∃ c₂ m₂ S₂, pushedIfWasFull c (slabAddr q) (putObject m (slabAddr q) x) = (c₂, m₂) ∧
      c₂.objSize = c.objSize ∧ PutBack addr S q x m c₂ m₂ S₂ := by
  have hslab := h.slab q hq
  have hlt := h.lt q hq
  obtain ⟨hlow, hhigh⟩ := mem_slots_bounds hz (hslab.mem_live hxq)
  have hge := hz.ge
  have hput := hslab.put hz hlt hxq
  have hcore := h.toCacheCore.setSlab hz hq hput
    (fun y hy => putObject_apply (by omega) (by omega))
    fun y hy hy' => putObject_apply (by omega) (by omega)
  -- what the two counts say
  have hlen := hslab.length
  have hcount := slotCount_le hz
  have hpos : 0 < (S.live q).length := List.length_pos_of_mem hxq
  have hwas : inuse (putObject m (slabAddr q) x) (slabAddr q)
      = sub32 (maxObjs (putObject m (slabAddr q) x) (slabAddr q)) 1 ↔ S.free q = [] := by
    rw [hput.inuse_eq, hput.maxObjs_eq, List.length_erase_of_mem hxq, sub32_eq,
      ← List.length_eq_zero_iff]
    omega
  by_cases hfull : S.free q = []
  · have hin : q ∈ S.full :=
      (List.mem_append.mp hq).resolve_left fun hin => h.part_free q hin hfull
    have hpushed := hcore.push hz (q := q) hin
    have hobj : (pushPartial c (slabAddr q) (putObject m (slabAddr q) x)).1.objSize = c.objSize := rfl
    have heq : pushedIfWasFull c (slabAddr q) (putObject m (slabAddr q) x)
        = pushPartial c (slabAddr q) (putObject m (slabAddr q) x) := if_pos (hwas.mpr hfull)
    generalize pushPartial c (slabAddr q) (putObject m (slabAddr q) x) = pushed at *
    have hnd : S.full.Nodup := (List.nodup_append.mp h.nodup).2.1
    have hout : q ∉ S.part := fun hpart => h.part_free q hpart hfull
    refine ⟨pushed.1, pushed.2, { S.set q (x :: S.free q) ((S.live q).erase x) with
      part := q :: S.part, full := S.full.erase q }, heq, hobj, hpushed.1, List.mem_cons_self, ?_,
      rfl, rfl, fun r hr hrq => (List.mem_cons.mp hr).resolve_left hrq, ?_,
      fun r hr => (hnd.mem_erase_iff).mp hr, fun y hy hy' => ?_⟩
    · exact List.perm_middle.symm.trans
        (List.Perm.append_left _ (List.perm_cons_erase hin).symm)
    · exact (List.erase_cons_head ..).trans (List.erase_of_not_mem hout).symm
    · rw [hpushed.2.headers y hy]
      exact putObject_apply (by have := hy q hq; omega) hy'
  · have hin : q ∈ S.part :=
      (List.mem_append.mp hq).resolve_right fun hin => hfull (h.full_free q hin)
    refine ⟨c, putObject m (slabAddr q) x, S.set q (x :: S.free q) ((S.live q).erase x),
      if_neg (hwas.not.mpr hfull), rfl, hcore, hin, .refl _, rfl, rfl, fun r hr _ => hr, rfl,
      fun r hr => ⟨?_, hr⟩, fun y hy hy' => ?_⟩
    · rintro rfl
      exact hfull (h.full_free r hr)
    · exact putObject_apply (by have := hy q hq; omega) hy'

namespace PutBack

variable {S' : Slabs}

theorem free_of (h : PutBack addr S q x m c' m' S') {r : ℕ} (hr : r ≠ q) : S'.free r = S.free r := by
  rw [h.free, Slabs.set_free_of_ne hr]

theorem live_of (h : PutBack addr S q x m c' m' S') {r : ℕ} (hr : r ≠ q) : S'.live r = S.live r := by
  rw [h.live, Slabs.set_live_of_ne hr]

theorem live_self (h : PutBack addr S q x m c' m' S') : S'.live q = (S.live q).erase x := by
  rw [h.live, Slabs.set_live_self]

theorem frames (h : PutBack addr S q x m c' m' S') : S'.frames = S.frames :=
  Set.ext fun _ => h.perm.mem_iff

theorem inuse_eq (h : PutBack addr S q x m c' m' S') :
    inuse m' (slabAddr q) = ((S.live q).erase x).length := by
  rw [(h.core.slab q (List.mem_append_left _ h.head)).inuse_eq, h.live_self]

/-- The object is gone from the live ones. -/
theorem objects (h : PutBack addr S q x m c' m' S') (hnd : (S.part ++ S.full).Nodup)
    (hq : q ∈ S.part ++ S.full) (hxq : x ∈ S.live q) : S'.objects.Perm (S.objects.erase x) := by
  change ((S'.part ++ S'.full).flatMap S'.live).Perm _
  rw [h.live]
  refine (h.perm.flatMap_right _).trans ((flatMap_set hnd hq).trans ?_)
  have hsplit := (flatMap_split (S := S) hq).erase x
  rw [List.erase_append_left _ hxq] at hsplit
  exact hsplit.symm

/-- **A slab that keeps live objects** stays. -/
theorem cacheInv (h : PutBack addr S q x m c' m' S') (hinv : CacheInv m addr c S)
    (hne : (S.live q).erase x ≠ []) : CacheInv m' addr c' S' := by
  refine ⟨h.core, fun r hr => ?_, fun r hr => ?_, fun r hr => ?_⟩
  · by_cases hrq : r = q
    · rw [hrq, h.free, Slabs.set_free_self]
      exact List.cons_ne_nil _ _
    · rw [h.free_of hrq]
      exact hinv.part_free r (h.part r hr hrq)
  · rw [h.free_of (h.full r hr).1]
    exact hinv.full_free r (h.full r hr).2
  · by_cases hrq : r = q
    · rw [hrq, h.live_self]
      exact hne
    · rw [h.live_of hrq]
      exact hinv.used r (h.perm.subset hr)

/-- The object is the first free one of its slab. -/
theorem freed (h : PutBack addr S q x m c' m' S') (hxq : x ∈ S.live q) : Freed S q x S' where
  mem := h.perm.subset (List.mem_append_left _ h.head)
  live := hxq
  own := Or.inl ⟨List.mem_append_left _ h.head, by rw [h.free, Slabs.set_free_self], h.live_self⟩
  frames _ _ := h.perm.mem_iff
  part := h.order
  free_of _ := h.free_of
  live_of _ := h.live_of

/-- The slab is gone with its last object. -/
theorem freed_drop (h : PutBack addr S q x m c' m' S') (hxq : x ∈ S.live q)
    (hempty : (S.live q).erase x = []) (hframes : (S'.drop q).frames = S.frames \ {q}) :
    Freed S q x (S'.drop q) where
  mem := h.perm.subset (List.mem_append_left _ h.head)
  live := hxq
  own := Or.inr ⟨fun hq => (hframes ▸ hq : q ∈ S.frames \ {q}).2 rfl, hempty⟩
  frames r hr := by
    rw [hframes]
    exact and_iff_left hr
  part := by
    have hnd : S'.part.Nodup := (List.nodup_append.mp h.core.nodup).1
    exact (List.erase_of_not_mem hnd.not_mem_erase).trans h.order
  free_of _ := h.free_of
  live_of _ := h.live_of

/-- **A slab without live objects** leaves the list, and the cache is one without its page. -/
theorem unlink (h : PutBack addr S q x m c' m' S') (hinv : CacheInv m addr c S)
    (hz : Fits c'.objSize) (hempty : (S.live q).erase x = []) :
    ∃ c'' m'', unlinkPartial c' (slabAddr q) m' = (c'', m'') ∧ c''.objSize = c'.objSize ∧
      CacheInv m'' addr c'' (S'.drop q) ∧ (S'.drop q).frames = S.frames \ {q} ∧
      (S'.drop q).objects.Perm S'.objects ∧
      (magic m'' (slabAddr q) = slabMagic ∧ cache m'' (slabAddr q) = addr) ∧
      ∀ y, (∀ r ∈ S.part ++ S.full, y < slabAddr r ∨ slabAddr r + 48 ≤ y) →
        (y < x ∨ x + 8 ≤ y) → m'' y = m y := by
  obtain ⟨hcore, honly⟩ := h.core.unlink hz h.head
  have hobj : (unlinkPartial c' (slabAddr q) m').1.objSize = c'.objSize := unlinkPartial_objSize ..
  generalize unlinkPartial c' (slabAddr q) m' = unlinked at hcore honly hobj ⊢
  obtain ⟨c₃, m₃⟩ := unlinked
  obtain ⟨hqout, hdrop⟩ := hcore.dropFull (q := q) rfl
  have hperm : (S'.part ++ S'.full).Perm (q :: (S'.part.erase q ++ S'.full)) :=
    List.Perm.append_right _ (List.perm_cons_erase h.head)
  have hsub : ∀ r ∈ S'.part.erase q ++ S'.full, r ≠ q ∧ r ∈ S.part ++ S.full := fun r hr =>
    ⟨fun heq => hqout (heq ▸ hr), h.perm.subset (hperm.symm.subset (List.mem_cons_of_mem _ hr))⟩
  have hslab := hcore.slab q (List.mem_append_right _ List.mem_cons_self)
  refine ⟨c₃, m₃, rfl, hobj, ⟨hdrop, fun r hr => ?_, fun r hr => ?_, fun r hr => ?_⟩, ?_, ?_,
    ⟨hslab.magic_eq, hslab.cache_eq⟩, fun y hy hyx => ?_⟩
  · have hrq := (hsub r (List.mem_append_left _ hr)).1
    rw [Slabs.drop_free, h.free_of hrq]
    exact hinv.part_free r (h.part r (List.mem_of_mem_erase hr) hrq)
  · rw [Slabs.drop_free, h.free_of (h.full r hr).1]
    exact hinv.full_free r (h.full r hr).2
  · rw [Slabs.drop_live, h.live_of (hsub r hr).1]
    exact hinv.used r (hsub r hr).2
  · refine Set.ext fun r => ⟨fun hr => ⟨(hsub r hr).2, (hsub r hr).1⟩, fun ⟨hr, hrq⟩ => ?_⟩
    exact (List.mem_cons.mp (hperm.subset (h.perm.symm.subset hr))).resolve_left hrq
  · have hlive := hperm.flatMap_right S'.live
    rw [List.flatMap_cons, h.live_self, hempty, List.nil_append] at hlive
    exact hlive.symm
  · exact (honly.headers y fun r hr => hy r (h.perm.subset hr)).trans (h.frame y hy hyx)

end PutBack

/-- What is not in the pages of a cache is in neither a header nor an object. -/
theorem outside_pages (hin : slabAddr q ≤ x ∧ x + 8 ≤ slabAddr q + 4096) (hq : q ∈ S.part ++ S.full)
    {y : ℕ} (hy : y ∈ (frameBytes S.frames)ᶜ) :
    (∀ r ∈ S.part ++ S.full, y < slabAddr r ∨ slabAddr r + 48 ≤ y) ∧ (y < x ∨ x + 8 ≤ y) := by
  have hout := apart_pages (l := S.part ++ S.full) hy
  have hapart := hout q hq
  exact ⟨fun r hr => (hout r hr).imp_right fun hge => by omega, by omega⟩

/-- **The page `q` goes back with its header**: when `free_pages` is called, it still starts with that of
a slab of the cache. -/
def LeavesHeader (P : PageSource σ) (Inv : σ → Set ℕ → Prop) (addr : ℕ) (H : Set ℕ) (q : ℕ) (s' : σ) :
    Prop :=
  ∃ s, Inv s H ∧ magic (P.mem s) (slabAddr q) = slabMagic ∧ cache (P.mem s) (slabAddr q) = addr ∧
    s' = P.freePages s (q * pageSize) 1

/-- **What `free` does** with an object that a caller holds: it goes back to its slab, and a slab
without live objects goes back to the page source. -/
theorem free_spec (hP : HandsOut P Inv) (hs : Inv s S.frames)
    (h : CacheInv (P.mem s) addr c S) (hz : Fits c.objSize) (hx : x ∈ S.objects) :
    ∃ c' s' S', KmemCache.free P addr c s x = some (c', s') ∧ c'.objSize = c.objSize ∧
      Inv s' S'.frames ∧ CacheInv (P.mem s') addr c' S' ∧ S'.objects.Perm (S.objects.erase x) ∧
      (∃ q, Freed S q x S' ∧ (q ∉ S'.frames → LeavesHeader P Inv addr S.frames q s')) ∧
      ∀ y, (∃ q ∈ S'.part ++ S'.full, slabAddr q + 48 ≤ y ∧ y < slabAddr q + 4096) →
        (y < x ∨ x + 8 ≤ y) → P.mem s' y = P.mem s y := by
  obtain ⟨q, hq, hxq⟩ := Slabs.mem_objects.mp hx
  have hslab := h.slab q hq
  have hlt := h.lt q hq
  have hslot := hslab.mem_live hxq
  obtain ⟨hlow, hhigh⟩ := mem_slots_bounds hz hslot
  have hge := hz.ge
  obtain ⟨c₂, m₂, S₂, hpush, hobj₂, hback⟩ := h.putBack hz hq hxq
  have hheader := alignDown_object hz hlt hslot
  rw [free_eq (by omega) (by rw [hheader]; exact hslab.magic_eq)
    (by rw [hheader]; exact hslab.cache_eq), hheader]
  dsimp only
  rw [hpush, returnedIfEmpty]
  have hobjects₂ := hback.objects h.nodup hq hxq
  have hinside : slabAddr q ≤ x ∧ x + 8 ≤ slabAddr q + 4096 := by omega
  by_cases hempty : (S.live q).erase x = []
  · -- the slab leaves the list, and its page goes back
    obtain ⟨c₃, m₃, heq, hobj₃, hinv₃, hframes₃, hobjects₃, hheader₃, hframe₃⟩ :=
      hback.unlink h (by rwa [hobj₂]) hempty
    have hs₃ : Inv (P.setMem s m₃) S.frames := hP.write hs fun y hy =>
      hframe₃ y (outside_pages hinside hq hy).1 (outside_pages hinside hq hy).2
    obtain ⟨hs₄, hagree⟩ := hP.free hs₃ (q := q) hq
    rw [hP.mem_setMem, ← hframes₃] at hagree
    rw [if_pos (by rw [hback.inuse_eq, hempty, List.length_nil]), heq, physAddr_eq hlt]
    refine ⟨c₃, _, S₂.drop q, rfl, hobj₃.trans hobj₂, by rwa [hframes₃],
      hinv₃.congr (by rwa [hobj₃, hobj₂]) hagree, hobjects₃.trans hobjects₂,
      ⟨q, hback.freed_drop hxq hempty hframes₃, fun _ => ⟨_, hs₃, ?_, ?_, rfl⟩⟩, ?_⟩
    · rw [hP.mem_setMem]
      exact hheader₃.1
    · rw [hP.mem_setMem]
      exact hheader₃.2
    rintro y ⟨r, hr, hy, hy'⟩ hyx
    rw [hagree y ⟨r, hr, by omega, hy'⟩]
    exact hframe₃ y (fun a _ => apart_header hy hy' a) hyx
  · have hne : ¬ inuse m₂ (slabAddr q) = 0 := by
      rw [hback.inuse_eq, List.length_eq_zero_iff]
      exact hempty
    rw [if_neg hne]
    have hkept : q ∈ S₂.frames := List.mem_append_left _ hback.head
    refine ⟨c₂, P.setMem s m₂, S₂, rfl, hobj₂, ?_, ?_, hobjects₂,
      ⟨q, hback.freed hxq, fun hout => absurd hkept hout⟩, ?_⟩
    · rw [hback.frames]
      exact hP.write hs fun y hy =>
        hback.frame y (outside_pages hinside hq hy).1 (outside_pages hinside hq hy).2
    · rw [hP.mem_setMem]
      exact hback.cacheInv h hempty
    · rw [hP.mem_setMem]
      rintro y ⟨r, hr, hy, hy'⟩ hyx
      exact hback.frame y (fun a _ => apart_header hy hy' a) hyx

end KmemCache

end MioOS
