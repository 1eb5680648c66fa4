import MioOS.Boot.MmapIterator
import MioOS.Pmm.Exact

/-!
# Pmm/CarveTag — the carve reads the map while it overwrites memory

The second pass of `initialize_buddy` is a callback of `for_each`, which reads each entry and the
stride from the map's tag after the callback freed the pages of the entries before.  A freed page
becomes a list node: `list_add` writes `next` and `prev` over its first 16 bytes.  Nothing keeps the
tag out of the pages that are freed, so `carveTag` reads the tag from the memory as it then is.

* `carveTag_exact` — while the pass overwrites nothing of the tag that it has yet to read, it frees
  every usable page that is not reserved, once, and no other;
* `ReadsIntact.of_outside` — so it does whenever the tag lies outside the pages it frees;
* `not_carvesExactly` — a tag across the head of a freed block is read as a node.
-/

namespace MioOS

open ByteMemory Intrusive BuddyBlocks Multiboot2 MmapIterator

namespace PMM

/-! ## The pass over the tag -/

/-- The loops of `for_each` with the callback of the second pass. -/
def carveLoop (k : KernelImage) (entry : Mem → ℕ → UnifiedMemoryEntry) (tag mmapEnd : ℕ) :
    ℕ → PMM → ℕ → Option PMM
  | 0, _, _ => none
  | fuel + 1, s, ptr =>
    if ptr < mmapEnd then
      (carveEntry k s (entry s.mem ptr)).bind fun s =>
        carveLoop k entry tag mmapEnd fuel s (ptr + stride s.mem tag)
    else some s

/-- The calls `free_pages_order(p, order)` that the loop makes, in order. -/
def carveLoopCalls (k : KernelImage) (entry : Mem → ℕ → UnifiedMemoryEntry) (tag mmapEnd : ℕ) :
    ℕ → PMM → ℕ → List (ℕ × ℕ)
  | 0, _, _ => []
  | fuel + 1, s, ptr =>
    if ptr < mmapEnd then
      entryCalls k s (entry s.mem ptr) ++
        (carveEntry k s (entry s.mem ptr)).elim [] fun s =>
          carveLoopCalls k entry tag mmapEnd fuel s (ptr + stride s.mem tag)
    else []

/-- **The second pass of `initialize_buddy`** over the map's tag, unless the fuel runs out.
`mmap_end` is computed once; the entries and the stride are read as they come. -/
def carveTag (k : KernelImage) (tag fuel : ℕ) (s : PMM) : Option PMM :=
  if tag = 0 then some s
  else if tagType s.mem tag = tagTypeMmap then
    carveLoop k biosEntry tag (tag + tagSize s.mem tag) fuel s (tag + 16)
  else if tagType s.mem tag = tagTypeEfiMmap then
    carveLoop k efiEntry tag (tag + tagSize s.mem tag) fuel s (tag + 16)
  else some s

/-- Its calls of `free_pages_order`. -/
def carveTagCalls (k : KernelImage) (tag fuel : ℕ) (s : PMM) : List (ℕ × ℕ) :=
  if tag = 0 then []
  else if tagType s.mem tag = tagTypeMmap then
    carveLoopCalls k biosEntry tag (tag + tagSize s.mem tag) fuel s (tag + 16)
  else if tagType s.mem tag = tagTypeEfiMmap then
    carveLoopCalls k efiEntry tag (tag + tagSize s.mem tag) fuel s (tag + 16)
  else []

/-- **The carve is exact**: it ends; the calls of `free_pages_order` it makes hand over no page
twice; the free pages are then the whole usable pages without page 0 and the two reserved stretches,
and `free_memory` counts them. -/
structure CarvesExactly (k : KernelImage) (mmap : MemoryMap) (hr bp tag : ℕ) (s : PMM) : Prop where
  exact : ∃ fuel s', carveTag k tag fuel s = some s' ∧
    s' = s.freeEach (carveTagCalls k tag fuel s) ∧
    (carveTagCalls k tag fuel s).Pairwise (fun c c' => Disjoint (callPages c) (callPages c')) ∧
    s'.freeFrames = {q ∈ mmap.usablePages | q ≠ 0 ∧
      ¬ (k.startPhys ≤ q * pageSize ∧ q * pageSize < alignUp hr pageSize) ∧
      ¬ (hr ≤ q * pageSize ∧ q * pageSize < bp)} ∧
    s'.freeMemory = pageSize * s'.freeFrames.ncard

/-! ## What the pass reads and what it writes -/

/-- The bytes of `entry_size` or `descriptor_size`. -/
def strideField (tag : ℕ) : Set ℕ := Set.Ico (tag + 8) (tag + 12)

/-- The bytes of the entry at `ent` that `for_each` reads. -/
def entryFields (m : Mem) (tag ent : ℕ) : Set ℕ :=
  if tagType m tag = tagTypeMmap then Set.Ico ent (ent + 20)
  else Set.Ico ent (ent + 4) ∪ Set.Ico (ent + 8) (ent + 16) ∪ Set.Ico (ent + 24) (ent + 32)

/-- The frames that calls hand over. -/
def framesOf (calls : List (ℕ × ℕ)) : Set ℕ := {q | ∃ c ∈ calls, q ∈ callPages c}

/-- The pages that are list nodes before, between or after the calls: those at which the maximal
blocks of the frames handed over so far start. -/
def nodesOf (calls : List (ℕ × ℕ)) : Set ℕ :=
  {q | ∃ n, q ∈ starts buddyMaxOrder (framesOf (calls.take n))}

/-- The bytes that the pass writes over the entries `es`: the bitmaps and the list nodes. -/
def carveWrites (k : KernelImage) (mmap : MemoryMap) (s : PMM) (es : MemoryMap) : Set ℕ :=
  Set.Ico (s.buddyMap 0) (s.buddyMap 0 + totalBitmapBytes (maxPfnOf mmap)) ∪
    {x | ∃ q ∈ nodesOf (carveCalls k es s), x ∈ nodeBytes q}

/-- **The pass overwrites nothing that it has yet to read**: not the stride, which it reads after
every entry, and not an entry before its turn. -/
structure ReadsIntact (k : KernelImage) (mmap : MemoryMap) (tag : ℕ) (s : PMM) : Prop where
  stride : mmap ≠ [] → Disjoint (strideField tag) (carveWrites k mmap s mmap)
  entries : ∀ done ent rest, mmap = done ++ ent :: rest → done ≠ [] →
    Disjoint (entryFields s.mem tag (tag + 16 + done.length * MmapIterator.stride s.mem tag))
      (carveWrites k mmap s done)

/-- The pass reads from the tag what the first pass read: the entries `mmap` and one stride. -/
structure Rereads (k : KernelImage) (entry : Mem → ℕ → UnifiedMemoryEntry) (mmap : MemoryMap)
    (tag : ℕ) (s : PMM) : Prop where
  stride : ∀ done rest s', mmap = done ++ rest → carve k done s = some s' →
    MmapIterator.stride s'.mem tag = MmapIterator.stride s.mem tag
  entries : ∀ done ent rest s', mmap = done ++ ent :: rest → carve k done s = some s' →
    entry s'.mem (tag + 16 + done.length * MmapIterator.stride s.mem tag)
      = entry s.mem (tag + 16 + done.length * MmapIterator.stride s.mem tag)

variable {g : Geometry} {k : KernelImage} {entry : Mem → ℕ → UnifiedMemoryEntry}
  {mmap es es' done rest : MemoryMap} {s s' : PMM} {F R W : Set ℕ} {calls calls' : List (ℕ × ℕ)}
  {m m' : Mem} {ent : UnifiedMemoryEntry} {hr phys bp tag mmapEnd fuel x : ℕ}

/-! ## The pass over a list of entries, cut in two -/

theorem carve_append (es es' : MemoryMap) (s : PMM) :
    carve k (es ++ es') s = (carve k es s).bind (carve k es') := by
  induction es generalizing s with
  | nil => rfl
  | cons ent es ih =>
    rw [List.cons_append, carve, carve, Option.bind_assoc]
    exact congrArg _ (funext ih)

theorem carveCalls_append (h : carve k es s = some s') :
    carveCalls k (es ++ es') s = carveCalls k es s ++ carveCalls k es' s' := by
  induction es generalizing s with
  | nil =>
    obtain rfl := Option.some.inj h
    rfl
  | cons ent es ih =>
    rw [carve] at h
    obtain ⟨s₁, hent, h⟩ := Option.bind_eq_some_iff.mp h
    simp only [List.cons_append, carveCalls, hent, Option.elim_some, ih h, List.append_assoc]

/-- **Over a tag that is read as it was**, the pass is the one over the entries. -/
theorem carveLoop_eq (hreads : Rereads k entry mmap tag s) (hmmap : mmap = done ++ rest)
    (hdone : carve k done s = some s')
    (h : forEachLoop (entry s.mem) mmapEnd (stride s.mem tag) fuel
      (tag + 16 + done.length * stride s.mem tag) = some rest) :
    carveLoop k entry tag mmapEnd fuel s' (tag + 16 + done.length * stride s.mem tag)
        = carve k rest s' ∧
      carveLoopCalls k entry tag mmapEnd fuel s' (tag + 16 + done.length * stride s.mem tag)
        = carveCalls k rest s' := by
  induction fuel generalizing done rest s' with
  | zero => exact absurd h.symm (Option.some_ne_none rest)
  | succ fuel ih =>
    rw [forEachLoop] at h
    rw [carveLoop, carveLoopCalls]
    split at h
    · rename_i hlt
      obtain ⟨rest, hrest, rfl⟩ := Option.map_eq_some_iff.mp h
      rw [if_pos hlt, if_pos hlt, hreads.entries done _ rest s' hmmap hdone, carve, carveCalls]
      generalize entry s.mem (tag + 16 + done.length * stride s.mem tag) = ent at hmmap ⊢
      cases hent : carveEntry k s' ent with
      | none => exact ⟨rfl, rfl⟩
      | some s₁ =>
        have hmmap₁ : mmap = (done ++ [ent]) ++ rest := by
          rw [hmmap, List.append_assoc, List.singleton_append]
        have hdone₁ : carve k (done ++ [ent]) s = some s₁ := by
          rw [carve_append, hdone, Option.bind_some, carve, hent]
          rfl
        have hplace : tag + 16 + done.length * stride s.mem tag + stride s.mem tag
            = tag + 16 + (done ++ [ent]).length * stride s.mem tag := by
          rw [List.length_append, List.length_singleton]
          ring
        rw [hplace] at hrest
        obtain ⟨hloop, hcalls⟩ := ih hmmap₁ hdone₁ hrest
        simp only [Option.bind_some, Option.elim_some, hreads.stride _ rest s₁ hmmap₁ hdone₁,
          hplace, hloop, hcalls, and_self]
    · rename_i hge
      obtain rfl := Option.some.inj h
      rw [if_neg hge, if_neg hge]
      exact ⟨rfl, rfl⟩

/-- More fuel does not change where the loop ends. -/
theorem carveLoop_succ {ptr : ℕ} (h : carveLoop k entry tag mmapEnd fuel s ptr = some s') :
    carveLoop k entry tag mmapEnd (fuel + 1) s ptr = some s' := by
  induction fuel generalizing s ptr with
  | zero => exact absurd h.symm (Option.some_ne_none s')
  | succ fuel ih =>
    rw [carveLoop] at h ⊢
    split at h
    · obtain ⟨s₁, hent, h⟩ := Option.bind_eq_some_iff.mp h
      rw [if_pos ‹_›, hent, Option.bind_some, ih h]
    · rw [if_neg ‹_›, h]

theorem carveTag_succ (h : carveTag k tag fuel s = some s') :
    carveTag k tag (fuel + 1) s = some s' := by
  rw [carveTag] at h ⊢
  split at h
  · rw [if_pos ‹_›, h]
  rw [if_neg ‹_›]
  split at h
  · rw [if_pos ‹_›, carveLoop_succ h]
  rw [if_neg ‹_›]
  split at h
  · rw [if_pos ‹_›, carveLoop_succ h]
  · rw [if_neg ‹_›, h]

/-- **The pass ends in one state**, whatever the fuel. -/
theorem carveTag_unique {fuel' : ℕ} {s'' : PMM} (h : carveTag k tag fuel s = some s')
    (h' : carveTag k tag fuel' s = some s'') : s' = s'' := by
  have hmore : ∀ n {fuel t}, carveTag k tag fuel s = some t → carveTag k tag (fuel + n) s = some t := by
    intro n
    induction n with
    | zero => exact id
    | succ n ih => exact fun h => carveTag_succ (ih h)
  have heq := hmore fuel' h
  rw [Nat.add_comm] at heq
  exact Option.some.inj (heq.symm.trans (hmore fuel h'))

/-! ## The bytes that are read -/

theorem stride_congr (h : Mem.AgreeOn (strideField tag) m m') : stride m' tag = stride m tag :=
  h.load_eq fun i hi => ⟨Nat.le_add_right _ i, by omega⟩

theorem biosEntry_congr (htype : tagType m tag = tagTypeMmap)
    (h : Mem.AgreeOn (entryFields m tag x) m m') : biosEntry m' x = biosEntry m x := by
  rw [entryFields, if_pos htype] at h
  have h0 : m'.load 8 x = m.load 8 x := h.load_eq fun i hi => ⟨by omega, by omega⟩
  have h8 : m'.load 8 (x + 8) = m.load 8 (x + 8) := h.load_eq fun i hi => ⟨by omega, by omega⟩
  have h16 : m'.load 4 (x + 16) = m.load 4 (x + 16) := h.load_eq fun i hi => ⟨by omega, by omega⟩
  simp only [biosEntry, h0, h8, h16]

theorem efiEntry_congr (htype : tagType m tag ≠ tagTypeMmap)
    (h : Mem.AgreeOn (entryFields m tag x) m m') : efiEntry m' x = efiEntry m x := by
  rw [entryFields, if_neg htype] at h
  have h0 : m'.load 4 x = m.load 4 x := h.load_eq fun i hi => Or.inl (Or.inl ⟨by omega, by omega⟩)
  have h8 : m'.load 8 (x + 8) = m.load 8 (x + 8) :=
    h.load_eq fun i hi => Or.inl (Or.inr ⟨by omega, by omega⟩)
  have h24 : m'.load 8 (x + 24) = m.load 8 (x + 24) :=
    h.load_eq fun i hi => Or.inr ⟨by omega, by omega⟩
  simp only [efiEntry, h0, h8, h24]

/-! ## The bytes that are written -/

theorem framesOf_cons (c : ℕ × ℕ) (calls : List (ℕ × ℕ)) :
    framesOf (c :: calls) = callPages c ∪ framesOf calls := by
  ext q
  simp [framesOf]

theorem HandsOver.framesOf_eq (h : HandsOver calls R) : framesOf calls = R :=
  Set.ext fun _ => h.mem_iff.symm

theorem nodesOf_mono (h : calls <+: calls') : nodesOf calls ⊆ nodesOf calls' := by
  obtain ⟨tail, rfl⟩ := h
  rintro q ⟨n, hq⟩
  refine ⟨min n calls.length, ?_⟩
  rwa [List.take_append_of_le_length (min_le_right _ _), ← List.take_eq_take_min]

theorem nodesOf_subset : nodesOf calls ⊆ framesOf calls := by
  rintro q ⟨n, hq⟩
  obtain ⟨c, hc, hq⟩ := starts_subset hq
  exact ⟨c, List.mem_of_mem_take hc, hq⟩

/-- **Freeing writes to list nodes only**, besides the bitmaps. -/
theorem HandsOver.agreeOn (hcalls : HandsOver calls R) (h : BuddyInv g s F)
    (hframes : ∀ q ∈ R, g.Frame q) (hfresh : Disjoint R F)
    (hW : ∀ n, starts buddyMaxOrder (F ∪ framesOf (calls.take n)) ⊆ W) :
    Mem.AgreeOn (owned g W)ᶜ s.mem (s.freeEach calls).mem := by
  induction hcalls generalizing s F with
  | nil => exact Mem.AgreeOn.refl _ _
  | @cons i o calls R ho hdvd hapart hcalls ih =>
    obtain ⟨hblock, hrest⟩ := Set.disjoint_union_left.mp hfresh
    have hframes' : ∀ q ∈ block o i, g.Frame q := fun q hq => hframes q (Or.inl hq)
    have hgives := freePagesOrder_gives h ho hdvd hframes' hblock
    have h0 := hW 0
    have h1 := hW 1
    simp only [List.take_zero, List.take_succ_cons, framesOf_cons, callPages_mul] at h0 h1
    have hempty : framesOf [] = ∅ := HandsOver.framesOf_eq .nil
    rw [hempty, Set.union_empty] at h0 h1
    have hev := (freeBlock_evolves h ho hdvd hframes' hblock h0 h1).mem
    rw [mem_countFreed, ← freePagesOrder_eq ho (hframes' i (self_mem_block o i)).pos] at hev
    refine hev.trans (ih hgives.inv (fun q hq => hframes q (Or.inr hq))
      (Set.disjoint_union_right.mpr ⟨hrest, hapart.symm⟩) fun n => ?_)
    have hn := hW (n + 1)
    rwa [List.take_succ_cons, framesOf_cons, callPages_mul, ← Set.union_assoc] at hn

theorem Prepared.carveWrites_eq (hmax : maxPfnOf mmap < 2 ^ 35) (h : Prepared mmap hr phys bp s)
    (es : MemoryMap) :
    carveWrites k mmap s es = owned (geometryOf mmap phys hmax) (nodesOf (carveCalls k es s)) := by
  have hbase : s.buddyMap 0 = phys + hhdmBase := h.slices 0 (Nat.zero_le _)
  rw [carveWrites, hbase]
  rfl

theorem carveWrites_mono (mmap rest : MemoryMap) (hdone : carve k done s = some s') :
    carveWrites k mmap s done ⊆ carveWrites k mmap s (done ++ rest) := by
  refine Set.union_subset_union_right _ fun x ⟨q, hq, hx⟩ => ⟨q, nodesOf_mono ?_ hq, hx⟩
  rw [carveCalls_append hdone]
  exact List.prefix_append _ _

theorem initialFree_append (es es' : MemoryMap) :
    initialFree k (es ++ es') hr bp = initialFree k es hr bp ∪ initialFree k es' hr bp := by
  ext q
  simp only [initialFree, MemoryMap.usablePages, List.mem_append, Set.mem_ofPred_eq, Set.mem_union]
  constructor
  · rintro ⟨⟨e, he | he, hq⟩, hres⟩
    · exact Or.inl ⟨⟨e, he, hq⟩, hres⟩
    · exact Or.inr ⟨⟨e, he, hq⟩, hres⟩
  · rintro (⟨⟨e, he, hq⟩, hres⟩ | ⟨⟨e, he, hq⟩, hres⟩)
    · exact ⟨⟨e, Or.inl he, hq⟩, hres⟩
    · exact ⟨⟨e, Or.inr he, hq⟩, hres⟩

/-- **What the pass over the first entries writes.** -/
theorem agreeOn_carve (hwf : mmap.WellFormed) (hmax : maxPfnOf mmap < 2 ^ 35)
    (h : Prepared mmap hr phys bp s) (hmmap : mmap = done ++ rest)
    (hdone : carve k done s = some s') :
    Mem.AgreeOn (carveWrites k mmap s done)ᶜ s.mem s'.mem := by
  subst hmmap
  obtain ⟨heq, hcalls⟩ := carve_eq (k := k) hwf.left h.scalars
  obtain rfl := Option.some.inj (heq.symm.trans hdone)
  rw [h.carveWrites_eq hmax]
  have hsub : initialFree k done hr bp ⊆ initialFree k (done ++ rest) hr bp := by
    rw [initialFree_append]
    exact Set.subset_union_left
  refine hcalls.agreeOn h.inv (fun q hq => h.frame (hsub hq).1 (hsub hq).2)
    (Set.disjoint_empty _) fun n q hq => ⟨n, ?_⟩
  rwa [Set.empty_union] at hq

/-- **Reads that are intact read what was there.** -/
theorem ReadsIntact.rereads (hwf : mmap.WellFormed) (hmax : maxPfnOf mmap < 2 ^ 35)
    (h : Prepared mmap hr phys bp s) (hintact : ReadsIntact k mmap tag s)
    (hentry : ∀ m' x, Mem.AgreeOn (entryFields s.mem tag x) s.mem m' → entry m' x = entry s.mem x) :
    Rereads k entry mmap tag s := by
  constructor
  · intro done rest s' hmmap hdone
    have hwrites := agreeOn_carve hwf hmax h hmmap hdone
    cases done with
    | nil => rw [Option.some.inj hdone]
    | cons ent done =>
      have hstride := hintact.stride (by simp [hmmap])
      have hsub := carveWrites_mono mmap rest hdone
      rw [← hmmap] at hsub
      exact stride_congr (hwrites.mono (Set.subset_compl_iff_disjoint_right.mpr
        (hstride.mono_right hsub)))
  · intro done ent rest s' hmmap hdone
    have hwrites := agreeOn_carve hwf hmax h hmmap hdone
    cases done with
    | nil => rw [Option.some.inj hdone]
    | cons ent' done =>
      have hfields := hintact.entries (ent' :: done) ent rest hmmap (List.cons_ne_nil _ _)
      exact hentry _ _ (hwrites.mono (Set.subset_compl_iff_disjoint_right.mpr hfields))

/-- **Over a tag that stays intact**, the pass is the one over the entries read first. -/
theorem carveTag_eq (hwf : mmap.WellFormed) (hmax : maxPfnOf mmap < 2 ^ 35)
    (h : Prepared mmap hr phys bp s) (hintact : ReadsIntact k mmap tag s)
    (htag : forEach s.mem tag fuel = some mmap) :
    carveTag k tag fuel s = carve k mmap s ∧ carveTagCalls k tag fuel s = carveCalls k mmap s := by
  by_cases hnull : tag = 0
  · rw [forEach, if_pos hnull] at htag
    rw [carveTag, carveTagCalls, if_pos hnull, if_pos hnull, ← Option.some.inj htag]
    exact ⟨rfl, rfl⟩
  have hplace : tag + 16 + ([] : MemoryMap).length * stride s.mem tag = tag + 16 := by
    rw [List.length_nil, Nat.zero_mul, Nat.add_zero]
  -- the loop of one format, from the first entry on
  have hloop : ∀ {entry : Mem → ℕ → UnifiedMemoryEntry}, Rereads k entry mmap tag s →
      forEachLoop (entry s.mem) (tag + tagSize s.mem tag) (stride s.mem tag) fuel (tag + 16)
        = some mmap →
      carveLoop k entry tag (tag + tagSize s.mem tag) fuel s (tag + 16) = carve k mmap s ∧
        carveLoopCalls k entry tag (tag + tagSize s.mem tag) fuel s (tag + 16)
          = carveCalls k mmap s := fun hreads heach => by
    have heq := carveLoop_eq hreads (List.nil_append mmap).symm rfl (by rwa [hplace])
    rwa [hplace] at heq
  by_cases hbios : tagType s.mem tag = tagTypeMmap
  · rw [forEach, if_neg hnull, if_pos hbios] at htag
    rw [carveTag, carveTagCalls, if_neg hnull, if_neg hnull, if_pos hbios, if_pos hbios]
    exact hloop (hintact.rereads hwf hmax h fun _ _ => biosEntry_congr hbios) htag
  by_cases hefi : tagType s.mem tag = tagTypeEfiMmap
  · rw [forEach, if_neg hnull, if_neg hbios, if_pos hefi] at htag
    rw [carveTag, carveTagCalls, if_neg hnull, if_neg hnull, if_neg hbios, if_neg hbios,
      if_pos hefi, if_pos hefi]
    exact hloop (hintact.rereads hwf hmax h fun _ _ => efiEntry_congr hbios) htag
  · rw [forEach, if_neg hnull, if_neg hbios, if_neg hefi] at htag
    rw [carveTag, carveTagCalls, if_neg hnull, if_neg hnull, if_neg hbios, if_neg hbios,
      if_neg hefi, if_neg hefi, ← Option.some.inj htag]
    exact ⟨rfl, rfl⟩

/-- **The carve is exact** while it overwrites nothing of the tag that it has yet to read. -/
theorem carveTag_exact (hwf : mmap.WellFormed)
    (hend : ∀ e ∈ mmap, e.isUsable = true → e.addr + e.len ≤ 2 ^ 47)
    (h : Prepared mmap hr phys bp s) (htag : forEach s.mem tag fuel = some mmap)
    (hintact : ReadsIntact k mmap tag s) : CarvesExactly k mmap hr bp tag s := by
  obtain ⟨heq, hcalls⟩ := carveTag_eq hwf (maxPfnOf_lt hend) h hintact htag
  obtain ⟨s', hcarve, hrun⟩ := carve_exact (k := k) hwf hend h
  rw [← hcalls] at hrun
  exact ⟨fuel, s', heq.trans hcarve, hrun⟩

/-! ## A tag outside the pages freed -/

theorem entryFields_subset (m : Mem) (tag ent : ℕ) :
    entryFields m tag ent ⊆ Set.Ico ent (ent + entrySize m tag) := by
  intro x hx
  rw [entryFields] at hx
  rw [entrySize]
  split at hx
  · rw [if_pos ‹_›]
    exact ⟨hx.1, hx.2.trans_le (by rw [biosEntrySize]; omega)⟩
  · rw [if_neg ‹_›, efiDescriptorSize]
    rcases hx with (hx | hx) | hx <;> rw [Set.mem_Ico] at hx ⊢ <;> omega

/-- The list nodes of the pass are on pages that it frees. -/
theorem carveWrites_subset (hwf : mmap.WellFormed) (h : Prepared mmap hr phys bp s)
    (hmmap : mmap = done ++ rest) :
    carveWrites k mmap s done ⊆
      Set.Ico (phys + hhdmBase) (phys + hhdmBase + totalBitmapBytes (maxPfnOf mmap)) ∪
        {x | ∃ q ∈ initialFree k mmap hr bp, x ∈ nodeBytes q} := by
  have hbase : s.buddyMap 0 = phys + hhdmBase := h.slices 0 (Nat.zero_le _)
  have hcalls := (carve_eq (k := k) (hmmap ▸ hwf).left h.scalars).2
  rw [carveWrites, hbase]
  refine Set.union_subset_union_right _ fun x ⟨q, hq, hx⟩ => ⟨q, ?_, hx⟩
  rw [hmmap, initialFree_append]
  exact Or.inl (hcalls.framesOf_eq ▸ nodesOf_subset hq)

/-- **A tag that can be iterated and lies outside what the pass frees** stays intact. -/
theorem ReadsIntact.of_outside (hwf : mmap.WellFormed) (h : Prepared mmap hr phys bp s)
    (htag : forEach s.mem tag fuel = some mmap) (hsafe : MmapIterator.Safe s.mem tag)
    (hbitmap : tag + tagSize s.mem tag ≤ phys + hhdmBase)
    (hout : ∀ q ∈ initialFree k mmap hr bp,
      Disjoint (nodeBytes q) (Set.Ico tag (tag + tagSize s.mem tag))) :
    ReadsIntact k mmap tag s := by
  have hdisj : ∀ {done rest : MemoryMap} {A : Set ℕ}, mmap = done ++ rest →
      A ⊆ Set.Ico tag (tag + tagSize s.mem tag) → Disjoint A (carveWrites k mmap s done) := by
    intro done rest A hmmap hA
    refine Set.disjoint_left.mpr fun x hx hw => ?_
    rcases carveWrites_subset hwf h hmmap hw with hbit | ⟨q, hq, hxq⟩
    · exact absurd (hA hx).2 (not_lt.mpr (hbitmap.trans hbit.1))
    · exact Set.disjoint_left.mp (hout q hq) hxq (hA hx)
  constructor
  · intro hne
    obtain ⟨ent, rest, rfl⟩ := List.exists_cons_of_ne_nil hne
    have hfits := hsafe.entry_within ((List.nil_append (ent :: rest)).symm ▸ htag)
    refine hdisj (List.append_nil _).symm fun x hx => ?_
    rw [strideField, Set.mem_Ico] at hx
    rw [Set.mem_Ico]
    omega
  · intro done ent rest hmmap _
    have hfits := hsafe.entry_within (hmmap ▸ htag)
    refine hdisj hmmap fun x hx => ?_
    have hin := entryFields_subset _ _ _ hx
    rw [Set.mem_Ico] at hin ⊢
    omega

/-! ## A tag below the kernel -/

/-- Memory with a BIOS map tag that has the entries of `lowAndHigh`. -/
def lowAndHighTag (tag : ℕ) : Mem := fun x =>
  if x = tag then 6 else if x = tag + 4 then 64 else if x = tag + 8 then 24
  else if x = tag + 25 then 0xA0 else if x = tag + 32 then 1
  else if x = tag + 42 then 0x20 else if x = tag + 50 then 1 else if x = tag + 56 then 1 else 0

/-- The bitmaps of `lowAndHigh` are cut, and nothing is free. -/
def preparedLowAndHigh (hr tag : ℕ) : PMM where
  initializedBuddy := false
  mmap := some lowAndHigh
  totalMemory := 0x1A000
  freeMemory := 0
  usedMemory := 0x1A000
  bumpPtrPhys := 0x201000
  bumpRegionEndPhys := 0x210000
  highestReservedPhys := hr
  bumpWatermark := hr
  freeLists := fun _ => 0
  buddyMap := fun o => 0x200000 + hhdmBase + bitmapOffset (maxPfnOf lowAndHigh) o
  mem := lowAndHighTag tag
  trace := []

theorem prepared_lowAndHigh {hr tag : ℕ} (hhr : hr ≤ 0x200000) (htag : tag + 57 ≤ 0x200000 + hhdmBase) :
    Prepared lowAndHigh hr 0x200000 0x201000 (preparedLowAndHigh hr tag) := by
  refine ⟨⟨rfl, rfl, hhr.trans (by decide), by decide, by decide⟩, hhr, by decide, by decide,
    fun _ _ => rfl, fun _ _ => rfl, fun x hx _ => ?_, rfl, rfl,
    show 0x1A000 < 2 ^ 64 by decide, rfl⟩
  have hne : ∀ i < 57, x ≠ tag + i := fun i hi => by omega
  have h0 : x ≠ tag := hne 0 (by decide)
  change lowAndHighTag tag x = 0
  simp [lowAndHighTag, h0, hne]

theorem lowAndHigh_end : ∀ e ∈ lowAndHigh, e.isUsable = true → e.addr + e.len ≤ 2 ^ 47 := by
  decide

/-- A block behind the kernel is read intact. -/
theorem carveTag_exact_lowAndHigh :
    CarvesExactly imageAt1M lowAndHigh 0x103100 0x201000 (hhdmBase + 0x103000)
      (preparedLowAndHigh 0x103100 (hhdmBase + 0x103000)) := by
  have h := @prepared_lowAndHigh 0x103100 (hhdmBase + 0x103000) (by decide) (by decide)
  have htag : forEach (preparedLowAndHigh 0x103100 (hhdmBase + 0x103000)).mem (hhdmBase + 0x103000) 3
      = some lowAndHigh := by decide +kernel
  have hsize : tagSize (preparedLowAndHigh 0x103100 (hhdmBase + 0x103000)).mem (hhdmBase + 0x103000)
      = 64 := by decide +kernel
  have hstride : stride (preparedLowAndHigh 0x103100 (hhdmBase + 0x103000)).mem (hhdmBase + 0x103000)
      = 24 := by decide +kernel
  have hsafe : MmapIterator.Safe (preparedLowAndHigh 0x103100 (hhdmBase + 0x103000)).mem
      (hhdmBase + 0x103000) := by
    refine (iteration_safe_iff _ _).mpr fun _ _ => ⟨fun _ => ?_, fun _ => ?_, fun i hi => ?_⟩
    · rw [hstride]
      decide
    · decide +kernel
    · rw [hsize, hstride] at hi
      rw [hstride]
      have hi' : i < 2 := by omega
      rw [typeOk, if_pos (by decide +kernel)]
      interval_cases i <;> decide +kernel
  refine carveTag_exact lowAndHigh_wellFormed lowAndHigh_end h htag
    (.of_outside lowAndHigh_wellFormed h htag hsafe (by rw [hsize]; decide) fun q hq => ?_)
  have hres := hq.2
  rw [Reserved, not_or, not_or] at hres
  rw [hsize, nodeBytes, Set.Ico_disjoint_Ico]
  have hup : alignUp 0x103100 pageSize = 0x104000 := by decide +kernel
  rw [hup] at hres
  simp only [imageAt1M, pageSize] at hres
  omega

/-- **A tag across the head of a block**: its second entry is where page 8 becomes a node, and the
region above the kernel is not freed. -/
theorem not_carvesExactly :
    ¬ ∀ (k : KernelImage) (mmap : MemoryMap) (hr phys bp tag fuel : ℕ) (s : PMM), mmap.WellFormed →
      (∀ e ∈ mmap, e.isUsable = true → e.addr + e.len ≤ 2 ^ 47) → k.startPhys < hr →
      Prepared mmap hr phys bp s → forEach s.mem tag fuel = some mmap →
      CarvesExactly k mmap hr bp tag s := by
  intro h
  have hprep := @prepared_lowAndHigh 0x102000 (hhdmBase + 0x7FD8) (by decide) (by decide)
  obtain ⟨fuel, s', hrun, -, -, hfree, hcount⟩ := (h imageAt1M lowAndHigh 0x102000 0x200000 0x201000
    (hhdmBase + 0x7FD8) 3 _ lowAndHigh_wellFormed lowAndHigh_end (by decide) hprep
    (by decide +kernel)).exact
  -- the entries alone would free 24 pages, and the tag makes it 9
  obtain ⟨s₁, hcarve, -, -, hfree₁, hcount₁⟩ :=
    carve_exact (k := imageAt1M) lowAndHigh_wellFormed lowAndHigh_end hprep
  have hentries : (carve imageAt1M lowAndHigh (preparedLowAndHigh 0x102000 (hhdmBase + 0x7FD8))).map
      PMM.freeMemory = some 0x18000 := by decide +kernel
  have htag : (carveTag imageAt1M (hhdmBase + 0x7FD8) 4
      (preparedLowAndHigh 0x102000 (hhdmBase + 0x7FD8))).map PMM.freeMemory = some 0x9000 := by
    decide +kernel
  rw [hcarve, Option.map_some, hcount₁, hfree₁, ← hfree, ← hcount] at hentries
  obtain ⟨s₂, hs₂, hfree₂⟩ := Option.map_eq_some_iff.mp htag
  obtain rfl := carveTag_unique hs₂ hrun
  rw [hfree₂] at hentries
  exact absurd hentries (by decide)

end PMM

end MioOS
