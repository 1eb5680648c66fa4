import MioOS.Boot.Multiboot
import MioOS.Pmm.Defs

/-!
# Boot/MmapIterator — `MmapIterator::for_each` and the region names of `initialize_buddy`

A map tag is a header of 16 bytes and a sequence of entries, which starts every `entry_size` or
`descriptor_size` bytes.  `forEach` is the walk over them and `calls` the calls of the callback, each
with the place of its entry.  The first callback of `initialize_buddy` prints every region with the
name its type has in `memRegionsBios` or `memRegionsUefi`.
-/

namespace MioOS

namespace MmapIterator

open ByteMemory Multiboot2

/-! ## The walk -/

/-- `MULTIBOOT_TAG_TYPE_MMAP`. -/
def tagTypeMmap : ℕ := 6

/-- `MULTIBOOT_TAG_TYPE_EFI_MMAP`. -/
def tagTypeEfiMmap : ℕ := 17

/-- `sizeof(multiboot_mmap_entry)`. -/
def biosEntrySize : ℕ := 24

/-- `sizeof(efi_memory_descriptor)`. -/
def efiDescriptorSize : ℕ := 40

/-- The `UnifiedMemoryEntry` of the `multiboot_mmap_entry` at `ent`. -/
def biosEntry (m : Mem) (ent : ℕ) : UnifiedMemoryEntry where
  addr := m.load 8 ent
  len := m.load 8 (ent + 8)
  isUsable := m.load 4 (ent + 16) == 1
  type := m.load 4 (ent + 16)
  isUefi := false

/-- The `UnifiedMemoryEntry` of the `efi_memory_descriptor` at `ent`. -/
def efiEntry (m : Mem) (ent : ℕ) : UnifiedMemoryEntry where
  addr := m.load 8 (ent + 8)
  len := u64 (m.load 8 (ent + 24) * 4096)
  isUsable := m.load 4 ent == 7 || m.load 4 ent == 3 || m.load 4 ent == 4
  type := m.load 4 ent
  isUefi := true

/-- `mmap->entry_size` or `mmap->descriptor_size`. -/
def stride (m : Mem) (tag : ℕ) : ℕ := m.load 4 (tag + 8)

/-- The loops of `for_each`: the entries passed to the callback. -/
def forEachLoop (entry : ℕ → UnifiedMemoryEntry) (mmapEnd stride : ℕ) : ℕ → ℕ → Option MemoryMap
  | 0, _ => none
  | fuel + 1, ptr =>
    if ptr < mmapEnd then (forEachLoop entry mmapEnd stride fuel (ptr + stride)).map (entry ptr :: ·)
    else some []

/-- **`for_each`**: the entries passed to the callback, unless the fuel runs out. -/
def forEach (m : Mem) (tag fuel : ℕ) : Option MemoryMap :=
  if tag = 0 then some []
  else if tagType m tag = tagTypeMmap then
    forEachLoop (biosEntry m) (tag + tagSize m tag) (stride m tag) fuel (tag + 16)
  else if tagType m tag = tagTypeEfiMmap then
    forEachLoop (efiEntry m) (tag + tagSize m tag) (stride m tag) fuel (tag + 16)
  else some []

/-- The calls of the callback in the first iterations: the entry and its place. -/
def loopCalls (entry : ℕ → UnifiedMemoryEntry) (mmapEnd stride : ℕ) :
    ℕ → ℕ → List (ℕ × UnifiedMemoryEntry)
  | 0, _ => []
  | fuel + 1, ptr =>
    if ptr < mmapEnd then (ptr, entry ptr) :: loopCalls entry mmapEnd stride fuel (ptr + stride)
    else []

/-- The calls of the callback in the first iterations of `for_each`. -/
def calls (m : Mem) (tag fuel : ℕ) : List (ℕ × UnifiedMemoryEntry) :=
  if tag = 0 then []
  else if tagType m tag = tagTypeMmap then
    loopCalls (biosEntry m) (tag + tagSize m tag) (stride m tag) fuel (tag + 16)
  else if tagType m tag = tagTypeEfiMmap then
    loopCalls (efiEntry m) (tag + tagSize m tag) (stride m tag) fuel (tag + 16)
  else []

/-! ## The callback -/

/-- `mem_regions_bios`. -/
def memRegionsBios : List String :=
  ["Available", "Reserved", "ACPI Reclaimable", "NVS", "Bad RAM"]

/-- `mem_regions_uefi`. -/
def memRegionsUefi : List String :=
  ["EfiReservedMemoryType", "EfiLoaderCode", "EfiLoaderData", "EfiBootServicesCode",
    "EfiBootServicesData", "EfiRuntimeServicesCode", "EfiRuntimeServicesData",
    "EfiConventionalMemory", "EfiUnusableMemory", "EfiACPIReclaimMemory", "EfiACPIMemoryNVS",
    "EfiMemoryMappedIO", "EfiMemoryMappedIOPortSpace", "EfiPalCode", "EfiPersistentMemory",
    "EfiMaxMemoryType"]

/-- The name that the type of an entry indexes; there is none outside the table. -/
def regionName (ent : UnifiedMemoryEntry) : Option String :=
  if ent.isUefi then memRegionsUefi[ent.type]? else memRegionsBios[u32 (ent.type + 2 ^ 32 - 1)]?

/-- What the callback has done: the regions printed, `total_memory` and `max_usable_addr`. -/
structure Scan where
  printed : List (ℕ × ℕ × String × Bool)
  totalMemory : ℕ
  maxUsableAddr : ℕ

/-- The first callback of `initialize_buddy`, unless it reads outside a table of names. -/
def scanRegion (s : Scan) (ent : UnifiedMemoryEntry) : Option Scan :=
  (regionName ent).map fun name =>
    let s := { s with printed := s.printed ++ [(ent.addr, u64 (ent.addr + ent.len), name,
      ent.isUsable)] }
    if !ent.isUsable then s
    else
      let entryEnd := u64 (ent.addr + ent.len)
      { s with
        totalMemory := u64 (s.totalMemory + ent.len)
        maxUsableAddr := if entryEnd > s.maxUsableAddr then entryEnd else s.maxUsableAddr }

/-! ## Safe iteration -/

/-- The size of an entry of a map tag. -/
def entrySize (m : Mem) (tag : ℕ) : ℕ :=
  if tagType m tag = tagTypeMmap then biosEntrySize else efiDescriptorSize

/-- **Iteration is safe**: it comes to its end, every entry it passes is inside the tag, and the
callback of `initialize_buddy` finds a name for each. -/
structure Safe (m : Mem) (tag : ℕ) : Prop where
  terminates : ∃ fuel, (forEach m tag fuel).isSome
  within : ∀ fuel, ∀ c ∈ calls m tag fuel,
    tag ≤ c.1 ∧ c.1 + entrySize m tag ≤ tag + tagSize m tag
  named : ∀ fuel s, (((calls m tag fuel).map Prod.snd).foldlM scanRegion s).isSome

/-- The types with a name: `MULTIBOOT_MEMORY_AVAILABLE` to `MULTIBOOT_MEMORY_BADRAM`, and the types
of `efi_memory_type`. -/
def typeOk (m : Mem) (tag ent : ℕ) : Prop :=
  if tagType m tag = tagTypeMmap then 1 ≤ m.load 4 (ent + 16) ∧ m.load 4 (ent + 16) ≤ 5
  else m.load 4 ent < 16

/-- **A map tag the iteration can take**: if it has room for entries at all, they do not all start at
one place, the last one to start in the tag ends in it, and each has a type with a name. -/
structure Iterable (m : Mem) (tag : ℕ) : Prop where
  strides : 16 < tagSize m tag → stride m tag ≠ 0
  lastFits : 16 < tagSize m tag →
    16 + (tagSize m tag - 17) / stride m tag * stride m tag + entrySize m tag ≤ tagSize m tag
  types : ∀ k, 16 + k * stride m tag < tagSize m tag →
    typeOk m tag (tag + 16 + k * stride m tag)

variable {m : Mem} {tag fuel mmapEnd step ptr size k n : ℕ} {entry : ℕ → UnifiedMemoryEntry}
  {ent : UnifiedMemoryEntry} {es : MemoryMap} {s s' : Scan} {c : ℕ × UnifiedMemoryEntry}

/-! ## The calls are those of the entries before the end -/

/-- **The calls**: those of the first iterations whose place is before the end. -/
theorem mem_loopCalls :
    c ∈ loopCalls entry mmapEnd step fuel ptr ↔
      ∃ k < fuel, ptr + k * step < mmapEnd ∧ c = (ptr + k * step, entry (ptr + k * step)) := by
  induction fuel generalizing ptr with
  | zero => simp [loopCalls]
  | succ fuel ih =>
    rw [loopCalls]
    by_cases hlt : ptr < mmapEnd
    · have hshift (k : ℕ) : ptr + step + k * step = ptr + (k + 1) * step := by ring
      simp only [if_pos hlt, List.mem_cons, ih, hshift]
      constructor
      · rintro (rfl | ⟨k, hk, h⟩)
        · exact ⟨0, Nat.succ_pos fuel, by simpa using hlt, by simp⟩
        · exact ⟨k + 1, Nat.succ_lt_succ hk, h⟩
      · rintro ⟨_ | k, hk, h, rfl⟩
        · exact Or.inl (by simp)
        · exact Or.inr ⟨k, Nat.lt_of_succ_lt_succ hk, h, rfl⟩
    · rw [if_neg hlt]
      refine iff_of_false List.not_mem_nil ?_
      rintro ⟨k, -, h, -⟩
      exact hlt ((Nat.le_add_right ..).trans_lt h)

/-- **The place of a call** tells how many came before it. -/
theorem place_of_loopCalls {before after : List (ℕ × UnifiedMemoryEntry)}
    (h : loopCalls entry mmapEnd step fuel ptr = before ++ c :: after) :
    c.1 = ptr + before.length * step := by
  induction fuel generalizing ptr before with
  | zero => simp [loopCalls] at h
  | succ fuel ih =>
    rw [loopCalls] at h
    split at h
    · cases before with
      | nil =>
        obtain ⟨rfl, -⟩ := List.cons.inj h
        simp
      | cons c' before =>
        rw [ih (List.cons.inj h).2, List.length_cons]
        ring
    · simp at h

/-- **The entries are those of the calls**, once the iteration has come to its end. -/
theorem forEachLoop_eq_some (h : forEachLoop entry mmapEnd step fuel ptr = some es) :
    es = (loopCalls entry mmapEnd step fuel ptr).map Prod.snd := by
  induction fuel generalizing ptr es with
  | zero => exact absurd h.symm (Option.some_ne_none es)
  | succ fuel ih =>
    rw [forEachLoop] at h
    rw [loopCalls]
    split at h
    · obtain ⟨rest, hrest, rfl⟩ := Option.map_eq_some_iff.mp h
      rw [if_pos ‹_›, List.map_cons, ih hrest]
    · rw [if_neg ‹_›, ← Option.some.inj h, List.map_nil]

/-- The loop ends once a place is not before the end. -/
theorem isSome_forEachLoop_of_le (h : mmapEnd ≤ ptr + fuel * step) :
    (forEachLoop entry mmapEnd step (fuel + 1) ptr).isSome := by
  induction fuel generalizing ptr with
  | zero =>
    rw [forEachLoop, if_neg (by omega)]
    rfl
  | succ fuel ih =>
    rw [forEachLoop]
    split
    · rw [Option.isSome_map]
      exact ih (h.trans_eq (by ring))
    · rfl

/-- **The loop comes to its end** unless it starts before the end and does not move. -/
theorem terminates_iff :
    (∃ fuel, (forEachLoop entry mmapEnd step fuel ptr).isSome) ↔ (ptr < mmapEnd → step ≠ 0) := by
  constructor
  · rintro ⟨fuel, hfuel⟩ hlt rfl
    induction fuel with
    | zero => exact Bool.false_ne_true hfuel
    | succ fuel ih =>
      rw [forEachLoop, if_pos hlt, Option.isSome_map] at hfuel
      exact ih hfuel
  · intro h
    by_cases hlt : ptr < mmapEnd
    · have hmul : mmapEnd ≤ mmapEnd * step :=
        Nat.le_mul_of_pos_right _ (Nat.pos_of_ne_zero (h hlt))
      exact ⟨mmapEnd + 1, isSome_forEachLoop_of_le (by omega)⟩
    · exact ⟨1, isSome_forEachLoop_of_le (by omega)⟩

/-! ## Names -/

theorem isSome_scanRegion : (scanRegion s ent).isSome = (regionName ent).isSome := Option.isSome_map

/-- **The callback gets through the entries** that all have a name. -/
theorem isSome_foldlM_scanRegion {es : List UnifiedMemoryEntry} :
    (es.foldlM scanRegion s).isSome ↔ ∀ ent ∈ es, (regionName ent).isSome := by
  induction es generalizing s with
  | nil => simp
  | cons ent es ih =>
    rw [List.foldlM_cons, List.forall_mem_cons, ← isSome_scanRegion (s := s), Option.bind_eq_bind]
    cases hscan : scanRegion s ent with
    | none => exact iff_of_false Bool.false_ne_true fun h => Bool.false_ne_true h.1
    | some s' =>
      rw [Option.bind_some, ih]
      exact ⟨fun h => ⟨rfl, h⟩, And.right⟩

theorem isSome_regionName_bios (m : Mem) (ent : ℕ) :
    (regionName (biosEntry m ent)).isSome ↔ 1 ≤ m.load 4 (ent + 16) ∧ m.load 4 (ent + 16) ≤ 5 := by
  have hlt : m.load 4 (ent + 16) < 2 ^ 32 := (Mem.load_lt m 4 (ent + 16)).trans_eq (by norm_num)
  have hname : regionName (biosEntry m ent)
      = memRegionsBios[u32 (m.load 4 (ent + 16) + 2 ^ 32 - 1)]? := rfl
  have hlength : memRegionsBios.length = 5 := rfl
  rw [hname, isSome_getElem?, hlength, u32_eq]
  omega

theorem isSome_regionName_efi (m : Mem) (ent : ℕ) :
    (regionName (efiEntry m ent)).isSome ↔ m.load 4 ent < 16 := by
  have hname : regionName (efiEntry m ent) = memRegionsUefi[m.load 4 ent]? := rfl
  rw [hname, isSome_getElem?]
  exact Iff.rfl

/-- **The callback sums up the usable memory**, printing apart. -/
theorem scanUsable_of_foldlM (h : es.foldlM scanRegion s = some s') :
    PMM.scanUsable es s.totalMemory s.maxUsableAddr = (s'.totalMemory, s'.maxUsableAddr) := by
  induction es generalizing s with
  | nil =>
    obtain rfl := Option.some.inj h
    rfl
  | cons ent es ih =>
    rw [List.foldlM_cons] at h
    obtain ⟨s₁, hscan, h⟩ := Option.bind_eq_some_iff.mp h
    obtain ⟨name, -, rfl⟩ := Option.map_eq_some_iff.mp hscan
    rw [← ih h, PMM.scanUsable]
    split <;> rfl

/-! ## The entry that starts last -/

/-- **The last to start decides**: the entries that start inside the tag all end in it exactly when
the last of them does. -/
theorem forall_fits_iff (hstep : step ≠ 0) (hsize : 16 < size) :
    (∀ k, 16 + k * step < size → 16 + k * step + n ≤ size) ↔
      16 + (size - 17) / step * step + n ≤ size := by
  have hlast : (size - 17) / step * step ≤ size - 17 := Nat.div_mul_le_self _ _
  constructor
  · intro h
    exact h _ (by omega)
  · intro h k hk
    have hle : k ≤ (size - 17) / step :=
      (Nat.le_div_iff_mul_le (Nat.pos_of_ne_zero hstep)).mpr (by omega)
    have hmul := Nat.mul_le_mul_right step hle
    omega

/-! ## Safe iteration over a map tag -/

/-- The three properties, of the loop over one format. -/
theorem loop_safe_iff (hname : ∀ ent, (regionName (entry ent)).isSome ↔ typeOk m tag ent) :
    ((∃ fuel, (forEachLoop entry (tag + tagSize m tag) (stride m tag) fuel (tag + 16)).isSome) ∧
      (∀ fuel, ∀ c ∈ loopCalls entry (tag + tagSize m tag) (stride m tag) fuel (tag + 16),
        tag ≤ c.1 ∧ c.1 + entrySize m tag ≤ tag + tagSize m tag) ∧
      ∀ fuel s, (((loopCalls entry (tag + tagSize m tag) (stride m tag) fuel (tag + 16)).map
        Prod.snd).foldlM scanRegion s).isSome) ↔ Iterable m tag := by
  have hfits : (∀ fuel, ∀ c ∈ loopCalls entry (tag + tagSize m tag) (stride m tag) fuel (tag + 16),
      tag ≤ c.1 ∧ c.1 + entrySize m tag ≤ tag + tagSize m tag) ↔
      ∀ k, 16 + k * stride m tag < tagSize m tag →
        16 + k * stride m tag + entrySize m tag ≤ tagSize m tag := by
    constructor
    · intro h k hk
      have hcall := (h (k + 1) _ (mem_loopCalls.mpr ⟨k, Nat.lt_succ_self k, by omega, rfl⟩)).2
      dsimp only at hcall
      omega
    · intro h fuel c hc
      obtain ⟨k, -, hk, rfl⟩ := mem_loopCalls.mp hc
      have hend := h k (by omega)
      dsimp only
      omega
  have hnamed : (∀ fuel s, (((loopCalls entry (tag + tagSize m tag) (stride m tag) fuel
      (tag + 16)).map Prod.snd).foldlM scanRegion s).isSome) ↔
      ∀ k, 16 + k * stride m tag < tagSize m tag → typeOk m tag (tag + 16 + k * stride m tag) := by
    simp only [isSome_foldlM_scanRegion, List.forall_mem_map]
    constructor
    · intro h k hk
      exact (hname _).mp (h (k + 1) ⟨[], 0, 0⟩ _
        (mem_loopCalls.mpr ⟨k, Nat.lt_succ_self k, by omega, rfl⟩))
    · intro h fuel _ c hc
      obtain ⟨k, -, hk, rfl⟩ := mem_loopCalls.mp hc
      exact (hname _).mpr (h k (by omega))
  have hmoves : (tag + 16 < tag + tagSize m tag → stride m tag ≠ 0) ↔
      (16 < tagSize m tag → stride m tag ≠ 0) := by
    rw [Nat.add_lt_add_iff_left]
  rw [terminates_iff, hfits, hnamed, hmoves]
  constructor
  · rintro ⟨hstep, hfits, htypes⟩
    exact ⟨hstep, fun hsize => (forall_fits_iff (hstep hsize) hsize).mp hfits, htypes⟩
  · intro h
    refine ⟨h.strides, fun k hk => ?_, h.types⟩
    have hsize : 16 < tagSize m tag := (Nat.le_add_right 16 _).trans_lt hk
    exact (forall_fits_iff (h.strides hsize) hsize).mpr (h.lastFits hsize) k hk

/-- **Iteration is safe** exactly over the map tags that are iterable; over any other tag there is
none. -/
theorem iteration_safe_iff (m : Mem) (tag : ℕ) :
    Safe m tag ↔
      (tag ≠ 0 → tagType m tag = tagTypeMmap ∨ tagType m tag = tagTypeEfiMmap →
        Iterable m tag) := by
  have hsplit : Safe m tag ↔ (∃ fuel, (forEach m tag fuel).isSome) ∧
      (∀ fuel, ∀ c ∈ calls m tag fuel,
        tag ≤ c.1 ∧ c.1 + entrySize m tag ≤ tag + tagSize m tag) ∧
      ∀ fuel s, (((calls m tag fuel).map Prod.snd).foldlM scanRegion s).isSome :=
    ⟨fun h => ⟨h.terminates, h.within, h.named⟩, fun h => ⟨h.1, h.2.1, h.2.2⟩⟩
  rw [hsplit]
  by_cases hnull : tag = 0
  · simp [forEach, calls, hnull]
  by_cases hbios : tagType m tag = tagTypeMmap
  · simp only [forEach, calls, if_neg hnull, if_pos hbios]
    rw [loop_safe_iff fun ent => ?_]
    · simp [hnull, hbios]
    · rw [isSome_regionName_bios, typeOk, if_pos hbios]
  by_cases hefi : tagType m tag = tagTypeEfiMmap
  · simp only [forEach, calls, if_neg hnull, if_neg hbios, if_pos hefi]
    rw [loop_safe_iff fun ent => ?_]
    · simp [hnull, hefi]
    · rw [isSome_regionName_efi, typeOk, if_neg hbios]
  · simp [forEach, calls, hnull, hbios, hefi]

/-- **`for_each` makes the calls** of its entries and no others. -/
theorem forEach_eq_some (h : forEach m tag fuel = some es) :
    es = (calls m tag fuel).map Prod.snd := by
  rw [forEach] at h
  rw [calls]
  split at h
  · rw [if_pos ‹_›, ← Option.some.inj h, List.map_nil]
  rw [if_neg ‹_›]
  split at h
  · rw [if_pos ‹_›, forEachLoop_eq_some h]
  rw [if_neg ‹_›]
  split at h
  · rw [if_pos ‹_›, forEachLoop_eq_some h]
  · rw [if_neg ‹_›, ← Option.some.inj h, List.map_nil]

/-- The entry after some others is that many strides into the tag. -/
theorem place_of_calls {before after : List (ℕ × UnifiedMemoryEntry)}
    (h : calls m tag fuel = before ++ c :: after) :
    c.1 = tag + 16 + before.length * stride m tag := by
  rw [calls] at h
  split at h
  · simp at h
  split at h
  · exact place_of_loopCalls h
  split at h
  · exact place_of_loopCalls h
  · simp at h

/-- **A safe map's entries lie in the tag.** -/
theorem Safe.entry_within (h : Safe m tag) {done rest : MemoryMap}
    (heach : forEach m tag fuel = some (done ++ ent :: rest)) :
    tag + 16 + done.length * stride m tag + entrySize m tag ≤ tag + tagSize m tag := by
  obtain ⟨before, l, hl, rfl, hrest⟩ := List.map_eq_append_iff.mp (forEach_eq_some heach).symm
  obtain ⟨c, after, rfl, -, -⟩ := List.map_eq_cons_iff.mp hrest
  have hc : c ∈ calls m tag fuel := by
    rw [hl]
    exact List.mem_append_right _ List.mem_cons_self
  have hend := (h.within fuel c hc).2
  rwa [place_of_calls hl, ← List.length_map (f := Prod.snd)] at hend

/-- **A safe map is scanned to the end**, and the memory summed up is that of its entries. -/
theorem Safe.exists_scan (h : Safe m tag) (s : Scan) :
    ∃ fuel es s', forEach m tag fuel = some es ∧ es.foldlM scanRegion s = some s' ∧
      PMM.scanUsable es s.totalMemory s.maxUsableAddr = (s'.totalMemory, s'.maxUsableAddr) := by
  obtain ⟨fuel, hfuel⟩ := h.terminates
  obtain ⟨es, hes⟩ := Option.isSome_iff_exists.mp hfuel
  have hscan := h.named fuel s
  rw [← forEach_eq_some hes] at hscan
  obtain ⟨s', hs'⟩ := Option.isSome_iff_exists.mp hscan
  exact ⟨fuel, es, s', hes, hs', scanUsable_of_foldlM hs'⟩

/-! ## A region of an unknown type -/

/-- A BIOS map tag at 8 with one entry, all zeros: the type 0 is none of the known ones. -/
def zeroEntryTag : Mem := fun x => if x = 8 then 6 else if x = 12 then 40 else if x = 16 then 24
  else 0

/-- **The name is looked up outside its table.** -/
theorem not_safe_zeroEntryTag : ¬ ∀ (m : Mem) (tag : ℕ), tag ≠ 0 →
    tagType m tag = tagTypeMmap ∨ tagType m tag = tagTypeEfiMmap → Safe m tag := by
  intro h
  have hnamed := (h zeroEntryTag 8 (by decide) (Or.inl (by decide +kernel))).named 1 ⟨[], 0, 0⟩
  have hcalls : calls zeroEntryTag 8 1 = [(24, biosEntry zeroEntryTag 24)] := by
    have htag : tagType zeroEntryTag 8 = tagTypeMmap := by decide +kernel
    have hsize : tagSize zeroEntryTag 8 = 40 := by decide +kernel
    rw [calls, if_neg (by decide), if_pos htag, hsize]
    rfl
  rw [hcalls, isSome_foldlM_scanRegion] at hnamed
  have hname := (isSome_regionName_bios zeroEntryTag 24).mp (hnamed _ (List.mem_singleton_self _))
  exact absurd hname.1 (by decide +kernel)

end MmapIterator

end MioOS
