import MioOS.Library.Radix
import MioOS.Paging.Defs

/-!
# Paging/Walk — the page tables as multi-level tables

`format` reads a page table entry at its level and `path` turns an address into four indices, so
that the code's walks are walks of `Library/Radix`.  Each operation gets one lemma that says what it
does to the tables; everything else about an operation is derived from it.
-/

namespace MioOS

namespace Paging

open Radix

/-- **How entries are read**, level 3 being the PML4: a huge leaf is known at levels 1 and 2 only. -/
def format : Format ℕ PageTableEntry where
  present := fun e => e.present
  view := fun l e =>
    if e.present = false then .empty
    else if l = 0 ∨ l < 3 ∧ e.hugeOrPat = true then .leaf
    else .table e.physicalAddress
  view_eq_empty_iff := by
    intro l e
    split
    · exact iff_of_true rfl ‹_›
    · split <;> exact iff_of_false nofun ‹_›
  bottom := by
    intro e n
    split
    · nofun
    · rw [if_pos (Or.inl rfl)]
      nofun

/-- The four indices of an address. -/
def path (virt : ℕ) : List (Fin 512) :=
  let va := VirtualAddressFields.decompose virt
  [va.pml4Index, va.pdptIndex, va.pdIndex, va.ptIndex]

variable {e : PageTableEntry} {l virt phys : ℕ}

theorem view_absent (he : e.present = false) : format.view l e = .empty := if_pos he

theorem view_leaf (he : e.present = true) (hl : l = 0 ∨ l < 3 ∧ e.hugeOrPat = true) :
    format.view l e = .leaf := by
  have hne : ¬ e.present = false := by rw [he]; nofun
  exact (if_neg hne).trans (if_pos hl)

theorem view_table (he : e.present = true) (hl : ¬ (l = 0 ∨ l < 3 ∧ e.hugeOrPat = true)) :
    format.view l e = .table e.physicalAddress := by
  have hne : ¬ e.present = false := by rw [he]; nofun
  exact (if_neg hne).trans (if_neg hl)

theorem setPhysicalAddress_address {pa : ℕ} (halign : pa % pageSize = 0) (hlt : pa < 2 ^ 52) :
    (e.setPhysicalAddress pa).physicalAddress = pa := by
  rw [pageSize] at halign
  rw [PageTableEntry.physicalAddress, PageTableEntry.setPhysicalAddress, BitVec.toNat_ofNat,
    pageShift, Nat.shiftRight_eq_div_pow, Nat.shiftLeft_eq]
  omega

theorem view_makeTable {pa : ℕ} {user : Bool} (hl : 0 < l) (halign : pa % pageSize = 0)
    (hlt : pa < 2 ^ 52) : format.view l (.makeTable pa user) = .table pa := by
  rw [view_table rfl]
  · rw [PageTableEntry.makeTable, setPhysicalAddress_address halign hlt]
  · rintro (rfl | ⟨-, hhuge⟩)
    · exact absurd hl (lt_irrefl 0)
    · exact Bool.false_ne_true hhuge

theorem isPageAligned_iff (addr : ℕ) : isPageAligned addr = true ↔ addr % pageSize = 0 := by
  have hmask : addr &&& (pageSize - 1) = addr % pageSize := Nat.and_two_pow_sub_one_eq_mod addr 12
  rw [isPageAligned, hmask, decide_eq_true_iff]

section Head

variable {t : ℕ → Fin 512 → PageTableEntry} {n : ℕ} {i : Fin 512} {v : List (Fin 512)}

theorem trail_cons_absent (he : (t n i).present = false) : trail format t l n (i :: v) = none := by
  rw [trail, view_absent he]

theorem trail_cons_leaf (he : (t n i).present = true)
    (hl : l = 0 ∨ l < 3 ∧ (t n i).hugeOrPat = true) :
    trail format t l n (i :: v) = some [t n i] := by
  rw [trail, view_leaf he hl]

theorem trail_cons_table (he : (t n i).present = true)
    (hl : ¬ (l = 0 ∨ l < 3 ∧ (t n i).hugeOrPat = true)) :
    trail format t l n (i :: v)
      = (trail format t (l - 1) (t n i).physicalAddress v).map (t n i :: ·) := by
  rw [trail, view_table he hl]

end Head

namespace Backend

/-- The walk of an address. -/
def trailOf (s : Backend) (v : List (Fin 512)) : Option (List PageTableEntry) :=
  trail format s.tables 3 s.kernelPml4Phys v

/-- The table a path leads to. -/
def tableAt (s : Backend) (p : List (Fin 512)) : Option ℕ :=
  descend format s.tables 3 s.kernelPml4Phys p

/-- What a walk to a leaf translates an address to. -/
def addressOf (es : List PageTableEntry) (virt : ℕ) : ℕ :=
  (es.getLastD {}).physicalAddress ||| virt % 2 ^ (12 + 9 * (4 - es.length))

variable {s s' : Backend}

/-- **`translate`** reads the walk of the address. -/
theorem translate_eq (s : Backend) (virt : ℕ) :
    s.translate virt = (s.trailOf (path virt)).elim 0 (addressOf · virt) := by
  have h1G : virt &&& (pageSize1G - 1) = virt % 2 ^ 30 := Nat.and_two_pow_sub_one_eq_mod virt 30
  have h2M : virt &&& (pageSize2M - 1) = virt % 2 ^ 21 := Nat.and_two_pow_sub_one_eq_mod virt 21
  have hoff : (VirtualAddressFields.decompose virt).pageOffset.val = virt % 2 ^ 12 := rfl
  rw [translate, trailOf, path, h1G, h2M, hoff]
  generalize VirtualAddressFields.decompose virt = va
  cases h4 : (s.tables s.kernelPml4Phys va.pml4Index).present with
  | false => simp [trail_cons_absent h4]
  | true =>
    rw [trail_cons_table h4 (by omega)]
    generalize s.tables s.kernelPml4Phys va.pml4Index = e4 at *
    cases h3 : (s.tables e4.physicalAddress va.pdptIndex).present with
    | false => simp [trail_cons_absent h3, h3]
    | true =>
      cases hhuge3 : (s.tables e4.physicalAddress va.pdptIndex).hugeOrPat with
      | true =>
        rw [trail_cons_leaf h3 (Or.inr ⟨by norm_num, hhuge3⟩)]
        simp [h3, hhuge3, addressOf]
      | false =>
        rw [trail_cons_table h3 (by rw [hhuge3]; simp)]
        generalize s.tables e4.physicalAddress va.pdptIndex = e3 at *
        cases h2 : (s.tables e3.physicalAddress va.pdIndex).present with
        | false => simp [trail_cons_absent h2, h2, h3, hhuge3]
        | true =>
          cases hhuge2 : (s.tables e3.physicalAddress va.pdIndex).hugeOrPat with
          | true =>
            rw [trail_cons_leaf h2 (Or.inr ⟨by norm_num, hhuge2⟩)]
            simp [h2, h3, hhuge3, hhuge2, addressOf]
          | false =>
            rw [trail_cons_table h2 (by rw [hhuge2]; simp)]
            cases h1 : (s.tables (s.tables e3.physicalAddress va.pdIndex).physicalAddress
                va.ptIndex).present with
            | false => simp [trail_cons_absent h1, h1, h3, hhuge3, hhuge2]
            | true =>
              rw [trail_cons_leaf h1 (Or.inl rfl)]
              simp [h1, h2, h3, hhuge3, hhuge2, addressOf]

/-! ## What the tables keep -/

/-- **Sharing is bounded and new tables are new**: the pages the allocator is going to return are
page frames, each returned once, and none of them is a table in use. -/
structure Sound (A : Aliasing (Fin 512)) (s : Backend) : Prop where
  separate : Separate format A s.tables 3 s.kernelPml4Phys
  frame : ∀ pa ∈ s.allocs, pa ≠ 0 → pa % pageSize = 0 ∧ pa < 2 ^ 52
  fresh : ∀ pa ∈ s.allocs, pa ≠ 0 → ∀ p, s.tableAt p ≠ some pa
  once : (s.allocs.filter (· ≠ 0)).Nodup

/-- **Only new tables appear**: no walk changes and what was present is kept. -/
structure Grows (A : Aliasing (Fin 512)) (s s' : Backend) : Prop where
  sound : s'.Sound A
  root : s'.kernelPml4Phys = s.kernelPml4Phys
  kept : Extends format s.tables s'.tables 3 s.kernelPml4Phys
  trail : ∀ v, s'.trailOf v = s.trailOf v
  allocs : s'.allocs <:+ s.allocs

variable {A : Aliasing (Fin 512)} {n m : ℕ} {i : Fin 512} {p q v : List (Fin 512)} {user : Bool}

theorem Grows.refl (h : s.Sound A) : Grows A s s :=
  ⟨h, rfl, .refl _ _ _, fun _ => rfl, List.suffix_rfl⟩

theorem Grows.trans {s'' : Backend} (h : Grows A s s') (h' : Grows A s' s'') : Grows A s s'' :=
  ⟨h'.sound, h'.root.trans h.root, h.kept.trans (h.root ▸ h'.kept),
    fun v => (h'.trail v).trans (h.trail v), h'.allocs.trans h.allocs⟩

/-- A table stays where it is. -/
theorem Grows.tableAt (h : Grows A s s') (hp : s.tableAt p = some n) : s'.tableAt p = some n := by
  rw [Backend.tableAt, h.root]
  exact h.kept.descend hp

/-- A slot that is present in a table in use is kept. -/
theorem Grows.entry (h : Grows A s s') (hp : s.tableAt p = some n)
    (he : (s.tables n i).present = true) : s'.tables n i = s.tables n i := h.kept p n i hp he

theorem setEntry_tables (s : Backend) (n : ℕ) (i : Fin 512) (e : PageTableEntry) :
    (s.setEntry n i e).tables = write s.tables n i e := rfl

/-- **An empty PML4**, with any pages to come. -/
theorem sound_of_blank (hblank : ∀ i, (s.tables s.kernelPml4Phys i).present = false)
    (hframe : ∀ pa ∈ s.allocs, pa ≠ 0 → pa % pageSize = 0 ∧ pa < 2 ^ 52)
    (hroot : s.kernelPml4Phys ∉ s.allocs) (honce : (s.allocs.filter (· ≠ 0)).Nodup) :
    s.Sound A where
  separate := by
    intro p q t hp hq
    rw [(descend_blank hblank hp).1, (descend_blank hblank hq).1]
    exact A.refl []
  frame := hframe
  fresh := fun pa hpa _ p hp => hroot ((descend_blank hblank hp).2 ▸ hpa)
  once := honce

/-- The allocator fails: nothing else changes. -/
theorem Sound.allocs_tail {pa : ℕ} {rest : List ℕ} (h : s.Sound A) (ha : s.allocs = pa :: rest) :
    Backend.Sound A { s with allocs := rest } := by
  have hmem : ∀ x ∈ rest, x ∈ s.allocs := fun x hx => ha ▸ List.mem_cons_of_mem _ hx
  refine ⟨h.separate, fun x hx => h.frame x (hmem x hx), fun x hx => h.fresh x (hmem x hx), ?_⟩
  have honce := h.once
  rw [ha, List.filter_cons] at honce
  split at honce
  · exact (List.nodup_cons.mp honce).2
  · exact honce

/-- **The next page of the allocator** is not returned again. -/
theorem Sound.not_mem_rest {pa : ℕ} {rest : List ℕ} (h : s.Sound A) (ha : s.allocs = pa :: rest)
    (hpa : pa ≠ 0) : pa ∉ rest := by
  have honce := h.once
  rw [ha, List.filter_cons, if_pos (decide_eq_true hpa)] at honce
  intro hmem
  exact (List.nodup_cons.mp honce).1 (List.mem_filter.mpr ⟨hmem, decide_eq_true hpa⟩)

/-- The state in which a new table has been entered in a slot. -/
def withTable (s : Backend) (n : ℕ) (i : Fin 512) (user : Bool) (pa : ℕ) (rest : List ℕ) : Backend :=
  { s with
    allocs := rest
    tables := write (Function.update s.tables pa fun _ => PageTableEntry.makeEmpty) n i
      (.makeTable pa user) }

theorem withTable_same {pa : ℕ} {rest : List ℕ} :
    (s.withTable n i user pa rest).tables n i = .makeTable pa user := write_same ..

theorem withTable_of_ne {pa : ℕ} {rest : List ℕ} {j : Fin 512} (hne : ¬ (m = n ∧ j = i))
    (hm : m ≠ pa) : (s.withTable n i user pa rest).tables m j = s.tables m j :=
  (write_of_ne hne).trans (congrFun (Function.update_of_ne hm _ _) j)

/-- The new table is blank. -/
theorem withTable_new {pa : ℕ} {rest : List ℕ} {j : Fin 512} (hne : n ≠ pa) :
    (s.withTable n i user pa rest).tables pa j = .makeEmpty := by
  have hblank : Function.update s.tables pa (fun _ => PageTableEntry.makeEmpty) pa
      = fun _ => .makeEmpty := Function.update_self ..
  exact (write_of_ne fun heq => hne heq.1.symm).trans (congrFun hblank j)

section WithTable

variable {pa : ℕ} {rest : List ℕ} (h : s.Sound A) (hp : s.tableAt p = some n)
  (hlen : p.length < 3) (habsent : (s.tables n i).present = false)
  (ha : s.allocs = pa :: rest) (hpa : pa ≠ 0)

include h hp hlen habsent ha hpa

/-- The page cleared for a new table can be entered. -/
theorem insertion_withTable :
    Insertion format A (Function.update s.tables pa fun _ => PageTableEntry.makeEmpty) 3
      s.kernelPml4Phys p n i pa (.makeTable pa user) := by
  have hmem : pa ∈ s.allocs := ha ▸ List.mem_cons_self
  obtain ⟨halign, hlt⟩ := h.frame pa hmem hpa
  exact insertion_of_blanked h.separate hp habsent (fun _ => rfl) (h.fresh pa hmem hpa)
    (view_makeTable (by omega) halign hlt)

/-- The tables in use after a new one is entered. -/
theorem tableAt_withTable (hq : (s.withTable n i user pa rest).tableAt q = some m) :
    s.tableAt q = some m ∨ m = pa := by
  rcases (insertion_withTable h hp hlen habsent ha hpa).descend_cases hq with hold | ⟨rfl, -⟩
  · refine Or.inl ((descend_outside (h.fresh pa (ha ▸ List.mem_cons_self) hpa) ?_).symm.trans hold)
    intro k j hk
    rw [Function.update_of_ne hk]
  · exact Or.inr rfl

/-- **A new table in an empty slot** is only growth. -/
theorem grows_withTable : Grows A s (s.withTable n i user pa rest) ∧
    (s.withTable n i user pa rest).tableAt (p ++ [i]) = some pa := by
  have H : Insertion format A _ 3 s.kernelPml4Phys p n i pa (.makeTable pa user) :=
    insertion_withTable h hp hlen habsent ha hpa
  have hfresh := h.fresh pa (ha ▸ List.mem_cons_self) hpa
  have hout : ∀ k j, k ≠ pa →
      Function.update s.tables pa (fun _ => PageTableEntry.makeEmpty) k j = s.tables k j := by
    intro k j hk
    rw [Function.update_of_ne hk]
  have htail := h.allocs_tail ha
  refine ⟨⟨⟨H.separate_write, htail.frame, ?_, htail.once⟩, rfl, ?_, ?_, ?_⟩, H.descend_new⟩
  · intro x hx hx0 q hq
    rcases tableAt_withTable h hp hlen habsent ha hpa hq with hq | rfl
    · exact htail.fresh x hx hx0 q hq
    · exact h.not_mem_rest ha hpa hx
  · exact (extends_outside hfresh hout).trans (extends_write H.absent)
  · exact fun v => H.trail.trans (trail_outside hfresh hout)
  · exact ha ▸ List.suffix_cons pa rest

end WithTable

/-- **`get_or_create_subtable`, by cases**: the slot is present; the allocator has nothing; or a new
table goes into the slot. -/
theorem getOrCreate_inv {r : Option ℕ} (hr : s.getOrCreateSubtable n i user = (r, s')) :
    (s.tables n i).present = true ∧ r = some (s.tables n i).physicalAddress ∧ s' = s ∨
      (s.tables n i).present = false ∧
        (r = none ∧ (s.allocs = [] ∧ s' = s ∨
            ∃ rest, s.allocs = 0 :: rest ∧ s' = { s with allocs := rest }) ∨
          ∃ pa rest, s.allocs = pa :: rest ∧ pa ≠ 0 ∧ r = some pa ∧
            s' = s.withTable n i user pa rest) := by
  rw [getOrCreateSubtable] at hr
  cases hpresent : (s.tables n i).present with
  | true =>
    simp only [hpresent, if_true, Prod.mk.injEq] at hr
    obtain ⟨rfl, rfl⟩ := hr
    exact Or.inl ⟨rfl, rfl, rfl⟩
  | false =>
    simp only [hpresent, Bool.false_eq_true, if_false, allocPageTable] at hr
    refine Or.inr ⟨rfl, ?_⟩
    cases ha : s.allocs with
    | nil =>
      simp only [ha, if_true, Prod.mk.injEq] at hr
      obtain ⟨rfl, rfl⟩ := hr
      exact Or.inl ⟨rfl, Or.inl ⟨rfl, rfl⟩⟩
    | cons pa rest =>
      by_cases hpa : pa = 0
      · simp only [ha, hpa, if_true, Prod.mk.injEq] at hr
        obtain ⟨rfl, rfl⟩ := hr
        exact Or.inl ⟨rfl, Or.inr ⟨rest, by rw [hpa], rfl⟩⟩
      · simp only [ha, hpa, if_false, Prod.mk.injEq] at hr
        obtain ⟨rfl, rfl⟩ := hr
        exact Or.inr ⟨pa, rest, rfl, hpa, rfl, rfl⟩

/-- **`get_or_create_subtable`** for a slot that is no leaf: the tables grow at most, and unless the
allocator fails the slot names the table returned. -/
theorem getOrCreate_cases (h : s.Sound A) (hp : s.tableAt p = some n) (hlen : p.length < 3)
    (hview : format.view (3 - p.length) (s.tables n i) ≠ .leaf) {r : Option ℕ}
    (hr : s.getOrCreateSubtable n i user = (r, s')) :
    Grows A s s' ∧ (r = none ∧ (0 ∈ s.allocs ∨ s'.allocs = []) ∨
      ∃ m, r = some m ∧ s'.tableAt (p ++ [i]) = some m) := by
  rcases getOrCreate_inv hr with ⟨hpresent, rfl, rfl⟩ | ⟨habsent, ⟨rfl, ⟨ha, rfl⟩ |
    ⟨rest, ha, rfl⟩⟩ | ⟨pa, rest, ha, hpa, rfl, rfl⟩⟩
  · refine ⟨.refl h, Or.inr ⟨_, rfl, descend_snoc hp (view_table hpresent fun hleaf => ?_)⟩⟩
    exact hview (view_leaf hpresent hleaf)
  · exact ⟨.refl h, Or.inl ⟨rfl, Or.inr ha⟩⟩
  · have hsound := h.allocs_tail ha
    refine ⟨⟨hsound, rfl, .refl _ _ _, fun _ => rfl, ha ▸ List.suffix_cons 0 rest⟩,
      Or.inl ⟨rfl, Or.inl ?_⟩⟩
    exact ha ▸ List.mem_cons_self
  · obtain ⟨hgrows, htable⟩ := @grows_withTable _ _ _ _ _ user _ _ h hp hlen habsent ha hpa
    exact ⟨hgrows, Or.inr ⟨pa, rfl, htable⟩⟩

/-! ## Writing a leaf or clearing one -/

section SetEntry

variable {e : PageTableEntry} (h : s.Sound A) (hp : s.tableAt p = some n)
  (hslot : ∀ m, format.view (3 - p.length) (s.tables n i) ≠ .table m)

include h hp

/-- **Frame**: the walks through no alias of the slot stay. -/
theorem trailOf_setEntry_of_not_rel (hv : ¬ A.rel (v.take (p.length + 1)) (p ++ [i])) :
    (s.setEntry n i e).trailOf v = s.trailOf v :=
  trail_write_of_not_visits fun hvis => hv (h.separate.of_visits hp hvis)

include hslot

theorem tableAt_setEntry (hq : s.tableAt q = some m) : (s.setEntry n i e).tableAt q = some m :=
  descend_write h.separate hp hslot hq

theorem trailOf_setEntry_leaf (he : format.view (3 - p.length) e = .leaf) (rest : List (Fin 512)) :
    (s.setEntry n i e).trailOf (p ++ i :: rest)
      = some (spine format s.tables 3 s.kernelPml4Phys p ++ [e]) :=
  trail_write_leaf h.separate hp hslot he

theorem trailOf_setEntry_empty (he : format.view (3 - p.length) e = .empty)
    (rest : List (Fin 512)) : (s.setEntry n i e).trailOf (p ++ i :: rest) = none :=
  trail_write_empty h.separate hp hslot he

theorem sound_setEntry (he : ∀ m, format.view (3 - p.length) e ≠ .table m) :
    (s.setEntry n i e).Sound A where
  separate := separate_write h.separate hp hslot he
  frame := h.frame
  fresh := fun pa hpa h0 q hq =>
    h.fresh pa hpa h0 q (descend_of_write h.separate hp hslot he hq)
  once := h.once

end SetEntry

/-! ## `map_page` -/

/-- The number of indices a mapping of this size uses. -/
def leafDepth (flags : PageFlags) : ℕ :=
  if flags.has .huge1G then 2 else if flags.has .huge2M then 3 else 4

theorem two_le_leafDepth (flags : PageFlags) : 2 ≤ leafDepth flags := by
  rw [leafDepth]
  split
  · norm_num
  · split <;> norm_num

theorem leafDepth_le (flags : PageFlags) : leafDepth flags ≤ 4 := by
  rw [leafDepth]
  split
  · norm_num
  · split <;> norm_num

/-- The leaf `map_page` makes. -/
def leafOf (phys : ℕ) (flags : PageFlags) : PageTableEntry :=
  if flags.has .huge1G then .makeHuge1g phys flags
  else if flags.has .huge2M then .makeHuge2m phys flags
  else .makePage phys flags

/-- **What is in the way of a new leaf**: a leaf on the walk of the address, or an entry in the very
slot the new leaf should go to. -/
structure Blocked (s : Backend) (virt : ℕ) (flags : PageFlags) (p : List (Fin 512)) (n : ℕ)
    (i : Fin 512) : Prop where
  slotPath : p ++ [i] <+: path virt
  table : s.tableAt p = some n
  entry : format.view (3 - p.length) (s.tables n i) = .leaf ∨
    (s.tables n i).present = true ∧ p.length + 1 = leafDepth flags

/-- **A call of `map_page` that maps nothing**, by its result. -/
inductive MapFailure (A : Aliasing (Fin 512)) (cpu : CpuFeatures) (s : Backend) (virt phys : ℕ)
    (flags : PageFlags) (s' : Backend) : PagingError → Prop
  | invalidAlignment : ¬ (virt % pageSize = 0 ∧ phys % pageSize = 0) → Grows A s s' →
      MapFailure A cpu s virt phys flags s' .invalidAlignment
  | outOfMemory : 0 ∈ s.allocs ∨ s'.allocs = [] → Grows A s s' →
      MapFailure A cpu s virt phys flags s' .outOfMemory
  | alreadyMapped (p : List (Fin 512)) (n : ℕ) (i : Fin 512) : Blocked s' virt flags p n i →
      Grows A s s' → MapFailure A cpu s virt phys flags s' .alreadyMapped
  | hardwareFault : flags.has .huge1G = true → cpu.hasPdpe1gb = false → Grows A s s' →
      MapFailure A cpu s virt phys flags s' .hardwareFault

/-- **A call of `map_page` that succeeds**: an empty slot on the walk of the address gets the leaf,
in tables that have grown. -/
structure Mapped (A : Aliasing (Fin 512)) (cpu : CpuFeatures) (s : Backend) (virt phys : ℕ)
    (flags : PageFlags) (s₁ : Backend) (p : List (Fin 512)) (n : ℕ) (i : Fin 512) : Prop where
  aligned : virt % pageSize = 0 ∧ phys % pageSize = 0
  grows : Grows A s s₁
  slotPath : p ++ [i] = (path virt).take (leafDepth flags)
  table : s₁.tableAt p = some n
  absent : (s₁.tables n i).present = false
  view : format.view (3 - p.length) (leafEntry cpu (leafOf phys flags)) = .leaf

theorem MapFailure.grows {cpu : CpuFeatures} {flags : PageFlags} {r : PagingError}
    (h : MapFailure A cpu s virt phys flags s' r) : Grows A s s' := by
  cases h <;> assumption

theorem MapFailure.ne_success {cpu : CpuFeatures} {flags : PageFlags} {r : PagingError}
    (h : MapFailure A cpu s virt phys flags s' r) : r ≠ .success := by
  cases h <;> nofun

/-- A walk that ends in a leaf at a slot of a table in use. -/
theorem trailOf_of_leaf (hp : s.tableAt p = some n)
    (hview : format.view (3 - p.length) (s.tables n i) = .leaf) (rest : List (Fin 512)) :
    s.trailOf (p ++ i :: rest)
      = some (spine format s.tables 3 s.kernelPml4Phys p ++ [s.tables n i]) := by
  rw [trailOf, trail_append hp, trail, hview]
  rfl

/-- A walk that ends at an empty slot of a table in use. -/
theorem trailOf_of_absent (hp : s.tableAt p = some n) (habsent : (s.tables n i).present = false)
    (rest : List (Fin 512)) : s.trailOf (p ++ i :: rest) = none := by
  rw [trailOf, trail_append hp, trail_cons_absent habsent]
  rfl

/-- **A leaf in the way** ends the walk of the address. -/
theorem Blocked.trail_ne_none {flags : PageFlags} (h : Blocked s virt flags p n i)
    (hleaf : format.view (3 - p.length) (s.tables n i) = .leaf) : s.trailOf (path virt) ≠ none := by
  obtain ⟨rest, hrest⟩ := h.slotPath
  rw [← hrest, List.append_assoc, List.singleton_append, trailOf_of_leaf h.table hleaf]
  exact Option.some_ne_none _

theorem tableAt_nil (s : Backend) : s.tableAt [] = some s.kernelPml4Phys := rfl

theorem view_pml4_ne_leaf (e : PageTableEntry) : format.view 3 e ≠ .leaf := by
  cases hpresent : e.present with
  | false => rw [view_absent hpresent]; nofun
  | true => rw [view_table hpresent (by omega)]; nofun

/-- The test the code makes for a huge leaf. -/
theorem view_ne_leaf {l : ℕ} (hl : 0 < l) (h : ¬ (e.present && e.hugeOrPat) = true) :
    format.view l e ≠ .leaf := by
  cases hpresent : e.present with
  | false => rw [view_absent hpresent]; nofun
  | true =>
    rw [hpresent, Bool.true_and] at h
    rw [view_table hpresent (by rintro (rfl | ⟨-, hhuge⟩); exacts [lt_irrefl 0 hl, h hhuge])]
    nofun

theorem view_eq_leaf {l : ℕ} (hl : l < 3) (h : (e.present && e.hugeOrPat) = true) :
    format.view l e = .leaf := by
  rw [Bool.and_eq_true] at h
  exact view_leaf h.1 (Or.inr ⟨hl, h.2⟩)

/-- A leaf stays a leaf without `no_execute`. -/
theorem view_leafEntry (cpu : CpuFeatures) (l : ℕ) (e : PageTableEntry) :
    format.view l (leafEntry cpu e) = format.view l e := by
  rw [leafEntry]
  split <;> rfl

/-- The leaf `map_page` makes is a leaf at its level. -/
theorem view_leafOf (cpu : CpuFeatures) (phys : ℕ) (flags : PageFlags) :
    format.view (4 - leafDepth flags) (leafEntry cpu (leafOf phys flags)) = .leaf := by
  rw [view_leafEntry, leafDepth, leafOf]
  split
  · refine view_leaf rfl (Or.inr ⟨by norm_num, ?_⟩)
    show (flags.has .huge2M || flags.has .huge1G || flags.has .writeCombining) = true
    rw [‹flags.has .huge1G = true›, Bool.or_true, Bool.true_or]
  · split
    · refine view_leaf rfl (Or.inr ⟨by norm_num, ?_⟩)
      show (flags.has .huge2M || flags.has .huge1G || flags.has .writeCombining) = true
      rw [‹flags.has .huge2M = true›, Bool.true_or, Bool.true_or]
    · exact view_leaf rfl (Or.inl rfl)

section MapPage

variable {cpu : CpuFeatures} {flags : PageFlags} {P : Backend → Prop}

/-- **Making one table on the walk of `map_page`** keeps `P`. -/
def KeptOnWalk (A : Aliasing (Fin 512)) (P : Backend → Prop) (virt : ℕ) (flags : PageFlags) : Prop :=
  ∀ (s s' : Backend) (p : List (Fin 512)) (n : ℕ) (i : Fin 512) (r : Option ℕ), s.Sound A → P s →
    s.tableAt p = some n → p.length + 1 < leafDepth flags → p ++ [i] <+: path virt →
    format.view (3 - p.length) (s.tables n i) ≠ .leaf →
    s.getOrCreateSubtable n i (flags.has .user) = (r, s') → P s'

/-- One level of the walk of `map_page`, after the tables have grown from `s` to `s₁`. -/
theorem level_cases {s₁ s₂ : Backend} {r : Option ℕ} (hs : Grows A s s₁) (hP : P s₁)
    (hkept : KeptOnWalk A P virt flags) (hp : s₁.tableAt p = some n)
    (hdepth : p.length + 1 < leafDepth flags) (hpath : p ++ [i] <+: path virt)
    (hview : format.view (3 - p.length) (s₁.tables n i) ≠ .leaf)
    (hr : s₁.getOrCreateSubtable n i (flags.has .user) = (r, s₂)) :
    Grows A s s₂ ∧ P s₂ ∧ (r = none ∧ (0 ∈ s.allocs ∨ s₂.allocs = []) ∨
      ∃ m, r = some m ∧ s₂.tableAt (p ++ [i]) = some m) := by
  have hlen : p.length < 3 := by
    have hle := leafDepth_le flags
    omega
  obtain ⟨hgrows, hcases⟩ := getOrCreate_cases hs.sound hp hlen hview hr
  refine ⟨hs.trans hgrows, hkept s₁ s₂ p n i r hs.sound hP hp hdepth hpath hview hr, ?_⟩
  rcases hcases with ⟨rfl, hempty⟩ | ⟨m, rfl, htable⟩
  · exact Or.inl ⟨rfl, hempty.imp_left fun hmem => hs.allocs.subset hmem⟩
  · exact Or.inr ⟨m, rfl, htable⟩

/-- **How a call of `map_page` ends**: a failure, or the leaf goes into an empty slot. -/
def MapOutcome (A : Aliasing (Fin 512)) (cpu : CpuFeatures) (P : Backend → Prop) (s : Backend)
    (virt phys : ℕ) (flags : PageFlags) (out : PagingError × Backend) : Prop :=
  (MapFailure A cpu s virt phys flags out.2 out.1 ∧ P out.2) ∨
    out.1 = .success ∧ ∃ s₁ p n i, Mapped A cpu s virt phys flags s₁ p n i ∧ P s₁ ∧
      out.2 = s₁.setEntry n i (leafEntry cpu (leafOf phys flags))

section Outcome

variable {s₁ : Backend} (hs : Grows A s s₁) (hP : P s₁) (hp : s₁.tableAt p = some n)

include hs hP

/-- A leaf on the walk is in the way. -/
theorem MapOutcome.blocked (hblocked : Blocked s₁ virt flags p n i) :
    MapOutcome A cpu P s virt phys flags (.alreadyMapped, s₁) :=
  Or.inl ⟨.alreadyMapped p n i hblocked hs, hP⟩

include hp

/-- **The next level of the walk**: the table is there or is made, and the walk goes on. -/
theorem MapOutcome.level {k : ℕ → Backend → PagingError × Backend}
    (hkept : KeptOnWalk A P virt flags) (hdepth : p.length + 1 < leafDepth flags)
    (hpath : p ++ [i] <+: path virt) (hview : format.view (3 - p.length) (s₁.tables n i) ≠ .leaf)
    (hk : ∀ m s₂, Grows A s s₂ → P s₂ → s₂.tableAt (p ++ [i]) = some m →
      MapOutcome A cpu P s virt phys flags (k m s₂)) :
    MapOutcome A cpu P s virt phys flags
      (match s₁.getOrCreateSubtable n i (flags.has .user) with
      | (none, s₂) => (.outOfMemory, s₂)
      | (some m, s₂) => k m s₂) := by
  rcases hr : s₁.getOrCreateSubtable n i (flags.has .user) with ⟨r, s₂⟩
  obtain ⟨hgrows, hP₂, ⟨rfl, hempty⟩ | ⟨m, rfl, htable⟩⟩ :=
    level_cases hs hP hkept hp hdepth hpath hview hr
  · exact Or.inl ⟨.outOfMemory hempty hgrows, hP₂⟩
  · exact hk m s₂ hgrows hP₂ htable

/-- **The slot of the leaf** takes it if it is empty. -/
theorem MapOutcome.leaf (haligned : virt % pageSize = 0 ∧ phys % pageSize = 0)
    (hslot : p ++ [i] = (path virt).take (leafDepth flags)) (hlen : p.length + 1 = leafDepth flags) :
    MapOutcome A cpu P s virt phys flags
      (if (s₁.tables n i).present then (.alreadyMapped, s₁)
      else (.success, s₁.setEntry n i (leafEntry cpu (leafOf phys flags)))) := by
  have hview : format.view (3 - p.length) (leafEntry cpu (leafOf phys flags)) = .leaf := by
    have hdepth : 3 - p.length = 4 - leafDepth flags := by omega
    rw [hdepth]
    exact view_leafOf cpu phys flags
  cases hpresent : (s₁.tables n i).present with
  | true => exact .blocked hs hP ⟨hslot ▸ List.take_prefix _ _, hp, Or.inr ⟨hpresent, hlen⟩⟩
  | false => exact Or.inr ⟨rfl, s₁, p, n, i, ⟨haligned, hs, hslot, hp, hpresent, hview⟩, hP, rfl⟩

end Outcome

/-- **`map_page`**: a failure, or the leaf goes into an empty slot. -/
theorem mapOutcome_mapPage (h : s.Sound A) (h₀ : P s) (hkept : KeptOnWalk A P virt flags) :
    MapOutcome A cpu P s virt phys flags (s.mapPage cpu virt phys flags) := by
  rw [mapPage]
  by_cases hvirt : virt % pageSize = 0
  swap
  · rw [if_pos (by rw [Bool.not_eq_true', ← Bool.not_eq_true, isPageAligned_iff]; exact hvirt)]
    exact Or.inl ⟨.invalidAlignment (fun hand => hvirt hand.1) (.refl h), h₀⟩
  by_cases hphys : phys % pageSize = 0
  swap
  · rw [if_neg (by rw [(isPageAligned_iff virt).mpr hvirt]; exact Bool.false_ne_true),
      if_pos (by rw [Bool.not_eq_true', ← Bool.not_eq_true, isPageAligned_iff]; exact hphys)]
    exact Or.inl ⟨.invalidAlignment (fun hand => hphys hand.2) (.refl h), h₀⟩
  rw [if_neg (by rw [(isPageAligned_iff virt).mpr hvirt]; exact Bool.false_ne_true),
    if_neg (by rw [(isPageAligned_iff phys).mpr hphys]; exact Bool.false_ne_true)]
  have hpath : path virt = [(VirtualAddressFields.decompose virt).pml4Index,
    (VirtualAddressFields.decompose virt).pdptIndex, (VirtualAddressFields.decompose virt).pdIndex,
    (VirtualAddressFields.decompose virt).ptIndex] := rfl
  generalize VirtualAddressFields.decompose virt = va at hpath ⊢
  -- the PML4
  refine .level (.refl h) h₀ s.tableAt_nil hkept (two_le_leafDepth flags) (by rw [hpath]; exact ⟨_, rfl⟩)
    (view_pml4_ne_leaf _) fun pdpt s₁ hg₁ hP₁ htable₁ => ?_
  by_cases hhuge : ((s₁.tables pdpt va.pdptIndex).present
      && (s₁.tables pdpt va.pdptIndex).hugeOrPat) = true
  · rw [if_pos hhuge]
    exact .blocked hg₁ hP₁ ⟨by rw [hpath]; exact ⟨_, rfl⟩, htable₁,
      Or.inl (view_eq_leaf (by norm_num) hhuge)⟩
  rw [if_neg hhuge]
  by_cases h1G : flags.has .huge1G = true
  · have hdepth : leafDepth flags = 2 := by rw [leafDepth, if_pos h1G]
    have hleaf : leafOf phys flags = .makeHuge1g phys flags := by rw [leafOf, if_pos h1G]
    rw [if_pos h1G, ← hleaf]
    cases hcpu : cpu.hasPdpe1gb with
    | false => exact Or.inl ⟨.hardwareFault h1G hcpu hg₁, hP₁⟩
    | true => exact .leaf hg₁ hP₁ htable₁ ⟨hvirt, hphys⟩ (by rw [hpath, hdepth]; rfl) hdepth.symm
  rw [if_neg h1G]
  have hdepth₂ : 2 < leafDepth flags := by
    rw [leafDepth, if_neg h1G]
    split <;> norm_num
  -- the PDPT
  refine .level hg₁ hP₁ htable₁ hkept hdepth₂ (by rw [hpath]; exact ⟨_, rfl⟩)
    (view_ne_leaf (by norm_num) hhuge) fun pd s₂ hg₂ hP₂ htable₂ => ?_
  by_cases hhuge₂ : ((s₂.tables pd va.pdIndex).present
      && (s₂.tables pd va.pdIndex).hugeOrPat) = true
  · rw [if_pos hhuge₂]
    exact .blocked hg₂ hP₂ ⟨by rw [hpath]; exact ⟨_, rfl⟩, htable₂,
      Or.inl (view_eq_leaf (by norm_num) hhuge₂)⟩
  rw [if_neg hhuge₂]
  by_cases h2M : flags.has .huge2M = true
  · have hdepth : leafDepth flags = 3 := by rw [leafDepth, if_neg h1G, if_pos h2M]
    have hleaf : leafOf phys flags = .makeHuge2m phys flags := by
      rw [leafOf, if_neg h1G, if_pos h2M]
    rw [if_pos h2M, ← hleaf]
    exact .leaf hg₂ hP₂ htable₂ ⟨hvirt, hphys⟩ (by rw [hpath, hdepth]; rfl) hdepth.symm
  have hdepth : leafDepth flags = 4 := by rw [leafDepth, if_neg h1G, if_neg h2M]
  have hleaf : leafOf phys flags = .makePage phys flags := by rw [leafOf, if_neg h1G, if_neg h2M]
  rw [if_neg h2M, ← hleaf]
  -- the PD and the page table
  refine .level hg₂ hP₂ htable₂ hkept (by rw [hdepth]; norm_num) (by rw [hpath]; exact ⟨_, rfl⟩)
    (view_ne_leaf (by norm_num) hhuge₂) fun pt s₃ hg₃ hP₃ htable₃ => ?_
  exact .leaf hg₃ hP₃ htable₃ ⟨hvirt, hphys⟩ (by rw [hpath, hdepth]; rfl) hdepth.symm

/-- The same, for a call that has returned. -/
theorem mapPage_cases {r : PagingError} (h : s.Sound A) (h₀ : P s) (hkept : KeptOnWalk A P virt flags)
    (hr : s.mapPage cpu virt phys flags = (r, s')) :
    (MapFailure A cpu s virt phys flags s' r ∧ P s') ∨
      r = .success ∧ ∃ s₁ p n i, Mapped A cpu s virt phys flags s₁ p n i ∧ P s₁ ∧
        s' = s₁.setEntry n i (leafEntry cpu (leafOf phys flags)) := by
  have hout : MapOutcome A cpu P s virt phys flags (s.mapPage cpu virt phys flags) :=
    mapOutcome_mapPage h h₀ hkept
  rwa [hr] at hout

section Mapped

variable {cpu : CpuFeatures} {flags : PageFlags} {s₁ : Backend}

theorem length_path (virt : ℕ) : (path virt).length = 4 := rfl

theorem Mapped.length (h : Mapped A cpu s virt phys flags s₁ p n i) :
    p.length + 1 = leafDepth flags := by
  have hlen := congrArg List.length h.slotPath
  rwa [List.length_append, List.length_singleton, List.length_take, length_path,
    min_eq_left (leafDepth_le flags)] at hlen

theorem Mapped.slot (h : Mapped A cpu s virt phys flags s₁ p n i) (m : ℕ) :
    format.view (3 - p.length) (s₁.tables n i) ≠ .table m := slot_of_absent h.absent m

/-- A walk that begins with the indices of the mapping. -/
theorem Mapped.append_drop (h : Mapped A cpu s virt phys flags s₁ p n i)
    (hv : v.take (leafDepth flags) = (path virt).take (leafDepth flags)) :
    v = p ++ i :: v.drop (leafDepth flags) := by
  have hcut := List.take_append_drop (leafDepth flags) v
  rw [hv, ← h.slotPath, List.append_assoc, List.singleton_append] at hcut
  exact hcut.symm

/-- Nothing was mapped there. -/
theorem Mapped.before (h : Mapped A cpu s virt phys flags s₁ p n i)
    (hv : v.take (leafDepth flags) = (path virt).take (leafDepth flags)) : s.trailOf v = none := by
  rw [← h.grows.trail, h.append_drop hv]
  exact trailOf_of_absent h.table h.absent _

/-- **The walk of the address ends in the new leaf.** -/
theorem Mapped.after (h : Mapped A cpu s virt phys flags s₁ p n i)
    (hv : v.take (leafDepth flags) = (path virt).take (leafDepth flags)) :
    (s₁.setEntry n i (leafEntry cpu (leafOf phys flags))).trailOf v
      = some (spine format s₁.tables 3 s₁.kernelPml4Phys p
          ++ [leafEntry cpu (leafOf phys flags)]) := by
  rw [h.append_drop hv]
  exact trailOf_setEntry_leaf h.grows.sound h.table h.slot h.view _

/-- **Frame**: the walks through no alias of the new leaf stay. -/
theorem Mapped.frame (h : Mapped A cpu s virt phys flags s₁ p n i)
    (hv : ¬ A.rel (v.take (leafDepth flags)) ((path virt).take (leafDepth flags))) :
    (s₁.setEntry n i (leafEntry cpu (leafOf phys flags))).trailOf v = s.trailOf v := by
  rw [← h.grows.trail]
  refine trailOf_setEntry_of_not_rel h.grows.sound h.table ?_
  rwa [h.length, h.slotPath]

theorem Mapped.sound (h : Mapped A cpu s virt phys flags s₁ p n i) :
    (s₁.setEntry n i (leafEntry cpu (leafOf phys flags))).Sound A :=
  sound_setEntry h.grows.sound h.table h.slot fun m => by rw [h.view]; nofun

/-- **What is present is kept.** -/
theorem Mapped.kept (h : Mapped A cpu s virt phys flags s₁ p n i) :
    Extends format s.tables (s₁.setEntry n i (leafEntry cpu (leafOf phys flags))).tables 3
      s.kernelPml4Phys :=
  h.grows.kept.trans (extends_write h.absent)

/-- **Every walk to a leaf is kept.** -/
theorem Mapped.keeps_trail (h : Mapped A cpu s virt phys flags s₁ p n i) {es : List PageTableEntry}
    (hes : s.trailOf v = some es) :
    (s₁.setEntry n i (leafEntry cpu (leafOf phys flags))).trailOf v = some es := by
  have hroot : (s₁.setEntry n i (leafEntry cpu (leafOf phys flags))).kernelPml4Phys
      = s.kernelPml4Phys := h.grows.root
  rw [trailOf, hroot]
  exact h.kept.trail hes

end Mapped

/-! ## `unmap_page` and `protect_page` -/

/-- **A leaf on the walk of an address**, at a slot of a table in use. -/
structure LeafAt (s : Backend) (virt : ℕ) (p : List (Fin 512)) (n : ℕ) (i : Fin 512) : Prop where
  slotPath : p ++ [i] <+: path virt
  table : s.tableAt p = some n
  view : format.view (3 - p.length) (s.tables n i) = .leaf

/-- **`unmap_page`**: nothing is mapped and nothing changes, or the leaf is cleared. -/
theorem unmapPage_cases {r : PagingError} (hr : s.unmapPage virt = (r, s')) :
    (r = .invalidAlignment ∧ virt % pageSize ≠ 0 ∧ s' = s) ∨
      virt % pageSize = 0 ∧
        (r = .notMapped ∧ s.trailOf (path virt) = none ∧ s' = s ∨
          r = .success ∧ ∃ p n i, LeafAt s virt p n i ∧ s' = s.setEntry n i .makeEmpty) := by
  rw [unmapPage] at hr
  by_cases hvirt : virt % pageSize = 0
  swap
  · rw [if_pos (by rw [Bool.not_eq_true', ← Bool.not_eq_true, isPageAligned_iff]; exact hvirt),
      Prod.mk.injEq] at hr
    obtain ⟨rfl, rfl⟩ := hr
    exact Or.inl ⟨rfl, hvirt, rfl⟩
  rw [if_neg (by rw [(isPageAligned_iff virt).mpr hvirt]; exact Bool.false_ne_true)] at hr
  refine Or.inr ⟨hvirt, ?_⟩
  have hpath : path virt = [(VirtualAddressFields.decompose virt).pml4Index,
    (VirtualAddressFields.decompose virt).pdptIndex, (VirtualAddressFields.decompose virt).pdIndex,
    (VirtualAddressFields.decompose virt).ptIndex] := rfl
  generalize VirtualAddressFields.decompose virt = va at hr hpath
  simp only at hr
  have h₀ := s.tableAt_nil
  cases h4 : (s.tables s.kernelPml4Phys va.pml4Index).present with
  | false =>
    rw [h4, Bool.not_false, if_pos rfl, Prod.mk.injEq] at hr
    obtain ⟨rfl, rfl⟩ := hr
    exact Or.inl ⟨rfl, by rw [hpath]; exact trailOf_of_absent h₀ h4 _, rfl⟩
  | true =>
  rw [h4, Bool.not_true, if_neg Bool.false_ne_true] at hr
  have h₁ : s.tableAt [va.pml4Index] = some _ := descend_snoc h₀ (view_table h4 (by simp))
  cases h3 : (s.tables (s.tables s.kernelPml4Phys va.pml4Index).physicalAddress
      va.pdptIndex).present with
  | false =>
    rw [h3, Bool.not_false, if_pos rfl, Prod.mk.injEq] at hr
    obtain ⟨rfl, rfl⟩ := hr
    exact Or.inl ⟨rfl, by rw [hpath]; exact trailOf_of_absent h₁ h3 _, rfl⟩
  | true =>
  rw [h3, Bool.not_true, if_neg Bool.false_ne_true] at hr
  generalize hpdpt : (s.tables s.kernelPml4Phys va.pml4Index).physicalAddress = pdpt at *
  cases hhuge : (s.tables pdpt va.pdptIndex).hugeOrPat with
  | true =>
    rw [hhuge, if_pos rfl, Prod.mk.injEq] at hr
    obtain ⟨rfl, rfl⟩ := hr
    exact Or.inr ⟨rfl, [va.pml4Index], pdpt, va.pdptIndex,
      ⟨hpath ▸ ⟨_, rfl⟩, h₁, view_leaf h3 (Or.inr ⟨by norm_num, hhuge⟩)⟩, rfl⟩
  | false =>
  rw [hhuge, if_neg Bool.false_ne_true] at hr
  have h₂ : s.tableAt [va.pml4Index, va.pdptIndex] = some _ :=
    descend_snoc h₁ (view_table h3 (by rw [hhuge]; simp))
  generalize hpd : (s.tables pdpt va.pdptIndex).physicalAddress = pd at *
  cases h2 : (s.tables pd va.pdIndex).present with
  | false =>
    rw [h2, Bool.not_false, if_pos rfl, Prod.mk.injEq] at hr
    obtain ⟨rfl, rfl⟩ := hr
    exact Or.inl ⟨rfl, by rw [hpath]; exact trailOf_of_absent h₂ h2 _, rfl⟩
  | true =>
  rw [h2, Bool.not_true, if_neg Bool.false_ne_true] at hr
  cases hhuge₂ : (s.tables pd va.pdIndex).hugeOrPat with
  | true =>
    rw [hhuge₂, if_pos rfl, Prod.mk.injEq] at hr
    obtain ⟨rfl, rfl⟩ := hr
    exact Or.inr ⟨rfl, [va.pml4Index, va.pdptIndex], pd, va.pdIndex,
      ⟨hpath ▸ ⟨_, rfl⟩, h₂, view_leaf h2 (Or.inr ⟨by norm_num, hhuge₂⟩)⟩, rfl⟩
  | false =>
  rw [hhuge₂, if_neg Bool.false_ne_true] at hr
  have h₃ : s.tableAt [va.pml4Index, va.pdptIndex, va.pdIndex] = some _ :=
    descend_snoc h₂ (view_table h2 (by rw [hhuge₂]; simp))
  generalize hpt : (s.tables pd va.pdIndex).physicalAddress = pt at *
  cases h1 : (s.tables pt va.ptIndex).present with
  | false =>
    rw [h1, Bool.not_false, if_pos rfl, Prod.mk.injEq] at hr
    obtain ⟨rfl, rfl⟩ := hr
    exact Or.inl ⟨rfl, by rw [hpath]; exact trailOf_of_absent h₃ h1 _, rfl⟩
  | true =>
    rw [h1, Bool.not_true, if_neg Bool.false_ne_true, Prod.mk.injEq] at hr
    obtain ⟨rfl, rfl⟩ := hr
    exact Or.inr ⟨rfl, [va.pml4Index, va.pdptIndex, va.pdIndex], pt, va.ptIndex,
      ⟨hpath ▸ ⟨_, rfl⟩, h₃, view_leaf h1 (Or.inl rfl)⟩, rfl⟩

/-- **`protect_page`**: nothing changes, or the 4 KiB leaf of the address is written again; where the
walk meets a huge leaf, a success says nothing more. -/
theorem protectPage_cases {r : PagingError} (hr : s.protectPage cpu virt flags = (r, s')) :
    r ≠ .success ∧ s' = s ∨
      r = .success ∧ ∃ p n i, LeafAt s virt p n i ∧
        (p.length = 3 ∧
            s' = s.setEntry n i (leafEntry cpu (.makePage (s.tables n i).physicalAddress flags)) ∨
          p.length < 3) := by
  rw [protectPage] at hr
  by_cases hvirt : virt % pageSize = 0
  swap
  · rw [if_pos (by rw [Bool.not_eq_true', ← Bool.not_eq_true, isPageAligned_iff]; exact hvirt),
      Prod.mk.injEq] at hr
    obtain ⟨rfl, rfl⟩ := hr
    exact Or.inl ⟨nofun, rfl⟩
  rw [if_neg (by rw [(isPageAligned_iff virt).mpr hvirt]; exact Bool.false_ne_true)] at hr
  have hpath : path virt = [(VirtualAddressFields.decompose virt).pml4Index,
    (VirtualAddressFields.decompose virt).pdptIndex, (VirtualAddressFields.decompose virt).pdIndex,
    (VirtualAddressFields.decompose virt).ptIndex] := rfl
  generalize VirtualAddressFields.decompose virt = va at hr hpath
  simp only at hr
  by_cases hsuccess : r = .success
  swap
  · -- every branch but the last returns the state it was given
    refine Or.inl ⟨hsuccess, ?_⟩
    split at hr
    · exact (Prod.mk.inj hr).2.symm
    · split at hr
      · exact (Prod.mk.inj hr).2.symm
      · split at hr
        · exact (Prod.mk.inj hr).2.symm
        · split at hr
          · exact (Prod.mk.inj hr).2.symm
          · exact absurd (Prod.mk.inj hr).1.symm hsuccess
  subst hsuccess
  refine Or.inr ⟨rfl, ?_⟩
  have h₀ := s.tableAt_nil
  cases h4 : (s.tables s.kernelPml4Phys va.pml4Index).present with
  | false =>
    rw [h4, Bool.not_false, if_pos rfl, Prod.mk.injEq] at hr
    exact absurd hr.1 nofun
  | true =>
  rw [h4, Bool.not_true, if_neg Bool.false_ne_true] at hr
  have h₁ : s.tableAt [va.pml4Index] = some _ := descend_snoc h₀ (view_table h4 (by simp))
  generalize (s.tables s.kernelPml4Phys va.pml4Index).physicalAddress = pdpt at *
  cases h3 : (s.tables pdpt va.pdptIndex).present with
  | false =>
    rw [h3, Bool.not_false, if_pos rfl, Prod.mk.injEq] at hr
    exact absurd hr.1 nofun
  | true =>
  rw [h3, Bool.not_true, if_neg Bool.false_ne_true] at hr
  cases hhuge : (s.tables pdpt va.pdptIndex).hugeOrPat with
  | true =>
    exact ⟨[va.pml4Index], pdpt, va.pdptIndex,
      ⟨hpath ▸ ⟨_, rfl⟩, h₁, view_leaf h3 (Or.inr ⟨by norm_num, hhuge⟩)⟩, Or.inr (by norm_num)⟩
  | false =>
  have h₂ : s.tableAt [va.pml4Index, va.pdptIndex] = some _ :=
    descend_snoc h₁ (view_table h3 (by rw [hhuge]; simp))
  generalize (s.tables pdpt va.pdptIndex).physicalAddress = pd at *
  cases h2 : (s.tables pd va.pdIndex).present with
  | false =>
    rw [h2, Bool.not_false, if_pos rfl, Prod.mk.injEq] at hr
    exact absurd hr.1 nofun
  | true =>
  rw [h2, Bool.not_true, if_neg Bool.false_ne_true] at hr
  cases hhuge₂ : (s.tables pd va.pdIndex).hugeOrPat with
  | true =>
    exact ⟨[va.pml4Index, va.pdptIndex], pd, va.pdIndex,
      ⟨hpath ▸ ⟨_, rfl⟩, h₂, view_leaf h2 (Or.inr ⟨by norm_num, hhuge₂⟩)⟩, Or.inr (by norm_num)⟩
  | false =>
  have h₃ : s.tableAt [va.pml4Index, va.pdptIndex, va.pdIndex] = some _ :=
    descend_snoc h₂ (view_table h2 (by rw [hhuge₂]; simp))
  generalize (s.tables pd va.pdIndex).physicalAddress = pt at *
  cases h1 : (s.tables pt va.ptIndex).present with
  | false =>
    rw [h1, Bool.not_false, if_pos rfl, Prod.mk.injEq] at hr
    exact absurd hr.1 nofun
  | true =>
    rw [h1, Bool.not_true, if_neg Bool.false_ne_true, Prod.mk.injEq] at hr
    exact ⟨[va.pml4Index, va.pdptIndex, va.pdIndex], pt, va.ptIndex,
      ⟨hpath ▸ ⟨_, rfl⟩, h₃, view_leaf h1 (Or.inl rfl)⟩, Or.inl ⟨rfl, hr.2.symm⟩⟩

section LeafAt

theorem LeafAt.length_le (h : LeafAt s virt p n i) : p.length + 1 ≤ 4 := by
  have hlen := h.slotPath.length_le
  rwa [List.length_append, List.length_singleton, length_path] at hlen

theorem LeafAt.slot (h : LeafAt s virt p n i) (m : ℕ) :
    format.view (3 - p.length) (s.tables n i) ≠ .table m := by
  rw [h.view]
  nofun

/-- The first indices of the address. -/
theorem LeafAt.take_path (h : LeafAt s virt p n i) :
    (path virt).take (p.length + 1) = p ++ [i] := by
  have htake := List.prefix_iff_eq_take.mp h.slotPath
  rwa [List.length_append, List.length_singleton, eq_comm] at htake

/-- A walk that begins with the indices of the leaf. -/
theorem LeafAt.append_drop (h : LeafAt s virt p n i)
    (hv : v.take (p.length + 1) = (path virt).take (p.length + 1)) :
    v = p ++ i :: v.drop (p.length + 1) := by
  have hcut := List.take_append_drop (p.length + 1) v
  rw [hv, h.take_path, List.append_assoc, List.singleton_append] at hcut
  exact hcut.symm

/-- **The walks that end in the leaf.** -/
theorem LeafAt.trail (h : LeafAt s virt p n i)
    (hv : v.take (p.length + 1) = (path virt).take (p.length + 1)) :
    s.trailOf v = some (spine format s.tables 3 s.kernelPml4Phys p ++ [s.tables n i]) := by
  rw [h.append_drop hv]
  exact trailOf_of_leaf h.table h.view _

theorem LeafAt.length_spine (h : LeafAt s virt p n i) (e : PageTableEntry) :
    (spine format s.tables 3 s.kernelPml4Phys p ++ [e]).length = p.length + 1 := by
  rw [List.length_append, Radix.length_spine h.table, List.length_singleton]

/-- The leaf is cleared. -/
theorem LeafAt.cleared (h : LeafAt s virt p n i) (hs : s.Sound A)
    (hv : v.take (p.length + 1) = (path virt).take (p.length + 1)) :
    (s.setEntry n i .makeEmpty).trailOf v = none := by
  rw [h.append_drop hv]
  exact trailOf_setEntry_empty hs h.table h.slot (view_absent rfl) _

/-- **Frame**: writing the leaf changes the walks through its aliases at most. -/
theorem LeafAt.frame (h : LeafAt s virt p n i) (hs : s.Sound A) {e : PageTableEntry}
    (hv : ¬ A.rel (v.take (p.length + 1)) ((path virt).take (p.length + 1))) :
    (s.setEntry n i e).trailOf v = s.trailOf v := by
  refine trailOf_setEntry_of_not_rel hs h.table ?_
  rwa [← h.take_path]

theorem LeafAt.sound (h : LeafAt s virt p n i) (hs : s.Sound A) {e : PageTableEntry}
    (he : ∀ m, format.view (3 - p.length) e ≠ .table m) : (s.setEntry n i e).Sound A :=
  sound_setEntry hs h.table h.slot he

end LeafAt

end MapPage

end Backend

end Paging

end MioOS
