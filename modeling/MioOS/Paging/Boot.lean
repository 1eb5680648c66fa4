import MioOS.Paging.Refinement

/-!
# Paging/Boot — the page tables of `boot.asm`

`_start` links one PDPT into three slots of the PML4 and one page directory into two slots of that
PDPT, and `PagingBackend::initialize` adopts these tables and clears the identity map only.  What
stays shared for ever after is `bootAliasing`: an address is aliased by the one with the same lower
bits behind the other of the slots 256 and 511.
-/

namespace MioOS

namespace Paging

open Radix

/-! ## The tables `_start` writes -/

/-- `p4_table`, `p3_table` and `p2_table`: three pages of the image, linked below 4 GiB. -/
structure BootTables where
  p4Table : ℕ
  p3Table : ℕ
  p2Table : ℕ
  aligned : p4Table % pageSize = 0 ∧ p3Table % pageSize = 0 ∧ p2Table % pageSize = 0
  below : p4Table < 2 ^ 32 ∧ p3Table < 2 ^ 32 ∧ p2Table < 2 ^ 32
  apart : p4Table ≠ p3Table ∧ p4Table ≠ p2Table ∧ p3Table ≠ p2Table

namespace BootTables

/-- An entry that links a table: `Present, Writable`. -/
def link (table : ℕ) : PageTableEntry := .ofRaw (BitVec.ofNat 64 (table ||| 0b11))

/-- An entry of the page directory: `Present, Writable, Huge Page`. -/
def hugePage (ecx : Fin 512) : PageTableEntry :=
  .ofRaw (BitVec.ofNat 64 (0x200000 * ecx.val ||| 0b10000011))

/-- The PML4: identity map, HHDM map and kernel map. -/
def pml4 (b : BootTables) (i : Fin 512) : PageTableEntry :=
  if i = 0 ∨ i = 256 ∨ i = 511 then link b.p3Table else .makeEmpty

/-- The PDPT. -/
def pdpt (b : BootTables) (i : Fin 512) : PageTableEntry :=
  if i = 0 ∨ i = 510 then link b.p2Table else .makeEmpty

/-- **The page tables after `_start`** in any physical memory. -/
def tables (b : BootTables) (memory : ℕ → Fin 512 → PageTableEntry) :
    ℕ → Fin 512 → PageTableEntry := fun n =>
  if n = b.p4Table then b.pml4
  else if n = b.p3Table then b.pdpt
  else if n = b.p2Table then hugePage
  else memory n

/-- The backend before `initialize`. -/
def loaded (b : BootTables) (memory : ℕ → Fin 512 → PageTableEntry) (allocs : List ℕ) : Backend :=
  ⟨b.tables memory, 0, allocs⟩

/-- **What the page allocator is going to return**: page frames, each once, and not the tables that
are in use already.  A 0 stands for a failure. -/
structure Supply (b : BootTables) (allocs : List ℕ) : Prop where
  frame : ∀ pa ∈ allocs, pa ≠ 0 → pa % pageSize = 0 ∧ pa < 2 ^ 52
  fresh : ∀ pa ∈ allocs, pa ≠ 0 → pa ≠ b.p4Table ∧ pa ≠ b.p3Table ∧ pa ≠ b.p2Table
  once : (allocs.filter (· ≠ 0)).Nodup

variable {b : BootTables} {memory : ℕ → Fin 512 → PageTableEntry} {i : Fin 512}

/-- Bits below the twelfth of an entry that is built from a page frame. -/
theorem testBit_low {pa flags k : ℕ} (halign : pa % pageSize = 0) (hk : k < 12) :
    (pa ||| flags).testBit k = flags.testBit k := by
  have hpa : pa = 2 ^ 12 * (pa / 2 ^ 12) := by
    rw [pageSize] at halign
    omega
  rw [Nat.testBit_or, hpa, Nat.testBit_two_pow_mul, decide_eq_false (by omega), Bool.false_and,
    Bool.false_or]

/-- The address of an entry that is built from a page frame. -/
theorem ofRaw_address {pa flags : ℕ} (halign : pa % pageSize = 0) (hlt : pa < 2 ^ 52)
    (hflags : flags < 2 ^ 12) :
    (PageTableEntry.ofRaw (BitVec.ofNat 64 (pa ||| flags))).physicalAddress = pa := by
  have hshift : (pa ||| flags) >>> 12 = pa / 2 ^ 12 := by
    rw [Nat.shiftRight_or_distrib, Nat.shiftRight_eq_div_pow, Nat.shiftRight_eq_div_pow,
      Nat.div_eq_of_lt hflags, Nat.or_zero]
  have hor : pa ||| flags < 2 ^ 64 :=
    Nat.or_lt_two_pow (by omega) (hflags.trans (by norm_num))
  rw [pageSize] at halign
  rw [PageTableEntry.physicalAddress, PageTableEntry.ofRaw, BitVec.extractLsb'_toNat,
    BitVec.toNat_ofNat, Nat.mod_eq_of_lt hor, hshift, pageShift, Nat.shiftLeft_eq]
  omega

theorem ofRaw_bit {pa flags : ℕ} {k : ℕ} (halign : pa % pageSize = 0) (hk : k < 12) :
    (BitVec.ofNat 64 (pa ||| flags)).getLsbD k = flags.testBit k := by
  rw [BitVec.getLsbD_ofNat, testBit_low halign hk, decide_eq_true (by omega), Bool.true_and]

theorem view_link {l table : ℕ} (hl : 0 < l) (halign : table % pageSize = 0)
    (hlt : table < 2 ^ 32) : format.view l (link table) = .table table := by
  have hpresent : (link table).present = true := ofRaw_bit halign (by norm_num)
  have hhuge : (link table).hugeOrPat = false := ofRaw_bit halign (by norm_num)
  rw [view_table hpresent, link, ofRaw_address halign (by omega) (by norm_num)]
  rintro (rfl | ⟨-, htrue⟩)
  · exact lt_irrefl 0 hl
  · exact Bool.false_ne_true (hhuge.symm.trans htrue)

theorem hugePage_aligned (ecx : Fin 512) : 0x200000 * ecx.val % pageSize = 0 := by
  rw [pageSize]
  omega

theorem view_hugePage (ecx : Fin 512) : format.view 1 (hugePage ecx) = .leaf :=
  view_leaf (ofRaw_bit (hugePage_aligned ecx) (by norm_num))
    (Or.inr ⟨by norm_num, ofRaw_bit (hugePage_aligned ecx) (by norm_num)⟩)

theorem hugePage_address (ecx : Fin 512) : (hugePage ecx).physicalAddress = 0x200000 * ecx.val :=
  ofRaw_address (hugePage_aligned ecx) (by omega) (by norm_num)

/-! ## What stays shared -/

/-- The slot of the PML4 that stands for all that share a table: 256 for 511. -/
def headSlot (i : Fin 512) : Fin 512 := if i = 511 then 256 else i

/-- The slot of the PDPT that stands for all that share a directory: 0 for 510, behind 256. -/
def nextSlot (i j : Fin 512) : Fin 512 := if headSlot i = 256 ∧ j = 510 then 0 else j

/-- The path that stands for all that share its table. -/
def canon : List (Fin 512) → List (Fin 512)
  | [] => []
  | [i] => [headSlot i]
  | i :: j :: rest => headSlot i :: nextSlot i j :: rest

theorem length_canon (p : List (Fin 512)) : (canon p).length = p.length := by
  match p with
  | [] => rfl
  | [_] => rfl
  | _ :: _ :: _ => rfl

theorem canon_snoc {p q : List (Fin 512)} (i : Fin 512) (h : canon p = canon q) :
    canon (p ++ [i]) = canon (q ++ [i]) := by
  match p, q with
  | [], [] => rfl
  | [a], [b] =>
    have hhead : headSlot a = headSlot b := (List.cons.inj h).1
    show [headSlot a, nextSlot a i] = [headSlot b, nextSlot b i]
    rw [nextSlot, nextSlot, hhead]
  | _ :: _ :: _, _ :: _ :: _ => exact congrArg (· ++ [i]) h
  | [], _ :: _ => exact absurd (congrArg List.length h) (by simp [length_canon])
  | _ :: _, [] => exact absurd (congrArg List.length h) (by simp [length_canon])
  | [_], _ :: _ :: _ => exact absurd (congrArg List.length h) (by simp [length_canon])
  | _ :: _ :: _, [_] => exact absurd (congrArg List.length h) (by simp [length_canon])

/-- **The sharing of the boot tables**, without the identity map. -/
def bootAliasing : Aliasing (Fin 512) where
  rel p q := canon p = canon q
  refl := fun _ => rfl
  length_eq := fun {p q} h => by rw [← length_canon p, h, length_canon]
  snoc := canon_snoc

/-- **Outside the two shared slots a path stands for itself only.** -/
theorem eq_of_canon_eq {i : Fin 512} {p q : List (Fin 512)} (h256 : i ≠ 256) (h511 : i ≠ 511)
    (h : canon q = canon (i :: p)) : q = i :: p := by
  have hi : headSlot i = i := if_neg h511
  have hne : ∀ j, headSlot j = headSlot i → j = i := by
    intro j hj
    rw [hi, headSlot] at hj
    split at hj
    · exact absurd hj.symm h256
    · exact hj
  have hnext : ∀ j, nextSlot i j = j := fun j => if_neg fun hand => h256 (hi ▸ hand.1)
  match q, p with
  | [], _ => exact absurd (congrArg List.length h) (by simp [length_canon])
  | [j], [] => rw [hne j (List.cons.inj h).1]
  | [_], _ :: _ => exact absurd (congrArg List.length h) (by simp [length_canon])
  | _ :: _ :: _, [] => exact absurd (congrArg List.length h) (by simp [length_canon])
  | j :: k :: rest, k' :: rest' =>
    obtain ⟨hj, htail⟩ := List.cons.inj h
    obtain ⟨hk, hrest⟩ := List.cons.inj htail
    rw [hne j hj, hnext, hnext] at hk
    rw [hne j hj, hk, hrest]

/-! ## The tables `initialize` starts from -/

/-- The tables with the identity map cleared. -/
def adopted (b : BootTables) (memory : ℕ → Fin 512 → PageTableEntry) (allocs : List ℕ) : Backend :=
  ({ b.loaded memory allocs with kernelPml4Phys := b.p4Table } : Backend).setEntry b.p4Table 0
    .makeEmpty

theorem adopted_pml4 (b : BootTables) (memory : ℕ → Fin 512 → PageTableEntry) (allocs : List ℕ)
    (i : Fin 512) : (b.adopted memory allocs).tables b.p4Table i
      = if i = 256 ∨ i = 511 then link b.p3Table else .makeEmpty := by
  have hroot : b.tables memory b.p4Table = b.pml4 := if_pos rfl
  rw [adopted, Backend.setEntry_tables]
  by_cases hi : i = 0
  · rw [hi, write_same, if_neg (by decide)]
  · rw [write_of_ne fun hand => hi hand.2]
    show b.tables memory b.p4Table i = _
    rw [hroot, pml4]
    simp only [hi, false_or]

theorem adopted_pdpt (b : BootTables) (memory : ℕ → Fin 512 → PageTableEntry) (allocs : List ℕ)
    (i : Fin 512) : (b.adopted memory allocs).tables b.p3Table i = b.pdpt i := by
  rw [adopted, Backend.setEntry_tables, write_of_ne fun hand => b.apart.1 hand.1.symm]
  show b.tables memory b.p3Table i = _
  rw [tables, if_neg b.apart.1.symm, if_pos rfl]

theorem adopted_pd (b : BootTables) (memory : ℕ → Fin 512 → PageTableEntry) (allocs : List ℕ)
    (i : Fin 512) : (b.adopted memory allocs).tables b.p2Table i = hugePage i := by
  rw [adopted, Backend.setEntry_tables, write_of_ne fun hand => b.apart.2.1 hand.1.symm]
  show b.tables memory b.p2Table i = _
  rw [tables, if_neg b.apart.2.1.symm, if_neg b.apart.2.2.symm, if_pos rfl]

variable {allocs : List ℕ} {p q : List (Fin 512)} {n : ℕ}

/-- **The tables in use** and the paths to them. -/
theorem adopted_tableAt (hp : (b.adopted memory allocs).tableAt p = some n) :
    p = [] ∧ n = b.p4Table ∨
      (∃ i, (i = 256 ∨ i = 511) ∧ p = [i]) ∧ n = b.p3Table ∨
      (∃ i j, (i = 256 ∨ i = 511) ∧ (j = 0 ∨ j = 510) ∧ p = [i, j]) ∧ n = b.p2Table := by
  cases p with
  | nil => exact Or.inl ⟨rfl, (Option.some.inj hp).symm⟩
  | cons i p =>
    have hview : ∃ m, format.view 3 ((b.adopted memory allocs).tables b.p4Table i) = .table m := by
      obtain ⟨m, hview, -⟩ := descend_append_cons (Backend.tableAt_nil _) hp
      exact ⟨m, hview⟩
    have hi : i = 256 ∨ i = 511 := by
      by_contra hne
      obtain ⟨m, hview⟩ := hview
      rw [adopted_pml4, if_neg hne, view_absent rfl] at hview
      exact absurd hview (View.empty_ne_table _)
    have hpml4 : format.view 3 ((b.adopted memory allocs).tables b.p4Table i)
        = .table b.p3Table := by
      rw [adopted_pml4, if_pos hi]
      exact view_link (by norm_num) b.aligned.2.1 b.below.2.1
    rw [Backend.tableAt, show (b.adopted memory allocs).kernelPml4Phys = b.p4Table from rfl,
      descend_cons_of_table hpml4] at hp
    cases p with
    | nil => exact Or.inr (Or.inl ⟨⟨i, hi, rfl⟩, (Option.some.inj hp).symm⟩)
    | cons j p =>
      have hj : j = 0 ∨ j = 510 := by
        by_contra hne
        rw [descend, adopted_pdpt, pdpt, if_neg hne, view_absent rfl] at hp
        exact absurd hp.symm (Option.some_ne_none n)
      have hpdpt : format.view 2 ((b.adopted memory allocs).tables b.p3Table j)
          = .table b.p2Table := by
        rw [adopted_pdpt, pdpt, if_pos hj]
        exact view_link (by norm_num) b.aligned.2.2 b.below.2.2
      rw [descend_cons_of_table hpdpt] at hp
      cases p with
      | nil => exact Or.inr (Or.inr ⟨⟨i, j, hi, hj, rfl⟩, (Option.some.inj hp).symm⟩)
      | cons k p =>
        rw [descend, adopted_pd, view_hugePage] at hp
        exact absurd hp.symm (Option.some_ne_none n)

theorem headSlot_of_shared (hi : i = 256 ∨ i = 511) : headSlot i = 256 := by
  rcases hi with rfl | rfl <;> rfl

theorem nextSlot_of_shared {j : Fin 512} (hi : i = 256 ∨ i = 511) (hj : j = 0 ∨ j = 510) :
    nextSlot i j = 0 := by
  rw [nextSlot, headSlot_of_shared hi]
  rcases hj with rfl | rfl <;> rfl

/-- **`initialize` starts from tables that are shared as `bootAliasing` says.** -/
theorem Supply.sound (h : b.Supply allocs) : (b.adopted memory allocs).Sound bootAliasing where
  separate := by
    intro p q t hp hq
    show canon p = canon q
    obtain ⟨hne₁, hne₂, hne₃⟩ := b.apart
    rcases adopted_tableAt hp with ⟨rfl, rfl⟩ | ⟨⟨i, hi, rfl⟩, rfl⟩ | ⟨⟨i, j, hi, hj, rfl⟩, rfl⟩
    · rcases adopted_tableAt hq with ⟨rfl, -⟩ | ⟨-, heq⟩ | ⟨-, heq⟩
      · rfl
      · exact absurd heq hne₁
      · exact absurd heq hne₂
    · rcases adopted_tableAt hq with ⟨-, heq⟩ | ⟨⟨i', hi', rfl⟩, -⟩ | ⟨-, heq⟩
      · exact absurd heq.symm hne₁
      · rw [canon, canon, headSlot_of_shared hi, headSlot_of_shared hi']
      · exact absurd heq hne₃
    · rcases adopted_tableAt hq with ⟨-, heq⟩ | ⟨-, heq⟩ | ⟨⟨i', j', hi', hj', rfl⟩, -⟩
      · exact absurd heq.symm hne₂
      · exact absurd heq.symm hne₃
      · rw [canon, canon, headSlot_of_shared hi, headSlot_of_shared hi',
          nextSlot_of_shared hi hj, nextSlot_of_shared hi' hj']
  frame := h.frame
  fresh := by
    intro pa hpa h0 p hp
    obtain ⟨hne₁, hne₂, hne₃⟩ := h.fresh pa hpa h0
    rcases adopted_tableAt hp with ⟨-, heq⟩ | ⟨-, heq⟩ | ⟨-, heq⟩
    · exact hne₁ heq
    · exact hne₂ heq
    · exact hne₃ heq
  once := h.once

/-- The PDPT is behind both slots. -/
theorem adopted_shared (hi : i = 256 ∨ i = 511) :
    (b.adopted memory allocs).tableAt [i] = some b.p3Table := by
  refine descend_snoc (Backend.tableAt_nil _) ?_
  show format.view 3 ((b.adopted memory allocs).tables b.p4Table i) = _
  rw [adopted_pml4, if_pos hi]
  exact view_link (by norm_num) b.aligned.2.1 b.below.2.1

/-- The page directory is behind both slots of the PDPT. -/
theorem adopted_directory {j : Fin 512} (hi : i = 256 ∨ i = 511) (hj : j = 0 ∨ j = 510) :
    (b.adopted memory allocs).tableAt [i, j] = some b.p2Table := by
  refine descend_snoc (adopted_shared hi) ?_
  show format.view 2 ((b.adopted memory allocs).tables b.p3Table j) = _
  rw [adopted_pdpt, pdpt, if_pos hj]
  exact view_link (by norm_num) b.aligned.2.2 b.below.2.2

end BootTables

namespace Backend

open BootTables (bootAliasing canon)

variable {A : Aliasing (Fin 512)} {s s' s₁ : Backend} {cpu : CpuFeatures} {flags : PageFlags}
  {b : BootTables} {virt phys v w n k : ℕ} {i j : Fin 512} {p : List (Fin 512)}

/-! ## What calls keep -/

/-- A successful `map_page` moves no table. -/
theorem Mapped.tableAt (h : Mapped A cpu s virt phys flags s₁ p n i) {q : List (Fin 512)} {m : ℕ}
    (hq : s.tableAt q = some m) :
    (s₁.setEntry n i (leafEntry cpu (leafOf phys flags))).tableAt q = some m :=
  tableAt_setEntry h.grows.sound h.table h.slot (h.grows.tableAt hq)

/-- **The boot tables stay shared**: the PDPT behind both slots of the PML4, and the page directory
behind both slots of the PDPT. -/
structure Shares (b : BootTables) (s : Backend) : Prop where
  sound : s.Sound bootAliasing
  pdpt : ∀ i, i = 256 ∨ i = 511 → s.tableAt [i] = some b.p3Table
  directory : ∀ i j, i = 256 ∨ i = 511 → j = 0 ∨ j = 510 → s.tableAt [i, j] = some b.p2Table

theorem Shares.mapPage (h : s.Shares b) {r : PagingError}
    (hr : s.mapPage cpu virt phys flags = (r, s')) : s'.Shares b := by
  rcases mapPage_cases h.sound trivial (keptOnWalk_true _ _ _) hr with
    ⟨hfail, -⟩ | ⟨-, s₁, p, n, i, hmapped, -, rfl⟩
  · exact ⟨hfail.grows.sound, fun i hi => hfail.grows.tableAt (h.pdpt i hi),
      fun i j hi hj => hfail.grows.tableAt (h.directory i j hi hj)⟩
  · exact ⟨hmapped.sound, fun i hi => hmapped.tableAt (h.pdpt i hi),
      fun i j hi hj => hmapped.tableAt (h.directory i j hi hj)⟩

theorem Shares.unmapPage (h : s.Shares b) {r : PagingError} (hr : s.unmapPage virt = (r, s')) :
    s'.Shares b := by
  rcases unmapPage_cases hr with ⟨-, -, rfl⟩ | ⟨-, ⟨-, -, rfl⟩ | ⟨-, p, n, i, hleaf, rfl⟩⟩
  · exact h
  · exact h
  · refine ⟨hleaf.sound h.sound fun m => ?_, fun i hi => ?_, fun i j hi hj => ?_⟩
    · rw [view_absent rfl]
      exact View.empty_ne_table m
    · exact tableAt_setEntry h.sound hleaf.table hleaf.slot (h.pdpt i hi)
    · exact tableAt_setEntry h.sound hleaf.table hleaf.slot (h.directory i j hi hj)

theorem Shares.run (h : s.Shares b) (c : Call) : (c.run cpu s).2.Shares b := by
  cases c with
  | mapPage virt phys flags => exact h.mapPage rfl
  | unmapPage virt => exact h.unmapPage rfl

/-- The loop of `initialize` is a sequence of calls. -/
theorem mapRange_induction {I : Backend → Prop}
    (hstep : ∀ s virt phys, I s → I (s.mapPage cpu virt phys .kernelRW).2) (hs : I s) (p n : ℕ) :
    I (mapRange cpu s p n) := by
  induction n generalizing s p with
  | zero => exact hs
  | succ n ih => exact ih (hstep _ _ _ hs) _

theorem mapEntry_induction {I : Backend → Prop}
    (hstep : ∀ s virt phys, I s → I (s.mapPage cpu virt phys .kernelRW).2) (hs : I s)
    (ent : UnifiedMemoryEntry) : I (mapEntry cpu s ent) := by
  rw [mapEntry]
  split
  · exact hs
  · exact mapRange_induction hstep hs _ _

/-- **`initialize` adopts the boot tables** and maps the entries of the memory map. -/
theorem initializePaging_eq (cpu : CpuFeatures) (mmap : MemoryMap)
    (memory : ℕ → Fin 512 → PageTableEntry) (allocs : List ℕ) :
    initializePaging cpu b.p4Table mmap (b.loaded memory allocs)
      = mmap.foldl (mapEntry cpu) (b.adopted memory allocs) := by
  have haligned := b.aligned.1
  have hbelow := b.below.1
  have hroot : alignDown b.p4Table pageSize = b.p4Table := by
    rw [alignDown_page (by omega)]
    exact Nat.div_mul_cancel (Nat.dvd_of_mod_eq_zero haligned)
  rw [initializePaging, hroot]
  rfl

theorem initializePaging_induction {I : Backend → Prop}
    (hstep : ∀ s virt phys, I s → I (s.mapPage cpu virt phys .kernelRW).2)
    {memory : ℕ → Fin 512 → PageTableEntry} {allocs : List ℕ} (hs : I (b.adopted memory allocs))
    (mmap : MemoryMap) :
    I (initializePaging cpu b.p4Table mmap (b.loaded memory allocs)) := by
  rw [initializePaging_eq]
  induction mmap using List.reverseRecOn with
  | nil => exact hs
  | append_singleton rest ent ih =>
    rw [List.foldl_append, List.foldl_cons, List.foldl_nil]
    exact mapEntry_induction hstep ih ent

theorem shares_adopted {allocs : List ℕ} (h : b.Supply allocs)
    (memory : ℕ → Fin 512 → PageTableEntry) : (b.adopted memory allocs).Shares b :=
  ⟨h.sound, fun _ hi => BootTables.adopted_shared hi,
    fun _ _ hi hj => BootTables.adopted_directory hi hj⟩

/-! ## Aliases -/

/-- **Two paths to one table**: the walks that go on alike behind it translate alike. -/
theorem translate_congr {q rest : List (Fin 512)} {m : ℕ} (hp : s.tableAt p = some m)
    (hq : s.tableAt q = some m) (hlen : q.length = p.length) (hv : path v = p ++ rest)
    (hw : path w = q ++ rest)
    (hoff : w % 2 ^ (12 + 9 * (4 - p.length)) = v % 2 ^ (12 + 9 * (4 - p.length))) :
    s.translate w = s.translate v := by
  have hone : ∀ {p}, s.tableAt p = some m → s.trailOf (p ++ rest)
      = (trail format s.tables (3 - p.length) m rest).map
          (spine format s.tables 3 s.kernelPml4Phys p ++ ·) := fun hp => trail_append hp
  rw [translate_eq, translate_eq, hv, hw, hone hp, hone hq, hlen]
  cases htrail : trail format s.tables (3 - p.length) m rest with
  | none => rfl
  | some es =>
    have hne := trail_ne_nil htrail
    show addressOf (spine format s.tables 3 s.kernelPml4Phys q ++ es) w
      = addressOf (spine format s.tables 3 s.kernelPml4Phys p ++ es) v
    rw [addressOf, addressOf, List.length_append, List.length_append, length_spine hp,
      length_spine hq, hlen, List.getLastD_eq_getLast?, List.getLastD_eq_getLast?,
      List.getLast?_append_of_ne_nil _ hne, List.getLast?_append_of_ne_nil _ hne]
    have hdvd : 2 ^ (12 + 9 * (4 - (p.length + es.length))) ∣ 2 ^ (12 + 9 * (4 - p.length)) :=
      Nat.pow_dvd_pow 2 (by omega)
    rw [← Nat.mod_mod_of_dvd w hdvd, hoff, Nat.mod_mod_of_dvd v hdvd]

/-- **Aliased addresses are translated alike.** -/
theorem Shares.translate_alias (h : s.Shares b) (hi : i = 256 ∨ i = 511) (hj : j = 256 ∨ j = 511)
    {rest : List (Fin 512)} (hv : path v = i :: rest) (hw : path w = j :: rest)
    (hoff : w % 2 ^ 39 = v % 2 ^ 39) : s.translate w = s.translate v :=
  translate_congr (h.pdpt i hi) (h.pdpt j hj) rfl hv hw hoff

/-- **Every address behind one of the two slots has an alias behind the other.** -/
theorem exists_alias (hv : Canonical v)
    (hi : (VirtualAddressFields.decompose v).pml4Index = 256 ∨
      (VirtualAddressFields.decompose v).pml4Index = 511) :
    ∃ w j, Canonical w ∧ (j = 256 ∨ j = 511) ∧ j ≠ (VirtualAddressFields.decompose v).pml4Index ∧
      path w = j :: (path v).tail ∧ w % 2 ^ 39 = v % 2 ^ 39 := by
  rw [Canonical] at hv
  have hindex : (VirtualAddressFields.decompose v).pml4Index = Fin.ofNat 512 (v >>> 39) := rfl
  have htail : ∀ w j, Fin.ofNat 512 (w >>> 39) = j → w % 2 ^ 39 = v % 2 ^ 39 →
      path w = j :: (path v).tail := by
    intro w j hj hoff
    have hrest : (path w).tail = (path v).tail := by
      show [Fin.ofNat 512 (w >>> 30), Fin.ofNat 512 (w >>> 21), Fin.ofNat 512 (w >>> 12)]
        = [Fin.ofNat 512 (v >>> 30), Fin.ofNat 512 (v >>> 21), Fin.ofNat 512 (v >>> 12)]
      rw [List.cons.injEq, List.cons.injEq, List.cons.injEq, ofNat_index_inj, ofNat_index_inj,
        ofNat_index_inj]
      simp only [Nat.shiftRight_eq_div_pow, and_true]
      omega
    rw [← hrest, ← hj]
    rfl
  rw [hindex] at hi ⊢
  rcases hi with hi | hi
  · have hval : v / 2 ^ 39 % 512 = 256 := by
      rw [← Nat.shiftRight_eq_div_pow]
      exact congrArg Fin.val hi
    have hj : Fin.ofNat 512 ((v + 255 * 2 ^ 39) >>> 39) = 511 := by
      rw [Fin.ext_iff, Nat.shiftRight_eq_div_pow]
      show (v + 255 * 2 ^ 39) / 2 ^ 39 % 512 = 511
      omega
    refine ⟨v + 255 * 2 ^ 39, 511, ?_, Or.inr rfl, by rw [hi]; decide, htail _ _ hj ?_, ?_⟩
    · rw [Canonical]
      omega
    · omega
    · omega
  · have hval : v / 2 ^ 39 % 512 = 511 := by
      rw [← Nat.shiftRight_eq_div_pow]
      exact congrArg Fin.val hi
    have hj : Fin.ofNat 512 ((v - 255 * 2 ^ 39) >>> 39) = 256 := by
      rw [Fin.ext_iff, Nat.shiftRight_eq_div_pow]
      show (v - 255 * 2 ^ 39) / 2 ^ 39 % 512 = 256
      omega
    refine ⟨v - 255 * 2 ^ 39, 256, ?_, Or.inl rfl, by rw [hi]; decide, htail _ _ hj ?_, ?_⟩
    · rw [Canonical]
      omega
    · omega
    · omega

/-! ## Isolation -/

/-- **Only the translations of a page change.** -/
def Isolated (s s' : Backend) (page : Set ℕ) : Prop :=
  ∀ w, Canonical w → w ∉ page → s'.translate w = s.translate w

/-- The address of a call. -/
def Call.address : Call → ℕ
  | mapPage virt _ _ | unmapPage virt => virt

/-- **The page of a call**: the one that `map_page` maps, and that of the leaf `unmap_page` finds. -/
def Call.page (s : Backend) : Call → Set ℕ
  | mapPage virt _ flags => leafPage (leafDepth flags) virt
  | unmapPage virt => {w | ∃ es, s.trailOf (path virt) = some es ∧ w ∈ leafPage es.length virt}

/-- The slot of the PML4 that a call goes through. -/
def Call.pml4Index (c : Call) : Fin 512 := (VirtualAddressFields.decompose c.address).pml4Index

/-- Behind a slot that is not shared a leaf stands for the addresses of its page only. -/
theorem mem_leafPage_of_rel (hv : Canonical virt) (hw : Canonical w) (h2 : 2 ≤ k) (h4 : k ≤ 4)
    (h256 : (VirtualAddressFields.decompose virt).pml4Index ≠ 256)
    (h511 : (VirtualAddressFields.decompose virt).pml4Index ≠ 511)
    (hrel : bootAliasing.rel ((path w).take k) ((path virt).take k)) : w ∈ leafPage k virt := by
  refine (path_take_eq_iff hv hw h2 h4).mp ?_
  obtain ⟨k, rfl⟩ : ∃ m, k = m + 1 := ⟨k - 1, by omega⟩
  exact BootTables.eq_of_canon_eq h256 h511 hrel

theorem isolated_of_trail {page : Set ℕ}
    (h : ∀ w, Canonical w → w ∉ page → s'.trailOf (path w) = s.trailOf (path w)) :
    Isolated s s' page := by
  intro w hw hout
  rw [translate_eq, translate_eq, h w hw hout]

/-- **A call behind a shared slot shows at the alias of its page.** -/
theorem Shares.not_isolated (h : s.Shares b) (h' : s'.Shares b) (hv : Canonical virt)
    (haligned : virt % pageSize = 0)
    (hi : (VirtualAddressFields.decompose virt).pml4Index = 256 ∨
      (VirtualAddressFields.decompose virt).pml4Index = 511)
    (hchange : s'.trailOf (path virt) = none ↔ s.trailOf (path virt) ≠ none) (h2 : 2 ≤ k)
    (h4 : k ≤ 4) : ¬ Isolated s s' (leafPage k virt) := by
  intro hisolated
  rw [pageSize] at haligned
  have hv₁ : Canonical (virt + 1) := by
    rw [Canonical] at hv ⊢
    omega
  -- an odd address of the page
  have hpath : path (virt + 1) = path virt := by
    refine (path_take_eq_iff hv hv₁ (k := 4) (by norm_num) le_rfl).mpr ?_
    rw [leafPage, Set.mem_ofPred_eq]
    norm_num
    omega
  have hindex : (VirtualAddressFields.decompose (virt + 1)).pml4Index
      = (VirtualAddressFields.decompose virt).pml4Index := (List.cons.inj hpath).1
  obtain ⟨w, j, hw, hj, hne, hpathw, hoff⟩ := exists_alias hv₁ (hindex ▸ hi)
  have hout : w ∉ leafPage k virt := by
    intro hin
    have htake := (path_take_eq_iff hv hw h2 h4).mpr hin
    obtain ⟨k, rfl⟩ : ∃ m, k = m + 1 := ⟨k - 1, by omega⟩
    rw [hpathw] at htake
    exact hne ((List.cons.inj htake).1.trans hindex.symm)
  have hsame := hisolated w hw hout
  rw [h.translate_alias (hindex ▸ hi) hj rfl hpathw hoff,
    h'.translate_alias (hindex ▸ hi) hj rfl hpathw hoff] at hsame
  have hodd : (virt + 1) % 2 = 1 := by omega
  have hbefore := translate_odd s hodd
  have hafter := translate_odd s' hodd
  rw [hpath] at hbefore hafter
  rw [← hafter, hsame, hbefore] at hchange
  exact iff_not_self hchange

/-- **A successful `map_page` is isolated** exactly behind the slots that are not shared. -/
theorem Shares.mapPage_isolated_iff (h : s.Shares b) (hv : Canonical virt)
    (hr : s.mapPage cpu virt phys flags = (.success, s')) :
    Isolated s s' (leafPage (leafDepth flags) virt) ↔
      (VirtualAddressFields.decompose virt).pml4Index ≠ 256 ∧
        (VirtualAddressFields.decompose virt).pml4Index ≠ 511 := by
  have h' := h.mapPage hr
  rcases mapPage_cases h.sound trivial (keptOnWalk_true _ _ _) hr with
    ⟨hfail, -⟩ | ⟨-, s₁, p, n, i, hmapped, -, rfl⟩
  · exact absurd rfl hfail.ne_success
  · constructor
    · intro hisolated
      rw [← not_or]
      intro hi
      refine h.not_isolated h' hv hmapped.aligned.1 hi ?_ (two_le_leafDepth flags)
        (leafDepth_le flags) hisolated
      rw [hmapped.after rfl, hmapped.before rfl]
      exact iff_of_false (Option.some_ne_none _) fun hne => hne rfl
    · rintro ⟨h256, h511⟩
      refine isolated_of_trail fun w hw hout => hmapped.frame fun hrel => hout ?_
      exact mem_leafPage_of_rel hv hw (two_le_leafDepth flags) (leafDepth_le flags) h256 h511 hrel

/-- **A successful `unmap_page` is isolated** exactly behind the slots that are not shared. -/
theorem Shares.unmapPage_isolated_iff (h : s.Shares b) (hv : Canonical virt)
    (hr : s.unmapPage virt = (.success, s')) :
    Isolated s s' ((Call.unmapPage virt).page s) ↔
      (VirtualAddressFields.decompose virt).pml4Index ≠ 256 ∧
        (VirtualAddressFields.decompose virt).pml4Index ≠ 511 := by
  have h' := h.unmapPage hr
  rcases unmapPage_cases hr with ⟨hfail, -⟩ | ⟨haligned, ⟨hfail, -⟩ | ⟨-, p, n, i, hleaf, rfl⟩⟩
  · exact absurd hfail nofun
  · exact absurd hfail nofun
  · have hlen := hleaf.length_spine (s.tables n i)
    have hpage : (Call.unmapPage virt).page s = leafPage (p.length + 1) virt := by
      ext w
      rw [Call.page, Set.mem_ofPred_eq, hleaf.trail rfl]
      constructor
      · rintro ⟨es, hes, hin⟩
        rwa [← Option.some.inj hes, hlen] at hin
      · exact fun hin => ⟨_, rfl, hlen.symm ▸ hin⟩
    have h2 : 2 ≤ p.length + 1 := by
      rcases hleaf.depth with hdepth | hdepth | hdepth <;> omega
    rw [hpage]
    constructor
    · intro hisolated
      rw [← not_or]
      intro hi
      refine h.not_isolated h' hv haligned hi ?_ h2 hleaf.length_le hisolated
      rw [hleaf.cleared h.sound rfl, hleaf.trail rfl]
      exact iff_of_true rfl (Option.some_ne_none _)
    · rintro ⟨h256, h511⟩
      refine isolated_of_trail fun w hw hout => hleaf.frame h.sound fun hrel => hout ?_
      exact mem_leafPage_of_rel hv hw h2 hleaf.length_le h256 h511 hrel

/-! ## The address space of the kernel -/

/-- **A state of the running kernel**: `initialize` has adopted the boot tables, and any calls have
been made since. -/
def Running (cpu : CpuFeatures) (b : BootTables) (memory : ℕ → Fin 512 → PageTableEntry)
    (allocs : List ℕ) (mmap : MemoryMap) (s : Backend) : Prop :=
  Relation.ReflTransGen (fun s s' => ∃ c : Call, s' = (c.run cpu s).2)
    (initializePaging cpu b.p4Table mmap (b.loaded memory allocs)) s

theorem Running.shares {memory : ℕ → Fin 512 → PageTableEntry} {allocs : List ℕ}
    {mmap : MemoryMap} (hsupply : b.Supply allocs)
    (hrun : Running cpu b memory allocs mmap s) : s.Shares b := by
  induction hrun with
  | refl =>
    exact initializePaging_induction (fun s virt phys hs => hs.mapPage rfl)
      (shares_adopted hsupply memory) mmap
  | tail _ hstep ih =>
    obtain ⟨c, rfl⟩ := hstep
    exact ih.run c

/-- **In the running kernel a successful call is isolated** exactly if its address is behind neither
of the slots 256 and 511 of the PML4. -/
theorem Running.isolated_iff {memory : ℕ → Fin 512 → PageTableEntry} {allocs : List ℕ}
    {mmap : MemoryMap} (hsupply : b.Supply allocs)
    (hrun : Running cpu b memory allocs mmap s) (c : Call) (hv : Canonical c.address)
    (hsuccess : (c.run cpu s).1 = .success) :
    Isolated s (c.run cpu s).2 (c.page s) ↔ c.pml4Index ≠ 256 ∧ c.pml4Index ≠ 511 := by
  have h := hrun.shares hsupply
  cases c with
  | mapPage virt phys flags => exact h.mapPage_isolated_iff hv (Prod.ext hsuccess rfl)
  | unmapPage virt => exact h.unmapPage_isolated_iff hv (Prod.ext hsuccess rfl)

/-! ## Unmapping the first pages of the HHDM -/

/-- The tables of an image linked at 1 MiB. -/
def imageTables : BootTables :=
  ⟨0x104000, 0x105000, 0x106000, by decide, by decide, by decide⟩

/-- The kernel after `initialize` with a memory map that names nothing. -/
def started : Backend :=
  initializePaging fullCpu 0x104000 [] (imageTables.loaded (fun _ _ => .makeEmpty)
    [0x300000, 0x301000, 0x302000, 0x303000])

theorem supply_started : imageTables.Supply [0x300000, 0x301000, 0x302000, 0x303000] :=
  ⟨by decide, by decide, by decide⟩

/-- Unmapping the start of the HHDM unmaps the start of the kernel image. -/
theorem not_isolated_hhdm :
    ¬ ∀ s c, Running fullCpu imageTables (fun _ _ => .makeEmpty)
      [0x300000, 0x301000, 0x302000, 0x303000] [] s → Canonical (Call.address c) →
      (c.run fullCpu s).1 = .success → Isolated s (c.run fullCpu s).2 (c.page s) := by
  intro hall
  have hisolated := hall started (.unmapPage 0xFFFF800000000000) .refl
    (by norm_num [Canonical, Call.address]) (by decide)
  have hsame := hisolated 0xFFFFFFFF80000001 (Or.inr ⟨by norm_num, by norm_num⟩) <| by
    rintro ⟨es, hes, hin⟩
    have hlen : es.length = 3 := by
      have htrail : (started.trailOf (path 0xFFFF800000000000)).map List.length = some 3 := by decide
      rw [hes, Option.map_some] at htrail
      exact Option.some.inj htrail
    rw [hlen, leafPage, Set.mem_ofPred_eq] at hin
    norm_num at hin
  exact absurd hsame (by decide)

/-- A page mapped behind another slot is isolated. -/
theorem isolated_slot300 :
    Isolated started (started.mapPage fullCpu 0xFFFF960000000000 0x200000 .kernelRW).2
      (leafPage 4 0xFFFF960000000000) := by
  have hiff := Running.isolated_iff supply_started (Relation.ReflTransGen.refl : Running fullCpu
    imageTables (fun _ _ => .makeEmpty) _ [] started) (.mapPage 0xFFFF960000000000 0x200000 .kernelRW)
    (by norm_num [Canonical, Call.address]) (by decide)
  exact hiff.mpr ⟨by decide, by decide⟩

end Backend

end Paging

end MioOS
