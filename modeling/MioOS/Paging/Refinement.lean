import MioOS.Paging.Walk

/-!
# Paging/Refinement — the page tables refine a partial map

Seen from outside, an address space is a partial map from addresses to physical addresses; mapping
a page overrides it on that page and unmapping restricts it.  With tables that form a tree, the
calls of `map_page` and `unmap_page` are exactly these two operations.
-/

namespace MioOS

namespace Paging

open Radix

/-! ## Address spaces -/

/-- An address space. -/
abbrev AddressSpace := ℕ → Option ℕ

namespace AddressSpace

/-- Mapping a page of 4 KiB. -/
def map (m : AddressSpace) (virt phys : ℕ) : AddressSpace := fun w =>
  if virt ≤ w ∧ w < virt + pageSize then some (phys + (w - virt)) else m w

/-- Unmapping the addresses of a set. -/
noncomputable def unmap (m : AddressSpace) (page : Set ℕ) : AddressSpace := fun w =>
  open Classical in if w ∈ page then none else m w

end AddressSpace

/-- **A canonical address**: bits 63 to 48 are copies of bit 47. -/
def Canonical (virt : ℕ) : Prop := virt < 2 ^ 47 ∨ 2 ^ 64 - 2 ^ 47 ≤ virt ∧ virt < 2 ^ 64

/-- The page of an address among those whose leaves are `k` indices deep: 4 KiB for four indices,
2 MiB for three and 1 GiB for two. -/
def leafPage (k virt : ℕ) : Set ℕ :=
  {w | w / 2 ^ (12 + 9 * (4 - k)) = virt / 2 ^ (12 + 9 * (4 - k))}

variable {virt w phys k : ℕ}

theorem path_take_two (virt : ℕ) :
    (path virt).take 2 = [Fin.ofNat 512 (virt >>> 39), Fin.ofNat 512 (virt >>> 30)] := rfl

theorem path_take_three (virt : ℕ) : (path virt).take 3
    = [Fin.ofNat 512 (virt >>> 39), Fin.ofNat 512 (virt >>> 30), Fin.ofNat 512 (virt >>> 21)] := rfl

theorem path_take_four (virt : ℕ) : (path virt).take 4
    = [Fin.ofNat 512 (virt >>> 39), Fin.ofNat 512 (virt >>> 30), Fin.ofNat 512 (virt >>> 21),
      Fin.ofNat 512 (virt >>> 12)] := rfl

theorem ofNat_index_inj {a b : ℕ} : Fin.ofNat 512 a = Fin.ofNat 512 b ↔ a % 512 = b % 512 := by
  rw [Fin.ext_iff]
  exact Iff.rfl

/-- **Canonical addresses with the same first indices** are those of one page. -/
theorem path_take_eq_iff (hv : Canonical virt) (hw : Canonical w) (h2 : 2 ≤ k) (h4 : k ≤ 4) :
    (path w).take k = (path virt).take k ↔ w ∈ leafPage k virt := by
  rw [leafPage, Set.mem_ofPred_eq]
  rw [Canonical] at hv hw
  interval_cases k
  · rw [path_take_two, path_take_two, List.cons.injEq, List.cons.injEq, ofNat_index_inj,
      ofNat_index_inj]
    simp only [Nat.shiftRight_eq_div_pow, and_true]
    omega
  · rw [path_take_three, path_take_three, List.cons.injEq, List.cons.injEq, List.cons.injEq,
      ofNat_index_inj, ofNat_index_inj, ofNat_index_inj]
    simp only [Nat.shiftRight_eq_div_pow, and_true]
    omega
  · rw [path_take_four, path_take_four, List.cons.injEq, List.cons.injEq, List.cons.injEq,
      List.cons.injEq, ofNat_index_inj, ofNat_index_inj, ofNat_index_inj, ofNat_index_inj]
    simp only [Nat.shiftRight_eq_div_pow, and_true]
    omega

namespace Backend

variable {s s' s₀ : Backend} {cpu : CpuFeatures} {flags : PageFlags}

/-- **The address space of the page tables.** -/
def space (s : Backend) : AddressSpace := fun w => (s.trailOf (path w)).map (addressOf · w)

/-- `translate` is the address space, with 0 where nothing is mapped. -/
theorem translate_eq_space (s : Backend) (w : ℕ) : s.translate w = (s.space w).getD 0 := by
  rw [translate_eq, space]
  cases s.trailOf (path w) <;> rfl

/-- An odd address is translated to 0 only where nothing is mapped. -/
theorem translate_odd (s : Backend) {v : ℕ} (hv : v % 2 = 1) :
    s.translate v = 0 ↔ s.trailOf (path v) = none := by
  rw [translate_eq]
  cases htrail : s.trailOf (path v) with
  | none => exact iff_of_true rfl rfl
  | some es =>
    refine iff_of_false (fun hzero => ?_) (Option.some_ne_none es)
    have hbit := congrArg (fun x => Nat.testBit x 0) hzero
    have hlow : (v % 2 ^ (12 + 9 * (4 - es.length))).testBit 0 = true := by
      rw [Nat.testBit_mod_two_pow, Nat.testBit_zero, hv, decide_eq_true (by omega)]
      rfl
    simp only [Option.elim_some, addressOf, Nat.testBit_or, hlow, Bool.or_true,
      Nat.zero_testBit] at hbit
    exact absurd hbit (Bool.false_ne_true ∘ Eq.symm)

/-- Without a change of walks the address space is the same. -/
theorem space_congr (h : s'.trailOf (path w) = s.trailOf (path w)) : s'.space w = s.space w := by
  rw [space, space, h]

/-- Nothing is mapped at an address exactly when its walk meets no leaf. -/
theorem space_eq_none_iff : s.space w = none ↔ s.trailOf (path w) = none := by
  rw [space, Option.map_eq_none_iff]

/-- **The tables form a tree** whose leaves are aligned to their size. -/
structure TreeShaped (s : Backend) : Prop where
  sound : s.Sound (.tree _)
  aligned : ∀ v es, s.trailOf v = some es →
    (es.getLastD {}).physicalAddress % 2 ^ (12 + 9 * (4 - es.length)) = 0

/-! ## Calls and what they should do -/

/-- A call of the mapping interface. -/
inductive Call
  | mapPage (virt phys : ℕ) (flags : PageFlags)
  | unmapPage (virt : ℕ)

/-- Running a call. -/
def Call.run (cpu : CpuFeatures) (s : Backend) : Call → PagingError × Backend
  | mapPage virt phys flags => s.mapPage cpu virt phys flags
  | unmapPage virt => s.unmapPage virt

/-- **Calls of 4 KiB pages**: canonical addresses, physical addresses of 52 bits, no huge flag. -/
def Call.Small : Call → Prop
  | mapPage virt phys flags =>
    Canonical virt ∧ phys < 2 ^ 52 ∧ flags.has .huge2M = false ∧ flags.has .huge1G = false
  | unmapPage virt => Canonical virt

/-- **A call of 4 KiB pages meets its specification.**  A successful `map_page` maps its page, a
successful `unmap_page` unmaps the page of the leaf that the walk of its address ends in, which has
the size that the length of this walk gives, and any other result leaves every translation alone. -/
def Call.Meets (s : Backend) (r : PagingError) (s' : Backend) : Call → Prop
  | mapPage virt phys _ =>
    (r = .success → (∀ k < pageSize, s'.translate (virt + k) = phys + k) ∧
      ∀ w, Canonical w → s'.space w = s.space.map virt phys w) ∧
    (r ≠ .success → ∀ w, s'.space w = s.space w)
  | unmapPage virt =>
    (r = .success → ∃ es, s.trailOf (path virt) = some es ∧
      (es.length = 2 ∨ es.length = 3 ∨ es.length = 4) ∧
      (∀ w, Canonical w → w ∈ leafPage es.length virt → s.trailOf (path w) = some es) ∧
      ∀ w, Canonical w → s'.space w = s.space.unmap (leafPage es.length virt) w) ∧
    (r ≠ .success → ∀ w, s'.space w = s.space w) ∧
    (virt % pageSize = 0 → (r = .notMapped ↔ s.space virt = none))

/-! ## One call -/

/-- Any property is kept that nobody asks about. -/
theorem keptOnWalk_true (A : Aliasing (Fin 512)) (virt : ℕ) (flags : PageFlags) :
    KeptOnWalk A (fun _ => True) virt flags := fun _ _ _ _ _ _ _ _ _ _ _ _ _ => trivial

theorem leafDepth_small (h2M : flags.has .huge2M = false) (h1G : flags.has .huge1G = false) :
    leafDepth flags = 4 := by
  rw [leafDepth, h1G, h2M]
  rfl

theorem leafOf_small (h2M : flags.has .huge2M = false) (h1G : flags.has .huge1G = false) :
    leafOf phys flags = .makePage phys flags := by
  rw [leafOf, h1G, h2M]
  rfl

/-- An entry names a page frame. -/
theorem address_mod (e : PageTableEntry) : e.physicalAddress % 2 ^ 12 = 0 := by
  rw [PageTableEntry.physicalAddress, pageShift, Nat.shiftLeft_eq]
  exact Nat.mul_mod_left _ _

theorem address_makePage (cpu : CpuFeatures) (halign : phys % pageSize = 0)
    (hlt : phys < 2 ^ 52) :
    (leafEntry cpu (.makePage phys flags)).physicalAddress = phys := by
  have hpage : (PageTableEntry.makePage phys flags).physicalAddress = phys :=
    setPhysicalAddress_address (e := { present := true }) halign hlt
  rw [leafEntry]
  split
  · exact hpage
  · exact hpage

/-- What a walk that ends in a leaf of 4 KiB translates an address to. -/
theorem addressOf_makePage {es : List PageTableEntry} (hes : es.length = 3)
    (halign : phys % pageSize = 0) (hlt : phys < 2 ^ 52) (w : ℕ) :
    addressOf (es ++ [leafEntry cpu (.makePage phys flags)]) w = phys + w % pageSize := by
  have hshift : phys = (phys / pageSize) <<< 12 := by
    rw [Nat.shiftLeft_eq]
    exact (Nat.div_mul_cancel (Nat.dvd_of_mod_eq_zero halign)).symm
  have hoff : w % pageSize < 2 ^ 12 := Nat.mod_lt _ (by rw [pageSize]; norm_num)
  rw [addressOf, List.getLastD_concat, address_makePage cpu halign hlt, List.length_append, hes]
  show phys ||| w % pageSize = phys + w % pageSize
  rw [hshift, ← Nat.shiftLeft_add_eq_or_of_lt hoff]

/-- **A call of `map_page`** for 4 KiB meets its specification. -/
theorem mapPage_meets {r : PagingError} (h : s.TreeShaped) (hv : Canonical virt)
    (hlt : phys < 2 ^ 52) (h2M : flags.has .huge2M = false) (h1G : flags.has .huge1G = false)
    (hr : s.mapPage cpu virt phys flags = (r, s')) :
    s'.TreeShaped ∧ (Call.mapPage virt phys flags).Meets s r s' := by
  have hdepth := leafDepth_small h2M h1G
  rcases mapPage_cases h.sound trivial (keptOnWalk_true _ _ _) hr with
    ⟨hfail, -⟩ | ⟨rfl, s₁, p, n, i, hmapped, -, rfl⟩
  · have hsame := hfail.grows.trail
    refine ⟨⟨hfail.grows.sound, fun v es hes => h.aligned v es ((hsame v).symm.trans hes)⟩,
      fun hsuccess => absurd hsuccess hfail.ne_success,
      fun _ w => space_congr (hfail.grows.trail _)⟩
  · obtain ⟨hvirt, hphys⟩ := hmapped.aligned
    have hspine : (spine format s₁.tables 3 s₁.kernelPml4Phys p).length = 3 := by
      have hlen := hmapped.length
      rw [Radix.length_spine hmapped.table]
      omega
    have hafter : ∀ w, Canonical w → w ∈ leafPage 4 virt →
        (s₁.setEntry n i (leafEntry cpu (leafOf phys flags))).space w
          = some (phys + w % pageSize) := by
      intro w hw hpage
      rw [space, hmapped.after, leafOf_small h2M h1G]
      · exact congrArg some (addressOf_makePage hspine hphys hlt w)
      · rw [hdepth]
        exact (path_take_eq_iff hv hw (by norm_num) le_rfl).mpr hpage
    have hmem : ∀ w, w ∈ leafPage 4 virt ↔ virt ≤ w ∧ w < virt + pageSize := by
      intro w
      rw [pageSize] at hvirt ⊢
      rw [leafPage, Set.mem_ofPred_eq]
      norm_num
      omega
    refine ⟨⟨hmapped.sound, fun v es hes => ?_⟩, fun _ => ⟨fun k hk => ?_, fun w hw => ?_⟩,
      fun hne => absurd rfl hne⟩
    · by_cases hsame : v.take (leafDepth flags) = (path virt).take (leafDepth flags)
      · rw [hmapped.after hsame, Option.some.injEq] at hes
        rw [← hes, List.getLastD_concat, List.length_append, hspine]
        exact address_mod _
      · rw [hmapped.frame hsame] at hes
        exact h.aligned v es hes
    · have hcanonical : Canonical (virt + k) := by
        rw [pageSize] at hvirt hk
        rw [Canonical] at hv ⊢
        omega
      rw [translate_eq_space, hafter _ hcanonical ((hmem _).mpr ⟨by omega, by omega⟩),
        Option.getD_some]
      rw [pageSize] at *
      omega
    · rw [AddressSpace.map]
      split
      · rename_i hin
        rw [hafter w hw ((hmem w).mpr hin)]
        rw [pageSize] at *
        congr 1
        omega
      · rename_i hout
        refine space_congr (hmapped.frame fun hrel => hout ((hmem w).mp ?_))
        rw [hdepth] at hrel
        exact (path_take_eq_iff hv hw (by norm_num) le_rfl).mp hrel

/-- The leaf `unmap_page` finds is two, three or four indices deep. -/
theorem LeafAt.depth {p : List (Fin 512)} {n : ℕ} {i : Fin 512} (h : LeafAt s virt p n i) :
    p.length + 1 = 2 ∨ p.length + 1 = 3 ∨ p.length + 1 = 4 := by
  have hle := h.length_le
  have hne : p.length ≠ 0 := by
    intro hzero
    have hview := h.view
    rw [hzero] at hview
    exact view_pml4_ne_leaf _ hview
  omega

/-- **A call of `unmap_page`** meets its specification. -/
theorem unmapPage_meets {r : PagingError} (h : s.TreeShaped) (hv : Canonical virt)
    (hr : s.unmapPage virt = (r, s')) :
    s'.TreeShaped ∧ (Call.unmapPage virt).Meets s r s' := by
  rcases unmapPage_cases hr with ⟨rfl, hvirt, rfl⟩ | ⟨hvirt, ⟨rfl, hnone, rfl⟩ |
    ⟨rfl, p, n, i, hleaf, rfl⟩⟩
  · exact ⟨h, fun heq => PagingError.noConfusion heq, fun _ _ => rfl, fun haligned => absurd haligned hvirt⟩
  · exact ⟨h, fun heq => PagingError.noConfusion heq, fun _ _ => rfl,
      fun _ => iff_of_true rfl (space_eq_none_iff.mpr hnone)⟩
  · have hdepth := hleaf.depth
    have hpage : ∀ w, Canonical w → ((path w).take (p.length + 1)
        = (path virt).take (p.length + 1) ↔ w ∈ leafPage (p.length + 1) virt) := fun w hw =>
      path_take_eq_iff hv hw (by omega) hleaf.length_le
    have hs := h.sound
    have hview : ∀ m, format.view (3 - p.length) .makeEmpty ≠ .table m := fun m => by
      rw [view_absent rfl]
      exact View.empty_ne_table m
    refine ⟨⟨hleaf.sound hs hview, fun v es hes => ?_⟩,
      fun _ => ⟨_, hleaf.trail rfl, ?_⟩, fun hne => absurd rfl hne,
      fun _ => iff_of_false (fun heq => PagingError.noConfusion heq) fun hnone => ?_⟩
    · by_cases hsame : v.take (p.length + 1) = (path virt).take (p.length + 1)
      · rw [hleaf.cleared hs hsame] at hes
        exact absurd hes.symm (Option.some_ne_none es)
      · rw [hleaf.frame hs hsame] at hes
        exact h.aligned v es hes
    · rw [hleaf.length_spine]
      refine ⟨hdepth, fun w hw hin => hleaf.trail ((hpage w hw).mpr hin), fun w hw => ?_⟩
      rw [AddressSpace.unmap]
      split
      · rename_i hin
        exact space_eq_none_iff.mpr (hleaf.cleared hs ((hpage w hw).mpr hin))
      · rename_i hout
        exact space_congr (hleaf.frame hs fun hrel => hout ((hpage w hw).mp hrel))
    · rw [space_eq_none_iff, hleaf.trail rfl] at hnone
      exact Option.some_ne_none _ hnone

/-! ## Every sequence of calls -/

/-- One call of 4 KiB pages, whatever its result. -/
def SmallStep (cpu : CpuFeatures) (s s' : Backend) : Prop :=
  ∃ c : Call, c.Small ∧ s' = (c.run cpu s).2

theorem Call.Small.meets {c : Call} (hc : c.Small) (h : s.TreeShaped) :
    (c.run cpu s).2.TreeShaped ∧ c.Meets s (c.run cpu s).1 (c.run cpu s).2 := by
  cases c with
  | mapPage virt phys flags =>
    obtain ⟨hv, hlt, h2M, h1G⟩ := hc
    exact mapPage_meets h hv hlt h2M h1G rfl
  | unmapPage virt => exact unmapPage_meets h hc rfl

/-- **The page tables refine a partial map**: in every sequence of calls of 4 KiB pages the tables
stay a tree, and every call does to the address space what it should. -/
theorem TreeShaped.refines (h₀ : s₀.TreeShaped)
    (hrun : Relation.ReflTransGen (SmallStep cpu) s₀ s) :
    s.TreeShaped ∧ ∀ c : Call, c.Small → c.Meets s (c.run cpu s).1 (c.run cpu s).2 := by
  have hshape : s.TreeShaped := by
    induction hrun with
    | refl => exact h₀
    | tail _ hstep ih =>
      obtain ⟨c, hc, rfl⟩ := hstep
      exact (hc.meets ih).1
  exact ⟨hshape, fun c hc => (hc.meets hshape).2⟩

/-! ## An empty PML4 and four pages -/

/-- A processor with both features. -/
def fullCpu : CpuFeatures := ⟨true, true⟩

/-- An empty PML4 and four pages for tables. -/
def blank : Backend := ⟨fun _ _ => .makeEmpty, 0x1000, [0x2000, 0x3000, 0x4000, 0x5000]⟩

theorem sound_blank (A : Aliasing (Fin 512)) : blank.Sound A :=
  sound_of_blank (fun _ => rfl) (by decide) (by decide) (by decide)

theorem treeShaped_blank : blank.TreeShaped where
  sound := sound_blank _
  aligned := fun _ es hes => absurd (hes.symm.trans (trail_blank fun _ => rfl))
    (Option.some_ne_none es)

/-- One page is mapped; the next call meets its specification again. -/
theorem refines_blank :
    (blank.mapPage fullCpu 0x400000 0x200000 .kernelRW).2.TreeShaped ∧ ∀ c : Call, c.Small →
      c.Meets (blank.mapPage fullCpu 0x400000 0x200000 .kernelRW).2
        (c.run fullCpu (blank.mapPage fullCpu 0x400000 0x200000 .kernelRW).2).1
        (c.run fullCpu (blank.mapPage fullCpu 0x400000 0x200000 .kernelRW).2).2 := by
  have hsmall : (Call.mapPage 0x400000 0x200000 .kernelRW).Small :=
    ⟨Or.inl (by norm_num), by norm_num, by decide, by decide⟩
  exact treeShaped_blank.refines (.single ⟨_, hsmall, rfl⟩)

end Backend

end Paging

end MioOS
