import MioOS.Paging.Huge

/-!
# Paging/Protect — `protect_page`

`protect_page` writes the 4 KiB leaf of an address again, with the same frame and new rights.  Its
walk does not ask for huge leaves: where it meets one it goes on in the frame the leaf maps, as if
that were a table.
-/

namespace MioOS

namespace Paging

open Radix

namespace Backend

variable {s s' : Backend} {cpu : CpuFeatures} {flags : PageFlags} {virt n : ℕ} {i : Fin 512}
  {p : List (Fin 512)}

/-- **Only permissions change**: an error changes nothing and a success writes the leaf entry of the
address again, with its frame and the new flags; no translation changes, and no page that is not a
page table. -/
def OnlyPermissions (cpu : CpuFeatures) (s : Backend) (virt : ℕ) (flags : PageFlags) (r : PagingError)
    (s' : Backend) : Prop :=
  (r ≠ .success ∧ s' = s ∨
      r = .success ∧ ∃ p n i, LeafAt s virt p n i ∧
        s' = s.setEntry n i (leafEntry cpu (.makePage (s.tables n i).physicalAddress flags))) ∧
    (∀ w, s'.translate w = s.translate w) ∧
      ∀ m, (∀ q, s.tableAt q ≠ some m) → s'.tables m = s.tables m

theorem address_lt (e : PageTableEntry) : e.physicalAddress < 2 ^ 52 := by
  have hlt := e.pfn.isLt
  rw [PageTableEntry.physicalAddress, pageShift, Nat.shiftLeft_eq]
  omega

/-- The frame of a leaf that is written again. -/
theorem address_makePage_self (e : PageTableEntry) :
    (leafEntry cpu (.makePage e.physicalAddress flags)).physicalAddress = e.physicalAddress :=
  address_makePage cpu (address_mod e) (address_lt e)

/-- **Writing a 4 KiB leaf again** with the same frame changes no translation. -/
theorem LeafAt.translate_setEntry (h : LeafAt s virt p n i)
    (hsep : Separate format (.tree _) s.tables 3 s.kernelPml4Phys) (hlen : p.length = 3)
    {e : PageTableEntry} (he : e.present = true)
    (haddress : e.physicalAddress = (s.tables n i).physicalAddress) (w : ℕ) :
    (s.setEntry n i e).translate w = s.translate w := by
  rw [translate_eq, translate_eq]
  by_cases hvis : Visits format s.tables 3 s.kernelPml4Phys (path w) n i
  · have htake : (path w).take (p.length + 1) = p ++ [i] := hsep.of_visits h.table hvis
    have hw : path w = p ++ [i] := by
      rw [← htake, hlen]
      exact (List.take_of_length_le (by rw [length_path])).symm
    have hleaf : format.view (3 - p.length) e = .leaf := by
      rw [hlen]
      exact view_leaf he (Or.inl rfl)
    have hafter : (s.setEntry n i e).trailOf (p ++ [i])
        = some (spine format s.tables 3 s.kernelPml4Phys p ++ [e]) :=
      trail_write_leaf hsep h.table h.slot hleaf
    rw [hw, hafter, trailOf_of_leaf h.table h.view, Option.elim_some, Option.elim_some, addressOf,
      addressOf, List.getLastD_concat, List.getLastD_concat, haddress, List.length_append,
      List.length_append]
    rfl
  · have hsame : (s.setEntry n i e).trailOf (path w) = s.trailOf (path w) :=
      trail_write_of_not_visits hvis
    rw [hsame]

/-- **`protect_page` changes permissions only**, for an address whose leaf is a 4 KiB page; an error
changes nothing in any case. -/
theorem protectPage_onlyPermissions
    (hsep : Separate format (.tree _) s.tables 3 s.kernelPml4Phys) {r : PagingError}
    (hr : s.protectPage cpu virt flags = (r, s')) :
    (r ≠ .success → s' = s) ∧
      ((∀ p n i, LeafAt s virt p n i → p.length = 3) → OnlyPermissions cpu s virt flags r s') := by
  rcases protectPage_cases hr with ⟨hne, rfl⟩ | ⟨rfl, p, n, i, hleaf, hcases⟩
  · exact ⟨fun _ => rfl, fun _ => ⟨Or.inl ⟨hne, rfl⟩, fun _ => rfl, fun _ _ => rfl⟩⟩
  · refine ⟨fun hne => absurd rfl hne, fun hsmall => ?_⟩
    have hlen := hsmall p n i hleaf
    rcases hcases with ⟨-, rfl⟩ | hlt
    · have hpresent : (leafEntry cpu
          (.makePage (s.tables n i).physicalAddress flags)).present = true := by
        rw [leafEntry]
        split <;> rfl
      refine ⟨Or.inr ⟨rfl, p, n, i, hleaf, rfl⟩,
        hleaf.translate_setEntry hsep hlen hpresent (address_makePage_self _), fun m hm => ?_⟩
      have hne : m ≠ n := fun heq => hm p (heq ▸ hleaf.table)
      exact Function.update_of_ne hne _ _
    · exact absurd hlen (Nat.ne_of_lt hlt)

/-! ## A 2 MiB page whose data reads like a table -/

/-- Physical memory with a page of data whose first bytes read like a present entry. -/
def dataPage : Backend :=
  ⟨fun n i => if n = 0x400000 ∧ i = 0 then { present := true } else .makeEmpty, 0x1000,
    [0x2000, 0x3000]⟩

/-- The data page is mapped as part of a 2 MiB page. -/
def dataMapped : Backend := (dataPage.mapPage fullCpu 0x200000 0x400000 read2M).2

/-- The data page is written instead of the leaf. -/
theorem not_onlyPermissions_huge :
    ¬ ∀ s virt flags, Separate format (.tree _) s.tables 3 s.kernelPml4Phys → Canonical virt →
      virt % pageSize = 0 → OnlyPermissions fullCpu s virt flags
        (s.protectPage fullCpu virt flags).1 (s.protectPage fullCpu virt flags).2 := by
  intro hall
  have hblank : ∀ i, (dataPage.tables dataPage.kernelPml4Phys i).present = false := fun i => by
    simp [dataPage, PageTableEntry.makeEmpty]
  have hsound : dataPage.Sound (.tree _) :=
    sound_of_blank hblank (by decide) (by decide) (by decide)
  have hsep : Separate format (.tree _) dataMapped.tables 3 dataMapped.kernelPml4Phys :=
    (hsound.run (.mapPage 0x200000 0x400000 read2M)).separate
  obtain ⟨hcases, -, -⟩ := hall dataMapped 0x200000 .kernelRW hsep (Or.inl (by norm_num))
    (by decide)
  rcases hcases with ⟨hne, -⟩ | ⟨-, p, n, i, hleaf, heq⟩
  · exact hne (by decide)
  · -- the entry that changed is in the data page, which no path leads to
    generalize leafEntry fullCpu _ = e at heq
    have hchanged : (dataMapped.setEntry n i e).tables 0x400000 0
        ≠ dataMapped.tables 0x400000 0 := by
      rw [← heq]
      decide
    have hn : n = 0x400000 := by
      by_contra hne
      exact hchanged (write_of_ne fun hand => hne hand.1.symm)
    have hp : p = (path 0x200000).take p.length := by
      have hprefix := (List.prefix_append p [i]).trans hleaf.slotPath
      exact List.prefix_iff_eq_take.mp hprefix
    have htable := hleaf.table
    have hlt : p.length < 4 := hleaf.length_le
    rw [hn, hp] at htable
    have hnone : ∀ k < 4, dataMapped.tableAt ((path 0x200000).take k) ≠ some 0x400000 := by decide
    exact hnone _ hlt htable

/-- A page of 4 KiB is mapped. -/
def smallMapped : Backend := (blank.mapPage fullCpu 0x200000 0x600000 .kernelRW).2

/-- A page of 4 KiB is protected. -/
theorem onlyPermissions_smallMapped :
    OnlyPermissions fullCpu smallMapped 0x200000 .read .success
      (smallMapped.protectPage fullCpu 0x200000 .read).2 := by
  have hsep : Separate format (.tree _) smallMapped.tables 3 smallMapped.kernelPml4Phys :=
    ((sound_blank _).run (.mapPage 0x200000 0x600000 .kernelRW)).separate
  refine (protectPage_onlyPermissions hsep rfl).2 fun p n i hleaf => ?_
  have hlen : (smallMapped.trailOf (path 0x200000)).map List.length = some 4 := by decide
  rw [hleaf.trail rfl, Option.map_some, hleaf.length_spine] at hlen
  exact Nat.succ.inj (Option.some.inj hlen)

end Backend

end Paging

end MioOS
