import MioOS.Pmm.Accounting

/-!
# Pmm/Ranges — the operations that walk over a range of frames

`alloc_page_below_1mib`, `mark_region_used` and `mark_region_free` call the single-frame operations
in a loop.  Each is one `Takes` or one `Gives`, and each loop ends.
-/

namespace MioOS

open ByteMemory Intrusive BuddyBlocks

namespace PMM

variable {g : Geometry} {s s' : PMM} {F : Set ℕ} {e i q fuel base length : ℕ}

/-! ## Addresses of frames -/

theorem mul_pageSize_shift (q : ℕ) : (q * pageSize) >>> pageShift = q := by
  rw [Nat.shiftRight_eq_div_pow, pageSize, pageShift]
  omega

theorem u64_next (h : q < e) (he : e < 2 ^ 52) :
    u64 (q * pageSize + pageSize) = (q + 1) * pageSize := by
  rw [u64_of_lt] <;> simp only [pageSize] <;> omega

theorem mul_pageSize_lt : q * pageSize < e * pageSize ↔ q < e := by
  simp only [pageSize]
  omega

/-- The first frame that `mark_region_used` visits. -/
def usedFrom (base : ℕ) : ℕ := alignDown base pageSize / pageSize

/-- The frame at which `mark_region_used` stops. -/
def usedUpTo (base length : ℕ) : ℕ := alignUp (u64 (base + length)) pageSize / pageSize

/-- The first frame that `mark_region_free` visits. -/
def freeFrom (base : ℕ) : ℕ := alignUp base pageSize / pageSize

/-- The frame at which `mark_region_free` stops. -/
def freeUpTo (base length : ℕ) : ℕ := alignDown (u64 (base + length)) pageSize / pageSize

/-! ## `alloc_page_below_1mib` -/

/-- The first frame of the list that is free is taken. -/
theorem allocFirstOf_spec (h : BuddyInv g s F) {l : List ℕ} (hl : ∀ q ∈ l, q < 2 ^ 35) :
    (∃ q ∈ l, ∃ s', s.allocFirstOf l = some (q * pageSize, s') ∧ Takes g s F {q} s') ∨
      (∀ q ∈ l, q ∉ F) ∧ s.allocFirstOf l = some (0, s) := by
  induction l with
  | nil => exact Or.inr ⟨by simp, rfl⟩
  | cons q l ih =>
    obtain ⟨hq, hl⟩ := List.forall_mem_cons.mp hl
    rw [allocFirstOf]
    rcases allocateSpecificPage_spec h q with ⟨s', heq, htakes⟩ | ⟨hout, heq⟩
    · refine Or.inl ⟨q, List.mem_cons_self, s', ?_, htakes⟩
      have hphys : u64 (q <<< pageShift) = q * pageSize := by
        rw [Nat.shiftLeft_eq, pageShift, pageSize, u64_of_lt (by omega)]
      rw [heq, Option.bind_some, hphys]
    · rw [heq, Option.bind_some]
      rcases ih hl with ⟨r, hr, h'⟩ | ⟨hnone, h'⟩
      · exact Or.inl ⟨r, List.mem_cons_of_mem _ hr, h'⟩
      · exact Or.inr ⟨List.forall_mem_cons.mpr ⟨hout, hnone⟩, h'⟩

/-- **`alloc_page_below_1mib`** takes one free frame from 8 to 255, or finds none. -/
theorem allocPageBelow1mib_spec (h : BuddyInv g s F) (hinit : s.initializedBuddy = true) :
    (∃ q, 8 ≤ q ∧ q < 256 ∧ ∃ s', s.allocPageBelow1mib = some (q * pageSize, s') ∧
      Takes g s F {q} s') ∨
      (∀ q, 8 ≤ q → q < 256 → q ∉ F) ∧ s.allocPageBelow1mib = some (0, s) := by
  rw [allocPageBelow1mib, hinit, Bool.not_true, if_neg Bool.false_ne_true]
  have hrange : ∀ q, q ∈ List.range' 8 248 ↔ 8 ≤ q ∧ q < 256 := fun q => by
    rw [List.mem_range'_1]
  rcases allocFirstOf_spec h (l := List.range' 8 248) fun q hq => by
    have := (hrange q).mp hq
    omega
    with ⟨q, hq, h'⟩ | ⟨hnone, h'⟩
  · exact Or.inl ⟨q, ((hrange q).mp hq).1, ((hrange q).mp hq).2, h'⟩
  · exact Or.inr ⟨fun q h1 h2 => hnone q ((hrange q).mpr ⟨h1, h2⟩), h'⟩

/-! ## `mark_region_used` -/

theorem markUsedLoop_takes (h : BuddyInv g s F) (hs : s.Sized) (hfuel : e - i < fuel)
    (he : e < 2 ^ 52) :
    ∃ s', markUsedLoop fuel s (i * pageSize) (e * pageSize) = some s' ∧
      Takes g s F (F ∩ Set.Ico i e) s' := by
  induction fuel generalizing s F i with
  | zero => omega
  | succ fuel ih =>
    rw [markUsedLoop]
    by_cases hi : i < e
    · have hcons : Set.Ico i e = insert i (Set.Ico (i + 1) e) := (Set.insert_Ico_succ_left_eq_Ico hi).symm
      rw [if_pos (mul_pageSize_lt.mpr hi), mul_pageSize_shift, u64_next hi he, hcons]
      rcases allocateSpecificPage_spec h i with ⟨s₁, heq, htakes⟩ | ⟨hout, heq⟩
      · obtain ⟨s', heq', htakes'⟩ := ih htakes.inv htakes.sized (i := i + 1) (by omega)
        refine ⟨s', by rw [heq]; exact heq', ?_⟩
        have hi_free : i ∈ F := Set.singleton_subset_iff.mp htakes.subset
        have hR : F ∩ insert i (Set.Ico (i + 1) e) = {i} ∪ (F \ {i}) ∩ Set.Ico (i + 1) e := by
          ext q
          simp only [Set.mem_inter_iff, Set.mem_insert_iff, Set.mem_union, Set.mem_singleton_iff,
            Set.mem_sdiff, Set.mem_Ico]
          grind
        rw [hR]
        exact htakes.trans h htakes'
      · obtain ⟨s', heq', htakes'⟩ := ih h hs (i := i + 1) (by omega)
        refine ⟨s', by rw [heq]; exact heq', ?_⟩
        rwa [Set.inter_insert_of_notMem hout]
    · rw [if_neg (mul_pageSize_lt.not.mpr hi)]
      refine ⟨s, rfl, ?_⟩
      rw [Set.Ico_eq_empty hi, Set.inter_empty]
      exact .refl h hs

/-! ## `mark_region_free` -/

/-- Freeing one page gives its frame; the null page is never freed. -/
theorem freeOne_gives (h : BuddyInv g s F) (hq : g.Frame q) (hout : q ∉ F) :
    Gives g s F {q} (s.freePages (q * pageSize) 1) := by
  have hone : pagesToOrder 1 = 0 := rfl
  have hblock : block (pagesToOrder 1) q = {q} := by rw [hone, block_zero]
  rw [← hblock]
  refine freePages_gives h (by rw [hone]; exact Nat.zero_le _) (by rw [hone]; exact one_dvd _) ?_ ?_
  · rw [hblock]
    rintro r rfl
    exact hq
  · rw [hblock]
    exact Set.disjoint_singleton_left.mpr hout

theorem markFreeLoop_gives (h : BuddyInv g s F) (hs : s.Sized) (hfuel : e - i < fuel)
    (he : e < 2 ^ 52) (hframes : ∀ q ∈ Set.Ico i e, q ∉ F → q ≠ 0 → g.Frame q) :
    ∃ s', markFreeLoop fuel s (i * pageSize) (e * pageSize) = some s' ∧
      Gives g s F (Set.Ico i e \ (F ∪ {0})) s' := by
  classical
  induction fuel generalizing s F i with
  | zero => omega
  | succ fuel ih =>
    rw [markFreeLoop]
    by_cases hi : i < e
    · have hcons : Set.Ico i e = insert i (Set.Ico (i + 1) e) :=
        (Set.insert_Ico_succ_left_eq_Ico hi).symm
      have hframes' : ∀ q ∈ Set.Ico (i + 1) e, q ∉ F → q ≠ 0 → g.Frame q := fun q hq =>
        hframes q (by rw [hcons]; exact Or.inr hq)
      rw [if_pos (mul_pageSize_lt.mpr hi), mul_pageSize_shift, u64_next hi he, hcons,
        isPageFree_eq h i, Option.bind_some]
      by_cases hskip : i ∈ F ∪ {0}
      · have hsame : (if decide (i ∈ F) then s else s.freePages (i * pageSize) 1) = s := by
          rcases hskip with hin | rfl
          · rw [decide_eq_true hin, if_pos rfl]
          · rw [Nat.zero_mul, freePages, if_pos (Or.inl rfl), ite_self]
        rw [hsame, Set.insert_sdiff_of_mem _ hskip]
        exact ih h hs (by omega) hframes'
      · have hout : i ∉ F := fun hin => hskip (Or.inl hin)
        have hgives := freeOne_gives h (hframes i ⟨le_rfl, hi⟩ hout fun h0 => hskip (Or.inr h0)) hout
        obtain ⟨s', heq, hgives'⟩ := ih hgives.inv hgives.sized (i := i + 1) (by omega)
          fun q hq hqF => hframes' q hq fun hin => hqF (Or.inl hin)
        refine ⟨s', by rw [decide_eq_false hout]; exact heq, ?_⟩
        have hR : insert i (Set.Ico (i + 1) e) \ (F ∪ {0})
            = {i} ∪ Set.Ico (i + 1) e \ (F ∪ {i} ∪ {0}) := by
          ext q
          simp only [Set.mem_sdiff, Set.mem_insert_iff, Set.mem_union, Set.mem_singleton_iff,
            Set.mem_Ico] at hskip ⊢
          grind
        rw [hR]
        exact hgives.trans hgives'
    · rw [if_neg (mul_pageSize_lt.not.mpr hi)]
      refine ⟨s, rfl, ?_⟩
      rw [Set.Ico_eq_empty hi, Set.empty_sdiff]
      exact .refl h hs

/-! ## Whole operations -/

/-- A rounded address is the address of a frame. -/
theorem frame_of_rounded {a x : ℕ} (hx : x < 2 ^ 64) (h : a = x / pageSize * pageSize) :
    a = a / pageSize * pageSize ∧ a / pageSize < 2 ^ 52 := by
  simp only [pageSize] at h ⊢
  omega

/-- **`mark_region_used`** takes the free frames of the region. -/
theorem markRegionUsed_takes (length : ℕ) (h : BuddyInv g s F) (hs : s.Sized)
    (hinit : s.initializedBuddy = true) (hbase : base < 2 ^ 64) :
    ∃ s', s.markRegionUsed base length = some s' ∧
      Takes g s F (F ∩ Set.Ico (usedFrom base) (usedUpTo base length)) s' := by
  obtain ⟨hfrom, -⟩ := frame_of_rounded hbase (alignDown_page hbase)
  obtain ⟨hto, hlt⟩ := frame_of_rounded (u64_lt _) (alignUp_eq (u64 (base + length)))
  rw [markRegionUsed, hinit, Bool.not_true, if_neg Bool.false_ne_true, hfrom, hto]
  exact markUsedLoop_takes h hs (lt_of_le_of_lt (Nat.sub_le _ _) hlt) hlt

/-- **`mark_region_free`** gives the frames of the region that are not free, except frame 0. -/
theorem markRegionFree_gives (h : BuddyInv g s F) (hs : s.Sized)
    (hinit : s.initializedBuddy = true)
    (hframes : ∀ q ∈ Set.Ico (freeFrom base) (freeUpTo base length), q ∉ F → q ≠ 0 → g.Frame q) :
    ∃ s', s.markRegionFree base length = some s' ∧
      Gives g s F (Set.Ico (freeFrom base) (freeUpTo base length) \ (F ∪ {0})) s' := by
  obtain ⟨hfrom, -⟩ := frame_of_rounded (u64_lt _) (alignUp_eq base)
  obtain ⟨hto, hlt⟩ := frame_of_rounded (u64_lt (base + length)) (alignDown_page (u64_lt _))
  rw [markRegionFree, hinit, Bool.not_true, if_neg Bool.false_ne_true, hfrom, hto]
  exact markFreeLoop_gives h hs (lt_of_le_of_lt (Nat.sub_le _ _) hlt) hlt hframes

end PMM

end MioOS
