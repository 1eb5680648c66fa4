import MioOS.Pmm.Buddy

/-!
# Pmm/Accounting — the counters, and what a sequence of operations does to them

`Takes` and `Gives` compose (`Takes.trans`, `Gives.trans`), so a loop that takes or gives frames one
by one takes or gives all of them.  `Accounted` relates the counters to the set of free frames: any
`Takes` keeps it, a `Gives` keeps it as long as what it gives back was counted as used.
-/

namespace MioOS

open ByteMemory Intrusive BuddyBlocks

namespace PMM

/-- The counters are exact. -/
structure Accounted (s : PMM) (F : Set ℕ) : Prop where
  free : s.freeMemory = pageSize * F.ncard
  total : s.freeMemory + s.usedMemory = s.totalMemory
  bound : s.totalMemory < 2 ^ 64

/-- The counters hold 64-bit values. -/
structure Sized (s : PMM) : Prop where
  used : s.usedMemory < 2 ^ 64
  free : s.freeMemory < 2 ^ 64

variable {g : Geometry} {s s' s'' : PMM} {F R R' W : Set ℕ} {a b e i n q fuel : ℕ}

/-! ## Counters -/

section Counters

theorem countUsed_countUsed (s : PMM) (h : a + b ≤ 2 ^ 64) :
    (s.countUsed a).countUsed b = s.countUsed (a + b) := by
  have hu : u64 (u64 (s.usedMemory + a) + b) = u64 (s.usedMemory + (a + b)) := by
    simp only [u64_eq]
    omega
  have hf : sub64 (sub64 s.freeMemory a) b = sub64 s.freeMemory (a + b) := by
    simp only [sub64_eq]
    omega
  unfold countUsed
  rw [hu, hf]

theorem countFreed_countFreed (s : PMM) (h : a + b ≤ 2 ^ 64) :
    (s.countFreed a).countFreed b = s.countFreed (a + b) := by
  have hu : sub64 (sub64 s.usedMemory a) b = sub64 s.usedMemory (a + b) := by
    simp only [sub64_eq]
    omega
  have hf : u64 (u64 (s.freeMemory + a) + b) = u64 (s.freeMemory + (a + b)) := by
    simp only [u64_eq]
    omega
  unfold countFreed
  rw [hu, hf]

theorem Sized.countUsed_zero (h : s.Sized) : s.countUsed 0 = s := by
  have hu : u64 (s.usedMemory + 0) = s.usedMemory := u64_of_lt h.used
  have hf : sub64 s.freeMemory 0 = s.freeMemory := sub64_of_le h.free (Nat.zero_le _)
  unfold countUsed
  rw [hu, hf]

theorem Sized.countFreed_zero (h : s.Sized) : s.countFreed 0 = s := by
  have hu : sub64 s.usedMemory 0 = s.usedMemory := sub64_of_le h.used (Nat.zero_le _)
  have hf : u64 (s.freeMemory + 0) = s.freeMemory := u64_of_lt h.free
  unfold countFreed
  rw [hu, hf]

@[simp] theorem initializedBuddy_countUsed (s : PMM) (n : ℕ) :
    (s.countUsed n).initializedBuddy = s.initializedBuddy := by
  cases s
  rfl

@[simp] theorem initializedBuddy_countFreed (s : PMM) (n : ℕ) :
    (s.countFreed n).initializedBuddy = s.initializedBuddy := by
  cases s
  rfl

@[simp] theorem totalMemory_countUsed (s : PMM) (n : ℕ) :
    (s.countUsed n).totalMemory = s.totalMemory := by
  cases s
  rfl

@[simp] theorem totalMemory_countFreed (s : PMM) (n : ℕ) :
    (s.countFreed n).totalMemory = s.totalMemory := by
  cases s
  rfl

@[simp] theorem mmap_countUsed (s : PMM) (n : ℕ) : (s.countUsed n).mmap = s.mmap := by
  cases s
  rfl

@[simp] theorem mmap_countFreed (s : PMM) (n : ℕ) : (s.countFreed n).mmap = s.mmap := by
  cases s
  rfl

@[simp] theorem highestReservedPhys_countFreed (s : PMM) (n : ℕ) :
    (s.countFreed n).highestReservedPhys = s.highestReservedPhys := by
  cases s
  rfl

@[simp] theorem bumpPtrPhys_countFreed (s : PMM) (n : ℕ) :
    (s.countFreed n).bumpPtrPhys = s.bumpPtrPhys := by
  cases s
  rfl

theorem Evolves.used (h : Evolves g W s s') : s'.usedMemory = s.usedMemory := by
  have hs := congrArg PMM.usedMemory h.scalars
  exact hs

theorem Evolves.free (h : Evolves g W s s') : s'.freeMemory = s.freeMemory := by
  have hs := congrArg PMM.freeMemory h.scalars
  exact hs

theorem Evolves.total (h : Evolves g W s s') : s'.totalMemory = s.totalMemory := by
  have hs := congrArg PMM.totalMemory h.scalars
  exact hs

theorem Evolves.initialized (h : Evolves g W s s') : s'.initializedBuddy = s.initializedBuddy := by
  have hs := congrArg PMM.initializedBuddy h.scalars
  exact hs

theorem Evolves.mmap (h : Evolves g W s s') : s'.mmap = s.mmap := by
  have hs := congrArg PMM.mmap h.scalars
  exact hs

theorem Sized.countUsed (s : PMM) (n : ℕ) : (s.countUsed n).Sized := ⟨u64_lt _, sub64_lt _ _⟩

theorem Sized.countFreed (s : PMM) (n : ℕ) : (s.countFreed n).Sized := ⟨sub64_lt _ _, u64_lt _⟩

theorem Sized.evolves (h : s.Sized) (hev : Evolves g W s s') : s'.Sized :=
  ⟨hev.used ▸ h.used, hev.free ▸ h.free⟩

theorem Accounted.sized (h : Accounted s F) : s.Sized := by
  have ht := h.total
  have hb := h.bound
  exact ⟨by omega, by omega⟩

end Counters

/-! ## Composition -/

theorem BuddyInv.finite (h : BuddyInv g s F) : F.Finite :=
  (Set.finite_Iio (2 ^ 35)).subset fun q hq => (h.frames q hq).lt

/-- The free frames fill at most 2^47 bytes. -/
theorem BuddyInv.ncard_le (h : BuddyInv g s F) : F.ncard ≤ 2 ^ 35 := by
  have hsub : F ⊆ Set.Iio (2 ^ 35) := fun q hq => (h.frames q hq).lt
  have hcard := Set.ncard_le_ncard hsub (Set.finite_Iio _)
  rwa [← Finset.coe_Iio, Set.ncard_coe_finset, Nat.card_Iio] at hcard

namespace Takes

theorem sized (h : Takes g s F R s') : s'.Sized := (Sized.countUsed _ _).evolves h.evolves

theorem initialized (h : Takes g s F R s') : s'.initializedBuddy = s.initializedBuddy := by
  rw [h.evolves.initialized, initializedBuddy_countUsed]

theorem mmap (h : Takes g s F R s') : s'.mmap = s.mmap := by
  rw [h.evolves.mmap, mmap_countUsed]

theorem refl (h : BuddyInv g s F) (hs : s.Sized) : Takes g s F ∅ s := by
  refine ⟨Set.empty_subset F, ?_, ?_⟩
  · rwa [Set.sdiff_empty]
  · rw [Set.ncard_empty, Nat.mul_zero, hs.countUsed_zero]
    exact .refl ..

theorem trans (hinv : BuddyInv g s F) (h : Takes g s F R s') (h' : Takes g s' (F \ R) R' s'') :
    Takes g s F (R ∪ R') s'' := by
  have hdisj : Disjoint R R' := Set.disjoint_sdiff_right.mono_right h'.subset
  have hsub : R ∪ R' ⊆ F := Set.union_subset h.subset (h'.subset.trans Set.sdiff_subset)
  have hcard := Set.ncard_union_eq hdisj (hinv.finite.subset h.subset)
    (hinv.finite.subset (h'.subset.trans Set.sdiff_subset))
  have hle := (Set.ncard_le_ncard hsub hinv.finite).trans hinv.ncard_le
  refine ⟨hsub, ?_, ?_⟩
  · rw [← Set.sdiff_sdiff]
    exact h'.inv
  · rw [hcard, Nat.mul_add, ← countUsed_countUsed]
    · exact (h.evolves.countUsed _).trans (h'.evolves.mono Set.sdiff_subset)
    · rw [hcard] at hle
      rw [pageSize]
      omega

/-- Frames that are taken are counted as used. -/
theorem accounted (h : Takes g s F R s') (hF : F.Finite) (ha : Accounted s F) :
    Accounted s' (F \ R) := by
  have hcard := Set.ncard_sdiff h.subset (hF.subset h.subset)
  have hle := Set.ncard_le_ncard h.subset hF
  have hfree := ha.free
  have htotal := ha.total
  have hbound := ha.bound
  have hmul := Nat.mul_le_mul_left pageSize hle
  have hf : s'.freeMemory = s.freeMemory - pageSize * R.ncard := by
    rw [h.evolves.free]
    exact sub64_of_le (by omega) (by omega)
  have hu : s'.usedMemory = s.usedMemory + pageSize * R.ncard := by
    rw [h.evolves.used]
    exact u64_of_lt (by omega)
  have ht : s'.totalMemory = s.totalMemory := by
    rw [h.evolves.total, totalMemory_countUsed]
  refine ⟨?_, ?_, by rw [ht]; exact hbound⟩
  · rw [hf, hcard, hfree, Nat.mul_sub]
  · rw [hf, hu, ht]
    omega

end Takes

namespace Gives

theorem sized (h : Gives g s F R s') : s'.Sized := (Sized.countFreed _ _).evolves h.evolves

theorem initialized (h : Gives g s F R s') : s'.initializedBuddy = s.initializedBuddy := by
  rw [h.evolves.initialized, initializedBuddy_countFreed]

theorem mmap (h : Gives g s F R s') : s'.mmap = s.mmap := by
  rw [h.evolves.mmap, mmap_countFreed]

theorem refl (h : BuddyInv g s F) (hs : s.Sized) : Gives g s F ∅ s := by
  refine ⟨Set.empty_disjoint F, ?_, ?_⟩
  · rwa [Set.union_empty]
  · rw [Set.ncard_empty, Nat.mul_zero, hs.countFreed_zero]
    exact .refl ..

theorem trans (h : Gives g s F R s') (h' : Gives g s' (F ∪ R) R' s'') :
    Gives g s F (R ∪ R') s'' := by
  have hdisj : Disjoint R R' := h'.disjoint.symm.mono_left Set.subset_union_right
  have hfin := h'.inv.finite
  have hsub : R ∪ R' ⊆ F ∪ R ∪ R' := by
    rw [Set.union_assoc]
    exact Set.subset_union_right
  have hcard := Set.ncard_union_eq hdisj
    (hfin.subset (Set.subset_union_left.trans hsub)) (hfin.subset Set.subset_union_right)
  have hle := (Set.ncard_le_ncard hsub hfin).trans h'.inv.ncard_le
  refine ⟨Set.disjoint_union_left.mpr
    ⟨h.disjoint, h'.disjoint.mono_right Set.subset_union_left⟩, ?_, ?_⟩
  · rw [← Set.union_assoc]
    exact h'.inv
  · rw [hcard, Nat.mul_add, ← countFreed_countFreed, ← Set.union_assoc]
    · exact ((h.evolves.countFreed _).mono Set.subset_union_left).trans h'.evolves
    · rw [hcard] at hle
      rw [pageSize]
      omega

/-- Frames that are given back are counted as free, if they were counted as used. -/
theorem accounted (h : Gives g s F R s') (ha : Accounted s F)
    (hused : pageSize * R.ncard ≤ s.usedMemory) : Accounted s' (F ∪ R) := by
  have hfin := h.inv.finite
  have hcard := Set.ncard_union_eq h.disjoint.symm (hfin.subset Set.subset_union_left)
    (hfin.subset Set.subset_union_right)
  have hfree := ha.free
  have htotal := ha.total
  have hbound := ha.bound
  have hf : s'.freeMemory = s.freeMemory + pageSize * R.ncard := by
    rw [h.evolves.free]
    exact u64_of_lt (by omega)
  have hu : s'.usedMemory = s.usedMemory - pageSize * R.ncard := by
    rw [h.evolves.used]
    exact sub64_of_le (by omega) hused
  have ht : s'.totalMemory = s.totalMemory := by
    rw [h.evolves.total, totalMemory_countFreed]
  refine ⟨?_, ?_, by rw [ht]; exact hbound⟩
  · rw [hf, hcard, hfree, Nat.mul_add]
  · rw [hf, hu, ht]
    omega

end Gives

end PMM

end MioOS
