import MioOS.Pmm.Blocks

/-!
# Pmm/Buddy — the loops and the operations of the buddy allocator

Each loop of `pmm.cpp` as a change of the set `F` of free frames:

* `mergeLoop_spec` — the merge loop and the `list_add` after it add a block;
* `splitDown_spec`, `splitToward_spec` — splitting a removed block gives back all of it but one
  smaller block, or all of it but one frame;
* `findBlockFrom_spec` — the search by address finds the frame exactly when it is free.

An operation either takes frames out of `F` (`Takes`) or gives frames to it (`Gives`), and counts
them.  These two say all that later modules need of `alloc_pages`, `free_pages`, `free_pages_order`
and `allocate_specific_page`: the rest of the state, and all memory outside the bitmaps and the free
pages, is as it was.
-/

namespace MioOS

open ByteMemory Intrusive BuddyBlocks

namespace PMM

variable {g : Geometry} {s s' : PMM} {L : ℕ → List ℕ} {B : ℕ → ℕ → Bool} {F W : Set ℕ}
  {left n o p q t x : ℕ}

/-! ## Taking and giving frames -/

/-- `s'` is `s` after the frames `R` were taken out of the free frames `F`. -/
structure Takes (g : Geometry) (s : PMM) (F R : Set ℕ) (s' : PMM) : Prop where
  subset : R ⊆ F
  inv : BuddyInv g s' (F \ R)
  evolves : Evolves g F (s.countUsed (pageSize * R.ncard)) s'

/-- `s'` is `s` after the frames `R` were added to the free frames `F`. -/
structure Gives (g : Geometry) (s : PMM) (F R : Set ℕ) (s' : PMM) : Prop where
  disjoint : Disjoint R F
  inv : BuddyInv g s' (F ∪ R)
  evolves : Evolves g (F ∪ R) (s.countFreed (pageSize * R.ncard)) s'

theorem Evolves.countUsed (h : Evolves g W s s') (n : ℕ) :
    Evolves g W (s.countUsed n) (s'.countUsed n) := by
  refine ⟨?_, ?_⟩
  · rw [scalars_countUsed, scalars_countUsed, h.scalars]
  · rw [mem_countUsed, mem_countUsed]
    exact h.mem

theorem Evolves.countFreed (h : Evolves g W s s') (n : ℕ) :
    Evolves g W (s.countFreed n) (s'.countFreed n) := by
  refine ⟨?_, ?_⟩
  · rw [scalars_countFreed, scalars_countFreed, h.scalars]
  · rw [mem_countFreed, mem_countFreed]
    exact h.mem

/-! ## Freeing -/

/-- The `list_add` that follows a merge loop. -/
def addMerged (r : PMM × ℕ × ℕ) : PMM := r.1.listAdd (nodeOf r.2.1) r.2.2

/-- The last step of a free: the bits already tell that the block is free. -/
theorem BuddyInv.add (hrepr : Repr g s L B)
    (hsync : Sync (Function.update L o (p :: L o)) B (F ∪ block o p)) (ho : o ≤ buddyMaxOrder)
    (hframes : ∀ q ∈ F ∪ block o p, g.Frame q)
    (hL : ∀ o ≤ buddyMaxOrder, ∀ q ∈ L o, q ∈ starts buddyMaxOrder F)
    (hdisj : Disjoint (block o p) F) (htrace : ∀ e ∈ s.trace, e.Ok g)
    (hW : starts buddyMaxOrder F ⊆ W) (hW' : starts buddyMaxOrder (F ∪ block o p) ⊆ W) :
    BuddyInv g (s.listAdd (nodeOf p) o) (F ∪ block o p) ∧
      Evolves g W s (s.listAdd (nodeOf p) o) := by
  have hp := hframes p (Or.inr (self_mem_block o p))
  have hnew : ∀ o' ≤ buddyMaxOrder, p ∉ L o' := fun o' ho' hmem =>
    Set.disjoint_left.mp hdisj (self_mem_block o p) (starts_subset (hL o' ho' p hmem))
  have hself : p ∈ starts buddyMaxOrder (F ∪ block o p) :=
    hsync.starts ho p (by rw [Function.update_self]; exact List.mem_cons_self)
  refine ⟨⟨hframes, ⟨_, _, hrepr.listAdd ho hp hnew, hsync⟩, ?_⟩, ?_⟩
  · rw [trace_listAdd]
    exact htrace
  · exact evolves_listAdd hrepr ho hp (hW' hself) fun q hq => hW (hL o ho q hq)

/-- The state after a merge step unlinked a listed buddy. -/
def unlinkBuddy (s : PMM) (q o : ℕ) : PMM :=
  listRemove { s with trace := .merge o (nodeOf q) (s.OnFreeList o (nodeOf q)) :: s.trace }
    (nodeOf q) o

/-- A merge step takes the buddy out of the free frames; the bit of the pair is flipped already. -/
theorem BuddyInv.takeBuddy (hsync : Sync L B F) (hrepr : Repr g s L (flipBit B o (p / 2 ^ (o + 1))))
    (hq : MaxBlock buddyMaxOrder F o q) (hpair : p / 2 ^ (o + 1) = q / 2 ^ (o + 1))
    (htrace : ∀ e ∈ s.trace, e.Ok g) (hframes : ∀ q ∈ F, g.Frame q)
    (hW : starts buddyMaxOrder F ⊆ W) :
    BuddyInv g (s.unlinkBuddy q o) (F \ block o q) ∧ Evolves g W s (s.unlinkBuddy q o) := by
  have hmem : q ∈ L o := (hsync.maximal o hq.le q).mpr hq
  have htraced := hrepr.setTrace (.merge o (nodeOf q) (s.OnFreeList o (nodeOf q)) :: s.trace)
  rw [hpair] at htraced
  refine ⟨⟨fun r hr => hframes r hr.1, ⟨_, _, htraced.listRemove hq.le hmem,
    hsync.erase (hrepr.nodup o hq.le) hq⟩, fun e he => ?_⟩, ?_⟩
  · rw [unlinkBuddy, trace_listRemove, List.mem_cons] at he
    rcases he with rfl | he
    · exact (hrepr.onFreeList_iff hq.le).mpr ⟨q, hmem, rfl⟩
    · exact htrace e he
  · have hev := evolves_listRemove htraced hq.le hmem fun r hr => hW (hsync.starts hq.le r hr)
    exact ⟨hev.scalars, hev.mem⟩

/-- **The merge loop** and the `list_add` after it add the block to the free frames; they write to
blocks that are maximal before or after. -/
theorem mergeLoop_spec (h : BuddyInv g s F) (hleft : left + o = buddyMaxOrder) (hp : 2 ^ o ∣ p)
    (hframes : ∀ q ∈ block o p, g.Frame q) (hdisj : Disjoint (block o p) F)
    (hW : starts buddyMaxOrder F ⊆ W) (hW' : starts buddyMaxOrder (F ∪ block o p) ⊆ W) :
    BuddyInv g (addMerged (mergeLoop left s p o)) (F ∪ block o p) ∧
      Evolves g W s (addMerged (mergeLoop left s p o)) := by
  induction left generalizing s p o F with
  | zero =>
    obtain ⟨L, B, hrepr, hsync⟩ := h.repr
    obtain rfl : o = buddyMaxOrder := by omega
    have hins := hsync.insert le_rfl hp hdisj (Or.inl rfl)
    refine BuddyInv.add hrepr (hins.of_below fun o ho => ?_) le_rfl ?_
      (fun o ho => hsync.starts ho) hdisj h.trace hW hW'
    · rw [flipBit, Function.update_of_ne ho.ne]
    · exact fun q hq => hq.elim (h.frames q) (hframes q)
  | succ left ih =>
    obtain ⟨L, B, hrepr, hsync⟩ := h.repr
    have ho : o < buddyMaxOrder := by omega
    have hp_frame := hframes p (self_mem_block o p)
    have hslice := frame_in_slice hp_frame.covered o
    have hnew : p ∉ L o := hsync.notMem_of_disjoint hdisj o ho.le
    have hpair := hsync.bits o ho p hp
    rw [decide_eq_false hnew, Bool.false_xor] at hpair
    obtain ⟨hbit, htoggled⟩ := hrepr.toggle ho.le hslice
    have hevolves : Evolves g W s (s.toggleBuddyBit p o).2 := evolves_toggle hrepr ho.le hslice
    have htrace := trace_toggle s p o
    rw [Nat.shiftRight_eq_div_pow, hpair] at hbit
    rw [Nat.shiftRight_eq_div_pow] at htoggled
    rcases htog : s.toggleBuddyBit p o with ⟨bit, s₁⟩
    rw [htog] at hbit htoggled hevolves htrace
    have htrace₁ : ∀ e ∈ s₁.trace, e.Ok g := fun e he => by
      rw [htrace, List.mem_cons] at he
      rcases he with rfl | he
      · exact hslice
      · exact h.trace e he
    rw [mergeLoop, htog]
    cases bit with
    | true =>
      -- the buddy is not listed, so it is not wholly free
      have hbuddy : buddy o p ∉ L o := by simpa using hbit
      have hpart : ¬ block o (buddy o p) ⊆ F := fun hsub => hbuddy <|
        (hsync.maximal o ho.le _).mpr <| MaxBlock.buddy ho hp hsub fun hsub' =>
          Set.disjoint_left.mp hdisj (self_mem_block o p) (hsub' (self_mem_block o p))
      obtain ⟨hinv, hev⟩ := BuddyInv.add htoggled (hsync.insert ho.le hp hdisj (Or.inr hpart)) ho.le
        (fun q hq => hq.elim (h.frames q) (hframes q)) (fun o ho => hsync.starts ho) hdisj htrace₁
        hW hW'
      exact ⟨hinv, hevolves.trans hev⟩
    | false =>
      have hbuddy : buddy o p ∈ L o := by simpa using hbit
      have hmax := (hsync.maximal o ho.le _).mp hbuddy
      obtain ⟨hinv, hev⟩ := BuddyInv.takeBuddy hsync htoggled hmax
        ((pair_eq_iff (buddy_dvd hp) hp).mpr (Or.inr (buddy_buddy o p).symm)) htrace₁ h.frames hW
      have hbase : p &&& (2 ^ 64 - 1 - (1 <<< o)) = base (o + 1) p := by
        have hlt := hp_frame.lt
        rw [Nat.one_shiftLeft]
        exact and_not_two_pow hp (by omega) (by simp only [buddyMaxOrder] at ho; omega)
      have hblock := block_succ_base hp
      have hdisj' : Disjoint (block (o + 1) (base (o + 1) p)) (F \ block o (buddy o p)) := by
        rw [hblock, Set.disjoint_union_left]
        exact ⟨hdisj.mono_right Set.sdiff_subset, Set.disjoint_sdiff_right⟩
      have hF : F \ block o (buddy o p) ∪ block (o + 1) (base (o + 1) p) = F ∪ block o p := by
        rw [hblock, Set.union_comm (block o p), ← Set.union_assoc,
          Set.sdiff_union_of_subset hmax.subset]
      have hframes' : ∀ q ∈ block (o + 1) (base (o + 1) p), g.Frame q := fun q hq => by
        rw [hblock] at hq
        exact hq.elim (hframes q) fun hq => h.frames q (hmax.subset hq)
      obtain ⟨hinv', hev'⟩ := ih hinv (by omega) (base_dvd _ _) hframes' hdisj'
        (hmax.starts_diff_subset.trans hW) (hF ▸ hW')
      rw [hF] at hinv'
      rw [hbase, Nat.one_shiftLeft]
      exact ⟨hinv', (hevolves.trans hev).trans hev'⟩

/-- Freeing a block writes to blocks that are maximal before or after. -/
theorem freeBlock_evolves (h : BuddyInv g s F) (ho : o ≤ buddyMaxOrder) (hp : 2 ^ o ∣ p)
    (hframes : ∀ q ∈ block o p, g.Frame q) (hdisj : Disjoint (block o p) F)
    (hW : starts buddyMaxOrder F ⊆ W) (hW' : starts buddyMaxOrder (F ∪ block o p) ⊆ W) :
    Evolves g W (s.countFreed (pageSize * 2 ^ o)) (s.freeBlock p o) :=
  (mergeLoop_spec h (Nat.sub_add_cancel ho) hp hframes hdisj hW hW').2.countFreed _

/-- **Freeing a block** gives its frames, all of them. -/
theorem freeBlock_gives (h : BuddyInv g s F) (ho : o ≤ buddyMaxOrder) (hp : 2 ^ o ∣ p)
    (hframes : ∀ q ∈ block o p, g.Frame q) (hdisj : Disjoint (block o p) F) :
    Gives g s F (block o p) (s.freeBlock p o) := by
  have hW := (starts_subset (N := buddyMaxOrder) (F := F)).trans
    (Set.subset_union_left (t := block o p))
  have hinv := (mergeLoop_spec h (Nat.sub_add_cancel ho) hp hframes hdisj hW starts_subset).1
  refine ⟨hdisj, hinv.countFreed _, ?_⟩
  rw [ncard_block]
  exact freeBlock_evolves h ho hp hframes hdisj hW starts_subset

/-! ## Splitting -/

/-- One step of a split: one half of a block that is not free is listed, and the bit of the two
halves is flipped. -/
theorem BuddyInv.split (h : BuddyInv g s F) (ho : o < buddyMaxOrder) (hp : 2 ^ o ∣ p)
    (hframes : ∀ q ∈ block o p, g.Frame q) (hdisj : Disjoint (block o p) F)
    (hother : Disjoint (block o (buddy o p)) F) :
    BuddyInv g ((s.listAdd (nodeOf p) o).toggleBuddyBit (buddy o p) o).2 (F ∪ block o p) ∧
      Evolves g (F ∪ block o p) s
        ((s.listAdd (nodeOf p) o).toggleBuddyBit (buddy o p) o).2 := by
  refine h.link ho.le hp hframes hdisj (Or.inr fun hsub => ?_)
    ((pair_eq_iff hp (buddy_dvd hp)).mpr (Or.inr rfl))
  exact Set.disjoint_left.mp hother (self_mem_block _ _) (hsub (self_mem_block _ _))

/-- The halves of a block. -/
theorem block_halves (hp : 2 ^ (o + 1) ∣ p) :
    2 ^ o ∣ p ∧ buddy o p = p + 2 ^ o ∧ block (o + 1) p = block o p ∪ block o (buddy o p) := by
  have hp' : 2 ^ o ∣ p := (pow_dvd_pow 2 (Nat.le_succ o)).trans hp
  have hbase : base (o + 1) p = p := base_of_dvd hp
  refine ⟨hp', ?_, by rw [← block_succ_base hp', hbase]⟩
  rcases buddy_cases hp' with ⟨-, hb⟩ | ⟨hb, hb'⟩
  · exact hb
  · have := Nat.two_pow_pos o
    omega

/-- **The split of `alloc_pages`** gives back all of the block but its first `2 ^ o` frames. -/
theorem splitDown_spec (h : BuddyInv g s F) (hleft : o + left ≤ buddyMaxOrder)
    (hp : 2 ^ (o + left) ∣ p) (hframes : ∀ q ∈ block (o + left) p, g.Frame q)
    (hdisj : Disjoint (block (o + left) p) F) :
    BuddyInv g (splitDown o left s p) (F ∪ (block (o + left) p \ block o p)) ∧
      Evolves g (F ∪ block (o + left) p) s (splitDown o left s p) := by
  induction left generalizing s F with
  | zero =>
    rw [Nat.add_zero, Set.sdiff_self, Set.union_empty]
    exact ⟨h, .refl ..⟩
  | succ left ih =>
    rw [← Nat.add_assoc] at hp hdisj hframes ⊢
    obtain ⟨hp', -, hhalves⟩ := block_halves hp
    rw [hhalves, Set.disjoint_union_left] at hdisj
    rw [hhalves] at hframes ⊢
    obtain ⟨hinv, hev⟩ := h.split (by omega) (buddy_dvd hp') (fun q hq => hframes q (Or.inr hq))
      hdisj.2 (by rw [buddy_buddy]; exact hdisj.1)
    rw [buddy_buddy] at hinv hev
    obtain ⟨hinv', hev'⟩ := ih hinv (by omega) hp' (fun q hq => hframes q (Or.inl hq))
      (Set.disjoint_union_right.mpr ⟨hdisj.1, disjoint_block_buddy hp'⟩)
    have hsub : block o p ⊆ block (o + left) p :=
      Set.Ico_subset_Ico_right (by have := Nat.pow_le_pow_right two_pos (Nat.le_add_right o left); omega)
    have hF : F ∪ block (o + left) (buddy (o + left) p) ∪ (block (o + left) p \ block o p)
        = F ∪ ((block (o + left) p ∪ block (o + left) (buddy (o + left) p)) \ block o p) := by
      have hout : Disjoint (block (o + left) (buddy (o + left) p)) (block o p) :=
        (disjoint_block_buddy hp').symm.mono_right hsub
      rw [Set.union_sdiff_distrib, hout.sdiff_eq_left, Set.union_assoc,
        Set.union_comm (block (o + left) (buddy _ p))]
    rw [splitDown, Nat.one_shiftLeft]
    rw [hF] at hinv'
    refine ⟨hinv', (hev.mono ?_).trans (hev'.mono ?_)⟩
    · exact Set.union_subset_union_right _ Set.subset_union_right
    · rw [Set.union_assoc, Set.union_comm (block _ (buddy _ _))]

/-- Keeping one half and all of the other but one frame. -/
theorem keep_half {A H : Set ℕ} (F : Set ℕ) (hapart : Disjoint A H) (ht : t ∈ H) :
    F ∪ A ∪ (H \ {t}) = F ∪ ((A ∪ H) \ {t}) := by
  have hout : Disjoint A {t} := Set.disjoint_singleton_right.mpr (Set.disjoint_right.mp hapart ht)
  rw [Set.union_sdiff_distrib, hout.sdiff_eq_left, Set.union_assoc]

/-- **The split of `allocate_specific_page`** gives back all of the block but the target frame. -/
theorem splitToward_spec (h : BuddyInv g s F) (ho : o ≤ buddyMaxOrder) (hp : 2 ^ o ∣ p)
    (hframes : ∀ q ∈ block o p, g.Frame q) (hdisj : Disjoint (block o p) F) (ht : t ∈ block o p) :
    BuddyInv g (splitToward t o s p) (F ∪ (block o p \ {t})) ∧
      Evolves g (F ∪ block o p) s (splitToward t o s p) := by
  induction o generalizing s p F with
  | zero =>
    rw [block_zero, Set.mem_singleton_iff] at ht
    rw [block_zero, ht, Set.sdiff_self, Set.union_empty]
    exact ⟨h, .refl ..⟩
  | succ o ih =>
    obtain ⟨hp', -, hhalves⟩ := block_halves hp
    rw [hhalves, Set.disjoint_union_left] at hdisj
    rw [hhalves] at hframes ht ⊢
    have hapart := disjoint_block_buddy hp'
    rw [splitToward, Nat.one_shiftLeft]
    by_cases hin : p ^^^ 2 ^ o ≤ t ∧ t < (p ^^^ 2 ^ o) + 2 ^ o
    · -- the target is in the right half: the left one is listed
      obtain ⟨hinv, hev⟩ := h.split (by omega) hp' (fun q hq => hframes q (Or.inl hq)) hdisj.1
        hdisj.2
      obtain ⟨hinv', hev'⟩ := ih hinv (by omega) (buddy_dvd hp')
        (fun q hq => hframes q (Or.inr hq)) (Set.disjoint_union_right.mpr ⟨hdisj.2, hapart.symm⟩) hin
      rw [keep_half F hapart hin] at hinv'
      rw [if_pos hin]
      refine ⟨hinv', (hev.mono ?_).trans (hev'.mono ?_)⟩
      · exact Set.union_subset_union_right _ Set.subset_union_left
      · rw [Set.union_assoc]
    · have hin' : t ∈ block o p := ht.resolve_right hin
      obtain ⟨hinv, hev⟩ := h.split (by omega) (buddy_dvd hp') (fun q hq => hframes q (Or.inr hq))
        hdisj.2 (by rw [buddy_buddy]; exact hdisj.1)
      rw [buddy_buddy] at hinv hev
      obtain ⟨hinv', hev'⟩ := ih hinv (by omega) hp' (fun q hq => hframes q (Or.inl hq))
        (Set.disjoint_union_right.mpr ⟨hdisj.1, hapart⟩) hin'
      rw [keep_half F hapart.symm hin', Set.union_comm (block o (buddy o p))] at hinv'
      rw [if_neg hin]
      refine ⟨hinv', (hev.mono ?_).trans (hev'.mono ?_)⟩
      · exact Set.union_subset_union_right _ Set.subset_union_right
      · rw [Set.union_assoc, Set.union_comm (block o (buddy o p))]

/-! ## Searching -/

/-- The lists are shorter than the fuel of the search. -/
theorem Repr.length_lt (h : Repr g s L B) (ho : o ≤ buddyMaxOrder) : (L o).length < loopFuel := by
  have hsub : (L o).toFinset ⊆ Finset.range (2 ^ 35) := fun q hq =>
    Finset.mem_range.mpr (h.frames o ho q (List.mem_toFinset.mp hq)).lt
  have hcard := Finset.card_le_card hsub
  rw [List.toFinset_card_of_nodup (h.nodup o ho), Finset.card_range] at hcard
  exact hcard.trans_lt (by norm_num [loopFuel])

/-- The inner search returns a block that contains the frame, if the list has one. -/
theorem findBlock_spec {x : ℕ} {l : List ℕ} {fuel : ℕ} (hc : Chain 0 (next s.mem) x (l.map nodeOf))
    (hl : ∀ q ∈ l, g.Frame q) (hfuel : l.length < fuel) :
    (∃ p ∈ l, t ∈ block o p ∧ findBlock s t o fuel x = some (some (nodeOf p))) ∨
      (∀ p ∈ l, t ∉ block o p) ∧ findBlock s t o fuel x = some none := by
  induction l generalizing x fuel with
  | nil =>
    obtain ⟨fuel, rfl⟩ : ∃ k, fuel = k + 1 := ⟨fuel - 1, by rw [List.length_nil] at hfuel; omega⟩
    exact Or.inr ⟨by simp, by rw [findBlock, if_pos (chain_nil.mp hc)]⟩
  | cons p l ih =>
    obtain ⟨rfl, hne, hc⟩ := hc
    rw [List.length_cons] at hfuel
    obtain ⟨fuel, rfl⟩ : ∃ k, fuel = k + 1 := ⟨fuel - 1, by omega⟩
    rw [findBlock, if_neg hne, pfnOf_nodeOf (hl p List.mem_cons_self).lt]
    by_cases ht : p ≤ t ∧ t < p + 2 ^ o
    · exact Or.inl ⟨p, List.mem_cons_self, ht, by rw [if_pos ht]⟩
    · rw [if_neg ht]
      rcases ih hc (fun q hq => hl q (List.mem_cons_of_mem _ hq)) (Nat.lt_of_succ_lt_succ hfuel)
        with ⟨q, hq, h⟩ | ⟨hnone, h⟩
      · exact Or.inl ⟨q, List.mem_cons_of_mem _ hq, h⟩
      · exact Or.inr ⟨List.forall_mem_cons.mpr ⟨ht, hnone⟩, h⟩

/-- The search over the orders returns a block that contains the frame, if a list has one. -/
theorem findBlockFrom_spec (h : Repr g s L B) {orders : List ℕ}
    (horders : ∀ o ∈ orders, o ≤ buddyMaxOrder) :
    (∃ o ∈ orders, ∃ p ∈ L o, t ∈ block o p ∧
      findBlockFrom s t orders = some (some (nodeOf p, o))) ∨
      (∀ o ∈ orders, ∀ p ∈ L o, t ∉ block o p) ∧ findBlockFrom s t orders = some none := by
  induction orders with
  | nil => exact Or.inr ⟨by simp, rfl⟩
  | cons o orders ih =>
    obtain ⟨ho, horders⟩ := List.forall_mem_cons.mp horders
    rw [findBlockFrom]
    rcases findBlock_spec (t := t) (o := o) (h.linked o ho).chain (h.frames o ho) (h.length_lt ho)
      with ⟨p, hp, ht, heq⟩ | ⟨hnone, heq⟩
    · exact Or.inl ⟨o, List.mem_cons_self, p, hp, ht, by rw [heq]; rfl⟩
    · rw [heq, Option.bind_some]
      rcases ih horders with ⟨o', ho', h'⟩ | ⟨hnone', h'⟩
      · exact Or.inl ⟨o', List.mem_cons_of_mem _ ho', h'⟩
      · exact Or.inr ⟨List.forall_mem_cons.mpr ⟨hnone, hnone'⟩, h'⟩

/-- **The search by address** finds the maximal block around a free frame, and nothing around any
other. -/
theorem BuddyInv.findBlockFrom (h : BuddyInv g s F) (t : ℕ) :
    (∃ o p, MaxBlock buddyMaxOrder F o p ∧ t ∈ block o p ∧
      s.findBlockFrom t (List.range (buddyMaxOrder + 1)) = some (some (nodeOf p, o))) ∨
      t ∉ F ∧ s.findBlockFrom t (List.range (buddyMaxOrder + 1)) = some none := by
  obtain ⟨L, B, hrepr, hsync⟩ := h.repr
  have horders : ∀ o ∈ List.range (buddyMaxOrder + 1), o ≤ buddyMaxOrder := fun o ho =>
    Nat.le_of_lt_succ (List.mem_range.mp ho)
  rcases findBlockFrom_spec (t := t) hrepr horders with ⟨o, ho, p, hp, h⟩ | ⟨hnone, h⟩
  · exact Or.inl ⟨o, p, (hsync.maximal o (horders o ho) p).mp hp, h⟩
  · refine Or.inr ⟨fun ht => ?_, h⟩
    obtain ⟨o, p, hmax, htp⟩ := exists_maxBlock buddyMaxOrder ht
    exact hnone o (List.mem_range.mpr (Nat.lt_succ_of_le hmax.le)) p
      ((hsync.maximal o hmax.le p).mpr hmax) htp

/-- **`is_page_free`** returns, and tells the free frames from the others. -/
theorem isPageFree_eq (h : BuddyInv g s F) (t : ℕ) [Decidable (t ∈ F)] :
    s.isPageFree t = some (decide (t ∈ F)) := by
  rw [isPageFree]
  rcases h.findBlockFrom t with ⟨o, p, hmax, ht, heq⟩ | ⟨ht, heq⟩
  · rw [heq, decide_eq_true (hmax.subset ht)]
    rfl
  · rw [heq, decide_eq_false ht]
    rfl

/-- **`allocate_specific_page`** takes a free frame, and only that one. -/
theorem allocateSpecificPage_spec (h : BuddyInv g s F) (t : ℕ) :
    (∃ s', s.allocateSpecificPage t = some (true, s') ∧ Takes g s F {t} s') ∨
      t ∉ F ∧ s.allocateSpecificPage t = some (false, s) := by
  rw [allocateSpecificPage]
  rcases h.findBlockFrom t with ⟨o, p, hmax, ht, heq⟩ | ⟨ht, heq⟩
  · have hp := (h.frames p (hmax.subset (self_mem_block o p))).lt
    obtain ⟨hinv, hev⟩ := h.unlink hmax
    obtain ⟨hinv', hev'⟩ := splitToward_spec hinv hmax.le hmax.aligned
      (fun q hq => h.frames q (hmax.subset hq)) Set.disjoint_sdiff_right ht
    rw [Set.sdiff_union_of_subset hmax.subset] at hev'
    have hF : F \ block o p ∪ (block o p \ {t}) = F \ {t} := by
      rw [Set.sdiff_union_sdiff_cancel hmax.subset (Set.singleton_subset_iff.mpr ht)]
    rw [hF] at hinv'
    refine Or.inl ⟨_, ?_, Set.singleton_subset_iff.mpr (hmax.subset ht),
      hinv'.countUsed pageSize, ?_⟩
    · rw [heq, Option.map_some]
      simp only [pfnOf_nodeOf hp]
    · rw [Set.ncard_singleton]
      exact ((hev.mono starts_subset).trans hev').countUsed _
  · refine Or.inr ⟨ht, ?_⟩
    rw [heq]
    rfl

/-! ## Sizes -/

theorem orderLoop_le_iff {fuel count order k : ℕ} (hfuel : count < 2 ^ fuel) :
    order ≤ orderLoop fuel count order ∧
      (orderLoop fuel count order ≤ order + k ↔ count < 2 ^ k) := by
  induction fuel generalizing count order k with
  | zero =>
    obtain rfl : count = 0 := by omega
    exact ⟨le_rfl, iff_of_true (Nat.le_add_right _ _) (Nat.two_pow_pos k)⟩
  | succ fuel ih =>
    rw [orderLoop]
    split
    · have hhalf : count >>> 1 < 2 ^ fuel := by
        rw [Nat.shiftRight_eq_div_pow]
        omega
      refine ⟨(Nat.le_succ order).trans (ih (k := 0) hhalf).1, ?_⟩
      cases k with
      | zero =>
        have : order + 1 ≤ orderLoop fuel (count >>> 1) (order + 1) := (ih (k := 0) hhalf).1
        omega
      | succ k =>
        rw [show order + (k + 1) = order + 1 + k by ring, (ih hhalf).2, Nat.shiftRight_eq_div_pow]
        omega
    · have : 0 < 2 ^ k := Nat.two_pow_pos k
      omega

/-- **`pages_to_order`** is the least order whose blocks have room for the pages. -/
theorem pagesToOrder_le_iff {k : ℕ} (hn : n < 2 ^ 64) : pagesToOrder n ≤ k ↔ n ≤ 2 ^ k := by
  have hpos : 0 < 2 ^ k := Nat.two_pow_pos k
  rw [pagesToOrder]
  split
  · omega
  · have h : orderLoop 65 (n - 1) 0 ≤ 0 + k ↔ n - 1 < 2 ^ k :=
      (orderLoop_le_iff (show n - 1 < 2 ^ 65 by omega)).2
    rw [Nat.zero_add] at h
    rw [h]
    omega

theorem isLeast_pagesToOrder (hn : n < 2 ^ 64) : IsLeast {k | n ≤ 2 ^ k} (pagesToOrder n) :=
  ⟨(pagesToOrder_le_iff hn).mp le_rfl, fun _ hk => (pagesToOrder_le_iff hn).mpr hk⟩

/-! ## Allocating -/

/-- The search for an order ends at the first one whose list is not empty. -/
theorem firstNonEmpty_spec (s : PMM) {left o m : ℕ} (hleft : left + o = m) :
    o ≤ firstNonEmpty s left o ∧ firstNonEmpty s left o ≤ m ∧
      (∀ j, o ≤ j → j < firstNonEmpty s left o → s.freeLists j = 0) ∧
      (firstNonEmpty s left o < m → s.freeLists (firstNonEmpty s left o) ≠ 0) := by
  induction left generalizing o with
  | zero =>
    rw [firstNonEmpty]
    refine ⟨le_rfl, by omega, fun j h h' => by omega, fun h => by omega⟩
  | succ left ih =>
    rw [firstNonEmpty]
    split
    · rename_i h0
      obtain ⟨h1, h2, h3, h4⟩ := ih (o := o + 1) (by omega)
      refine ⟨by omega, h2, fun j hj hj' => ?_, h4⟩
      rcases Nat.eq_or_lt_of_le hj with rfl | hj
      · exact h0
      · exact h3 j hj hj'
    · rename_i h0
      exact ⟨le_rfl, by omega, fun j h h' => by omega, fun _ => h0⟩

/-- A listed block of some order at least `o` is there exactly when an aligned run of `2 ^ o` frames
is wholly free. -/
theorem BuddyInv.exists_listed (h : BuddyInv g s F) (ho : o ≤ buddyMaxOrder) (hp : 2 ^ o ∣ p)
    (hsub : block o p ⊆ F) : ∃ j, o ≤ j ∧ j ≤ buddyMaxOrder ∧ s.freeLists j ≠ 0 := by
  obtain ⟨L, B, hrepr, hsync⟩ := h.repr
  have hself := self_mem_block o p
  obtain ⟨j, r, hmax, hr⟩ := exists_maxBlock buddyMaxOrder (hsub hself)
  have hmem := (hsync.maximal j hmax.le r).mpr hmax
  refine ⟨j, hmax.le_of_subset ho hp hsub hr hself, hmax.le, fun h0 => ?_⟩
  have hnil := (hrepr.linked j hmax.le).chain.eq_null_iff.mp h0
  rw [List.map_eq_nil_iff.mp hnil] at hmem
  exact List.not_mem_nil hmem

/-- The head of a list that is not empty is the node of a maximal block. -/
theorem BuddyInv.head (h : BuddyInv g s F) (ho : o ≤ buddyMaxOrder) (hne : s.freeLists o ≠ 0) :
    ∃ p, MaxBlock buddyMaxOrder F o p ∧ s.freeLists o = nodeOf p := by
  obtain ⟨L, B, hrepr, hsync⟩ := h.repr
  obtain ⟨p, hp, heq⟩ := List.mem_map.mp ((hrepr.linked o ho).head_mem.resolve_left hne)
  exact ⟨p, (hsync.maximal o ho p).mp hp, heq.symm⟩

/-- **Where `alloc_pages` takes a block from**: the first list of its order or a larger one that has a
block. -/
theorem BuddyInv.allocPages_eq (h : BuddyInv g s F) (hinit : s.initializedBuddy = true)
    (ho : pagesToOrder n = o) :
    (∃ left p, MaxBlock buddyMaxOrder F (o + left) p ∧ s.allocPages n = some (p * pageSize,
      (splitDown o left ((s.listRemove (nodeOf p) (o + left)).toggleBuddyBit p (o + left)).2 p).countUsed
        (pageSize * 2 ^ o))) ∨
      s.allocPages n = some (0, s) ∧ (o ≤ buddyMaxOrder → ∀ p, 2 ^ o ∣ p → ¬ block o p ⊆ F) := by
  rw [allocPages, hinit, Bool.not_true, if_neg Bool.false_ne_true, ho]
  by_cases hmax : o > buddyMaxOrder
  · exact Or.inr ⟨if_pos hmax, fun h => absurd h (by omega)⟩
  have hmax' : o ≤ buddyMaxOrder := by omega
  rw [if_neg hmax]
  obtain ⟨hge, hle, hempty, hfound⟩ := firstNonEmpty_spec s (Nat.sub_add_cancel
    (show o ≤ buddyMaxOrder + 1 by omega))
  generalize firstNonEmpty s (buddyMaxOrder + 1 - o) o = k at *
  by_cases hk : k > buddyMaxOrder
  · refine Or.inr ⟨if_pos hk, fun _ p hp hsub => ?_⟩
    obtain ⟨j, hj, hj', hne⟩ := h.exists_listed hmax' hp hsub
    exact hne (hempty j hj (by omega))
  rw [if_neg hk]
  obtain ⟨p, hblock, hhead⟩ := h.head (by omega) (hfound (by omega))
  obtain ⟨left, rfl⟩ := Nat.exists_eq_add_of_le hge
  have hp := (h.frames p (hblock.subset (self_mem_block _ p))).lt
  have hphys : u64 (p <<< pageShift) = p * pageSize := by
    rw [Nat.shiftLeft_eq, pageShift, pageSize, u64_of_lt (by omega)]
  refine Or.inl ⟨left, p, hblock, ?_⟩
  simp only [hhead, pfnOf_nodeOf hp, Nat.add_sub_cancel_left, hphys]

/-- **What `alloc_pages` does**: it takes a run of free frames, or nothing when no aligned run of
the size is wholly free. -/
theorem allocPages_spec (h : BuddyInv g s F) (hinit : s.initializedBuddy = true) (n : ℕ) :
    (pagesToOrder n ≤ buddyMaxOrder ∧ ∃ p s', 2 ^ pagesToOrder n ∣ p ∧
      s.allocPages n = some (p * pageSize, s') ∧ Takes g s F (block (pagesToOrder n) p) s') ∨
      s.allocPages n = some (0, s) ∧ (pagesToOrder n ≤ buddyMaxOrder →
        ∀ p, 2 ^ pagesToOrder n ∣ p → ¬ block (pagesToOrder n) p ⊆ F) := by
  rcases h.allocPages_eq hinit rfl with ⟨left, p, hblock, heq⟩ | hnone
  · generalize pagesToOrder n = o at *
    have hge := Nat.le_add_right o left
    obtain ⟨hinv, hev⟩ := h.unlink hblock
    obtain ⟨hinv', hev'⟩ := splitDown_spec hinv hblock.le hblock.aligned
      (fun q hq => h.frames q (hblock.subset hq)) Set.disjoint_sdiff_right
    have hsub : block o p ⊆ block (o + left) p := Set.Ico_subset_Ico_right
      (by have := Nat.pow_le_pow_right two_pos hge; omega)
    rw [Set.sdiff_union_of_subset hblock.subset] at hev'
    rw [Set.sdiff_union_sdiff_cancel hblock.subset hsub] at hinv'
    refine Or.inl ⟨hge.trans hblock.le, p, _, (pow_dvd_pow 2 hge).trans hblock.aligned, heq,
      hsub.trans hblock.subset, hinv'.countUsed (pageSize * 2 ^ o), ?_⟩
    rw [ncard_block]
    exact ((hev.mono starts_subset).trans hev').countUsed _
  · exact Or.inr hnone

/-- A block that is not split is taken off its list, and nothing else happens: only heads of listed
blocks are written. -/
theorem BuddyInv.allocPages_exact (h : BuddyInv g s F) (hinit : s.initializedBuddy = true)
    (hexact : ∀ k p, pagesToOrder n ≤ k → MaxBlock buddyMaxOrder F k p → k = pagesToOrder n)
    (heq : s.allocPages n = some (p * pageSize, s')) (hp : p ≠ 0) :
    Mem.AgreeOn (owned g (starts buddyMaxOrder F))ᶜ s.mem s'.mem := by
  rcases h.allocPages_eq hinit rfl with ⟨left, q, hblock, heq'⟩ | ⟨hnone, -⟩
  · obtain rfl : left = 0 := by
      have hk := hexact _ q (Nat.le_add_right _ _) hblock
      omega
    obtain rfl := (Prod.mk.inj (Option.some.inj (heq.symm.trans heq'))).2
    have hev := (h.unlink hblock).2.mem
    rw [mem_countUsed]
    exact hev
  · have hzero := (Prod.mk.inj (Option.some.inj (heq.symm.trans hnone))).1
    rw [pageSize] at hzero
    omega

theorem freePagesOrder_eq (ho : o ≤ buddyMaxOrder) (hp : 0 < p) :
    s.freePagesOrder (p * pageSize) o = s.freeBlock p o := by
  have hpfn : (p * pageSize) >>> pageShift = p := by
    rw [Nat.shiftRight_eq_div_pow, pageSize, pageShift]
    omega
  have hrun : ¬ (p * pageSize = 0 ∨ o > buddyMaxOrder) := by
    rw [pageSize]
    omega
  rw [freePagesOrder, if_neg hrun, hpfn]

/-- **What `free_pages_order` does**: it gives the frames of the block. -/
theorem freePagesOrder_gives (h : BuddyInv g s F) (ho : o ≤ buddyMaxOrder) (hp : 2 ^ o ∣ p)
    (hframes : ∀ q ∈ block o p, g.Frame q) (hdisj : Disjoint (block o p) F) :
    Gives g s F (block o p) (s.freePagesOrder (p * pageSize) o) := by
  rw [freePagesOrder_eq ho (hframes p (self_mem_block _ p)).pos]
  exact freeBlock_gives h ho hp hframes hdisj

/-- **What `free_pages` does**: the same, for the order of its size. -/
theorem freePages_gives (h : BuddyInv g s F) (ho : pagesToOrder n ≤ buddyMaxOrder)
    (hp : 2 ^ pagesToOrder n ∣ p) (hframes : ∀ q ∈ block (pagesToOrder n) p, g.Frame q)
    (hdisj : Disjoint (block (pagesToOrder n) p) F) :
    Gives g s F (block (pagesToOrder n) p) (s.freePages (p * pageSize) n) := by
  exact freePagesOrder_gives h ho hp hframes hdisj

/-- It writes to the heads of blocks that are maximal before or after. -/
theorem freePages_agreeOn (h : BuddyInv g s F) (ho : pagesToOrder n ≤ buddyMaxOrder)
    (hp : 2 ^ pagesToOrder n ∣ p) (hframes : ∀ q ∈ block (pagesToOrder n) p, g.Frame q)
    (hdisj : Disjoint (block (pagesToOrder n) p) F) (hW : starts buddyMaxOrder F ⊆ W)
    (hW' : starts buddyMaxOrder (F ∪ block (pagesToOrder n) p) ⊆ W) :
    Mem.AgreeOn (owned g W)ᶜ s.mem (s.freePages (p * pageSize) n).mem := by
  have heq : s.freePages (p * pageSize) n = s.freeBlock p (pagesToOrder n) :=
    freePagesOrder_eq ho (hframes p (self_mem_block _ p)).pos
  have hev := (freeBlock_evolves h ho hp hframes hdisj hW hW').mem
  rw [mem_countFreed] at hev
  rwa [heq]

/-! ## The free frames -/

/-- **The free frames**, read off the lists: those of the blocks that a traversal of
`free_lists[order]` meets, for every order. -/
def freeFrames (s : PMM) : Set ℕ :=
  {q | ∃ o ≤ buddyMaxOrder, ∃ x, s.OnFreeList o x ∧ q ∈ block o (pfnOf x)}

/-- The blocks on list `o` are the maximal blocks of order `o`. -/
theorem BuddyInv.onFreeList_iff (h : BuddyInv g s F) (ho : o ≤ buddyMaxOrder) :
    s.OnFreeList o x ↔ ∃ p, MaxBlock buddyMaxOrder F o p ∧ nodeOf p = x := by
  obtain ⟨L, B, hrepr, hsync⟩ := h.repr
  rw [hrepr.onFreeList_iff ho]
  simp only [hsync.maximal o ho]

theorem BuddyInv.freeFrames_eq (h : BuddyInv g s F) : s.freeFrames = F := by
  ext q
  rw [mem_iff_exists_maxBlock buddyMaxOrder F]
  constructor
  · rintro ⟨o, ho, x, hx, hq⟩
    obtain ⟨p, hmax, rfl⟩ := (h.onFreeList_iff ho).mp hx
    rw [pfnOf_nodeOf (h.frames p (hmax.subset (self_mem_block o p))).lt] at hq
    exact ⟨o, p, hmax, hq⟩
  · rintro ⟨o, p, hmax, hq⟩
    refine ⟨o, hmax.le, nodeOf p, (h.onFreeList_iff hmax.le).mpr ⟨p, hmax, rfl⟩, ?_⟩
    rwa [pfnOf_nodeOf (h.frames p (hmax.subset (self_mem_block o p))).lt]

end PMM

end MioOS
