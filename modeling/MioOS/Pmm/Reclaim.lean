import MioOS.Pmm.Exact

/-!
# Pmm/Reclaim — regions given to the allocator after the switch

`mark_region_free` and `reclaim_acpi_memory` hand over frames that `initialize_buddy` neither sized
the bitmaps for nor counted.  A `KernelStep` is a call of any kind; its `Guard` says what the kernel
makes sure of before it gives frames back.

* `toggles_inside` — if the frames of every region are covered by the bitmaps and in use by nobody,
  every bit that is ever toggled is in its own slice;
* `counters_exact` — if in addition `total_memory` has room for them beside what is free and what
  clients hold, the counters are exact.

An ACPI region above the usable memory fails the first (`not_toggles_inside`), an ACPI region larger
than the memory in use the second (`not_counters_exact`).
-/

namespace MioOS

open ByteMemory Intrusive BuddyBlocks

namespace PMM

variable {g : Geometry} {k : KernelImage} {mmap : MemoryMap} {s s' s₀ : PMM} {w w' : World}
  {F R : Set ℕ} {e : UnifiedMemoryEntry} {b : Block} {base length left n o p q : ℕ}

/-! ## Steps that give regions -/

/-- The frames that `reclaim_acpi_memory` visits. -/
def acpiFrames (mmap : MemoryMap) : Set ℕ :=
  {q | ∃ e ∈ mmap, e.isAcpiReclaimable = true ∧ q ∈ freeRegion e.addr e.len}

/-- The frames of a range that are given when it is marked free: those not free yet, without
frame 0. -/
def World.missing (w : World) (R : Set ℕ) : Set ℕ := R \ (w.pmm.freeFrames ∪ {0})

/-- What a kernel makes sure of before it gives the frames of a region back. -/
abbrev Guard := World → Set ℕ → Prop

/-- **One step of the kernel**: a step of the clients, or a region marked free. -/
inductive KernelStep (mmap : MemoryMap) (G : Guard) (w : World) : World → Prop
  | call {w' : World} : Step mmap w w' → KernelStep mmap G w w'
  | markFree {base length : ℕ} {s' : PMM} : w.pmm.markRegionFree base length = some s' →
      G w (w.missing (freeRegion base length)) →
      KernelStep mmap G w ⟨s', w.live, w.marked \ s'.freeFrames⟩
  | reclaim {s' : PMM} : w.pmm.reclaimAcpiMemory = some s' →
      G w (w.missing (acpiFrames mmap)) →
      KernelStep mmap G w ⟨s', w.live, w.marked \ s'.freeFrames⟩

/-- `w'` is reached from `w` by steps of the kernel. -/
abbrev KernelRun (mmap : MemoryMap) (G : Guard) : World → World → Prop :=
  Relation.ReflTransGen (KernelStep mmap G)

/-- A kernel that makes sure of nothing. -/
def Guard.none : Guard := fun _ _ => True

/-- The allocator can take the frames: the bitmap of order 0 has a byte for each, none holds a part
of the bitmaps, and no client holds one. -/
def World.Returnable (mmap : MemoryMap) (w : World) (R : Set ℕ) : Prop :=
  ∀ q ∈ R, q >>> 1 / 8 < bytesNeeded (maxPfnOf mmap) 0 ∧
    Disjoint (pageBytes q) (Set.Ico (w.pmm.buddyMap 0)
      (w.pmm.buddyMap 0 + totalBitmapBytes (maxPfnOf mmap))) ∧
    ∀ b ∈ w.live, q ∉ b.pages

/-- A kernel that gives only regions the allocator can take. -/
def Guard.returnable (mmap : MemoryMap) : Guard := World.Returnable mmap

/-- A kernel that in addition gives a region only if `total_memory` has room for it: what is free,
what clients hold and the region are together no larger than the usable memory that was counted. -/
def Guard.counted (mmap : MemoryMap) : Guard := fun w R =>
  w.Returnable mmap R ∧
    pageSize * (w.pmm.freeFrames ∪ w.livePages ∪ R).ncard ≤ mmap.usableLength

/-! ## What a region gives -/

theorem acpiFrames_cons_of_pos (h : e.isAcpiReclaimable = true) :
    acpiFrames (e :: mmap) = freeRegion e.addr e.len ∪ acpiFrames mmap := by
  ext q
  simp [acpiFrames, h]

theorem acpiFrames_cons_of_neg (h : ¬ e.isAcpiReclaimable = true) :
    acpiFrames (e :: mmap) = acpiFrames mmap := by
  ext q
  simp [acpiFrames, h]

/-- **`reclaim_acpi_memory`** gives the frames of the ACPI regions that are not free, without frame
0. -/
theorem reclaimLoop_gives (h : BuddyInv g s F) (hs : s.Sized) (hinit : s.initializedBuddy = true)
    (hframes : ∀ q ∈ acpiFrames mmap, q ∉ F → q ≠ 0 → g.Frame q) :
    ∃ s', reclaimLoop mmap s = some s' ∧ Gives g s F (acpiFrames mmap \ (F ∪ {0})) s' := by
  induction mmap generalizing s F with
  | nil =>
    have hnone : acpiFrames [] \ (F ∪ {0}) = ∅ := by simp [acpiFrames]
    exact ⟨s, rfl, hnone ▸ .refl h hs⟩
  | cons e rest ih =>
    rw [reclaimLoop]
    by_cases he : e.isAcpiReclaimable = true
    · rw [acpiFrames_cons_of_pos he] at hframes ⊢
      rw [if_pos he]
      obtain ⟨s₁, heq, hg⟩ := @markRegionFree_gives _ _ _ e.addr e.len h hs hinit fun q hq =>
        hframes q (Or.inl hq)
      obtain ⟨s', heq', hg'⟩ := ih hg.inv hg.sized (hg.initialized.trans hinit) fun q hq hout =>
        hframes q (Or.inr hq) fun hin => hout (Or.inl hin)
      refine ⟨s', by rw [heq, Option.bind_some, heq'], ?_⟩
      change Gives g s F (freeRegion e.addr e.len \ _) s₁ at hg
      change Gives g s₁ (F ∪ freeRegion e.addr e.len \ _) _ s' at hg'
      have hR : (freeRegion e.addr e.len ∪ acpiFrames rest) \ (F ∪ {0})
          = freeRegion e.addr e.len \ (F ∪ {0}) ∪
            acpiFrames rest \ (F ∪ freeRegion e.addr e.len \ (F ∪ {0}) ∪ {0}) := by
        ext q
        simp only [Set.mem_sdiff, Set.mem_union, Set.mem_singleton_iff]
        tauto
      rw [hR]
      exact hg.trans hg'
    · rw [acpiFrames_cons_of_neg he] at hframes ⊢
      rw [if_neg he]
      exact ih h hs hinit hframes

/-- A frame the allocator can take is one of its geometry. -/
theorem World.Returnable.frame (h : w.Inv g) (hmap : g.maxPfn = maxPfnOf mmap)
    (hret : w.Returnable mmap (w.missing R)) (hq : q ∈ R) (hout : q ∉ w.pmm.freeFrames)
    (h0 : q ≠ 0) : g.Frame q := by
  obtain ⟨hbyte, hoff, -⟩ := hret q ⟨hq, not_or.mpr ⟨hout, h0⟩⟩
  obtain ⟨L, B, hrepr, -⟩ := h.buddy.repr
  have hbase : w.pmm.buddyMap 0 = g.bitmapBase := hrepr.slices 0 (Nat.zero_le _)
  refine ⟨Nat.pos_of_ne_zero h0, ?_, ?_⟩
  · rw [bytesNeeded_eq, Nat.shiftRight_eq_div_pow] at hbyte
    rw [hmap]
    omega
  · have hpos := (totalBitmapBytes_bounds (maxPfnOf mmap)).1
    rw [pageBytes, hbase, Set.Ico_disjoint_Ico] at hoff
    rw [hmap]
    omega

/-- **A kernel step** is a step of the clients, or gives frames that no client holds. -/
theorem KernelStep.cases {G : Guard} (h : w.Inv g) (hmap : g.maxPfn = maxPfnOf mmap)
    (hmmap : w.pmm.mmap = some mmap) (hG : ∀ R, G w R → w.Returnable mmap R)
    (hstep : KernelStep mmap G w w') :
    Step mmap w w' ∨
      ∃ R, G w R ∧ w'.live = w.live ∧ (∀ b ∈ w.live, Disjoint b.pages R) ∧
        Gives g w.pmm w.pmm.freeFrames R w'.pmm := by
  have hapart : ∀ R, w.Returnable mmap R → ∀ b ∈ w.live, Disjoint b.pages R := fun R hret b hb =>
    Set.disjoint_right.mpr fun q hq => (hret q hq).2.2 b hb
  cases hstep with
  | call hstep => exact Or.inl hstep
  | @markFree base length s' heq hregion =>
    have hret := hG _ hregion
    obtain ⟨s₁, heq', hg⟩ := @markRegionFree_gives _ _ _ base length h.buddy h.sized h.initialized
      fun q hq => hret.frame h hmap hq
    obtain rfl := Option.some.inj (heq.symm.trans heq')
    exact Or.inr ⟨_, hregion, rfl, hapart _ hret, hg⟩
  | @reclaim s' heq hregion =>
    have hret := hG _ hregion
    obtain ⟨s₁, heq', hg⟩ := reclaimLoop_gives h.buddy h.sized h.initialized
      fun q hq => hret.frame h hmap hq
    simp only [reclaimAcpiMemory, hmmap, h.initialized, Bool.not_true, Bool.false_eq_true,
      if_false] at heq
    obtain rfl := Option.some.inj (heq.symm.trans heq')
    exact Or.inr ⟨_, hregion, rfl, hapart _ hret, hg⟩

/-! ## The invariant of a run -/

theorem Step.mmap_eq (h : w.Inv g) (hmap : g.maxPfn = maxPfnOf mmap) (hstep : Step mmap w w') :
    w'.pmm.mmap = w.pmm.mmap := by
  rcases hstep.cases h hmap with ⟨b, -, -, -, -, -, ht⟩ | ⟨M, -, -, ht⟩ | ⟨b, hb, -, -, hg⟩ |
    ⟨-, -, m, -, heq⟩
  · exact ht.mmap
  · exact ht.mmap
  · exact hg.mmap
  · rw [heq]

theorem KernelStep.inv {G : Guard} (h : w.Inv g) (hmap : g.maxPfn = maxPfnOf mmap)
    (hmmap : w.pmm.mmap = some mmap) (hG : ∀ R, G w R → w.Returnable mmap R)
    (hstep : KernelStep mmap G w w') : w'.Inv g ∧ w'.pmm.mmap = some mmap := by
  obtain ⟨s', live', marked'⟩ := w'
  rcases hstep.cases h hmap hmmap hG with hstep | ⟨R, -, rfl, hapart, hg⟩
  · exact ⟨h.step hmap hstep, (hstep.mmap_eq h hmap).trans hmmap⟩
  · exact ⟨h.give hg (List.Sublist.refl _) hapart marked', hg.mmap.trans hmmap⟩

/-- A kernel that makes sure of more reaches no more. -/
theorem KernelRun.mono {G G' : Guard} (hG : ∀ w R, G w R → G' w R) (hrun : KernelRun mmap G w w') :
    KernelRun mmap G' w w' := by
  refine Relation.ReflTransGen.mono ?_ _ _ hrun
  intro w w' hstep
  cases hstep with
  | call hstep => exact .call hstep
  | markFree heq hR => exact .markFree heq (hG _ _ hR)
  | reclaim heq hR => exact .reclaim heq (hG _ _ hR)

/-- **The invariant holds in every world the kernel reaches**, if it gives only regions the
allocator can take. -/
theorem KernelRun.inv {G : Guard} (h : w.Inv g) (hmap : g.maxPfn = maxPfnOf mmap)
    (hmmap : w.pmm.mmap = some mmap) (hG : ∀ w R, G w R → w.Returnable mmap R)
    (hrun : KernelRun mmap G w w') : w'.Inv g ∧ w'.pmm.mmap = some mmap := by
  induction hrun with
  | refl => exact ⟨h, hmmap⟩
  | tail _ hstep ih => exact hstep.inv ih.1 hmap ih.2 (hG _)

/-! ## The orders that are toggled

That a toggle is inside its slice says little unless the order has one. -/

/-- Every toggle so far was of an order that has a bitmap. -/
def OrdersHaveMaps (s : PMM) : Prop :=
  ∀ o j, Event.toggle o j ∈ s.trace → o ≤ buddyMaxOrder

theorem trace_countUsed (s : PMM) (n : ℕ) : (s.countUsed n).trace = s.trace := by
  cases s
  rfl

theorem trace_countFreed (s : PMM) (n : ℕ) : (s.countFreed n).trace = s.trace := by
  cases s
  rfl

/-- A node that is found is on the list of one of the orders. -/
theorem findBlockFrom_order {orders : List ℕ} {curr : ℕ}
    (h : s.findBlockFrom p orders = some (some (curr, o))) : o ∈ orders := by
  induction orders with
  | nil => exact absurd h (by simp [findBlockFrom])
  | cons order orders ih =>
    rw [findBlockFrom] at h
    obtain ⟨found, -, h⟩ := Option.bind_eq_some_iff.mp h
    cases found with
    | none => exact List.mem_cons_of_mem _ (ih h)
    | some node =>
      obtain ⟨-, rfl⟩ := Prod.mk.inj (Option.some.inj (Option.some.inj h))
      exact List.mem_cons_self

namespace OrdersHaveMaps

theorem congr (h : s.OrdersHaveMaps) (htrace : s'.trace = s.trace) : s'.OrdersHaveMaps := by
  rwa [OrdersHaveMaps, htrace]

theorem toggle (h : s.OrdersHaveMaps) (ho : o ≤ buddyMaxOrder) :
    (s.toggleBuddyBit p o).2.OrdersHaveMaps := by
  intro o' j hmem
  rw [trace_toggle, List.mem_cons] at hmem
  rcases hmem with heq | hmem
  · obtain ⟨rfl, -⟩ := Event.toggle.inj heq
    exact ho
  · exact h o' j hmem

theorem mergeLoop (h : s.OrdersHaveMaps) (ho : o + left ≤ buddyMaxOrder) :
    (mergeLoop left s p o).1.OrdersHaveMaps := by
  induction left generalizing s p o with
  | zero => exact h
  | succ left ih =>
    have htog := h.toggle (p := p) (show o ≤ buddyMaxOrder by omega)
    rw [PMM.mergeLoop]
    split
    · rename_i s₁ heq
      rwa [heq] at htog
    · rename_i s₁ heq
      rw [heq] at htog
      refine ih (fun o' j hmem => htog o' j ?_) (by omega)
      -- a merge is no toggle
      rw [trace_listRemove, List.mem_cons] at hmem
      exact hmem.resolve_left (by simp)

theorem freeBlock (h : s.OrdersHaveMaps) (ho : o ≤ buddyMaxOrder) :
    (s.freeBlock p o).OrdersHaveMaps := by
  have hmerge := @mergeLoop s (buddyMaxOrder - o) o p h (by omega)
  rw [PMM.freeBlock]
  exact hmerge.congr (trace_countFreed ..)

theorem freePagesOrder (h : s.OrdersHaveMaps) (p o : ℕ) :
    (s.freePagesOrder p o).OrdersHaveMaps := by
  rw [PMM.freePagesOrder]
  split
  · exact h
  · exact h.freeBlock (by omega)

theorem freePages (h : s.OrdersHaveMaps) (p n : ℕ) : (s.freePages p n).OrdersHaveMaps := by
  rw [PMM.freePages]
  split
  · exact h
  · exact h.freeBlock (by omega)

theorem splitToward (h : s.OrdersHaveMaps) (ho : o ≤ buddyMaxOrder + 1) :
    (splitToward q o s p).OrdersHaveMaps := by
  induction o generalizing s p with
  | zero => exact h
  | succ o ih =>
    have hadd : ∀ b, (s.listAdd b o).OrdersHaveMaps := fun b => h.congr (trace_listAdd s b o)
    rw [PMM.splitToward]
    split
    · exact ih ((hadd _).toggle (by omega)) (by omega)
    · exact ih ((hadd _).toggle (by omega)) (by omega)

theorem allocateSpecificPage {found : Bool} (h : s.OrdersHaveMaps)
    (heq : s.allocateSpecificPage p = some (found, s')) : s'.OrdersHaveMaps := by
  rw [PMM.allocateSpecificPage] at heq
  obtain ⟨node, hnode, heq⟩ := Option.map_eq_some_iff.mp heq
  cases node with
  | none =>
    obtain ⟨-, rfl⟩ := Prod.mk.inj heq
    exact h
  | some node =>
    obtain ⟨curr, o⟩ := node
    obtain ⟨-, rfl⟩ := Prod.mk.inj heq
    have ho := List.mem_range.mp (findBlockFrom_order hnode)
    have htog := (h.congr (trace_listRemove s curr o)).toggle (p := pfnOf curr)
      (show o ≤ buddyMaxOrder by omega)
    exact (htog.splitToward (by omega)).congr (trace_countUsed ..)

theorem splitDown (h : s.OrdersHaveMaps) (ho : o + left ≤ buddyMaxOrder + 1) :
    (splitDown o left s p).OrdersHaveMaps := by
  induction left generalizing s with
  | zero => exact h
  | succ left ih =>
    rw [PMM.splitDown]
    exact ih ((h.congr (trace_listAdd ..)).toggle (by omega)) (by omega)

theorem allocPages (h : s.OrdersHaveMaps) (hinit : s.initializedBuddy = true)
    (heq : s.allocPages n = some (p, s')) : s'.OrdersHaveMaps := by
  rw [PMM.allocPages, hinit, Bool.not_true, if_neg Bool.false_ne_true] at heq
  generalize pagesToOrder n = o at heq
  by_cases ho : o > buddyMaxOrder
  · rw [if_pos ho] at heq
    obtain ⟨-, rfl⟩ := Prod.mk.inj (Option.some.inj heq)
    exact h
  rw [if_neg ho] at heq
  generalize firstNonEmpty s (buddyMaxOrder + 1 - o) o = found at heq
  by_cases hfound : found > buddyMaxOrder
  · rw [if_pos hfound] at heq
    obtain ⟨-, rfl⟩ := Prod.mk.inj (Option.some.inj heq)
    exact h
  · rw [if_neg hfound] at heq
    obtain ⟨-, rfl⟩ := Prod.mk.inj (Option.some.inj heq)
    have hlisted := h.congr (trace_listRemove s (s.freeLists found) found)
    have htog := hlisted.toggle (p := pfnOf (s.freeLists found)) (show found ≤ buddyMaxOrder by omega)
    exact (htog.splitDown (by omega)).congr (trace_countUsed ..)

theorem allocFirstOf {l : List ℕ} (h : s.OrdersHaveMaps)
    (heq : s.allocFirstOf l = some (p, s')) : s'.OrdersHaveMaps := by
  induction l generalizing s with
  | nil =>
    obtain ⟨-, rfl⟩ := Prod.mk.inj (Option.some.inj heq)
    exact h
  | cons q l ih =>
    rw [PMM.allocFirstOf] at heq
    obtain ⟨⟨found, s₁⟩, hq, heq⟩ := Option.bind_eq_some_iff.mp heq
    have h₁ := h.allocateSpecificPage hq
    cases found with
    | true =>
      obtain ⟨-, rfl⟩ := Prod.mk.inj (Option.some.inj heq)
      exact h₁
    | false => exact ih h₁ heq

theorem allocPageBelow1mib (h : s.OrdersHaveMaps)
    (heq : s.allocPageBelow1mib = some (p, s')) : s'.OrdersHaveMaps := by
  rw [PMM.allocPageBelow1mib] at heq
  split at heq
  · obtain ⟨-, rfl⟩ := Prod.mk.inj (Option.some.inj heq)
    exact h
  · exact h.allocFirstOf heq

theorem markUsedLoop {fuel endAddr : ℕ} (h : s.OrdersHaveMaps)
    (heq : markUsedLoop fuel s p endAddr = some s') : s'.OrdersHaveMaps := by
  induction fuel generalizing s p with
  | zero => exact absurd heq (by simp [PMM.markUsedLoop])
  | succ fuel ih =>
    rw [PMM.markUsedLoop] at heq
    split at heq
    · obtain ⟨⟨found, s₁⟩, hp, heq⟩ := Option.bind_eq_some_iff.mp heq
      exact ih (h.allocateSpecificPage hp) heq
    · obtain rfl := Option.some.inj heq
      exact h

theorem markRegionUsed (h : s.OrdersHaveMaps)
    (heq : s.markRegionUsed base length = some s') : s'.OrdersHaveMaps := by
  rw [PMM.markRegionUsed] at heq
  split at heq
  · obtain rfl := Option.some.inj heq
    exact h
  · exact h.markUsedLoop heq

theorem markFreeLoop {fuel endAddr : ℕ} (h : s.OrdersHaveMaps)
    (heq : markFreeLoop fuel s p endAddr = some s') : s'.OrdersHaveMaps := by
  induction fuel generalizing s p with
  | zero => exact absurd heq (by simp [PMM.markFreeLoop])
  | succ fuel ih =>
    rw [PMM.markFreeLoop] at heq
    split at heq
    · obtain ⟨free, -, heq⟩ := Option.bind_eq_some_iff.mp heq
      refine ih ?_ heq
      split
      · exact h
      · exact h.freePages p 1
    · obtain rfl := Option.some.inj heq
      exact h

theorem markRegionFree (h : s.OrdersHaveMaps)
    (heq : s.markRegionFree base length = some s') : s'.OrdersHaveMaps := by
  rw [PMM.markRegionFree] at heq
  split at heq
  · obtain rfl := Option.some.inj heq
    exact h
  · exact h.markFreeLoop heq

theorem reclaimLoop (h : s.OrdersHaveMaps) (heq : reclaimLoop mmap s = some s') :
    s'.OrdersHaveMaps := by
  induction mmap generalizing s with
  | nil =>
    obtain rfl := Option.some.inj heq
    exact h
  | cons e rest ih =>
    rw [PMM.reclaimLoop] at heq
    split at heq
    · obtain ⟨s₁, hfree, heq⟩ := Option.bind_eq_some_iff.mp heq
      exact ih (h.markRegionFree hfree) heq
    · exact ih h heq

theorem reclaimAcpiMemory (h : s.OrdersHaveMaps) (heq : s.reclaimAcpiMemory = some s') :
    s'.OrdersHaveMaps := by
  rw [PMM.reclaimAcpiMemory] at heq
  split at heq
  · obtain rfl := Option.some.inj heq
    exact h
  · split at heq
    · obtain rfl := Option.some.inj heq
      exact h
    · exact h.reclaimLoop heq

theorem freeEach {calls : List (ℕ × ℕ)} (h : s.OrdersHaveMaps) :
    (s.freeEach calls).OrdersHaveMaps := by
  induction calls generalizing s with
  | nil => exact h
  | cons c calls ih => exact ih (h.freePagesOrder c.1 c.2)

/-- **A step of the clients** toggles only orders that have a bitmap. -/
theorem step (h : w.pmm.OrdersHaveMaps) (hinit : w.pmm.initializedBuddy = true)
    (hstep : Step mmap w w') : w'.pmm.OrdersHaveMaps := by
  cases hstep with
  | alloc heq _ => exact h.allocPages hinit heq
  | allocNull heq => exact h.allocPages hinit heq
  | free _ => exact h.freePages _ _
  | below heq _ => exact h.allocPageBelow1mib heq
  | belowNull heq => exact h.allocPageBelow1mib heq
  | markUsed _ heq => exact h.markRegionUsed heq
  | write _ => exact h.congr rfl

/-- **Any step of the kernel** toggles only orders that have a bitmap. -/
theorem kernelStep {G : Guard} (h : w.pmm.OrdersHaveMaps) (hinit : w.pmm.initializedBuddy = true)
    (hstep : KernelStep mmap G w w') : w'.pmm.OrdersHaveMaps := by
  cases hstep with
  | call hstep => exact h.step hinit hstep
  | markFree heq _ => exact h.markRegionFree heq
  | reclaim heq _ => exact h.reclaimAcpiMemory heq

end OrdersHaveMaps

/-! ## The bitmaps of a run -/

theorem Boots.mmap_eq (hwf : mmap.WellFormed) (hboot : Boots k mmap s₀) : s₀.mmap = some mmap := by
  obtain ⟨m, mb, s, ranges, opened, hrun, hinit⟩ := hboot
  obtain ⟨phys, s₁, g, -, -, hswitched⟩ := initializeBuddy_switched hwf hrun hinit
  exact hswitched.map_eq

/-- The switch toggles only orders that have a bitmap. -/
theorem Boots.ordersHaveMaps (hwf : mmap.WellFormed) (hboot : Boots k mmap s₀) :
    s₀.OrdersHaveMaps := by
  obtain ⟨m, mb, s, ranges, opened, hrun, hinit⟩ := hboot
  rw [initializeBuddy] at hinit
  obtain ⟨s₂, hcarve, rfl⟩ := Option.map_eq_some_iff.mp hinit
  obtain ⟨s₁, hprep, hcarve⟩ := Option.bind_eq_some_iff.mp hcarve
  obtain ⟨phys, s₃, halloc, rfl⟩ := prepareBuddy_some hwf hrun hprep
  obtain ⟨hrange, hres, htrace, -, -⟩ := bitmapRange hwf hrun halloc
  have hprepared := hrange.prepared hwf hres rfl htrace
  rw [(carve_eq hwf hprepared.scalars).1] at hcarve
  obtain rfl := Option.some.inj hcarve
  have hnone : OrdersHaveMaps ((s₃.counted mmap.usableLength).withBitmaps mmap phys) :=
    fun o j hmem => absurd hmem (by rw [hprepared.trace]; exact List.not_mem_nil)
  exact hnone.freeEach.congr rfl

theorem KernelRun.ordersHaveMaps {G : Guard} (h : w.Inv g) (hmap : g.maxPfn = maxPfnOf mmap)
    (hmmap : w.pmm.mmap = some mmap) (hG : ∀ w R, G w R → w.Returnable mmap R)
    (horders : w.pmm.OrdersHaveMaps) (hrun : KernelRun mmap G w w') : w'.pmm.OrdersHaveMaps := by
  induction hrun with
  | refl => exact horders
  | tail hsteps hstep ih =>
    exact ih.kernelStep (KernelRun.inv h hmap hmmap hG hsteps).1.initialized hstep

/-- **Bitmap accesses stay inside their slice**: in every world that a kernel reaches which gives
only regions the allocator can take, every toggle so far was of an order that has a slice, and
inside it. -/
theorem toggles_inside (hwf : mmap.WellFormed) (hboot : Boots k mmap s₀)
    (hrun : KernelRun mmap (Guard.returnable mmap) (World.start s₀) w) :
    ∀ o j, Event.toggle o j ∈ w.pmm.trace →
      o ≤ buddyMaxOrder ∧ j < bytesNeeded (maxPfnOf mmap) o := by
  obtain ⟨g, hmap, hinv₀, -, -, -⟩ := hboot.start hwf
  have hmmap := hboot.mmap_eq hwf
  obtain ⟨hinv, -⟩ := KernelRun.inv hinv₀ hmap hmmap (fun _ _ h => h) hrun
  have horders := KernelRun.ordersHaveMaps hinv₀ hmap hmmap (fun _ _ h => h)
    (hboot.ordersHaveMaps hwf) hrun
  intro o j hmem
  have hok := hinv.buddy.trace _ hmem
  rw [Event.Ok, hmap] at hok
  exact ⟨horders o j hmem, hok⟩

/-! ## An ACPI region between usable memory -/

/-- The pages 0 to 9 and 16 more are usable, page 10 holds ACPI tables. -/
def acpiBetween : MemoryMap :=
  [⟨0, 0xA000, true, 1, false⟩, ⟨0x200000, 0x10000, true, 1, false⟩, ⟨0xA000, 0x1000, false, 3, false⟩]

theorem acpiBetween_wellFormed : acpiBetween.WellFormed := by
  refine ⟨List.pairwise_append.mpr ⟨lowAndHigh_wellFormed.disjoint, List.pairwise_singleton _ _,
    fun e _ e' he' _ hu => ?_⟩, by decide⟩
  rw [List.mem_singleton.mp he'] at hu
  exact absurd hu (by decide)

/-- The frames of its ACPI region. -/
theorem acpiFrames_acpiBetween : acpiFrames acpiBetween = {10} := by
  have hregion : freeRegion 0xA000 0x1000 = Set.Ico 10 11 := by
    rw [freeRegion, freeFrom, freeUpTo, u64_of_lt (by norm_num), alignUp_page (by norm_num),
      alignDown_page (by norm_num)]
    rfl
  have hnone : acpiFrames [] = ∅ := by simp [acpiFrames]
  have hone : Set.Ico 10 11 = ({10} : Set ℕ) := block_zero 10
  rw [acpiBetween, acpiFrames_cons_of_neg (by decide), acpiFrames_cons_of_neg (by decide),
    acpiFrames_cons_of_pos rfl, hnone, Set.union_empty, ← hone]
  exact hregion

/-- It boots with frame 1 free, with no free frame outside the usable memory, and with the bitmaps
above the kernel. -/
theorem acpiBetween_boots : ∃ s₀, Boots imageAt1M acpiBetween s₀ ∧
    s₀.freeFrames ⊆ Set.Ico 1 10 ∪ Set.Ico 0x200 0x210 ∧ 1 ∈ s₀.freeFrames ∧
    0x102000 + hhdmBase ≤ s₀.buddyMap 0 := by
  obtain ⟨s, -, -, s₀, -, hrun, -, hinit, -⟩ :=
    switch_of_room acpiBetween_wellFormed (by decide) 0x103000 0x100 (by decide) rfl (by decide +kernel)
  obtain ⟨phys, s₁, g', -, hrange, hsw⟩ := initializeBuddy_switched acpiBetween_wellFormed hrun hinit
  obtain ⟨L, B, hrepr, -⟩ := hsw.inv.repr
  have hF := hsw.inv.freeFrames_eq
  generalize hhr : max imageAt1M.endPhys (mbEnd (withBlock 0x103000 0x100) (hhdmBase + 0x103000)) = hr
    at hF hrange
  generalize s₁.bumpPtrPhys = bp at hF hrange
  have hk : 0x102000 ≤ hr := hhr ▸ le_max_left _ _
  refine ⟨s₀, ⟨_, _, s, [], [], hrun, hinit⟩, ?_, ?_, ?_⟩
  · rw [hF]
    rintro q ⟨⟨e, he, hu, hlo, hhi⟩, hres⟩
    have h0 : q ≠ 0 := fun h0 => hres (Or.inl h0)
    rw [pageSize] at hlo hhi
    rw [acpiBetween, List.mem_cons, List.mem_cons, List.mem_singleton] at he
    rcases he with rfl | rfl | rfl
    · exact Or.inl ⟨by omega, by simp only at hhi; omega⟩
    · exact Or.inr ⟨by simp only at hlo; omega, by simp only at hhi; omega⟩
    · exact absurd hu (by decide)
  · rw [hF]
    refine ⟨⟨_, List.mem_cons_self, rfl, Nat.zero_le _, by decide⟩, ?_⟩
    rintro (h0 | ⟨hc, -⟩ | ⟨hc, -⟩)
    · exact absurd h0 (by decide)
    · exact absurd hc (by decide)
    · exact absurd (hk.trans hc) (by decide)
  · rw [(hrepr.slices 0 (Nat.zero_le _)).trans hsw.base]
    exact Nat.add_le_add_right (hk.trans hrange.hr_le) _

/-- Its ACPI page may be given back while the pages below it are free or hold blocks: it has been
counted, in place of page 0. -/
theorem acpiBetween_counted {w : World} (hbase : 0x102000 + hhdmBase ≤ w.pmm.buddyMap 0)
    (hpages : w.pmm.freeFrames ∪ w.livePages ⊆ Set.Ico 1 10 ∪ Set.Ico 0x200 0x210) :
    Guard.counted acpiBetween w (w.missing (acpiFrames acpiBetween)) := by
  have hmissing : w.missing (acpiFrames acpiBetween) ⊆ {10} := fun q hq =>
    acpiFrames_acpiBetween ▸ hq.1
  have hten : 10 ∉ w.livePages := fun h => by
    rcases hpages (Or.inr h) with h | h
    · exact absurd h.2 (by decide)
    · exact absurd h.1 (by decide)
  refine ⟨fun q hq => ?_, ?_⟩
  · obtain rfl := hmissing hq
    refine ⟨by decide +kernel, ?_, fun b hb hq => hten ⟨b, hb, hq⟩⟩
    rw [pageBytes, Set.Ico_disjoint_Ico]
    omega
  · have hall : w.pmm.freeFrames ∪ w.livePages ∪ w.missing (acpiFrames acpiBetween)
        ⊆ ↑(Finset.Ico 1 11 ∪ Finset.Ico 0x200 0x210) := by
      rw [Finset.coe_union, Finset.coe_Ico, Finset.coe_Ico]
      refine Set.union_subset (hpages.trans ?_) (hmissing.trans ?_)
      · exact Set.union_subset_union_left _ (Set.Ico_subset_Ico_right (by decide))
      · rintro q rfl
        exact Or.inl (by decide)
    have hcard := Set.ncard_le_ncard hall (Finset.finite_toSet _)
    rw [Set.ncard_coe_finset] at hcard
    exact (Nat.mul_le_mul_left pageSize hcard).trans (by decide)

/-- **A run in which ACPI memory is reclaimed**: a client takes a page, the ACPI page is given to
the allocator, and the client frees its page. -/
theorem acpiBetween_run : ∃ s₀ w, Boots imageAt1M acpiBetween s₀ ∧
    KernelRun acpiBetween (Guard.counted acpiBetween) (World.start s₀) w ∧
    10 ∉ s₀.freeFrames ∧ 10 ∈ w.pmm.freeFrames := by
  obtain ⟨s₀, hboot, hsub, hone, hbase₀⟩ := acpiBetween_boots
  obtain ⟨g, hmap, hinv₀, -, -, -⟩ := hboot.start acpiBetween_wellFormed
  have hmmap := hboot.mmap_eq acpiBetween_wellFormed
  have hten : 10 ∉ s₀.freeFrames := fun h => by
    rcases hsub h with h | h
    · exact absurd h.2 (by decide)
    · exact absurd h.1 (by decide)
  -- a client takes a page
  obtain ⟨i, -, s₂, hstep₁, hF₁⟩ := hinv₀.allocPage acpiBetween ⟨1, hone⟩
  have hinv₁ := hinv₀.step hmap hstep₁
  have hmmap₁ : s₂.mmap = some acpiBetween := (hstep₁.mmap_eq hinv₀ hmap).trans hmmap
  have hbase : 0x102000 + hhdmBase ≤ s₂.buddyMap 0 := by
    obtain ⟨L, B, hrepr, -⟩ := hinv₀.buddy.repr
    obtain ⟨L', B', hrepr', -⟩ := hinv₁.buddy.repr
    have hsame := (hrepr'.slices 0 (Nat.zero_le _)).trans (hrepr.slices 0 (Nat.zero_le _)).symm
    exact hsame ▸ hbase₀
  have hold := hstep₁.pages_subset hinv₀ hmap
  rw [show (World.start s₀).livePages = ∅ by simp [World.livePages, World.start], Set.union_empty] at hold
  -- the ACPI page is given to the allocator
  have hguard := acpiBetween_counted (w := ⟨s₂, [⟨i * pageSize, 1⟩], ∅⟩) hbase (hold.trans hsub)
  obtain ⟨s₃, heq, hg⟩ := reclaimLoop_gives hinv₁.buddy hinv₁.sized hinv₁.initialized
    fun q hq => hguard.1.frame hinv₁ hmap hq
  have hreclaim : s₂.reclaimAcpiMemory = some s₃ := by
    rw [reclaimAcpiMemory, hmmap₁, ← heq]
    exact if_neg (by rw [show s₂.initializedBuddy = true from hinv₁.initialized]; decide)
  have hstep₂ : KernelStep acpiBetween (Guard.counted acpiBetween) ⟨s₂, [⟨i * pageSize, 1⟩], ∅⟩ _ :=
    .reclaim hreclaim hguard
  have hrun₂ := (Relation.ReflTransGen.single (.call hstep₁)).tail hstep₂
  have hinv₂ := (KernelRun.inv hinv₀ hmap hmmap (fun _ _ hR => hR.1) hrun₂).1
  have hback : 10 ∈ s₃.freeFrames := by
    rw [hg.freeFrames, acpiFrames_acpiBetween]
    refine Or.inr ⟨rfl, fun h => ?_⟩
    rw [hF₁] at h
    exact h.elim (fun h => hten h.1) (by decide)
  -- and the client frees its page
  have hfreed := (hinv₂.freeBlock_gives (b := ⟨i * pageSize, 1⟩) List.mem_cons_self).freeFrames
  refine ⟨s₀, _, hboot, hrun₂.tail (.call (.free List.mem_cons_self)), hten, ?_⟩
  exact hfreed ▸ Or.inl hback

/-- The ACPI page has a bit in the bitmaps. -/
theorem toggles_inside_acpiBetween : ∃ w : World, 10 ∈ w.pmm.freeFrames ∧
    ∀ o j, Event.toggle o j ∈ w.pmm.trace →
      o ≤ buddyMaxOrder ∧ j < bytesNeeded (maxPfnOf acpiBetween) o := by
  obtain ⟨s₀, w, hboot, hrun, -, hback⟩ := acpiBetween_run
  exact ⟨w, hback, toggles_inside acpiBetween_wellFormed hboot (hrun.mono fun _ _ hR => hR.1)⟩

/-! ## An ACPI region above the usable memory -/

theorem mem_trace_mergeLoop {ev : Event} (left : ℕ) (h : ev ∈ s.trace) (p o : ℕ) :
    ev ∈ (mergeLoop left s p o).1.trace := by
  induction left generalizing s p o with
  | zero => exact h
  | succ left ih =>
    have htog : ev ∈ (s.toggleBuddyBit p o).2.trace := by
      rw [trace_toggle]
      exact List.mem_cons_of_mem _ h
    rw [mergeLoop]
    split
    · rename_i s₁ heq
      rwa [heq] at htog
    · rename_i s₁ heq
      rw [heq] at htog
      refine ih ?_ _ _
      rw [trace_listRemove]
      exact List.mem_cons_of_mem _ htog

/-- Freeing a page toggles the bit of its pair first. -/
theorem mem_trace_freePages (hp : 0 < p) :
    .toggle 0 (p >>> 1 / 8) ∈ (s.freePages (p * pageSize) 1).trace := by
  have hone : pagesToOrder 1 = 0 := rfl
  have hne : ¬ (p * pageSize = 0 ∨ 0 > buddyMaxOrder) := by
    rw [pageSize]
    omega
  rw [freePages, hone, if_neg hne, mul_pageSize_shift, freeBlock]
  refine (trace_countFreed ..).symm ▸ ?_
  change .toggle 0 (p >>> 1 / 8) ∈ (mergeLoop (9 + 1) s p 0).1.trace
  rw [mergeLoop]
  have htog := trace_toggle s p 0
  split
  · rename_i s₁ heq
    rw [heq] at htog
    exact htog.symm ▸ List.mem_cons_self
  · rename_i s₁ heq
    rw [heq] at htog
    refine mem_trace_mergeLoop 9 ?_ _ _
    rw [trace_listRemove]
    exact List.mem_cons_of_mem _ (htog.symm ▸ List.mem_cons_self)

/-- Marking one page free. -/
theorem markRegionFree_page (hinit : s.initializedBuddy = true) (hp : p < 2 ^ 51) :
    s.markRegionFree (p * pageSize) pageSize
      = (s.isPageFree p).map fun free => if free then s else s.freePages (p * pageSize) 1 := by
  obtain ⟨n, hn⟩ : ∃ n, loopFuel = n + 1 + 1 := ⟨2 ^ 52 - 2, by decide +kernel⟩
  have hnext : u64 (p * pageSize + pageSize) = (p + 1) * pageSize := u64_next hp (by norm_num)
  have hfrom : alignUp (p * pageSize) pageSize = p * pageSize := by
    rw [alignUp_page] <;> rw [pageSize] <;> omega
  have hto : alignDown ((p + 1) * pageSize) pageSize = (p + 1) * pageSize := by
    rw [alignDown_page] <;> rw [pageSize] <;> omega
  have hlt : p * pageSize < (p + 1) * pageSize := mul_pageSize_lt.mpr (Nat.lt_succ_self p)
  have hend : ∀ s', markFreeLoop (n + 1) s' ((p + 1) * pageSize) ((p + 1) * pageSize) = some s' :=
    fun s' => by rw [markFreeLoop, if_neg (lt_irrefl _)]
  rw [markRegionFree, hinit, Bool.not_true, if_neg Bool.false_ne_true, hnext, hfrom, hto, hn,
    markFreeLoop, if_pos hlt, mul_pageSize_shift, hnext]
  cases s.isPageFree p with
  | none => rfl
  | some free => exact hend _

/-- Usable memory up to `0x210000`, and an ACPI table far above it. -/
def acpiAbove : MemoryMap := [⟨0x200000, 0x10000, true, 1, false⟩, ⟨0x400000, 0x1000, false, 3, false⟩]

theorem acpiAbove_wellFormed : acpiAbove.WellFormed :=
  ⟨List.pairwise_pair.mpr fun _ h => absurd h (by decide), by decide⟩

/-- **An ACPI region that the bitmaps do not cover**: reclaiming the page at `0x400000` toggles byte
64 of the bitmap of order 0, which has 33. -/
theorem not_toggles_inside :
    ¬ ∀ (k : KernelImage) (mmap : MemoryMap) (s₀ : PMM) (w : World), mmap.WellFormed →
      Boots k mmap s₀ → KernelRun mmap Guard.none (World.start s₀) w →
      ∀ o j, Event.toggle o j ∈ w.pmm.trace → j < bytesNeeded (maxPfnOf mmap) o := by
  classical
  intro h
  obtain ⟨s, p, s₁, s', g, hrun, -, hinit, hswitched⟩ :=
    switch_of_room acpiAbove_wellFormed (by decide) 0x103000 0x100 (by decide) rfl (by decide +kernel)
  have hout : ∀ hr bp, 0x400 ∉ initialFree imageAt1M acpiAbove hr bp := by
    rintro hr bp ⟨⟨e, he, hu, hlo, hhi⟩, -⟩
    rcases List.mem_pair.mp he with rfl | rfl
    · exact absurd hhi (by decide)
    · exact absurd hu (by decide)
  have hreclaim : s'.reclaimAcpiMemory = some (s'.freePages (0x400 * pageSize) 1) := by
    rw [reclaimAcpiMemory, hswitched.map_eq]
    change (if !s'.initializedBuddy then some s' else
      (s'.markRegionFree (0x400 * pageSize) pageSize).bind fun s => some s) = _
    rw [hswitched.initialized, Bool.not_true, if_neg Bool.false_ne_true,
      markRegionFree_page hswitched.initialized (by norm_num), isPageFree_eq hswitched.inv,
      decide_eq_false (hout _ _)]
    rfl
  have hstep : KernelStep acpiAbove Guard.none (World.start s') _ := .reclaim hreclaim trivial
  have hbyte := h _ _ _ _ acpiAbove_wellFormed ⟨_, _, s, [], [], hrun, hinit⟩ (.single hstep) 0
    (0x400 >>> 1 / 8) (mem_trace_freePages (by norm_num))
  exact absurd hbyte (by decide +kernel)

/-! ## The counters of a run -/

/-- **Giving frames back keeps the counters exact exactly when** they were counted as used. -/
theorem Gives.accounted_iff (h : Gives g s F R s') (ha : Accounted s F) :
    Accounted s' (F ∪ R) ↔ pageSize * R.ncard ≤ s.usedMemory := by
  refine ⟨fun ha' => ?_, h.accounted ha⟩
  by_contra hlt
  have hfin := h.inv.finite
  have hcard := Set.ncard_union_eq h.disjoint.symm (hfin.subset Set.subset_union_left)
    (hfin.subset Set.subset_union_right)
  have hle := h.inv.ncard_le
  have hfree := ha'.free
  have htotal := ha'.total
  have hbound := ha.bound
  have hsum := ha.total
  have hwas := ha.free
  have hu : s'.usedMemory = sub64 s.usedMemory (pageSize * R.ncard) := h.evolves.used
  have ht : s'.totalMemory = s.totalMemory := by
    rw [h.evolves.total, totalMemory_countFreed]
  rw [hcard, Nat.mul_add] at hfree
  rw [sub64_eq] at hu
  rw [hcard] at hle
  rw [pageSize] at *
  omega

theorem Boots.total_eq (hwf : mmap.WellFormed) (hboot : Boots k mmap s₀) :
    s₀.totalMemory = mmap.usableLength := by
  obtain ⟨m, mb, s, ranges, opened, hrun, hinit⟩ := hboot
  obtain ⟨phys, s₁, g, -, -, hswitched⟩ := initializeBuddy_switched hwf hrun hinit
  exact hswitched.total

/-- **The counters are exact, and will be**: what is free and what clients hold is no larger than the
usable memory, all of which was counted. -/
structure World.Counted (mmap : MemoryMap) (w : World) : Prop where
  accounted : Accounted w.pmm w.pmm.freeFrames
  total : w.pmm.totalMemory = mmap.usableLength
  fits : pageSize * (w.pmm.freeFrames ∪ w.livePages).ncard ≤ mmap.usableLength

theorem World.Inv.finite_livePages (h : w.Inv g) : w.livePages.Finite := by
  refine (Set.finite_Iio (2 ^ 35)).subset ?_
  rintro q ⟨b, hb, hq⟩
  exact ((h.held b hb).frames q hq).lt

namespace World.Counted

/-- Giving frames keeps the counters exact if `total_memory` has room for them. -/
theorem give (hc : w.Counted mmap) (hg : Gives g w.pmm w.pmm.freeFrames R s')
    (hfits : pageSize * (w.pmm.freeFrames ∪ R).ncard ≤ mmap.usableLength) :
    Accounted s' (w.pmm.freeFrames ∪ R) ∧ s'.totalMemory = mmap.usableLength := by
  have hfin := hg.inv.finite
  have hcard := Set.ncard_union_eq hg.disjoint.symm (hfin.subset Set.subset_union_left)
    (hfin.subset Set.subset_union_right)
  have hfree := hc.accounted.free
  have hsum := hc.accounted.total
  have htotal := hc.total
  rw [hcard, Nat.mul_add] at hfits
  refine ⟨hg.accounted hc.accounted (by omega), ?_⟩
  rw [hg.evolves.total, totalMemory_countFreed, htotal]

theorem step (hc : w.Counted mmap) (h : w.Inv g) (hmap : g.maxPfn = maxPfnOf mmap)
    (hstep : Step mmap w w') : w'.Counted mmap := by
  have hfinite := h.buddy.finite
  have hfin := hfinite.union h.finite_livePages
  have hfits := (Nat.mul_le_mul_left pageSize (Set.ncard_le_ncard (hstep.pages_subset h hmap)
    hfin)).trans hc.fits
  rcases hstep.cases h hmap with ⟨b, -, -, -, -, -, ht⟩ | ⟨M, -, -, ht⟩ | ⟨b, hb, -, -, hg⟩ |
    ⟨-, -, m, hm, heq⟩
  · refine ⟨ht.freeFrames ▸ ht.accounted hfinite hc.accounted, ?_, hfits⟩
    rw [ht.evolves.total, totalMemory_countUsed, hc.total]
  · refine ⟨ht.freeFrames ▸ ht.accounted hfinite hc.accounted, ?_, hfits⟩
    rw [ht.evolves.total, totalMemory_countUsed, hc.total]
  · -- the frames of the block were counted before
    have hsub : w.pmm.freeFrames ∪ b.pages ⊆ w.pmm.freeFrames ∪ w.livePages :=
      Set.union_subset_union_right _ fun q hq => ⟨b, hb, hq⟩
    obtain ⟨hacc, htotal⟩ := hc.give hg
      ((Nat.mul_le_mul_left pageSize (Set.ncard_le_ncard hsub hfin)).trans hc.fits)
    exact ⟨hg.freeFrames ▸ hacc, htotal, hfits⟩
  · refine ⟨?_, heq ▸ hc.total, hfits⟩
    rw [heq, show PMM.freeFrames { w.pmm with mem := m } = w.pmm.freeFrames from
      (h.buddy.write hm).freeFrames_eq]
    exact hc.accounted.congr rfl rfl rfl

/-- **A step of a kernel that gives only what `total_memory` has room for** keeps the counters
exact. -/
theorem kernelStep (hc : w.Counted mmap) (h : w.Inv g) (hmap : g.maxPfn = maxPfnOf mmap)
    (hmmap : w.pmm.mmap = some mmap) (hstep : KernelStep mmap (Guard.counted mmap) w w') :
    w'.Counted mmap := by
  rcases hstep.cases h hmap hmmap fun _ hR => hR.1 with hstep | ⟨R, hR, hlive, -, hg⟩
  · exact hc.step h hmap hstep
  · have hfin := (hg.inv.finite.union h.finite_livePages)
    have hsub : w.pmm.freeFrames ∪ R ⊆ w.pmm.freeFrames ∪ w.livePages ∪ R :=
      Set.union_subset_union_left _ Set.subset_union_left
    have hall : w.pmm.freeFrames ∪ R ∪ w.livePages = w.pmm.freeFrames ∪ w.livePages ∪ R := by
      rw [Set.union_right_comm]
    rw [hall] at hfin
    obtain ⟨hacc, htotal⟩ := hc.give hg
      ((Nat.mul_le_mul_left pageSize (Set.ncard_le_ncard hsub hfin)).trans hR.2)
    have hpages : w'.livePages = w.livePages := by
      rw [World.livePages, hlive, World.livePages]
    refine ⟨hg.freeFrames ▸ hacc, htotal, ?_⟩
    rw [hg.freeFrames, hpages, hall]
    exact hR.2

end World.Counted

/-- **Memory accounting is exact** in every world that a kernel reaches which gives only regions the
allocator can take and `total_memory` has room for. -/
theorem counters_exact (hwf : mmap.WellFormed) (hboot : Boots k mmap s₀)
    (hrun : KernelRun mmap (Guard.counted mmap) (World.start s₀) w) :
    w.pmm.freeMemory = pageSize * w.pmm.freeFrames.ncard ∧
      w.pmm.freeMemory + w.pmm.usedMemory = w.pmm.totalMemory ∧
      w.pmm.freeMemory ≤ w.pmm.totalMemory := by
  obtain ⟨g, hmap, hinv₀, -, hacc₀, hfits₀⟩ := hboot.start hwf
  have hmmap := hboot.mmap_eq hwf
  have htotal₀ := hboot.total_eq hwf
  have hcounted : w.Counted mmap := by
    induction hrun with
    | refl =>
      refine ⟨hacc₀, htotal₀, ?_⟩
      have hnone : (World.start s₀).livePages = ∅ := by simp [World.livePages, World.start]
      rw [hnone, Set.union_empty, ← htotal₀]
      exact hfits₀
    | tail hsteps hstep ih =>
      obtain ⟨hinv, hmm⟩ := KernelRun.inv hinv₀ hmap hmmap (fun _ _ hR => hR.1) hsteps
      exact ih.kernelStep hinv hmap hmm hstep
  have htotal := hcounted.accounted.total
  exact ⟨hcounted.accounted.free, htotal, by omega⟩

/-- The ACPI page takes the place of page 0, which was counted and is never free. -/
theorem counters_exact_acpiBetween : ∃ w : World, 10 ∈ w.pmm.freeFrames ∧
    w.pmm.freeMemory = pageSize * w.pmm.freeFrames.ncard ∧
      w.pmm.freeMemory + w.pmm.usedMemory = w.pmm.totalMemory ∧
      w.pmm.freeMemory ≤ w.pmm.totalMemory := by
  obtain ⟨s₀, w, hboot, hrun, -, hback⟩ := acpiBetween_run
  exact ⟨w, hback, counters_exact acpiBetween_wellFormed hboot hrun⟩

/-! ## An ACPI region larger than the memory in use -/

/-- Three usable pages, and eight pages of ACPI tables below the kernel. -/
def acpiBelow : MemoryMap := [⟨0x200000, 0x3000, true, 1, false⟩, ⟨0x1000, 0x8000, false, 3, false⟩]

theorem acpiBelow_wellFormed : acpiBelow.WellFormed :=
  ⟨List.pairwise_pair.mpr fun _ h => absurd h (by decide), by decide⟩

/-- The frames of its ACPI region. -/
theorem acpiFrames_acpiBelow : acpiFrames acpiBelow = Set.Ico 1 9 := by
  have hregion : freeRegion 0x1000 0x8000 = Set.Ico 1 9 := by
    rw [freeRegion, freeFrom, freeUpTo, u64_of_lt (by norm_num), alignUp_page (by norm_num),
      alignDown_page (by norm_num)]
    rfl
  have hnone : acpiFrames [] = ∅ := by simp [acpiFrames]
  rw [acpiBelow, acpiFrames_cons_of_neg (by decide), acpiFrames_cons_of_pos rfl, hnone,
    Set.union_empty]
  exact hregion

/-- **An ACPI region larger than the memory in use**: reclaiming eight pages on a machine with three
makes `used_memory` wrap. -/
theorem not_counters_exact :
    ¬ ∀ (k : KernelImage) (mmap : MemoryMap) (s₀ : PMM) (w : World), mmap.WellFormed →
      Boots k mmap s₀ → KernelRun mmap Guard.none (World.start s₀) w →
      w.pmm.freeMemory = pageSize * w.pmm.freeFrames.ncard ∧
        w.pmm.freeMemory + w.pmm.usedMemory = w.pmm.totalMemory ∧
        w.pmm.freeMemory ≤ w.pmm.totalMemory := by
  intro h
  obtain ⟨s, -, -, s', -, hrun, -, hinit, -⟩ :=
    switch_of_room acpiBelow_wellFormed (by decide) 0x103000 0x100 (by decide) rfl (by decide +kernel)
  obtain ⟨phys, s₁, g, -, hrange, hsw⟩ := initializeBuddy_switched acpiBelow_wellFormed hrun hinit
  have hlow : imageAt1M.endPhys ≤ phys := (le_max_left _ _).trans hrange.hr_le
  have hbase := hsw.base
  have hout : ∀ hr bp, ∀ q ∈ initialFree imageAt1M acpiBelow hr bp, 0x200 ≤ q := by
    rintro hr bp q ⟨⟨e, he, hu, hlo, -⟩, -⟩
    rcases List.mem_pair.mp he with rfl | rfl
    · simp only [pageSize] at hlo
      omega
    · exact absurd hu (by decide)
  have hframe : ∀ q ∈ acpiFrames acpiBelow, g.Frame q := fun q hq => by
    rw [acpiFrames_acpiBelow, Set.mem_Ico] at hq
    have hmax : g.maxPfn = 0x202 := hsw.maxPfn
    change 0x102000 ≤ phys at hlow
    exact ⟨by omega, by omega, Or.inl (by omega)⟩
  obtain ⟨s'', heq, hg⟩ := reclaimLoop_gives hsw.inv hsw.accounted.sized hsw.initialized
    fun q hq _ _ => hframe q hq
  have hreclaim : s'.reclaimAcpiMemory = some s'' := by
    rw [reclaimAcpiMemory, hsw.map_eq, ← heq]
    exact if_neg (by simp [hsw.initialized])
  have hstep : KernelStep acpiBelow Guard.none (World.start s') _ := .reclaim hreclaim trivial
  obtain ⟨hfree, htotal, -⟩ := h _ _ _ _ acpiBelow_wellFormed ⟨_, _, s, [], [], hrun, hinit⟩
    (.single hstep)
  have htot : s''.totalMemory = 0x3000 := by
    rw [hg.evolves.total, totalMemory_countFreed]
    exact hsw.total
  -- none of the eight frames was free
  have hR : acpiFrames acpiBelow \ (initialFree imageAt1M acpiBelow
      (max imageAt1M.endPhys (mbEnd (withBlock 0x103000 0x100) (hhdmBase + 0x103000)))
      s₁.bumpPtrPhys ∪ {0}) = Set.Ico 1 9 := by
    rw [acpiFrames_acpiBelow]
    refine sdiff_eq_left.mpr (Set.disjoint_left.mpr fun q hq hc => ?_)
    rcases hc with hc | rfl
    · exact absurd (hout _ _ q hc) (by have := hq.2; omega)
    · exact absurd hq.1 (by decide)
  rw [hR] at hg
  have hacc : Accounted s'' s''.freeFrames := ⟨hfree, htotal, by omega⟩
  rw [hg.freeFrames] at hacc
  have hle := (hg.accounted_iff hsw.accounted).mp hacc
  have hwas := hsw.accounted.total
  have hlen : s'.totalMemory = 0x3000 := hsw.total
  have hcard : (Set.Ico 1 9 : Set ℕ).ncard = 8 := by
    rw [← Finset.coe_Ico, Set.ncard_coe_finset, Nat.card_Ico]
  rw [hcard, pageSize] at hle
  omega

end PMM

end MioOS
