import MioOS.Paging.Boot

/-!
# Paging/Hhdm — the direct map after `initialize`

`initialize` maps the pages of the memory map at `HHDM_BASE` one by one and ignores the results of
`map_page`.  A call fails where something is mapped already, so whether the direct map is complete
comes down to which addresses share their leaf: pages behind the page directory of the boot tables
(`Misled`), and pages that are `aliasDistance` apart.
-/

namespace MioOS

namespace Paging

open Radix

/-- The HHDM address of a page. -/
theorem path_hhdm (p : ℕ) : path (hhdmBase + p)
    = [Fin.ofNat 512 (256 + p / 2 ^ 39), Fin.ofNat 512 (p / 2 ^ 30), Fin.ofNat 512 (p / 2 ^ 21),
      Fin.ofNat 512 (p / 2 ^ 12)] := by
  show [Fin.ofNat 512 ((hhdmBase + p) >>> 39), Fin.ofNat 512 ((hhdmBase + p) >>> 30),
    Fin.ofNat 512 ((hhdmBase + p) >>> 21), Fin.ofNat 512 ((hhdmBase + p) >>> 12)] = _
  rw [hhdmBase, List.cons.injEq, List.cons.injEq, List.cons.injEq, List.cons.injEq,
    ofNat_index_inj, ofNat_index_inj, ofNat_index_inj, ofNat_index_inj]
  simp only [Nat.shiftRight_eq_div_pow, and_true]
  omega

/-- **Pages that the boot tables mislead**: behind their HHDM addresses is the page directory of the
first GiB. -/
def Misled (p : ℕ) : Prop :=
  510 * 2 ^ 30 ≤ p ∧ p < 511 * 2 ^ 30 ∨ 2 ^ 47 - 2 ^ 39 ≤ p ∧ p < 2 ^ 47 - 2 ^ 39 + 2 ^ 30 ∨
    2 ^ 47 - 2 ^ 31 ≤ p ∧ p < 2 ^ 47 - 2 ^ 30

/-- How far apart two pages with aliased HHDM addresses are. -/
def aliasDistance : ℕ := 2 ^ 47 - 2 ^ 39

/-- The whole pages of a memory map, by their addresses. -/
def pages (mmap : MemoryMap) : Set ℕ := {p | ∃ ent ∈ mmap, ∃ q ∈ ent.wholePages, p = q * pageSize}

/-- **The memory map stays clear of the boot tables.** -/
def HhdmClear (mmap : MemoryMap) : Prop :=
  ∀ p ∈ pages mmap, ¬ Misled p ∧ p + aliasDistance ∉ pages mmap

/-! ## Which pages share a leaf -/

theorem ofNat_eq_lit {x n : ℕ} (hn : n < 512) :
    Fin.ofNat 512 x = Fin.ofNat 512 n ↔ x % 512 = n := by
  rw [ofNat_index_inj, Nat.mod_eq_of_lt hn]

theorem shared_of_headSlot {i j : Fin 512} (h : BootTables.headSlot i = BootTables.headSlot j) :
    i = j ∨ (i = 256 ∨ i = 511) ∧ (j = 256 ∨ j = 511) := by
  rw [BootTables.headSlot, BootTables.headSlot] at h
  split at h <;> split at h
  · exact Or.inl (by rw [‹i = 511›, ‹j = 511›])
  · exact Or.inr ⟨Or.inr ‹i = 511›, Or.inl h.symm⟩
  · exact Or.inr ⟨Or.inl h, Or.inr ‹j = 511›⟩
  · exact Or.inl h

theorem shared_of_nextSlot {i i' j j' : Fin 512}
    (h : BootTables.nextSlot i j = BootTables.nextSlot i' j') :
    j = j' ∨ BootTables.headSlot i = 256 ∧ j = 510 ∧ j' = 0 ∨
      BootTables.headSlot i' = 256 ∧ j' = 510 ∧ j = 0 := by
  rw [BootTables.nextSlot, BootTables.nextSlot] at h
  split at h <;> split at h
  · exact Or.inl (by rw [‹BootTables.headSlot i = 256 ∧ j = 510›.2,
      ‹BootTables.headSlot i' = 256 ∧ j' = 510›.2])
  · exact Or.inr (Or.inl ⟨‹BootTables.headSlot i = 256 ∧ j = 510›.1,
      ‹BootTables.headSlot i = 256 ∧ j = 510›.2, h.symm⟩)
  · exact Or.inr (Or.inr ⟨‹BootTables.headSlot i' = 256 ∧ j' = 510›.1,
      ‹BootTables.headSlot i' = 256 ∧ j' = 510›.2, h⟩)
  · exact Or.inl h

/-- **Pages whose HHDM addresses are aliased** are the same, or a distance apart, or one of them is
behind the page directory of the boot tables. -/
theorem eq_or_apart_of_rel {p q : ℕ} (hp : p < 2 ^ 47) (hq : q < 2 ^ 47) (hpa : p % pageSize = 0)
    (hqa : q % pageSize = 0)
    (h : BootTables.canon (path (hhdmBase + q)) = BootTables.canon (path (hhdmBase + p))) :
    q = p ∨ q + aliasDistance = p ∨ p + aliasDistance = q ∨ Misled q ∨ q < 2 ^ 30 := by
  rw [path_hhdm, path_hhdm] at h
  obtain ⟨hhead, htail⟩ := List.cons.inj h
  obtain ⟨hnext, hrest⟩ := List.cons.inj htail
  obtain ⟨hpd, hlast⟩ := List.cons.inj hrest
  have hpt := (List.cons.inj hlast).1
  rw [ofNat_index_inj] at hpd hpt
  have h256 : ∀ x, Fin.ofNat 512 x = 256 ↔ x % 512 = 256 := fun x => ofNat_eq_lit (by norm_num)
  have h511 : ∀ x, Fin.ofNat 512 x = 511 ↔ x % 512 = 511 := fun x => ofNat_eq_lit (by norm_num)
  have h510 : ∀ x, Fin.ofNat 512 x = 510 ↔ x % 512 = 510 := fun x => ofNat_eq_lit (by norm_num)
  have h0 : ∀ x, Fin.ofNat 512 x = 0 ↔ x % 512 = 0 := fun x => ofNat_eq_lit (by norm_num)
  have hslot : ∀ i : Fin 512, BootTables.headSlot i = 256 → i = 256 ∨ i = 511 := by
    intro i hi
    rw [BootTables.headSlot] at hi
    split at hi
    · exact Or.inr ‹i = 511›
    · exact Or.inl hi
  have hheads := shared_of_headSlot hhead
  rw [ofNat_index_inj, h256, h256, h511, h511] at hheads
  rw [pageSize] at hpa hqa
  rw [aliasDistance, Misled]
  rcases shared_of_nextSlot hnext with hsame | ⟨hi, hj, hj'⟩ | ⟨hi, hj, hj'⟩
  · rw [ofNat_index_inj] at hsame
    omega
  · have hi := hslot _ hi
    rw [h256, h511] at hi
    rw [h510] at hj
    omega
  · rw [← hhead] at hi
    have hi := hslot _ hi
    rw [h256, h511] at hi
    rw [h0] at hj'
    omega

namespace Backend

open BootTables (bootAliasing canon)

variable {s s' : Backend} {cpu : CpuFeatures} {b : BootTables}
  {memory : ℕ → Fin 512 → PageTableEntry} {allocs : List ℕ} {mmap : MemoryMap}
  {ent : UnifiedMemoryEntry} {done : Set ℕ} {n p q : ℕ} {i j : Fin 512}

/-! ## What the boot tables map -/

/-- **The page is where the HHDM says.** -/
def Direct (s : Backend) (p : ℕ) : Prop :=
  ∃ es, s.trailOf (path (hhdmBase + p)) = some es ∧
    ∀ k < pageSize, addressOf es (hhdmBase + p + k) = p + k

/-- Behind the page directory of the boot tables is the first GiB. -/
theorem adopted_trail {k m : Fin 512} (hi : i = 256 ∨ i = 511) (hj : j = 0 ∨ j = 510) :
    ∃ es, (b.adopted memory allocs).trailOf [i, j, k, m] = some es ∧ es.length = 3 ∧
      (es.getLastD {}).physicalAddress = 0x200000 * k.val := by
  have hdirectory := @BootTables.adopted_directory b memory i allocs j hi hj
  have hleaf : format.view (3 - [i, j].length) ((b.adopted memory allocs).tables b.p2Table k)
      = .leaf := by
    rw [BootTables.adopted_pd]
    exact BootTables.view_hugePage k
  refine ⟨_, trailOf_of_leaf hdirectory hleaf [m], ?_, ?_⟩
  · rw [List.length_append, length_spine hdirectory]
    rfl
  · rw [List.getLastD_concat, BootTables.adopted_pd, BootTables.hugePage_address]

/-- A 2 MiB leaf of the page directory translates to the first GiB. -/
theorem addressOf_hugePage {es : List PageTableEntry} {k : Fin 512} (hlen : es.length = 3)
    (haddress : (es.getLastD {}).physicalAddress = 0x200000 * k.val) (w : ℕ) :
    addressOf es w = 0x200000 * k.val + w % 2 ^ 21 := by
  have hshift : 0x200000 * k.val = k.val <<< 21 := by
    rw [Nat.shiftLeft_eq, Nat.mul_comm]
  have hoff : w % 2 ^ 21 < 2 ^ 21 := Nat.mod_lt _ (by norm_num)
  rw [addressOf, haddress, hlen]
  show 0x200000 * k.val ||| w % 2 ^ 21 = _
  rw [hshift, ← Nat.shiftLeft_add_eq_or_of_lt hoff]

/-- **What `initialize` keeps while it maps pages**, `done` being the pages it has come to. -/
structure Mapping (b : BootTables) (memory : ℕ → Fin 512 → PageTableEntry) (allocs : List ℕ)
    (s : Backend) (done : Set ℕ) : Prop where
  shares : s.Shares b
  root : s.kernelPml4Phys = b.p4Table
  kept : Extends format (b.adopted memory allocs).tables s.tables 3 b.p4Table
  mapped : ∀ p ∈ done, s.trailOf (path (hhdmBase + p)) ≠ none
  direct : ∀ p, 2 ^ 30 ≤ p → p < 2 ^ 47 → p % pageSize = 0 →
    s.trailOf (path (hhdmBase + p)) ≠ none →
      s.Direct p ∨ Misled p ∨ ∃ q ∈ done, p + aliasDistance = q ∨ q + aliasDistance = p

/-- What the boot tables map stays mapped. -/
theorem Mapping.keeps_trail (h : Mapping b memory allocs s done) {v : List (Fin 512)}
    {es : List PageTableEntry} (hes : (b.adopted memory allocs).trailOf v = some es) :
    s.trailOf v = some es := by
  rw [trailOf, h.root]
  exact h.kept.trail hes

/-- **Behind the page directory of the boot tables** are the first GiB and the misled pages. -/
theorem directory_path (hp : p < 2 ^ 47) (hin : Misled p ∨ p < 2 ^ 30) :
    ∃ i j, (i = 256 ∨ i = 511) ∧ (j = 0 ∨ j = 510) ∧ path (hhdmBase + p)
      = [i, j, Fin.ofNat 512 (p / 2 ^ 21), Fin.ofNat 512 (p / 2 ^ 12)] := by
  refine ⟨_, _, ?_, ?_, path_hhdm p⟩
  · rw [show (256 : Fin 512) = Fin.ofNat 512 256 from rfl,
      show (511 : Fin 512) = Fin.ofNat 512 511 from rfl, ofNat_index_inj, ofNat_index_inj]
    rw [Misled] at hin
    omega
  · rw [show (0 : Fin 512) = Fin.ofNat 512 0 from rfl,
      show (510 : Fin 512) = Fin.ofNat 512 510 from rfl, ofNat_index_inj, ofNat_index_inj]
    rw [Misled] at hin
    omega

/-- Their HHDM addresses lead into the first GiB. -/
theorem Mapping.first_gib (h : Mapping b memory allocs s done) (hp : p < 2 ^ 47)
    (halign : p % pageSize = 0) (hin : Misled p ∨ p < 2 ^ 30) :
    ∃ es, s.trailOf (path (hhdmBase + p)) = some es ∧
      ∀ k < pageSize, addressOf es (hhdmBase + p + k) = p % 2 ^ 30 + k := by
  obtain ⟨i, j, hi, hj, hpath⟩ := directory_path hp hin
  obtain ⟨es, hes, hlen, haddress⟩ := @adopted_trail b memory allocs i j
    (Fin.ofNat 512 (p / 2 ^ 21)) (Fin.ofNat 512 (p / 2 ^ 12)) hi hj
  refine ⟨es, by rw [hpath]; exact h.keeps_trail hes, fun k hk => ?_⟩
  rw [addressOf_hugePage hlen haddress]
  show 0x200000 * (p / 2 ^ 21 % 512) + (hhdmBase + p + k) % 2 ^ 21 = p % 2 ^ 30 + k
  rw [pageSize] at halign hk
  rw [hhdmBase]
  omega

/-- The first GiB is where the HHDM says. -/
theorem Mapping.direct_of_lt (h : Mapping b memory allocs s done) (hp : p < 2 ^ 30)
    (halign : p % pageSize = 0) : s.Direct p := by
  obtain ⟨es, hes, haddress⟩ := h.first_gib (hp.trans (by norm_num)) halign (Or.inr hp)
  refine ⟨es, hes, fun k hk => ?_⟩
  rw [haddress k hk, Nat.mod_eq_of_lt hp]

/-! ## One page -/

/-- A page with the same walk is as direct as before. -/
theorem Direct.congr (h : s.Direct p)
    (heq : s'.trailOf (path (hhdmBase + p)) = s.trailOf (path (hhdmBase + p))) : s'.Direct p := by
  obtain ⟨es, hes, haddress⟩ := h
  exact ⟨es, heq.trans hes, haddress⟩

theorem hhdm_aligned (halign : p % pageSize = 0) : (hhdmBase + p) % pageSize = 0 := by
  rw [pageSize] at halign ⊢
  rw [hhdmBase]
  omega

/-- The page that was just mapped is direct. -/
theorem Mapped.direct {A : Aliasing (Fin 512)} {flags : PageFlags} {s₁ : Backend}
    {path' : List (Fin 512)} (h : Mapped A cpu s (hhdmBase + p) p flags s₁ path' n i)
    (h2M : flags.has .huge2M = false) (h1G : flags.has .huge1G = false) (hp : p < 2 ^ 47) :
    (s₁.setEntry n i (leafEntry cpu (leafOf p flags))).Direct p := by
  have halign := h.aligned.2
  have hspine : (spine format s₁.tables 3 s₁.kernelPml4Phys path').length = 3 := by
    have hlen := h.length
    rw [leafDepth_small h2M h1G] at hlen
    rw [length_spine h.table]
    exact Nat.succ.inj hlen
  refine ⟨_, h.after rfl, fun k hk => ?_⟩
  rw [leafOf_small h2M h1G, addressOf_makePage hspine halign (by omega)]
  rw [pageSize] at halign hk ⊢
  rw [hhdmBase]
  omega

/-- **`AlreadyMapped` for a page of 4 KiB** says that a leaf is there. -/
theorem Blocked.mapped {virt : ℕ} {flags : PageFlags} {path' : List (Fin 512)}
    (h : Blocked s virt flags path' n i) (hdepth : leafDepth flags = 4) :
    s.trailOf (path virt) ≠ none := by
  rcases h.entry with hleaf | ⟨hpresent, hlen⟩
  · exact h.trail_ne_none hleaf
  · exact h.trail_ne_none (view_leaf hpresent (Or.inl (by omega)))

/-- **A call that maps nothing** came to a page that is mapped already. -/
theorem MapFailure.mapped {A : Aliasing (Fin 512)} {r : PagingError}
    (h : MapFailure A cpu s (hhdmBase + p) p .kernelRW s' r) (halign : p % pageSize = 0)
    (hzero : 0 ∉ s.allocs) (hleft : s'.allocs ≠ []) :
    s.trailOf (path (hhdmBase + p)) ≠ none := by
  cases h with
  | invalidAlignment hne _ => exact absurd ⟨hhdm_aligned halign, halign⟩ hne
  | outOfMemory hempty _ => exact (hempty.elim hzero hleft).elim
  | alreadyMapped q n i hblocked hgrows =>
    rw [← hgrows.trail]
    exact hblocked.mapped rfl
  | hardwareFault h1G _ _ => exact absurd h1G (by decide)

/-- **`initialize` comes to a page.** -/
theorem Mapping.step (h : Mapping b memory allocs s done) (hp : p < 2 ^ 47)
    (halign : p % pageSize = 0) (hzero : 0 ∉ s.allocs) {r : PagingError}
    (hr : s.mapPage cpu (hhdmBase + p) p .kernelRW = (r, s')) (hleft : s'.allocs ≠ []) :
    Mapping b memory allocs s' (insert p done) := by
  have hshares := h.shares.mapPage hr
  have hmore : ∀ q, (∃ q' ∈ done, q + aliasDistance = q' ∨ q' + aliasDistance = q) →
      ∃ q' ∈ insert p done, q + aliasDistance = q' ∨ q' + aliasDistance = q := by
    rintro q ⟨q', hq', hapart⟩
    exact ⟨q', Set.mem_insert_of_mem p hq', hapart⟩
  rcases mapPage_cases h.shares.sound trivial (keptOnWalk_true _ _ _) hr with
    ⟨hfail, -⟩ | ⟨-, s₁, path', n, i, hmapped, -, rfl⟩
  · have htrail := hfail.grows.trail
    refine ⟨hshares, hfail.grows.root.trans h.root, h.kept.trans (h.root ▸ hfail.grows.kept),
      fun q hq => ?_, fun q hlow hq hqa hne => ?_⟩
    · rw [htrail]
      rcases Set.mem_insert_iff.mp hq with rfl | hq
      · exact hfail.mapped halign hzero hleft
      · exact h.mapped q hq
    · rw [htrail] at hne
      exact (h.direct q hlow hq hqa hne).imp (fun hdirect => hdirect.congr (htrail _))
        (Or.imp_right (hmore q))
  · refine ⟨hshares, hmapped.grows.root.trans h.root, h.kept.trans (h.root ▸ hmapped.kept),
      fun q hq => ?_, fun q hlow hq hqa hne => ?_⟩
    · rcases Set.mem_insert_iff.mp hq with rfl | hq
      · rw [hmapped.after rfl]
        exact Option.some_ne_none _
      · obtain ⟨es, hes⟩ := Option.ne_none_iff_exists'.mp (h.mapped q hq)
        rw [hmapped.keeps_trail hes]
        exact Option.some_ne_none es
    · by_cases hrel : canon (path (hhdmBase + q)) = canon (path (hhdmBase + p))
      · rcases eq_or_apart_of_rel hp hq halign hqa hrel with rfl | hapart | hapart | hmisled | hlt
        · exact Or.inl (hmapped.direct rfl rfl hp)
        · exact Or.inr (Or.inr ⟨p, Set.mem_insert p done, Or.inl hapart⟩)
        · exact Or.inr (Or.inr ⟨p, Set.mem_insert p done, Or.inr hapart⟩)
        · exact Or.inr (Or.inl hmisled)
        · exact absurd hlt (not_lt.mpr hlow)
      · have htrail := hmapped.frame (v := path (hhdmBase + q)) hrel
        rw [htrail] at hne
        exact (h.direct q hlow hq hqa hne).imp (fun hdirect => hdirect.congr htrail)
          (Or.imp_right (hmore q))

/-! ## All pages -/

/-- What the calls of `initialize` do to the allocator: it is used up from the front. -/
structure Consumes (b : BootTables) (allocs : List ℕ) (s : Backend) : Prop where
  shares : s.Shares b
  allocs : s.allocs <:+ allocs

theorem Consumes.mapPage (h : s.Consumes b allocs) (virt phys : ℕ) :
    (s.mapPage cpu virt phys .kernelRW).2.Consumes b allocs := by
  rcases hr : s.mapPage cpu virt phys .kernelRW with ⟨r, s'⟩
  refine ⟨h.shares.mapPage hr, List.IsSuffix.trans ?_ h.allocs⟩
  rcases mapPage_cases h.shares.sound trivial (keptOnWalk_true _ _ _) hr with
    ⟨hfail, -⟩ | ⟨-, s₁, q, n, i, hmapped, -, rfl⟩
  · exact hfail.grows.allocs
  · exact hmapped.grows.allocs

/-- Pages that are left at the end were left before. -/
theorem Consumes.ne_nil (h : s'.Consumes b s.allocs) (hleft : s'.allocs ≠ []) : s.allocs ≠ [] := by
  intro hnil
  exact hleft (List.suffix_nil.mp (hnil ▸ h.allocs))

theorem Consumes.not_mem (h : s'.Consumes b s.allocs) (hzero : 0 ∉ s.allocs) : 0 ∉ s'.allocs :=
  fun hmem => hzero (h.allocs.subset hmem)

theorem Shares.consumes (h : s.Shares b) : s.Consumes b s.allocs := ⟨h, List.suffix_rfl⟩

theorem Consumes.mapRange (h : s.Consumes b allocs) (p n : ℕ) :
    (mapRange cpu s p n).Consumes b allocs :=
  mapRange_induction (fun _ virt phys hs => hs.mapPage virt phys) h p n

theorem Consumes.mapEntry (h : s.Consumes b allocs) (ent : UnifiedMemoryEntry) :
    (mapEntry cpu s ent).Consumes b allocs :=
  mapEntry_induction (fun _ virt phys hs => hs.mapPage virt phys) h ent

theorem Consumes.foldl (h : s.Consumes b allocs) (mmap : MemoryMap) :
    (mmap.foldl (Backend.mapEntry cpu) s).Consumes b allocs := by
  induction mmap generalizing s with
  | nil => exact h
  | cons ent rest ih => exact ih (h.mapEntry ent)

/-- **The loop over one region.** -/
theorem Mapping.mapRange (h : Mapping b memory allocs s done) (halign : p % pageSize = 0)
    (hend : p + n * pageSize ≤ 2 ^ 47) (hzero : 0 ∉ s.allocs)
    (hleft : (mapRange cpu s p n).allocs ≠ []) :
    Mapping b memory allocs (mapRange cpu s p n)
      (done ∪ {q | ∃ k < n, q = p + k * pageSize}) := by
  induction n generalizing s p done with
  | zero =>
    have hnone : {q | ∃ k < 0, q = p + k * pageSize} = ∅ := by
      ext q
      exact iff_of_false (fun ⟨k, hk, _⟩ => absurd hk (Nat.not_lt_zero k)) (Set.notMem_empty q)
    rw [hnone, Set.union_empty]
    exact h
  | succ n ih =>
    rw [pageSize] at halign hend
    have haddress : u64 (p + hhdmBase) = hhdmBase + p := by
      rw [hhdmBase, u64_of_lt (by omega), Nat.add_comm]
    rw [Backend.mapRange, haddress] at hleft ⊢
    have hconsumes := @Consumes.mapPage _ cpu _ _ h.shares.consumes (hhdmBase + p) p
    have hleft₁ := (hconsumes.shares.consumes.mapRange (p + pageSize) n).ne_nil hleft
    have hstep := h.step (by omega) halign hzero rfl hleft₁
    have hrest := ih hstep (by rw [pageSize]; omega) (by rw [pageSize]; omega)
      (hconsumes.not_mem hzero) hleft
    have hset : insert p done ∪ {q | ∃ k < n, q = p + pageSize + k * pageSize}
        = done ∪ {q | ∃ k < n + 1, q = p + k * pageSize} := by
      ext q
      rw [Set.insert_union, Set.mem_insert_iff, Set.mem_union, Set.mem_union, Set.mem_ofPred_eq,
        Set.mem_ofPred_eq]
      constructor
      · rintro (rfl | hdone | ⟨k, hk, rfl⟩)
        · exact Or.inr ⟨0, Nat.succ_pos n, by rw [Nat.zero_mul, Nat.add_zero]⟩
        · exact Or.inl hdone
        · exact Or.inr ⟨k + 1, Nat.succ_lt_succ hk, by rw [Nat.succ_mul]; omega⟩
      · rintro (hdone | ⟨k, hk, rfl⟩)
        · exact Or.inr (Or.inl hdone)
        · cases k with
          | zero => exact Or.inl (by rw [Nat.zero_mul, Nat.add_zero])
          | succ k => exact Or.inr (Or.inr ⟨k, Nat.lt_of_succ_lt_succ hk, by rw [Nat.succ_mul]; omega⟩)
    rw [← hset]
    exact hrest

/-- The pages `initialize` maps for an entry. -/
def mappedPages (ent : UnifiedMemoryEntry) : Set ℕ :=
  {p | (∃ q ∈ ent.wholePages, p = q * pageSize) ∧ earlyBootMapLimit ≤ p}

/-- **One entry of the memory map.** -/
theorem Mapping.mapEntry (h : Mapping b memory allocs s done)
    (hend : ent.addr + ent.len ≤ 2 ^ 47) (hzero : 0 ∉ s.allocs)
    (hleft : (mapEntry cpu s ent).allocs ≠ []) :
    Mapping b memory allocs (mapEntry cpu s ent) (done ∪ mappedPages ent) := by
  have hstart : alignUp ent.addr pageSize = (ent.addr + 4095) / pageSize * pageSize :=
    alignUp_page (by omega)
  have hstop : alignDown (u64 (ent.addr + ent.len)) pageSize
      = (ent.addr + ent.len) / pageSize * pageSize := by
    rw [u64_of_lt (by omega), alignDown_page (by omega)]
  rw [Backend.mapEntry, hstart, hstop] at hleft ⊢
  have hmem : ∀ p, p ∈ mappedPages ent ↔ p % pageSize = 0 ∧ ent.addr ≤ p ∧
      p + pageSize ≤ ent.addr + ent.len ∧ earlyBootMapLimit ≤ p := by
    intro p
    rw [mappedPages, Set.mem_ofPred_eq, UnifiedMemoryEntry.wholePages, pageSize]
    constructor
    · rintro ⟨⟨q, ⟨hlow, hhigh⟩, rfl⟩, hlimit⟩
      omega
    · rintro ⟨halign, hlow, hhigh, hlimit⟩
      exact ⟨⟨p / 4096, ⟨by omega, by omega⟩, by omega⟩, hlimit⟩
  split at hleft
  · rename_i hempty
    rw [if_pos hempty]
    have hnone : mappedPages ent = ∅ := by
      ext p
      rw [hmem]
      refine iff_of_false ?_ (Set.notMem_empty p)
      rw [pageSize] at hempty ⊢
      omega
    rw [hnone, Set.union_empty]
    exact h
  · rename_i hsome
    rw [if_neg hsome]
    have hfirst : (if (ent.addr + 4095) / pageSize * pageSize > earlyBootMapLimit then
        (ent.addr + 4095) / pageSize * pageSize else earlyBootMapLimit)
        = max ((ent.addr + 4095) / pageSize * pageSize) earlyBootMapLimit := by
      split
      · exact (max_eq_left (le_of_lt ‹_›)).symm
      · exact (max_eq_right (not_lt.mp ‹_›)).symm
    simp only [hfirst] at hleft ⊢
    have hset : mappedPages ent = {q | ∃ k < ((ent.addr + ent.len) / pageSize * pageSize
        - max ((ent.addr + 4095) / pageSize * pageSize) earlyBootMapLimit) / pageSize,
        q = max ((ent.addr + 4095) / pageSize * pageSize) earlyBootMapLimit + k * pageSize} := by
      ext p
      rw [hmem, Set.mem_ofPred_eq, pageSize, earlyBootMapLimit]
      constructor
      · rintro ⟨halign, hlow, hhigh, hlimit⟩
        exact ⟨(p - max ((ent.addr + 4095) / 4096 * 4096) 0x40000000) / 4096, by omega, by omega⟩
      · rintro ⟨k, hk, rfl⟩
        omega
    rw [hset]
    refine h.mapRange ?_ ?_ hzero hleft
    · rw [pageSize, earlyBootMapLimit]
      omega
    · rw [pageSize, earlyBootMapLimit] at *
      omega

/-- **The whole memory map.** -/
theorem Mapping.foldl (h : Mapping b memory allocs s done)
    (hend : ∀ ent ∈ mmap, ent.addr + ent.len ≤ 2 ^ 47) (hzero : 0 ∉ s.allocs)
    (hleft : (mmap.foldl (Backend.mapEntry cpu) s).allocs ≠ []) :
    Mapping b memory allocs (mmap.foldl (Backend.mapEntry cpu) s)
      (done ∪ {p | ∃ ent ∈ mmap, p ∈ mappedPages ent}) := by
  induction mmap generalizing s done with
  | nil =>
    have hnone : {p | ∃ ent ∈ ([] : MemoryMap), p ∈ mappedPages ent} = ∅ := by
      ext p
      exact iff_of_false (fun ⟨ent, hent, _⟩ => absurd hent List.not_mem_nil) (Set.notMem_empty p)
    rw [hnone, Set.union_empty]
    exact h
  | cons ent rest ih =>
    rw [List.foldl_cons] at hleft ⊢
    have hconsumes := @Consumes.mapEntry _ cpu _ _ h.shares.consumes ent
    have hleft₁ := (hconsumes.shares.consumes.foldl rest).ne_nil hleft
    have hstep := h.mapEntry (hend ent List.mem_cons_self) hzero hleft₁
    have hrest := ih hstep (fun e he => hend e (List.mem_cons_of_mem _ he))
      (hconsumes.not_mem hzero) hleft
    have hset : done ∪ mappedPages ent ∪ {p | ∃ ent ∈ rest, p ∈ mappedPages ent}
        = done ∪ {p | ∃ e ∈ ent :: rest, p ∈ mappedPages e} := by
      rw [Set.union_assoc]
      congr 1
      ext p
      rw [Set.mem_union, Set.mem_ofPred_eq, Set.mem_ofPred_eq]
      constructor
      · rintro (hp | ⟨e, he, hp⟩)
        · exact ⟨ent, List.mem_cons_self, hp⟩
        · exact ⟨e, List.mem_cons_of_mem _ he, hp⟩
      · rintro ⟨e, he, hp⟩
        rcases List.mem_cons.mp he with rfl | he
        · exact Or.inl hp
        · exact Or.inr ⟨e, he, hp⟩
    rw [← hset]
    exact hrest

/-! ## When the direct map is complete -/

/-- **The HHDM is complete**: every byte of every whole page of the memory map is where it says. -/
def HhdmComplete (s : Backend) (mmap : MemoryMap) : Prop :=
  ∀ p ∈ pages mmap, ∀ k < pageSize, s.translate (hhdmBase + p + k) = p + k

theorem path_add_offset {v k : ℕ} (halign : v % pageSize = 0) (hk : k < pageSize) :
    path (v + k) = path v := by
  rw [pageSize] at halign hk
  show [Fin.ofNat 512 ((v + k) >>> 39), Fin.ofNat 512 ((v + k) >>> 30),
    Fin.ofNat 512 ((v + k) >>> 21), Fin.ofNat 512 ((v + k) >>> 12)]
    = [Fin.ofNat 512 (v >>> 39), Fin.ofNat 512 (v >>> 30), Fin.ofNat 512 (v >>> 21),
      Fin.ofNat 512 (v >>> 12)]
  rw [List.cons.injEq, List.cons.injEq, List.cons.injEq, List.cons.injEq, ofNat_index_inj,
    ofNat_index_inj, ofNat_index_inj, ofNat_index_inj]
  simp only [Nat.shiftRight_eq_div_pow, and_true]
  omega

/-- The bytes of a page whose walk ends in a leaf. -/
theorem translate_page {es : List PageTableEntry} (halign : p % pageSize = 0)
    (hes : s.trailOf (path (hhdmBase + p)) = some es) {k : ℕ} (hk : k < pageSize) :
    s.translate (hhdmBase + p + k) = addressOf es (hhdmBase + p + k) := by
  rw [translate_eq, path_add_offset (hhdm_aligned halign) hk, hes]
  rfl

theorem mem_pages : p ∈ pages mmap ↔ p % pageSize = 0 ∧
    ∃ ent ∈ mmap, ent.addr ≤ p ∧ p + pageSize ≤ ent.addr + ent.len := by
  rw [pages, Set.mem_ofPred_eq, pageSize]
  constructor
  · rintro ⟨ent, hent, q, ⟨hlow, hhigh⟩, rfl⟩
    rw [pageSize] at hlow hhigh
    exact ⟨Nat.mul_mod_left _ _, ent, hent, hlow, by omega⟩
  · rintro ⟨halign, ent, hent, hlow, hhigh⟩
    refine ⟨ent, hent, p / 4096, ⟨?_, ?_⟩, by omega⟩
    · rw [pageSize]
      omega
    · rw [pageSize]
      omega

/-- Two addresses of pages a distance apart are aliased. -/
theorem path_apart (hp : p + aliasDistance < 2 ^ 47) :
    ∃ rest, path (hhdmBase + p) = 256 :: rest ∧
      path (hhdmBase + (p + aliasDistance)) = 511 :: rest := by
  rw [aliasDistance] at hp ⊢
  refine ⟨[Fin.ofNat 512 (p / 2 ^ 30), Fin.ofNat 512 (p / 2 ^ 21), Fin.ofNat 512 (p / 2 ^ 12)],
    ?_, ?_⟩
  · rw [path_hhdm, List.cons.injEq, show (256 : Fin 512) = Fin.ofNat 512 256 from rfl,
      ofNat_index_inj]
    exact ⟨by omega, rfl⟩
  · rw [path_hhdm, List.cons.injEq, List.cons.injEq, List.cons.injEq, List.cons.injEq,
      show (511 : Fin 512) = Fin.ofNat 512 511 from rfl, ofNat_index_inj, ofNat_index_inj,
      ofNat_index_inj, ofNat_index_inj]
    simp only [and_true]
    omega

/-- Beyond the first GiB the boot tables map misled pages only. -/
theorem misled_of_adopted (hlow : 2 ^ 30 ≤ p) (hp : p < 2 ^ 47)
    (hne : (b.adopted memory allocs).trailOf (path (hhdmBase + p)) ≠ none) : Misled p := by
  rw [path_hhdm] at hne
  have hhead : Fin.ofNat 512 (256 + p / 2 ^ 39) = 256 ∨ Fin.ofNat 512 (256 + p / 2 ^ 39) = 511 := by
    by_contra hhead
    refine hne (trailOf_of_absent (tableAt_nil _) ?_ _)
    show ((b.adopted memory allocs).tables b.p4Table _).present = false
    rw [BootTables.adopted_pml4, if_neg hhead]
    rfl
  have hnext : Fin.ofNat 512 (p / 2 ^ 30) = 0 ∨ Fin.ofNat 512 (p / 2 ^ 30) = 510 := by
    by_contra hnext
    refine hne (trailOf_of_absent (BootTables.adopted_shared hhead) ?_ _)
    rw [BootTables.adopted_pdpt, BootTables.pdpt, if_neg hnext]
    rfl
  rw [show (256 : Fin 512) = Fin.ofNat 512 256 from rfl,
    show (511 : Fin 512) = Fin.ofNat 512 511 from rfl, ofNat_index_inj, ofNat_index_inj] at hhead
  rw [show (0 : Fin 512) = Fin.ofNat 512 0 from rfl,
    show (510 : Fin 512) = Fin.ofNat 512 510 from rfl, ofNat_index_inj, ofNat_index_inj] at hnext
  rw [Misled]
  omega

/-- **The HHDM is complete after `initialize`** exactly if the memory map stays clear of the boot
tables.  A page that is left at the end says that no allocation has failed. -/
theorem hhdmComplete_iff (hsupply : b.Supply allocs) (hzero : 0 ∉ allocs)
    (hend : ∀ ent ∈ mmap, ent.addr + ent.len ≤ 2 ^ 47)
    (hleft : (initializePaging cpu b.p4Table mmap (b.loaded memory allocs)).allocs ≠ []) :
    HhdmComplete (initializePaging cpu b.p4Table mmap (b.loaded memory allocs)) mmap ↔
      HhdmClear mmap := by
  rw [initializePaging_eq] at hleft ⊢
  have hstart : Mapping b memory allocs (b.adopted memory allocs) ∅ := by
    exact ⟨shares_adopted hsupply memory, rfl, .refl _ _ _,
      fun p hp => absurd hp (Set.notMem_empty p),
      fun p hlow hplt _ hne => Or.inr (Or.inl (misled_of_adopted hlow hplt hne))⟩
  have hmapping := hstart.foldl hend hzero hleft
  rw [Set.empty_union] at hmapping
  generalize mmap.foldl (Backend.mapEntry cpu) (b.adopted memory allocs) = s at hmapping
  have hlt : ∀ p ∈ pages mmap, p < 2 ^ 47 ∧ p % pageSize = 0 := by
    intro p hp
    obtain ⟨halign, ent, hent, -, hhigh⟩ := mem_pages.mp hp
    have hbound := hend ent hent
    rw [pageSize] at hhigh
    exact ⟨by omega, halign⟩
  constructor
  · intro hcomplete p hp
    obtain ⟨hplt, halign⟩ := hlt p hp
    constructor
    · intro hmisled
      obtain ⟨es, hes, haddress⟩ := hmapping.first_gib hplt halign (Or.inl hmisled)
      have hzero : 0 < pageSize := by
        rw [pageSize]
        norm_num
      have hvalue := hcomplete p hp 0 hzero
      rw [translate_page halign hes hzero, haddress 0 hzero] at hvalue
      rw [Misled] at hmisled
      omega
    · intro happart
      obtain ⟨hplt', halign'⟩ := hlt _ happart
      obtain ⟨rest, hpath, hpath'⟩ := path_apart hplt'
      have hzero : 0 < pageSize := by
        rw [pageSize]
        norm_num
      have hvalue := hcomplete p hp 0 hzero
      have hvalue' := hcomplete _ happart 0 hzero
      have halias := hmapping.shares.translate_alias (Or.inl rfl) (Or.inr rfl) hpath hpath'
        (by rw [aliasDistance]; omega)
      rw [Nat.add_zero] at hvalue hvalue'
      rw [hvalue, hvalue', aliasDistance] at halias
      omega
  · intro hclear p hp k hk
    obtain ⟨hplt, halign⟩ := hlt p hp
    have hdirect : s.Direct p := by
      by_cases hboot : p < 2 ^ 30
      · exact hmapping.direct_of_lt hboot halign
      · have hdone : p ∈ {p | ∃ ent ∈ mmap, p ∈ mappedPages ent} := by
          obtain ⟨ent, hent, hq⟩ := hp
          exact ⟨ent, hent, hq, by rw [earlyBootMapLimit]; omega⟩
        rcases hmapping.direct p (not_lt.mp hboot) hplt halign (hmapping.mapped p hdone) with
          hdirect | hmisled | ⟨q, ⟨ent, hent, hq, -⟩, hapart | hapart⟩
        · exact hdirect
        · exact absurd hmisled (hclear p hp).1
        · exact absurd ⟨ent, hent, hq⟩ (hapart ▸ (hclear p hp).2)
        · exact absurd hp (hapart ▸ (hclear q ⟨ent, hent, hq⟩).2)
    obtain ⟨es, hes, haddress⟩ := hdirect
    rw [translate_page halign hes hk, haddress k hk]

/-! ## A page at 510 GiB -/

/-- A memory map of one page. -/
def onePage (addr : ℕ) : MemoryMap := [⟨addr, 0x1000, true, 1, false⟩]

theorem mem_pages_onePage {addr : ℕ} (halign : addr % pageSize = 0) :
    p ∈ pages (onePage addr) ↔ p = addr := by
  rw [mem_pages, onePage]
  simp only [List.mem_singleton, exists_eq_left]
  rw [pageSize] at halign ⊢
  omega

/-- The HHDM address of 510 GiB is behind the page directory of the first GiB. -/
theorem not_hhdmComplete_510 :
    ¬ ∀ mmap : MemoryMap, (∀ ent ∈ mmap, ent.addr + ent.len ≤ 2 ^ 47) →
      (initializePaging fullCpu 0x104000 mmap (imageTables.loaded (fun _ _ => .makeEmpty)
        [0x300000, 0x301000, 0x302000, 0x303000])).allocs ≠ [] →
      HhdmComplete (initializePaging fullCpu 0x104000 mmap (imageTables.loaded
        (fun _ _ => .makeEmpty) [0x300000, 0x301000, 0x302000, 0x303000])) mmap := by
  intro hall
  have hcomplete := hall (onePage 0x7F80000000) (by decide) (by decide +kernel)
  have hvalue := hcomplete 0x7F80000000 ((mem_pages_onePage (by decide)).mpr rfl) 0 (by decide)
  exact absurd hvalue (by decide +kernel)

/-- A page at 1 GiB is where the HHDM says. -/
theorem hhdmComplete_1g :
    HhdmComplete (initializePaging fullCpu 0x104000 (onePage 0x40000000) (imageTables.loaded
      (fun _ _ => .makeEmpty) [0x300000, 0x301000, 0x302000, 0x303000])) (onePage 0x40000000) := by
  refine (hhdmComplete_iff supply_started (by decide) (by decide) (by decide +kernel)).mpr ?_
  intro p hp
  obtain rfl := (mem_pages_onePage (by decide)).mp hp
  refine ⟨by norm_num [Misled], fun happart => ?_⟩
  have heq := (mem_pages_onePage (by decide)).mp happart
  rw [aliasDistance] at heq
  omega

end Backend

end Paging

end MioOS
