import MioOS.Paging.Refinement

/-!
# Paging/Huge — huge leaves

`map_page` takes any pair of page-aligned addresses for a huge leaf, and what the leaf translates to
is its address or-ed with the low bits of the virtual one.  A huge mapping therefore means what it
says for addresses that are aligned to its size, and for no others.
-/

namespace MioOS

namespace Paging

open Radix

namespace Backend

variable {s s' : Backend} {cpu : CpuFeatures} {flags : PageFlags} {virt phys w : ℕ}

/-- The size of the page that `map_page` maps. -/
def mappedSize (flags : PageFlags) : ℕ := 2 ^ (12 + 9 * (4 - leafDepth flags))

/-- **A mapping means what it says**: its bytes are where it puts them, and no other address is
translated differently. -/
def MeansWhatItSays (s s' : Backend) (virt phys size : ℕ) : Prop :=
  (∀ k < size, s'.translate (virt + k) = phys + k) ∧
    ∀ w, Canonical w → w < virt ∨ virt + size ≤ w → s'.translate w = s.translate w

/-- Flags that ask for a huge leaf. -/
def Huge (flags : PageFlags) : Prop := flags.has .huge2M = true ∨ flags.has .huge1G = true

theorem Huge.leafDepth (h : Huge flags) :
    Backend.leafDepth flags = 2 ∨ Backend.leafDepth flags = 3 := by
  rw [Backend.leafDepth]
  rcases h with h2M | h1G
  · rw [h2M, if_pos rfl]
    split
    · exact Or.inl rfl
    · exact Or.inr rfl
  · rw [h1G, if_pos rfl]
    exact Or.inl rfl

/-- A leaf holds the address that was asked for. -/
theorem address_leafOf (halign : phys % pageSize = 0) (hlt : phys < 2 ^ 52) :
    (leafEntry cpu (leafOf phys flags)).physicalAddress = phys := by
  have hleaf : (leafOf phys flags).physicalAddress = phys := by
    rw [leafOf]
    split
    · exact setPhysicalAddress_address (e := { present := true, hugeOrPat := true }) halign hlt
    · split
      · exact setPhysicalAddress_address (e := { present := true, hugeOrPat := true }) halign hlt
      · exact setPhysicalAddress_address (e := { present := true }) halign hlt
  rw [leafEntry]
  split
  · exact hleaf
  · exact hleaf

section Success

variable {A : Aliasing (Fin 512)} {s₁ : Backend} {p : List (Fin 512)} {n : ℕ} {i : Fin 512}

/-- What the addresses of a new mapping are translated to. -/
theorem Mapped.translate (h : Mapped A cpu s virt phys flags s₁ p n i)
    (hlt : phys < 2 ^ 52)
    (hw : (path w).take (leafDepth flags) = (path virt).take (leafDepth flags)) :
    (s₁.setEntry n i (leafEntry cpu (leafOf phys flags))).translate w
      = phys ||| w % mappedSize flags := by
  rw [translate_eq, h.after hw, Option.elim_some, addressOf, List.getLastD_concat,
    address_leafOf h.aligned.2 hlt, List.length_append, length_spine h.table,
    List.length_singleton, h.length, mappedSize]

/-- The page of an aligned address. -/
theorem mem_leafPage_aligned {k : ℕ} (halign : virt % 2 ^ (12 + 9 * (4 - k)) = 0) :
    w ∈ leafPage k virt ↔ virt ≤ w ∧ w < virt + 2 ^ (12 + 9 * (4 - k)) := by
  have hpos : 0 < 2 ^ (12 + 9 * (4 - k)) := Nat.two_pow_pos _
  rw [leafPage, Set.mem_ofPred_eq]
  generalize 2 ^ (12 + 9 * (4 - k)) = size at halign hpos
  obtain ⟨m, rfl⟩ := Nat.dvd_of_mod_eq_zero halign
  rw [Nat.mul_div_cancel_left m hpos, Nat.div_eq_iff hpos, Nat.mul_comm m]
  omega

/-- **An or-ed address is a sum** where the base is aligned. -/
theorem or_eq_add {base off m : ℕ} (halign : base % 2 ^ m = 0) (hoff : off < 2 ^ m) :
    base ||| off = base + off := by
  obtain ⟨c, rfl⟩ := Nat.dvd_of_mod_eq_zero halign
  rw [Nat.mul_comm, ← Nat.shiftLeft_eq, ← Nat.shiftLeft_add_eq_or_of_lt hoff]

/-- **A successful huge mapping means what it says** exactly if both addresses are aligned to its
size. -/
theorem meansWhatItSays_iff (hs : s.Sound (.tree _)) (hv : Canonical virt) (hlt : phys < 2 ^ 52)
    (hhuge : Huge flags) (hr : s.mapPage cpu virt phys flags = (.success, s')) :
    MeansWhatItSays s s' virt phys (mappedSize flags) ↔
      virt % mappedSize flags = 0 ∧ phys % mappedSize flags = 0 := by
  rcases mapPage_cases hs trivial (keptOnWalk_true _ _ _) hr with
    ⟨hfail, -⟩ | ⟨-, s₁, p, n, i, hmapped, -, rfl⟩
  · exact absurd rfl hfail.ne_success
  have hpath : ∀ w, Canonical w → ((path w).take (leafDepth flags)
      = (path virt).take (leafDepth flags) ↔ w ∈ leafPage (leafDepth flags) virt) := fun w hw =>
    path_take_eq_iff hv hw (two_le_leafDepth flags) (leafDepth_le flags)
  obtain ⟨hvirt, hphys⟩ := hmapped.aligned
  have hsize : mappedSize flags = 2 ^ 21 ∨ mappedSize flags = 2 ^ 30 := by
    rw [mappedSize]
    rcases hhuge.leafDepth with hdepth | hdepth
    · exact Or.inr (by rw [hdepth])
    · exact Or.inl (by rw [hdepth])
  have hpos : 0 < mappedSize flags := Nat.two_pow_pos _
  constructor
  · rintro ⟨hbytes, hframe⟩
    have haligned : virt % mappedSize flags = 0 := by
      by_contra hne
      -- the leaf covers an odd address below `virt`
      have hlow : Canonical (virt / mappedSize flags * mappedSize flags + 1) := by
        rw [Canonical] at hv ⊢
        rcases hsize with hsize | hsize <;> rw [hsize] at hne ⊢ <;> omega
      have hin : virt / mappedSize flags * mappedSize flags + 1
          ∈ leafPage (leafDepth flags) virt := by
        show (virt / mappedSize flags * mappedSize flags + 1) / mappedSize flags
          = virt / mappedSize flags
        rcases hsize with hsize | hsize <;> rw [hsize] <;> omega
      have hbelow : virt / mappedSize flags * mappedSize flags + 1 < virt := by
        rw [pageSize] at hvirt
        rcases hsize with hsize | hsize <;> rw [hsize] at hne ⊢ <;> omega
      have hsame := hframe _ hlow (Or.inl hbelow)
      have hodd : (virt / mappedSize flags * mappedSize flags + 1) % 2 = 1 := by
        rcases hsize with hsize | hsize <;> rw [hsize] <;> omega
      have htake := (hpath _ hlow).mpr hin
      have hzero := (translate_odd s hodd).mpr (hmapped.before htake)
      rw [hzero, translate_odd _ hodd, hmapped.after htake] at hsame
      exact Option.some_ne_none _ hsame
    refine ⟨haligned, ?_⟩
    -- the byte at the offset of `phys` itself
    have hk : phys % mappedSize flags < mappedSize flags := Nat.mod_lt _ hpos
    have hcanonical : Canonical (virt + phys % mappedSize flags) := by
      rw [Canonical] at hv ⊢
      rcases hsize with hsize | hsize <;> rw [hsize] at haligned ⊢ <;> omega
    have hin : virt + phys % mappedSize flags ∈ leafPage (leafDepth flags) virt :=
      (mem_leafPage_aligned haligned).mpr ⟨by omega, Nat.add_lt_add_left hk _⟩
    have hvalue := hbytes _ hk
    have hoff : (virt + phys % mappedSize flags) % mappedSize flags
        = phys % mappedSize flags := by
      rw [Nat.add_mod, haligned, Nat.zero_add, Nat.mod_mod, Nat.mod_mod]
    have hor : phys ||| phys % mappedSize flags = phys := by
      have hsplit : mappedSize flags * (phys / mappedSize flags) ||| phys % mappedSize flags
          = phys := by
        rw [mappedSize, or_eq_add (Nat.mul_mod_right _ _) (Nat.mod_lt _ (Nat.two_pow_pos _))]
        exact Nat.div_add_mod phys _
      calc phys ||| phys % mappedSize flags
          = (mappedSize flags * (phys / mappedSize flags) ||| phys % mappedSize flags)
              ||| phys % mappedSize flags := by rw [hsplit]
        _ = phys := by rw [Nat.or_assoc, Nat.or_self, hsplit]
    rw [hmapped.translate hlt ((hpath _ hcanonical).mpr hin), hoff, hor] at hvalue
    omega
  · rintro ⟨haligned, hphys'⟩
    constructor
    · intro k hk
      have hcanonical : Canonical (virt + k) := by
        rw [Canonical] at hv ⊢
        rcases hsize with hsize | hsize <;> rw [hsize] at haligned hk <;> omega
      have hin : virt + k ∈ leafPage (leafDepth flags) virt :=
        (mem_leafPage_aligned haligned).mpr ⟨by omega, Nat.add_lt_add_left hk _⟩
      have hoff : (virt + k) % mappedSize flags = k := by
        rw [Nat.add_mod, haligned, Nat.zero_add, Nat.mod_mod, Nat.mod_eq_of_lt hk]
      rw [hmapped.translate hlt ((hpath _ hcanonical).mpr hin), hoff, or_eq_add hphys' hk]
    · intro w hw hout
      rw [translate_eq, translate_eq, hmapped.frame fun hrel => ?_]
      have hin := (mem_leafPage_aligned haligned).mp ((hpath w hw).mp hrel)
      rw [← mappedSize] at hin
      omega

/-- Flags of a readable 2 MiB page. -/
def read2M : PageFlags := ⟨PageFlags.read.bits ||| PageFlags.huge2M.bits⟩

/-- A physical address that is aligned to 4 KiB only is or-ed with the offsets. -/
theorem not_meansWhatItSays_unaligned :
    ¬ ∀ virt phys flags s', Canonical virt → phys < 2 ^ 52 → Huge flags →
      blank.mapPage fullCpu virt phys flags = (.success, s') →
      MeansWhatItSays blank s' virt phys (mappedSize flags) := by
  intro hall
  have hmeans := hall 0x200000 0x1000 read2M _ (Or.inl (by norm_num)) (by norm_num)
    (Or.inl (by decide)) rfl
  exact absurd (hmeans.1 0x1000 (by decide)) (by decide)

/-- A 2 MiB page at aligned addresses. -/
theorem meansWhatItSays_aligned :
    MeansWhatItSays blank (blank.mapPage fullCpu 0x200000 0x400000 read2M).2 0x200000 0x400000
      (mappedSize read2M) :=
  (meansWhatItSays_iff (sound_blank _) (Or.inl (by norm_num)) (by norm_num) (Or.inl (by decide))
    rfl).mpr ⟨by decide, by decide⟩

/-! ## When something is mapped already -/

/-- **Some address of the page is covered by a leaf.** -/
def Covered (s : Backend) (virt size : ℕ) : Prop :=
  ∃ w, virt ≤ w ∧ w < virt + size ∧ s.trailOf (path w) ≠ none

/-- The slot a new leaf should go to names a table. -/
def NamesTable (s : Backend) (virt : ℕ) (flags : PageFlags) : Prop :=
  ∃ m, s.tableAt ((path virt).take (leafDepth flags)) = some m

/-- **`AlreadyMapped` says that something is mapped**, and success that nothing was. -/
def ReportsMapped (s : Backend) (virt size : ℕ) (r : PagingError) : Prop :=
  (s.Covered virt size → r = .alreadyMapped) ∧ (¬ s.Covered virt size → r = .success)

/-- The addresses of an aligned page begin with its indices. -/
theorem path_take_of_mem (halign : virt % mappedSize flags = 0) (hlow : virt ≤ w)
    (hhigh : w < virt + mappedSize flags) :
    (path w).take (leafDepth flags) = (path virt).take (leafDepth flags) := by
  have h2 := two_le_leafDepth flags
  have h4 := leafDepth_le flags
  rw [mappedSize] at halign hhigh
  generalize leafDepth flags = k at *
  interval_cases k
  · rw [path_take_two, path_take_two, List.cons.injEq, List.cons.injEq, ofNat_index_inj,
      ofNat_index_inj]
    simp only [Nat.shiftRight_eq_div_pow, and_true]
    omega
  · rw [path_take_three, path_take_three, List.cons.injEq, List.cons.injEq, List.cons.injEq,
      ofNat_index_inj, ofNat_index_inj, ofNat_index_inj]
    simp only [Nat.shiftRight_eq_div_pow, and_true]
    omega
  · rw [path_take_four, path_take_four, List.cons.injEq, List.cons.injEq, List.cons.injEq,
      List.cons.injEq, ofNat_index_inj, ofNat_index_inj, ofNat_index_inj, ofNat_index_inj]
    simp only [Nat.shiftRight_eq_div_pow, and_true]
    omega

/-- Aligned to the size of a page is aligned to 4 KiB. -/
theorem page_aligned_of_mappedSize (h : w % mappedSize flags = 0) : w % pageSize = 0 := by
  have hdvd : pageSize ∣ mappedSize flags := by
    rw [mappedSize, Nat.pow_add]
    exact Dvd.intro _ rfl
  exact Nat.mod_eq_zero_of_dvd (hdvd.trans (Nat.dvd_of_mod_eq_zero h))

/-- A table at the slot of the leaf was there before the walk of `map_page`. -/
def SlotKept (s₀ : Backend) (virt : ℕ) (flags : PageFlags) (s : Backend) : Prop :=
  ∀ m, s.tableAt ((path virt).take (leafDepth flags)) = some m →
    s₀.tableAt ((path virt).take (leafDepth flags)) = some m

theorem keptOnWalk_slot (s₀ : Backend) (virt : ℕ) (flags : PageFlags) :
    KeptOnWalk (.tree _) (SlotKept s₀ virt flags) virt flags := by
  intro s s' p n i r hs hkept hp hdepth _ _ hr m hm
  have hle := leafDepth_le flags
  have hlen : p.length < 3 := by omega
  rcases getOrCreate_inv hr with ⟨-, -, rfl⟩ | ⟨habsent, ⟨-, ⟨-, rfl⟩ | ⟨rest, -, rfl⟩⟩ |
    ⟨pa, rest, ha, hpa, -, rfl⟩⟩
  · exact hkept m hm
  · exact hkept m hm
  · exact hkept m hm
  · rcases tableAt_withTable hs hp hlen habsent ha hpa hm with hold | rfl
    · exact hkept m hold
    · -- the new table is at a shorter path
      obtain ⟨hgrows, htable⟩ := @grows_withTable _ _ _ _ _ (flags.has .user) _ _ hs hp hlen habsent
        ha hpa
      have hsame := congrArg List.length (hgrows.sound.separate _ _ _ hm htable)
      rw [List.length_take, length_path, min_eq_left hle, List.length_append,
        List.length_singleton] at hsame
      omega

/-- **`map_page` reports rightly whether something is mapped** exactly if the slot of the page names
no table that maps nothing. -/
theorem reportsMapped_iff (hs : s.Sound (.tree _)) (hvirt : virt % mappedSize flags = 0)
    (hphys : phys % mappedSize flags = 0)
    (hcpu : flags.has .huge1G = true → cpu.hasPdpe1gb = true) {r : PagingError}
    (hr : s.mapPage cpu virt phys flags = (r, s')) (hmemory : r ≠ .outOfMemory) :
    ReportsMapped s virt (mappedSize flags) r ↔
      ¬ (NamesTable s virt flags ∧ ¬ s.Covered virt (mappedSize flags)) := by
  have hpos : 0 < mappedSize flags := Nat.two_pow_pos _
  have hself : s.trailOf (path virt) ≠ none → s.Covered virt (mappedSize flags) := fun hne =>
    ⟨virt, le_rfl, Nat.lt_add_of_pos_right hpos, hne⟩
  rcases mapPage_cases hs (fun m hm => hm) (keptOnWalk_slot s virt flags) hr with
    ⟨hfail, hkept⟩ | ⟨rfl, s₁, p, n, i, hmapped, -, rfl⟩
  · cases hfail with
    | invalidAlignment hne _ =>
      exact absurd ⟨page_aligned_of_mappedSize hvirt, page_aligned_of_mappedSize hphys⟩ hne
    | outOfMemory _ _ => exact absurd rfl hmemory
    | hardwareFault h1G hnone _ => exact absurd (hcpu h1G) (by rw [hnone]; exact Bool.false_ne_true)
    | alreadyMapped p n i hblocked hgrows =>
      have hcases : s.Covered virt (mappedSize flags) ∨ NamesTable s virt flags := by
        cases hview : format.view (3 - p.length) (s'.tables n i) with
        | leaf =>
          refine Or.inl (hself ?_)
          rw [← hgrows.trail]
          exact hblocked.trail_ne_none hview
        | empty =>
          rcases hblocked.entry with hleaf | ⟨hpresent, -⟩
          · exact absurd (hview.symm.trans hleaf) nofun
          · rw [format.view_eq_empty_iff] at hview
            exact absurd (hview.symm.trans hpresent) Bool.false_ne_true
        | table m =>
          rcases hblocked.entry with hleaf | ⟨-, hdepth⟩
          · exact absurd (hview.symm.trans hleaf) nofun
          · refine Or.inr ⟨m, hkept m ?_⟩
            have htake := List.prefix_iff_eq_take.mp hblocked.slotPath
            rw [List.length_append, List.length_singleton, hdepth] at htake
            rw [← htake]
            exact descend_snoc hblocked.table hview
      constructor
      · rintro ⟨-, hsuccess⟩ ⟨-, hbare⟩
        exact absurd (hsuccess hbare) nofun
      · intro hnot
        have hcovered : s.Covered virt (mappedSize flags) :=
          hcases.elim id fun hnames => not_not.mp fun hbare => hnot ⟨hnames, hbare⟩
        exact ⟨fun _ => rfl, fun hbare => absurd hcovered hbare⟩
  · have hbare : ¬ s.Covered virt (mappedSize flags) := by
      rintro ⟨w, hlow, hhigh, hne⟩
      exact hne (hmapped.before (path_take_of_mem hvirt hlow hhigh))
    refine iff_of_true ⟨fun hcovered => absurd hcovered hbare, fun _ => rfl⟩ ?_
    rintro ⟨⟨m, hm⟩, -⟩
    have htable := hmapped.grows.tableAt hm
    rw [← hmapped.slotPath] at htable
    obtain ⟨n', hn', hview⟩ := descend_of_snoc htable
    obtain rfl := Option.some.inj (hmapped.table.symm.trans hn')
    exact hmapped.slot m hview

/-- **Every call keeps the tables separate.** -/
theorem Sound.run {A : Aliasing (Fin 512)} (hs : s.Sound A) (c : Call) :
    (c.run cpu s).2.Sound A := by
  cases c with
  | mapPage virt phys flags =>
    rcases hr : s.mapPage cpu virt phys flags with ⟨r, s'⟩
    rw [Call.run, hr]
    rcases mapPage_cases hs trivial (keptOnWalk_true _ _ _) hr with
      ⟨hfail, -⟩ | ⟨-, s₁, p, n, i, hmapped, -, rfl⟩
    · exact hfail.grows.sound
    · exact hmapped.sound
  | unmapPage virt =>
    rcases hr : s.unmapPage virt with ⟨r, s'⟩
    rw [Call.run, hr]
    rcases unmapPage_cases hr with ⟨-, -, rfl⟩ | ⟨-, ⟨-, -, rfl⟩ | ⟨-, p, n, i, hleaf, rfl⟩⟩
    · exact hs
    · exact hs
    · refine hleaf.sound hs fun m => ?_
      rw [view_absent rfl]
      exact View.empty_ne_table m

/-- **After any calls from an empty PML4**, `map_page` reports rightly whether something is mapped
exactly if the slot of the page names no table that maps nothing. -/
theorem reportsMapped_iff_of_run {s₀ : Backend}
    (hblank : ∀ i, (s₀.tables s₀.kernelPml4Phys i).present = false)
    (hframe : ∀ pa ∈ s₀.allocs, pa ≠ 0 → pa % pageSize = 0 ∧ pa < 2 ^ 52)
    (hroot : s₀.kernelPml4Phys ∉ s₀.allocs) (honce : (s₀.allocs.filter (· ≠ 0)).Nodup)
    (hrun : Relation.ReflTransGen (fun s s' => ∃ c : Call, s' = (c.run cpu s).2) s₀ s)
    (hvirt : virt % mappedSize flags = 0) (hphys : phys % mappedSize flags = 0)
    (hcpu : flags.has .huge1G = true → cpu.hasPdpe1gb = true)
    (hmemory : (s.mapPage cpu virt phys flags).1 ≠ .outOfMemory) :
    ReportsMapped s virt (mappedSize flags) (s.mapPage cpu virt phys flags).1 ↔
      ¬ (NamesTable s virt flags ∧ ¬ s.Covered virt (mappedSize flags)) := by
  have hs : s.Sound (.tree _) := by
    clear hmemory
    induction hrun with
    | refl => exact sound_of_blank hblank hframe hroot honce
    | tail _ hstep ih =>
      obtain ⟨c, rfl⟩ := hstep
      exact ih.run c
  exact reportsMapped_iff hs hvirt hphys hcpu rfl hmemory

/-- A 4 KiB page was mapped and unmapped again. -/
def unmapped : Backend :=
  ((blank.mapPage fullCpu 0x200000 0x600000 .kernelRW).2.unmapPage 0x200000).2

theorem unmapped_trail : ∀ i, unmapped.trailOf [0, 0, 1, i] = none := by decide +kernel

/-- The table of a page that is gone is taken for a mapping. -/
theorem not_reportsMapped_unmapped :
    ¬ ∀ s virt phys flags,
      Relation.ReflTransGen (fun s s' => ∃ c : Call, s' = (c.run fullCpu s).2) blank s →
      virt % mappedSize flags = 0 → phys % mappedSize flags = 0 →
      (s.mapPage fullCpu virt phys flags).1 ≠ .outOfMemory →
      ReportsMapped s virt (mappedSize flags) (s.mapPage fullCpu virt phys flags).1 := by
  intro hall
  have hrun : Relation.ReflTransGen (fun s s' => ∃ c : Call, s' = (c.run fullCpu s).2) blank
      unmapped := .tail (.single ⟨.mapPage 0x200000 0x600000 .kernelRW, rfl⟩)
    ⟨.unmapPage 0x200000, rfl⟩
  have hreports := hall unmapped 0x200000 0x600000 read2M hrun (by decide) (by decide) (by decide)
  have hbare : ¬ unmapped.Covered 0x200000 (mappedSize read2M) := by
    rintro ⟨w, hlow, hhigh, hne⟩
    have htake : (path w).take 3 = [0, 0, 1] := path_take_of_mem (by decide) hlow hhigh
    have hpath : path w = (path w).take 3 ++ [(VirtualAddressFields.decompose w).ptIndex] := rfl
    rw [hpath, htake] at hne
    exact hne (unmapped_trail _)
  exact absurd (hreports.2 hbare) (by decide)

/-- An empty PML4 names no table. -/
theorem reportsMapped_blank :
    ReportsMapped blank 0x200000 (mappedSize read2M)
      (blank.mapPage fullCpu 0x200000 0x600000 read2M).1 := by
  refine (reportsMapped_iff_of_run (fun _ => rfl) (by decide) (by decide) (by decide) .refl
    (by decide) (by decide) (fun _ => rfl) (by decide)).mpr ?_
  rintro ⟨⟨m, hm⟩, -⟩
  have hnone : blank.tableAt ((path 0x200000).take (leafDepth read2M)) = none := by decide
  exact absurd (hnone.symm.trans hm).symm (Option.some_ne_none m)

end Success

end Backend

end Paging

end MioOS
