import MioOS.Paging.Refinement

/-!
# Paging/Rights — the access rights of a mapping

The processor derives the rights of an address from every entry of its walk.  `map_page` puts the
requested rights into the leaf only; an entry that names a table gets its user bit from the mapping
that made the table, and keeps it for all later ones.
-/

namespace MioOS

namespace Paging

open Radix

/-- What an access may do. -/
structure Rights where
  user : Bool
  writable : Bool
  executable : Bool
  deriving DecidableEq, Repr

/-- The rights along a walk, as the processor derives them. -/
def rightsOf (es : List PageTableEntry) : Rights where
  user := es.all fun e => e.user
  writable := es.all fun e => e.writable
  executable := es.all fun e => !e.noExecute

/-- The rights asked for. -/
def requested (flags : PageFlags) : Rights where
  user := flags.has .user
  writable := flags.has .write
  executable := flags.has .execute

namespace Backend

variable {A : Aliasing (Fin 512)} {s s' s₀ : Backend} {cpu : CpuFeatures} {flags : PageFlags}
  {n m virt phys : ℕ} {i j : Fin 512} {p q : List (Fin 512)} {user : Bool}

/-- The rights of an address. -/
def rights (s : Backend) (virt : ℕ) : Option Rights := (s.trailOf (path virt)).map rightsOf

/-! ## What the entries that name tables keep -/

/-- A property of every entry that names a table, by the path to it. -/
def EachTable (Q : List (Fin 512) → PageTableEntry → Prop) (s : Backend) : Prop :=
  ∀ q m j t, s.tableAt q = some m → format.view (3 - q.length) (s.tables m j) = .table t →
    Q (q ++ [j]) (s.tables m j)

variable {Q : List (Fin 512) → PageTableEntry → Prop}

/-- Writing an entry that names no table keeps it. -/
theorem EachTable.setEntry (h : EachTable Q s) (hs : s.Sound A) (hp : s.tableAt p = some n)
    (hslot : ∀ m, format.view (3 - p.length) (s.tables n i) ≠ .table m) {e : PageTableEntry}
    (he : ∀ m, format.view (3 - p.length) e ≠ .table m) : EachTable Q (s.setEntry n i e) := by
  intro q m j t hq hview
  have hold : s.tableAt q = some m := descend_of_write hs.separate hp hslot he hq
  rw [setEntry_tables] at hview ⊢
  by_cases hmj : m = n ∧ j = i
  · obtain ⟨rfl, rfl⟩ := hmj
    rw [write_same, A.length_eq (hs.separate q p m hold hp)] at hview
    exact absurd hview (he t)
  · rw [write_of_ne hmj] at hview ⊢
    exact h q m j t hold hview

/-- A new table keeps it, when its own entry has the property. -/
theorem EachTable.withTable (h : EachTable Q s) (hs : s.Sound A) (hp : s.tableAt p = some n)
    (hlen : p.length < 3) (habsent : (s.tables n i).present = false) {pa : ℕ} {rest : List ℕ}
    (ha : s.allocs = pa :: rest) (hpa : pa ≠ 0)
    (hQ : ∀ q, s.tableAt q = some n → Q (q ++ [i]) (.makeTable pa user)) :
    EachTable Q (s.withTable n i user pa rest) := by
  intro q m j t hq hview
  rcases tableAt_withTable hs hp hlen habsent ha hpa hq with hold | rfl
  · have hm : m ≠ pa := fun heq => hs.fresh pa (ha ▸ List.mem_cons_self) hpa q (heq ▸ hold)
    by_cases hmj : m = n ∧ j = i
    · obtain ⟨rfl, rfl⟩ := hmj
      rw [withTable_same]
      exact hQ q hold
    · rw [withTable_of_ne hmj hm] at hview ⊢
      exact h q m j t hold hview
  · have hne : n ≠ m := fun heq => hs.fresh m (ha ▸ List.mem_cons_self) hpa p (heq ▸ hp)
    rw [withTable_new hne, view_absent rfl] at hview
    exact absurd hview (View.empty_ne_table _)

/-- Getting or making a table keeps it, when a table made there has the property. -/
theorem EachTable.getOrCreate (h : EachTable Q s) (hs : s.Sound A) (hp : s.tableAt p = some n)
    (hlen : p.length < 3) (hQ : ∀ q pa, s.tableAt q = some n → Q (q ++ [i]) (.makeTable pa user))
    {r : Option ℕ} (hr : s.getOrCreateSubtable n i user = (r, s')) : EachTable Q s' := by
  rcases getOrCreate_inv hr with ⟨-, -, rfl⟩ | ⟨habsent, ⟨-, ⟨-, rfl⟩ | ⟨rest, -, rfl⟩⟩ |
    ⟨pa, rest, ha, hpa, -, rfl⟩⟩
  · exact h
  · exact h
  · exact h
  · exact h.withTable hs hp hlen habsent ha hpa fun q hq => hQ q pa hq

/-- **Tables grant everything but the user bit.** -/
def TablesOpen (s : Backend) : Prop :=
  EachTable (fun _ e => e.writable = true ∧ e.noExecute = false) s

/-- **The tables on the walk of an address have the user bit.** -/
def UserPath (virt : ℕ) (s : Backend) : Prop :=
  EachTable (fun q e => q <+: path virt → e.user = true) s

/-- What `map_page` needs of the tables and keeps while it walks. -/
def Ready (virt : ℕ) (user : Bool) (s : Backend) : Prop :=
  s.TablesOpen ∧ (user = true → s.UserPath virt)

theorem keptOnWalk_ready (A : Aliasing (Fin 512)) (virt : ℕ) (flags : PageFlags) :
    KeptOnWalk A (Ready virt (flags.has .user)) virt flags := by
  intro s s' p n i r hs hready hp hdepth _ _ hr
  have hlen : p.length < 3 := by
    have hle := leafDepth_le flags
    omega
  refine ⟨hready.1.getOrCreate hs hp hlen (fun _ _ _ => ⟨rfl, rfl⟩) hr, fun huser => ?_⟩
  exact (hready.2 huser).getOrCreate hs hp hlen (fun _ _ _ _ => huser) hr

/-! ## The rights of a new mapping -/

/-- A leaf of 4 KiB has the rights asked for. -/
theorem leaf_bits (hnx : cpu.hasNx = true) :
    (leafEntry cpu (.makePage phys flags)).user = flags.has .user ∧
      (leafEntry cpu (.makePage phys flags)).writable = flags.has .write ∧
      (!(leafEntry cpu (.makePage phys flags)).noExecute) = flags.has .execute := by
  rw [leafEntry, hnx, Bool.not_true, if_neg Bool.false_ne_true]
  exact ⟨rfl, rfl, Bool.not_not _⟩

/-- **Tables that grant everything leave the rights to the leaf.** -/
theorem rightsOf_append {es : List PageTableEntry} {e : PageTableEntry}
    (hopen : ∀ x ∈ es, x.writable = true ∧ x.noExecute = false)
    (huser : e.user = true → ∀ x ∈ es, x.user = true) :
    rightsOf (es ++ [e]) = ⟨e.user, e.writable, !e.noExecute⟩ := by
  have hw : es.all (fun x => x.writable) = true :=
    List.all_eq_true.mpr fun x hx => (hopen x hx).1
  have hx : es.all (fun x => !x.noExecute) = true :=
    List.all_eq_true.mpr fun x hx => by rw [(hopen x hx).2, Bool.not_false]
  rw [rightsOf, List.all_append, List.all_append, List.all_append, hw, hx, Bool.true_and,
    Bool.true_and]
  simp only [List.all_cons, List.all_nil, Bool.and_true]
  congr 1
  cases hu : e.user with
  | false => rw [Bool.and_false]
  | true => rw [Bool.and_true, List.all_eq_true.mpr (huser hu)]

/-- The entries on the way to a table. -/
theorem EachTable.mem_spine (h : EachTable Q s) (hp : s.tableAt p = some n) {e : PageTableEntry}
    (he : e ∈ spine format s.tables 3 s.kernelPml4Phys p) : ∃ q, q <+: p ∧ Q q e := by
  obtain ⟨q, m, j, t, hq, hm, rfl, hview⟩ := Radix.mem_spine hp he
  exact ⟨q ++ [j], hq, h q m j t hm hview⟩

/-- **A successful `map_page` grants exactly the rights asked for.** -/
theorem Mapped.rights {s₁ : Backend} (h : Mapped A cpu s virt phys flags s₁ p n i)
    (hready : s₁.Ready virt (flags.has .user)) (hnx : cpu.hasNx = true)
    (h2M : flags.has .huge2M = false) (h1G : flags.has .huge1G = false) :
    ∃ es, (s₁.setEntry n i (leafEntry cpu (leafOf phys flags))).trailOf (path virt) = some es ∧
      es.length = 4 ∧ rightsOf es = requested flags := by
  refine ⟨_, h.after rfl, ?_, ?_⟩
  · rw [List.length_append, length_spine h.table, List.length_singleton, h.length,
      leafDepth_small h2M h1G]
  · obtain ⟨huser, hwritable, hexecutable⟩ := @leaf_bits _ flags phys hnx
    have hprefix : p <+: path virt := by
      have htake := List.take_prefix (leafDepth flags) (path virt)
      rw [← h.slotPath] at htake
      exact (List.prefix_append p [i]).trans htake
    rw [leafOf_small h2M h1G, rightsOf_append, huser, hwritable, hexecutable, requested]
    · intro x hx
      obtain ⟨q, -, hbits⟩ := hready.1.mem_spine h.table hx
      exact hbits
    · intro hleaf x hx
      obtain ⟨q, hq, hbits⟩ := (hready.2 (huser.symm.trans hleaf)).mem_spine h.table hx
      exact hbits (hq.trans hprefix)

/-! ## Runs -/

/-- A call that writes page tables. -/
inductive Op
  | mapPage (virt phys : ℕ) (flags : PageFlags)
  | unmapPage (virt : ℕ)
  | protectPage (virt : ℕ) (newFlags : PageFlags)

/-- Running a call. -/
def Op.run (cpu : CpuFeatures) (s : Backend) : Op → PagingError × Backend
  | mapPage virt phys flags => s.mapPage cpu virt phys flags
  | unmapPage virt => s.unmapPage virt
  | protectPage virt newFlags => s.protectPage cpu virt newFlags

/-- A mapping of 4 KiB that was granted. -/
structure Grant where
  virt : ℕ
  flags : PageFlags
  deriving DecidableEq

/-- The page of an address is given up. -/
def withdraw (virt : ℕ) (live : List Grant) : List Grant :=
  live.filter fun g => path g.virt ≠ path virt

/-- **The mappings that stand after a call**: a successful `map_page` without huge flags adds one,
and one goes when its page is unmapped or protected. -/
def Op.live (r : PagingError) (live : List Grant) : Op → List Grant
  | mapPage virt _ flags =>
    if r = .success ∧ flags.has .huge2M = false ∧ flags.has .huge1G = false then
      ⟨virt, flags⟩ :: live
    else live
  | unmapPage virt | protectPage virt _ => if r = .success then withdraw virt live else live

/-- **The calls that keep the rights**: a 4 KiB mapping for user mode finds no table without the
user bit on its walk, and no protected address lies in a huge page. -/
def Careful (s : Backend) : Op → Prop
  | .mapPage virt _ flags =>
    flags.has .huge2M = false → flags.has .huge1G = false → flags.has .user = true →
      s.UserPath virt
  | .unmapPage _ => True
  | .protectPage virt _ => ∀ es, s.trailOf (path virt) = some es → es.length = 4

/-- **Runs** of calls that meet a condition, with the mappings that stand. -/
inductive Run (cpu : CpuFeatures) (ok : Backend → Op → Prop) (s₀ : Backend) :
    Backend → List Grant → Prop
  | start : Run cpu ok s₀ s₀ []
  | step {s s' : Backend} {live : List Grant} {op : Op} {r : PagingError} :
    Run cpu ok s₀ s live → ok s op → op.run cpu s = (r, s') → Run cpu ok s₀ s' (op.live r live)

/-- **A mapping has the rights it was asked for.** -/
def Granted (s : Backend) (g : Grant) : Prop :=
  ∃ es, s.trailOf (path g.virt) = some es ∧ es.length = 4 ∧ rightsOf es = requested g.flags

/-- What runs keep. -/
structure Kept (s : Backend) (live : List Grant) : Prop where
  sound : s.Sound (.tree _)
  tablesOpen : s.TablesOpen
  granted : ∀ g ∈ live, s.Granted g

variable {live : List Grant} {r : PagingError}

theorem Granted.rights {g : Grant} (h : s.Granted g) :
    s.rights g.virt = some (requested g.flags) := by
  obtain ⟨es, hes, -, hrights⟩ := h
  rw [Backend.rights, hes, Option.map_some, hrights]

/-- A mapping with the same walk has the same rights. -/
theorem Granted.of_trail {g : Grant} (h : s.Granted g)
    (heq : ∀ es, s.trailOf (path g.virt) = some es → s'.trailOf (path g.virt) = some es) :
    s'.Granted g := by
  obtain ⟨es, hes, hrest⟩ := h
  exact ⟨es, heq es hes, hrest⟩

/-- Whatever the flags, a walk makes tables that grant everything but the user bit. -/
theorem keptOnWalk_tablesOpen (A : Aliasing (Fin 512)) (virt : ℕ) (flags : PageFlags) :
    KeptOnWalk A TablesOpen virt flags := by
  intro s s' p n i r hs hopen hp hdepth _ _ hr
  have hlen : p.length < 3 := by
    have hle := leafDepth_le flags
    omega
  exact hopen.getOrCreate hs hp hlen (fun _ _ _ => ⟨rfl, rfl⟩) hr

theorem Mapped.tablesOpen {s₁ : Backend} (h : Mapped A cpu s virt phys flags s₁ p n i)
    (hopen : s₁.TablesOpen) :
    (s₁.setEntry n i (leafEntry cpu (leafOf phys flags))).TablesOpen :=
  hopen.setEntry h.grows.sound h.table h.slot fun m => by
    rw [h.view]
    exact View.leaf_ne_table m

/-- A failed `map_page` keeps every mapping. -/
theorem MapFailure.keeps_granted {g : Grant} (h : MapFailure A cpu s virt phys flags s' r)
    (hg : s.Granted g) : s'.Granted g :=
  hg.of_trail fun _ hes => (h.grows.trail _).trans hes

/-- **`map_page` keeps the invariant.** -/
theorem Kept.mapPage (h : s.Kept live) (hnx : cpu.hasNx = true)
    (hok : s.Careful (.mapPage virt phys flags))
    (hr : s.mapPage cpu virt phys flags = (r, s')) :
    s'.Kept ((Op.mapPage virt phys flags).live r live) := by
  by_cases hsmall : flags.has .huge2M = false ∧ flags.has .huge1G = false
  · obtain ⟨h2M, h1G⟩ := hsmall
    rcases mapPage_cases h.sound ⟨h.tablesOpen, hok h2M h1G⟩ (keptOnWalk_ready _ _ _) hr with
      ⟨hfail, hready⟩ | ⟨rfl, s₁, p, n, i, hmapped, hready, rfl⟩
    · rw [Op.live, if_neg fun hand => hfail.ne_success hand.1]
      exact ⟨hfail.grows.sound, hready.1, fun g hg => hfail.keeps_granted (h.granted g hg)⟩
    · rw [Op.live, if_pos ⟨rfl, h2M, h1G⟩]
      refine ⟨hmapped.sound, hmapped.tablesOpen hready.1, fun g hg => ?_⟩
      rcases List.mem_cons.mp hg with rfl | hold
      · exact hmapped.rights hready hnx h2M h1G
      · exact (h.granted g hold).of_trail fun _ => hmapped.keeps_trail
  · have hlive : (Op.mapPage virt phys flags).live r live = live := by
      rw [Op.live, if_neg fun hand => hsmall hand.2]
    rw [hlive]
    rcases mapPage_cases h.sound h.tablesOpen (keptOnWalk_tablesOpen _ _ _) hr with
      ⟨hfail, hopen⟩ | ⟨-, s₁, p, n, i, hmapped, hopen, rfl⟩
    · exact ⟨hfail.grows.sound, hopen, fun g hg => hfail.keeps_granted (h.granted g hg)⟩
    · exact ⟨hmapped.sound, hmapped.tablesOpen hopen,
        fun g hg => (h.granted g hg).of_trail fun _ => hmapped.keeps_trail⟩

/-- **Writing the leaf of an address** disturbs no mapping of another page. -/
theorem LeafAt.keeps_granted (hs : s.Sound (.tree _)) (h : LeafAt s virt p n i) {g : Grant}
    (hg : s.Granted g) (hne : path g.virt ≠ path virt) {e : PageTableEntry} :
    (s.setEntry n i e).Granted g := by
  refine hg.of_trail fun _ hes => (h.frame hs fun hrel => ?_).trans hes
  -- a leaf on both walks ends both of them, and a leaf of 4 KiB is named by all four indices
  obtain ⟨es', hes', hlen, -⟩ := hg
  rw [h.trail hrel, Option.some.injEq] at hes'
  rw [← hes', h.length_spine] at hlen
  rw [hlen, List.take_of_length_le (by rw [length_path]),
    List.take_of_length_le (by rw [length_path])] at hrel
  exact hne hrel

theorem mem_withdraw {g : Grant} : g ∈ withdraw virt live ↔ g ∈ live ∧ path g.virt ≠ path virt := by
  rw [withdraw, List.mem_filter, decide_eq_true_iff]

/-- Writing the leaf of an address that is given up keeps the invariant. -/
theorem Kept.setLeaf (h : s.Kept live) (hleaf : LeafAt s virt p n i) {e : PageTableEntry}
    (he : ∀ m, format.view (3 - p.length) e ≠ .table m) :
    (s.setEntry n i e).Kept (withdraw virt live) := by
  refine ⟨hleaf.sound h.sound he, h.tablesOpen.setEntry h.sound hleaf.table hleaf.slot he, ?_⟩
  intro g hg
  obtain ⟨hmem, hne⟩ := mem_withdraw.mp hg
  exact hleaf.keeps_granted h.sound (h.granted g hmem) hne

theorem Kept.unmapPage (h : s.Kept live) (hr : s.unmapPage virt = (r, s')) :
    s'.Kept ((Op.unmapPage virt).live r live) := by
  rcases unmapPage_cases hr with ⟨rfl, -, rfl⟩ | ⟨-, ⟨rfl, -, rfl⟩ | ⟨rfl, p, n, i, hleaf, rfl⟩⟩
  · exact h
  · exact h
  · refine h.setLeaf hleaf fun m => ?_
    rw [view_absent rfl]
    exact View.empty_ne_table m

theorem Kept.protectPage (h : s.Kept live) (hok : s.Careful (.protectPage virt flags))
    (hr : s.protectPage cpu virt flags = (r, s')) :
    s'.Kept ((Op.protectPage virt flags).live r live) := by
  rcases protectPage_cases hr with ⟨hne, rfl⟩ | ⟨rfl, p, n, i, hleaf, ⟨hlen, rfl⟩ | hlt⟩
  · rw [Op.live, if_neg hne]
    exact h
  · refine h.setLeaf hleaf fun m => ?_
    rw [hlen, view_leafEntry, view_leaf rfl (Or.inl rfl)]
    exact View.leaf_ne_table m
  · have hlen := hok _ (hleaf.trail rfl)
    rw [hleaf.length_spine] at hlen
    omega

/-- **One careful call keeps the invariant.** -/
theorem Kept.run (h : s.Kept live) (hnx : cpu.hasNx = true) {op : Op} (hok : s.Careful op)
    (hr : op.run cpu s = (r, s')) : s'.Kept (op.live r live) := by
  cases op with
  | mapPage virt phys flags => exact h.mapPage hnx hok hr
  | unmapPage virt => exact h.unmapPage hr
  | protectPage virt newFlags => exact h.protectPage hok hr

/-- An empty PML4 names no table. -/
theorem eachTable_of_blank (hblank : ∀ i, (s.tables s.kernelPml4Phys i).present = false) :
    EachTable Q s := by
  intro q m j t hq hview
  rw [(descend_blank hblank hq).2, view_absent (hblank j)] at hview
  exact absurd hview (View.empty_ne_table _)

/-- **In a careful run every mapping that stands has the rights it was asked for.** -/
theorem Run.rights_eq_requested (hnx : cpu.hasNx = true)
    (hblank : ∀ i, (s₀.tables s₀.kernelPml4Phys i).present = false)
    (hframe : ∀ pa ∈ s₀.allocs, pa ≠ 0 → pa % pageSize = 0 ∧ pa < 2 ^ 52)
    (hroot : s₀.kernelPml4Phys ∉ s₀.allocs) (honce : (s₀.allocs.filter (· ≠ 0)).Nodup)
    (hrun : Run cpu Careful s₀ s live) :
    ∀ g ∈ live, s.rights g.virt = some (requested g.flags) := by
  have hkept : s.Kept live := by
    induction hrun with
    | start =>
      exact ⟨sound_of_blank hblank hframe hroot honce, eachTable_of_blank hblank,
        fun g hg => absurd hg List.not_mem_nil⟩
    | step _ hok hr ih => exact ih.run hnx hok hr
  exact fun g hg => (hkept.granted g hg).rights

/-! ## A table shared by a kernel page and a user page -/

/-- The tables made for a kernel page have no user bit, and a user page among them keeps them. -/
theorem not_rights_kernelTable :
    ¬ ∀ s live, Run fullCpu (fun _ _ => True) blank s live →
      ∀ g ∈ live, s.rights g.virt = some (requested g.flags) := by
  intro hall
  have hkernel : Run fullCpu (fun _ _ => True) blank
      (blank.mapPage fullCpu 0x1000 0x200000 .kernelRW).2 [⟨0x1000, .kernelRW⟩] :=
    Run.start.step trivial (rfl : Op.run fullCpu _ (.mapPage 0x1000 0x200000 .kernelRW) = _)
  have huser := hkernel.step trivial
    (rfl : Op.run fullCpu _ (.mapPage 0x2000 0x201000 .userRW) = _)
  exact absurd (hall _ _ huser ⟨0x2000, .userRW⟩ (by decide)) (by decide)

/-- A user page whose tables are new has its rights. -/
theorem rights_userTable :
    (blank.mapPage fullCpu 0x2000 0x201000 .userRW).2.rights 0x2000
      = some (requested .userRW) := by
  have hcareful : blank.Careful (.mapPage 0x2000 0x201000 .userRW) := fun _ _ _ =>
    eachTable_of_blank fun _ => rfl
  exact Run.rights_eq_requested rfl (fun _ => rfl) (by decide) (by decide) (by decide)
    (Run.start.step hcareful rfl) ⟨0x2000, .userRW⟩ (by decide)

end Backend

end Paging

end MioOS
