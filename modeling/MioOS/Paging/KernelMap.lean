import MioOS.Paging.Hhdm
import MioOS.Paging.Huge

/-!
# Paging/KernelMap — `uacpi_kernel_map`

uACPI asks for a physical range and gets its HHDM address; the pages of the range are mapped on the
way, and `AlreadyMapped` is taken for success.  The pointer addresses the range if every page was
mapped there or nowhere, and no two pages of the range share a leaf.
-/

namespace MioOS

namespace Paging

open Radix

namespace Backend

/-- The loop of `uacpi_kernel_map` from page `i` on, for `n` pages: whether it came to its end. -/
def mapPages (cpu : CpuFeatures) (virtAligned physAligned : ℕ) (s : Backend) (i : ℕ) :
    ℕ → Bool × Backend
  | 0 => (true, s)
  | n + 1 =>
    match s.mapPage cpu (u64 (virtAligned + i * 0x1000)) (u64 (physAligned + i * 0x1000)) .mmio with
    | (err, s) =>
      if err ≠ .success ∧ err ≠ .alreadyMapped then (false, s)
      else mapPages cpu virtAligned physAligned s (i + 1) n

/-- How many pages `uacpi_kernel_map` maps. -/
def numPages (addr len : ℕ) : ℕ :=
  let offset := sub64 addr (alignDown addr pageSize)
  u64 (len + offset + 0xFFF) / 0x1000

/-- The pointer to a physical address once `n` pages from its own on are mapped, 0 standing for
null. -/
def mapPhysical (s : Backend) (cpu : CpuFeatures) (addr n : ℕ) : ℕ × Backend :=
  let virtBase := u64 (addr + hhdmBase)
  let physAligned := alignDown addr pageSize
  let virtAligned := alignDown virtBase pageSize
  match mapPages cpu virtAligned physAligned s 0 n with
  | (true, s) => (virtBase, s)
  | (false, s) => (0, s)

/-- **`uacpi_kernel_map`**. -/
def uacpiKernelMap (cpu : CpuFeatures) (s : Backend) (addr len : ℕ) : ℕ × Backend :=
  s.mapPhysical cpu addr (numPages addr len)

open BootTables (bootAliasing canon)

variable {s s' : Backend} {cpu : CpuFeatures} {b : BootTables}
  {memory : ℕ → Fin 512 → PageTableEntry} {allocs : List ℕ} {mmap : MemoryMap}
  {addr len n i p q : ℕ}

/-- The pages of a physical range. -/
def rangePages (addr len : ℕ) : Set ℕ := {p | ∃ i < len, p = (addr + i) / pageSize * pageSize}

/-- **The range can be mapped**: each of its pages is mapped to itself or not at all, and no two of
them share a leaf. -/
structure RangeClear (s : Backend) (addr len : ℕ) : Prop where
  direct : ∀ p ∈ rangePages addr len, s.trailOf (path (hhdmBase + p)) = none ∨ s.Direct p
  apart : ∀ p ∈ rangePages addr len, ∀ q ∈ rangePages addr len,
    canon (path (hhdmBase + p)) = canon (path (hhdmBase + q)) → p = q

/-! ## The loop -/

/-- The pages of a loop. -/
theorem mapPages_induction {I : Backend → Prop}
    (hstep : ∀ s virt phys, I s → I (s.mapPage cpu virt phys .mmio).2) (hs : I s) (v p i n : ℕ) :
    I (mapPages cpu v p s i n).2 := by
  induction n generalizing s i with
  | zero => exact hs
  | succ n ih =>
    have hnext := hstep s (u64 (v + i * 0x1000)) (u64 (p + i * 0x1000)) hs
    rw [mapPages]
    rcases hr : s.mapPage cpu (u64 (v + i * 0x1000)) (u64 (p + i * 0x1000)) .mmio with ⟨err, s'⟩
    rw [hr] at hnext
    simp only
    split
    · exact hnext
    · exact ih hnext _

/-- What is left behind is what the loop does. -/
theorem mapPhysical_eq (cpu : CpuFeatures) (s : Backend) (addr n : ℕ) :
    ∃ v, v = alignDown (u64 (addr + hhdmBase)) pageSize ∧
      (s.mapPhysical cpu addr n).2 = (mapPages cpu v (alignDown addr pageSize) s 0 n).2 ∧
      ((s.mapPhysical cpu addr n).1 ≠ 0 →
        (s.mapPhysical cpu addr n).1 = u64 (addr + hhdmBase) ∧
          (mapPages cpu v (alignDown addr pageSize) s 0 n).1 = true) := by
  refine ⟨_, rfl, ?_⟩
  rw [mapPhysical]
  generalize alignDown (u64 (addr + hhdmBase)) pageSize = v
  generalize alignDown addr pageSize = p
  rcases mapPages cpu v p s 0 n with ⟨ok, s'⟩
  cases ok with
  | false => exact ⟨rfl, fun hne => absurd rfl hne⟩
  | true => exact ⟨rfl, fun _ => ⟨rfl, rfl⟩⟩

theorem Shares.mapPhysical (h : s.Shares b) (addr n : ℕ) :
    (s.mapPhysical cpu addr n).2.Shares b := by
  obtain ⟨v, -, heq, -⟩ := mapPhysical_eq cpu s addr n
  rw [heq]
  exact mapPages_induction (fun _ _ _ hs => Shares.mapPage hs rfl) h v _ 0 n

theorem Shares.uacpiKernelMap (h : s.Shares b) (addr len : ℕ) :
    (uacpiKernelMap cpu s addr len).2.Shares b := h.mapPhysical addr _

/-- A page that is mapped stays as it is. -/
theorem keeps_trail_of_mapPage {A : Aliasing (Fin 512)} (hs : s.Sound A) {virt phys : ℕ}
    {flags : PageFlags} {v : List (Fin 512)} {es : List PageTableEntry}
    (hes : s.trailOf v = some es) :
    (s.mapPage cpu virt phys flags).2.Sound A ∧
      (s.mapPage cpu virt phys flags).2.trailOf v = some es := by
  rcases hr : s.mapPage cpu virt phys flags with ⟨r, s'⟩
  rcases mapPage_cases hs trivial (keptOnWalk_true _ _ _) hr with
    ⟨hfail, -⟩ | ⟨-, s₁, path', n, i, hmapped, -, rfl⟩
  · exact ⟨hfail.grows.sound, (hfail.grows.trail v).trans hes⟩
  · exact ⟨hmapped.sound, hmapped.keeps_trail hes⟩

theorem keeps_trail_of_mapPages {A : Aliasing (Fin 512)} (hs : s.Sound A) {v : List (Fin 512)}
    {es : List PageTableEntry} (hes : s.trailOf v = some es) (virt phys i n : ℕ) :
    (mapPages cpu virt phys s i n).2.Sound A ∧
      (mapPages cpu virt phys s i n).2.trailOf v = some es :=
  mapPages_induction (I := fun s => s.Sound A ∧ s.trailOf v = some es)
    (fun _ _ _ hs => keeps_trail_of_mapPage hs.1 hs.2) ⟨hs, hes⟩ virt phys i n

/-- **One page of the range.** -/
theorem RangeClear.step (hclear : s.RangeClear addr len) (hs : s.Shares b)
    (hp : p ∈ rangePages addr len) (hlt : p < 2 ^ 47) {r : PagingError}
    (hr : s.mapPage cpu (hhdmBase + p) p .mmio = (r, s')) :
    s'.RangeClear addr len ∧
      (r = .success ∨ r = .alreadyMapped → s'.trailOf (path (hhdmBase + p)) ≠ none) := by
  rcases mapPage_cases hs.sound trivial (keptOnWalk_true _ _ _) hr with
    ⟨hfail, -⟩ | ⟨-, s₁, path', n, i, hmapped, -, rfl⟩
  · have htrail := hfail.grows.trail
    refine ⟨⟨fun q hq => ?_, hclear.apart⟩, fun hok => ?_⟩
    · rw [htrail]
      exact (hclear.direct q hq).imp id fun hdirect => hdirect.congr (htrail _)
    · cases hfail with
      | invalidAlignment _ _ => exact absurd hok (by rintro (hok | hok) <;> nomatch hok)
      | outOfMemory _ _ => exact absurd hok (by rintro (hok | hok) <;> nomatch hok)
      | alreadyMapped q n i hblocked _ => exact hblocked.mapped rfl
      | hardwareFault h1G _ _ => exact absurd h1G (by decide)
  · refine ⟨⟨fun q hq => ?_, hclear.apart⟩, fun _ => ?_⟩
    · by_cases hrel : canon (path (hhdmBase + q)) = canon (path (hhdmBase + p))
      · obtain rfl := hclear.apart q hq p hp hrel
        exact Or.inr (hmapped.direct rfl rfl hlt)
      · have htrail := hmapped.frame (v := path (hhdmBase + q)) hrel
        rw [htrail]
        exact (hclear.direct q hq).imp id fun hdirect => hdirect.congr htrail
    · rw [hmapped.after rfl]
      exact Option.some_ne_none _

/-- **The loop over a clear range** maps every page to itself. -/
theorem RangeClear.mapPages (hclear : s.RangeClear addr len) (hs : s.Shares b)
    (hpages : ∀ k < n, q + (i + k) * pageSize ∈ rangePages addr len ∧
      q + (i + k) * pageSize < 2 ^ 47)
    (hok : (mapPages cpu (hhdmBase + q) q s i n).1 = true) :
    ∀ k < n, (Backend.mapPages cpu (hhdmBase + q) q s i n).2.Direct (q + (i + k) * pageSize) := by
  induction n generalizing s i with
  | zero => exact fun k hk => absurd hk (Nat.not_lt_zero k)
  | succ n ih =>
    obtain ⟨hmem, hlt⟩ := hpages 0 (Nat.succ_pos n)
    rw [Nat.add_zero] at hmem hlt
    have hvirt : u64 (hhdmBase + q + i * 0x1000) = hhdmBase + (q + i * pageSize) := by
      rw [pageSize] at hlt ⊢
      rw [hhdmBase, u64_of_lt (by omega)]
      omega
    have hphys : u64 (q + i * 0x1000) = q + i * pageSize := by
      rw [pageSize] at hlt ⊢
      exact u64_of_lt (by omega)
    rw [Backend.mapPages, hvirt, hphys] at hok ⊢
    rcases hr : s.mapPage cpu (hhdmBase + (q + i * pageSize)) (q + i * pageSize) .mmio with ⟨r, s₁⟩
    rw [hr] at hok
    simp only at hok ⊢
    obtain ⟨hclear₁, htrail⟩ := hclear.step hs hmem hlt hr
    have hs₁ : s₁.Shares b := hs.mapPage hr
    split at hok
    · exact absurd hok Bool.false_ne_true
    · rename_i hfine
      rw [if_neg hfine]
      have hpages₁ : ∀ k < n, q + (i + 1 + k) * pageSize ∈ rangePages addr len ∧
          q + (i + 1 + k) * pageSize < 2 ^ 47 := by
        intro k hk
        rw [Nat.add_assoc i, Nat.add_comm 1]
        exact hpages (k + 1) (Nat.succ_lt_succ hk)
      intro k hk
      cases k with
      | succ k =>
        rw [Nat.add_comm k, ← Nat.add_assoc]
        exact ih hclear₁ hs₁ hpages₁ hok k (Nat.lt_of_succ_lt_succ hk)
      | zero =>
        have hne := htrail <| by
          rw [not_and_or, not_not, not_not] at hfine
          exact hfine
        obtain ⟨es, hes⟩ := Option.ne_none_iff_exists'.mp hne
        have hkept := (@keeps_trail_of_mapPages _ cpu _ hs₁.sound _ _ hes (hhdmBase + q) q (i + 1)
          n).2
        rw [Nat.add_zero]
        refine (hclear₁.direct _ hmem).elim (fun hnone => absurd hnone hne) fun hdirect => ?_
        exact hdirect.congr (hkept.trans hes.symm)

/-! ## When the pointer addresses the range -/

/-- **The pointer addresses the range.** -/
def Addresses (s : Backend) (r addr len : ℕ) : Prop := ∀ i < len, s.translate (r + i) = addr + i

/-- Inside a page, translation adds the offset. -/
theorem addressOf_add {w k : ℕ} (es : List PageTableEntry) (halign : w % pageSize = 0)
    (hk : k < pageSize) : addressOf es (w + k) = addressOf es w + k := by
  rw [pageSize] at halign hk
  rw [addressOf, addressOf]
  obtain ⟨m, hm⟩ : ∃ m, 12 + 9 * (4 - es.length) = 12 + m := ⟨_, rfl⟩
  rw [hm]
  have hbase := address_mod (es.getLastD {})
  generalize (es.getLastD {}).physicalAddress = a at hbase
  have hmod : (w + k) % 2 ^ (12 + m) = w % 2 ^ (12 + m) + k := by
    obtain ⟨c, rfl⟩ := Nat.dvd_of_mod_eq_zero halign
    rw [Nat.pow_add, show (4096 : ℕ) = 2 ^ 12 from rfl, Nat.mul_mod_mul_left,
      Nat.mod_mul, Nat.mul_add_div (Nat.two_pow_pos 12), Nat.mul_add_mod,
      Nat.div_eq_of_lt hk, Nat.mod_eq_of_lt (show k < 2 ^ 12 from hk), Nat.add_zero,
      Nat.add_comm]
  have hw : w % 2 ^ (12 + m) % 2 ^ 12 = 0 := by
    rw [Nat.mod_mod_of_dvd w (Nat.pow_dvd_pow 2 (Nat.le_add_right 12 m))]
    exact halign
  rw [hmod]
  generalize w % 2 ^ (12 + m) = x at hw
  have hor : (a ||| x) % 2 ^ 12 = 0 := by
    rw [Nat.or_mod_two_pow, hbase, hw, Nat.or_zero]
  rw [← or_eq_add hw hk, ← Nat.or_assoc, or_eq_add hor hk]

/-- **Pages that share a leaf are translated alike.** -/
theorem Shares.translate_of_canon (h : s.Shares b) (hp : p < 2 ^ 47) (hq : q < 2 ^ 47)
    (hpa : p % pageSize = 0) (hqa : q % pageSize = 0)
    (hcanon : canon (path (hhdmBase + p)) = canon (path (hhdmBase + q))) {k : ℕ}
    (hk : k < pageSize) : s.translate (hhdmBase + p + k) = s.translate (hhdmBase + q + k) := by
  have hpath : ∀ x, x % pageSize = 0 → path (hhdmBase + x + k) = path (hhdmBase + x) := fun x hx =>
    path_add_offset (hhdm_aligned hx) hk
  have happart : ∀ x, x + aliasDistance < 2 ^ 47 → x % pageSize = 0 →
      s.translate (hhdmBase + (x + aliasDistance) + k) = s.translate (hhdmBase + x + k) := by
    intro x hx hxa
    obtain ⟨rest, hpath₁, hpath₂⟩ := path_apart hx
    have hxa' : (x + aliasDistance) % pageSize = 0 := by
      rw [pageSize] at hxa ⊢
      rw [aliasDistance]
      omega
    refine h.translate_alias (Or.inl rfl) (Or.inr rfl) ((hpath x hxa).trans hpath₁)
      ((hpath _ hxa').trans hpath₂) ?_
    rw [aliasDistance]
    omega
  have hdirectory : (Misled p ∨ p < 2 ^ 30) → (Misled q ∨ q < 2 ^ 30) →
      s.translate (hhdmBase + p + k) = s.translate (hhdmBase + q + k) := by
    intro hinp hinq
    obtain ⟨i, j, hi, hj, hpath₁⟩ := directory_path hp hinp
    obtain ⟨i', j', hi', hj', hpath₂⟩ := directory_path hq hinq
    rw [hpath₁, hpath₂] at hcanon
    obtain ⟨-, htail⟩ := List.cons.inj hcanon
    obtain ⟨-, hrest⟩ := List.cons.inj htail
    refine translate_congr (p := [i', j']) (q := [i, j]) (h.directory i' j' hi' hj')
      (h.directory i j hi hj) rfl ((hpath q hqa).trans hpath₂) ?_ ?_
    · rw [hpath p hpa, hpath₁, hrest]
      rfl
    · obtain ⟨hpd, hlast⟩ := List.cons.inj hrest
      have hpt := (List.cons.inj hlast).1
      rw [ofNat_index_inj] at hpd hpt
      rw [pageSize] at hpa hqa
      rw [hhdmBase]
      show (0xFFFF800000000000 + p + k) % 2 ^ 30 = (0xFFFF800000000000 + q + k) % 2 ^ 30
      omega
  rcases eq_or_apart_of_rel hq hp hqa hpa hcanon with rfl | heq | heq | hinp
  · rfl
  · rw [← heq]
    exact (happart p (heq ▸ hq) hpa).symm
  · rw [← heq]
    exact happart q (heq ▸ hp) hqa
  · rcases eq_or_apart_of_rel hp hq hpa hqa hcanon.symm with rfl | heq | heq | hinq
    · rfl
    · rw [← heq]
      exact happart q (heq ▸ hp) hqa
    · rw [← heq]
      exact (happart p (heq ▸ hq) hpa).symm
    · exact hdirectory hinp hinq

/-- The page of a byte of the range and its offset. -/
theorem mem_rangePages {i : ℕ} (hi : i < len) :
    (addr + i) / pageSize * pageSize ∈ rangePages addr len ∧ (addr + i) % pageSize < pageSize ∧
      (addr + i) / pageSize * pageSize + (addr + i) % pageSize = addr + i :=
  ⟨⟨i, hi, rfl⟩, Nat.mod_lt _ (by rw [pageSize]; norm_num), Nat.div_add_mod' _ _⟩

/-- The empty range. -/
theorem addresses_nil (h : len = 0) {r : ℕ} : Addresses s r addr len := fun i hi =>
  absurd hi (by omega)

theorem rangeClear_nil (h : len = 0) : s.RangeClear addr len :=
  ⟨fun _ ⟨i, hi, _⟩ => absurd hi (by omega), fun _ ⟨i, hi, _⟩ => absurd hi (by omega)⟩

theorem rangePages_bound (hend : addr + len ≤ 2 ^ 47) (hp : p ∈ rangePages addr len) :
    p < 2 ^ 47 ∧ p % pageSize = 0 := by
  obtain ⟨i, hi, rfl⟩ := hp
  have hle := Nat.div_mul_le_self (addr + i) pageSize
  exact ⟨by omega, Nat.mul_mod_left _ _⟩

theorem hhdm_byte (addr i : ℕ) : hhdmBase + addr + i
    = hhdmBase + (addr + i) / pageSize * pageSize + (addr + i) % pageSize := by
  rw [Nat.add_assoc, Nat.add_assoc, Nat.div_add_mod']

theorem numPages_eq (hend : addr + len ≤ 2 ^ 47) :
    numPages addr len = (len + addr % pageSize + 4095) / pageSize := by
  have hoff : sub64 addr (addr / pageSize * pageSize) = addr % pageSize := by
    rw [sub64_of_le (by omega) (Nat.div_mul_le_self _ _)]
    have hsplit := Nat.div_add_mod' addr pageSize
    omega
  have hmod := Nat.mod_lt addr (show 0 < pageSize by rw [pageSize]; norm_num)
  rw [pageSize] at hmod
  rw [numPages, alignDown_page (by omega), hoff, pageSize, u64_of_lt (by omega)]

/-- The pages that `uacpi_kernel_map` maps are those of the range. -/
theorem page_mem_rangePages (hend : addr + len ≤ 2 ^ 47) (hpos : 0 < len)
    (hn : n < numPages addr len) : addr / pageSize * pageSize + n * pageSize ∈ rangePages addr len := by
  rw [numPages_eq hend] at hn
  rw [pageSize] at hn ⊢
  refine ⟨max addr (addr / 4096 * 4096 + n * 4096) - addr, by omega, ?_⟩
  rw [pageSize]
  omega

/-- **What `uacpi_kernel_map` returns**: the pointer is the HHDM address, if it is not null. -/
theorem uacpiKernelMap_eq (hend : addr + len ≤ 2 ^ 47) (hpos : 0 < len)
    (hn : numPages addr len = n) (hne : (Backend.uacpiKernelMap cpu s addr len).1 ≠ 0) :
    (mapPages cpu (hhdmBase + addr / pageSize * pageSize) (addr / pageSize * pageSize) s 0 n).1 = true ∧
    Backend.uacpiKernelMap cpu s addr len = (hhdmBase + addr,
      (mapPages cpu (hhdmBase + addr / pageSize * pageSize) (addr / pageSize * pageSize) s 0 n).2) := by
  rw [Backend.uacpiKernelMap, hn] at hne ⊢
  obtain ⟨v, hv, hstate, hpointer⟩ := mapPhysical_eq cpu s addr n
  obtain ⟨hr, hok⟩ := hpointer hne
  have hbase : u64 (addr + hhdmBase) = hhdmBase + addr := by
    rw [hhdmBase, u64_of_lt (by omega), Nat.add_comm]
  have hvirt : v = hhdmBase + addr / pageSize * pageSize := by
    rw [hv, hbase, alignDown_page (by rw [hhdmBase]; omega), hhdmBase, pageSize]
    omega
  rw [alignDown_page (by omega), hvirt] at hstate hok
  exact ⟨hok, Prod.ext (hr.trans hbase) hstate⟩

/-- **Pages that share a leaf cannot both be addressed.** -/
theorem Addresses.page_inj (h : s.Shares b) (haddresses : Addresses s (hhdmBase + addr) addr len)
    (hend : addr + len ≤ 2 ^ 47) (hp : p ∈ rangePages addr len) (hq : q ∈ rangePages addr len)
    (hcanon : canon (path (hhdmBase + p)) = canon (path (hhdmBase + q))) : p = q := by
  obtain ⟨hplt, hpa⟩ := rangePages_bound hend hp
  obtain ⟨hqlt, hqa⟩ := rangePages_bound hend hq
  obtain ⟨i, hi, rfl⟩ := hp
  obtain ⟨j, hj, rfl⟩ := hq
  obtain ⟨-, hk, hsum⟩ := @mem_rangePages addr _ _ hi
  obtain ⟨-, hk', hsum'⟩ := @mem_rangePages addr _ _ hj
  have hvalue := haddresses i hi
  have hvalue' := haddresses j hj
  rw [hhdm_byte] at hvalue hvalue'
  rw [h.translate_of_canon hplt hqlt hpa hqa hcanon hk] at hvalue
  cases htrail : s.trailOf (path (hhdmBase + (addr + j) / pageSize * pageSize)) with
  | none =>
    have hzero : ∀ k < pageSize,
        s.translate (hhdmBase + (addr + j) / pageSize * pageSize + k) = 0 := fun k hk => by
      rw [translate_eq, path_add_offset (hhdm_aligned hqa) hk, htrail]
      rfl
    rw [hzero _ hk] at hvalue
    rw [hzero _ hk'] at hvalue'
    omega
  | some es =>
    rw [translate_page hqa htrail hk, addressOf_add es (hhdm_aligned hqa) hk] at hvalue
    rw [translate_page hqa htrail hk', addressOf_add es (hhdm_aligned hqa) hk'] at hvalue'
    omega

/-- **What is addressed was clear**: mappings of before are still there. -/
theorem Addresses.rangeClear {s₁ : Backend} (h : s₁.Shares b)
    (haddresses : Addresses s₁ (hhdmBase + addr) addr len) (hend : addr + len ≤ 2 ^ 47)
    (hkept : ∀ v es, s.trailOf v = some es → s₁.trailOf v = some es) : s.RangeClear addr len := by
  refine ⟨fun p hp => or_iff_not_imp_left.mpr fun hsome => ?_,
    fun p hp q hq hcanon => haddresses.page_inj h hend hp hq hcanon⟩
  obtain ⟨-, halign⟩ := rangePages_bound hend hp
  obtain ⟨i, hi, rfl⟩ := hp
  obtain ⟨-, hk, hsum⟩ := @mem_rangePages addr _ _ hi
  obtain ⟨es, hes⟩ := Option.ne_none_iff_exists'.mp hsome
  have hvalue := haddresses i hi
  rw [hhdm_byte, translate_page halign (hkept _ es hes) hk,
    addressOf_add es (hhdm_aligned halign) hk] at hvalue
  refine ⟨es, hes, fun k' hk' => ?_⟩
  rw [addressOf_add es (hhdm_aligned halign) hk']
  omega

/-- **A clear range is addressed** once its pages are mapped. -/
theorem RangeClear.addresses (hclear : s.RangeClear addr len) (h : s.Shares b)
    (hend : addr + len ≤ 2 ^ 47) (hn : numPages addr len = n)
    (hok : (Backend.mapPages cpu (hhdmBase + addr / pageSize * pageSize) (addr / pageSize * pageSize)
      s 0 n).1 = true) :
    Addresses (Backend.mapPages cpu (hhdmBase + addr / pageSize * pageSize)
      (addr / pageSize * pageSize) s 0 n).2 (hhdmBase + addr) addr len := by
  intro i hi
  obtain ⟨hmem, hk, hsum⟩ := @mem_rangePages addr _ _ hi
  obtain ⟨-, halign⟩ := rangePages_bound hend hmem
  have hpages : ∀ k < n,
      addr / pageSize * pageSize + (0 + k) * pageSize ∈ rangePages addr len ∧
        addr / pageSize * pageSize + (0 + k) * pageSize < 2 ^ 47 := fun k hk => by
    rw [Nat.zero_add]
    have hin := page_mem_rangePages hend (Nat.zero_lt_of_lt hi) (hn ▸ hk)
    exact ⟨hin, (rangePages_bound hend hin).1⟩
  have hdirect := hclear.mapPages h hpages hok ((addr + i) / pageSize - addr / pageSize) <| by
    rw [← hn, numPages_eq hend, pageSize]
    omega
  have hpage : addr / pageSize * pageSize
      + (0 + ((addr + i) / pageSize - addr / pageSize)) * pageSize
      = (addr + i) / pageSize * pageSize := by
    rw [pageSize]
    omega
  rw [hpage] at hdirect
  obtain ⟨es, hes, haddress⟩ := hdirect
  rw [hhdm_byte, translate_page halign hes hk, haddress _ hk, hsum]

/-- **The pointer of `uacpi_kernel_map` addresses the range** exactly if the range was clear. -/
theorem Shares.addresses_iff (h : s.Shares b) (hend : addr + len ≤ 2 ^ 47)
    (hne : (Backend.uacpiKernelMap cpu s addr len).1 ≠ 0) :
    Addresses (Backend.uacpiKernelMap cpu s addr len).2
        (Backend.uacpiKernelMap cpu s addr len).1 addr len ↔
      s.RangeClear addr len := by
  rcases Nat.eq_zero_or_pos len with hzero | hpos
  · exact iff_of_true (addresses_nil hzero) (rangeClear_nil hzero)
  obtain ⟨n, hn⟩ : ∃ n, numPages addr len = n := ⟨_, rfl⟩
  obtain ⟨hok, heq⟩ := uacpiKernelMap_eq hend hpos hn hne
  have h' := @Shares.uacpiKernelMap _ cpu _ h addr len
  rw [heq] at h' ⊢
  refine ⟨fun haddresses => haddresses.rangeClear h' hend fun v es hes => ?_,
    fun hclear => hclear.addresses h hend hn hok⟩
  exact (keeps_trail_of_mapPages h.sound hes _ _ 0 _).2

/-- **One call between `initialize` and a request of uACPI.** -/
def MapStep (cpu : CpuFeatures) (s s' : Backend) : Prop :=
  (∃ addr len, s' = (uacpiKernelMap cpu s addr len).2) ∨
    (∃ virt, s' = (s.unmapPage virt).2) ∨
      ∃ p flags, flags.has .huge2M = false ∧ flags.has .huge1G = false ∧
        s' = (s.mapPage cpu (u64 (hhdmBase + p)) p flags).2

/-- **In every state of the kernel** the pointer of `uacpi_kernel_map` addresses the range exactly if
the range is clear. -/
theorem addresses_iff_rangeClear (hsupply : b.Supply allocs)
    (hrun : Relation.ReflTransGen (MapStep cpu)
      (initializePaging cpu b.p4Table mmap (b.loaded memory allocs)) s)
    (hend : addr + len ≤ 2 ^ 47) (hne : (uacpiKernelMap cpu s addr len).1 ≠ 0) :
    Addresses (uacpiKernelMap cpu s addr len).2 (uacpiKernelMap cpu s addr len).1 addr len ↔
      s.RangeClear addr len := by
  have hs : s.Shares b := by
    clear hne
    induction hrun with
    | refl =>
      exact initializePaging_induction (fun s virt phys hs => hs.mapPage rfl)
        (shares_adopted hsupply memory) mmap
    | tail _ hstep ih =>
      rcases hstep with ⟨addr, len, rfl⟩ | ⟨virt, rfl⟩ | ⟨p, flags, -, -, rfl⟩
      · exact ih.uacpiKernelMap addr len
      · exact ih.unmapPage rfl
      · exact ih.mapPage rfl
  exact hs.addresses_iff hend hne

/-! ## A device at 510 GiB and one below 4 GiB -/

/-- The pointer for 510 GiB addresses the first page of memory. -/
theorem not_addresses_510 :
    ¬ ∀ s addr len, Relation.ReflTransGen (MapStep fullCpu) started s → addr + len ≤ 2 ^ 47 →
      (uacpiKernelMap fullCpu s addr len).1 ≠ 0 →
      Addresses (uacpiKernelMap fullCpu s addr len).2 (uacpiKernelMap fullCpu s addr len).1 addr
        len := by
  intro hall
  have haddresses := hall started 0x7F80000000 1 .refl (by norm_num) (by decide +kernel)
  exact absurd (haddresses 0 Nat.one_pos) (by decide +kernel)

/-- The registers of the local APIC. -/
theorem addresses_localApic :
    Addresses (uacpiKernelMap fullCpu started 0xFEE00000 16).2
      (uacpiKernelMap fullCpu started 0xFEE00000 16).1 0xFEE00000 16 := by
  have hpage : ∀ p ∈ rangePages 0xFEE00000 16, p = 0xFEE00000 := by
    rintro p ⟨i, hi, rfl⟩
    rw [pageSize]
    omega
  refine (addresses_iff_rangeClear supply_started .refl (by norm_num) (by decide +kernel)).mpr
    ⟨fun p hp => Or.inl ?_, fun p hp q hq _ => (hpage p hp).trans (hpage q hq).symm⟩
  rw [hpage p hp]
  decide +kernel

end Backend

end Paging

end MioOS
