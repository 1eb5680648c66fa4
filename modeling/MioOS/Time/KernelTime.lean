import Mathlib.Order.Monotone.Basic
import MioOS.Memory.Defs

/-!
# Time/KernelTime — `timekeeping.cpp` over a family of clocks

`KernelTime` keeps an accumulator for the sources it has left and a baseline for the one in use.
A run interleaves registrations and reads at instants of a common time line, on which every source
has a clock; the history beside it records which source was in use when.  `Run.keepsTime`: what
`get_monotonic_ns` returns is the time the sources have advanced while they were in use.
-/

namespace MioOS

/-- The time sources: what `get_ns` of each returns at an instant.  No source goes back. -/
structure Clocks (σ : Type) where
  ns : σ → ℕ → ℕ
  mono : ∀ f, Monotone (ns f)
  lt : ∀ f t, ns f t < 2 ^ 64

/-- A `char signature[4]`, as far as `strcpy` copies it. -/
structure Signature where
  chars : List Char
  fits : chars.length ≤ 4
  deriving DecidableEq

/-- The signature of no source. -/
def Signature.null : Signature := ⟨['N', 'U', 'L', 'L'], le_rfl⟩

/-- `source_timer_t`; `σ` and `δ` are the functions `get_ns_funct` and `delay_us_funct` point to. -/
structure SourceTimer (σ δ : Type) where
  timerHz : ℕ
  getNsFunct : Option σ
  delayUsFunct : Option δ

/-- The static members of `KernelTime` and `accumulated_monotonic_ns`. -/
structure KernelTime (σ δ : Type) where
  sourceTimer : SourceTimer σ δ
  bootWallNs : ℕ
  bootNs : ℕ
  signature : Signature
  accumulatedMonotonicNs : ℕ

/-- The arguments of `KernelTime::initialize`. -/
structure TimerRequest (σ δ : Type) where
  srcHz : ℕ
  getNsFunct : Option σ
  delayUsFunct : Option δ
  signature : Option Signature

/-- The parameters `initialize` accepts. -/
def TimerRequest.Accepted {σ δ : Type} (q : TimerRequest σ δ) : Prop :=
  q.srcHz ≠ 0 ∧ q.getNsFunct.isSome ∧ q.delayUsFunct.isSome

namespace KernelTime

variable {σ δ : Type} {c : Clocks σ} {s s' : KernelTime σ δ} {t t₁ t₂ rtc : ℕ}
  {q : TimerRequest σ δ}

/-- Before the first registration. -/
def initial : KernelTime σ δ := ⟨⟨0, none, none⟩, 0, 0, .null, 0⟩

/-- **`initialize`**.  It reads the old source at `t₁` and the new one at `t₂`; `rtc` is what
`RTC::get_unix_timestamp` would return. -/
def initializeTime (c : Clocks σ) (s : KernelTime σ δ) (t₁ t₂ rtc : ℕ) (q : TimerRequest σ δ) :
    KernelTime σ δ :=
  if q.srcHz = 0 then s
  else match q.getNsFunct, q.delayUsFunct with
  | some f, some d =>
    let s := { s with signature := q.signature.getD .null }
    let s := match s.sourceTimer.getNsFunct with
      | some g =>
        { s with
          accumulatedMonotonicNs :=
            u64 (s.accumulatedMonotonicNs + sub64 (c.ns g t₁) s.bootNs) }
      | none => { s with bootWallNs := u64 (rtc * 1000000000) }
    { s with sourceTimer := ⟨q.srcHz, some f, some d⟩, bootNs := c.ns f t₂ }
  | _, _ => s

/-- **`get_monotonic_ns`**, reading the source at `t`. -/
def getMonotonicNs (c : Clocks σ) (s : KernelTime σ δ) (t : ℕ) : ℕ :=
  match s.sourceTimer.getNsFunct with
  | none => 0
  | some f => u64 (s.accumulatedMonotonicNs + sub64 (c.ns f t) s.bootNs)

/-- **`get_realtime_ns`**. -/
def getRealtimeNs (c : Clocks σ) (s : KernelTime σ δ) (t : ℕ) : ℕ :=
  u64 (s.bootWallNs + s.getMonotonicNs c t)

theorem initializeTime_of_not_accepted (h : ¬ q.Accepted) : s.initializeTime c t₁ t₂ rtc q = s := by
  rw [initializeTime]
  split
  · rfl
  · rename_i hhz
    split
    · rename_i f d hf hd
      exact absurd ⟨hhz, by rw [hf]; rfl, by rw [hd]; rfl⟩ h
    · rfl

/-- The first registration seeds the wall clock. -/
theorem initializeTime_first (c : Clocks σ) (t₁ t₂ rtc : ℕ) (h : q.Accepted) (hs : s.sourceTimer.getNsFunct = none) :
    ∃ f d, s.initializeTime c t₁ t₂ rtc q =
      { sourceTimer := ⟨q.srcHz, some f, some d⟩
        bootWallNs := u64 (rtc * 1000000000)
        bootNs := c.ns f t₂
        signature := q.signature.getD .null
        accumulatedMonotonicNs := s.accumulatedMonotonicNs } ∧ q.getNsFunct = some f := by
  obtain ⟨hhz, hf, hd⟩ := h
  obtain ⟨f, hf⟩ := Option.isSome_iff_exists.mp hf
  obtain ⟨d, hd⟩ := Option.isSome_iff_exists.mp hd
  refine ⟨f, d, ?_, hf⟩
  rw [initializeTime, if_neg hhz, hf, hd]
  simp only [hs]

/-- A later registration accounts for the source it leaves. -/
theorem initializeTime_upgrade (c : Clocks σ) (t₁ t₂ rtc : ℕ) (h : q.Accepted) {g : σ}
    (hs : s.sourceTimer.getNsFunct = some g) :
    ∃ f d, s.initializeTime c t₁ t₂ rtc q =
      { sourceTimer := ⟨q.srcHz, some f, some d⟩
        bootWallNs := s.bootWallNs
        bootNs := c.ns f t₂
        signature := q.signature.getD .null
        accumulatedMonotonicNs :=
          u64 (s.accumulatedMonotonicNs + sub64 (c.ns g t₁) s.bootNs) } ∧
      q.getNsFunct = some f := by
  obtain ⟨hhz, hf, hd⟩ := h
  obtain ⟨f, hf⟩ := Option.isSome_iff_exists.mp hf
  obtain ⟨d, hd⟩ := Option.isSome_iff_exists.mp hd
  refine ⟨f, d, ?_, hf⟩
  rw [initializeTime, if_neg hhz, hf, hd]
  simp only [hs]

/-! ## Histories -/

/-- A source and the instants between which it was in use. -/
structure Stint (σ : Type) where
  source : σ
  start : ℕ
  stop : ℕ

/-- How far the source advanced. -/
def Stint.advance (c : Clocks σ) (p : Stint σ) : ℕ := c.ns p.source p.stop - c.ns p.source p.start

/-- What a read returned, the time the sources in use had advanced by then, and whether one had
been registered. -/
structure Reading where
  monotonic : ℕ
  realtime : ℕ
  elapsed : ℕ
  registered : Bool

/-- What has happened up to `now`: the stints that have ended, the source in use and the instant it
was registered, the seed of the wall clock, and the reads, newest first. -/
structure History (σ : Type) where
  now : ℕ
  ended : List (Stint σ)
  active : Option (σ × ℕ)
  wall : Option ℕ
  reads : List Reading

namespace History

variable {h : History σ}

/-- **The time the sources have advanced while they were in use**, up to the instant `t`. -/
def elapsed (c : Clocks σ) (h : History σ) (t : ℕ) : ℕ :=
  (h.ended.map (Stint.advance c)).sum +
    match h.active with
    | none => 0
    | some (f, start) => c.ns f t - c.ns f start

/-- A source is registered: the one in use until `t₁` ends its stint and the new one is in use from
`t₂`. -/
def register (h : History σ) (t₁ t₂ wall : ℕ) (f : σ) : History σ :=
  { h with
    now := t₂
    ended := (h.active.map fun p => ⟨p.1, p.2, t₁⟩).toList ++ h.ended
    active := some (f, t₂)
    wall := h.wall.or (some wall) }

/-- The clocks are read at `t`. -/
def read (c : Clocks σ) (h : History σ) (t monotonic realtime : ℕ) : History σ :=
  { h with
    now := t
    reads := ⟨monotonic, realtime, h.elapsed c t, h.active.isSome⟩ :: h.reads }

theorem elapsed_mono (h : History σ) {t t' : ℕ} (ht : t ≤ t') : h.elapsed c t ≤ h.elapsed c t' := by
  rw [elapsed, elapsed]
  refine Nat.add_le_add_left ?_ _
  split
  · exact le_rfl
  · exact Nat.sub_le_sub_right (c.mono _ ht) _

/-- A registration loses no time: it counts up to the instant at which the old source was read. -/
theorem elapsed_register (h : History σ) (t₁ t₂ wall : ℕ) (f : σ) :
    (h.register t₁ t₂ wall f).elapsed c t₂ = h.elapsed c t₁ := by
  rw [elapsed, elapsed, register]
  cases h.active with
  | none => simp
  | some p =>
    simp only [Option.map_some, Option.toList_some, List.cons_append, List.nil_append,
      List.map_cons, List.sum_cons, Nat.sub_self, Nat.add_zero, Stint.advance]
    exact Nat.add_comm _ _

end History

/-- **A run** of registrations, accepted or rejected, and reads, at instants that never go back. -/
inductive Run (c : Clocks σ) : KernelTime σ δ → History σ → Prop
  | start : Run c initial ⟨0, [], none, none, []⟩
  | register {s : KernelTime σ δ} {h : History σ} {q : TimerRequest σ δ} {f : σ} (t₁ t₂ rtc : ℕ) :
      Run c s h → h.now ≤ t₁ → t₁ ≤ t₂ → q.Accepted → q.getNsFunct = some f →
      Run c (s.initializeTime c t₁ t₂ rtc q) (h.register t₁ t₂ (u64 (rtc * 1000000000)) f)
  | reject {s : KernelTime σ δ} {h : History σ} {t₁ t₂ rtc : ℕ} {q : TimerRequest σ δ} :
      Run c s h → ¬ q.Accepted → Run c (s.initializeTime c t₁ t₂ rtc q) h
  | read {s : KernelTime σ δ} {h : History σ} {t : ℕ} :
      Run c s h → h.now ≤ t → Run c s (h.read c t (s.getMonotonicNs c t) (s.getRealtimeNs c t))

/-! ## The invariant -/

variable {h : History σ}

/-- What the static members hold after a history: the accumulator counts the ended stints, the
baseline is the active source's clock at its registration, and the wall clock was seeded once. -/
structure Tracks (c : Clocks σ) (s : KernelTime σ δ) (h : History σ) : Prop where
  source : s.sourceTimer.getNsFunct = h.active.map Prod.fst
  baseline : ∀ p ∈ h.active, s.bootNs = c.ns p.1 p.2 ∧ p.2 ≤ h.now
  accumulated : s.accumulatedMonotonicNs = u64 (h.ended.map (Stint.advance c)).sum
  fresh : h.active = none → h.ended = []
  wall : s.bootWallNs = h.wall.getD 0
  seeded : h.wall.isSome = h.active.isSome

/-- What a source has advanced since its registration. -/
theorem Tracks.sub64_eq (hs : Tracks c s h) {f : σ} {a : ℕ} (hact : h.active = some (f, a))
    (ht : h.now ≤ t) : sub64 (c.ns f t) s.bootNs = c.ns f t - c.ns f a := by
  obtain ⟨hboot, hstart⟩ := hs.baseline _ hact
  rw [hboot]
  exact sub64_of_le (c.lt f t) (c.mono f (hstart.trans ht))

/-- The accumulator and what the active source has advanced make up the elapsed time. -/
theorem Tracks.u64_accumulated (hs : Tracks c s h) {n k : ℕ} (hn : n = k) :
    u64 (s.accumulatedMonotonicNs + n) = u64 ((h.ended.map (Stint.advance c)).sum + k) := by
  rw [hn, hs.accumulated, u64_eq, u64_eq, u64_eq, Nat.mod_add_mod]

/-- **A read** returns the elapsed time, truncated to its width. -/
theorem Tracks.getMonotonicNs_eq (hs : Tracks c s h) (ht : h.now ≤ t) :
    s.getMonotonicNs c t = u64 (h.elapsed c t) := by
  cases hact : h.active with
  | none =>
    have hzero : u64 0 = 0 := u64_of_lt (by norm_num)
    simp only [getMonotonicNs, History.elapsed, hs.source, hact, hs.fresh hact, Option.map_none,
      List.map_nil, List.sum_nil, Nat.add_zero, hzero]
  | some p =>
    simp only [getMonotonicNs, History.elapsed, hs.source, hact, Option.map_some]
    exact hs.u64_accumulated (hs.sub64_eq hact ht)

/-- **A registration** keeps track. -/
theorem Tracks.register (hs : Tracks c s h) (h₁ : h.now ≤ t₁) (hq : q.Accepted) {f : σ}
    (hf : q.getNsFunct = some f) :
    Tracks c (s.initializeTime c t₁ t₂ rtc q) (h.register t₁ t₂ (u64 (rtc * 1000000000)) f) := by
  generalize hseed : u64 (rtc * 1000000000) = seed
  cases hact : h.active with
  | none =>
    have hsource : s.sourceTimer.getNsFunct = none := by rw [hs.source, hact]; rfl
    obtain ⟨f', d, heq, hf'⟩ := initializeTime_first c t₁ t₂ rtc hq hsource
    obtain rfl := Option.some.inj (hf.symm.trans hf')
    have hwall : h.wall = none := by
      rw [← Option.not_isSome_iff_eq_none, hs.seeded, hact]
      exact Bool.false_ne_true
    rw [heq, hseed]
    refine ⟨rfl, fun p hp => ?_, ?_, nofun, ?_, ?_⟩
    · obtain rfl := Option.some.inj hp
      exact ⟨rfl, le_rfl⟩
    · have hended : (h.register t₁ t₂ seed f).ended = h.ended := by
        rw [History.register, hact]
        rfl
      rw [hended]
      exact hs.accumulated
    · have hw : (h.register t₁ t₂ seed f).wall = some seed := by
        rw [History.register, hwall]
        rfl
      rw [hw]
      exact (Option.getD_some ..).symm
    · simp [History.register]
  | some p =>
    have hsource : s.sourceTimer.getNsFunct = some p.1 := by rw [hs.source, hact]; rfl
    obtain ⟨f', d, heq, hf'⟩ := initializeTime_upgrade c t₁ t₂ rtc hq hsource
    obtain rfl := Option.some.inj (hf.symm.trans hf')
    obtain ⟨w, hwall⟩ : ∃ w, h.wall = some w :=
      Option.isSome_iff_exists.mp (by rw [hs.seeded, hact]; rfl)
    rw [heq]
    refine ⟨rfl, fun p hp => ?_, ?_, nofun, ?_, ?_⟩
    · obtain rfl := Option.some.inj hp
      exact ⟨rfl, le_rfl⟩
    · refine (hs.u64_accumulated (hs.sub64_eq hact h₁)).trans ?_
      simp [History.register, hact, Stint.advance, Nat.add_comm]
    · simp [History.register, hs.wall, hwall]
    · simp [History.register]

/-- **Every run keeps track** of its history. -/
theorem Run.tracks (hrun : Run c s h) : Tracks c s h := by
  induction hrun with
  | start => exact ⟨rfl, nofun, by simp [initial, u64_eq], fun _ => rfl, rfl, rfl⟩
  | register t₁ t₂ rtc hrun h₁ h₂ hq hf ih => exact ih.register h₁ hq hf
  | reject hrun hq ih =>
    rw [initializeTime_of_not_accepted hq]
    exact ih
  | @read s h t hrun ht ih =>
    exact ⟨ih.source, fun p hp => ⟨(ih.baseline p hp).1, (ih.baseline p hp).2.trans ht⟩,
      ih.accumulated, ih.fresh, ih.wall, ih.seeded⟩

/-! ## What the reads return -/

/-- **Monotonic time survives the upgrades**: each read returned the time the sources had advanced
while they were in use, no read returned less than an earlier one, wall-clock time is that value
plus the one seed of the wall clock, and a rejected registration changes nothing. -/
structure KeepsTime (c : Clocks σ) (s : KernelTime σ δ) (h : History σ) : Prop where
  elapsed : ∀ r ∈ h.reads, r.monotonic = r.elapsed
  sorted : h.reads.Pairwise fun r r' => r'.monotonic ≤ r.monotonic
  realtime : ∀ r ∈ h.reads,
    r.realtime = u64 ((if r.registered then h.wall.getD 0 else 0) + r.monotonic)
  rejected : ∀ (q : TimerRequest σ δ) (t₁ t₂ rtc : ℕ), ¬ q.Accepted →
    s.initializeTime c t₁ t₂ rtc q = s

/-- The elapsed times the reads recorded grow up to the present. -/
theorem Run.elapsed_le (hrun : Run c s h) :
    (∀ r ∈ h.reads, r.elapsed ≤ h.elapsed c h.now) ∧
      h.reads.Pairwise fun r r' => r'.elapsed ≤ r.elapsed := by
  induction hrun with
  | start => exact ⟨nofun, List.Pairwise.nil⟩
  | @register s h q f t₁ t₂ rtc hrun h₁ h₂ hq hf ih =>
    refine ⟨fun r hr => ?_, ih.2⟩
    calc r.elapsed ≤ h.elapsed c h.now := ih.1 r hr
      _ ≤ h.elapsed c t₁ := h.elapsed_mono h₁
      _ = _ := (h.elapsed_register t₁ t₂ _ f).symm
  | reject hrun hq ih => exact ih
  | @read s h t hrun ht ih =>
    have hle (r) (hr : r ∈ h.reads) : r.elapsed ≤ h.elapsed c t :=
      (ih.1 r hr).trans (h.elapsed_mono ht)
    refine ⟨fun r hr => ?_, List.pairwise_cons.mpr ⟨hle, ih.2⟩⟩
    rcases List.mem_cons.mp hr with rfl | hr
    · exact le_rfl
    · exact hle r hr

/-- **What each read returned**, before any bound on the time that has passed. -/
theorem Run.reads_eq (hrun : Run c s h) :
    (∀ r ∈ h.reads, r.monotonic = u64 r.elapsed) ∧
      ∀ r ∈ h.reads,
        r.realtime = u64 ((if r.registered then h.wall.getD 0 else 0) + r.monotonic) ∧
          (r.registered = true → h.wall.isSome) := by
  induction hrun with
  | start => exact ⟨nofun, nofun⟩
  | @register s h q f t₁ t₂ rtc hrun h₁ h₂ hq hf ih =>
    refine ⟨ih.1, fun r hr => ?_⟩
    obtain ⟨hreal, hsome⟩ := ih.2 r hr
    refine ⟨hreal.trans ?_, fun _ => by simp [History.register]⟩
    cases hreg : r.registered with
    | false => rfl
    | true =>
      obtain ⟨w, hw⟩ := Option.isSome_iff_exists.mp (hsome hreg)
      simp [History.register, hw]
  | reject hrun hq ih => exact ih
  | @read s h t hrun ht ih =>
    have hs := hrun.tracks
    refine ⟨fun r hr => ?_, fun r hr => ?_⟩
    · rcases List.mem_cons.mp hr with rfl | hr
      · exact hs.getMonotonicNs_eq ht
      · exact ih.1 r hr
    · rcases List.mem_cons.mp hr with rfl | hr
      · refine ⟨?_, fun hreg => hs.seeded.trans hreg⟩
        have hwall : s.bootWallNs = if h.active.isSome then h.wall.getD 0 else 0 := by
          rw [hs.wall, ← hs.seeded]
          cases h.wall <;> rfl
        exact congrArg (fun w => u64 (w + s.getMonotonicNs c t)) hwall
      · exact ih.2 r hr

/-- **Every run keeps time**, as long as less than `2 ^ 64` ns have passed. -/
theorem Run.keepsTime (hrun : Run c s h) (hlt : h.elapsed c h.now < 2 ^ 64) :
    KeepsTime c s h := by
  obtain ⟨hle, hsorted⟩ := hrun.elapsed_le
  obtain ⟨hmono, hreal⟩ := hrun.reads_eq
  have helapsed (r) (hr : r ∈ h.reads) : r.monotonic = r.elapsed :=
    (hmono r hr).trans (u64_of_lt ((hle r hr).trans_lt hlt))
  refine ⟨helapsed, ?_, fun r hr => (hreal r hr).1, fun q t₁ t₂ rtc hq =>
    initializeTime_of_not_accepted hq⟩
  refine hsorted.imp_of_mem fun {r r'} hr hr' hrr' => ?_
  rw [helapsed r hr, helapsed r' hr']
  exact hrr'

/-! ## A PIT and then a TSC -/

/-- Two sources: one counts from 0, one was at 500 when the machine started. -/
def pitAndTsc : Clocks Bool where
  ns f t := if f then min (500 + 2 * t) (2 ^ 64 - 1) else min t (2 ^ 64 - 1)
  mono f t t' htt' := by
    cases f <;> simp only [Bool.false_eq_true, if_false, if_true] <;> omega
  lt f t := by
    cases f <;> simp only [Bool.false_eq_true, if_false, if_true] <;> omega

/-- A request for one of them. -/
def request (f : Bool) : TimerRequest Bool Unit := ⟨1000, some f, some (), none⟩

theorem accepted_request (f : Bool) : (request f).Accepted :=
  ⟨Nat.succ_ne_zero _, rfl, rfl⟩

theorem keepsTime_pitAndTsc : ∃ (s : KernelTime Bool Unit) (h : History Bool),
    h.reads.map Reading.monotonic = [45, 10] ∧ KeepsTime pitAndTsc s h := by
  have hpit := (@Run.start _ Unit pitAndTsc).register 5 5 7 (by decide) le_rfl
    (accepted_request false) rfl
  have hread := hpit.read (t := 15) (by decide)
  have htsc := hread.register 20 21 8 (by decide) (by decide)
    (accepted_request true) rfl
  have hlast := htsc.read (t := 36) (by decide)
  exact ⟨_, _, by decide +kernel, hlast.keepsTime (by decide +kernel)⟩

end KernelTime

end MioOS
