import MioOS.Time.Pit

/-!
# Time/Sources — the counters of the PIT, the HPET and the TSC

Each source turns its counter into nanoseconds and waits for its counter to advance, with arithmetic
of its own: a product that is divided afterwards, a frequency divided beforehand, and the 128-bit
multiplication of `math.cpp`.  A delay is a loop over successive reads of the counter, which goes on
counting past its 64 bits.
-/

namespace MioOS

/-! ## `math.cpp` -/

/-- `mul_div_u64_raw`: `mulq` and `divq`, which faults when the quotient does not fit. -/
def mulDivU64Raw (a b c : ℕ) : Option ℕ :=
  if c = 0 ∨ 2 ^ 64 ≤ a * b / c then none else some (a * b / c)

/-- **`mul_div_u64`**. -/
def mulDivU64 (a b c : ℕ) : Option ℕ :=
  if c = 0 then none
  else
    let q := a / c
    let r := a % c
    (mulDivU64Raw r b c).map fun x => u64 (u64 (q * b) + x)

/-! ## The sources -/

/-- `MICROSCND_IN_SECOND`. -/
def microscndInSecond : ℕ := 1000000

/-- `FS_IN_SECOND`. -/
def fsInSecond : ℕ := 1000000000000000

/-- A loop that reads a counter until `done`, from its read number `i` on: the number of its last
read. -/
def poll (done : ℕ → Bool) (reads : ℕ → ℕ) : ℕ → ℕ → Option ℕ
  | 0, _ => none
  | fuel + 1, i => if done (reads i) then some i else poll done reads fuel (i + 1)

namespace Pit

/-- **`PIT::get_ns`**. -/
def getNs (p : Pit) : ℕ := u64 (p.ticks * 1000000000) / defaultFreq

/-- **`PIT::delay_us`**, reading `ticks`. -/
def delayUs (p : Pit) (us : ℕ) (reads : ℕ → ℕ) (fuel : ℕ) : Option ℕ :=
  if !p.initialized then some 0
  else
    let targetTicks := u64 (reads 0 + u64 (us * defaultFreq) / 1000000)
    poll (fun ticks => targetTicks ≤ ticks) reads fuel 1

end Pit

/-- The static members of `HPET` that time is read with. -/
structure Hpet where
  initialized : Bool
  hpetFrequency : UInt32

namespace Hpet

/-- The tick period in femtoseconds, the high half of the general capabilities. -/
def tickPeriod (generalCaps : ℕ) : ℕ := generalCaps / 2 ^ 32 % 2 ^ 32

/-- How `HPET::initialize` finds the frequency. -/
def frequencyOf (generalCaps : ℕ) : Option UInt32 :=
  if tickPeriod generalCaps = 0 ∨ 0x5F5E100 < tickPeriod generalCaps then none
  else some (UInt32.ofNat (fsInSecond / tickPeriod generalCaps))

/-- **`HPET::get_ticks`**, when the main counter holds `counter`. -/
def getTicks (h : Hpet) (counter : ℕ) : ℕ := if !h.initialized then 0 else counter

/-- **`HPET::get_ns`**. -/
def getNs (h : Hpet) (counter : ℕ) : ℕ :=
  if h.hpetFrequency = 0 then 0
  else u64 (h.getTicks counter * 1000000000) / h.hpetFrequency.toNat

/-- **`HPET::delay_us`**. -/
def delayUs (h : Hpet) (us : ℕ) (reads : ℕ → ℕ) (fuel : ℕ) : Option ℕ :=
  if !h.initialized then some 0
  else
    let targetTicks := u64 (h.getTicks (reads 0) +
      u64 (us * (h.hpetFrequency.toNat / microscndInSecond)))
    poll (fun counter => targetTicks ≤ h.getTicks counter) reads fuel 1

end Hpet

/-- The static members of `TSC`. -/
structure Tsc where
  tscHz : ℕ
  calibrated : Bool

namespace Tsc

/-- **`TSC::get_ns`**. -/
def getNs (s : Tsc) (rdtsc : ℕ) : Option ℕ :=
  if s.tscHz = 0 ∨ !s.calibrated then some 0 else mulDivU64 rdtsc 1000000000 s.tscHz

/-- **`TSC::delay_us`**. -/
def delayUs (s : Tsc) (microseconds : ℕ) (reads : ℕ → ℕ) (fuel : ℕ) : Option ℕ :=
  if s.tscHz = 0 ∨ !s.calibrated then some 0
  else
    let start := reads 0
    (mulDivU64 microseconds s.tscHz 1000000).bind fun ticksToWait =>
      poll (fun rdtsc => ticksToWait ≤ sub64 rdtsc start) reads fuel 1

end Tsc

/-- A source in working order. -/
inductive Timer
  | pit
  | hpet (hpetFrequency : UInt32)
  | tsc (tscHz : ℕ)

namespace Timer

/-- The frequency the source goes by. -/
def hz : Timer → ℕ
  | pit => defaultFreq
  | hpet hpetFrequency => hpetFrequency.toNat
  | tsc tscHz => tscHz

/-- `get_ns`, when the counter holds `t`. -/
def getNs : Timer → ℕ → Option ℕ
  | pit, t => some (Pit.getNs ⟨t, 0, true⟩)
  | hpet hpetFrequency, t => some (Hpet.getNs ⟨true, hpetFrequency⟩ t)
  | tsc tscHz, t => Tsc.getNs ⟨tscHz, true⟩ t

/-- `delay_us`, when successive reads of the counter return `reads`. -/
def delayUs : Timer → ℕ → (ℕ → ℕ) → ℕ → Option ℕ
  | pit, us => Pit.delayUs ⟨0, 0, true⟩ us
  | hpet hpetFrequency, us => Hpet.delayUs ⟨true, hpetFrequency⟩ us
  | tsc tscHz, us => Tsc.delayUs ⟨tscHz, true⟩ us

end Timer

/-! ## Nanoseconds -/

/-- **The split of `mul_div_u64`**: the multiplier's quotient and remainder are divided apart. -/
theorem mul_div_split (a b : ℕ) {c : ℕ} (hc : 0 < c) : a * b / c = a / c * b + a % c * b / c := by
  calc a * b / c = ((c * (a / c) + a % c) * b) / c := by rw [Nat.div_add_mod]
    _ = (c * (a / c * b) + a % c * b) / c := by rw [Nat.add_mul, Nat.mul_assoc]
    _ = a / c * b + a % c * b / c := by rw [Nat.mul_add_div hc]

theorem mulDivU64Raw_of_lt {a b c : ℕ} (hc : 0 < c) (h : a * b / c < 2 ^ 64) :
    mulDivU64Raw a b c = some (a * b / c) := if_neg (not_or.mpr ⟨hc.ne', not_le.mpr h⟩)

/-- **A reduced multiplier keeps the quotient small**: it is at most the other factor. -/
theorem mod_mul_div_le (a b : ℕ) {c : ℕ} (hc : 0 < c) : a % c * b / c ≤ b := by
  have hr : a % c * b ≤ c * b := Nat.mul_le_mul_right b (Nat.mod_lt a hc).le
  calc a % c * b / c ≤ c * b / c := Nat.div_le_div_right hr
    _ = b := Nat.mul_div_cancel_left b hc

/-- The two parts add up, modulo the word. -/
theorem mulDivU64_of_raw {a b c : ℕ} (hc : 0 < c) (hraw : a % c * b / c < 2 ^ 64) :
    mulDivU64 a b c = some (u64 (a * b / c)) := by
  rw [mulDivU64, if_neg hc.ne']
  dsimp only
  rw [mulDivU64Raw_of_lt hc hraw, Option.map_some, mul_div_split a b hc]
  simp only [u64_eq, Nat.mod_add_mod]

/-- **`mul_div_u64` never faults and is exact**, modulo the word and hence outright when the quotient
fits. -/
theorem mulDivU64_exact (a b c : UInt64) (hc : c ≠ 0) :
    (mulDivU64Raw (a.toNat % c.toNat) b.toNat c.toNat).isSome ∧
      mulDivU64 a.toNat b.toNat c.toNat = some (u64 (a.toNat * b.toNat / c.toNat)) ∧
      (a.toNat * b.toNat / c.toNat < 2 ^ 64 →
        mulDivU64 a.toNat b.toNat c.toNat = some (a.toNat * b.toNat / c.toNat)) := by
  have hpos : 0 < c.toNat := Nat.pos_of_ne_zero fun h => hc (UInt64.toNat_inj.mp h)
  have hraw : a.toNat % c.toNat * b.toNat / c.toNat < 2 ^ 64 :=
    (mod_mul_div_le a.toNat b.toNat hpos).trans_lt b.toNat_lt
  have heq := mulDivU64_of_raw hpos hraw
  refine ⟨?_, heq, fun hfit => ?_⟩
  · rw [mulDivU64Raw_of_lt hpos hraw]
    rfl
  · rw [heq, u64_of_lt hfit]

/-- The largest product there is, divided by the largest divisor. -/
theorem mulDivU64_exact_max : mulDivU64 (2 ^ 64 - 1) (2 ^ 64 - 1) (2 ^ 64 - 1) = some (2 ^ 64 - 1) :=
  (mulDivU64_exact (-1) (-1) (-1) (by decide)).2.2 (by decide)

/-- `mul_div_u64` where the quotient fits. -/
theorem mulDivU64_eq {a b c : ℕ} (hc : 0 < c) (h : a * b / c < 2 ^ 64) :
    mulDivU64 a b c = some (a * b / c) := by
  have hraw : a % c * b / c < 2 ^ 64 :=
    (Nat.le_add_left ..).trans_lt (mul_div_split a b hc ▸ h)
  rw [mulDivU64_of_raw hc hraw, u64_of_lt h]

/-- **A truncated product divides like the product** exactly when nothing was truncated. -/
theorem u64_div_eq_iff {n c : ℕ} (hc : 0 < c) (hlt : c ≤ 2 ^ 64) : u64 n / c = n / c ↔ n < 2 ^ 64 := by
  constructor
  · intro h
    by_contra hn
    have hge : u64 n + c ≤ n := by
      rw [u64_eq]
      have := Nat.mod_add_div n (2 ^ 64)
      have hdiv : 1 ≤ n / 2 ^ 64 := Nat.div_pos (not_lt.mp hn) (by norm_num)
      have := Nat.mul_le_mul_left (2 ^ 64) hdiv
      omega
    have hstep : u64 n / c + 1 ≤ n / c := by
      rw [← Nat.add_div_right _ hc]
      exact Nat.div_le_div_right hge
    omega
  · intro h
    rw [u64_of_lt h]

namespace Timer

/-- **The conversion at a counter value**: the nanoseconds are exact, and no earlier value had
more. -/
structure Converts (s : Timer) (t : ℕ) : Prop where
  value : s.getNs t = some (t * 1000000000 / s.hz)
  mono : ∀ t' ≤ t, ∀ x ∈ s.getNs t', x ≤ t * 1000000000 / s.hz

/-- **A source's nanoseconds are exact** where they fit, except that the products of the PIT and of
the HPET must fit themselves. -/
theorem getNs_eq_iff (s : Timer) {t : ℕ} (hz : 0 < s.hz) (ht : t * 1000000000 / s.hz < 2 ^ 64) :
    s.getNs t = some (t * 1000000000 / s.hz) ↔
      (∃ tscHz, s = .tsc tscHz) ∨ t * 1000000000 < 2 ^ 64 := by
  cases s with
  | pit =>
    have hiff := u64_div_eq_iff (n := t * 1000000000) (c := defaultFreq) (by decide) (by decide)
    rw [or_iff_right (by rintro ⟨_, h⟩; exact Timer.noConfusion h), ← hiff]
    exact Option.some_inj
  | hpet f =>
    have hlt : f.toNat ≤ 2 ^ 64 := f.toNat_lt.le.trans (by norm_num)
    have hiff := u64_div_eq_iff (n := t * 1000000000) hz hlt
    rw [or_iff_right (by rintro ⟨_, h⟩; exact Timer.noConfusion h), ← hiff]
    have hf : f ≠ 0 := by
      rintro rfl
      exact absurd hz (lt_irrefl 0)
    have hns : Hpet.getNs ⟨true, f⟩ t = u64 (t * 1000000000) / f.toNat := if_neg hf
    rw [Timer.getNs, hns]
    exact Option.some_inj
  | tsc f =>
    refine iff_of_true ?_ (Or.inl ⟨f, rfl⟩)
    have hns : Tsc.getNs ⟨f, true⟩ t = mulDivU64 t 1000000000 f :=
      if_neg (not_or.mpr ⟨hz.ne', by simp⟩)
    rw [Timer.getNs, hns]
    exact mulDivU64_eq hz ht

/-- **Converting** is right at a counter value exactly when the source is the TSC, or the product
fits. -/
theorem converts_iff (s : Timer) {t : ℕ} (hz : 0 < s.hz) (ht : t * 1000000000 / s.hz < 2 ^ 64) :
    s.Converts t ↔ (∃ tscHz, s = .tsc tscHz) ∨ t * 1000000000 < 2 ^ 64 := by
  refine ⟨fun h => (getNs_eq_iff s hz ht).mp h.value, fun h => ⟨(getNs_eq_iff s hz ht).mpr h, ?_⟩⟩
  intro t' ht' x hx
  have hmul : t' * 1000000000 ≤ t * 1000000000 := Nat.mul_le_mul_right _ ht'
  have hle : t' * 1000000000 / s.hz ≤ t * 1000000000 / s.hz := Nat.div_le_div_right hmul
  have hvalue := (getNs_eq_iff s hz (hle.trans_lt ht)).mpr (h.imp_right hmul.trans_lt)
  obtain rfl := Option.some.inj (hvalue.symm.trans hx)
  exact hle

theorem converts_tsc : (tsc 2400000000).Converts (2 ^ 63) :=
  (converts_iff (tsc 2400000000) (by decide) (by decide)).mpr (Or.inl ⟨_, rfl⟩)

/-- **After 214 days of ticks the PIT's time is back at 0.29 ms.** -/
theorem not_converts_pit :
    ¬ ∀ (s : Timer) (t : ℕ), 0 < s.hz → t < 2 ^ 64 → t * 1000000000 / s.hz < 2 ^ 64 →
      s.Converts t := by
  intro h
  have hvalue := (h pit 18446744074 (by decide) (by decide) (by decide)).value
  have hcode : pit.getNs 18446744074 = some 290448 := by decide +kernel
  rw [hcode] at hvalue
  exact absurd (Option.some.inj hvalue) (by decide)

end Timer

/-! ## Delays -/

/-- The hardware a source runs on: an HPET by its general capabilities, a TSC by its frequency. -/
inductive Hardware
  | pit
  | hpet (generalCaps : ℕ)
  | tsc (tscHz : ℕ)

namespace Hardware

/-- What the source admits. -/
def Admits : Hardware → Prop
  | pit => True
  | hpet generalCaps => 0 < Hpet.tickPeriod generalCaps ∧ Hpet.tickPeriod generalCaps ≤ 0x5F5E100
  | tsc tscHz => 0 < tscHz

/-- The frequency the counter runs at. -/
def hz : Hardware → ℕ
  | pit => defaultFreq
  | hpet generalCaps => fsInSecond / Hpet.tickPeriod generalCaps
  | tsc tscHz => tscHz

/-- The source as it has been initialized. -/
def timer : Hardware → Timer
  | pit => .pit
  | hpet generalCaps => .hpet ((Hpet.frequencyOf generalCaps).getD 0)
  | tsc tscHz => .tsc tscHz

/-- The delays the source gets right: the PIT's product must fit, and what the HPET loses by
dividing first must not make up a tick, nor may its frequency exceed its 32 bits. -/
def Waits : Hardware → ℕ → Prop
  | pit, us => us * defaultFreq < 2 ^ 64
  | hpet generalCaps, us =>
    us = 0 ∨ (hpet generalCaps).hz < 2 ^ 32 ∧
      us * ((hpet generalCaps).hz % microscndInSecond) < microscndInSecond
  | tsc _, _ => True

end Hardware

/-- **A delay is never short** of `ticks` ticks: whenever it returns, the counter has advanced by
them since its first read, at `start`. -/
def NeverShort (delayUs : (ℕ → ℕ) → ℕ → Option ℕ) (start ticks : ℕ) : Prop :=
  ∀ counter : ℕ → ℕ, Monotone counter → counter 0 = start → ∀ fuel n,
    delayUs (fun i => counter i % 2 ^ 64) fuel = some n → start + ticks ≤ counter n

theorem poll_some {done : ℕ → Bool} {reads : ℕ → ℕ} {fuel i n : ℕ}
    (h : poll done reads fuel i = some n) : done (reads n) = true := by
  induction fuel generalizing i with
  | zero => exact absurd h.symm (Option.some_ne_none n)
  | succ fuel ih =>
    rw [poll] at h
    split at h
    · obtain rfl := Option.some.inj h
      assumption
    · exact ih h

/-- **A loop up to a target** waits for exactly the ticks up to the target. -/
theorem neverShort_target_iff {start ticks wait : ℕ} (h : start + wait < 2 ^ 64) :
    NeverShort (fun reads fuel => poll (fun x => decide (u64 (reads 0 + wait) ≤ x)) reads fuel 1)
      start ticks ↔ ticks ≤ wait := by
  have htarget : u64 (start % 2 ^ 64 + wait) = start + wait := by
    rw [Nat.mod_eq_of_lt ((Nat.le_add_right ..).trans_lt h), u64_of_lt h]
  constructor
  · intro hshort
    -- a counter that jumps to the target and stays there
    have hmono : Monotone fun i : ℕ => if i = 0 then start else start + wait := by
      refine monotone_nat_of_le_succ fun i => ?_
      by_cases hi : i = 0
      · rw [if_pos hi, if_neg (Nat.succ_ne_zero i)]
        exact Nat.le_add_right ..
      · rw [if_neg hi, if_neg (Nat.succ_ne_zero i)]
    refine Nat.le_of_add_le_add_left (hshort _ hmono (if_pos rfl) 1 1 ?_)
    refine if_pos (decide_eq_true ?_)
    dsimp only
    rw [if_pos rfl, if_neg one_ne_zero, htarget, Nat.mod_eq_of_lt h]
  · intro hle counter _ h0 fuel n hn
    have hdone := of_decide_eq_true (poll_some hn)
    dsimp only at hdone
    rw [h0, htarget] at hdone
    exact (Nat.add_le_add_left hle start).trans (hdone.trans (Nat.mod_le _ _))

/-- **A loop on a difference** waits for its ticks. -/
theorem neverShort_difference (start wait : ℕ) :
    NeverShort (fun reads fuel => poll (fun x => decide (wait ≤ sub64 x (reads 0))) reads fuel 1)
      start wait := by
  intro counter hmono h0 fuel n hn
  have hdone := of_decide_eq_true (poll_some hn)
  have hle : start ≤ counter n := h0 ▸ hmono (Nat.zero_le n)
  dsimp only at hdone
  rw [h0, sub64_eq] at hdone
  omega

/-- What the HPET loses by dividing its frequency, kept in 32 bits, before it multiplies. -/
theorem hpet_wait_iff (us f : ℕ) :
    us * f / microscndInSecond ≤ us * (f % 2 ^ 32 / microscndInSecond) ↔
      us = 0 ∨ f < 2 ^ 32 ∧ us * (f % microscndInSecond) < microscndInSecond := by
  rcases Nat.eq_zero_or_pos us with rfl | hus
  · simp
  rw [or_iff_right hus.ne']
  by_cases hf : f < 2 ^ 32
  · have hsplit : us * f / microscndInSecond = us * (f / microscndInSecond) +
        us * (f % microscndInSecond) / microscndInSecond := by
      calc us * f / microscndInSecond
          = us * (microscndInSecond * (f / microscndInSecond) + f % microscndInSecond) /
            microscndInSecond := by rw [Nat.div_add_mod]
        _ = (microscndInSecond * (us * (f / microscndInSecond)) + us * (f % microscndInSecond)) /
            microscndInSecond := by rw [Nat.mul_add, Nat.mul_left_comm]
        _ = _ := Nat.mul_add_div (by decide) ..
    rw [Nat.mod_eq_of_lt hf, hsplit, and_iff_right hf, ← Nat.div_eq_zero_iff_lt (by decide),
      add_le_iff_nonpos_right, nonpos_iff_eq_zero]
  · refine iff_of_false (fun hle => ?_) fun h => hf h.1
    have hfit : f % 2 ^ 32 / microscndInSecond * microscndInSecond + 2 ^ 32 ≤ f := by
      have := Nat.div_mul_le_self (f % 2 ^ 32) microscndInSecond
      omega
    -- one more than the wait fits into the product
    have hstep : (us * (f % 2 ^ 32 / microscndInSecond) + 1) * microscndInSecond ≤ us * f := by
      calc (us * (f % 2 ^ 32 / microscndInSecond) + 1) * microscndInSecond
          = us * (f % 2 ^ 32 / microscndInSecond * microscndInSecond) + microscndInSecond := by
            rw [Nat.add_mul, Nat.one_mul, Nat.mul_assoc]
        _ ≤ us * (f % 2 ^ 32 / microscndInSecond * microscndInSecond) + us * 2 ^ 32 :=
            Nat.add_le_add_left ((show microscndInSecond ≤ 2 ^ 32 by decide).trans
              (Nat.le_mul_of_pos_left _ hus)) _
        _ ≤ us * f := by
            rw [← Nat.mul_add]
            exact Nat.mul_le_mul_left us hfit
    have hge := (Nat.le_div_iff_mul_le (show 0 < microscndInSecond by decide)).mpr hstep
    exact absurd (hge.trans hle) (Nat.not_succ_le_self _)

/-- **Delays are never short** exactly when the source gets them right. -/
theorem neverShort_iff (d : Hardware) (hd : d.Admits) {us start : ℕ}
    (h : us * d.hz / 1000000 + start < 2 ^ 64) :
    NeverShort (d.timer.delayUs us) start (us * d.hz / 1000000) ↔ d.Waits us := by
  rw [Nat.add_comm] at h
  cases d with
  | pit =>
    have hle : u64 (us * defaultFreq) / 1000000 ≤ us * defaultFreq / 1000000 :=
      Nat.div_le_div_right (by rw [u64_eq]; exact Nat.mod_le _ _)
    refine (neverShort_target_iff ((Nat.add_le_add_left hle start).trans_lt h)).trans ?_
    rw [Hardware.Waits, ← u64_div_eq_iff (c := 1000000) (by decide) (by decide)]
    exact ⟨fun hge => le_antisymm hle hge, fun heq => heq.ge⟩
  | hpet caps =>
    obtain ⟨hpos, hmax⟩ := hd
    have hfreq : (Hpet.frequencyOf caps).getD 0 =
        UInt32.ofNat (fsInSecond / Hpet.tickPeriod caps) := by
      rw [Hpet.frequencyOf, if_neg (not_or.mpr ⟨hpos.ne', not_lt.mpr hmax⟩)]
      rfl
    have hle : us * ((Hardware.hpet caps).hz % 2 ^ 32 / microscndInSecond) ≤
        us * (Hardware.hpet caps).hz / 1000000 :=
      (Nat.mul_le_mul_left us (Nat.div_le_div_right (Nat.mod_le _ _))).trans
        (Nat.mul_div_le_mul_div_assoc ..)
    have hwait : u64 (us * ((UInt32.ofNat (fsInSecond / Hpet.tickPeriod caps)).toNat /
        microscndInSecond)) = us * ((Hardware.hpet caps).hz % 2 ^ 32 / microscndInSecond) :=
      u64_of_lt (hle.trans_lt ((Nat.le_add_left ..).trans_lt h))
    have htarget := @neverShort_target_iff start (us * (Hardware.hpet caps).hz / 1000000) _
      ((Nat.add_le_add_left hle start).trans_lt h)
    rw [← hwait] at htarget
    rw [Hardware.timer, hfreq]
    refine htarget.trans ?_
    rw [hwait]
    exact hpet_wait_iff us _
  | tsc f =>
    refine iff_of_true ?_ trivial
    have hwait := mulDivU64_eq (show 0 < 1000000 by decide) ((Nat.le_add_left ..).trans_lt h)
    have hdelay (reads : ℕ → ℕ) (fuel : ℕ) : Tsc.delayUs ⟨f, true⟩ us reads fuel =
        poll (fun x => decide (us * f / 1000000 ≤ sub64 x (reads 0))) reads fuel 1 := by
      rw [Tsc.delayUs, if_neg (not_or.mpr ⟨(show 0 < f from hd).ne', by simp⟩)]
      dsimp only
      rw [show mulDivU64 us f 1000000 = _ from hwait, Option.bind_some]
      rfl
    have hshort := neverShort_difference start (us * f / 1000000)
    intro counter hmono h0 fuel n hn
    rw [Hardware.timer, Timer.delayUs, hdelay] at hn
    exact hshort counter hmono h0 fuel n hn

/-! ## An HPET at 14.318 MHz -/

/-- Its general capabilities: a tick is 69841279 fs. -/
def capsOf14Mhz : ℕ := 69841279 * 2 ^ 32

/-- Delays of 3 µs are right. -/
theorem neverShort_3us :
    NeverShort ((Hardware.hpet capsOf14Mhz).timer.delayUs 3) 0
      (3 * (Hardware.hpet capsOf14Mhz).hz / 1000000) :=
  (neverShort_iff (.hpet capsOf14Mhz) ⟨by decide, by decide⟩ (by decide)).mpr (Or.inr (by decide))

/-- **A delay of 10 ms returns 3181 ticks early.** -/
theorem not_neverShort_10ms :
    ¬ ∀ (d : Hardware) (us start : ℕ), d.Admits → us < 2 ^ 64 →
      us * d.hz / 1000000 + start < 2 ^ 64 →
      NeverShort (d.timer.delayUs us) start (us * d.hz / 1000000) := by
  intro h
  have hshort := h (.hpet capsOf14Mhz) 10000 0 ⟨by decide, by decide⟩ (by decide) (by decide)
  have hmono : Monotone fun i : ℕ => if i = 0 then 0 else 140000 := by
    refine monotone_nat_of_le_succ fun i => ?_
    rw [if_neg (Nat.succ_ne_zero i)]
    split <;> decide
  have hle := hshort _ hmono rfl 1 1 (by decide +kernel)
  exact absurd hle (by decide)

end MioOS
