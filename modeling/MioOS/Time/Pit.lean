import Mathlib.Tactic
import MioOS.Memory.Defs
import MioOS.Interrupts.Ioapic

/-!
# Time/Pit — `pit.cpp`: the tick counter and the PIT's redirection entry

The PIT interrupts through an I/O APIC once `write_rte_for_pit` has unmasked an entry for it, until
`demote` masks an entry again.  What the first leaves for the second is one byte, `pit_gsi`.
`silences_iff`: when the two agree on the entry.
-/

namespace MioOS

open Interrupts

/-- `PIT_VECTOR`. -/
def pitVector : UInt8 := 32

/-- `IO_PIT_CH0`. -/
def ioPitCh0 : UInt16 := 0x40

/-- `IO_PIT_CMD`. -/
def ioPitCmd : UInt16 := 0x43

/-- `DEFAULT_FREQ`. -/
def defaultFreq : ℕ := 1000

/-- The static members of `PIT`. -/
structure Pit where
  ticks : ℕ
  pitGsi : UInt8
  initialized : Bool

/-- What the PIT's routines read and write: its members, the routing, `interrupt_handlers` and the
bytes sent to I/O ports, oldest first. -/
structure PitState (K : Type) where
  pit : Pit
  routing : Routing
  interruptHandlers : UInt8 → Option K
  ports : List (UInt16 × UInt8)

namespace PitState

variable {K : Type}

/-- `outb`. -/
def outb (s : PitState K) (port : UInt16) (value : UInt8) : PitState K :=
  { s with ports := s.ports ++ [(port, value)] }

/-- **`demote`**. -/
def demote (s : PitState K) : PitState K :=
  if !s.pit.initialized then s
  else
    let s := { s with pit := { s.pit with initialized := false } }
    let s := ((s.outb ioPitCmd 0x30).outb ioPitCh0 0xFF).outb ioPitCh0 0xFF
    let s :=
      match Routing.getIoapicForGsi s.pit.pitGsi.toUInt32 s.routing.ioApicObjs with
      | none => s
      | some i =>
        { s with
          routing :=
            { s.routing with
              ioApicObjs := s.routing.ioApicObjs.modify i (·.maskGsi s.pit.pitGsi) } }
    { s with interruptHandlers := Function.update s.interruptHandlers pitVector none }

/-- **`write_rte_for_pit`**.  The integer `find_gsi_and_write_rte` returns is 0 or 1, and it is kept
in a byte. -/
def writeRteForPit (s : PitState K) : PitState K :=
  let (found, routing) := s.routing.findGsiAndWriteRte pitVector
  let s := { s with
    routing := routing
    pit := { s.pit with pitGsi := if found then 1 else 0 } }
  if (s.pit.pitGsi.toNat : Int) = -1 then s.demote else s

end PitState

/-! ## Redirection entries -/

namespace Interrupts

namespace Routing

open Ioapic

variable {s s₁ s₂ : Routing} {a : Ioapic} {i j p : ℕ}

/-- The redirection entry of pin `p` of the I/O APIC at `j`, low half first. -/
def entry (s : Routing) (j p : ℕ) : Option (BitVec 32 × BitVec 32) :=
  s.ioApicObjs[j]?.bind fun a =>
    if p < a.maxEntries.toNat then
      some (a.chip.regs (redirectionLow p), a.chip.regs (redirectionHigh p))
    else none

/-- An entry is masked. -/
def Masked (s : Routing) (j p : ℕ) : Prop :=
  ∃ e, s.entry j p = some e ∧ e.1.getLsbD 16 = true

/-- **An entry was written** on the way from `s` to `s₁`. -/
def Wrote (s s₁ : Routing) (j p : ℕ) : Prop :=
  ∃ a a', s.ioApicObjs[j]? = some a ∧ s₁.ioApicObjs[j]? = some a' ∧ p < a.maxEntries.toNat ∧
    redirectionLow p ∈ a'.chip.written.drop a.chip.written.length

/-- **Silencing**: the entries written on the way from `s` to `s₁` are masked in `s₂`, and the others
are in `s₂` what they were in `s`. -/
structure Silences (s s₁ s₂ : Routing) : Prop where
  masked : ∀ j p, Wrote s s₁ j p → s₂.Masked j p
  kept : ∀ j p, ¬ Wrote s s₁ j p → s₂.entry j p = s.entry j p

/-- Masking a GSI would change nothing: nobody owns it, it is no entry of its owner, or its entry is
masked. -/
def AlreadyMasked (s : Routing) (gsi : UInt8) : Prop :=
  ∀ k e, getIoapicForGsi gsi.toUInt32 s.ioApicObjs = some k → s.entry k gsi.toNat = some e →
    e.1.getLsbD 16 = true

/-- The I/O APIC the PIT's GSI is looked up to, and the GSI's low eight bits. -/
def pitOwner (s : Routing) : Option ℕ := getIoapicForGsi (s.route pitVector).1 s.ioApicObjs

/-- The pin `write_rte` takes for the PIT's. -/
def pitPin (s : Routing) : ℕ := (s.route pitVector).1.toNat % 256

/-- **The entry unmasked for the PIT is the one of GSI 1**, and when no entry is, the one that is
masked instead is masked already. -/
structure PitAtOne (s : Routing) : Prop where
  entry : ∀ i a, s.pitOwner = some i → s.ioApicObjs[i]? = some a →
    s.pitPin < a.maxEntries.toNat → getIoapicForGsi 1 s.ioApicObjs = some i ∧ s.pitPin = 1
  beyond : ∀ i a, s.pitOwner = some i → s.ioApicObjs[i]? = some a →
    a.maxEntries.toNat ≤ s.pitPin → s.AlreadyMasked 1
  unowned : s.pitOwner = none → s.AlreadyMasked 0

/-! ## Entries and the registers of a chip -/

/-- A routing in which one chip's registers have changed. -/
def withChip (s : Routing) (i : ℕ) (f : Ioapic → Ioapic) : Routing :=
  { s with ioApicObjs := s.ioApicObjs.modify i f }

theorem entry_of_getElem? (ha : s.ioApicObjs[i]? = some a) (hp : p < a.maxEntries.toNat) :
    s.entry i p = some (a.chip.regs (redirectionLow p), a.chip.regs (redirectionHigh p)) := by
  rw [entry, ha, Option.bind_some, if_pos hp]

theorem exists_of_entry {e : BitVec 32 × BitVec 32} (h : s.entry i p = some e) :
    ∃ a, s.ioApicObjs[i]? = some a ∧ p < a.maxEntries.toNat ∧
      e = (a.chip.regs (redirectionLow p), a.chip.regs (redirectionHigh p)) := by
  obtain ⟨a, ha, hif⟩ := Option.bind_eq_some_iff.mp h
  split at hif
  · exact ⟨a, ha, ‹_›, (Option.some.inj hif).symm⟩
  · exact absurd hif.symm (Option.some_ne_none e)

variable {f : Ioapic → Ioapic}

/-- The entries of the other chips are left alone. -/
theorem entry_withChip_of_ne (s : Routing) (f : Ioapic → Ioapic) (hij : i ≠ j) (p : ℕ) :
    (s.withChip i f).entry j p = s.entry j p := by
  rw [entry, withChip, List.getElem?_modify_ne f _ hij, entry]

/-- The entries of the chip itself. -/
theorem entry_withChip (hf : ∀ a, (f a).maxEntries = a.maxEntries) (ha : s.ioApicObjs[i]? = some a)
    (hp : p < a.maxEntries.toNat) :
    (s.withChip i f).entry i p =
      some ((f a).chip.regs (redirectionLow p), (f a).chip.regs (redirectionHigh p)) := by
  refine entry_of_getElem? (a := f a) ?_ (by rw [hf]; exact hp)
  rw [withChip, List.getElem?_modify_eq, ha]
  rfl

/-- An entry whose two registers are kept is kept. -/
theorem entry_withChip_eq (hf : ∀ a, (f a).maxEntries = a.maxEntries)
    (h : ∀ a, s.ioApicObjs[i]? = some a → p < a.maxEntries.toNat →
      (f a).chip.regs (redirectionLow p) = a.chip.regs (redirectionLow p) ∧
        (f a).chip.regs (redirectionHigh p) = a.chip.regs (redirectionHigh p)) :
    (s.withChip i f).entry i p = s.entry i p := by
  rw [entry, withChip, List.getElem?_modify_eq, entry]
  cases ha : s.ioApicObjs[i]? with
  | none => rfl
  | some a =>
    simp only [Option.map_eq_map, Option.map_some, Option.bind_some, hf]
    by_cases hp : p < a.maxEntries.toNat
    · obtain ⟨hlow, hhigh⟩ := h a ha hp
      rw [if_pos hp, if_pos hp, hlow, hhigh]
    · rw [if_neg hp, if_neg hp]

/-! ## Masking at the owner -/

/-- `demote`'s masking: the GSI is masked at the I/O APIC that owns it. -/
def maskOwner (s : Routing) (gsi : UInt8) : Routing :=
  match getIoapicForGsi gsi.toUInt32 s.ioApicObjs with
  | none => s
  | some i => s.withChip i (·.maskGsi gsi)

theorem maskOwner_eq {gsi : UInt8} {k : ℕ}
    (h : getIoapicForGsi gsi.toUInt32 s.ioApicObjs = some k) :
    s.maskOwner gsi = s.withChip k (·.maskGsi gsi) := by
  rw [maskOwner, h]

theorem maskOwner_of_none {gsi : UInt8} (h : getIoapicForGsi gsi.toUInt32 s.ioApicObjs = none) :
    s.maskOwner gsi = s := by
  rw [maskOwner, h]

/-- Setting the mask bit changes nothing exactly when it is set. -/
theorem or_mask_eq_iff (v : BitVec 32) : v ||| 1 <<< 16 = v ↔ v.getLsbD 16 = true := by
  have hpow : ((1 <<< 16 : ℕ) : BitVec 32) = BitVec.twoPow 32 16 := by decide
  have hbit (i : ℕ) : (v ||| 1 <<< 16).getLsbD i = (v.getLsbD i || decide (16 = i)) := by
    rw [hpow, BitVec.getLsbD_or, BitVec.getLsbD_twoPow, decide_eq_true (by norm_num),
      Bool.true_and]
  constructor
  · intro h
    rw [← h, hbit, decide_eq_true rfl, Bool.or_true]
  · intro h
    refine BitVec.eq_of_getLsbD_eq fun i _ => ?_
    rw [hbit]
    by_cases hi : 16 = i
    · rw [← hi, h, Bool.true_or]
    · rw [decide_eq_false hi, Bool.or_false]

/-- Masking keeps every entry but the GSI's. -/
theorem entry_maskOwner (h : s.Sized) (gsi : UInt8)
    (hne : ¬ (getIoapicForGsi gsi.toUInt32 s.ioApicObjs = some j ∧ p = gsi.toNat)) :
    (s.maskOwner gsi).entry j p = s.entry j p := by
  cases hk : getIoapicForGsi gsi.toUInt32 s.ioApicObjs with
  | none => rw [maskOwner_of_none hk]
  | some k =>
    rw [maskOwner_eq hk]
    by_cases hj : k = j
    · subst hj
      refine entry_withChip_eq (fun _ => rfl) fun a ha hp => ?_
      have hp256 := hp.trans_le (h.entries_le hk ha)
      have hmask := masks_maskGsi_byte a gsi
      refine ⟨hmask.kept _ fun hlow => ?_, hmask.kept _ (redirectionLow_ne_high _ _).symm⟩
      exact hne ⟨hk, redirectionLow_inj hp256 gsi.toNat_lt hlow⟩
    · exact entry_withChip_of_ne s _ hj p

/-- Masking leaves the GSI's entry with the mask bit set, and its other bits as they were. -/
theorem entry_maskOwner_self (gsi : UInt8)
    (hk : getIoapicForGsi gsi.toUInt32 s.ioApicObjs = some i) (ha : s.ioApicObjs[i]? = some a)
    (hp : gsi.toNat < a.maxEntries.toNat) :
    (s.maskOwner gsi).entry i gsi.toNat =
      some (a.chip.regs (redirectionLow gsi.toNat) ||| 1 <<< 16,
        a.chip.regs (redirectionHigh gsi.toNat)) := by
  have hmask := masks_maskGsi_byte a gsi
  have hentry := entry_withChip (f := (·.maskGsi gsi)) (fun _ => rfl) ha hp
  rw [hmask.masked, hmask.kept _ (redirectionLow_ne_high _ _).symm] at hentry
  rw [maskOwner_eq hk, hentry]

/-- **Masking changes no entry** exactly when the one it is about is masked. -/
theorem maskOwner_entry_iff (h : s.Sized) (gsi : UInt8) :
    (∀ j p, (s.maskOwner gsi).entry j p = s.entry j p) ↔ s.AlreadyMasked gsi := by
  constructor
  · intro heq k e hk he
    obtain ⟨a, ha, hp, rfl⟩ := exists_of_entry he
    have hboth := (entry_maskOwner_self gsi hk ha hp).symm.trans ((heq k gsi.toNat).trans he)
    exact (or_mask_eq_iff _).mp (Prod.mk.inj (Option.some.inj hboth)).1
  · intro hmasked j p
    by_cases hjp : getIoapicForGsi gsi.toUInt32 s.ioApicObjs = some j ∧ p = gsi.toNat
    · obtain ⟨hk, rfl⟩ := hjp
      cases he : s.entry j gsi.toNat with
      | none =>
        rw [maskOwner_eq hk, ← he]
        refine entry_withChip_eq (fun _ => rfl) fun a ha hp => ?_
        exact absurd (he.symm.trans (entry_of_getElem? ha hp)).symm (Option.some_ne_none _)
      | some e =>
        obtain ⟨a, ha, hp, rfl⟩ := exists_of_entry he
        rw [entry_maskOwner_self gsi hk ha hp, (or_mask_eq_iff _).mpr (hmasked j _ hk he)]
    · exact entry_maskOwner h gsi hjp


/-! ## The entry unmasked for the PIT -/

/-- `write_rte_for_pit`'s write, at the I/O APIC it looks up. -/
def writePit (s : Routing) (a : Ioapic) : Ioapic :=
  a.writeRte (s.route pitVector).1.toUInt8 pitVector (s.destinationOf (-1)) (s.route pitVector).2
    false

theorem writePit_maxEntries (s : Routing) (a : Ioapic) :
    (s.writePit a).maxEntries = a.maxEntries := by
  rw [writePit, writeRte]
  split <;> rfl

theorem writePit_owns (s : Routing) (gsi : UInt32) (a : Ioapic) :
    (s.writePit a).owns gsi = a.owns gsi := by
  rw [writePit, writeRte]
  split <;> rfl

theorem programs_writePit (s : Routing) (h : a.initialized = true) :
    Programs a (s.writePit a) s.pitPin pitVector (s.route pitVector).2 :=
  programs_writeRte h ..

theorem pitPin_lt (s : Routing) : s.pitPin < 256 := Nat.mod_lt _ (by norm_num)

/-- **The entry written** is the one of the PIT's pin. -/
theorem wrote_iff (h : s.Sized) (hi : s.pitOwner = some i) (ha : s.ioApicObjs[i]? = some a) :
    Wrote s (s.withChip i s.writePit) j p ↔ j = i ∧ p = s.pitPin ∧ p < a.maxEntries.toNat := by
  have hmem {b b' : Ioapic} (hb : s.ioApicObjs[j]? = some b)
      (hb' : (s.withChip i s.writePit).ioApicObjs[j]? = some b') :
      redirectionLow p ∈ b'.chip.written.drop b.chip.written.length ↔
        j = i ∧ (redirectionLow p = redirectionLow s.pitPin ∨
          redirectionLow p = redirectionHigh s.pitPin) :=
    mem_written_writeRte (owner_spec hi ha).1 ha hb hb'
  constructor
  · rintro ⟨b, b', hb, hb', hp, hw⟩
    obtain ⟨rfl, hr⟩ := (hmem hb hb').mp hw
    obtain rfl := Option.some.inj (ha.symm.trans hb)
    have hlow := hr.resolve_right (redirectionLow_ne_high _ _)
    exact ⟨rfl, redirectionLow_inj (hp.trans_le (h.entries_le hi ha)) s.pitPin_lt hlow, hp⟩
  · rintro ⟨rfl, rfl, hp⟩
    have hat : (s.withChip j s.writePit).ioApicObjs[j]? = some (s.writePit a) := by
      rw [withChip, List.getElem?_modify_eq, ha]
      rfl
    exact ⟨a, s.writePit a, ha, hat, hp, (hmem ha hat).mpr ⟨rfl, Or.inl rfl⟩⟩

/-- The other entries are kept. -/
theorem entry_withChip_writePit (h : s.Sized) (hi : s.pitOwner = some i)
    (hne : j ≠ i ∨ p ≠ s.pitPin) : (s.withChip i s.writePit).entry j p = s.entry j p := by
  by_cases hj : i = j
  · subst hj
    refine entry_withChip_eq s.writePit_maxEntries fun a ha hp => ?_
    have hprograms := s.programs_writePit (owner_spec hi ha).1
    have hpin := hne.resolve_left (absurd rfl)
    have hp256 := hp.trans_le (h.entries_le hi ha)
    exact ⟨hprograms.kept _ (fun hlow => hpin (redirectionLow_inj hp256 s.pitPin_lt hlow))
        (redirectionLow_ne_high _ _),
      hprograms.kept _ (redirectionLow_ne_high _ _).symm
        fun hhigh => hpin (redirectionHigh_inj hp256 s.pitPin_lt hhigh)⟩
  · exact entry_withChip_of_ne s _ hj p

/-- The search for an owner does not see the write. -/
theorem owner_withChip_writePit (s : Routing) (i : ℕ) (gsi : UInt32) :
    getIoapicForGsi gsi (s.withChip i s.writePit).ioApicObjs = getIoapicForGsi gsi s.ioApicObjs :=
  getIoapicForGsi_modify (s.writePit_owns gsi) _ i

theorem Sized.withChip_writePit (h : s.Sized) (i : ℕ) : (s.withChip i s.writePit).Sized := by
  intro b hb hinit
  obtain ⟨j, hj⟩ := List.mem_iff_getElem?.mp hb
  rw [withChip, List.getElem?_modify] at hj
  split at hj
  · obtain ⟨a, ha, rfl⟩ := Option.map_eq_some_iff.mp hj
    have hinit' : a.initialized = true := by
      rw [← hinit, writePit, writeRte]
      split <;> rfl
    rw [s.writePit_maxEntries]
    exact h a (List.mem_of_getElem? ha) hinit'
  · obtain ⟨a, ha, rfl⟩ := Option.map_eq_some_iff.mp hj
    exact h a (List.mem_of_getElem? ha) hinit

/-- Nothing has been written on the way from a routing to itself. -/
theorem not_wrote_self (s : Routing) (j p : ℕ) : ¬ Wrote s s j p := by
  rintro ⟨b, b', hb, hb', -, hmem⟩
  obtain rfl := Option.some.inj (hb.symm.trans hb')
  rw [List.drop_length] at hmem
  exact List.not_mem_nil hmem

/-- Without an owner GSI 0 is masked instead. -/
theorem silences_of_unowned (h : s.Sized) : Silences s s (s.maskOwner 0) ↔ s.AlreadyMasked 0 := by
  rw [← maskOwner_entry_iff h]
  exact ⟨fun hsil j p => hsil.kept j p (s.not_wrote_self j p), fun hkept =>
    ⟨fun j p hw => absurd hw (s.not_wrote_self j p), fun j p _ => hkept j p⟩⟩

/-- **When the PIT's pin is an entry**, masking GSI 1 masks it only if it is GSI 1's. -/
theorem silences_of_entry (h : s.Sized) (hi : s.pitOwner = some i) (ha : s.ioApicObjs[i]? = some a)
    (hp : s.pitPin < a.maxEntries.toNat) :
    Silences s (s.withChip i s.writePit) ((s.withChip i s.writePit).maskOwner 1) ↔
      getIoapicForGsi 1 s.ioApicObjs = some i ∧ s.pitPin = 1 := by
  have hwrote (j p) := (wrote_iff (j := j) (p := p) h hi ha)
  have hprograms := s.programs_writePit (owner_spec hi ha).1
  have hentry := entry_withChip s.writePit_maxEntries ha hp
  have howner := s.owner_withChip_writePit i (1 : UInt8).toUInt32
  have hkept := fun j p => entry_maskOwner (j := j) (p := p) (h.withChip_writePit i) 1
  rw [howner] at hkept
  constructor
  · intro hsil
    by_contra hnot
    obtain ⟨e, he, hbit⟩ := hsil.masked i s.pitPin ((hwrote ..).mpr ⟨rfl, rfl, hp⟩)
    rw [hkept i s.pitPin hnot, hentry] at he
    obtain rfl := Option.some.inj he
    exact Bool.false_ne_true (hprograms.unmasked.symm.trans hbit)
  · rintro ⟨hk, hpin⟩
    have hat : (s.withChip i s.writePit).ioApicObjs[i]? = some (s.writePit a) := by
      rw [withChip, List.getElem?_modify_eq, ha]
      rfl
    rw [hpin] at hp
    have hself := entry_maskOwner_self 1 (howner.trans hk) hat
      (by rw [s.writePit_maxEntries]; exact hp)
    refine ⟨fun j p hw => ?_, fun j p hw => ?_⟩
    · obtain ⟨rfl, rfl, -⟩ := (hwrote j p).mp hw
      rw [hpin]
      refine ⟨_, hself, (or_mask_eq_iff _).mp ?_⟩
      rw [BitVec.or_assoc, BitVec.or_self]
    · have hne : ¬ (j = i ∧ p = 1) := fun hjp => hw ((hwrote j p).mpr
        ⟨hjp.1, hjp.2.trans hpin.symm, hjp.2 ▸ hp⟩)
      rw [hkept j p fun hjp => hne ⟨(Option.some.inj (hk.symm.trans hjp.1)).symm, hjp.2⟩]
      refine entry_withChip_writePit h hi ?_
      rw [hpin]
      exact not_and_or.mp hne

/-- **When the PIT's pin is no entry**, none is unmasked, and GSI 1's must be masked already. -/
theorem silences_of_beyond (h : s.Sized) (hi : s.pitOwner = some i) (ha : s.ioApicObjs[i]? = some a)
    (hp : a.maxEntries.toNat ≤ s.pitPin) :
    Silences s (s.withChip i s.writePit) ((s.withChip i s.writePit).maskOwner 1) ↔
      s.AlreadyMasked 1 := by
  have hnone (j p) : ¬ Wrote s (s.withChip i s.writePit) j p := fun hw => by
    obtain ⟨-, rfl, hlt⟩ := (wrote_iff h hi ha).mp hw
    exact absurd hlt (not_lt.mpr hp)
  have hsame (j p) : (s.withChip i s.writePit).entry j p = s.entry j p := by
    by_cases hjp : j ≠ i ∨ p ≠ s.pitPin
    · exact entry_withChip_writePit h hi hjp
    · obtain ⟨rfl, rfl⟩ : j = i ∧ p = s.pitPin := by rwa [not_or, not_not, not_not] at hjp
      refine entry_withChip_eq s.writePit_maxEntries fun b hb hlt => ?_
      obtain rfl := Option.some.inj (ha.symm.trans hb)
      exact absurd hlt (not_lt.mpr hp)
  have hiff := maskOwner_entry_iff (h.withChip_writePit i) 1
  simp only [AlreadyMasked, hsame, s.owner_withChip_writePit] at hiff
  rw [AlreadyMasked, ← hiff]
  exact ⟨fun hsil j p => hsil.kept j p (hnone j p), fun hkept =>
    ⟨fun j p hw => absurd hw (hnone j p), fun j p _ => hkept j p⟩⟩

end Routing

end Interrupts

namespace PitState

open Routing

variable {K : Type} {s : PitState K}

/-- What `write_rte_for_pit` does: the failure it tests for is not one a byte can hold. -/
theorem writeRteForPit_eq (s : PitState K) :
    s.writeRteForPit = { s with
      routing := (s.routing.findGsiAndWriteRte pitVector).2
      pit := { s.pit with
        pitGsi := if (s.routing.findGsiAndWriteRte pitVector).1 then 1 else 0 } } := by
  rw [writeRteForPit]
  refine if_neg ?_
  omega

theorem demote_routing (h : s.pit.initialized = true) :
    s.demote.routing = s.routing.maskOwner s.pit.pitGsi := by
  rw [demote, h, Bool.not_true, if_neg Bool.false_ne_true]
  dsimp only [outb]
  rw [maskOwner]
  split <;> rfl

/-- **Demoting the PIT silences it and nothing else** exactly when the entry unmasked for it is the
one of GSI 1, or none is unmasked and the one masked instead was masked before. -/
theorem silences_iff (s : PitState K) (h : s.pit.initialized = true) (hs : s.routing.Sized) :
    Silences s.routing s.writeRteForPit.routing s.writeRteForPit.demote.routing ↔
      s.routing.PitAtOne := by
  rw [demote_routing (by rw [writeRteForPit_eq]; exact h), writeRteForPit_eq]
  obtain ⟨hnone, heq⟩ | ⟨i, hi, heq⟩ := s.routing.findGsiAndWriteRte_cases pitVector (-1)
  · rw [heq]
    refine (silences_of_unowned hs).trans ⟨fun hmasked => ⟨?_, ?_, fun _ => hmasked⟩, fun hone =>
      hone.unowned hnone⟩
    all_goals
      intro i a hi
      exact absurd (hi.symm.trans hnone) (Option.some_ne_none i)
  · obtain ⟨a, ha, -⟩ := exists_of_getIoapicForGsi hi
    have howner : s.routing.pitOwner = some i := hi
    rw [heq]
    by_cases hp : s.routing.pitPin < a.maxEntries.toNat
    · refine (silences_of_entry hs hi ha hp).trans ⟨fun hone => ⟨?_, ?_, ?_⟩, fun hone =>
        hone.entry i a hi ha hp⟩
      · intro i' a' hi' _ _
        obtain rfl := Option.some.inj (howner.symm.trans hi')
        exact hone
      · intro i' a' hi' ha' hle
        obtain rfl := Option.some.inj (howner.symm.trans hi')
        obtain rfl := Option.some.inj (ha.symm.trans ha')
        exact absurd hp (not_lt.mpr hle)
      · exact fun hnone => absurd (howner.symm.trans hnone) (Option.some_ne_none i)
    · refine (silences_of_beyond hs hi ha (not_lt.mp hp)).trans ⟨fun hmasked => ⟨?_, ?_, ?_⟩,
        fun hone => hone.beyond i a hi ha (not_lt.mp hp)⟩
      · intro i' a' hi' ha' hlt
        obtain rfl := Option.some.inj (howner.symm.trans hi')
        obtain rfl := Option.some.inj (ha.symm.trans ha')
        exact absurd hlt hp
      · exact fun _ _ _ _ _ => hmasked
      · exact fun hnone => absurd (howner.symm.trans hnone) (Option.some_ne_none i)

/-! ## A PIT on GSI 0 and one on GSI 1 -/

/-- A ticking PIT on a machine with this routing. -/
def ticking (routing : Routing) : PitState Unit :=
  ⟨⟨0, 0, true⟩, routing, Function.update (fun _ => none) pitVector (some ()), []⟩

/-- One I/O APIC of 24 pins, and an override that takes IRQ 0 to GSI 1. -/
def pitOnOne : Routing := ⟨[⟨0, 0, 1, 0⟩], [ioapicAt 0], 0, 9⟩

theorem silences_pitOnOne :
    Silences pitOnOne (ticking pitOnOne).writeRteForPit.routing
      (ticking pitOnOne).writeRteForPit.demote.routing := by
  refine (silences_iff (ticking pitOnOne) rfl ?_).mpr ⟨?_, ?_, ?_⟩
  · intro a ha _
    obtain rfl := List.mem_singleton.mp ha
    decide
  · intro i a hi _ _
    exact ⟨hi, rfl⟩
  · intro i a hi ha hle
    obtain rfl : i = 0 := (Option.some.inj hi).symm
    obtain rfl := Option.some.inj ha
    exact absurd hle (by decide)
  · exact fun hnone => absurd hnone (Option.some_ne_none 0)

/-- **The entry of a PIT on GSI 0 stays unmasked.** -/
theorem not_silences_twoIoapics :
    ¬ ∀ s : PitState Unit, s.pit.initialized = true → s.routing.WellFormed →
      Silences s.routing s.writeRteForPit.routing s.writeRteForPit.demote.routing := by
  intro h
  have hsil := h (ticking twoIoapics) rfl wellFormed_twoIoapics
  have hwrote : Wrote twoIoapics (ticking twoIoapics).writeRteForPit.routing 0 0 :=
    ⟨ioapicAt 0, _, rfl, rfl, by decide, by decide +kernel⟩
  obtain ⟨e, he, hbit⟩ := hsil.masked 0 0 hwrote
  have hentry : (((ticking twoIoapics).writeRteForPit.demote.routing.entry 0 0).map
      fun e => e.1.getLsbD 16) = some false := by decide +kernel
  rw [he] at hentry
  exact Bool.false_ne_true ((Option.some.inj hentry).symm.trans hbit)

end PitState

end MioOS
