import Mathlib.Tactic
import MioOS.Interrupts.Ioapic

/-!
# Interrupts/Uacpi — the interrupt handlers uACPI installs

uACPI hands the kernel a handler, a context and an IRQ; the kernel keeps them in a table of eight
slots and points the vector's entry of `interrupt_handlers` at one trampoline, which searches the
table by vector.  Handlers and contexts are opaque: `H` and `C` for uACPI's, `K` for the kernel's
own handlers.
-/

namespace MioOS

namespace Interrupts

/-- `UacpiHandlerEntry`; a null pointer is `none`. -/
structure UacpiHandlerEntry (H C : Type) where
  handler : Option H := none
  ctx : Option C := none
  inUse : Bool := false
  vector : UInt8 := 0

/-- What a vector's entry of `interrupt_handlers` points at. -/
inductive IrqHandler (K : Type)
  /-- `uacpi_interrupt_trampoline`. -/
  | trampoline
  | kernel (k : K)

/-- The handler an interrupt ends up in. -/
inductive Dispatch (H C K : Type)
  | uacpi (handler : H) (ctx : Option C)
  | kernel (k : K)
  /-- The trampoline ran and called nothing. -/
  | ignored
  | unhandled

/-- The failures uACPI sees. -/
inductive UacpiStatus
  | noResourceEndTag | notFound | invalidArgument
  deriving DecidableEq, Repr

/-- `UACPI_MAX_HANDLERS`. -/
def uacpiMaxHandlers : ℕ := 8

/-- `g_uacpi_handlers`, `interrupt_handlers` and what routing reads and writes. -/
structure Osl (H C K : Type) where
  uacpiHandlers : Fin uacpiMaxHandlers → UacpiHandlerEntry H C
  interruptHandlers : UInt8 → Option (IrqHandler K)
  routing : Routing

namespace Osl

variable {H C K : Type}

/-- **`allocate_uacpi_entry`**: the slot taken, if one is free. -/
def allocateUacpiEntry (s : Osl H C K) (vector : UInt8) :
    Option (Fin uacpiMaxHandlers × Osl H C K) :=
  ((List.finRange uacpiMaxHandlers).find? fun e => !(s.uacpiHandlers e).inUse).map fun e =>
    (e, { s with
      uacpiHandlers := Function.update s.uacpiHandlers e
        { s.uacpiHandlers e with inUse := true, vector := vector } })

/-- **`get_uacpi_entry`**: the first slot in use with this vector. -/
def getUacpiEntry (s : Osl H C K) (vector : UInt8) : Option (Fin uacpiMaxHandlers) :=
  (List.finRange uacpiMaxHandlers).find? fun e =>
    (s.uacpiHandlers e).inUse && (s.uacpiHandlers e).vector = vector

/-- **`uacpi_interrupt_trampoline`**. -/
def uacpiInterruptTrampoline (s : Osl H C K) (interrNo : UInt8) : Dispatch H C K :=
  match s.getUacpiEntry interrNo with
  | none => .ignored
  | some e =>
    match (s.uacpiHandlers e).handler with
    | none => .ignored
    | some handler => .uacpi handler (s.uacpiHandlers e).ctx

/-- `register_interrupt_handler`. -/
def registerInterruptHandler (s : Osl H C K) (vector : UInt8) (handler : IrqHandler K) :
    Osl H C K :=
  { s with interruptHandlers := Function.update s.interruptHandlers vector (some handler) }

/-- `unregister_interrupt_handler`. -/
def unregisterInterruptHandler (s : Osl H C K) (vector : UInt8) : Osl H C K :=
  { s with interruptHandlers := Function.update s.interruptHandlers vector none }

/-- **`hw_irq_handler`**, up to the end-of-interrupt it sends. -/
def hwIrqHandler (s : Osl H C K) (interrNo : UInt8) : Dispatch H C K :=
  match s.interruptHandlers interrNo with
  | none => .unhandled
  | some .trampoline => s.uacpiInterruptTrampoline interrNo
  | some (.kernel k) => .kernel k

/-- The vector of an IRQ. -/
def vectorOf (irq : UInt32) : UInt8 := (UInt32.ofNat cpuIrqNum + irq).toUInt8

/-- **`uacpi_kernel_install_interrupt_handler`**: the handle, when it succeeds.  The integer
`find_gsi_and_write_rte` returns is 0 or 1. -/
def install (s : Osl H C K) (irq : UInt32) (handler : Option H) (ctx : Option C) :
    Except UacpiStatus UInt64 × Osl H C K :=
  let vector := vectorOf irq
  match s.allocateUacpiEntry vector with
  | none => (.error .noResourceEndTag, s)
  | some (e, s) =>
    let s := { s with
      uacpiHandlers := Function.update s.uacpiHandlers e
        { s.uacpiHandlers e with handler := handler, ctx := ctx } }
    let s := s.registerInterruptHandler vector .trampoline
    let (found, routing) := s.routing.findGsiAndWriteRte vector
    let s := { s with routing := routing }
    if (if found then 1 else 0 : Int) = -1 then
      let s := s.unregisterInterruptHandler vector
      (.error .notFound, { s with uacpiHandlers := Function.update s.uacpiHandlers e {} })
    else (.ok vector.toUInt64, s)

/-- **`uacpi_kernel_uninstall_interrupt_handler`**. -/
def uninstall [DecidableEq H] (s : Osl H C K) (handler : Option H) (irqHandle : UInt64) :
    Except UacpiStatus Unit × Osl H C K :=
  let vector := irqHandle.toUInt8
  match s.getUacpiEntry vector with
  | none => (.error .invalidArgument, s)
  | some e =>
    if (s.uacpiHandlers e).handler ≠ handler then (.error .invalidArgument, s)
    else
      let s := s.unregisterInterruptHandler vector
      (.ok (), { s with uacpiHandlers := Function.update s.uacpiHandlers e {} })

end Osl

/-! ## Histories -/

/-- An installation that returned a handle. -/
structure Installation (H C : Type) where
  irq : UInt32
  handler : Option H
  ctx : Option C
  irqHandle : UInt64

/-- The vector an installation is about. -/
def Installation.vector {H C : Type} (i : Installation H C) : UInt8 := Osl.vectorOf i.irq

/-- One call of uACPI's. -/
inductive UacpiCall (H C : Type)
  | install (irq : UInt32) (handler : Option H) (ctx : Option C)
  | uninstall (handler : Option H) (irqHandle : UInt64)

/-- The state together with the installations not uninstalled since, newest first. -/
structure History (H C K : Type) where
  osl : Osl H C K
  live : List (Installation H C)

namespace History

variable {H C K : Type} [DecidableEq H]

/-- **One call.**  A successful uninstallation ends the newest installation of that handler at that
vector. -/
def step (w : History H C K) : UacpiCall H C → History H C K
  | .install irq handler ctx =>
    match w.osl.install irq handler ctx with
    | (.ok irqHandle, s) => ⟨s, ⟨irq, handler, ctx, irqHandle⟩ :: w.live⟩
    | (.error _, s) => ⟨s, w.live⟩
  | .uninstall handler irqHandle =>
    match w.osl.uninstall handler irqHandle with
    | (.ok (), s) =>
      ⟨s, w.live.eraseP fun i => i.handler = handler ∧ i.vector = irqHandle.toUInt8⟩
    | (.error _, s) => ⟨s, w.live⟩

/-- **Any sequence of calls**, each of which meets a condition on the state before it. -/
inductive Run (ok : Osl H C K → UacpiCall H C → Prop) (s₀ : Osl H C K) : History H C K → Prop
  | start : Run ok s₀ ⟨s₀, []⟩
  | call {w : History H C K} {c : UacpiCall H C} : Run ok s₀ w → ok w.osl c →
      Run ok s₀ (w.step c)

end History

namespace Osl

variable {H C K : Type}

/-- Before the first call every slot is as the program starts it. -/
def Fresh (s : Osl H C K) : Prop := ∀ e, s.uacpiHandlers e = {}

/-- **Delivering an installation's vector** calls its handler with its context. -/
def Calls (s : Osl H C K) (i : Installation H C) : Prop :=
  ∃ h, i.handler = some h ∧ s.hwIrqHandler i.vector = .uacpi h i.ctx

/-- **Uninstalling** an installation with the handle it returned succeeds. -/
def Uninstalls [DecidableEq H] (s s' : Osl H C K) (i : Installation H C) : Prop :=
  s.uninstall i.handler i.irqHandle = (.ok (), s')

end Osl

/-- **Every installation stays reachable**: its handler is called, and it can be uninstalled without
the others losing theirs. -/
def History.AllReachable {H C K : Type} [DecidableEq H] (w : History H C K) : Prop :=
  ∀ (k : ℕ) (i : Installation H C), w.live[k]? = some i → w.osl.Calls i ∧
    ∃ s', w.osl.Uninstalls s' i ∧ ∀ (j : ℕ) (b : Installation H C), j ≠ k →
      w.live[j]? = some b → s'.Calls b

/-- What the code leaves to its callers: an installation names a handler, for a vector that has
none. -/
def Exclusive {H C K : Type} (s : Osl H C K) : UacpiCall H C → Prop
  | .install irq handler _ => handler ≠ none ∧ s.getUacpiEntry (Osl.vectorOf irq) = none
  | .uninstall _ _ => True

namespace Osl

variable {H C K : Type} {s s' : Osl H C K} {e : Fin uacpiMaxHandlers} {v : UInt8}
  {i : Installation H C}

/-! ## What one call does -/

theorem getUacpiEntry_some (h : s.getUacpiEntry v = some e) :
    (s.uacpiHandlers e).inUse = true ∧ (s.uacpiHandlers e).vector = v := by
  have hfound := List.find?_some h
  rw [Bool.and_eq_true, decide_eq_true_iff] at hfound
  exact hfound

theorem getUacpiEntry_none (h : s.getUacpiEntry v = none) (huse : (s.uacpiHandlers e).inUse = true) :
    (s.uacpiHandlers e).vector ≠ v := by
  intro hv
  have hno := List.find?_eq_none.mp h e (List.mem_finRange e)
  rw [huse, decide_eq_true hv] at hno
  exact hno rfl

/-- **The slots in use have distinct vectors**, so the search by vector finds the slot meant. -/
def Separate (s : Osl H C K) : Prop :=
  ∀ e e', (s.uacpiHandlers e).inUse = true → (s.uacpiHandlers e').inUse = true →
    (s.uacpiHandlers e).vector = (s.uacpiHandlers e').vector → e = e'

/-- With distinct vectors the search finds exactly the slot in use for the vector. -/
theorem Separate.getUacpiEntry_eq (h : s.Separate) (huse : (s.uacpiHandlers e).inUse = true) :
    s.getUacpiEntry (s.uacpiHandlers e).vector = some e := by
  cases hget : s.getUacpiEntry (s.uacpiHandlers e).vector with
  | none => exact absurd rfl (getUacpiEntry_none hget huse)
  | some e' =>
    obtain ⟨huse', hv⟩ := getUacpiEntry_some hget
    rw [h e' e huse' huse hv]

/-- **Installing**: the table is full, or a free slot holds the handler, the vector leads to the
trampoline and its route has been written, if it has one.  The rollback is never taken. -/
theorem install_cases (s : Osl H C K) (irq : UInt32) (handler : Option H) (ctx : Option C) :
    ((∀ e, (s.uacpiHandlers e).inUse = true) ∧
        s.install irq handler ctx = (.error .noResourceEndTag, s)) ∨
      ∃ e s', (s.uacpiHandlers e).inUse = false ∧
        s.install irq handler ctx = (.ok (vectorOf irq).toUInt64, s') ∧
        s'.uacpiHandlers = Function.update s.uacpiHandlers e ⟨handler, ctx, true, vectorOf irq⟩ ∧
        s'.interruptHandlers
          = Function.update s.interruptHandlers (vectorOf irq) (some .trampoline) ∧
        s'.routing = (s.routing.findGsiAndWriteRte (vectorOf irq)).2 := by
  rw [install]
  simp only [allocateUacpiEntry]
  cases hfree : (List.finRange uacpiMaxHandlers).find? fun e => !(s.uacpiHandlers e).inUse with
  | none =>
    refine Or.inl ⟨fun e => ?_, rfl⟩
    have hno := List.find?_eq_none.mp hfree e (List.mem_finRange e)
    rwa [Bool.not_eq_true', Bool.not_eq_false] at hno
  | some e =>
    have he := List.find?_some hfree
    rw [Bool.not_eq_true'] at he
    refine Or.inr ⟨e,
      { uacpiHandlers := Function.update s.uacpiHandlers e ⟨handler, ctx, true, vectorOf irq⟩
        interruptHandlers :=
          Function.update s.interruptHandlers (vectorOf irq) (some .trampoline)
        routing := (s.routing.findGsiAndWriteRte (vectorOf irq)).2 }, he, ?_, rfl, rfl, rfl⟩
    simp only [Option.map_some, registerInterruptHandler, Function.update_self,
      Function.update_idem]
    refine if_neg ?_
    split <;> norm_num

/-- **Uninstalling**: nothing happens, or the slot found for the vector is cleared and the vector
has no handler any more. -/
theorem uninstall_cases [DecidableEq H] (s : Osl H C K) (handler : Option H) (irqHandle : UInt64) :
    s.uninstall handler irqHandle = (.error .invalidArgument, s) ∨
      ∃ e s', s.getUacpiEntry irqHandle.toUInt8 = some e ∧
        (s.uacpiHandlers e).handler = handler ∧ s.uninstall handler irqHandle = (.ok (), s') ∧
        s'.uacpiHandlers = Function.update s.uacpiHandlers e {} ∧
        s'.interruptHandlers = Function.update s.interruptHandlers irqHandle.toUInt8 none := by
  rw [uninstall]
  cases hget : s.getUacpiEntry irqHandle.toUInt8 with
  | none => exact Or.inl rfl
  | some e =>
    by_cases hsame : (s.uacpiHandlers e).handler = handler
    · refine Or.inr ⟨e, { s.unregisterInterruptHandler irqHandle.toUInt8 with
        uacpiHandlers := Function.update s.uacpiHandlers e {} }, rfl, hsame, ?_, rfl, rfl⟩
      simp only [ne_eq, hsame, not_true_eq_false, if_false]
      rfl
    · exact Or.inl (by simp only [ne_eq, hsame, not_false_eq_true, if_true])

/-! ## The table and the array stay in step -/

/-- **An installation is in place**: a slot holds it and its vector leads to the trampoline. -/
structure Holds (s : Osl H C K) (i : Installation H C) : Prop where
  slot : ∃ e, s.uacpiHandlers e = ⟨i.handler, i.ctx, true, i.vector⟩
  handler : i.handler ≠ none
  irqHandle : i.irqHandle.toUInt8 = i.vector
  trampoline : s.interruptHandlers i.vector = some .trampoline

/-- An installation in place is called. -/
theorem Holds.calls (h : s.Holds i) (hs : s.Separate) : s.Calls i := by
  obtain ⟨e, he⟩ := h.slot
  obtain ⟨f, hf⟩ := Option.ne_none_iff_exists'.mp h.handler
  have hget : s.getUacpiEntry i.vector = some e := by
    have := hs.getUacpiEntry_eq (e := e) (by rw [he])
    rwa [he] at this
  refine ⟨f, hf, ?_⟩
  rw [hwIrqHandler, h.trampoline]
  simp only [uacpiInterruptTrampoline, hget, he, hf]

/-- Clearing the slot of one vector leaves an installation at another in place. -/
theorem Holds.of_clear (h : s.Holds i) {e : Fin uacpiMaxHandlers} {v : UInt8}
    (he : (s.uacpiHandlers e).vector = v) (hv : i.vector ≠ v)
    (htable : s'.uacpiHandlers = Function.update s.uacpiHandlers e {})
    (harray : s'.interruptHandlers = Function.update s.interruptHandlers v none) : s'.Holds i := by
  obtain ⟨e', he'⟩ := h.slot
  have hne : e' ≠ e := by
    rintro rfl
    rw [he'] at he
    exact hv he
  refine ⟨⟨e', ?_⟩, h.handler, h.irqHandle, ?_⟩
  · rw [htable, Function.update_of_ne hne, he']
  · rw [harray, Function.update_of_ne hv, h.trampoline]

/-- Filling a free slot for one vector leaves an installation at another in place. -/
theorem Holds.of_fill (h : s.Holds i) {e : Fin uacpiMaxHandlers} {v : UInt8}
    {x : UacpiHandlerEntry H C} (he : (s.uacpiHandlers e).inUse = false) (hv : i.vector ≠ v)
    (htable : s'.uacpiHandlers = Function.update s.uacpiHandlers e x)
    (harray : s'.interruptHandlers = Function.update s.interruptHandlers v (some .trampoline)) :
    s'.Holds i := by
  obtain ⟨e', he'⟩ := h.slot
  have hne : e' ≠ e := by
    rintro rfl
    rw [he'] at he
    exact Bool.false_ne_true he.symm
  refine ⟨⟨e', ?_⟩, h.handler, h.irqHandle, ?_⟩
  · rw [htable, Function.update_of_ne hne, he']
  · rw [harray, Function.update_of_ne hv, h.trampoline]

/-- Clearing a slot keeps the vectors distinct. -/
theorem Separate.of_clear (h : s.Separate)
    (htable : s'.uacpiHandlers = Function.update s.uacpiHandlers e {}) : s'.Separate := by
  have hback : ∀ d, (s'.uacpiHandlers d).inUse = true →
      s'.uacpiHandlers d = s.uacpiHandlers d := by
    intro d hd
    rw [htable] at hd ⊢
    by_cases hde : d = e
    · rw [hde, Function.update_self] at hd
      exact absurd hd Bool.false_ne_true
    · rw [Function.update_of_ne hde]
  intro d d' hd hd' hv
  have hs := hback d hd
  have hs' := hback d' hd'
  rw [hs] at hd hv
  rw [hs'] at hd' hv
  exact h d d' hd hd' hv

/-- Filling a slot for a vector no slot has keeps the vectors distinct. -/
theorem Separate.of_fill (h : s.Separate) {x : UacpiHandlerEntry H C}
    (hx : s.getUacpiEntry x.vector = none)
    (htable : s'.uacpiHandlers = Function.update s.uacpiHandlers e x) : s'.Separate := by
  intro d d' hd hd' hv
  rw [htable] at hd hd' hv
  by_cases hde : d = e <;> by_cases hde' : d' = e
  · rw [hde, hde']
  · rw [hde, Function.update_self, Function.update_of_ne hde'] at hv
    rw [Function.update_of_ne hde'] at hd'
    exact absurd hv.symm (getUacpiEntry_none hx hd')
  · rw [hde', Function.update_self, Function.update_of_ne hde] at hv
    rw [Function.update_of_ne hde] at hd
    exact absurd hv (getUacpiEntry_none hx hd)
  · rw [Function.update_of_ne hde] at hd hv
    rw [Function.update_of_ne hde'] at hd' hv
    exact h d d' hd hd' hv

end Osl

namespace History

open Osl

variable {H C K : Type} [DecidableEq H] {s₀ : Osl H C K} {w : History H C K}

/-- **The invariant**: the slots in use have distinct vectors, and so have the live installations,
each of which is in place. -/
structure InStep (w : History H C K) : Prop where
  separate : w.osl.Separate
  holds : ∀ i ∈ w.live, w.osl.Holds i
  distinct : w.live.Pairwise fun i j => i.vector ≠ j.vector

omit [DecidableEq H] in
theorem inStep_start (h : s₀.Fresh) : InStep ⟨s₀, []⟩ where
  separate := by
    intro e e' he
    rw [h e] at he
    exact absurd he Bool.false_ne_true
  holds := by
    intro i hi
    exact absurd hi List.not_mem_nil
  distinct := List.Pairwise.nil

/-- **One call keeps the invariant** when it is exclusive. -/
theorem InStep.step (h : w.InStep) {c : UacpiCall H C} (hc : Exclusive w.osl c) :
    (w.step c).InStep := by
  cases c with
  | install irq handler ctx =>
    obtain ⟨hhandler, hnew⟩ := hc
    obtain ⟨-, heq⟩ | ⟨e, s', hfree, heq, htable, harray, -⟩ :=
      install_cases w.osl irq handler ctx
    · simp only [History.step, heq]
      exact h
    · simp only [History.step, heq]
      have hapart : ∀ i ∈ w.live, i.vector ≠ vectorOf irq := by
        intro i hi
        obtain ⟨d, hd⟩ := (h.holds i hi).slot
        have := getUacpiEntry_none hnew (e := d) (by rw [hd])
        rwa [hd] at this
      refine ⟨h.separate.of_fill hnew htable, ?_, List.Pairwise.cons ?_ h.distinct⟩
      · intro i hi
        rcases List.mem_cons.mp hi with rfl | hi
        · refine ⟨⟨e, ?_⟩, hhandler, ?_, ?_⟩
          · rw [htable, Function.update_self]
            rfl
          · exact UInt8.toUInt8_toUInt64 _
          · rw [harray]
            exact Function.update_self ..
        · exact (h.holds i hi).of_fill hfree (hapart i hi) htable harray
      · intro i hi
        exact (hapart i hi).symm
  | uninstall handler irqHandle =>
    obtain heq | ⟨e, s', hget, hhandler, heq, htable, harray⟩ :=
      uninstall_cases w.osl handler irqHandle
    · simp only [History.step, heq]
      exact h
    · simp only [History.step, heq]
      obtain ⟨huse, hv⟩ := getUacpiEntry_some hget
      refine ⟨h.separate.of_clear htable, ?_, h.distinct.sublist List.eraseP_sublist⟩
      intro i hi
      have hi' := List.mem_of_mem_eraseP hi
      refine (h.holds i hi').of_clear hv ?_ htable harray
      intro hvi
      -- the slot found is the installation's own, so its handler is the one given
      obtain ⟨d, hd⟩ := (h.holds i hi').slot
      have hde : d = e := h.separate d e (by rw [hd]) huse (by rw [hd, hv]; exact hvi)
      have hsame : i.handler = handler := by
        rw [← hhandler, ← hde, hd]
      let p : Installation H C → Bool := fun j =>
        decide (j.handler = handler ∧ j.vector = irqHandle.toUInt8)
      have hp : p i = true := decide_eq_true ⟨hsame, hvi⟩
      obtain ⟨a, l, r, hl, ha, hsplit, herase⟩ := List.exists_of_eraseP hi' hp
      rw [show (List.eraseP p w.live) = l ++ r from herase] at hi
      have hva := (of_decide_eq_true ha).2
      have hpair := h.distinct
      rw [hsplit, List.pairwise_append] at hpair
      rcases List.mem_append.mp hi with hil | hir
      · exact hpair.2.2 i hil a List.mem_cons_self (hvi.trans hva.symm)
      · exact (List.pairwise_cons.mp hpair.2.1).1 i hir (hva.trans hvi.symm)

theorem Run.inStep (h₀ : s₀.Fresh) (h : Run Exclusive s₀ w) : w.InStep := by
  induction h with
  | start => exact inStep_start h₀
  | call _ hc ih => exact ih.step hc

/-- With the invariant every live installation is reachable. -/
theorem InStep.reachesAll (h : w.InStep) : w.AllReachable := by
  intro k i hk
  have hi := h.holds i (List.mem_of_getElem? hk)
  refine ⟨hi.calls h.separate, ?_⟩
  obtain ⟨d, hd⟩ := hi.slot
  have hget : w.osl.getUacpiEntry i.irqHandle.toUInt8 = some d := by
    have := h.separate.getUacpiEntry_eq (e := d) (by rw [hd])
    rwa [hd, ← hi.irqHandle] at this
  obtain heq | ⟨e, s', hget', hhandler, heq, htable, harray⟩ :=
    uninstall_cases w.osl i.handler i.irqHandle
  · rw [uninstall, hget] at heq
    simp only [hd, ne_eq, not_true_eq_false, if_false] at heq
    exact absurd (Prod.mk.inj heq).1 (by simp only [reduceCtorEq, not_false_eq_true])
  · refine ⟨s', heq, ?_⟩
    intro j b hj hb
    have hbv : b.vector ≠ i.irqHandle.toUInt8 := by
      rw [hi.irqHandle]
      obtain ⟨hjl, rfl⟩ := List.getElem?_eq_some_iff.mp hb
      obtain ⟨hkl, rfl⟩ := List.getElem?_eq_some_iff.mp hk
      have hpair := List.pairwise_iff_getElem.mp h.distinct
      rcases lt_or_gt_of_ne hj with hlt | hgt
      · exact hpair j k hjl hkl hlt
      · exact (hpair k j hkl hjl hgt).symm
    have hholds := (h.holds b (List.mem_of_getElem? hb)).of_clear (getUacpiEntry_some hget').2 hbv
      htable harray
    exact hholds.calls (h.separate.of_clear htable)

/-- **Installed handlers stay reachable** in every run whose installations each name a handler for
a vector that has none. -/
theorem Run.allReachable (h₀ : s₀.Fresh) (h : Run Exclusive s₀ w) : w.AllReachable :=
  (h.inStep h₀).reachesAll

end History

/-! ## Two handlers on the SCI's interrupt -/

namespace History

open Osl

/-- The state at boot of a machine with two I/O APICs. -/
def boot : Osl ℕ ℕ ℕ := ⟨fun _ => {}, fun _ => none, Routing.twoIoapics⟩

theorem fresh_boot : boot.Fresh := fun _ => rfl

/-- Two handlers on two interrupts, the first of them uninstalled again: the second is reachable. -/
theorem allReachable_boot :
    ((((⟨boot, []⟩ : History ℕ ℕ ℕ).step (.install 9 (some 1) none)).step
      (.install 1 (some 2) (some 7))).step (.uninstall (some 1) 41)).AllReachable := by
  refine Run.allReachable fresh_boot (Run.call (Run.call (Run.call Run.start ?_) ?_) trivial)
  · exact ⟨Option.some_ne_none 1, rfl⟩
  · exact ⟨Option.some_ne_none 2, rfl⟩

/-- What uACPI promises: an interrupt below 224, a handler, and a route for its vector. -/
def Routed {H C K : Type} (s : Osl H C K) : UacpiCall H C → Prop
  | .install irq handler _ =>
    irq.toNat < 224 ∧ handler ≠ none ∧ (s.routing.findGsiAndWriteRte (vectorOf irq)).1 = true
  | .uninstall _ _ => True

/-- **Of two handlers on interrupt 9 the second is never called.** -/
theorem not_allReachable_irq9 :
    ¬ ∀ (s₀ : Osl ℕ ℕ ℕ) (w : History ℕ ℕ ℕ), s₀.Fresh → Run Routed s₀ w → w.AllReachable := by
  intro h
  have hfirst : Run Routed boot (step ⟨boot, []⟩ (.install 9 (some 1) none)) :=
    Run.call Run.start ⟨by decide, Option.some_ne_none 1, rfl⟩
  have hboth := Run.call (c := .install 9 (some 2) none) hfirst
    ⟨by decide, Option.some_ne_none 2, rfl⟩
  obtain ⟨⟨f, hf, hcalled⟩, -⟩ := h boot _ fresh_boot hboth 0 _ rfl
  obtain rfl := Option.some.inj hf
  have hother : (step (step ⟨boot, []⟩ (.install 9 (some 1) none))
      (.install 9 (some 2) none)).osl.hwIrqHandler 41 = .uacpi 1 none := rfl
  exact absurd (hother.symm.trans hcalled) (by simp)

end History

/-! ## All or nothing -/

namespace Osl

open Ioapic Routing

variable {H C K : Type} {s s' : Osl H C K} {irq : UInt32}

/-- The GSI of an IRQ: its first override says which, else it is the IRQ's own number. -/
def gsiOfIrq (s : Osl H C K) (irq : UInt32) : UInt32 :=
  match s.routing.overrides.find? (fun o => o.irqSource.toUInt32 = irq) with
  | some override => override.gsi
  | none => irq

/-- **An IRQ is connected**: an initialized I/O APIC owns its GSI, and the GSI's redirection entry was
written, with the handler's vector. -/
def Connects (s s' : Osl H C K) (irq : UInt32) : Prop :=
  ∃ (i : ℕ) (a a' : Ioapic), s.routing.ioApicObjs[i]? = some a ∧ a.initialized = true ∧
    (s.gsiOfIrq irq).toNat ∈ a.range ∧ s'.routing.ioApicObjs[i]? = some a' ∧
    redirectionLow (a.pin (s.gsiOfIrq irq)) ∈ a'.chip.written.drop a.chip.written.length ∧
    (a'.chip.regs (redirectionLow (a.pin (s.gsiOfIrq irq)))).extractLsb' 0 8 =
      (vectorOf irq).toBitVec

/-- **All or nothing**: an installation that succeeds has connected its IRQ, and one that fails has
changed neither the table nor the array. -/
def AllOrNothing (s : Osl H C K) (irq : UInt32) (handler : Option H) (ctx : Option C) : Prop :=
  match s.install irq handler ctx with
  | (.ok _, s') => s.Connects s' irq
  | (.error _, s') =>
    s'.uacpiHandlers = s.uacpiHandlers ∧ s'.interruptHandlers = s.interruptHandlers

/-- The vector's GSI has an owner and arrives, in eight bits, at the pin of the IRQ's GSI there. -/
def Reaches (s : Osl H C K) (irq : UInt32) : Prop :=
  ∃ i a, getIoapicForGsi (s.routing.route (vectorOf irq)).1 s.routing.ioApicObjs = some i ∧
    s.routing.ioApicObjs[i]? = some a ∧ (s.gsiOfIrq irq).toNat ∈ a.range ∧
    (s.routing.route (vectorOf irq)).1.toNat % 256 = a.pin (s.gsiOfIrq irq)

/-- Writing the route connects the IRQ exactly when it reaches its pin. -/
theorem connects_iff (hs : s.routing.Sized)
    (hr : s'.routing = (s.routing.findGsiAndWriteRte (vectorOf irq)).2) :
    s.Connects s' irq ↔ s.Reaches irq := by
  obtain ⟨hnone, heq⟩ | ⟨i, hi, heq⟩ := s.routing.findGsiAndWriteRte_cases (vectorOf irq) (-1)
  · rw [heq] at hr
    constructor
    · rintro ⟨j, b, b', hb, -, -, hb', hmem, -⟩
      rw [hr] at hb'
      obtain rfl := Option.some.inj (hb.symm.trans hb')
      rw [List.drop_length] at hmem
      exact absurd hmem List.not_mem_nil
    · rintro ⟨j, b, hj, -⟩
      exact absurd (hj.symm.trans hnone) (Option.some_ne_none j)
  · rw [heq] at hr
    obtain ⟨a, ha, -⟩ := exists_of_getIoapicForGsi hi
    have hinit := (owner_spec hi ha).1
    have hprograms := programs_writeRte hinit (s.routing.route (vectorOf irq)).1 (vectorOf irq)
      (s.routing.destinationOf (-1)) (s.routing.route (vectorOf irq)).2
    constructor
    · rintro ⟨j, b, b', hb, -, hrange, hb', hmem, -⟩
      rw [hr] at hb'
      obtain ⟨rfl, hreg⟩ := (mem_written_writeRte hinit ha hb hb').mp hmem
      obtain rfl := Option.some.inj (ha.symm.trans hb)
      have hlow := hreg.resolve_right (redirectionLow_ne_high _ _)
      have hentries := hs.entries_le hi ha
      have hpin : a.pin (s.gsiOfIrq irq) < 256 := by
        obtain ⟨hle, hlt⟩ := hrange
        rw [pin]
        omega
      exact ⟨j, a, hi, ha, hrange,
        (redirectionLow_inj hpin (Nat.mod_lt _ (by norm_num)) hlow).symm⟩
    · rintro ⟨j, b, hj, hb, hrange, hpin⟩
      obtain rfl := Option.some.inj (hi.symm.trans hj)
      obtain rfl := Option.some.inj (ha.symm.trans hb)
      have hat : s'.routing.ioApicObjs[i]? = some (a.writeRte
          (s.routing.route (vectorOf irq)).1.toUInt8 (vectorOf irq)
          (s.routing.destinationOf (-1)) (s.routing.route (vectorOf irq)).2 false) := by
        rw [hr, List.getElem?_modify_eq, ha]
        rfl
      refine ⟨i, a, _, ha, hinit, hrange, hat, ?_, ?_⟩
      · rw [hprograms.written, List.drop_left, hpin]
        exact List.mem_cons_self
      · rw [← hpin, hprograms.vector]

/-- **Installing is all or nothing** exactly when the table is full or the IRQ reaches its pin. -/
theorem allOrNothing_iff (hs : s.routing.Sized) (irq : UInt32) (handler : Option H)
    (ctx : Option C) :
    s.AllOrNothing irq handler ctx ↔
      (∀ e, (s.uacpiHandlers e).inUse = true) ∨ s.Reaches irq := by
  obtain ⟨hfull, heq⟩ | ⟨e, s', hfree, heq, -, -, hr⟩ := install_cases s irq handler ctx
  · rw [AllOrNothing, heq]
    exact iff_of_true ⟨rfl, rfl⟩ (Or.inl hfull)
  · rw [AllOrNothing, heq]
    refine (connects_iff hs hr).trans (or_iff_right fun hfull => ?_).symm
    exact Bool.false_ne_true (hfree.symm.trans (hfull e))

/-! ## An interrupt no I/O APIC owns -/

/-- The machine of two I/O APICs has a pin for IRQ 9. -/
theorem allOrNothing_irq9 : History.boot.AllOrNothing 9 (some 1) none := by
  refine (allOrNothing_iff (fun a ha _ => (wellFormed_twoIoapics.ready a ha).entries) 9 _ _).mpr
    (Or.inr ⟨0, ioapicAt 0, rfl, rfl, ?_, rfl⟩)
  exact show 9 ∈ Set.Ico 0 (0 + 24) by decide

/-- **IRQ 48, which no I/O APIC owns, is installed all the same.** -/
theorem not_allOrNothing_irq48 :
    ¬ ∀ (s : Osl ℕ ℕ ℕ) (irq : UInt32) (handler : Option ℕ) (ctx : Option ℕ),
      s.routing.WellFormed → s.AllOrNothing irq handler ctx := by
  intro h
  have hall := h History.boot 48 (some 1) none wellFormed_twoIoapics
  obtain ⟨i, a, a', ha, -, hrange, -⟩ : History.boot.Connects _ 48 := hall
  have hlt : ∀ b ∈ twoIoapics.ioApicObjs, b.gsiBase.toNat + b.maxEntries.toNat ≤ 48 := by decide
  exact absurd hrange.2 (not_lt.mpr (hlt a (List.mem_of_getElem? ha)))

end Osl

end Interrupts

end MioOS
