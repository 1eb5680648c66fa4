import MioOS.Syscall.Machine

/-!
# Syscall/Entry — `syscall_entry` and what it does to the user's registers

The routine is its four blocks: `entryBlock` up to the range check, `callBlock` around the handler,
`badBlock` for a rejected number and `doneBlock`, which restores and returns.  `Preserved` is what
`docs/arch/cpu_structures.md` promises to user space.  Fifteen of the saved registers come back
whatever they hold; `rbx` and `rbp` are pushed in one order and popped in the same order, so they
come back exchanged (`syscallEntry_regs`).
-/

namespace MioOS

namespace Syscall

open ByteMemory StackFrame

/-- `-ENOSYS`. -/
def negENOSYS : UInt64 := -38

/-- The registers pushed after the user's stack pointer, in the order of the pushes. -/
def savedRegs : List Reg :=
  [.r11, .rcx, .rax, .rdi, .rsi, .rdx, .r10, .r8, .r9, .rbx, .rbp, .r12, .r13, .r14, .r15]

/-- The registers popped before the saved `rax` is skipped, in the order of the pops. -/
def restoredRegs : List Reg :=
  [.r15, .r14, .r13, .r12, .rbx, .rbp, .r9, .r8, .r10, .rdx, .rsi, .rdi]

/-- The kernel around the routine: where the linker put `syscall_table` and `__NR_syscall_max`,
the return address of the `call`, and what the code at an address does from the instruction after
the `call` on, up to and with its `ret`. -/
structure Kernel where
  syscallTable : UInt64
  nrSyscallMax : UInt64
  returnAddress : UInt64
  code : UInt64 → Machine → Machine

/-- The switch to the kernel's stack. -/
def switchBlock : List Instr :=
  [.swapgs, .storeGs 0x08 .rsp, .loadGs .rsp 0x00, .pushGs 0x08]

/-- From `syscall_entry` to the range check. -/
def entryBlock (k : Kernel) : List Instr :=
  switchBlock ++ pushes savedRegs ++ [.mov .r11 .rax, .cmpMem .r11 k.nrSyscallMax]

/-- The handler's arguments, with interrupts on. -/
def argBlock : List Instr := [.mov .rcx .r10, .sti]

/-- The code that `[syscall_table + r11*8]` names. -/
def handler (k : Kernel) (m : Machine) : Machine → Machine :=
  k.code (word m.mem (k.syscallTable + m.regs .r11 * 8))

/-- `call [syscall_table + r11*8]`. -/
def call (k : Kernel) (m : Machine) : Machine := handler k m (m.push k.returnAddress)

/-- `.bad`. -/
def badBlock : List Instr := [.movImm .rax negENOSYS]

/-- `.done`. -/
def doneBlock : List Instr :=
  pops restoredRegs ++ [.addImm .rsp 8, .pop .rcx, .pop .r11, .pop .rsp, .swapgs, .sysret]

/-- `ja .bad`: the number is above `__NR_syscall_max`. -/
def above (m : Machine) : Bool := !m.carry && !m.zero

/-- The machine at `.done`. -/
def atDone (k : Kernel) (m : Machine) : Machine :=
  let m := run (entryBlock k) m
  if above m then run badBlock m else run [.cli] (call k (run argBlock m))

/-- **`syscall_entry`.** -/
def syscallEntry (k : Kernel) (m : Machine) : Machine := run doneBlock (atDone k m)

/-! ## What a handler may do -/

/-- The registers a function must preserve. -/
def calleeSaved : List Reg := [.rbx, .rbp, .r12, .r13, .r14, .r15]

/-- **The System V ABI** for a function called at a machine, its return address on the stack: it
preserves the callee-saved registers, returns with the stack pointer above the return address and
leaves the `frame` words of its caller's frame there alone. -/
structure ObeysAbi (frame : ℕ) (f : Machine → Machine) (m : Machine) : Prop where
  preserved : ∀ r ∈ calleeSaved, (f m).regs r = m.regs r
  returned : (f m).regs .rsp = m.regs .rsp + 8
  callerFrame : ∀ i < frame,
    word (f m).mem (slot (m.regs .rsp + 8) i) = word m.mem (slot (m.regs .rsp + 8) i)

/-- The words of the saved user state. -/
def frameWords : ℕ := 16

/-- **The machine at the `call`** of a system call whose number is let through. -/
def atCall (k : Kernel) (m : Machine) : Option Machine :=
  let m := run (entryBlock k) m
  if above m then none else some (run argBlock m)

/-- **The handler of this call obeys the ABI** where it is called. -/
def HandlerObeys (k : Kernel) (m : Machine) : Prop :=
  ∀ m₁ ∈ atCall k m, ObeysAbi frameWords (handler k m₁) (m₁.push k.returnAddress)

/-- What the handler of this call returns, and `-ENOSYS` if its number is rejected. -/
def resultOf (k : Kernel) (m : Machine) : UInt64 :=
  let m := run (entryBlock k) m
  if above m then negENOSYS else (call k (run argBlock m)).regs .rax

/-- The registers user space gets back: the stack pointer, `sysret`'s two and all others but `rax`. -/
def userRegs : List Reg :=
  [.rsp, .rcx, .r11, .rbx, .rbp, .r12, .r13, .r14, .r15, .rdi, .rsi, .rdx, .r10, .r8, .r9]

/-- **A system call preserves the user's state.** -/
structure Preserved (k : Kernel) (m m' : Machine) : Prop where
  regs : ∀ r ∈ userRegs, m'.regs r = m.regs r
  result : m'.regs .rax = resultOf k m

/-! ## The saved state -/

/-- The words on the stack after the pushes, from the top. -/
def savedFrame (m : Machine) : List UInt64 := (savedRegs.map m.regs).reverse ++ [m.regs .rsp]

variable {k : Kernel} {m : Machine} {r : Reg}

/-- The first four instructions put the user's stack pointer on the kernel's stack. -/
theorem run_switch (m : Machine) :
    (run switchBlock m).Stack [m.regs .rsp] ∧
      ∀ r, r ≠ .rsp → (run switchBlock m).regs r = m.regs r := by
  let m₁ := exec (exec m .swapgs) (.storeGs 0x08 .rsp)
  have hword : word m₁.mem (m₁.gsBase + 0x08) = m.regs .rsp := word_setWord
  let m₂ := m₁.setReg .rsp (word m₁.mem (m₁.gsBase + 0x00))
  have hrun : run switchBlock m = m₂.push (m.regs .rsp) := by
    rw [← hword]
    rfl
  have hempty : m₂.Stack [] := trivial
  rw [hrun]
  exact ⟨hempty.push (by norm_num), fun r hr =>
    (Machine.push_of_ne hr).trans (Machine.setReg_of_ne hr)⟩

/-- The stack pointer the routine loads from `[gs:0x00]`, after its store to `[gs:0x08]`. -/
def kernelRsp (m : Machine) : UInt64 :=
  word (setWord m.mem (m.kernelGsBase + 0x08) (m.regs .rsp)) (m.kernelGsBase + 0x00)

theorem run_switch_rsp (m : Machine) : (run switchBlock m).regs .rsp = kernelRsp m - 8 :=
  Machine.push_rsp

/-- The pushes end sixteen words below that. -/
theorem run_entryBlock_rsp (k : Kernel) (m : Machine) :
    (run (entryBlock k) m).regs .rsp = below (kernelRsp m) 15 := by
  rw [entryBlock, run_append, run_append, run_cons, run_cons, run_nil, exec_mov, exec_cmpMem_regs,
    Machine.setReg_of_ne (by decide), run_pushes_rsp (by decide), run_switch_rsp]
  exact (below_succ (kernelRsp m) 14).symm

/-- **Up to the range check** the routine saves the user's registers and changes only `rsp` and
`r11`. -/
theorem run_entryBlock (k : Kernel) (m : Machine) :
    (run (entryBlock k) m).Stack (savedFrame m) ∧
      ∀ r, r ≠ .rsp → r ≠ .r11 → (run (entryBlock k) m).regs r = m.regs r := by
  obtain ⟨hstack, hregs⟩ := run_switch m
  have hrsp : Reg.rsp ∉ savedRegs := by decide
  obtain ⟨hsaved, hkept⟩ := run_pushes hrsp hstack (by simp [savedRegs])
  have hmap : savedRegs.map (run switchBlock m).regs = savedRegs.map m.regs :=
    List.map_congr_left fun r hr => hregs r (by rintro rfl; exact absurd hr (by decide))
  rw [hmap] at hsaved
  rw [entryBlock, run_append, run_append, run_cons, run_cons, run_nil, exec_mov]
  refine ⟨(hsaved.setReg (by decide)).congr (exec_cmpMem_mem ..) (by rw [exec_cmpMem_regs]),
    fun r hr h11 => ?_⟩
  rw [exec_cmpMem_regs, Machine.setReg_of_ne h11, hkept r hr, hregs r hr]

/-- **At `.done`** the saved frame is on top of the stack again. -/
theorem atDone_stack (hk : HandlerObeys k m) : (atDone k m).Stack (savedFrame m) := by
  obtain ⟨hstack, -⟩ := run_entryBlock k m
  rw [HandlerObeys, atCall] at hk
  rw [atDone]
  generalize run (entryBlock k) m = m₀ at hstack hk ⊢
  split
  · rw [badBlock, run_cons, run_nil, exec_movImm]
    exact hstack.setReg (by decide)
  · rename_i hbelow
    rw [if_neg hbelow] at hk
    have harg : (run argBlock m₀).Stack (savedFrame m) := by
      rw [argBlock, run_cons, run_cons, run_nil, exec_mov]
      exact (hstack.setReg (by decide)).congr (exec_sti_mem _) (by rw [exec_sti_regs])
    have habi := hk _ rfl
    generalize run argBlock m₀ = m₁ at harg habi ⊢
    have hpushed : (m₁.push k.returnAddress).Stack (k.returnAddress :: savedFrame m) :=
      harg.push (by simp [savedFrame, savedRegs])
    have hcalled : (call k m₁).Stack (savedFrame m) := by
      rw [call, Machine.Stack, habi.returned]
      exact hpushed.tail.congr fun i hi => habi.callerFrame i hi
    exact hcalled.congr (exec_cli_mem _) (by rw [run_cons, run_nil, exec_cli_regs])

theorem atDone_rax (k : Kernel) (m : Machine) : (atDone k m).regs .rax = resultOf k m := by
  rw [atDone, resultOf]
  split
  · exact Machine.setReg_self
  · rw [run_cons, run_nil, exec_cli_regs]

/-- The register whose saved value a register comes back with. -/
def source (r : Reg) : Reg := Equiv.swap .rbx .rbp r

/-- **Restoring**: the pops hand the saved words out in the order of the stack. -/
theorem run_doneBlock {m m' : Machine} (h : m'.Stack (savedFrame m)) :
    (∀ r ∈ userRegs, (run doneBlock m').regs r = m.regs (source r)) ∧
      (run doneBlock m').regs .rax = m'.regs .rax := by
  have hframe : savedFrame m = restoredRegs.map (fun r => m.regs (source r)) ++
      [m.regs .rax, m.regs .rcx, m.regs .r11, m.regs .rsp] := rfl
  rw [hframe] at h
  obtain ⟨hstack, hpopped, hother⟩ := run_pops (by decide) (by decide) h
  rw [doneBlock, run_append]
  generalize run (pops restoredRegs) m' = m₁ at hstack hpopped hother ⊢
  -- the saved `rax` is skipped
  have hstack₂ : (exec m₁ (.addImm .rsp 8)).Stack [m.regs .rcx, m.regs .r11, m.regs .rsp] := by
    rw [Machine.Stack, exec_addImm_regs, exec_addImm_mem, Machine.setReg_self]
    exact hstack.tail
  have hkept₂ (r : Reg) (hr : r ≠ .rsp) : (exec m₁ (.addImm .rsp 8)).regs r = m₁.regs r := by
    rw [exec_addImm_regs, Machine.setReg_of_ne hr]
  simp only [run_cons, run_nil, exec_pop, exec_swapgs_regs, exec_sysret_regs]
  generalize exec m₁ (.addImm .rsp 8) = m₂ at hstack₂ hkept₂ ⊢
  have hstack₃ : (m₂.pop .rcx).Stack [m.regs .r11, m.regs .rsp] := hstack₂.pop (by decide)
  have hstack₄ : ((m₂.pop .rcx).pop .r11).Stack [m.regs .rsp] := hstack₃.pop (by decide)
  have hkept (r : Reg) (hr : r ∉ [Reg.rsp, .rcx, .r11]) :
      (((m₂.pop .rcx).pop .r11).pop .rsp).regs r = m₁.regs r := by
    simp only [List.mem_cons, List.not_mem_nil, or_false, not_or] at hr
    obtain ⟨hrsp, hrcx, hr11⟩ := hr
    rw [Machine.pop_of_ne hrsp hrsp, Machine.pop_of_ne hr11 hrsp, Machine.pop_of_ne hrcx hrsp,
      hkept₂ r hrsp]
  refine ⟨fun r hr => ?_, ?_⟩
  · cases r with
    | rsp => exact hstack₄.pop_self
    | rcx =>
      rw [Machine.pop_of_ne (by decide) (by decide), Machine.pop_of_ne (by decide) (by decide)]
      exact hstack₂.pop_self
    | r11 =>
      rw [Machine.pop_of_ne (by decide) (by decide)]
      exact hstack₃.pop_self
    | rax => exact absurd hr (by decide)
    | _ => exact (hkept _ (by decide)).trans (hpopped _ (by decide))
  · rw [hkept .rax (by decide), hother .rax (by decide) (by decide)]

/-- **What user space gets back**: every register it had on entry, with `rbx` and `rbp` exchanged,
and the result in `rax`. -/
theorem syscallEntry_regs (hk : HandlerObeys k m) :
    (∀ r ∈ userRegs, (syscallEntry k m).regs r = m.regs (source r)) ∧
      (syscallEntry k m).regs .rax = resultOf k m := by
  obtain ⟨hregs, hrax⟩ := run_doneBlock (atDone_stack hk)
  exact ⟨hregs, hrax.trans (atDone_rax k m)⟩

/-- **The user's state is preserved** exactly when `rbx` and `rbp` hold the same value. -/
theorem preserved_iff (hk : HandlerObeys k m) :
    Preserved k m (syscallEntry k m) ↔ m.regs .rbx = m.regs .rbp := by
  obtain ⟨hregs, hrax⟩ := syscallEntry_regs hk
  constructor
  · intro h
    exact (hregs .rbp (by decide)).symm.trans (h.regs .rbp (by decide))
  · intro h
    refine ⟨fun r hr => (hregs r hr).trans ?_, hrax⟩
    cases r with
    | rbx => exact h.symm
    | rbp => exact h
    | _ => rfl

/-! ## A handler that uses its stack, and what it costs its caller -/

/-- A handler that returns a value. -/
def returns (v : UInt64) (m : Machine) : Machine :=
  (m.setReg .rax v).setReg .rsp (m.regs .rsp + 8)

/-- Saving `rbx` on the stack and counting in a global. -/
def saveAndCount (counter : UInt64) (m : Machine) : Machine :=
  let m := m.push (m.regs .rbx)
  let m := m.setReg .rbx (word m.mem counter + 1)
  { m with mem := setWord m.mem counter (m.regs .rbx) }

/-- A handler that saves `rbx`, counts its calls and returns a value. -/
def counts (counter v : UInt64) (m : Machine) : Machine :=
  returns v ((saveAndCount counter m).pop .rbx)

theorem saveAndCount_rsp (counter : UInt64) (m : Machine) :
    (saveAndCount counter m).regs .rsp = m.regs .rsp - 8 := by
  show ((m.push (m.regs .rbx)).setReg .rbx (word (m.push (m.regs .rbx)).mem counter + 1)).regs .rsp = _
  rw [Machine.setReg_of_ne (by decide), Machine.push_rsp]

/-- What such a handler writes: the word below its return address, and the counter. -/
theorem saveAndCount_mem (counter : UInt64) (m : Machine) :
    ∃ n, (saveAndCount counter m).mem
      = setWord (setWord m.mem (m.regs .rsp - 8) (m.regs .rbx)) counter n := ⟨_, rfl⟩

theorem returns_of_ne {v : UInt64} (hrax : r ≠ .rax) (hrsp : r ≠ .rsp) :
    (returns v m).regs r = m.regs r := by
  rw [returns, Machine.setReg_of_ne hrsp, Machine.setReg_of_ne hrax]

theorem returns_rsp (v : UInt64) (m : Machine) : (returns v m).regs .rsp = m.regs .rsp + 8 :=
  Machine.setReg_self (m := m.setReg .rax v) (r := .rsp)

/-- **A handler with a stack frame and a global obeys the ABI** where the global lies apart from the
stack. -/
theorem obeysAbi_counts {n : ℕ} {counter : UInt64} (v : UInt64) (hn : n < 2 ^ 32)
    (hsaved : Apart counter (m.regs .rsp - 8))
    (hframe : ∀ i < n, Apart counter (slot (m.regs .rsp + 8) i)) :
    ObeysAbi n (counts counter v) m := by
  obtain ⟨w, hmem⟩ := saveAndCount_mem counter m
  refine ⟨fun r hr => ?_, ?_, fun i hi => ?_⟩
  · have hrsp : r ≠ .rsp := by rintro rfl; exact absurd hr (by decide)
    rw [counts, returns_of_ne (by rintro rfl; exact absurd hr (by decide)) hrsp]
    by_cases hrbx : r = .rbx
    · subst hrbx
      rw [Machine.pop_self, saveAndCount_rsp, hmem, word_setWord_of_apart hsaved, word_setWord]
    · rw [Machine.pop_of_ne hrbx hrsp]
      exact (Machine.setReg_of_ne hrbx).trans (Machine.push_of_ne hrsp)
  · rw [counts, returns_rsp, Machine.pop_rsp (by decide), saveAndCount_rsp, UInt64.sub_add_cancel]
  · have hbelow : Apart (m.regs .rsp - 8) (slot (m.regs .rsp + 8) i) := by
      rw [← below_zero, ← slot_succ]
      exact apart_below (by omega)
    show word (saveAndCount counter m).mem _ = _
    rw [hmem, word_setWord_of_apart (hframe i hi), word_setWord_of_apart hbelow]

/-- A kernel all of whose handlers return a value. -/
def kernelReturning (v : UInt64) : Kernel :=
  ⟨0xFFFFFFFF80200000, 0xFFFFFFFF80201000, 0xFFFFFFFF80100044, fun _ => returns v⟩

/-- A user program at its `syscall` instruction, on a kernel with an empty memory. -/
def userMachine (regs : RegFile) : Machine where
  regs := regs
  rip := 0xFFFFFFFF80100000
  mem := fun _ => 0
  gsBase := 0
  kernelGsBase := 0xFFFF800000200000
  carry := false
  zero := false
  interrupts := false
  pushed := []

/-- A kernel whose handlers use their stack and count their calls. -/
def kernelCounting (v : UInt64) : Kernel :=
  { kernelReturning v with code := fun _ => counts 0xFFFFFFFF80300000 v }

/-- The stack pointer at the `call`. -/
theorem atCall_rsp {m₁ : Machine} (h : m₁ ∈ atCall k m) : m₁.regs .rsp = below (kernelRsp m) 15 := by
  rw [atCall, Option.mem_def, Option.ite_none_left_eq_some, Option.some.injEq] at h
  obtain ⟨-, rfl⟩ := h
  rw [argBlock, run_cons, run_cons, run_nil, exec_mov, exec_sti_regs,
    Machine.setReg_of_ne (by decide), run_entryBlock_rsp]

/-- The counter lies apart from the stack of a system call. -/
theorem handlerObeys_counting {m : Machine} (v : UInt64)
    (hsaved : Apart 0xFFFFFFFF80300000 (below (kernelRsp m) 17))
    (hframe : ∀ i < frameWords, Apart 0xFFFFFFFF80300000 (slot (below (kernelRsp m) 15) i)) :
    HandlerObeys (kernelCounting v) m := by
  intro m₁ hm₁
  have hrsp := atCall_rsp hm₁
  refine obeysAbi_counts v (by decide) ?_ fun i hi => ?_
  · rw [Machine.push_rsp, hrsp]
    have hbelow : below (kernelRsp m) 15 - 8 - 8 = below (kernelRsp m) 17 := by
      rw [below, below]
      grind
    rwa [hbelow]
  · rw [Machine.push_rsp, hrsp, UInt64.sub_add_cancel]
    exact hframe i hi

theorem kernelRsp_userMachine (regs : RegFile) : kernelRsp (userMachine regs) = 0 := by
  have hgs : Apart ((0xFFFF800000200000 : UInt64) + 0x08) (0xFFFF800000200000 + 0x00) := by decide
  have hzero : word (fun _ => 0) ((0xFFFF800000200000 : UInt64) + 0x00) = 0 := by decide +kernel
  exact (word_setWord_of_apart hgs).trans hzero

theorem handlerObeys_userMachine (regs : RegFile) :
    HandlerObeys (kernelCounting 7) (userMachine regs) := by
  refine handlerObeys_counting 7 ?_ ?_
  · rw [kernelRsp_userMachine regs]
    decide
  · rw [kernelRsp_userMachine regs]
    decide

theorem preserved_zeroed :
    Preserved (kernelCounting 7) (userMachine fun _ => 0)
      (syscallEntry (kernelCounting 7) (userMachine fun _ => 0)) :=
  (preserved_iff (handlerObeys_userMachine _)).mpr rfl

/-- **`rbx` and `rbp` are exchanged**: with `rbx = 1` and all other registers 0, the system call
returns with `rbp = 1`. -/
theorem not_preserved_rbx :
    ¬ ∀ (k : Kernel) (m : Machine), HandlerObeys k m → Preserved k m (syscallEntry k m) := by
  intro h
  let m := userMachine (Function.update (fun _ => 0) .rbx 1)
  have hobeys : HandlerObeys (kernelCounting 7) m := handlerObeys_userMachine _
  have hregs := (syscallEntry_regs hobeys).1
  have hrbp : m.regs .rbx = m.regs .rbp :=
    (hregs .rbp (by decide)).symm.trans ((h _ m hobeys).regs .rbp (by decide))
  exact absurd hrbp (by decide)

end Syscall

end MioOS
