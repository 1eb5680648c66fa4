import MioOS.Interrupts.Descriptors
import MioOS.Syscall.Entry

/-!
# Interrupts/Delivery — an interrupt from the gate to the `iretq`

`deliver` is what the CPU does with a gate, `isr` the stubs of `isr.asm`, `iretq` the way back.
`interrupt` puts them together over the tables in memory: the gate decides which stub runs, the stub's
number is what the handler sees.  A handler that obeys the ABI returns to the interrupted code
(`interrupt_resumes_iff`), unless the vector is the one for spurious interrupts, whose gate leads to
a C++ function that ends in `ret`, or the code was 64-bit user code, whose segment the GDT describes as
32-bit code.
-/

namespace MioOS

open ByteMemory StackFrame Syscall

namespace Isr

/-! ## The machine -/

/-- A CPU between two instructions. -/
structure Cpu where
  machine : Machine
  cs : UInt64
  ss : UInt64
  rflags : UInt64
  /-- The CPU executes 64-bit code. -/
  long : Bool
  carry_eq : machine.carry = rflags.toNat.testBit 0
  zero_eq : machine.zero = rflags.toNat.testBit 6
  interrupts_eq : machine.interrupts = rflags.toNat.testBit 9

/-- A machine with its flags taken from `rflags`. -/
def Cpu.ofFlags (m : Machine) (cs ss rflags : UInt64) (long : Bool) : Cpu where
  machine := { m with
    carry := rflags.toNat.testBit 0
    zero := rflags.toNat.testBit 6
    interrupts := rflags.toNat.testBit 9 }
  cs := cs
  ss := ss
  rflags := rflags
  long := long
  carry_eq := rfl
  zero_eq := rfl
  interrupts_eq := rfl

/-- The kernel around the stubs: where its tables are, where the linker put the stubs, and what
`hw_irq_handler` does, up to and with its `ret`. -/
structure Kernel where
  gdt : ℕ
  idt : ℕ
  tss : ℕ
  stub : ℕ → UInt64
  spurious : UInt64
  returnAddress : UInt64
  hwIrqHandler : Machine → Machine

/-- Push words from left to right. -/
def pushAll (m : Machine) (ws : List UInt64) : Machine := ws.foldl Machine.push m

/-! ## The CPU -/

/-- The exceptions for which the CPU pushes an error code. -/
def errorVectors : List ℕ := [8, 10, 11, 12, 13, 14, 17, 21, 29, 30]

/-- A selector names a segment of 64-bit code: the L flag of its descriptor. -/
def longSegment (k : Kernel) (mem : Mem) (selector : ℕ) : Bool :=
  (Gdt.segmentAt mem (k.gdt + selector / 8 * 8)).flags.testBit 1

/-- Where the stack of the handler starts: an IST entry, the stack for ring 0, or where it was. -/
def entryStack (k : Kernel) (g : Idt.Gate) (c : Cpu) : UInt64 :=
  if g.ist ≠ 0 then UInt64.ofNat (c.machine.mem.load 8 (k.tss + 28 + 8 * g.ist))
  else if c.cs &&& 3 ≠ 0 then UInt64.ofNat (c.machine.mem.load 8 (k.tss + 4))
  else c.machine.regs .rsp

/-- The CPU aligns the stack. -/
def alignStack (sp : UInt64) : UInt64 := sp &&& 0xFFFFFFFFFFFFFFF0

/-- TF, NT, RF and VM are cleared, and IF by an interrupt gate. -/
def enterFlags (type : ℕ) (rflags : UInt64) : UInt64 :=
  if type = 0xE then rflags &&& 0xFFFFFFFFFFFCBCFF else rflags &&& 0xFFFFFFFFFFFCBEFF

/-- What the CPU pushes. -/
def hardwareFrame (v : ℕ) (err : UInt64) (c : Cpu) : List UInt64 :=
  [c.ss, c.machine.regs .rsp, c.rflags, c.cs, c.machine.rip] ++ if v ∈ errorVectors then [err] else []

/-- **The CPU takes an interrupt.**  A gate that is not present, or not for 64-bit code, is a fault of
its own. -/
def deliver (k : Kernel) (v : ℕ) (err : UInt64) (c : Cpu) : Option Cpu :=
  let g := Idt.gateAt c.machine.mem (k.idt + 16 * v)
  if g.present = false ∨ longSegment k c.machine.mem g.selector = false then none
  else
    let m := c.machine.setReg .rsp (alignStack (entryStack k g c))
    let m := { pushAll m (hardwareFrame v err c) with rip := UInt64.ofNat g.offset }
    some (.ofFlags m (UInt64.ofNat g.selector) (if c.cs &&& 3 ≠ 0 then 0 else c.ss)
      (enterFlags g.type c.rflags) true)

/-- **`iretq`** takes `rip`, `cs`, `rflags`, `rsp` and `ss` from the stack. -/
def iretq (k : Kernel) (m : Machine) : Cpu :=
  let sp := m.regs .rsp
  .ofFlags { m.setReg .rsp (word m.mem (slot sp 3)) with rip := word m.mem sp } (word m.mem (slot sp 1))
    (word m.mem (slot sp 4)) (word m.mem (slot sp 2))
    (longSegment k m.mem (word m.mem (slot sp 1)).toNat)

/-! ## The stubs -/

/-- The vectors of `ISR_ERRCODE`. -/
def isrErrcode : List ℕ := [8, 10, 11, 12, 13, 14, 17, 21, 29, 30]

/-- The stub of a vector up to its `jmp`. -/
def stubBlock (v : ℕ) (m : Machine) : Machine :=
  let m := exec m .cli
  let m := if v ∈ isrErrcode then m else m.push 0
  m.push (UInt64.ofNat v)

/-- The registers that the common stubs push, in the order of the pushes. -/
def isrRegs : List Reg :=
  [.rax, .rcx, .rdx, .rbx, .rbp, .rsi, .rdi, .r8, .r9, .r10, .r11, .r12, .r13, .r14, .r15]

/-- A common stub up to its `call`. -/
def callBlock : List Instr := pushes isrRegs ++ [.mov .rdi .rsp]

/-- A common stub from the `call` on to its `iretq`. -/
def returnBlock : List Instr :=
  pops [.r15, .r14, .r13, .r12, .r11, .r10, .r9, .r8, .rdi, .rsi, .rbp, .rbx, .rdx, .rcx, .rax] ++
    [.addImm .rsp 16]

/-- The machine when a C++ handler is entered. -/
def atHandler (k : Kernel) (v : ℕ) (m : Machine) : Machine :=
  (run callBlock (stubBlock v m)).push k.returnAddress

/-- `regs->interr_no`. -/
def interrNo (m : Machine) : UInt64 := word m.mem (slot (m.regs .rdi) 15)

/-- `cpu_irq_handler`: the panic does not return. -/
def cpuIrqHandler (m : Machine) : Option Machine :=
  if interrNo m < 32 then none else some (m.setReg .rsp (m.regs .rsp + 8))

/-- **A stub**, through `cpu_isr_common_stub` or `hw_isr_common_stub`. -/
def isr (k : Kernel) (v : ℕ) (m : Machine) : Option Cpu :=
  let m := atHandler k v m
  (if v < 32 then cpuIrqHandler m else some (k.hwIrqHandler m)).map fun m => iretq k (run returnBlock m)

/-- `spurious_irq_handler`, which the gate of vector 255 leads to without a stub: it returns. -/
def spuriousIrqHandler (c : Cpu) : Cpu where
  machine := { c.machine.setReg .rsp (c.machine.regs .rsp + 8) with
    rip := word c.machine.mem (c.machine.regs .rsp) }
  cs := c.cs
  ss := c.ss
  rflags := c.rflags
  long := c.long
  carry_eq := c.carry_eq
  zero_eq := c.zero_eq
  interrupts_eq := c.interrupts_eq

/-- Which stub is at an address. -/
def stubAt (k : Kernel) (a : UInt64) : Option ℕ := (List.range 256).find? fun v => k.stub v == a

/-- **An interrupt**, from the instruction before it to the one after it. -/
def interrupt (k : Kernel) (v : ℕ) (err : UInt64) (c : Cpu) : Option Cpu :=
  (deliver k v err c).bind fun c =>
    if c.machine.rip = k.spurious then some (spuriousIrqHandler c)
    else (stubAt k c.machine.rip).bind fun u => isr k u c.machine

/-- **Everything the interrupted code can see of the CPU is back.** -/
structure Restored (c c' : Cpu) : Prop where
  regs : c'.machine.regs = c.machine.regs
  rip : c'.machine.rip = c.machine.rip
  cs : c'.cs = c.cs
  ss : c'.ss = c.ss
  rflags : c'.rflags = c.rflags
  gsBase : c'.machine.gsBase = c.machine.gsBase
  kernelGsBase : c'.machine.kernelGsBase = c.machine.kernelGsBase

/-- **The interrupted code goes on as if nothing had happened**: it also runs in the same mode. -/
structure Resumes (c c' : Cpu) : Prop extends Restored c c' where
  long : c'.long = c.long

/-! ## What a push writes -/

/-- The words pushed from a stack pointer down lie outside the bytes from `lo` to `hi`. -/
def ClearOf (sp : UInt64) (n lo hi : ℕ) : Prop :=
  ∀ i < n, (below sp i).toNat + 8 ≤ lo ∨ hi ≤ (below sp i).toNat

instance (sp : UInt64) (n lo hi : ℕ) : Decidable (ClearOf sp n lo hi) :=
  inferInstanceAs (Decidable (∀ i < n, _))

/-- From the machine `m₀` on, the words `vs` have been pushed below `sp`, and nothing else was done. -/
structure Saved (m₀ : Machine) (sp : UInt64) (vs : List UInt64) (m : Machine) : Prop where
  stack : m.Stack vs
  top : slot (m.regs .rsp) vs.length = sp
  regs : ∀ r, r ≠ .rsp → m.regs r = m₀.regs r
  mem : ∀ x, ClearOf sp vs.length x (x + 1) → m.mem x = m₀.mem x
  gsBase : m.gsBase = m₀.gsBase
  kernelGsBase : m.kernelGsBase = m₀.kernelGsBase

variable {k : Kernel} {m m' m₀ : Machine} {sp : UInt64} {vs ws : List UInt64} {c : Cpu} {v : ℕ}
  {err : UInt64}

theorem Saved.start (m : Machine) (sp : UInt64) : Saved m sp [] (m.setReg .rsp sp) where
  stack := trivial
  top := by rw [Machine.setReg_self, List.length_nil, slot_zero]
  regs _ hr := Machine.setReg_of_ne hr
  mem _ _ := rfl
  gsBase := rfl
  kernelGsBase := rfl

/-- The flags and `rip` do not matter. -/
theorem Saved.congr (h : Saved m₀ sp vs m) (hregs : m'.regs = m.regs) (hmem : m'.mem = m.mem)
    (hgs : m'.gsBase = m.gsBase) (hkgs : m'.kernelGsBase = m.kernelGsBase) : Saved m₀ sp vs m' where
  stack := h.stack.congr hmem (congrFun hregs _)
  top := by rw [hregs, h.top]
  regs r hr := by rw [hregs, h.regs r hr]
  mem x hx := by rw [hmem, h.mem x hx]
  gsBase := hgs.trans h.gsBase
  kernelGsBase := hkgs.trans h.kernelGsBase

/-- The next word goes below the last one. -/
theorem Saved.below_eq (h : Saved m₀ sp vs m) : m.regs .rsp - 8 = below sp vs.length := by
  rw [← h.top, slot, below, show 8 * (vs.length + 1) = 8 + 8 * vs.length by ring, UInt64.ofNat_add,
    show UInt64.ofNat 8 = 8 from rfl]
  grind

theorem Saved.push (h : Saved m₀ sp vs m) (hlen : vs.length < 2 ^ 60) (v : UInt64) :
    Saved m₀ sp (v :: vs) (m.push v) where
  stack := h.stack.push hlen
  top := by rw [Machine.push_rsp, List.length_cons, slot_succ, UInt64.sub_add_cancel, h.top]
  regs r hr := (Machine.push_of_ne hr).trans (h.regs r hr)
  mem x hx := by
    have hkeep : m.mem x = m₀.mem x := h.mem x fun i hi => hx i (Nat.lt_succ_of_lt hi)
    have hnew := hx vs.length (Nat.lt_succ_self _)
    rw [← h.below_eq] at hnew
    rw [← hkeep, Machine.push, setWord]
    rcases hnew with hnew | hnew
    · exact Mem.store_apply_of_ge hnew
    · exact Mem.store_apply_of_lt hnew
  gsBase := h.gsBase
  kernelGsBase := h.kernelGsBase

theorem Saved.pushAll (h : Saved m₀ sp vs m) (ws : List UInt64) (hlen : vs.length + ws.length < 2 ^ 60) :
    Saved m₀ sp (ws.reverse ++ vs) (Isr.pushAll m ws) := by
  induction ws generalizing m vs with
  | nil => exact h
  | cons w ws ih =>
    rw [List.length_cons] at hlen
    rw [List.reverse_cons, List.append_assoc]
    have hpush : Saved m₀ sp (w :: vs) (m.push w) := h.push (by omega) w
    have hpushed := ih hpush (by rw [List.length_cons]; omega)
    exact hpushed

/-- A block of pushes is a list of pushed words. -/
theorem run_pushes_eq {rs : List Reg} (hrs : Reg.rsp ∉ rs) (m : Machine) :
    run (pushes rs) m = pushAll m (rs.map m.regs) := by
  induction rs generalizing m with
  | nil => rfl
  | cons r rs ih =>
    have hr : Reg.rsp ∉ rs := fun hmem => hrs (List.mem_cons_of_mem _ hmem)
    have hmap : rs.map (m.push (m.regs r)).regs = rs.map m.regs :=
      List.map_congr_left fun s hs => Machine.push_of_ne fun heq => hr (heq ▸ hs)
    exact (ih hr (m.push (m.regs r))).trans (by rw [hmap]; rfl)

theorem pushAll_interrupts (m : Machine) (ws : List UInt64) :
    (pushAll m ws).interrupts = m.interrupts := by
  induction ws generalizing m with
  | nil => rfl
  | cons w ws ih => exact ih (m.push w)

/-- A block of pops changes registers only. -/
theorem run_pops_gs (rs : List Reg) (m : Machine) :
    (run (pops rs) m).gsBase = m.gsBase ∧ (run (pops rs) m).kernelGsBase = m.kernelGsBase := by
  induction rs generalizing m with
  | nil => exact ⟨rfl, rfl⟩
  | cons r rs ih => exact ih (m.pop r)

/-! ## Tables and handlers -/

/-- The tables as `GDT::initialize` and the two initializations of the IDT leave them. -/
structure Installed (k : Kernel) (mem : Mem) : Prop where
  gates : ∀ v < 256, Idt.gateAt mem (k.idt + 16 * v) =
    Idt.gateOf (fun v => (k.stub v).toNat) k.spurious.toNat v
  gdt : Gdt.Loaded mem k.gdt k.tss

/-- The stubs are different places in the kernel's code. -/
structure Linked (k : Kernel) : Prop where
  stub_inj : ∀ u < 256, ∀ v < 256, k.stub u = k.stub v → u = v
  stub_ne_spurious : ∀ v < 256, k.stub v ≠ k.spurious

/-- The words of `interrupt_registers_t`. -/
def registerWords : ℕ := 22

/-- **The machine at which an interrupt enters `hw_irq_handler`**, if it does. -/
def hwCall (k : Kernel) (v : ℕ) (err : UInt64) (c : Cpu) : Option Machine :=
  (deliver k v err c).bind fun c =>
    if c.machine.rip = k.spurious then none
    else (stubAt k c.machine.rip).bind fun u => if u < 32 then none else some (atHandler k u c.machine)

/-- `hw_irq_handler`, called at a machine, obeys the ABI, leaves the GS bases alone and does not write
to the GDT. -/
structure Obeys (k : Kernel) (m : Machine) : Prop where
  abi : ObeysAbi registerWords k.hwIrqHandler m
  gsBase : (k.hwIrqHandler m).gsBase = m.gsBase
  kernelGsBase : (k.hwIrqHandler m).kernelGsBase = m.kernelGsBase
  gdt : ∀ x, k.gdt ≤ x → x < k.gdt + 56 → (k.hwIrqHandler m).mem x = m.mem x

/-- `GDT::initialize`, `IDT::early_initialize` and `IDT::initialize`. -/
def initializeTables (k : Kernel) (mem : Mem) : Option Mem :=
  (Idt.earlyInitializeIdt (Gdt.initializeGdt mem k.gdt k.tss) k.idt fun v => (k.stub v).toNat).bind
    fun mem => Idt.initializeIdt mem k.idt (fun v => (k.stub v).toNat) k.spurious.toNat

/-- **The initializations install the tables.** -/
theorem installed_of_initialize (mem : Mem) (hgdt : k.gdt ≠ 0) (hidt : k.idt ≠ 0) (htss : k.tss < 2 ^ 64)
    (hapart : k.gdt + 56 ≤ k.idt ∨ k.idt + 4096 ≤ k.gdt) :
    ∃ mem', initializeTables k mem = some mem' ∧ Installed k mem' := by
  obtain ⟨hloaded, -⟩ := Gdt.initializeGdt_spec mem hgdt htss
  obtain ⟨mem', heq, hgates, hframe⟩ := Idt.initializeIdt_spec (Gdt.initializeGdt mem k.gdt k.tss) hidt
    (fun v => (k.stub v).toNat_lt) k.spurious.toNat_lt
  rw [Idt.idtEntries] at hgates hframe
  exact ⟨mem', heq, hgates, hloaded.congr fun x hx hx' => hframe x (by omega)⟩

/-- The gate of a vector, whatever its kind. -/
theorem Installed.gate (h : Installed k c.machine.mem) (hv : v < 256) :
    let g := Idt.gateAt c.machine.mem (k.idt + 16 * v)
    g.present = true ∧ g.selector = 0x08 ∧
      g.offset = if v = 0xFF then k.spurious.toNat else (k.stub v).toNat := by
  dsimp only
  rw [h.gates v hv, Idt.gateOf, Idt.cpuIrqNum]
  split_ifs with hcpu hlast hlast
  · omega
  · exact ⟨rfl, rfl, rfl⟩
  · exact ⟨rfl, rfl, rfl⟩
  · exact ⟨rfl, rfl, rfl⟩

theorem longSegment_kernel {mem : Mem} (h : Gdt.Loaded mem k.gdt k.tss) :
    longSegment k mem 0x08 = true := by
  have hseg : Gdt.segmentAt mem (k.gdt + 8 * 1) = ⟨0, 0xFFFFF, 0x9A, 0xA⟩ :=
    h.segment 1 (show 1 < 6 by decide)
  rw [longSegment, show 0x08 / 8 * 8 = 8 * 1 from rfl, hseg]
  decide

/-- **The GDT describes the user's code as 32-bit code.** -/
theorem longSegment_user {mem : Mem} (h : Gdt.Loaded mem k.gdt k.tss) :
    longSegment k mem 0x23 = false := by
  have hseg : Gdt.segmentAt mem (k.gdt + 8 * 4) = ⟨0, 0xFFFFF, 0xFA, 0xC⟩ :=
    h.segment 4 (show 4 < 6 by decide)
  rw [longSegment, show 0x23 / 8 * 8 = 8 * 4 from rfl, hseg]
  decide

/-! ## From the gate to the handler -/

/-- The stack on which an interrupt is handled. -/
def handlerStack (k : Kernel) (v : ℕ) (c : Cpu) : UInt64 :=
  alignStack (entryStack k (Idt.gateAt c.machine.mem (k.idt + 16 * v)) c)

/-- What the handler finds in `interrupt_registers_t`, in the order of its fields. -/
def registersOf (v : ℕ) (err : UInt64) (c : Cpu) : List UInt64 :=
  [.r15, .r14, .r13, .r12, .r11, .r10, .r9, .r8, .rdi, .rsi, .rbp, .rbx, .rdx, .rcx, .rax].map
      c.machine.regs ++
    [UInt64.ofNat v, if v ∈ errorVectors then err else 0, c.machine.rip, c.cs, c.rflags,
      c.machine.regs .rsp, c.ss]

theorem length_registersOf (v : ℕ) (err : UInt64) (c : Cpu) :
    (registersOf v err c).length = registerWords := rfl

/-- **Delivery** goes to the gate's stub with the CPU's frame on the handler's stack. -/
theorem deliver_spec (h : Installed k c.machine.mem) (hv : v < 256) (err : UInt64) :
    ∃ c₁, deliver k v err c = some c₁ ∧ c₁.cs = 0x08 ∧ c₁.long = true ∧
      c₁.machine.rip = (if v = 0xFF then k.spurious else k.stub v) ∧
      Saved c.machine (handlerStack k v c) (hardwareFrame v err c).reverse c₁.machine := by
  obtain ⟨hpresent, hsel, hoffset⟩ := h.gate hv
  have hlong := longSegment_kernel h.gdt
  have hlen : (hardwareFrame v err c).length ≤ 6 := by
    rw [hardwareFrame, List.length_append]
    split <;> simp
  have hsaved := (Saved.start c.machine (handlerStack k v c)).pushAll (hardwareFrame v err c)
    (by rw [List.length_nil]; omega)
  rw [List.append_nil] at hsaved
  have hrip : UInt64.ofNat (Idt.gateAt c.machine.mem (k.idt + 16 * v)).offset =
      if v = 0xFF then k.spurious else k.stub v := by
    rw [hoffset]
    split <;> exact UInt64.ofNat_toNat
  rw [deliver]
  dsimp only
  rw [if_neg (by rw [hpresent, hsel, hlong]; decide), hsel, hrip]
  rw [handlerStack] at hsaved ⊢
  generalize pushAll _ (hardwareFrame v err c) = m₁ at hsaved ⊢
  exact ⟨_, rfl, rfl, rfl, rfl, hsaved.congr rfl rfl rfl rfl⟩

/-- The stub pushes an error code where the CPU did not. -/
theorem Saved.stubBlock (h : Saved c.machine sp (hardwareFrame v err c).reverse m) :
    Saved c.machine sp ([UInt64.ofNat v, if v ∈ errorVectors then err else 0, c.machine.rip, c.cs,
      c.rflags, c.machine.regs .rsp, c.ss]) (stubBlock v m) ∧ (Isr.stubBlock v m).interrupts = false := by
  have hcli : Saved c.machine sp (hardwareFrame v err c).reverse (exec m .cli) :=
    h.congr rfl rfl rfl rfl
  rw [Isr.stubBlock]
  by_cases hmem : v ∈ errorVectors
  · rw [hardwareFrame, if_pos hmem] at hcli
    rw [if_pos (show v ∈ isrErrcode from hmem), if_pos hmem]
    exact ⟨hcli.push (by simp) _, rfl⟩
  · rw [hardwareFrame, if_neg hmem] at hcli
    rw [if_neg (show v ∉ isrErrcode from hmem), if_neg hmem]
    exact ⟨(hcli.push (by simp) 0).push (by simp) _, rfl⟩

/-- **The stubs leave `interrupt_registers_t` on the stack**, with interrupts off. -/
theorem Saved.registers (h : Saved c.machine sp (hardwareFrame v err c).reverse m) :
    Saved c.machine sp (registersOf v err c) (run (pushes isrRegs) (Isr.stubBlock v m)) ∧
      (run (pushes isrRegs) (Isr.stubBlock v m)).interrupts = false := by
  obtain ⟨hstub, hcli⟩ := h.stubBlock
  have hmap : isrRegs.map (Isr.stubBlock v m).regs = isrRegs.map c.machine.regs :=
    List.map_congr_left fun r hr => hstub.regs r (by rintro rfl; exact absurd hr (by decide))
  rw [run_pushes_eq (by decide), hmap]
  exact ⟨hstub.pushAll (isrRegs.map c.machine.regs) (by simp [isrRegs]),
    (pushAll_interrupts _ _).trans hcli⟩

theorem atHandler_eq (k : Kernel) (v : ℕ) (m : Machine) :
    atHandler k v m = ((run (pushes isrRegs) (Isr.stubBlock v m)).setReg .rdi
      ((run (pushes isrRegs) (Isr.stubBlock v m)).regs .rsp)).push k.returnAddress := by
  rw [atHandler, callBlock, run_append, run_cons, run_nil, exec_mov]

/-! ## From the handler back -/

/-- **The handler is entered** with the pointer in `rdi` and the return address below the frame. -/
theorem Saved.called (h : Saved c.machine sp (registersOf v err c) m) (returnAddress : UInt64) :
    let m' := (m.setReg .rdi (m.regs .rsp)).push returnAddress
    m'.regs .rdi = m.regs .rsp ∧ m'.regs .rsp = m.regs .rsp - 8 ∧ m'.Stack [returnAddress] ∧
      Frame m'.mem (m.regs .rsp) (registersOf v err c) ∧
      ∀ x, ClearOf sp (registerWords + 1) x (x + 1) → m'.mem x = c.machine.mem x := by
  dsimp only
  have hpushed := h.push (by rw [length_registersOf, registerWords]; norm_num) returnAddress
  have hrsp : (m.setReg .rdi (m.regs .rsp)).regs .rsp = m.regs .rsp := Machine.setReg_of_ne (by decide)
  have hmem : ((m.setReg .rdi (m.regs .rsp)).push returnAddress).mem = (m.push returnAddress).mem := by
    rw [Machine.push, Machine.push, hrsp]
    rfl
  have hstack := hpushed.stack
  rw [Machine.Stack, Machine.push_rsp, ← hmem, frame_cons, UInt64.sub_add_cancel] at hstack
  refine ⟨?_, by rw [Machine.push_rsp, hrsp], ?_, hstack.2, fun x hx => ?_⟩
  · rw [Machine.push_of_ne (by decide), Machine.setReg_self]
  · rw [Machine.Stack, Machine.push_rsp, hrsp]
    exact ⟨hstack.1, trivial⟩
  · rw [hmem]
    exact hpushed.mem x hx

/-- **The handler returns** to a stack that still holds `interrupt_registers_t`. -/
theorem Obeys.returns (hk : Obeys k ((m.setReg .rdi (m.regs .rsp)).push k.returnAddress))
    (h : Saved c.machine sp (registersOf v err c) m)
    (hclear : ClearOf sp (registerWords + 1) k.gdt (k.gdt + 56)) (hgdt : Gdt.Loaded c.machine.mem k.gdt k.tss) :
    let m' := k.hwIrqHandler ((m.setReg .rdi (m.regs .rsp)).push k.returnAddress)
    m'.Stack (registersOf v err c) ∧ Gdt.Loaded m'.mem k.gdt k.tss ∧
      m'.gsBase = c.machine.gsBase ∧ m'.kernelGsBase = c.machine.kernelGsBase := by
  obtain ⟨-, hrsp, -, hframe, hmem⟩ := h.called k.returnAddress
  intro m'
  have hback : m'.regs .rsp = m.regs .rsp := by
    rw [hk.abi.returned, hrsp, UInt64.sub_add_cancel]
  refine ⟨?_, ?_, hk.gsBase.trans h.gsBase, hk.kernelGsBase.trans h.kernelGsBase⟩
  · rw [Machine.Stack, hback]
    refine hframe.congr fun i hi => ?_
    have hword := hk.abi.callerFrame i hi
    rwa [hrsp, UInt64.sub_add_cancel] at hword
  · refine hgdt.congr fun x hx hx' => ?_
    rw [hk.gdt x hx hx', hmem x fun i hi => ?_]
    have := hclear i hi
    omega

/-- `iretq` with its five words on top of the stack. -/
theorem iretq_eq {rip cs rflags rsp ss : UInt64} (h : m.Stack [rip, cs, rflags, rsp, ss]) :
    iretq k m = .ofFlags { m.setReg .rsp rsp with rip := rip } cs ss rflags
      (longSegment k m.mem cs.toNat) := by
  obtain ⟨h0, h1, h2, h3, h4, -⟩ := h
  rw [iretq]
  dsimp only
  simp only [slot_succ, slot_zero, h0, h1, h2, h3, h4]

/-- **The stubs give everything back.** -/
theorem iretq_returnBlock (h : m.Stack (registersOf v err c)) (hgs : m.gsBase = c.machine.gsBase)
    (hkgs : m.kernelGsBase = c.machine.kernelGsBase) :
    Restored c (iretq k (run returnBlock m)) ∧
      (iretq k (run returnBlock m)).long = longSegment k m.mem c.cs.toNat := by
  obtain ⟨hstack, hpopped, -⟩ := run_pops (by decide) (by decide) h
  obtain ⟨hgs', hkgs'⟩ := run_pops_gs
    [.r15, .r14, .r13, .r12, .r11, .r10, .r9, .r8, .rdi, .rsi, .rbp, .rbx, .rdx, .rcx, .rax] m
  have hmem := run_pops_mem
    [.r15, .r14, .r13, .r12, .r11, .r10, .r9, .r8, .rdi, .rsi, .rbp, .rbx, .rdx, .rcx, .rax] m
  rw [returnBlock, run_append, run_cons, run_nil]
  generalize run (pops _) m = m₁ at *
  -- the number and the error code are skipped
  have hstack₂ : (exec m₁ (.addImm .rsp 16)).Stack
      [c.machine.rip, c.cs, c.rflags, c.machine.regs .rsp, c.ss] := by
    rw [Machine.Stack, exec_addImm_regs, exec_addImm_mem, Machine.setReg_self,
      show (16 : UInt64) = 8 + 8 from rfl, ← UInt64.add_assoc]
    exact hstack.tail.tail
  rw [iretq_eq hstack₂, exec_addImm_mem, hmem]
  refine ⟨⟨funext fun r => ?_, rfl, rfl, rfl, rfl, hgs'.trans hgs, hkgs'.trans hkgs⟩, rfl⟩
  by_cases hr : r = .rsp
  · subst hr
    exact Machine.setReg_self (m := exec m₁ (.addImm .rsp 16)) (r := .rsp)
  · refine (Machine.setReg_of_ne hr).trans ?_
    rw [exec_addImm_regs, Machine.setReg_of_ne hr]
    exact hpopped r (by revert hr; cases r <;> decide)

/-! ## A whole interrupt -/

theorem toNat_alignStack (x : UInt64) : (alignStack x).toNat = x.toNat / 16 * 16 := by
  rw [alignStack, UInt64.toNat_and]
  exact and_mask_eq (k := 4) x.toNat_lt (by norm_num)

theorem stubAt_stub (hk : Linked k) (hv : v < 256) : stubAt k (k.stub v) = some v := by
  rw [stubAt, List.find?_range_eq_some]
  refine ⟨beq_self_eq_true _, List.mem_range.mpr hv, fun u hu => ?_⟩
  simp only [Bool.not_eq_true', beq_eq_false_iff_ne]
  exact fun heq => hu.ne (hk.stub_inj u (hu.trans hv) v hv heq)

/-- The stack pointer after the pushes. -/
theorem toNat_rsp (h : Saved c.machine (handlerStack k v c) (registersOf v err c) m) :
    (m.regs .rsp).toNat % 16 = 0 := by
  have htop := congrArg UInt64.toNat h.top
  rw [length_registersOf, registerWords, slot, UInt64.toNat_add, handlerStack, toNat_alignStack,
    show (UInt64.ofNat (8 * 22)).toNat = 176 from rfl] at htop
  have := (m.regs .rsp).toNat_lt
  omega

/-- **What a handler is called with**: the vector's own stub runs, on the stack that the gate names, and
the handler gets a pointer to the registers of the interrupted code, aligned as the ABI wants it, with
interrupts off and with nothing overwritten but its own stack. -/
theorem interrupt_registers (hlink : Linked k) (hinst : Installed k c.machine.mem) (hv : v < 256)
    (hspurious : v ≠ 0xFF) (err : UInt64) :
    ∃ c₁, deliver k v err c = some c₁ ∧ c₁.machine.rip ≠ k.spurious ∧
      stubAt k c₁.machine.rip = some v ∧
      let m := atHandler k v c₁.machine
      Frame m.mem (m.regs .rdi) (registersOf v err c) ∧ (m.regs .rdi).toNat % 16 = 0 ∧
        m.Stack [k.returnAddress] ∧ m.regs .rsp = m.regs .rdi - 8 ∧ m.interrupts = false ∧
        ∀ x, ClearOf (handlerStack k v c) (registerWords + 1) x (x + 1) → m.mem x = c.machine.mem x := by
  obtain ⟨c₁, heq, -, -, hrip, hsaved⟩ := deliver_spec hinst hv err
  rw [if_neg hspurious] at hrip
  obtain ⟨hregs, hcli⟩ := hsaved.registers
  refine ⟨c₁, heq, by rw [hrip]; exact hlink.stub_ne_spurious v hv, by rw [hrip]; exact stubAt_stub hlink hv,
    ?_⟩
  dsimp only
  rw [atHandler_eq]
  generalize run (pushes isrRegs) (Isr.stubBlock v c₁.machine) = m at hregs hcli ⊢
  obtain ⟨hrdi, hrsp, hstack, hframe, hmem⟩ := hregs.called k.returnAddress
  rw [hrdi]
  exact ⟨hframe, toNat_rsp hregs, hstack, hrsp, hcli, hmem⟩

/-- **An exception ends in a panic.** -/
theorem interrupt_exception (hlink : Linked k) (hinst : Installed k c.machine.mem) (hcpu : v < 32)
    (err : UInt64) : interrupt k v err c = none := by
  obtain ⟨c₁, heq, -, -, hrip, hsaved⟩ := deliver_spec hinst (show v < 256 by omega) err
  rw [if_neg (by omega)] at hrip
  obtain ⟨hregs, -⟩ := hsaved.registers
  obtain ⟨hrdi, -, -, hframe, -⟩ := hregs.called k.returnAddress
  have hno : interrNo (atHandler k v c₁.machine) = UInt64.ofNat v := by
    rw [interrNo, atHandler_eq, hrdi]
    exact hframe.word_slot (show 15 < 22 by decide)
  have hlt : UInt64.ofNat v < 32 := by
    rw [UInt64.lt_iff_toNat_lt, UInt64.toNat_ofNat_of_lt' (by rw [UInt64.size]; omega)]
    exact hcpu
  rw [interrupt, heq, Option.bind_some, hrip, if_neg (hlink.stub_ne_spurious v (by omega)),
    stubAt_stub hlink (by omega), Option.bind_some, isr, if_pos hcpu, cpuIrqHandler, hno, if_pos hlt,
    Option.map_none]

/-- **A hardware interrupt enters `hw_irq_handler`** from its own stub. -/
theorem hwCall_eq (hlink : Linked k) (hinst : Installed k c.machine.mem) (hcpu : 32 ≤ v) (hv : v < 256)
    (hspurious : v ≠ 0xFF) (err : UInt64) :
    ∃ m, Saved c.machine (handlerStack k v c) (registersOf v err c) m ∧
      hwCall k v err c = some ((m.setReg .rdi (m.regs .rsp)).push k.returnAddress) ∧
      interrupt k v err c = some (iretq k (run returnBlock
        (k.hwIrqHandler ((m.setReg .rdi (m.regs .rsp)).push k.returnAddress)))) := by
  obtain ⟨c₁, heq, -, -, hrip, hsaved⟩ := deliver_spec hinst hv err
  rw [if_neg hspurious] at hrip
  have hstub : k.stub v ≠ k.spurious := hlink.stub_ne_spurious v hv
  refine ⟨_, hsaved.registers.1, ?_, ?_⟩
  · rw [hwCall, heq, Option.bind_some, hrip, if_neg hstub, stubAt_stub hlink hv, Option.bind_some,
      if_neg (by omega), atHandler_eq]
  · rw [interrupt, heq, Option.bind_some, hrip, if_neg hstub, stubAt_stub hlink hv, Option.bind_some, isr,
      if_neg (by omega), atHandler_eq]
    rfl

/-- **A hardware interrupt gives everything back**, except the mode of user code. -/
theorem interrupt_restores (hlink : Linked k) (hinst : Installed k c.machine.mem) (hcpu : 32 ≤ v)
    (hv : v < 256) (hspurious : v ≠ 0xFF)
    (hclear : ClearOf (handlerStack k v c) (registerWords + 1) k.gdt (k.gdt + 56)) (err : UInt64)
    (hk : ∀ m ∈ hwCall k v err c, Obeys k m) :
    ∃ c' m', interrupt k v err c = some c' ∧ Restored c c' ∧ Gdt.Loaded m' k.gdt k.tss ∧
      c'.long = longSegment k m' c.cs.toNat := by
  obtain ⟨m, hregs, hcall, heq⟩ := hwCall_eq hlink hinst hcpu hv hspurious err
  obtain ⟨hstack, hgdt, hgs, hkgs⟩ := (hk _ hcall).returns hregs hclear hinst.gdt
  obtain ⟨hrestored, hlong⟩ := iretq_returnBlock (k := k) hstack hgs hkgs
  exact ⟨_, _, heq, hrestored, hgdt, hlong⟩

/-- **A spurious interrupt does not return**: `ret` takes `rip` from the CPU's frame and leaves the rest
of it on the stack. -/
theorem interrupt_spurious (hinst : Installed k c.machine.mem) (err : UInt64) :
    ∃ c', interrupt k 0xFF err c = some c' ∧ c'.cs = 0x08 ∧
      slot (c'.machine.regs .rsp) 4 = handlerStack k 0xFF c := by
  obtain ⟨c₁, heq, hcs, -, hrip, hsaved⟩ := deliver_spec hinst (show 0xFF < 256 by decide) err
  rw [if_pos rfl] at hrip
  refine ⟨spuriousIrqHandler c₁, by rw [interrupt, heq, Option.bind_some, if_pos hrip], hcs, ?_⟩
  rw [spuriousIrqHandler, Machine.setReg_self, ← slot_succ]
  exact hsaved.top

/-- An interrupt of the kernel is handled on the kernel's own stack. -/
theorem handlerStack_kernel (hinst : Installed k c.machine.mem) (hcpu : 32 ≤ v) (hv : v < 256)
    (hcs : c.cs = 0x08) : handlerStack k v c = alignStack (c.machine.regs .rsp) := by
  have hist : (Idt.gateAt c.machine.mem (k.idt + 16 * v)).ist = 0 := by
    rw [hinst.gates v hv, Idt.gateOf, if_neg (show ¬ v < Idt.cpuIrqNum by rw [Idt.cpuIrqNum]; omega)]
    split <;> rfl
  rw [handlerStack, entryStack, hist, if_neg (by decide), hcs, if_neg (by decide)]

/-- **Which interrupts return**: of the hardware interrupts, all but the spurious one, and only to the
kernel, since the segment of the user's code is not a 64-bit one in the GDT. -/
theorem interrupt_resumes_iff (hlink : Linked k) (hinst : Installed k c.machine.mem) (hcpu : 32 ≤ v)
    (hv : v < 256) (hlong : c.long = true) (hcs : c.cs = 0x08 ∨ c.cs = 0x23)
    (hclear : ClearOf (handlerStack k v c) (registerWords + 1) k.gdt (k.gdt + 56)) (err : UInt64)
    (hk : ∀ m ∈ hwCall k v err c, Obeys k m) :
    (∃ c', interrupt k v err c = some c' ∧ Resumes c c') ↔ v ≠ 0xFF ∧ c.cs = 0x08 := by
  by_cases hspurious : v = 0xFF
  · subst hspurious
    obtain ⟨c₁, heq, hcs₁, htop⟩ := interrupt_spurious hinst err
    refine ⟨?_, fun h => absurd rfl h.1⟩
    rintro ⟨c', heq', hres⟩
    obtain rfl := Option.some.inj (heq.symm.trans heq')
    rw [handlerStack_kernel hinst hcpu hv (hres.cs.symm.trans hcs₁), hres.regs] at htop
    have htop' := congrArg UInt64.toNat htop
    rw [toNat_alignStack, slot, UInt64.toNat_add, show (UInt64.ofNat (8 * 4)).toNat = 32 from rfl] at htop'
    have := (c.machine.regs .rsp).toNat_lt
    omega
  · obtain ⟨c', m', heq, hrestored, hgdt, hmode⟩ :=
      interrupt_restores hlink hinst hcpu hv hspurious hclear err hk
    rcases hcs with hcs | hcs
    · rw [hcs, show (0x08 : UInt64).toNat = 0x08 from rfl, longSegment_kernel hgdt] at hmode
      exact ⟨fun _ => ⟨hspurious, hcs⟩, fun _ => ⟨c', heq, hrestored, hmode.trans hlong.symm⟩⟩
    · rw [hcs, show (0x23 : UInt64).toNat = 0x23 from rfl, longSegment_user hgdt] at hmode
      refine ⟨?_, fun h => absurd (h.2.symm.trans hcs) (by decide)⟩
      rintro ⟨c'', heq', hres⟩
      obtain rfl := Option.some.inj (heq.symm.trans heq')
      exact absurd (hmode.symm.trans (hres.long.trans hlong)) (by decide)

/-! ## A kernel with one handler -/

/-- A kernel whose handler uses its stack and counts the interrupts. -/
def kernelAtRest : Kernel where
  gdt := 0x1000
  idt := 0x2000
  tss := 0x4000
  stub v := UInt64.ofNat (0x100000 + 64 * v)
  spurious := 0x200000
  returnAddress := 0x105040
  hwIrqHandler := counts 0x500000 0

/-- The kernel at some instruction. -/
def cpuAtRest (mem : Mem) : Cpu := .ofFlags
  { userMachine (fun _ => 0x9004) with
    rip := 0x300000
    mem := mem }
  0x08 0x10 0x202 true

theorem linked_kernelAtRest : Linked kernelAtRest where
  stub_inj u hu v hv heq := by
    have heq' := congrArg UInt64.toNat heq
    simp only [kernelAtRest] at heq'
    rw [UInt64.toNat_ofNat_of_lt' (by rw [UInt64.size]; omega),
      UInt64.toNat_ofNat_of_lt' (by rw [UInt64.size]; omega)] at heq'
    omega
  stub_ne_spurious v hv heq := by
    have heq' := congrArg UInt64.toNat heq
    simp only [kernelAtRest] at heq'
    rw [UInt64.toNat_ofNat_of_lt' (by rw [UInt64.size]; omega),
      show (0x200000 : UInt64).toNat = 0x200000 from rfl] at heq'
    omega

/-- The handler's stack and its counter lie apart from each other and from the GDT. -/
theorem obeys_kernelAtRest {m : Machine} (hlow : 0x2000 ≤ (m.regs .rsp).toNat)
    (hhigh : (m.regs .rsp).toNat < 0x10000) : Obeys kernelAtRest m := by
  have hcounter (b : UInt64) (hb : b.toNat < 0x20000) : Apart 0x500000 b := by
    have : (0x500000 : UInt64).toNat = 0x500000 := rfl
    constructor <;> · rw [UInt64.toNat_sub]; omega
  have hbelow : (m.regs .rsp - 8).toNat = (m.regs .rsp).toNat - 8 := by
    rw [UInt64.toNat_sub_of_le _ _ (by rw [UInt64.le_iff_toNat_le]; exact le_trans (by decide) hlow)]
    rfl
  refine ⟨obeysAbi_counts 0 (by decide) (hcounter _ (by omega)) fun i hi => hcounter _ ?_, rfl, rfl,
    fun x _ hx => ?_⟩
  · have hof : (UInt64.ofNat (8 * i)).toNat = 8 * i := UInt64.toNat_ofNat_of_lt' (by
      rw [UInt64.size, registerWords] at *
      omega)
    rw [slot, UInt64.toNat_add, UInt64.toNat_add, hof, show (8 : UInt64).toNat = 8 from rfl]
    rw [registerWords] at hi
    omega
  · obtain ⟨n, hmem⟩ := saveAndCount_mem 0x500000 m
    have hgdt : x < 0x1038 := hx
    show (saveAndCount 0x500000 m).mem x = _
    rw [hmem, setWord, setWord,
      Mem.store_apply_of_lt (hgdt.trans (by decide)), Mem.store_apply_of_lt (by omega)]

theorem installed_kernelAtRest :
    ∃ mem, initializeTables kernelAtRest (fun _ => 0) = some mem ∧ Installed kernelAtRest mem :=
  installed_of_initialize (fun _ => 0) (by decide) (by decide) (by decide) (by decide)

/-- The timer's vector, in the kernel. -/
theorem interrupt_resumes_timer : ∃ mem c', initializeTables kernelAtRest (fun _ => 0) = some mem ∧
    interrupt kernelAtRest 0x20 0 (cpuAtRest mem) = some c' ∧ Resumes (cpuAtRest mem) c' := by
  obtain ⟨mem, heq, hinst⟩ := installed_kernelAtRest
  have hinst' : Installed kernelAtRest (cpuAtRest mem).machine.mem := hinst
  have hstack := handlerStack_kernel (v := 0x20) hinst' (by decide) (by decide) rfl
  have hclear : ClearOf (handlerStack kernelAtRest 0x20 (cpuAtRest mem)) (registerWords + 1)
      kernelAtRest.gdt (kernelAtRest.gdt + 56) := by
    rw [hstack, show (cpuAtRest mem).machine.regs .rsp = 0x9004 from rfl]
    decide
  have hobeys : ∀ m ∈ hwCall kernelAtRest 0x20 0 (cpuAtRest mem), Obeys kernelAtRest m := by
    intro m hm
    obtain ⟨m₁, hregs, hcall, -⟩ :=
      hwCall_eq (v := 0x20) linked_kernelAtRest hinst' (by decide) (by decide) (by decide) 0
    obtain rfl := Option.some.inj (hcall.symm.trans hm)
    have htop : m₁.regs .rsp = alignStack 0x9004 - UInt64.ofNat (8 * registerWords) := by
      rw [← show (cpuAtRest mem).machine.regs .rsp = 0x9004 from rfl, ← hstack, ← hregs.top, slot,
        length_registersOf, UInt64.add_sub_cancel]
    refine obeys_kernelAtRest ?_ ?_ <;>
    · rw [Machine.push_rsp, Machine.setReg_of_ne (by decide), htop]
      decide
  obtain ⟨c', heq', hres⟩ := (interrupt_resumes_iff linked_kernelAtRest hinst' (by decide) (by decide) rfl
    (Or.inl rfl) hclear 0 hobeys).mpr ⟨by decide, rfl⟩
  exact ⟨mem, c', heq, heq', hres⟩

/-- A page fault, in the kernel. -/
theorem interrupt_registers_pageFault : ∃ mem c₁, initializeTables kernelAtRest (fun _ => 0) = some mem ∧
    deliver kernelAtRest 14 2 (cpuAtRest mem) = some c₁ ∧
      Frame (atHandler kernelAtRest 14 c₁.machine).mem
        ((atHandler kernelAtRest 14 c₁.machine).regs .rdi) (registersOf 14 2 (cpuAtRest mem)) := by
  obtain ⟨mem, heq, hinst⟩ := installed_kernelAtRest
  obtain ⟨c₁, heq', -, -, hframe, -⟩ := interrupt_registers (c := cpuAtRest mem) linked_kernelAtRest hinst
    (v := 14) (by decide) (by decide) 2
  exact ⟨mem, c₁, heq, heq', hframe⟩

end Isr

end MioOS
