import MioOS.Syscall.Entry

/-!
# Syscall/KernelStack — `cpu::CPU`, and the stack a system call runs on

The routine reaches the CPU object through GS by offsets: it saves the user's stack pointer at
`0x08` and loads its own from `0x00`.  In `cpu.hpp` offset `0x00` is `self` and offset `0x08` is
`kernel_stack`, so a system call runs on the memory below the CPU object and overwrites the address
of the kernel's stack (`run_entryBlock_kernelStack`).
-/

namespace MioOS

namespace Syscall

open ByteMemory StackFrame

/-! ## The layout of `cpu::CPU` -/

/-- The members of `cpu::CPU`. -/
inductive Member
  | self | kernelStack | userStack | cpuId | lapicId | runQueue | gdt | tss | fpu | istStacks
  | cpuidCache
  deriving DecidableEq, Repr

namespace Member

/-- `sizeof` a member. -/
def size : Member → ℕ
  | self | kernelStack | userStack => 8
  | cpuId | lapicId | runQueue => 1
  | gdt => 24
  | tss => 105
  | fpu => 12
  | istStacks => 24
  | cpuidCache => 72

/-- `alignof` a member. -/
def align : Member → ℕ
  | self | kernelStack | userStack | gdt | istStacks => 8
  | cpuId | lapicId | runQueue | tss => 1
  | fpu | cpuidCache => 4

end Member

/-- The members in the order of their declaration. -/
def members : List Member :=
  [.self, .kernelStack, .userStack, .cpuId, .lapicId, .runQueue, .gdt, .tss, .fpu, .istStacks,
    .cpuidCache]

/-- Round up to an alignment. -/
def roundUp (n align : ℕ) : ℕ := (n + (align - 1)) / align * align

/-- The offset of a member when the first one is placed at `n` or above. -/
def offsetFrom (n : ℕ) (x : Member) : List Member → ℕ
  | [] => n
  | y :: ys => if y = x then roundUp n y.align else offsetFrom (roundUp n y.align + y.size) x ys

/-- `offsetof(cpu::CPU, x)`. -/
def offsetOf (x : Member) : ℕ := offsetFrom 0 x members

/-- `sizeof(cpu::CPU)`. -/
def sizeOfCpu : ℕ := roundUp (offsetOf .cpuidCache + Member.cpuidCache.size) 8

theorem offsetOf_kernelStack : offsetOf .kernelStack = 8 := by decide

theorem sizeOfCpu_eq : sizeOfCpu = 272 := by decide

/-- A `cpu::CPU` object. -/
structure CpuObject where
  base : UInt64
  fits : base.toNat + sizeOfCpu ≤ 2 ^ 64

namespace CpuObject

variable {o : CpuObject} {mem mem' : Mem} {stack : UInt64}

/-- The address of a member. -/
def addr (o : CpuObject) (x : Member) : UInt64 := o.base + UInt64.ofNat (offsetOf x)

/-- The bytes of the object. -/
def bytes (o : CpuObject) : Set ℕ := Set.Ico o.base.toNat (o.base.toNat + sizeOfCpu)

/-- The bytes of a member. -/
def memberBytes (o : CpuObject) (x : Member) : Set ℕ :=
  Set.Ico (o.addr x).toNat ((o.addr x).toNat + x.size)

theorem offsetOf_add_size_le (x : Member) : offsetOf x + x.size ≤ sizeOfCpu := by
  cases x <;> decide

theorem addr_toNat (o : CpuObject) (x : Member) : (o.addr x).toNat = o.base.toNat + offsetOf x := by
  have hle := offsetOf_add_size_le x
  have hsize : 0 < x.size := by cases x <;> decide
  have hfits := o.fits
  have hof : (UInt64.ofNat (offsetOf x)).toNat = offsetOf x := UInt64.toNat_ofNat_of_lt' (by
    rw [UInt64.size]
    omega)
  rw [addr, UInt64.toNat_add, hof, Nat.mod_eq_of_lt (by omega)]

/-! ## Setting an object up -/

/-- `CPU::prepare_ap`; `kmalloced` is what `kmalloc(16384)` returned. -/
def prepareAp (o : CpuObject) (id lapic : UInt8) (kmalloced : UInt64) (mem : Mem) : Mem :=
  let mem := mem.store 1 (o.addr .cpuId).toNat id.toNat
  let mem := mem.store 1 (o.addr .lapicId).toNat lapic.toNat
  let mem := setWord mem (o.addr .kernelStack) (kmalloced + 16384)
  let mem := setWord mem (o.addr .self) o.base
  setWord mem (o.addr .userStack) 0

/-- The CPUID part of `init_cpu`: `cache` is what the reads leave in `cpuid_cache`, with
`local_apic_id` at offset 36. -/
def cacheCpuid (o : CpuObject) (cache : ℕ → UInt8) (mem : Mem) : Mem :=
  Mem.store (fun x =>
    if (o.addr .cpuidCache).toNat ≤ x ∧ x < (o.addr .cpuidCache).toNat + Member.cpuidCache.size
    then cache (x - (o.addr .cpuidCache).toNat) else mem x)
    1 (o.addr .lapicId).toNat (cache 36).toNat

/-- The members `CPU::init_cpu` writes; `kstackTop` is `get_kstack_top()`. -/
def initCpu (o : CpuObject) (isBsp : Bool) (kstackTop : UInt64) (cache : ℕ → UInt8) (mem : Mem) :
    Mem :=
  let mem := if isBsp then
      setWord (mem.store 1 (o.addr .cpuId).toNat 0) (o.addr .kernelStack) kstackTop
    else mem
  let mem := setWord mem (o.addr .self) o.base
  let mem := setWord mem (o.addr .userStack) 0
  o.cacheCpuid cache mem

/-- **The object as the kernel leaves it** before the first system call: set up by `init_cpu` on the
BSP, or by `prepare_ap` and then `init_cpu` on an AP.  `stack` is the address either stored. -/
inductive Initialised (o : CpuObject) : Mem → UInt64 → Prop
  | bsp (top : UInt64) (cache : ℕ → UInt8) (mem : Mem) :
      Initialised o (initCpu o true top cache mem) top
  | ap (top kmalloced : UInt64) (id lapic : UInt8) (cache : ℕ → UInt8) (mem : Mem) :
      Initialised o (initCpu o false top cache (prepareAp o id lapic kmalloced mem))
        (kmalloced + 16384)

/-- Two members of eight bytes lie apart. -/
theorem apart_addr {x y : Member} (h : offsetOf x + 8 ≤ offsetOf y ∨ offsetOf y + 8 ≤ offsetOf x) :
    Apart (o.addr x) (o.addr y) := by
  have hx := addr_toNat o x
  have hy := addr_toNat o y
  have := offsetOf_add_size_le x
  have := offsetOf_add_size_le y
  have := o.fits
  have := sizeOfCpu_eq
  constructor <;> · rw [UInt64.toNat_sub]; omega

theorem word_cacheCpuid {x : Member} (cache : ℕ → UInt8) (hx : offsetOf x + 8 ≤ 24) :
    word (o.cacheCpuid cache mem) (o.addr x) = word mem (o.addr x) := by
  have hx' := addr_toNat o x
  have hl := addr_toNat o .lapicId
  have hc := addr_toNat o .cpuidCache
  rw [show offsetOf .lapicId = 25 by decide] at hl
  rw [show offsetOf .cpuidCache = 200 by decide] at hc
  rw [cacheCpuid, word_store_of_disjoint (by omega)]
  exact word_congr fun i hi => if_neg (by omega)

/-- What `init_cpu` leaves in the first three members. -/
theorem word_initCpu (isBsp : Bool) (top : UInt64) (cache : ℕ → UInt8) (mem : Mem) :
    word (initCpu o isBsp top cache mem) (o.addr .self) = o.base ∧
      word (initCpu o isBsp top cache mem) (o.addr .kernelStack)
        = (if isBsp then top else word mem (o.addr .kernelStack)) ∧
      word (initCpu o isBsp top cache mem) (o.addr .userStack) = 0 := by
  refine ⟨?_, ?_, ?_⟩
  · rw [initCpu, word_cacheCpuid _ (by decide), word_setWord_of_apart (apart_addr (by decide)),
      word_setWord]
  · rw [initCpu, word_cacheCpuid _ (by decide), word_setWord_of_apart (apart_addr (by decide)),
      word_setWord_of_apart (apart_addr (by decide))]
    split
    · exact word_setWord
    · rfl
  · rw [initCpu, word_cacheCpuid _ (by decide), word_setWord]

/-- **`self`, `kernel_stack` and `user_stack`** before the first system call. -/
theorem Initialised.words (h : Initialised o mem stack) :
    word mem (o.addr .self) = o.base ∧ word mem (o.addr .kernelStack) = stack ∧
      word mem (o.addr .userStack) = 0 := by
  cases h with
  | bsp _ cache mem => exact word_initCpu true stack cache mem
  | ap top kmalloced id lapic cache mem =>
    obtain ⟨hself, hstack, huser⟩ :=
      word_initCpu (o := o) false top cache (prepareAp o id lapic kmalloced mem)
    refine ⟨hself, hstack.trans ?_, huser⟩
    rw [if_neg Bool.false_ne_true, prepareAp, word_setWord_of_apart (apart_addr (by decide)),
      word_setWord_of_apart (apart_addr (by decide)), word_setWord]

end CpuObject

/-! ## Where a system call writes -/

variable {k : Kernel} {o : CpuObject} {m : Machine} {ms : List Machine} {mem : Mem}
  {stack : UInt64}

/-- The machine is in user space on the CPU of the object: `swapgs` brings its address to GS. -/
def OnCpu (o : CpuObject) (m : Machine) : Prop := m.kernelGsBase = o.base

/-- The addresses the pushes of the routine write, newest first. -/
def entryPushes (k : Kernel) (m : Machine) : List UInt64 :=
  (run (entryBlock k) { m with pushed := [] }).pushed

/-- **The system call runs on the kernel's stack** and keeps the CPU object: it pushes only below
the address the kernel stored, saves the user's stack pointer in `user_stack` and leaves all other
bytes of the object alone. -/
structure OnKernelStack (k : Kernel) (o : CpuObject) (stack : UInt64) (m : Machine) : Prop where
  pushes : ∀ a ∈ entryPushes k m, ∃ i ≤ frameWords, a = below stack i
  saved : word (run (entryBlock k) m).mem (o.addr .userStack) = m.regs .rsp
  kept : ∀ x ∈ o.bytes, x ∉ o.memberBytes .userStack → (syscallEntry k m).mem x = m.mem x

/-- **A sequence of system calls** of user programs on one CPU, given by the machines at their
`syscall` instructions.  Between two calls user space changes what it likes but the object. -/
inductive SyscallRun (k : Kernel) (o : CpuObject) : Mem → List Machine → Prop
  | nil (mem : Mem) : SyscallRun k o mem []
  | cons {mem : Mem} {m : Machine} {ms : List Machine} : OnCpu o m →
      Mem.AgreeOn o.bytes mem m.mem → SyscallRun k o (syscallEntry k m).mem ms → SyscallRun k o mem (m :: ms)

/-- **The handler of this call leaves the CPU object alone** where it is called. -/
def LeavesAlone (k : Kernel) (o : CpuObject) (m : Machine) : Prop :=
  ∀ m₁ ∈ atCall k m, Mem.AgreeOn o.bytes (m₁.push k.returnAddress).mem (call k m₁).mem

theorem addr_kernelStack (o : CpuObject) : o.addr .kernelStack = o.base + 0x08 := by
  rw [CpuObject.addr, offsetOf_kernelStack]
  rfl

/-- **The switch of stacks** takes the object's address for the stack pointer and overwrites
`kernel_stack` with the user's. -/
theorem run_switch_onCpu (h : OnCpu o m) (hself : word m.mem (o.addr .self) = o.base) :
    (run switchBlock m).regs .rsp = o.base - 8 ∧
      (run switchBlock m).mem
        = setWord (setWord m.mem (o.addr .kernelStack) (m.regs .rsp)) (o.base - 8) (m.regs .rsp) ∧
      (run switchBlock m).pushed = (o.base - 8) :: m.pushed := by
  let m₁ := exec (exec m .swapgs) (.storeGs 0x08 .rsp)
  have hgs : m₁.gsBase = o.base := h
  have hmem : m₁.mem = setWord m.mem (o.addr .kernelStack) (m.regs .rsp) := by
    rw [addr_kernelStack, ← h]
    rfl
  have hself₁ : word m₁.mem (m₁.gsBase + 0x00) = o.base := by
    have haddr : o.addr .self = o.base + 0x00 := rfl
    rw [hgs, hmem, ← haddr, word_setWord_of_apart (CpuObject.apart_addr (by decide)), hself]
  have huser : word m₁.mem (m₁.gsBase + 0x08) = m.regs .rsp := by
    rw [hgs, hmem, ← addr_kernelStack, word_setWord]
  have hrun : run switchBlock m = (m₁.setReg .rsp o.base).push (m.regs .rsp) := by
    rw [← huser, ← hself₁]
    rfl
  have hrsp : (m₁.setReg .rsp o.base).regs .rsp = o.base := Machine.setReg_self
  rw [hrun, Machine.push_rsp, hrsp]
  refine ⟨rfl, ?_, ?_⟩
  · rw [Machine.push, hrsp, Machine.setReg_mem, hmem]
  · rw [Machine.push, hrsp]
    rfl

/-- **Where the pushes of a system call go**: below the CPU object. -/
theorem entryPushes_eq (h : OnCpu o m) (hself : word m.mem (o.addr .self) = o.base) :
    entryPushes k m = ((List.range frameWords).map (below o.base)).reverse := by
  obtain ⟨hrsp, -, hpushed⟩ :=
    run_switch_onCpu (m := { m with pushed := [] }) (o := o) h hself
  have hsaved : Reg.rsp ∉ savedRegs := by decide
  have hshift : below o.base ∘ Nat.succ = below (o.base - 8) := funext fun i => below_succ _ i
  rw [entryPushes, entryBlock, run_append, run_append, run_cons, run_cons, run_nil, exec_mov,
    exec_cmpMem_pushed, Machine.setReg_pushed, run_pushes_pushed hsaved, hrsp, hpushed, frameWords,
    List.range_succ_eq_map, List.map_cons, List.map_map, hshift, List.reverse_cons]
  rfl

/-- **What the entry leaves in the object's first words**: the user's stack pointer in
`kernel_stack`, and nothing new in the others. -/
theorem run_entryBlock_word (k : Kernel) (h : OnCpu o m)
    (hself : word m.mem (o.addr .self) = o.base) :
    (∀ i < 3, word (run (entryBlock k) m).mem (slot o.base i)
      = word (setWord m.mem (o.addr .kernelStack) (m.regs .rsp)) (slot o.base i)) ∧
      (run (entryBlock k) m).regs .rsp = below o.base 15 := by
  obtain ⟨hrsp, hmem, -⟩ := run_switch_onCpu h hself
  have hsaved : Reg.rsp ∉ savedRegs := by decide
  rw [entryBlock, run_append, run_append, run_cons, run_cons, run_nil, exec_mov,
    exec_cmpMem_mem, exec_cmpMem_regs, Machine.setReg_mem, Machine.setReg_of_ne (by decide)]
  refine ⟨fun i hi => ?_, ?_⟩
  · rw [run_pushes_word hsaved, hmem, word_setWord_of_apart]
    · exact apart_below (i := 0) (by omega)
    · intro j hj
      rw [hrsp, ← below_succ]
      have : j < 15 := hj
      exact apart_below (by omega)
  · rw [run_pushes_rsp hsaved, hrsp]
    exact (below_succ o.base 14).symm

theorem slot_toNat (o : CpuObject) {i : ℕ} (hi : i < 3) :
    (slot o.base i).toNat = o.base.toNat + 8 * i := by
  have hfits := o.fits
  rw [sizeOfCpu_eq] at hfits
  have hof : (UInt64.ofNat (8 * i)).toNat = 8 * i := UInt64.toNat_ofNat_of_lt' (by
    rw [UInt64.size]
    omega)
  rw [slot, UInt64.toNat_add, hof, Nat.mod_eq_of_lt (by omega)]

/-- Memories that agree on the object agree on its first words. -/
theorem word_of_agreeOn {mem' : Mem} (h : Mem.AgreeOn o.bytes mem mem') {i : ℕ} (hi : i < 3) :
    word mem' (slot o.base i) = word mem (slot o.base i) := by
  refine word_congr fun j hj => h _ ?_
  rw [slot_toNat o hi, CpuObject.bytes, sizeOfCpu_eq]
  exact ⟨by omega, by omega⟩

/-- **Nothing after the entry** writes the object's first words. -/
theorem syscallEntry_word (hk : LeavesAlone k o m) (h : OnCpu o m)
    (hself : word m.mem (o.addr .self) = o.base) {i : ℕ} (hi : i < 3) :
    word (syscallEntry k m).mem (slot o.base i)
      = word (run (entryBlock k) m).mem (slot o.base i) := by
  obtain ⟨-, hrsp⟩ := run_entryBlock_word k h hself
  have hdone (m' : Machine) : (run doneBlock m').mem = m'.mem := by
    simp only [doneBlock, run_append, run_cons, run_nil, exec_pop, Machine.pop_mem,
      exec_addImm_mem, exec_swapgs_mem, exec_sysret_mem, run_pops_mem]
  rw [LeavesAlone, atCall] at hk
  rw [syscallEntry, hdone, atDone]
  generalize run (entryBlock k) m = m₀ at hrsp hk ⊢
  split
  · rfl
  · rename_i hbelow
    rw [if_neg hbelow] at hk
    have hagree := hk _ rfl
    have hargmem : (run argBlock m₀).mem = m₀.mem := rfl
    have hargrsp : (run argBlock m₀).regs .rsp = below o.base 15 := hrsp
    generalize run argBlock m₀ = m₁ at hargmem hargrsp hagree ⊢
    have hpush : word (m₁.push k.returnAddress).mem (slot o.base i)
        = word m₀.mem (slot o.base i) := by
      have hbelow : below o.base 15 - 8 = below o.base 16 := by
        rw [below, below]
        grind
      rw [Machine.push, hargrsp, hbelow, hargmem]
      exact word_setWord_of_apart (apart_below (by omega))
    rw [run_cons, run_nil, exec_cli_mem]
    exact (word_of_agreeOn hagree hi).trans hpush

/-- **A system call on the kernel's stack** would have to keep `kernel_stack` and to save the
user's stack pointer in `user_stack`; it does the one only when the stack pointer is that address,
and the other only when it is there already. -/
theorem OnKernelStack.stack_eq (hk : LeavesAlone k o m) (h : OnCpu o m)
    (hself : word m.mem (o.addr .self) = o.base) (hon : OnKernelStack k o stack m) :
    m.regs .rsp = word m.mem (o.addr .kernelStack) ∧
      m.regs .rsp = word m.mem (o.addr .userStack) := by
  obtain ⟨hentry, -⟩ := run_entryBlock_word k h hself
  have hstack : o.addr .kernelStack = slot o.base 1 := rfl
  have huser : o.addr .userStack = slot o.base 2 := rfl
  constructor
  · have hkept : word (syscallEntry k m).mem (o.addr .kernelStack)
        = word m.mem (o.addr .kernelStack) := by
      refine word_congr fun j hj => hon.kept _ ?_ ?_
      · rw [hstack, slot_toNat o (by omega), CpuObject.bytes, sizeOfCpu_eq]
        exact ⟨by omega, by omega⟩
      · rw [CpuObject.memberBytes, huser, slot_toNat o (by omega), hstack,
          slot_toNat o (by omega)]
        rintro ⟨hle, -⟩
        omega
    rw [← hkept, hstack, syscallEntry_word hk h hself (by omega), hentry 1 (by omega), hstack,
      word_setWord]
  · rw [← hon.saved, huser, hentry 2 (by omega), ← huser]
    exact word_setWord_of_apart (CpuObject.apart_addr (by decide))

/-- **No system call runs on the kernel's stack**: once the object is set up, the sequences of
system calls that keep the promise are the empty one. -/
theorem onKernelStack_iff_nil (hk : ∀ m ∈ ms, LeavesAlone k o m)
    (hinit : o.Initialised mem stack) (hstack : stack ≠ 0) (hrun : SyscallRun k o mem ms) :
    (∀ m ∈ ms, OnKernelStack k o stack m) ↔ ms = [] := by
  constructor
  · intro hon
    cases hrun with
    | nil => rfl
    | @cons _ m ms hcpu hagree _ =>
      obtain ⟨hself, hkstack, huser⟩ := hinit.words
      have hword {i : ℕ} (hi : i < 3) : word m.mem (slot o.base i) = word mem (slot o.base i) :=
        word_of_agreeOn hagree hi
      have hself' : word m.mem (o.addr .self) = o.base := (hword (i := 0) (by omega)).trans hself
      obtain ⟨hkeep, hsave⟩ := (hon m List.mem_cons_self).stack_eq (hk m List.mem_cons_self) hcpu hself'
      have hzero : m.regs .rsp = 0 := hsave.trans ((hword (i := 2) (by omega)).trans huser)
      have hsame : m.regs .rsp = stack := hkeep.trans ((hword (i := 1) (by omega)).trans hkstack)
      exact absurd (hsame.symm.trans hzero) hstack
  · rintro rfl m hm
    exact absurd hm List.not_mem_nil

/-! ## The first system call of a BSP -/

/-- A BSP's object, at an address `kmalloc` could return. -/
def bspObject : CpuObject := ⟨0xFFFF800000200000, by decide⟩

/-- The memory after `init_cpu`. -/
def bspMem : Mem := bspObject.initCpu true 0xFFFF800000106000 (fun _ => 0) fun _ => 0

/-- A user program on the BSP, with its stack at `0x7FFF0000`. -/
def userOnBsp : Machine :=
  { userMachine (Function.update (fun _ => 0) .rsp 0x7FFF0000) with mem := bspMem }

theorem initialised_bspMem : bspObject.Initialised bspMem 0xFFFF800000106000 :=
  .bsp _ _ _

theorem kernelRsp_userOnBsp : kernelRsp userOnBsp = bspObject.base := by
  have haddr : userOnBsp.kernelGsBase + 0x00 = bspObject.addr .self := rfl
  have hstack : userOnBsp.kernelGsBase + 0x08 = bspObject.addr .kernelStack := rfl
  rw [kernelRsp, haddr, hstack, word_setWord_of_apart (CpuObject.apart_addr (by decide))]
  exact initialised_bspMem.words.1

/-- The handler pushes below the object and counts above it. -/
theorem leavesAlone_userOnBsp (v : UInt64) : LeavesAlone (kernelCounting v) bspObject userOnBsp := by
  intro m₁ hm₁ x hx
  have hrsp := atCall_rsp hm₁
  rw [kernelRsp_userOnBsp] at hrsp
  obtain ⟨n, hmem⟩ := saveAndCount_mem 0xFFFFFFFF80300000 (m₁.push (kernelCounting v).returnAddress)
  have hlow : 0xFFFF800000200000 ≤ x ∧ x < 0xFFFF800000200000 + 272 := by
    rw [CpuObject.bytes, sizeOfCpu_eq] at hx
    exact hx
  show (saveAndCount 0xFFFFFFFF80300000 (m₁.push _)).mem x = _
  rw [hmem, setWord, setWord, Mem.store_apply_of_lt (by exact hlow.2.trans (by decide)),
    Mem.store_apply_of_ge]
  rw [Machine.push_rsp, hrsp]
  exact le_trans (by decide) hlow.1

theorem syscallRun_userOnBsp (k : Kernel) : SyscallRun k bspObject bspMem [userOnBsp] :=
  .cons rfl (.refl _ _) (.nil _)

theorem onKernelStack_userOnBsp :
    (∀ m ∈ [userOnBsp], OnKernelStack (kernelCounting 7) bspObject 0xFFFF800000106000 m) ↔
      [userOnBsp] = [] :=
  onKernelStack_iff_nil (List.forall_mem_singleton.mpr (leavesAlone_userOnBsp 7)) initialised_bspMem
    (by decide) (syscallRun_userOnBsp _)

/-- **The first system call does not use the kernel's stack**: it pushes below the CPU object. -/
theorem not_onKernelStack_userOnBsp :
    ¬ ∀ (k : Kernel) (o : CpuObject) (mem : Mem) (stack : UInt64) (ms : List Machine),
      (∀ m ∈ ms, LeavesAlone k o m) → o.Initialised mem stack → stack ≠ 0 →
      SyscallRun k o mem ms → ∀ m ∈ ms, OnKernelStack k o stack m := by
  intro h
  have hon := h (kernelCounting 7) bspObject bspMem _ _
    (List.forall_mem_singleton.mpr (leavesAlone_userOnBsp 7)) initialised_bspMem (by decide)
    (syscallRun_userOnBsp _) userOnBsp List.mem_cons_self
  have hcpu : OnCpu bspObject userOnBsp := rfl
  have hpush : below bspObject.base 0 ∈ entryPushes (kernelCounting 7) userOnBsp := by
    rw [entryPushes_eq hcpu initialised_bspMem.words.1]
    decide
  obtain ⟨i, hi, heq⟩ := hon.pushes _ hpush
  have hne : ∀ i ≤ frameWords, below bspObject.base 0 ≠ below 0xFFFF800000106000 i := by decide
  exact hne i hi heq

end Syscall

end MioOS
