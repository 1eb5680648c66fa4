import MioOS.Library.StackFrame

/-!
# Syscall/Machine — the part of x86-64 that `syscall_entry.asm` uses

A machine is its register file, its memory, the two GS bases that `swapgs` exchanges and the flags
the routine reads.  `exec` is the effect of one straight-line instruction, `run` of a block of them.
The record also keeps the addresses its pushes have written, newest first: no instruction reads that
list, it is there for statements about where a routine writes.
-/

namespace MioOS

namespace Syscall

open ByteMemory StackFrame

/-- The general-purpose registers. -/
inductive Reg
  | rax | rbx | rcx | rdx | rsi | rdi | rbp | rsp
  | r8 | r9 | r10 | r11 | r12 | r13 | r14 | r15
  deriving DecidableEq, Repr

/-- A register file. -/
abbrev RegFile := Reg → UInt64

/-- The state of a CPU and its memory. -/
structure Machine where
  regs : RegFile
  rip : UInt64
  mem : Mem
  /-- `GS.base`. -/
  gsBase : UInt64
  /-- `IA32_KERNEL_GS_BASE`. -/
  kernelGsBase : UInt64
  /-- `RFLAGS.CF`. -/
  carry : Bool
  /-- `RFLAGS.ZF`. -/
  zero : Bool
  /-- `RFLAGS.IF`. -/
  interrupts : Bool
  /-- Where the pushes have written, newest first. -/
  pushed : List UInt64

namespace Machine

/-- Write a register. -/
def setReg (m : Machine) (r : Reg) (v : UInt64) : Machine :=
  { m with regs := Function.update m.regs r v }

/-- Push a word. -/
def push (m : Machine) (v : UInt64) : Machine :=
  { m.setReg .rsp (m.regs .rsp - 8) with
    mem := setWord m.mem (m.regs .rsp - 8) v
    pushed := (m.regs .rsp - 8) :: m.pushed }

/-- Pop a word into a register.  The stack pointer moves first, so that `pop rsp` keeps the word. -/
def pop (m : Machine) (r : Reg) : Machine :=
  (m.setReg .rsp (m.regs .rsp + 8)).setReg r (word m.mem (m.regs .rsp))

end Machine

/-- The straight-line instructions of the routine. -/
inductive Instr
  | swapgs
  /-- `mov [gs:offset], reg` -/
  | storeGs (offset : UInt64) (r : Reg)
  /-- `mov reg, [gs:offset]` -/
  | loadGs (r : Reg) (offset : UInt64)
  /-- `push qword [gs:offset]` -/
  | pushGs (offset : UInt64)
  | push (r : Reg)
  | pop (r : Reg)
  | mov (dst src : Reg)
  /-- `mov reg, imm` -/
  | movImm (r : Reg) (v : UInt64)
  /-- `add reg, imm` -/
  | addImm (r : Reg) (v : UInt64)
  /-- `cmp reg, qword [address]` -/
  | cmpMem (r : Reg) (address : UInt64)
  | sti
  | cli
  /-- `o64 sysret`: `rip` from `rcx`, the flags from `r11`. -/
  | sysret
  deriving DecidableEq, Repr

/-- The effect of an instruction. -/
def exec (m : Machine) : Instr → Machine
  | .swapgs => { m with gsBase := m.kernelGsBase, kernelGsBase := m.gsBase }
  | .storeGs offset r => { m with mem := setWord m.mem (m.gsBase + offset) (m.regs r) }
  | .loadGs r offset => m.setReg r (word m.mem (m.gsBase + offset))
  | .pushGs offset => m.push (word m.mem (m.gsBase + offset))
  | .push r => m.push (m.regs r)
  | .pop r => m.pop r
  | .mov dst src => m.setReg dst (m.regs src)
  | .movImm r v => m.setReg r v
  | .addImm r v =>
    { m.setReg r (m.regs r + v) with
      carry := decide (m.regs r + v < v)
      zero := decide (m.regs r + v = 0) }
  | .cmpMem r address =>
    { m with
      carry := decide (m.regs r < word m.mem address)
      zero := decide (m.regs r = word m.mem address) }
  | .sti => { m with interrupts := true }
  | .cli => { m with interrupts := false }
  | .sysret =>
    { m with
      rip := m.regs .rcx
      carry := (m.regs .r11).toNat.testBit 0
      zero := (m.regs .r11).toNat.testBit 6
      interrupts := (m.regs .r11).toNat.testBit 9 }

/-- The effect of a block. -/
def run (block : List Instr) (m : Machine) : Machine := block.foldl exec m

variable {m : Machine} {i : Instr} {block rest : List Instr} {r s : Reg} {v : UInt64}
  {vs ws : List UInt64} {rs : List Reg}

@[simp] theorem run_nil (m : Machine) : run [] m = m := rfl

@[simp] theorem run_cons : run (i :: block) m = run block (exec m i) := rfl

theorem run_append : run (block ++ rest) m = run rest (run block m) := List.foldl_append

section Exec

variable (m : Machine) (r s : Reg) (v a : UInt64)

@[simp] theorem exec_push : exec m (.push r) = m.push (m.regs r) := rfl

@[simp] theorem exec_pushGs : exec m (.pushGs v) = m.push (word m.mem (m.gsBase + v)) := rfl

@[simp] theorem exec_pop : exec m (.pop r) = m.pop r := rfl

@[simp] theorem exec_loadGs : exec m (.loadGs r v) = m.setReg r (word m.mem (m.gsBase + v)) := rfl

@[simp] theorem exec_mov : exec m (.mov r s) = m.setReg r (m.regs s) := rfl

@[simp] theorem exec_movImm : exec m (.movImm r v) = m.setReg r v := rfl

@[simp] theorem exec_cmpMem_regs : (exec m (.cmpMem r a)).regs = m.regs := rfl

@[simp] theorem exec_cmpMem_mem : (exec m (.cmpMem r a)).mem = m.mem := rfl

@[simp] theorem exec_cmpMem_pushed : (exec m (.cmpMem r a)).pushed = m.pushed := rfl

@[simp] theorem exec_sti_regs : (exec m .sti).regs = m.regs := rfl

@[simp] theorem exec_sti_mem : (exec m .sti).mem = m.mem := rfl

@[simp] theorem exec_cli_regs : (exec m .cli).regs = m.regs := rfl

@[simp] theorem exec_cli_mem : (exec m .cli).mem = m.mem := rfl

@[simp] theorem exec_swapgs_regs : (exec m .swapgs).regs = m.regs := rfl

@[simp] theorem exec_swapgs_mem : (exec m .swapgs).mem = m.mem := rfl

@[simp] theorem exec_sysret_mem : (exec m .sysret).mem = m.mem := rfl

@[simp] theorem exec_sysret_regs : (exec m .sysret).regs = m.regs := rfl

@[simp] theorem exec_addImm_regs : (exec m (.addImm r v)).regs = (m.setReg r (m.regs r + v)).regs :=
  rfl

@[simp] theorem exec_addImm_mem : (exec m (.addImm r v)).mem = m.mem := rfl

@[simp] theorem exec_storeGs_regs : (exec m (.storeGs v r)).regs = m.regs := rfl

end Exec

/-! ## Registers -/

namespace Machine

@[simp] theorem setReg_mem : (m.setReg r v).mem = m.mem := rfl

@[simp] theorem setReg_pushed : (m.setReg r v).pushed = m.pushed := rfl

@[simp] theorem setReg_self : (m.setReg r v).regs r = v := Function.update_self ..

theorem setReg_of_ne (h : s ≠ r) : (m.setReg r v).regs s = m.regs s := Function.update_of_ne h ..

@[simp] theorem push_rsp : (m.push v).regs .rsp = m.regs .rsp - 8 :=
  setReg_self (m := m) (r := .rsp)

theorem push_of_ne (h : r ≠ .rsp) : (m.push v).regs r = m.regs r := setReg_of_ne h

@[simp] theorem pop_self : (m.pop r).regs r = word m.mem (m.regs .rsp) := setReg_self

theorem pop_of_ne (h : s ≠ r) (hs : s ≠ .rsp) : (m.pop r).regs s = m.regs s := by
  rw [pop, setReg_of_ne h, setReg_of_ne hs]

theorem pop_rsp (h : r ≠ .rsp) : (m.pop r).regs .rsp = m.regs .rsp + 8 := by
  rw [pop, setReg_of_ne h.symm, setReg_self]

@[simp] theorem pop_mem : (m.pop r).mem = m.mem := rfl

/-! ## The stack -/

/-- The words on top of the stack. -/
def Stack (m : Machine) (vs : List UInt64) : Prop := Frame m.mem (m.regs .rsp) vs

theorem Stack.push (h : m.Stack vs) (hlen : vs.length < 2 ^ 60) :
    (m.push v).Stack (v :: vs) := by
  rw [Stack, push_rsp]
  exact Frame.push h hlen

theorem Stack.pop (h : m.Stack (v :: vs)) (hr : r ≠ .rsp) : (m.pop r).Stack vs := by
  rw [Stack, pop_rsp hr]
  exact Frame.tail h

/-- The words on the stack depend on the memory and the stack pointer only. -/
theorem Stack.congr {m' : Machine} (h : m.Stack vs) (hmem : m'.mem = m.mem)
    (hrsp : m'.regs .rsp = m.regs .rsp) : m'.Stack vs := by
  rw [Stack, hmem, hrsp]
  exact h

theorem Stack.setReg (h : m.Stack vs) (hr : r ≠ .rsp) : (m.setReg r v).Stack vs :=
  h.congr rfl (setReg_of_ne hr.symm)

theorem Stack.pop_self (h : m.Stack (v :: vs)) : (m.pop r).regs r = v := by
  rw [Machine.pop_self]
  exact Frame.load_eq h

end Machine

/-! ## Saving and restoring registers -/

/-- Push registers from left to right. -/
def pushes (rs : List Reg) : List Instr := rs.map .push

/-- Pop registers from left to right. -/
def pops (rs : List Reg) : List Instr := rs.map .pop

/-- **A block of pushes** leaves the other registers alone and puts the registers' values on top of
the stack, the last one first. -/
theorem run_pushes (hrs : Reg.rsp ∉ rs) (h : m.Stack vs)
    (hlen : vs.length + rs.length < 2 ^ 60) :
    (run (pushes rs) m).Stack ((rs.map m.regs).reverse ++ vs) ∧
      ∀ r, r ≠ .rsp → (run (pushes rs) m).regs r = m.regs r := by
  induction rs generalizing m vs with
  | nil => exact ⟨h, fun _ _ => rfl⟩
  | cons r rs ih =>
    have hr : Reg.rsp ∉ rs := fun hmem => hrs (List.mem_cons_of_mem _ hmem)
    rw [List.length_cons] at hlen
    obtain ⟨hstack, hregs⟩ :=
      ih (m := m.push (m.regs r)) hr (h.push (v := m.regs r) (by omega))
        (by rw [List.length_cons]; omega)
    have hmap : rs.map (m.push (m.regs r)).regs = rs.map m.regs :=
      List.map_congr_left fun s hs => Machine.push_of_ne fun heq => hr (heq ▸ hs)
    rw [hmap] at hstack
    refine ⟨?_, fun s hs => (hregs s hs).trans (Machine.push_of_ne hs)⟩
    rw [List.map_cons, List.reverse_cons, List.append_assoc]
    exact hstack

/-- **Where a block of pushes writes.** -/
theorem run_pushes_word (hrs : Reg.rsp ∉ rs) {b : UInt64}
    (hb : ∀ i < rs.length, Apart (below (m.regs .rsp) i) b) :
    word (run (pushes rs) m).mem b = word m.mem b := by
  induction rs generalizing m with
  | nil => rfl
  | cons r rs ih =>
    have hr : Reg.rsp ∉ rs := fun hmem => hrs (List.mem_cons_of_mem _ hmem)
    have hpush : word (m.push (m.regs r)).mem b = word m.mem b :=
      word_setWord_of_apart (hb 0 (Nat.succ_pos _))
    refine (ih (m := m.push (m.regs r)) hr fun i hi => ?_).trans hpush
    rw [Machine.push_rsp, ← below_succ]
    exact hb (i + 1) (Nat.succ_lt_succ hi)

theorem run_pushes_rsp (hrs : Reg.rsp ∉ rs) :
    (run (pushes rs) m).regs .rsp = m.regs .rsp - UInt64.ofNat (8 * rs.length) := by
  induction rs generalizing m with
  | nil => exact (UInt64.sub_zero _).symm
  | cons r rs ih =>
    have hr : Reg.rsp ∉ rs := fun hmem => hrs (List.mem_cons_of_mem _ hmem)
    have hrun := ih (m := m.push (m.regs r)) hr
    rw [Machine.push_rsp] at hrun
    rw [List.length_cons, pushes, List.map_cons, run_cons, exec_push]
    refine hrun.trans ?_
    rw [show 8 * (rs.length + 1) = 8 + 8 * rs.length by ring, UInt64.ofNat_add,
      show UInt64.ofNat 8 = 8 from rfl]
    grind

/-- Where a block of pushes writes, newest first. -/
theorem run_pushes_pushed (hrs : Reg.rsp ∉ rs) :
    (run (pushes rs) m).pushed
      = ((List.range rs.length).map (below (m.regs .rsp))).reverse ++ m.pushed := by
  induction rs generalizing m with
  | nil => rfl
  | cons r rs ih =>
    have hr : Reg.rsp ∉ rs := fun hmem => hrs (List.mem_cons_of_mem _ hmem)
    have hrun := ih (m := m.push (m.regs r)) hr
    have hshift : below (m.regs .rsp) ∘ Nat.succ = below (m.regs .rsp - 8) :=
      funext fun i => below_succ _ i
    rw [Machine.push_rsp] at hrun
    rw [List.length_cons, List.range_succ_eq_map, List.map_cons, List.map_map, hshift,
      List.reverse_cons, List.append_assoc, pushes, List.map_cons, run_cons, exec_push]
    exact hrun

theorem run_pops_mem (rs : List Reg) (m : Machine) : (run (pops rs) m).mem = m.mem := by
  induction rs generalizing m with
  | nil => rfl
  | cons r rs ih => exact ih (m.pop r)

/-- **A block of pops** of distinct registers hands the words on the stack out from the top. -/
theorem run_pops {f : Reg → UInt64} (hnd : rs.Nodup) (hrs : Reg.rsp ∉ rs)
    (h : m.Stack (rs.map f ++ ws)) :
    (run (pops rs) m).Stack ws ∧ (∀ r ∈ rs, (run (pops rs) m).regs r = f r) ∧
      ∀ r, r ≠ .rsp → r ∉ rs → (run (pops rs) m).regs r = m.regs r := by
  induction rs generalizing m with
  | nil => exact ⟨h, fun r hr => absurd hr List.not_mem_nil, fun _ _ _ => rfl⟩
  | cons r rs ih =>
    obtain ⟨hr, hnd⟩ := List.nodup_cons.mp hnd
    obtain ⟨hne, hrest⟩ := not_or.mp (mt List.mem_cons.mpr hrs)
    obtain ⟨hstack, hpopped, hother⟩ :=
      ih (m := m.pop r) hnd hrest (Machine.Stack.pop h (Ne.symm hne))
    refine ⟨hstack, fun s hs => ?_, fun s hs hsmem => ?_⟩
    · rcases List.mem_cons.mp hs with rfl | hs
      · exact (hother s (Ne.symm hne) hr).trans (Machine.Stack.pop_self h)
      · exact hpopped s hs
    · obtain ⟨hsr, hsrs⟩ := not_or.mp (mt List.mem_cons.mpr hsmem)
      exact (hother s hs hsrs).trans (Machine.pop_of_ne hsr hs)

end Syscall

end MioOS
