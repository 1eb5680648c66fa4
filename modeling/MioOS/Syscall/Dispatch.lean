import MioOS.Syscall.Entry

/-!
# Syscall/Dispatch — the range check of `syscall_entry` against the table

`syscalls.cpp` computes `__NR_syscall_max` from the size of `syscall_table`, and `syscall_entry` lets
every number through that is not above it.  `Checked` is what the check is for.  The limit is one less
than the number of entries, so that an empty table has the largest limit there is.
-/

namespace MioOS

namespace Syscall

open ByteMemory StackFrame

/-! ## `syscalls.cpp` -/

/-- `syscall_table`: the addresses of its functions.  It fits the address space. -/
structure SyscallTable where
  entries : List UInt64
  fits : 8 * entries.length < 2 ^ 64

namespace SyscallTable

/-- `sizeof(syscall_table)`. -/
def size (t : SyscallTable) : ℕ := 8 * t.entries.length

/-- `__NR_syscall_max`. -/
def nrSyscallMax (t : SyscallTable) : UInt64 := UInt64.ofNat (t.size / 8) - 1

/-- The table as it is. -/
def syscallTable : SyscallTable := ⟨[], by decide⟩

variable {t : SyscallTable}

/-- **The limit rejects exactly the numbers outside the table**, if the table has an entry. -/
theorem nrSyscallMax_lt_iff (ht : t.entries ≠ []) (n : UInt64) :
    t.nrSyscallMax < n ↔ t.entries.length ≤ n.toNat := by
  have hpos := List.length_pos_iff.mpr ht
  have hfits := t.fits
  have hsize : (UInt64.ofNat (t.size / 8)).toNat = t.entries.length := by
    rw [size, Nat.mul_div_cancel_left _ (by norm_num), UInt64.toNat_ofNat_of_lt']
    rw [UInt64.size]
    omega
  have hmax : t.nrSyscallMax.toNat = t.entries.length - 1 := by
    rw [nrSyscallMax, UInt64.toNat_sub_of_le, hsize]
    · rfl
    · rw [UInt64.le_iff_toNat_le, hsize]
      exact hpos
  rw [UInt64.lt_iff_toNat_lt, hmax]
  omega

/-- **An empty table rejects no number**: its limit wraps. -/
theorem nrSyscallMax_nil (ht : t.entries = []) : t.nrSyscallMax = -1 := by
  rw [nrSyscallMax, size, ht]
  rfl

end SyscallTable

/-! ## The check -/

/-- The slot of the table that the routine calls through, if it calls. -/
def calledSlot (k : Kernel) (m : Machine) : Option UInt64 :=
  let m := run (entryBlock k) m
  if above m then none else some (k.syscallTable + m.regs .r11 * 8)

variable {k : Kernel} {m : Machine} {t : SyscallTable}

theorem run_argBlock_r11 (m : Machine) : (run argBlock m).regs .r11 = m.regs .r11 := by
  rw [argBlock, run_cons, run_cons, run_nil, exec_mov, exec_sti_regs]
  exact Machine.setReg_of_ne (by decide)

/-- **At `.done`** the routine has run the code behind that slot, or put the error into `rax`. -/
theorem atDone_eq (k : Kernel) (m : Machine) : atDone k m =
    (calledSlot k m).elim (run badBlock (run (entryBlock k) m)) fun a =>
      let m := run argBlock (run (entryBlock k) m)
      run [.cli] (k.code (word m.mem a) (m.push k.returnAddress)) := by
  rw [atDone, calledSlot]
  generalize run (entryBlock k) m = m
  dsimp only
  by_cases h : above m = true
  · rw [if_pos h, if_pos h, Option.elim_none]
  · rw [if_neg h, if_neg h, Option.elim_some, call, handler, run_argBlock_r11]

/-- Restoring leaves the result alone. -/
theorem run_doneBlock_rax (m : Machine) : (run doneBlock m).regs .rax = m.regs .rax := by
  simp [doneBlock, pops, restoredRegs, Machine.pop_of_ne, Machine.setReg_of_ne]

/-- **A rejected call** returns `-ENOSYS` and runs no handler: it does the same in every kernel. -/
theorem syscallEntry_of_calledSlot_none (h : calledSlot k m = none) :
    (syscallEntry k m).regs .rax = negENOSYS ∧
      ∀ code, syscallEntry { k with code := code } m = syscallEntry k m := by
  constructor
  · rw [syscallEntry, run_doneBlock_rax, atDone_eq, h]
    exact Machine.setReg_self
  · intro code
    have hcode : calledSlot { k with code := code } m = none := h
    rw [syscallEntry, syscallEntry, atDone_eq, atDone_eq, h, hcode, Option.elim_none, Option.elim_none]
    rfl

/-- **The check does its work** in a system call: it calls through the table's slot for a number
inside the table, and for every other number it calls nothing and returns `-ENOSYS`. -/
structure Checked (t : SyscallTable) (k : Kernel) (m : Machine) : Prop where
  called : (m.regs .rax).toNat < t.entries.length →
    calledSlot k m = some (k.syscallTable + m.regs .rax * 8)
  rejected : t.entries.length ≤ (m.regs .rax).toNat →
    calledSlot k m = none ∧ (syscallEntry k m).regs .rax = negENOSYS

/-- **The kernel is linked with the table**: `__NR_syscall_max` holds its limit, in read-only data
that the routine's stores do not reach. -/
structure Linked (t : SyscallTable) (k : Kernel) (m : Machine) : Prop where
  limit : word m.mem k.nrSyscallMax = t.nrSyscallMax
  userStack : Apart (m.kernelGsBase + 0x08) k.nrSyscallMax
  stack : ∀ i < frameWords, Apart (below (kernelRsp m) i) k.nrSyscallMax

/-- **What the comparison sees**: the number and the limit. -/
theorem Linked.entry (h : Linked t k m) :
    (run (entryBlock k) m).regs .r11 = m.regs .rax ∧
      (above (run (entryBlock k) m) = true ↔ t.nrSyscallMax < m.regs .rax) := by
  have hrsp : Reg.rsp ∉ savedRegs := by decide
  obtain ⟨hstack, hregs⟩ := run_switch m
  obtain ⟨-, hkept⟩ := run_pushes hrsp hstack (by simp [savedRegs])
  have hrax : (run (pushes savedRegs) (run switchBlock m)).regs .rax = m.regs .rax := by
    rw [hkept .rax (by decide), hregs .rax (by decide)]
  have hswitch : word (run switchBlock m).mem k.nrSyscallMax = t.nrSyscallMax ∧
      (run switchBlock m).regs .rsp = kernelRsp m - 8 := by
    constructor
    · refine (word_setWord_of_apart (h.stack 0 (by decide))).trans ?_
      exact (word_setWord_of_apart h.userStack).trans h.limit
    · exact run_switch_rsp m
  have hlimit : word (run (pushes savedRegs) (run switchBlock m)).mem k.nrSyscallMax
      = t.nrSyscallMax := by
    rw [run_pushes_word hrsp, hswitch.1]
    intro i hi
    rw [hswitch.2, ← below_succ]
    exact h.stack (i + 1) (Nat.succ_lt_succ hi)
  rw [entryBlock, run_append, run_append, run_cons, run_cons, run_nil, exec_mov, exec_cmpMem_regs,
    Machine.setReg_self, above]
  refine ⟨hrax, ?_⟩
  simp only [exec, Machine.setReg_self, Machine.setReg_mem, hlimit, hrax, Bool.and_eq_true,
    Bool.not_eq_true', decide_eq_false_iff_not, UInt64.not_lt]
  exact ⟨fun h => UInt64.lt_of_le_of_ne h.1 (Ne.symm h.2),
    fun hlt => ⟨UInt64.le_of_lt hlt, (UInt64.ne_of_lt hlt).symm⟩⟩

/-- **An empty table calls whatever the number**, through a slot it does not have. -/
theorem Linked.calledSlot_of_nil (h : Linked t k m) (ht : t.entries = []) :
    calledSlot k m = some (k.syscallTable + m.regs .rax * 8) := by
  have hlow : ¬ t.nrSyscallMax < m.regs .rax := by
    rw [SyscallTable.nrSyscallMax_nil ht, UInt64.lt_iff_toNat_lt]
    exact not_lt.mpr (Nat.le_of_lt_succ (m.regs .rax).toNat_lt)
  exact (if_neg (mt h.entry.2.mp hlow)).trans (by rw [h.entry.1])

theorem Linked.not_checked_of_nil (h : Linked t k m) (ht : t.entries = []) : ¬ Checked t k m := by
  intro hchecked
  have hnone := (hchecked.rejected (by rw [ht]; exact Nat.zero_le _)).1
  rw [h.calledSlot_of_nil ht] at hnone
  exact absurd hnone (Option.some_ne_none _)

/-- **The range check works exactly when the table has an entry.** -/
theorem checked_iff (h : Linked t k m) : Checked t k m ↔ t.entries ≠ [] := by
  refine ⟨fun hchecked ht => h.not_checked_of_nil ht hchecked, fun ht => ⟨fun hlt => ?_, fun hge => ?_⟩⟩
  · have hlow : ¬ t.nrSyscallMax < m.regs .rax :=
      mt (SyscallTable.nrSyscallMax_lt_iff ht _).mp (not_le.mpr hlt)
    exact (if_neg (mt h.entry.2.mp hlow)).trans (by rw [h.entry.1])
  · have hnone : calledSlot k m = none :=
      if_pos (h.entry.2.mpr ((SyscallTable.nrSyscallMax_lt_iff ht _).mpr hge))
    exact ⟨hnone, (syscallEntry_of_calledSlot_none hnone).1⟩

/-! ## A table of one entry, and the table there is -/

/-- A user program on a kernel whose `__NR_syscall_max` holds a value. -/
def userWithLimit (v : UInt64) : Machine :=
  { userMachine (fun _ => 0) with mem := setWord (fun _ => 0) 0xFFFFFFFF80201000 v }

theorem linked_userWithLimit (t : SyscallTable) (v : UInt64) :
    Linked t (kernelReturning v) (userWithLimit t.nrSyscallMax) where
  limit := word_setWord
  userStack := by
    show Apart (0xFFFF800000200000 + 0x08) 0xFFFFFFFF80201000
    decide
  stack := by
    have hrsp : kernelRsp (userWithLimit t.nrSyscallMax) = 0 := by
      have hgs : Apart ((0xFFFF800000200000 : UInt64) + 0x08) (0xFFFF800000200000 + 0x00) := by decide
      have hconst : Apart 0xFFFFFFFF80201000 ((0xFFFF800000200000 : UInt64) + 0x00) := by decide
      refine (word_setWord_of_apart hgs).trans ((word_setWord_of_apart hconst).trans ?_)
      decide +kernel
    rw [hrsp]
    show ∀ i < frameWords, Apart (below 0 i) 0xFFFFFFFF80201000
    decide

/-- A table of one entry. -/
def oneEntry : SyscallTable := ⟨[0xFFFFFFFF80100100], by decide⟩

theorem checked_oneEntry :
    Checked oneEntry (kernelReturning 7) (userWithLimit oneEntry.nrSyscallMax) :=
  (checked_iff (linked_userWithLimit oneEntry 7)).mpr (by decide)

/-- **System call 0 of the empty table** is called through `syscall_table[0]`, which does not exist. -/
theorem not_checked_syscallTable :
    ¬ ∀ (t : SyscallTable) (k : Kernel) (m : Machine), Linked t k m → Checked t k m := by
  intro h
  have hlinked := linked_userWithLimit SyscallTable.syscallTable 7
  exact hlinked.not_checked_of_nil rfl (h _ _ _ hlinked)

end Syscall

end MioOS
