import MioOS.Library.Copy

/-!
# Util/Memory — `memmove` of `mem_util.cpp`

`memmove` chooses the direction of its loop so that no byte is overwritten before it is read.
Addresses are numbers: the two ranges do not wrap around the address space.
-/

namespace MioOS

open ByteMemory

/-- **`memmove`**: what it returns, and the memory it leaves. -/
def memmove (m : Mem) (dest src count : ℕ) : ℕ × Mem :=
  if dest = 0 ∨ src = 0 then (0, m)
  else if dest < src then (dest, m.copy dest src count)
  else if dest > src then (dest, m.copyBack (dest + count) (src + count) count)
  else (dest, m)

variable {m : Mem} {dest src count : ℕ}

/-- **`memmove` is a copy through a snapshot**, whatever the overlap. -/
theorem memmove_eq_move (hdest : dest ≠ 0) (hsrc : src ≠ 0) :
    memmove m dest src count = (dest, m.move dest src count) := by
  rw [memmove, if_neg (not_or.mpr ⟨hdest, hsrc⟩)]
  rcases lt_trichotomy dest src with h | rfl | h
  · rw [if_pos h, Mem.copy_eq_move h.le]
  · rw [if_neg (lt_irrefl _), if_neg (lt_irrefl _), Mem.move_self]
  · rw [if_neg h.le.not_gt, if_pos h, Mem.copyBack_eq_move h.le]

/-- **What `memmove` leaves**: the source's bytes from before the call at the destination, and every
other byte as it was. -/
theorem memmove_snapshot (m : Mem) (count : ℕ) (hdest : dest ≠ 0) (hsrc : src ≠ 0) :
    (∀ i < count, (memmove m dest src count).2 (dest + i) = m (src + i)) ∧
      ∀ x, x ∉ Set.Ico dest (dest + count) → (memmove m dest src count).2 x = m x := by
  rw [memmove_eq_move hdest hsrc]
  exact ⟨fun i hi => Mem.move_apply_add hi, fun x hx => Mem.move_apply_of_notMem hx⟩

/-- Three bytes moved up by one: each ends where its neighbour was. -/
theorem memmove_snapshot_overlap :
    (∀ i < 3, (memmove (fun a => UInt8.ofNat a) 17 16 3).2 (17 + i) = UInt8.ofNat (16 + i)) ∧
      ∀ x, x ∉ Set.Ico 17 (17 + 3) → (memmove (fun a => UInt8.ofNat a) 17 16 3).2 x = UInt8.ofNat x :=
  memmove_snapshot (fun a => UInt8.ofNat a) 3 (by decide) (by decide)

end MioOS
