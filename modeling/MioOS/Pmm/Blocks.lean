import MioOS.Library.BuddyBlocks
import MioOS.Pmm.Repr

/-!
# Pmm/Blocks — the free lists hold the maximal free blocks

`BuddyInv g s F` is the invariant of the buddy allocator: its lists hold exactly the maximal
aligned blocks of the set `F` of free frames, and bit `i` of an order below the largest tells
whether exactly one block of the pair is listed.  Two edits keep it, and every loop of the source is
a sequence of them:

* `BuddyInv.unlink` — `list_remove` and `toggle_buddy_bit` take a listed block out of `F`;
* `BuddyInv.link` — `list_add` and `toggle_buddy_bit` put a block into `F` whose buddy is not
  wholly free.
-/

namespace MioOS

open ByteMemory Intrusive BuddyBlocks

/-- An event the source is entitled to: a toggle inside its slice, a merge with a listed buddy. -/
def Event.Ok (g : Geometry) : Event → Prop
  | .toggle order byteIndex => byteIndex < PMM.bytesNeeded g.maxPfn order
  | .merge _ _ listed => listed

namespace PMM

/-- The bytes of the page of a frame, in the HHDM. -/
def pageBytes (p : ℕ) : Set ℕ := Set.Ico (hhdmBase + p * 4096) (hhdmBase + (p + 1) * 4096)

/-- The bytes of the `buddy_free_node` at the head of that page. -/
def nodeBytes (p : ℕ) : Set ℕ := Set.Ico (hhdmBase + p * 4096) (hhdmBase + p * 4096 + 16)

/-- What the allocator may write while the frames `W` are its own: the bitmaps and the nodes at the
heads of those pages. -/
def owned (g : Geometry) (W : Set ℕ) : Set ℕ := g.bitmap ∪ {x | ∃ p ∈ W, x ∈ nodeBytes p}

/-- The state without its memory, list heads and trace. -/
def scalars (s : PMM) : PMM := { s with mem := fun _ => 0, freeLists := fun _ => 0, trace := [] }

/-- `s'` differs from `s` in the memory the allocator owns, the list heads and the trace only. -/
structure Evolves (g : Geometry) (W : Set ℕ) (s s' : PMM) : Prop where
  scalars : s'.scalars = s.scalars
  mem : Mem.AgreeOn (owned g W)ᶜ s.mem s'.mem

/-- The lists `L` and bits `B` tell which frames are free. -/
structure Sync (L : ℕ → List ℕ) (B : ℕ → ℕ → Bool) (F : Set ℕ) : Prop where
  maximal : ∀ o ≤ buddyMaxOrder, ∀ p, p ∈ L o ↔ MaxBlock buddyMaxOrder F o p
  bits : ∀ o < buddyMaxOrder, ∀ p, 2 ^ o ∣ p →
    B o (p / 2 ^ (o + 1)) = (decide (p ∈ L o) ^^ decide (buddy o p ∈ L o))

/-- **The invariant of the buddy allocator** when `F` is the set of free frames. -/
structure BuddyInv (g : Geometry) (s : PMM) (F : Set ℕ) : Prop where
  frames : ∀ p ∈ F, g.Frame p
  repr : ∃ L B, Repr g s L B ∧ Sync L B F
  trace : ∀ e ∈ s.trace, e.Ok g

variable {g : Geometry} {s s' s'' : PMM} {m : Mem} {L : ℕ → List ℕ} {B B' : ℕ → ℕ → Bool}
  {F W W' : Set ℕ} {l l' : List ℕ} {b : ℕ → Bool} {o p q r v x : ℕ}

/-! ## What the primitives leave alone -/

theorem nodeBytes_subset (p : ℕ) : nodeBytes p ⊆ pageBytes p :=
  Set.Ico_subset_Ico_right (by omega)

theorem owned_mono (h : W ⊆ W') : owned g W ⊆ owned g W' :=
  Set.union_subset_union_right _ fun _ ⟨p, hp, hx⟩ => ⟨p, h hp, hx⟩

theorem Evolves.refl (g : Geometry) (W : Set ℕ) (s : PMM) : Evolves g W s s :=
  ⟨rfl, Mem.AgreeOn.refl _ _⟩

theorem Evolves.trans (h : Evolves g W s s') (h' : Evolves g W s' s'') : Evolves g W s s'' :=
  ⟨h'.scalars.trans h.scalars, h.mem.trans h'.mem⟩

theorem Evolves.mono (h : Evolves g W s s') (hW : W ⊆ W') : Evolves g W' s s' :=
  ⟨h.scalars, h.mem.mono (Set.compl_subset_compl.mpr (owned_mono hW))⟩

theorem agreeOn_setNext (hp : g.Frame p) (hW : p ∈ W) :
    Mem.AgreeOn (owned g W)ᶜ m (setNext m (nodeOf p) v) := by
  refine Mem.agreeOn_store fun x hx => ?_
  by_contra hc
  refine hx (Or.inr ⟨p, hW, ?_⟩)
  rw [nodeOf_eq hp.lt] at hc
  rw [nodeBytes, Set.mem_Ico]
  omega

theorem agreeOn_setPrev (hp : g.Frame p) (hW : p ∈ W) :
    Mem.AgreeOn (owned g W)ᶜ m (setPrev m (nodeOf p) v) := by
  refine Mem.agreeOn_store fun x hx => ?_
  by_contra hc
  refine hx (Or.inr ⟨p, hW, ?_⟩)
  rw [nodeOf_eq hp.lt] at hc
  rw [nodeBytes, Set.mem_Ico]
  omega

theorem trace_toggle (s : PMM) (p o : ℕ) :
    (s.toggleBuddyBit p o).2.trace = .toggle o (p >>> (o + 1) / 8) :: s.trace := rfl

theorem trace_listAdd (s : PMM) (b o : ℕ) : (s.listAdd b o).trace = s.trace := rfl

@[simp] theorem scalars_toggle (s : PMM) (p o : ℕ) : (s.toggleBuddyBit p o).2.scalars = s.scalars :=
  rfl

@[simp] theorem scalars_listAdd (s : PMM) (b o : ℕ) : (s.listAdd b o).scalars = s.scalars := rfl

@[simp] theorem scalars_listRemove (s : PMM) (b o : ℕ) : (s.listRemove b o).scalars = s.scalars := by
  by_cases hprev : prev s.mem b = 0 <;>
    simp only [listRemove, scalars, hprev, ne_eq, not_true, not_false_eq_true, if_true, if_false] <;>
    split <;> rfl

theorem evolves_toggle (h : Repr g s L B) (ho : o ≤ buddyMaxOrder)
    (hi : p >>> (o + 1) / 8 < bytesNeeded g.maxPfn o) :
    Evolves g W s (s.toggleBuddyBit p o).2 := by
  refine ⟨rfl, fun x hx => toggleBuddyBit_mem_of_ne fun hxb => hx (Or.inl ?_)⟩
  rw [hxb, h.slices o ho]
  exact slice_mem_bitmap ho hi

theorem evolves_listAdd (h : Repr g s L B) (ho : o ≤ buddyMaxOrder) (hp : g.Frame p) (hW : p ∈ W)
    (hL : ∀ q ∈ L o, q ∈ W) : Evolves g W s (s.listAdd (nodeOf p) o) := by
  refine ⟨scalars_listAdd .., ?_⟩
  have h1 : Mem.AgreeOn (owned g W)ᶜ s.mem
      (setNext (setPrev s.mem (nodeOf p) 0) (nodeOf p) (s.freeLists o)) :=
    (agreeOn_setPrev hp hW).trans (agreeOn_setNext hp hW)
  simp only [listAdd]
  split
  · rename_i hne
    obtain ⟨q, hq, hqh⟩ := List.mem_map.mp ((h.linked o ho).head_mem.resolve_left hne)
    rw [← hqh] at h1 ⊢
    exact h1.trans (agreeOn_setPrev (h.frames o ho q hq) (hL q hq))
  · exact h1

theorem evolves_listRemove (h : Repr g s L B) (ho : o ≤ buddyMaxOrder) (hp : p ∈ L o)
    (hL : ∀ q ∈ L o, q ∈ W) : Evolves g W s (s.listRemove (nodeOf p) o) := by
  refine ⟨scalars_listRemove .., ?_⟩
  rw [h.mem_listRemove ho hp]
  have h1 : Mem.AgreeOn (owned g W)ᶜ s.mem
      (unlinkNext s.mem (prev s.mem (nodeOf p)) (next s.mem (nodeOf p))) := by
    rw [unlinkNext]
    split
    · obtain ⟨q, hq, hqp⟩ := List.mem_map.mp (h.prev_mem ho hp ‹_›)
      rw [← hqp]
      exact agreeOn_setNext (h.frames o ho q hq) (hL q hq)
    · exact Mem.AgreeOn.refl _ _
  refine h1.trans ?_
  rw [unlinkPrev]
  split
  · obtain ⟨q, hq, hqn⟩ := List.mem_map.mp (h.next_mem ho hp ‹_›)
    rw [← hqn]
    exact agreeOn_setPrev (h.frames o ho q hq) (hL q hq)
  · exact Mem.AgreeOn.refl _ _

@[simp] theorem mem_countUsed (s : PMM) (n : ℕ) : (s.countUsed n).mem = s.mem := by
  cases s
  rfl

@[simp] theorem mem_countFreed (s : PMM) (n : ℕ) : (s.countFreed n).mem = s.mem := by
  cases s
  rfl

theorem scalars_countUsed (s : PMM) (n : ℕ) : (s.countUsed n).scalars = s.scalars.countUsed n := by
  cases s
  rfl

theorem scalars_countFreed (s : PMM) (n : ℕ) :
    (s.countFreed n).scalars = s.scalars.countFreed n := by
  cases s
  rfl

/-! ## The lists and the bits, together -/

/-- One bit of one order, flipped. -/
def flipBit (B : ℕ → ℕ → Bool) (o i : ℕ) : ℕ → ℕ → Bool :=
  Function.update B o (Function.update (B o) i (!B o i))

theorem pair_eq_iff (hp : 2 ^ o ∣ p) (hq : 2 ^ o ∣ q) :
    q / 2 ^ (o + 1) = p / 2 ^ (o + 1) ↔ q = p ∨ q = buddy o p := by
  rw [← base_succ_eq_iff hp hq, base, base, Nat.mul_left_inj (Nat.two_pow_pos _).ne']

/-- Listing or unlisting one block of a pair flips the bit of that pair and no other. -/
theorem bits_flip (h : ∀ q, 2 ^ o ∣ q → b (q / 2 ^ (o + 1)) = (decide (q ∈ l) ^^ decide (buddy o q ∈ l)))
    (hp : 2 ^ o ∣ p) (hother : ∀ q, q ≠ p → (q ∈ l' ↔ q ∈ l)) (hflip : p ∈ l' ↔ p ∉ l)
    (hq : 2 ^ o ∣ q) :
    Function.update b (p / 2 ^ (o + 1)) (!b (p / 2 ^ (o + 1))) (q / 2 ^ (o + 1))
      = (decide (q ∈ l') ^^ decide (buddy o q ∈ l')) := by
  have hpp : decide (p ∈ l') = !decide (p ∈ l) := by simp [hflip]
  by_cases hpair : q / 2 ^ (o + 1) = p / 2 ^ (o + 1)
  · rw [hpair, Function.update_self, h p hp]
    rcases (pair_eq_iff hp hq).mp hpair with rfl | rfl
    · rw [hpp, decide_eq_decide.mpr (hother _ (buddy_ne o q))]
      cases decide (q ∈ l) <;> cases decide (buddy o q ∈ l) <;> rfl
    · rw [buddy_buddy, hpp, decide_eq_decide.mpr (hother _ (buddy_ne o p))]
      cases decide (p ∈ l) <;> cases decide (buddy o p ∈ l) <;> rfl
  · have hqp : q ≠ p := fun hc => hpair (by rw [hc])
    have hbp : buddy o q ≠ p := fun hc =>
      hpair ((pair_eq_iff hp hq).mpr (Or.inr (by rw [← hc, buddy_buddy])))
    rw [Function.update_of_ne hpair, h q hq, decide_eq_decide.mpr (hother q hqp),
      decide_eq_decide.mpr (hother _ hbp)]

/-- Only the bits below the largest order matter. -/
theorem Sync.of_below (h : Sync L B F) (hB : ∀ o < buddyMaxOrder, B' o = B o) : Sync L B' F :=
  ⟨h.maximal, fun o ho p hp => by rw [hB o ho, h.bits o ho p hp]⟩

/-- Taking a listed block out. -/
theorem Sync.erase (h : Sync L B F) (hnd : (L o).Nodup) (hb : MaxBlock buddyMaxOrder F o p) :
    Sync (Function.update L o ((L o).erase p)) (flipBit B o (p / 2 ^ (o + 1))) (F \ block o p) := by
  have hp : p ∈ L o := (h.maximal o hb.le p).mpr hb
  refine ⟨fun o' ho' q => ?_, fun o' ho' q hq => ?_⟩
  · rw [maxBlock_diff hb, ← h.maximal o' ho' q]
    by_cases hoo : o' = o
    · subst hoo
      rw [Function.update_self, hnd.mem_erase_iff]
      simp [and_comm]
    · simp [hoo]
  · by_cases hoo : o' = o
    · subst hoo
      rw [flipBit, Function.update_self, Function.update_self]
      refine bits_flip (h.bits o' ho') hb.aligned (fun r hr => ?_) ?_ hq
      · exact List.mem_erase_of_ne hr
      · simp [hnd.mem_erase_iff, hp]
    · rw [flipBit, Function.update_of_ne hoo, Function.update_of_ne hoo, h.bits o' ho' q hq]

/-- Putting a block in whose buddy is not wholly free. -/
theorem Sync.insert (h : Sync L B F) (ho : o ≤ buddyMaxOrder) (hp : 2 ^ o ∣ p)
    (hdisj : Disjoint (block o p) F) (htop : o = buddyMaxOrder ∨ ¬ block o (buddy o p) ⊆ F) :
    Sync (Function.update L o (p :: L o)) (flipBit B o (p / 2 ^ (o + 1))) (F ∪ block o p) := by
  have hnew : p ∉ L o := fun hmem => Set.disjoint_left.mp hdisj (self_mem_block o p)
    (((h.maximal o ho p).mp hmem).subset (self_mem_block o p))
  refine ⟨fun o' ho' q => ?_, fun o' ho' q hq => ?_⟩
  · rw [maxBlock_union ho hp hdisj htop, ← h.maximal o' ho' q]
    by_cases hoo : o' = o
    · subst hoo
      rw [Function.update_self, List.mem_cons]
      simp [or_comm]
    · simp [hoo]
  · by_cases hoo : o' = o
    · subst hoo
      rw [flipBit, Function.update_self, Function.update_self]
      refine bits_flip (h.bits o' ho') hp (fun r hr => ?_) ?_ hq
      · simp [hr]
      · simp [hnew]
    · rw [flipBit, Function.update_of_ne hoo, Function.update_of_ne hoo, h.bits o' ho' q hq]

/-! ## The two edits of the invariant -/

/-- The byte of a covered frame's pair is in the slice of every order. -/
theorem frame_in_slice (hp : p / 16 ≤ g.maxPfn / 16) (o : ℕ) :
    p >>> (o + 1) / 8 < bytesNeeded g.maxPfn o := by
  have hsplit : ∀ n : ℕ, n / 2 ^ (o + 4) = n / 16 / 2 ^ o := fun n => by
    rw [Nat.div_div_eq_div_mul, pow_add, Nat.mul_comm]
    norm_num
  have hbyte : p >>> (o + 1) / 8 = p / 2 ^ (o + 4) := by
    rw [Nat.shiftRight_eq_div_pow, Nat.div_div_eq_div_mul, pow_succ, pow_add, Nat.mul_assoc]
    norm_num
  rw [hbyte, bytesNeeded_eq, hsplit, hsplit]
  exact Nat.lt_succ_of_le (Nat.div_le_div_right hp)

theorem toggle_congr (h : q >>> (o + 1) = p >>> (o + 1)) :
    s.toggleBuddyBit q o = s.toggleBuddyBit p o := by
  simp only [toggleBuddyBit, h]

/-- The ghost trace is not part of what the memory represents. -/
theorem Repr.setTrace (h : Repr g s L B) (t : List Event) : Repr g { s with trace := t } L B :=
  ⟨h.linked, h.nodup, h.distinct, h.frames, h.slices, h.bits⟩

namespace BuddyInv

/-- The invariant reads the memory, the list heads, the slice addresses and the trace only. -/
theorem congr (h : BuddyInv g s F) (hmem : s'.mem = s.mem) (hheads : s'.freeLists = s.freeLists)
    (hmap : s'.buddyMap = s.buddyMap) (htrace : s'.trace = s.trace) : BuddyInv g s' F := by
  obtain ⟨L, B, hrepr, hsync⟩ := h.repr
  refine ⟨h.frames, ⟨L, B, ?_, hsync⟩, by rw [htrace]; exact h.trace⟩
  exact hrepr.congr (fun _ _ _ _ => by rw [hmem]) (fun _ _ _ _ => by rw [hmem])
    (fun _ _ => by rw [hheads]) (fun _ _ => by rw [hmap]) fun _ _ => by rw [hmem]

theorem setCounters (h : BuddyInv g s F) (used free : ℕ) :
    BuddyInv g { s with usedMemory := used, freeMemory := free } F :=
  h.congr rfl rfl rfl rfl

theorem countUsed (h : BuddyInv g s F) (n : ℕ) : BuddyInv g (s.countUsed n) F :=
  h.setCounters _ _

theorem countFreed (h : BuddyInv g s F) (n : ℕ) : BuddyInv g (s.countFreed n) F :=
  h.setCounters _ _

end BuddyInv

theorem Sync.starts (h : Sync L B F) (ho : o ≤ buddyMaxOrder) :
    ∀ q ∈ L o, q ∈ starts buddyMaxOrder F := fun q hq => ((h.maximal o ho q).mp hq).mem_starts

theorem Sync.frames_sub (h : Sync L B F) (ho : o ≤ buddyMaxOrder) : ∀ q ∈ L o, q ∈ F :=
  fun q hq => starts_subset (h.starts ho q hq)

/-- A block outside the free set is on no list. -/
theorem Sync.notMem_of_disjoint (h : Sync L B F) (hdisj : Disjoint (block o p) F) :
    ∀ o' ≤ buddyMaxOrder, p ∉ L o' := fun _ ho' hmem =>
  Set.disjoint_left.mp hdisj (self_mem_block o p) (h.frames_sub ho' p hmem)

/-- **Taking a listed block out of the free set**; only heads of listed blocks are written. -/
theorem BuddyInv.unlink (h : BuddyInv g s F) (hb : MaxBlock buddyMaxOrder F o p) :
    BuddyInv g ((s.listRemove (nodeOf p) o).toggleBuddyBit p o).2 (F \ block o p) ∧
      Evolves g (starts buddyMaxOrder F) s ((s.listRemove (nodeOf p) o).toggleBuddyBit p o).2 := by
  obtain ⟨L, B, hrepr, hsync⟩ := h.repr
  have hp : p ∈ L o := (hsync.maximal o hb.le p).mpr hb
  have hslice := frame_in_slice (h.frames p (hb.subset (self_mem_block o p))).covered o
  have hremoved := hrepr.listRemove hb.le hp
  have htoggled := (hremoved.toggle hb.le hslice).2
  rw [Nat.shiftRight_eq_div_pow] at htoggled
  refine ⟨⟨fun q hq => h.frames q hq.1, ⟨_, _, htoggled, hsync.erase (hrepr.nodup o hb.le) hb⟩,
    fun e he => ?_⟩, ?_⟩
  · rw [trace_toggle, trace_listRemove, List.mem_cons] at he
    rcases he with rfl | he
    · exact hslice
    · exact h.trace e he
  · exact (evolves_listRemove hrepr hb.le hp (hsync.starts hb.le)).trans
      (evolves_toggle hremoved hb.le hslice)

/-- **Putting a block into the free set** whose buddy is not wholly free; `r` is either block of
the pair. -/
theorem BuddyInv.link (h : BuddyInv g s F) (ho : o ≤ buddyMaxOrder) (hp : 2 ^ o ∣ p)
    (hframes : ∀ q ∈ block o p, g.Frame q) (hdisj : Disjoint (block o p) F)
    (htop : o = buddyMaxOrder ∨ ¬ block o (buddy o p) ⊆ F) (hr : r / 2 ^ (o + 1) = p / 2 ^ (o + 1)) :
    BuddyInv g ((s.listAdd (nodeOf p) o).toggleBuddyBit r o).2 (F ∪ block o p) ∧
      Evolves g (F ∪ block o p) s ((s.listAdd (nodeOf p) o).toggleBuddyBit r o).2 := by
  obtain ⟨L, B, hrepr, hsync⟩ := h.repr
  have hp' := hframes p (self_mem_block o p)
  have hslice := frame_in_slice hp'.covered o
  have hnew := hsync.notMem_of_disjoint hdisj
  have hadded := hrepr.listAdd ho hp' hnew
  have htoggled := (hadded.toggle ho hslice).2
  rw [Nat.shiftRight_eq_div_pow] at htoggled
  rw [toggle_congr (p := p) (by rwa [Nat.shiftRight_eq_div_pow, Nat.shiftRight_eq_div_pow])]
  refine ⟨⟨fun q hq => hq.elim (h.frames q) (hframes q),
    ⟨_, _, htoggled, hsync.insert ho hp hdisj htop⟩, fun e he => ?_⟩, ?_⟩
  · rw [trace_toggle, trace_listAdd, List.mem_cons] at he
    rcases he with rfl | he
    · exact hslice
    · exact h.trace e he
  · exact (evolves_listAdd hrepr ho hp' (Or.inr (self_mem_block o p)) fun q hq =>
      Or.inl (hsync.frames_sub ho q hq)).trans (evolves_toggle hadded ho hslice)

end PMM

end MioOS
