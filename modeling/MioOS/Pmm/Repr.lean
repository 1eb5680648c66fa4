import MioOS.Pmm.Defs

/-!
# Pmm/Repr — what the allocator's memory represents

The free lists and the bitmaps live in one memory.  `Repr g s L B` says what they represent there:
list `o` holds the frames `L o`, and bit `i` of the bitmap of order `o` is `B o i`.  The three
primitives that touch them act on `L` and `B` alone:

* `Repr.listAdd` puts a frame at the front of one list;
* `Repr.listRemove` erases a member of one list;
* `Repr.toggle` flips one bit and returns its new value.

Everything else in the buddy allocator is proved through these.
-/

namespace MioOS

open ByteMemory Intrusive

/-- Where the bitmaps are and how far they reach. -/
structure Geometry where
  /-- `max_pfn`. -/
  maxPfn : ℕ
  /-- `bitmap_memory`. -/
  bitmapBase : ℕ
  /-- The HHDM maps the lowest `2 ^ 47` bytes. -/
  maxPfn_lt : maxPfn < 2 ^ 35

namespace Geometry

/-- The bytes of the bitmap slices. -/
def bitmap (g : Geometry) : Set ℕ :=
  Set.Ico g.bitmapBase (g.bitmapBase + PMM.totalBitmapBytes g.maxPfn)

/-- A frame the allocator may put on a list: not frame 0, covered by the bitmaps, and not one of
the pages that hold them. -/
structure Frame (g : Geometry) (pfn : ℕ) : Prop where
  pos : 0 < pfn
  covered : pfn / 16 ≤ g.maxPfn / 16
  off_bitmap : hhdmBase + (pfn + 1) * 4096 ≤ g.bitmapBase ∨
    g.bitmapBase + PMM.totalBitmapBytes g.maxPfn ≤ hhdmBase + pfn * 4096

/-- A pointer to the node of such a frame. -/
def Node (g : Geometry) (x : ℕ) : Prop := ∃ p, g.Frame p ∧ PMM.nodeOf p = x

end Geometry

namespace PMM

variable {g : Geometry} {s : PMM} {m : Mem} {L : ℕ → List ℕ} {B : ℕ → ℕ → Bool}
  {a b v x o o' p q i j : ℕ}

/-! ## Frames and their nodes -/

theorem nodeOf_eq (hp : p < 2 ^ 35) : nodeOf p = hhdmBase + p * 4096 := by
  rw [nodeOf, Nat.shiftLeft_eq, u64_of_lt] <;> simp only [pageShift, hhdmBase] <;> omega

theorem pfnOf_nodeOf (hp : p < 2 ^ 35) : pfnOf (nodeOf p) = p := by
  have h : sub64 (hhdmBase + p * 4096) hhdmBase = p * 4096 := by
    rw [sub64_eq]
    omega
  rw [pfnOf, nodeOf_eq hp, h, Nat.shiftRight_eq_div_pow, pageShift]
  omega

/-- The frames of a 64-bit address space have different nodes. -/
theorem nodeOf_inj (hp : p < 2 ^ 52) (hq : q < 2 ^ 52) (h : nodeOf p = nodeOf q) : p = q := by
  rw [nodeOf, nodeOf, Nat.shiftLeft_eq, Nat.shiftLeft_eq, u64_eq, u64_eq, pageShift] at h
  omega

theorem nodeOf_lt (p : ℕ) : nodeOf p < 2 ^ 64 := u64_lt _

theorem nodeOf_ne_zero (hp : p < 2 ^ 35) : nodeOf p ≠ 0 := by
  rw [nodeOf_eq hp, hhdmBase]
  omega

theorem next_lt (m : Mem) (x : ℕ) : next m x < 2 ^ 64 := m.load_lt 8 x

theorem prev_lt (m : Mem) (x : ℕ) : prev m x < 2 ^ 64 := m.load_lt 8 (x + 8)

end PMM

namespace Geometry

variable {g : Geometry} {m : Mem} {a b v x p q : ℕ}

theorem Frame.lt (h : g.Frame p) : p < 2 ^ 35 := by
  have hmax := g.maxPfn_lt
  have hcov := h.covered
  omega

theorem Frame.node (h : g.Frame p) : g.Node (PMM.nodeOf p) := ⟨p, h, rfl⟩

theorem Frame.nodeOf_inj (hp : g.Frame p) (hq : g.Frame q) (h : PMM.nodeOf p = PMM.nodeOf q) :
    p = q := by
  rw [← PMM.pfnOf_nodeOf hp.lt, h, PMM.pfnOf_nodeOf hq.lt]

theorem Node.ne_zero (h : g.Node x) : x ≠ 0 := by
  obtain ⟨p, hp, rfl⟩ := h
  exact PMM.nodeOf_ne_zero hp.lt

theorem Node.lt (h : g.Node x) : x < 2 ^ 64 := by
  obtain ⟨p, -, rfl⟩ := h
  exact PMM.nodeOf_lt p

/-- Different nodes are in different pages. -/
theorem Node.apart (ha : g.Node a) (hb : g.Node b) (hne : a ≠ b) :
    a + 4096 ≤ b ∨ b + 4096 ≤ a := by
  obtain ⟨p, hp, rfl⟩ := ha
  obtain ⟨q, hq, rfl⟩ := hb
  rw [PMM.nodeOf_eq hp.lt, PMM.nodeOf_eq hq.lt] at hne ⊢
  omega

/-- A node's page holds no bitmap byte. -/
theorem Node.off_bitmap (ha : g.Node a) (hx : x ∈ g.bitmap) : x < a ∨ a + 4096 ≤ x := by
  obtain ⟨p, hp, rfl⟩ := ha
  rw [bitmap, Set.mem_Ico] at hx
  rw [PMM.nodeOf_eq hp.lt]
  have := hp.off_bitmap
  omega

end Geometry

namespace PMM

/-! ## Reading a node after a write -/

section Fields

variable {g : Geometry} {m : Mem} {a b v x : ℕ}

theorem next_setNext (ha : g.Node a) (hb : g.Node b) (hv : v < 2 ^ 64) :
    next (setNext m a v) b = if b = a then v else next m b := by
  by_cases hba : b = a
  · rw [if_pos hba, hba]
    exact Mem.load_store_of_lt (by simpa using hv)
  · rw [if_neg hba]
    have := ha.apart hb (Ne.symm hba)
    exact Mem.load_store_of_disjoint (by omega)

theorem prev_setPrev (ha : g.Node a) (hb : g.Node b) (hv : v < 2 ^ 64) :
    prev (setPrev m a v) b = if b = a then v else prev m b := by
  by_cases hba : b = a
  · rw [if_pos hba, hba]
    exact Mem.load_store_of_lt (by simpa using hv)
  · rw [if_neg hba]
    have := ha.apart hb (Ne.symm hba)
    exact Mem.load_store_of_disjoint (by omega)

theorem prev_setNext (ha : g.Node a) (hb : g.Node b) : prev (setNext m a v) b = prev m b := by
  refine Mem.load_store_of_disjoint ?_
  by_cases hba : b = a
  · omega
  · have := ha.apart hb (Ne.symm hba)
    omega

theorem next_setPrev (ha : g.Node a) (hb : g.Node b) : next (setPrev m a v) b = next m b := by
  refine Mem.load_store_of_disjoint ?_
  by_cases hba : b = a
  · omega
  · have := ha.apart hb (Ne.symm hba)
    omega

theorem setNext_apply (ha : g.Node a) (hx : x ∈ g.bitmap) : setNext m a v x = m x := by
  rcases ha.off_bitmap hx with h | h
  · exact Mem.store_apply_of_lt h
  · exact Mem.store_apply_of_ge (by omega)

theorem setPrev_apply (ha : g.Node a) (hx : x ∈ g.bitmap) : setPrev m a v x = m x := by
  rcases ha.off_bitmap hx with h | h
  · exact Mem.store_apply_of_lt (by omega)
  · exact Mem.store_apply_of_ge (by omega)

end Fields

/-! ## The bitmap slices -/

section Slices

variable {g : Geometry} {n o o' i j : ℕ}

theorem bytesNeeded_eq (n o : ℕ) : bytesNeeded n o = n / 2 ^ (o + 4) + 1 := by
  have hb : ((n >>> (o + 1)) + 1 + 7) / 8 = n / 2 ^ (o + 4) + 1 := by
    rw [Nat.shiftRight_eq_div_pow, show (2 : ℕ) ^ (o + 4) = 2 ^ (o + 1) * 8 by ring,
      ← Nat.div_div_eq_div_mul]
    omega
  change (if ((n >>> (o + 1)) + 1 + 7) / 8 = 0 then 1 else ((n >>> (o + 1)) + 1 + 7) / 8) = _
  rw [hb]
  exact if_neg (Nat.succ_ne_zero _)

theorem bitmapOffset_mono (n : ℕ) (h : o < o') :
    bitmapOffset n o + bytesNeeded n o ≤ bitmapOffset n o' := by
  induction o', h using Nat.le_induction with
  | base => exact le_rfl
  | succ o' _ ih => exact ih.trans (Nat.le_add_right _ _)

/-- A byte of a slice is a byte of the bitmaps. -/
theorem slice_mem_bitmap (ho : o ≤ buddyMaxOrder) (hi : i < bytesNeeded g.maxPfn o) :
    g.bitmapBase + bitmapOffset g.maxPfn o + i ∈ g.bitmap := by
  have h := bitmapOffset_mono g.maxPfn (show o < buddyMaxOrder + 1 by omega)
  rw [Geometry.bitmap, Set.mem_Ico, totalBitmapBytes]
  omega

/-- The slices do not overlap. -/
theorem slice_inj (hi : i < bytesNeeded n o) (hj : j < bytesNeeded n o')
    (h : bitmapOffset n o + i = bitmapOffset n o' + j) : o = o' ∧ i = j := by
  rcases lt_trichotomy o o' with hlt | rfl | hlt
  · have := bitmapOffset_mono n hlt
    omega
  · omega
  · have := bitmapOffset_mono n hlt
    omega

end Slices

/-- Bit `i` of the bitmap of an order. -/
def bitAt (s : PMM) (order i : ℕ) : Bool :=
  (s.mem (s.buddyMap order + i / 8)).toNat.testBit (i % 8)

/-- **What the memory represents**: list `o` holds the frames `L o`, and bit `i` of the bitmap of
order `o` is `B o i`. -/
structure Repr (g : Geometry) (s : PMM) (L : ℕ → List ℕ) (B : ℕ → ℕ → Bool) : Prop where
  linked : ∀ o ≤ buddyMaxOrder,
    Linked 0 (next s.mem) (prev s.mem) 0 (s.freeLists o) ((L o).map nodeOf)
  nodup : ∀ o ≤ buddyMaxOrder, (L o).Nodup
  distinct : ∀ o ≤ buddyMaxOrder, ∀ o' ≤ buddyMaxOrder, ∀ p ∈ L o, p ∈ L o' → o = o'
  frames : ∀ o ≤ buddyMaxOrder, ∀ p ∈ L o, g.Frame p
  slices : ∀ o ≤ buddyMaxOrder, s.buddyMap o = g.bitmapBase + bitmapOffset g.maxPfn o
  bits : ∀ o ≤ buddyMaxOrder, ∀ i, i / 8 < bytesNeeded g.maxPfn o → s.bitAt o i = B o i

/-! ## Reading a node after `list_add` and `list_remove` -/

section Edits

variable {g : Geometry} {s : PMM} {m : Mem} {x o : ℕ}

/-- What `list_add` writes, read at a node. -/
theorem next_listAdd {b : ℕ} (hb : g.Node b) (hhead : s.freeLists o ≠ 0 → g.Node (s.freeLists o))
    (hx : g.Node x) :
    next (s.listAdd b o).mem x = if x = b then s.freeLists o else next s.mem x := by
  have hlt : s.freeLists o < 2 ^ 64 := by
    by_cases hne : s.freeLists o = 0
    · simp [hne]
    · exact (hhead hne).lt
  have h1 : next (setNext (setPrev s.mem b 0) b (s.freeLists o)) x
      = if x = b then s.freeLists o else next s.mem x := by
    rw [next_setNext hb hx hlt, next_setPrev hb hx]
  simp only [PMM.listAdd]
  split
  · rw [next_setPrev (hhead ‹_›) hx, h1]
  · exact h1

theorem prev_listAdd {b : ℕ} (hb : g.Node b) (hhead : s.freeLists o ≠ 0 → g.Node (s.freeLists o))
    (hx : g.Node x) :
    prev (s.listAdd b o).mem x = if s.freeLists o ≠ 0 ∧ x = s.freeLists o then b
      else if x = b then 0 else prev s.mem x := by
  have h1 : prev (setNext (setPrev s.mem b 0) b (s.freeLists o)) x
      = if x = b then 0 else prev s.mem x := by
    rw [prev_setNext hb hx, prev_setPrev hb hx (by norm_num)]
  simp only [PMM.listAdd]
  split
  · rename_i hne
    rw [prev_setPrev (hhead hne) hx hb.lt, h1]
    simp [hne]
  · rename_i hne
    simp [hne, h1]

/-- The first store of `list_remove`, with the node's two fields given. -/
def unlinkNext (m : Mem) (pr nx : ℕ) : Mem := if pr ≠ 0 then setNext m pr nx else m

/-- The second store of `list_remove`. -/
def unlinkPrev (m : Mem) (pr nx : ℕ) : Mem := if nx ≠ 0 then setPrev m nx pr else m

theorem next_unlinkNext {pr nx : ℕ} (hpr : pr ≠ 0 → g.Node pr) (hnx : nx < 2 ^ 64)
    (hx : g.Node x) : next (unlinkNext m pr nx) x = if x = pr then nx else next m x := by
  rw [unlinkNext]
  split
  · exact next_setNext (hpr ‹_›) hx hnx
  · rename_i h0
    have hxp : x ≠ pr := fun hxp => h0 (hxp ▸ hx.ne_zero)
    rw [if_neg hxp]

theorem prev_unlinkNext {pr nx : ℕ} (hpr : pr ≠ 0 → g.Node pr) (hx : g.Node x) :
    prev (unlinkNext m pr nx) x = prev m x := by
  rw [unlinkNext]
  split
  · exact prev_setNext (hpr ‹_›) hx
  · rfl

theorem prev_unlinkPrev {pr nx : ℕ} (hnx : nx ≠ 0 → g.Node nx) (hpr : pr < 2 ^ 64)
    (hx : g.Node x) : prev (unlinkPrev m pr nx) x = if x = nx then pr else prev m x := by
  rw [unlinkPrev]
  split
  · exact prev_setPrev (hnx ‹_›) hx hpr
  · rename_i h0
    have hxn : x ≠ nx := fun hxn => h0 (hxn ▸ hx.ne_zero)
    rw [if_neg hxn]

theorem next_unlinkPrev {pr nx : ℕ} (hnx : nx ≠ 0 → g.Node nx) (hx : g.Node x) :
    next (unlinkPrev m pr nx) x = next m x := by
  rw [unlinkPrev]
  split
  · exact next_setPrev (hnx ‹_›) hx
  · rfl

theorem unlinkNext_apply {pr nx : ℕ} (hpr : pr ≠ 0 → g.Node pr) (hx : x ∈ g.bitmap) :
    unlinkNext m pr nx x = m x := by
  rw [unlinkNext]
  split
  · exact setNext_apply (hpr ‹_›) hx
  · rfl

theorem unlinkPrev_apply {pr nx : ℕ} (hnx : nx ≠ 0 → g.Node nx) (hx : x ∈ g.bitmap) :
    unlinkPrev m pr nx x = m x := by
  rw [unlinkPrev]
  split
  · exact setPrev_apply (hnx ‹_›) hx
  · rfl

/-- **The two stores of `list_remove`**: the second reads what the first left alone. -/
theorem mem_listRemove {b : ℕ} (hb : g.Node b) (hprev : prev s.mem b ≠ 0 → g.Node (prev s.mem b))
    (hne : prev s.mem b ≠ b) : (s.listRemove b o).mem
      = unlinkPrev (unlinkNext s.mem (prev s.mem b) (next s.mem b)) (prev s.mem b)
        (next s.mem b) := by
  have hnext : next (unlinkNext s.mem (prev s.mem b) (next s.mem b)) b = next s.mem b := by
    rw [next_unlinkNext hprev (next_lt _ _) hb, if_neg (Ne.symm hne)]
  have hprev' : prev (unlinkNext s.mem (prev s.mem b) (next s.mem b)) b = prev s.mem b :=
    prev_unlinkNext hprev hb
  by_cases h0 : prev s.mem b = 0
  · have hm : unlinkNext s.mem (prev s.mem b) (next s.mem b) = s.mem := if_neg (by simpa using h0)
    rw [hm, unlinkPrev]
    by_cases h1 : next s.mem b = 0 <;> simp [PMM.listRemove, h0, h1]
  · have hm : unlinkNext s.mem (prev s.mem b) (next s.mem b)
        = setNext s.mem (prev s.mem b) (next s.mem b) := if_pos h0
    rw [hm] at hnext hprev' ⊢
    rw [unlinkPrev]
    by_cases h1 : next s.mem b = 0
    · rw [h1] at hnext
      simp [PMM.listRemove, h0, h1, hnext]
    · simp [PMM.listRemove, h0, h1, hnext, hprev']

theorem freeLists_listRemove (s : PMM) (b o : ℕ) : (s.listRemove b o).freeLists
    = if prev s.mem b = 0 then Function.update s.freeLists o (next s.mem b) else s.freeLists := by
  simp only [PMM.listRemove]
  by_cases h0 : prev s.mem b = 0 <;> simp only [h0, ne_eq, not_true, not_false_eq_true, if_true,
    if_false] <;> split <;> rfl

theorem buddyMap_listRemove (s : PMM) (b o : ℕ) : (s.listRemove b o).buddyMap = s.buddyMap := by
  simp only [PMM.listRemove]
  split <;> split <;> rfl

theorem trace_listRemove (s : PMM) (b o : ℕ) : (s.listRemove b o).trace = s.trace := by
  simp only [PMM.listRemove]
  split <;> split <;> rfl

end Edits

/-- Erasing commutes with a map that is injective where it matters. -/
theorem map_erase_of_injOn {f : ℕ → ℕ} {p : ℕ} : ∀ {l : List ℕ}, (∀ q ∈ l, f q = f p → q = p) →
    (l.erase p).map f = (l.map f).erase (f p)
  | [], _ => rfl
  | q :: l, h => by
      by_cases hq : q = p
      · simp [hq]
      · have hf : f q ≠ f p := fun hf => hq (h q List.mem_cons_self hf)
        rw [List.erase_cons_tail (by simpa using hq), List.map_cons, List.map_cons,
          List.erase_cons_tail (by simpa using hf),
          map_erase_of_injOn fun r hr => h r (List.mem_cons_of_mem _ hr)]

namespace Repr

variable {g : Geometry} {s s' : PMM} {m : Mem} {L : ℕ → List ℕ} {B : ℕ → ℕ → Bool}
  {x o p q i : ℕ}

theorem node_of_mem (h : Repr g s L B) (ho : o ≤ buddyMaxOrder) (hx : x ∈ (L o).map nodeOf) :
    g.Node x := by
  obtain ⟨p, hp, rfl⟩ := List.mem_map.mp hx
  exact (h.frames o ho p hp).node

theorem nodup_nodes (h : Repr g s L B) (ho : o ≤ buddyMaxOrder) : ((L o).map nodeOf).Nodup :=
  (h.nodup o ho).map_on fun p hp q hq => (h.frames o ho p hp).nodeOf_inj (h.frames o ho q hq)

theorem nodeOf_mem_iff (h : Repr g s L B) (ho : o ≤ buddyMaxOrder) (hp : g.Frame p) :
    nodeOf p ∈ (L o).map nodeOf ↔ p ∈ L o := by
  refine ⟨fun hmem => ?_, fun hmem => List.mem_map_of_mem hmem⟩
  obtain ⟨q, hq, hqp⟩ := List.mem_map.mp hmem
  exact (h.frames o ho q hq).nodeOf_inj hp hqp ▸ hq

/-- **The nodes a traversal of a list meets** are those of the frames it holds. -/
theorem onFreeList_iff (h : Repr g s L B) (ho : o ≤ buddyMaxOrder) :
    s.OnFreeList o x ↔ ∃ p ∈ L o, nodeOf p = x := by
  rw [OnFreeList, (h.linked o ho).chain.visits_iff, List.mem_map]

/-- A list that is not the one a node is on does not contain the node. -/
theorem nodeOf_notMem (h : Repr g s L B) {o' : ℕ} (ho : o ≤ buddyMaxOrder)
    (ho' : o' ≤ buddyMaxOrder) (hne : o' ≠ o) (hx : x ∈ (L o).map nodeOf) :
    x ∉ (L o').map nodeOf := fun hx' => by
  obtain ⟨p, hp, rfl⟩ := List.mem_map.mp hx
  exact hne (h.distinct o' ho' o ho p
    ((h.nodeOf_mem_iff ho' (h.frames o ho p hp)).mp hx') hp)

/-- A representation reads only the nodes, the heads, the slice addresses and the bitmap bytes. -/
theorem congr (h : Repr g s L B)
    (hnext : ∀ o ≤ buddyMaxOrder, ∀ x ∈ (L o).map nodeOf, next s'.mem x = next s.mem x)
    (hprev : ∀ o ≤ buddyMaxOrder, ∀ x ∈ (L o).map nodeOf, prev s'.mem x = prev s.mem x)
    (hheads : ∀ o ≤ buddyMaxOrder, s'.freeLists o = s.freeLists o)
    (hmap : ∀ o ≤ buddyMaxOrder, s'.buddyMap o = s.buddyMap o)
    (hbits : ∀ x ∈ g.bitmap, s'.mem x = s.mem x) : Repr g s' L B where
  linked o ho := by
    rw [hheads o ho]
    exact (h.linked o ho).congr (hnext o ho) (hprev o ho)
  nodup := h.nodup
  distinct := h.distinct
  frames := h.frames
  slices o ho := (hmap o ho).trans (h.slices o ho)
  bits o ho i hi := by
    rw [← h.bits o ho i hi, bitAt, bitAt, hmap o ho, h.slices o ho,
      hbits _ (slice_mem_bitmap ho hi)]

/-- **`list_add` puts a frame at the front of a list.** -/
theorem listAdd (h : Repr g s L B) (ho : o ≤ buddyMaxOrder) (hp : g.Frame p)
    (hnew : ∀ o' ≤ buddyMaxOrder, p ∉ L o') :
    Repr g (s.listAdd (nodeOf p) o) (Function.update L o (p :: L o)) B := by
  have hnode := hp.node
  have hhead := (h.linked o ho).head_mem
  have hhead_node : s.freeLists o ≠ 0 → g.Node (s.freeLists o) := fun hne =>
    h.node_of_mem ho (hhead.resolve_left hne)
  have hfresh : ∀ o' ≤ buddyMaxOrder, nodeOf p ∉ (L o').map nodeOf := fun o' ho' hmem =>
    hnew o' ho' ((h.nodeOf_mem_iff ho' hp).mp hmem)
  have hbitmap : ∀ x ∈ g.bitmap, (s.listAdd (nodeOf p) o).mem x = s.mem x := fun x hx => by
    simp only [PMM.listAdd]
    split
    · rw [setPrev_apply (hhead_node ‹_›) hx, setNext_apply hnode hx, setPrev_apply hnode hx]
    · rw [setNext_apply hnode hx, setPrev_apply hnode hx]
  refine ⟨fun o' ho' => ?_, fun o' ho' => ?_, fun o₁ ho₁ o₂ ho₂ q hq hq' => ?_,
    fun o' ho' q hq => ?_, h.slices, fun o' ho' i hi => ?_⟩
  · by_cases hoo : o' = o
    · subst hoo
      rw [Function.update_self, List.map_cons, show (s.listAdd (nodeOf p) o').freeLists o'
        = nodeOf p from Function.update_self ..]
      refine (h.linked o' ho).push (h.nodup_nodes ho) hnode.ne_zero ?_ ?_ (fun hne => ?_)
        (fun x hx => ?_) fun x hx hxh => ?_
      · rw [next_listAdd hnode hhead_node hnode, if_pos rfl]
      · have hne_head : ¬ (s.freeLists o' ≠ 0 ∧ nodeOf p = s.freeLists o') := fun hc =>
          hfresh o' ho (hc.2 ▸ hhead.resolve_left hc.1)
        rw [prev_listAdd hnode hhead_node hnode, if_neg hne_head, if_pos rfl]
      · rw [prev_listAdd hnode hhead_node (hhead_node hne), if_pos ⟨hne, rfl⟩]
      · rw [next_listAdd hnode hhead_node (h.node_of_mem ho hx),
          if_neg (ne_of_mem_of_not_mem hx (hfresh o' ho))]
      · rw [prev_listAdd hnode hhead_node (h.node_of_mem ho hx), if_neg (not_and_of_not_right _ hxh),
          if_neg (ne_of_mem_of_not_mem hx (hfresh o' ho))]
    · rw [Function.update_of_ne hoo, show (s.listAdd (nodeOf p) o).freeLists o'
        = s.freeLists o' from Function.update_of_ne hoo ..]
      refine (h.linked o' ho').congr (fun x hx => ?_) fun x hx => ?_
      · rw [next_listAdd hnode hhead_node (h.node_of_mem ho' hx),
          if_neg (ne_of_mem_of_not_mem hx (hfresh o' ho'))]
      · have hne_head : ¬ (s.freeLists o ≠ 0 ∧ x = s.freeLists o) := fun hc =>
          h.nodeOf_notMem ho ho' hoo (hhead.resolve_left hc.1) (hc.2 ▸ hx)
        rw [prev_listAdd hnode hhead_node (h.node_of_mem ho' hx), if_neg hne_head,
          if_neg (ne_of_mem_of_not_mem hx (hfresh o' ho'))]
  · by_cases hoo : o' = o
    · subst hoo
      rw [Function.update_self]
      exact List.nodup_cons.mpr ⟨hnew o' ho, h.nodup o' ho⟩
    · rw [Function.update_of_ne hoo]
      exact h.nodup o' ho'
  · have hcases : ∀ o' ≤ buddyMaxOrder, q ∈ Function.update L o (p :: L o) o' →
        q ∈ L o' ∨ o' = o ∧ q = p := fun o' ho' hmem => by
      by_cases hoo : o' = o
      · subst hoo
        rw [Function.update_self, List.mem_cons] at hmem
        exact hmem.elim (fun h => Or.inr ⟨rfl, h⟩) Or.inl
      · rw [Function.update_of_ne hoo] at hmem
        exact Or.inl hmem
    rcases hcases o₁ ho₁ hq with h1 | ⟨h1, h1'⟩ <;> rcases hcases o₂ ho₂ hq' with h2 | ⟨h2, h2'⟩
    · exact h.distinct o₁ ho₁ o₂ ho₂ q h1 h2
    · exact absurd (h2' ▸ h1) (hnew o₁ ho₁)
    · exact absurd (h1' ▸ h2) (hnew o₂ ho₂)
    · rw [h1, h2]
  · by_cases hoo : o' = o
    · subst hoo
      rw [Function.update_self, List.mem_cons] at hq
      rcases hq with rfl | hq
      · exact hp
      · exact h.frames o' ho q hq
    · rw [Function.update_of_ne hoo] at hq
      exact h.frames o' ho' q hq
  · rw [← h.bits o' ho' i hi, bitAt, bitAt, show (s.listAdd (nodeOf p) o).buddyMap = s.buddyMap
      from rfl, h.slices o' ho', hbitmap _ (slice_mem_bitmap ho' hi)]

/-- The node before a listed one is listed too, if there is one. -/
theorem prev_mem (h : Repr g s L B) (ho : o ≤ buddyMaxOrder) (hp : p ∈ L o)
    (hne : prev s.mem (nodeOf p) ≠ 0) : prev s.mem (nodeOf p) ∈ (L o).map nodeOf :=
  ((h.linked o ho).prev_mem _ (List.mem_map_of_mem hp)).resolve_left hne

/-- The node after a listed one is listed too, if there is one. -/
theorem next_mem (h : Repr g s L B) (ho : o ≤ buddyMaxOrder) (hp : p ∈ L o)
    (hne : next s.mem (nodeOf p) ≠ 0) : next s.mem (nodeOf p) ∈ (L o).map nodeOf :=
  ((h.linked o ho).next_mem _ (List.mem_map_of_mem hp)).resolve_left hne

/-- What `list_remove` stores when its argument is a member of the list. -/
theorem mem_listRemove (h : Repr g s L B) (ho : o ≤ buddyMaxOrder) (hp : p ∈ L o) :
    (s.listRemove (nodeOf p) o).mem
      = unlinkPrev (unlinkNext s.mem (prev s.mem (nodeOf p)) (next s.mem (nodeOf p)))
        (prev s.mem (nodeOf p)) (next s.mem (nodeOf p)) := by
  have hl := h.linked o ho
  refine PMM.mem_listRemove (h.frames o ho p hp).node
    (fun hne => h.node_of_mem ho (h.prev_mem ho hp hne)) ?_
  exact hl.prev_ne (h.nodup_nodes ho) (fun h0 => hl.chain.ne_null _ h0 rfl) _
    (List.mem_map_of_mem hp)

/-- **`list_remove` erases a member of a list.** -/
theorem listRemove (h : Repr g s L B) (ho : o ≤ buddyMaxOrder) (hp : p ∈ L o) :
    Repr g (s.listRemove (nodeOf p) o) (Function.update L o ((L o).erase p)) B := by
  have hmem : nodeOf p ∈ (L o).map nodeOf := List.mem_map_of_mem hp
  have hl := h.linked o ho
  have hprev_node : prev s.mem (nodeOf p) ≠ 0 → g.Node (prev s.mem (nodeOf p)) := fun hne =>
    h.node_of_mem ho (h.prev_mem ho hp hne)
  have hnext_node : next s.mem (nodeOf p) ≠ 0 → g.Node (next s.mem (nodeOf p)) := fun hne =>
    h.node_of_mem ho (h.next_mem ho hp hne)
  have hmem' := h.mem_listRemove ho hp
  have hnx : ∀ x, g.Node x → next (s.listRemove (nodeOf p) o).mem x
      = if x = prev s.mem (nodeOf p) then next s.mem (nodeOf p) else next s.mem x := fun x hx => by
    rw [hmem', next_unlinkPrev hnext_node hx, next_unlinkNext hprev_node (next_lt _ _) hx]
  have hpv : ∀ x, g.Node x → prev (s.listRemove (nodeOf p) o).mem x
      = if x = next s.mem (nodeOf p) then prev s.mem (nodeOf p) else prev s.mem x := fun x hx => by
    rw [hmem', prev_unlinkPrev hnext_node (prev_lt _ _) hx, prev_unlinkNext hprev_node hx]
  have herase : ∀ {o'}, o' ≤ buddyMaxOrder → ∀ q ∈ Function.update L o ((L o).erase p) o',
      q ∈ L o' := fun {o'} _ q hq => by
    by_cases hoo : o' = o
    · subst hoo
      rw [Function.update_self] at hq
      exact List.mem_of_mem_erase hq
    · rwa [Function.update_of_ne hoo] at hq
  have hbitmap : ∀ x ∈ g.bitmap, (s.listRemove (nodeOf p) o).mem x = s.mem x := fun x hx => by
    rw [hmem', unlinkPrev_apply hnext_node hx, unlinkNext_apply hprev_node hx]
  refine ⟨fun o' ho' => ?_, fun o' ho' => ?_, fun o₁ ho₁ o₂ ho₂ q hq hq' =>
      h.distinct o₁ ho₁ o₂ ho₂ q (herase ho₁ q hq) (herase ho₂ q hq'),
    fun o' ho' q hq => h.frames o' ho' q (herase ho' q hq), fun o' ho' => ?_, fun o' ho' i hi => ?_⟩
  · by_cases hoo : o' = o
    · subst hoo
      have hhead : (s.listRemove (nodeOf p) o').freeLists o'
          = if prev s.mem (nodeOf p) = 0 then next s.mem (nodeOf p) else s.freeLists o' := by
        rw [freeLists_listRemove]
        split
        · exact Function.update_self ..
        · rfl
      rw [Function.update_self, map_erase_of_injOn fun q hq =>
        (h.frames o' ho q hq).nodeOf_inj (h.frames o' ho p hp), hhead]
      exact hl.remove (h.nodup_nodes ho) hmem (fun x hx _ => hnx x (h.node_of_mem ho hx))
        fun x hx _ => hpv x (h.node_of_mem ho hx)
    · have hhead : (s.listRemove (nodeOf p) o).freeLists o' = s.freeLists o' := by
        rw [freeLists_listRemove]
        split
        · exact Function.update_of_ne hoo ..
        · rfl
      rw [Function.update_of_ne hoo, hhead]
      refine (h.linked o' ho').congr (fun x hx => ?_) fun x hx => ?_
      · have hx' := h.node_of_mem ho' hx
        have hxp : x ≠ prev s.mem (nodeOf p) := fun hxp =>
          h.nodeOf_notMem ho ho' hoo (h.prev_mem ho hp (hxp ▸ hx'.ne_zero)) (hxp ▸ hx)
        rw [hnx x hx', if_neg hxp]
      · have hx' := h.node_of_mem ho' hx
        have hxn : x ≠ next s.mem (nodeOf p) := fun hxn =>
          h.nodeOf_notMem ho ho' hoo (h.next_mem ho hp (hxn ▸ hx'.ne_zero)) (hxn ▸ hx)
        rw [hpv x hx', if_neg hxn]
  · by_cases hoo : o' = o
    · subst hoo
      rw [Function.update_self]
      exact (h.nodup o' ho).erase p
    · rw [Function.update_of_ne hoo]
      exact h.nodup o' ho'
  · rw [buddyMap_listRemove, h.slices o' ho']
  · rw [← h.bits o' ho' i hi, bitAt, bitAt, buddyMap_listRemove, h.slices o' ho',
      hbitmap _ (slice_mem_bitmap ho' hi)]

end Repr

/-! ## Toggling a bit -/

section Toggle

variable {g : Geometry} {s : PMM} {L : ℕ → List ℕ} {B : ℕ → ℕ → Bool} {o p i j x : ℕ}

theorem and_shift_bne_zero (x b : ℕ) : (x &&& (1 <<< b) != 0) = x.testBit b := by
  rw [Nat.shiftLeft_eq, Nat.one_mul, Nat.and_two_pow]
  cases x.testBit b <;> simp

/-- The byte a toggle leaves behind. -/
theorem toggleBuddyBit_byte (s : PMM) (p o : ℕ) :
    ((s.toggleBuddyBit p o).2.mem (s.buddyMap o + p >>> (o + 1) / 8)).toNat
      = (s.mem (s.buddyMap o + p >>> (o + 1) / 8)).toNat ^^^ 2 ^ (p >>> (o + 1) % 8) := by
  have hlt : (s.mem (s.buddyMap o + p >>> (o + 1) / 8)).toNat ^^^ 2 ^ (p >>> (o + 1) % 8) < 2 ^ 8 :=
    Nat.xor_lt_two_pow (UInt8.toNat_lt _)
      (Nat.pow_lt_pow_right (by omega) (Nat.mod_lt _ (by omega)))
  rw [← Mem.load_one, toggleBuddyBit, Mem.load_store_same, Mem.load_one, Nat.shiftLeft_eq,
    Nat.one_mul, Nat.mod_eq_of_lt (by simpa using hlt)]

theorem toggleBuddyBit_mem_of_ne (h : x ≠ s.buddyMap o + p >>> (o + 1) / 8) :
    (s.toggleBuddyBit p o).2.mem x = s.mem x := by
  rcases Nat.lt_or_gt_of_ne h with h | h
  · exact Mem.store_apply_of_lt h
  · exact Mem.store_apply_of_ge h

theorem toggleBuddyBit_fst (s : PMM) (p o : ℕ) :
    (s.toggleBuddyBit p o).1 = !s.bitAt o (p >>> (o + 1)) := by
  have hbyte := toggleBuddyBit_byte s p o
  rw [← Mem.load_one] at hbyte
  change ((s.toggleBuddyBit p o).2.mem.load 1 _ &&& (1 <<< (p >>> (o + 1) % 8)) != 0) = _
  rw [hbyte, and_shift_bne_zero, Nat.testBit_xor, Nat.testBit_two_pow_self, Bool.xor_true, bitAt]

/-- **`toggle_buddy_bit` flips one bit** and returns its new value. -/
theorem Repr.toggle (h : Repr g s L B) (ho : o ≤ buddyMaxOrder)
    (hi : p >>> (o + 1) / 8 < bytesNeeded g.maxPfn o) :
    (s.toggleBuddyBit p o).1 = !B o (p >>> (o + 1)) ∧
      Repr g (s.toggleBuddyBit p o).2 L
        (Function.update B o (Function.update (B o) (p >>> (o + 1)) (!B o (p >>> (o + 1))))) := by
  have hmem := slice_mem_bitmap ho hi
  rw [← h.slices o ho] at hmem
  -- no node shares its page with a bitmap byte
  have hfield : ∀ o' ≤ buddyMaxOrder, ∀ x ∈ (L o').map nodeOf, ∀ k ≤ 8,
      (s.toggleBuddyBit p o).2.mem.load 8 (x + k) = s.mem.load 8 (x + k) := by
    intro o' ho' x hx k hk
    have hoff := (h.node_of_mem ho' hx).off_bitmap hmem
    exact Mem.load_store_of_disjoint (by omega)
  refine ⟨by rw [toggleBuddyBit_fst, h.bits o ho _ hi], fun o' ho' => ?_, h.nodup, h.distinct,
    h.frames, h.slices, fun o' ho' j hj => ?_⟩
  · exact (h.linked o' ho').congr (fun x hx => hfield o' ho' x hx 0 (by omega))
      fun x hx => hfield o' ho' x hx 8 (by omega)
  · rw [bitAt, show (s.toggleBuddyBit p o).2.buddyMap = s.buddyMap from rfl]
    by_cases hsame : s.buddyMap o' + j / 8 = s.buddyMap o + p >>> (o + 1) / 8
    · -- the toggled byte
      have hinj := hsame
      rw [h.slices o' ho', h.slices o ho, Nat.add_assoc, Nat.add_assoc, Nat.add_left_cancel_iff]
        at hinj
      obtain ⟨rfl, hbyte⟩ := slice_inj hj hi hinj
      rw [hsame, toggleBuddyBit_byte, Nat.testBit_xor, ← hbyte, Function.update_self]
      by_cases hbit : j = p >>> (o' + 1)
      · subst hbit
        rw [Nat.testBit_two_pow_self, Function.update_self, ← h.bits o' ho _ hj, bitAt,
          Bool.xor_true]
      · rw [Nat.testBit_two_pow_of_ne (by omega), Function.update_of_ne hbit, ← h.bits o' ho j hj,
          bitAt, Bool.xor_false]
    · have hother : ¬ (o' = o ∧ j = p >>> (o + 1)) := fun hc => hsame (by rw [hc.1, hc.2])
      rw [toggleBuddyBit_mem_of_ne hsame]
      refine (h.bits o' ho' j hj).trans ?_
      by_cases hoo : o' = o
      · subst hoo
        rw [Function.update_self, Function.update_of_ne fun hc => hother ⟨rfl, hc⟩]
      · rw [Function.update_of_ne hoo]

end Toggle

end PMM

end MioOS
