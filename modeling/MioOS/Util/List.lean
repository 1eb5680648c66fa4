import MioOS.Library.Deque
import MioOS.Memory.Defs

/-!
# Util/List — `util::List` of `list.hpp`

The list keeps a head, a tail and a size, and its nodes are blocks of the kernel heap.  `NodeHeap`
is that heap as the list sees it: the node at an address, the blocks that are handed out, and a log
of the allocator calls.  `kmalloc` and `kfree` are parameters: `NodeAllocator` answers each request
as it likes, with null or a block that nobody holds, and any call may overwrite memory that nobody
holds.

`UtilList.Shows` is the invariant: the list shows a sequence in the nodes of one doubly linked chain.
Each operation keeps it (`Shows.pushFront`, `Shows.pushBack`, `Shows.popFront`, `Shows.popBack`,
`Shows.clear`); an operation at the tail is the one at the head of the reversed chain.
-/

namespace MioOS

open Intrusive

variable {α : Type*}

/-- `List::Node`. -/
structure ListNode (α : Type*) where
  data : α
  next : ℕ
  prev : ℕ

/-- A call of the allocator: what `kmalloc` answered, or the block that `kfree` got and whether
anybody held it. -/
inductive HeapCall
  | kmalloc (answer : ℕ)
  | kfree (block : ℕ) (held : Bool)
  deriving DecidableEq

/-- The heap as a list sees it; the latest call comes first. -/
structure NodeHeap (α : Type*) where
  node : ℕ → ListNode α
  held : Finset ℕ
  calls : List HeapCall

/-- **The allocator**: what it answers to a request for a node, and what it leaves in memory that
nobody holds.  It may read the whole heap, the calls so far included. -/
structure NodeAllocator (α : Type*) where
  answer : NodeHeap α → ℕ
  junk : NodeHeap α → ℕ → ListNode α
  answer_lt : ∀ h, answer h < 2 ^ 64
  answer_fresh : ∀ h, answer h ≠ 0 → answer h ∉ h.held

namespace NodeHeap

/-- `node->next`. -/
def next (h : NodeHeap α) (p : ℕ) : ℕ := (h.node p).next

/-- `node->prev`. -/
def prev (h : NodeHeap α) (p : ℕ) : ℕ := (h.node p).prev

/-- `node->data`. -/
def data (h : NodeHeap α) (p : ℕ) : α := (h.node p).data

/-- `new (mem) Node(val)`. -/
def construct (h : NodeHeap α) (p : ℕ) (val : α) : NodeHeap α :=
  { h with node := Function.update h.node p ⟨val, 0, 0⟩ }

/-- `node->next = v`. -/
def setNext (h : NodeHeap α) (p v : ℕ) : NodeHeap α :=
  { h with node := Function.update h.node p { h.node p with next := v } }

/-- `node->prev = v`. -/
def setPrev (h : NodeHeap α) (p v : ℕ) : NodeHeap α :=
  { h with node := Function.update h.node p { h.node p with prev := v } }

/-- What a call of the allocator does to memory that nobody holds. -/
def scribble (A : NodeAllocator α) (h : NodeHeap α) : NodeHeap α :=
  { h with node := fun p => if p ∈ h.held then h.node p else A.junk h p }

/-- `kmalloc(sizeof(Node))`. -/
def kmalloc (A : NodeAllocator α) (h : NodeHeap α) : ℕ × NodeHeap α :=
  let mem := A.answer h
  let h := { h with calls := .kmalloc mem :: h.calls }.scribble A
  (mem, if mem = 0 then h else { h with held := insert mem h.held })

/-- `kfree`. -/
def kfree (A : NodeAllocator α) (h : NodeHeap α) (p : ℕ) : NodeHeap α :=
  { h with
    held := h.held.erase p
    calls := .kfree p (decide (p ∈ h.held)) :: h.calls }.scribble A

end NodeHeap

/-- `List`, and the heap its nodes are in. -/
structure UtilList (α : Type*) where
  head : ℕ
  tail : ℕ
  size : ℕ
  heap : NodeHeap α

/-- More nodes than there are addresses. -/
def walkFuel : ℕ := 2 ^ 64

namespace UtilList

/-- `List()`, in a heap whose log is clear. -/
def empty (h : NodeHeap α) : UtilList α := ⟨0, 0, 0, { h with calls := [] }⟩

/-- `get_node`: from the nearer end. -/
def getNode (s : UtilList α) (index : ℕ) : ℕ :=
  if index < s.size / 2 then s.heap.next^[index] s.head
  else s.heap.prev^[sub64 s.size 1 - index] s.tail

/-- `operator[]`. -/
def subscript (s : UtilList α) (index : ℕ) : α := s.heap.data (s.getNode index)

/-- `at`: the address of the element, which is the first field of its node. -/
def elementAt (s : UtilList α) (index : ℕ) : ℕ := if index ≥ s.size then 0 else s.getNode index

/-- `Iterator::operator++`. -/
def advance (h : NodeHeap α) (current : ℕ) : ℕ := if current ≠ 0 then h.next current else current

/-- What a range-based `for` visits: `*it` for `it` from `begin()` until it is `end()`. -/
def forEach (s : UtilList α) : Option (List α) :=
  collect 0 (advance s.heap) s.heap.data walkFuel s.head

/-- The same from the tail, along `prev`. -/
def forEachBack (s : UtilList α) : Option (List α) :=
  collect 0 s.heap.prev s.heap.data walkFuel s.tail

/-- `push_back`. -/
def pushBack (A : NodeAllocator α) (s : UtilList α) (val : α) : Bool × UtilList α :=
  let mem := (s.heap.kmalloc A).1
  let heap := (s.heap.kmalloc A).2
  if mem = 0 then (false, { s with heap := heap })
  else
    let heap := heap.construct mem val
    if s.tail = 0 then (true, ⟨mem, mem, u64 (s.size + 1), heap⟩)
    else (true, ⟨s.head, mem, u64 (s.size + 1), (heap.setNext s.tail mem).setPrev mem s.tail⟩)

/-- `push_front`. -/
def pushFront (A : NodeAllocator α) (s : UtilList α) (val : α) : Bool × UtilList α :=
  let mem := (s.heap.kmalloc A).1
  let heap := (s.heap.kmalloc A).2
  if mem = 0 then (false, { s with heap := heap })
  else
    let heap := heap.construct mem val
    if s.head = 0 then (true, ⟨mem, mem, u64 (s.size + 1), heap⟩)
    else (true, ⟨mem, s.tail, u64 (s.size + 1), (heap.setPrev s.head mem).setNext mem s.head⟩)

/-- `pop_back`. -/
def popBack (A : NodeAllocator α) (s : UtilList α) : UtilList α :=
  if s.tail = 0 then s
  else
    let tail := s.heap.prev s.tail
    if tail ≠ 0 then
      ⟨s.head, tail, sub64 s.size 1, (s.heap.setNext tail 0).kfree A s.tail⟩
    else ⟨0, tail, sub64 s.size 1, s.heap.kfree A s.tail⟩

/-- `pop_front`. -/
def popFront (A : NodeAllocator α) (s : UtilList α) : UtilList α :=
  if s.head = 0 then s
  else
    let head := s.heap.next s.head
    if head ≠ 0 then
      ⟨head, s.tail, sub64 s.size 1, (s.heap.setPrev head 0).kfree A s.head⟩
    else ⟨head, 0, sub64 s.size 1, s.heap.kfree A s.head⟩

/-- The loop of `clear`; `none` if it does not end. -/
def clearLoop (A : NodeAllocator α) : ℕ → NodeHeap α → ℕ → Option (NodeHeap α)
  | 0, _, _ => none
  | fuel + 1, h, current =>
    if current = 0 then some h else clearLoop A fuel (h.kfree A current) (h.next current)

/-- `clear`. -/
def clear (A : NodeAllocator α) (s : UtilList α) : Option (UtilList α) :=
  (clearLoop A walkFuel s.heap s.head).map fun heap => ⟨0, 0, 0, heap⟩

end UtilList

/-! ## What a call leaves in the nodes that are held -/

namespace NodeHeap

variable {A : NodeAllocator α} {h : NodeHeap α} {p q v : ℕ} {val : α}

@[simp] theorem setNext_next : (h.setNext p v).next q = if q = p then v else h.next q := by
  by_cases hq : q = p <;> simp [next, setNext, hq]

@[simp] theorem setNext_prev : (h.setNext p v).prev = h.prev := by
  funext q
  by_cases hq : q = p <;> simp [prev, setNext, hq]

@[simp] theorem setNext_data : (h.setNext p v).data = h.data := by
  funext q
  by_cases hq : q = p <;> simp [data, setNext, hq]

@[simp] theorem setPrev_next : (h.setPrev p v).next = h.next := by
  funext q
  by_cases hq : q = p <;> simp [next, setPrev, hq]

@[simp] theorem setPrev_prev : (h.setPrev p v).prev q = if q = p then v else h.prev q := by
  by_cases hq : q = p <;> simp [prev, setPrev, hq]

@[simp] theorem setPrev_data : (h.setPrev p v).data = h.data := by
  funext q
  by_cases hq : q = p <;> simp [data, setPrev, hq]

@[simp] theorem construct_next : (h.construct p val).next q = if q = p then 0 else h.next q := by
  by_cases hq : q = p <;> simp [next, construct, hq]

@[simp] theorem construct_prev : (h.construct p val).prev q = if q = p then 0 else h.prev q := by
  by_cases hq : q = p <;> simp [prev, construct, hq]

@[simp] theorem construct_data : (h.construct p val).data q = if q = p then val else h.data q := by
  by_cases hq : q = p <;> simp [data, construct, hq]

@[simp] theorem setNext_held : (h.setNext p v).held = h.held := rfl

@[simp] theorem setPrev_held : (h.setPrev p v).held = h.held := rfl

@[simp] theorem construct_held : (h.construct p val).held = h.held := rfl

@[simp] theorem kmalloc_fst : (h.kmalloc A).1 = A.answer h := rfl

theorem kmalloc_node (hp : p ∈ h.held) : (h.kmalloc A).2.node p = h.node p := by
  simp only [kmalloc]
  split <;> exact if_pos hp

theorem kmalloc_held : (h.kmalloc A).2.held =
    if A.answer h = 0 then h.held else insert (A.answer h) h.held := by
  simp only [kmalloc]
  split <;> rfl

theorem kmalloc_calls : (h.kmalloc A).2.calls = .kmalloc (A.answer h) :: h.calls := by
  simp only [kmalloc]
  split <;> rfl

theorem kfree_node (hp : p ∈ h.held) (hne : p ≠ q) : (h.kfree A q).node p = h.node p :=
  if_pos (Finset.mem_erase.mpr ⟨hne, hp⟩)

theorem kfree_next (hp : p ∈ h.held) (hne : p ≠ q) : (h.kfree A q).next p = h.next p :=
  congrArg ListNode.next (kfree_node hp hne)

theorem kfree_prev (hp : p ∈ h.held) (hne : p ≠ q) : (h.kfree A q).prev p = h.prev p :=
  congrArg ListNode.prev (kfree_node hp hne)

theorem kfree_data (hp : p ∈ h.held) (hne : p ≠ q) : (h.kfree A q).data p = h.data p :=
  congrArg ListNode.data (kfree_node hp hne)

@[simp] theorem kfree_held : (h.kfree A q).held = h.held.erase q := rfl

theorem kfree_calls (hq : q ∈ h.held) : (h.kfree A q).calls = .kfree q true :: h.calls := by
  rw [← decide_eq_true hq]
  rfl

end NodeHeap

namespace UtilList

variable {A : NodeAllocator α} {s s' : UtilList α} {nodes nodes' : List ℕ} {xs xs' : List α}
  {m i : ℕ} {val : α}

/-! ## The invariant -/

/-- **The list shows the sequence `xs`**, in the nodes `nodes`. -/
structure Shows (s : UtilList α) (nodes : List ℕ) (xs : List α) : Prop where
  deque : Deque 0 s.heap.next s.heap.prev s.head s.tail nodes
  nodup : nodes.Nodup
  held : ∀ p ∈ nodes, p ∈ s.heap.held
  lt : ∀ p ∈ nodes, p < 2 ^ 64
  data : nodes.map s.heap.data = xs
  size : s.size = nodes.length

/-- Different addresses that are not null are fewer than `2 ^ 64`. -/
theorem length_lt (hnd : nodes.Nodup) (hne : ∀ p ∈ nodes, p ≠ 0) (hlt : ∀ p ∈ nodes, p < 2 ^ 64) :
    nodes.length < 2 ^ 64 := by
  have hsub : nodes.toFinset ⊆ Finset.Ioo 0 (2 ^ 64) := fun p hp => by
    rw [List.mem_toFinset] at hp
    exact Finset.mem_Ioo.mpr ⟨Nat.pos_of_ne_zero (hne p hp), hlt p hp⟩
  have hcard := Finset.card_le_card hsub
  rw [List.toFinset_card_of_nodup hnd, Nat.card_Ioo] at hcard
  omega

namespace Shows

theorem ne_zero (h : s.Shows nodes xs) : ∀ p ∈ nodes, p ≠ 0 := h.deque.forward.chain.ne_null

theorem lengthLt (h : s.Shows nodes xs) : nodes.length < 2 ^ 64 :=
  length_lt h.nodup h.ne_zero h.lt

theorem length_eq (h : s.Shows nodes xs) : nodes.length = xs.length := by
  rw [← h.data, List.length_map]

/-- A list with one node more. -/
theorem grow (h : s.Shows nodes xs) (hm : m ∉ nodes) (hlt : m < 2 ^ 64)
    (hperm : nodes'.Perm (m :: nodes))
    (hd : Deque 0 s'.heap.next s'.heap.prev s'.head s'.tail nodes')
    (hheld : s'.heap.held = insert m s.heap.held) (hdata : nodes'.map s'.heap.data = xs')
    (hsize : s'.size = u64 (s.size + 1)) : s'.Shows nodes' xs' := by
  have hnd : nodes'.Nodup := hperm.nodup_iff.mpr (List.nodup_cons.mpr ⟨hm, h.nodup⟩)
  have hlt' : ∀ p ∈ nodes', p < 2 ^ 64 := fun p hp => by
    rcases List.mem_cons.mp (hperm.subset hp) with rfl | hp
    · exact hlt
    · exact h.lt p hp
  refine ⟨hd, hnd, fun p hp => ?_, hlt', hdata, ?_⟩
  · rw [hheld, Finset.mem_insert]
    exact (List.mem_cons.mp (hperm.subset hp)).imp_right (h.held p)
  · have hlen := length_lt hnd hd.forward.chain.ne_null hlt'
    rw [hperm.length_eq, List.length_cons] at hlen ⊢
    rw [hsize, h.size, u64_of_lt hlen]

/-- A list with one node less. -/
theorem shrink (h : s.Shows nodes xs) (hperm : nodes.Perm (m :: nodes'))
    (hd : Deque 0 s'.heap.next s'.heap.prev s'.head s'.tail nodes')
    (hheld : s'.heap.held = s.heap.held.erase m) (hdata : nodes'.map s'.heap.data = xs')
    (hsize : s'.size = sub64 s.size 1) : s'.Shows nodes' xs' := by
  obtain ⟨hm, hnd⟩ := List.nodup_cons.mp (hperm.nodup_iff.mp h.nodup)
  have hsub : ∀ p ∈ nodes', p ∈ nodes := fun p hp => hperm.symm.subset (List.mem_cons_of_mem _ hp)
  refine ⟨hd, hnd, fun p hp => ?_, fun p hp => h.lt p (hsub p hp), hdata, ?_⟩
  · rw [hheld, Finset.mem_erase]
    exact ⟨ne_of_mem_of_not_mem hp hm, h.held p (hsub p hp)⟩
  · have hlen := h.lengthLt
    have hsz := h.size
    rw [hperm.length_eq, List.length_cons] at hlen hsz
    rw [hsize, hsz, sub64_of_le hlen (by omega), Nat.add_sub_cancel]

/-- What a request for a node gives, and leaves. -/
theorem fresh (h : s.Shows nodes xs) (hm : A.answer s.heap ≠ 0) : A.answer s.heap ∉ nodes :=
  fun hmem => A.answer_fresh s.heap hm (h.held _ hmem)

end Shows

/-! ## Pushes -/

/-- A failed push leaves the list and all memory that is held. -/
structure Untouched (s s' : UtilList α) : Prop where
  head : s'.head = s.head
  tail : s'.tail = s.tail
  size : s'.size = s.size
  held : s'.heap.held = s.heap.held
  node : ∀ p ∈ s.heap.held, s'.heap.node p = s.heap.node p

theorem untouched_kmalloc (hm : A.answer s.heap = 0) :
    s.Untouched { s with heap := (s.heap.kmalloc A).2 } :=
  ⟨rfl, rfl, rfl, NodeHeap.kmalloc_held.trans (if_pos hm), fun _ hp => NodeHeap.kmalloc_node hp⟩

theorem pushFront_first (hm : A.answer s.heap ≠ 0) (hhead : s.head = 0) (val : α) :
    s.pushFront A val = (true, ⟨A.answer s.heap, A.answer s.heap, u64 (s.size + 1),
      (s.heap.kmalloc A).2.construct (A.answer s.heap) val⟩) := by
  simp [UtilList.pushFront, hm, hhead]

theorem pushFront_more (hm : A.answer s.heap ≠ 0) (hhead : s.head ≠ 0) (val : α) :
    s.pushFront A val = (true, ⟨A.answer s.heap, s.tail, u64 (s.size + 1),
      (((s.heap.kmalloc A).2.construct (A.answer s.heap) val).setPrev s.head
        (A.answer s.heap)).setNext (A.answer s.heap) s.head⟩) := by
  simp [UtilList.pushFront, hm, hhead]

theorem pushBack_first (hm : A.answer s.heap ≠ 0) (htail : s.tail = 0) (val : α) :
    s.pushBack A val = (true, ⟨A.answer s.heap, A.answer s.heap, u64 (s.size + 1),
      (s.heap.kmalloc A).2.construct (A.answer s.heap) val⟩) := by
  simp [UtilList.pushBack, hm, htail]

theorem pushBack_more (hm : A.answer s.heap ≠ 0) (htail : s.tail ≠ 0) (val : α) :
    s.pushBack A val = (true, ⟨s.head, A.answer s.heap, u64 (s.size + 1),
      (((s.heap.kmalloc A).2.construct (A.answer s.heap) val).setNext s.tail
        (A.answer s.heap)).setPrev (A.answer s.heap) s.tail⟩) := by
  simp [UtilList.pushBack, hm, htail]

namespace Shows

/-- What a request for a node leaves in the nodes of the list. -/
theorem kmalloc_node (h : s.Shows nodes xs) :
    ∀ p ∈ nodes, (s.heap.kmalloc A).2.node p = s.heap.node p := fun p hp =>
  NodeHeap.kmalloc_node (h.held p hp)

theorem map_construct (h : s.Shows nodes xs) (hm : A.answer s.heap ≠ 0) (val : α) :
    nodes.map ((s.heap.kmalloc A).2.construct (A.answer s.heap) val).data = xs := by
  rw [← h.data]
  refine List.map_congr_left fun p hp => ?_
  rw [NodeHeap.construct_data, if_neg (ne_of_mem_of_not_mem hp (h.fresh hm))]
  exact congrArg ListNode.data (h.kmalloc_node p hp)

/-- **`push_front`** puts the element before the others. -/
theorem pushFront (h : s.Shows nodes xs) (hm : A.answer s.heap ≠ 0) (val : α) :
    (s.pushFront A val).1 = true ∧
      (s.pushFront A val).2.Shows (A.answer s.heap :: nodes) (val :: xs) := by
  have hfresh := h.fresh hm
  have hne : ∀ p ∈ nodes, p ≠ A.answer s.heap := fun p hp => ne_of_mem_of_not_mem hp hfresh
  have hnext : ∀ p ∈ nodes, (s.heap.kmalloc A).2.next p = s.heap.next p := fun p hp =>
    congrArg ListNode.next (h.kmalloc_node p hp)
  have hprev : ∀ p ∈ nodes, (s.heap.kmalloc A).2.prev p = s.heap.prev p := fun p hp =>
    congrArg ListNode.prev (h.kmalloc_node p hp)
  have hheld := (NodeHeap.kmalloc_held (A := A) (h := s.heap)).trans (if_neg hm)
  have hdata : (A.answer s.heap :: nodes).map
      ((s.heap.kmalloc A).2.construct (A.answer s.heap) val).data = val :: xs := by
    rw [List.map_cons, h.map_construct hm, NodeHeap.construct_data, if_pos rfl]
  by_cases hhead : s.head = 0
  · -- the list was empty
    obtain rfl := h.deque.head_eq_null_iff.mp hhead
    rw [pushFront_first hm hhead]
    refine ⟨rfl, h.grow hfresh (A.answer_lt _) (.refl _) ?_ hheld hdata rfl⟩
    exact h.deque.pushFront List.nodup_nil hm (by simp [hhead]) (by simp) (by simp [hhead])
      (by simp) (by simp)
  · have hmem : s.head ∈ nodes := h.deque.forward.head_mem.resolve_left hhead
    rw [pushFront_more hm hhead]
    refine ⟨rfl, h.grow hfresh (A.answer_lt _) (.refl _) ?_ hheld (by simpa using hdata) rfl⟩
    rw [← h.deque.tail_pushFront (b := A.answer s.heap) hhead]
    exact h.deque.pushFront h.nodup hm (by simp) (by simp [(hne _ hmem).symm]) (by simp)
      (fun x hx => by simp [hne x hx, hnext x hx])
      (fun x hx hxh => by simp [hne x hx, hxh, hprev x hx])

/-- **`push_back`** puts the element behind the others. -/
theorem pushBack (h : s.Shows nodes xs) (hm : A.answer s.heap ≠ 0) (val : α) :
    (s.pushBack A val).1 = true ∧
      (s.pushBack A val).2.Shows (nodes ++ [A.answer s.heap]) (xs ++ [val]) := by
  have hfresh := h.fresh hm
  have hne : ∀ p ∈ nodes, p ≠ A.answer s.heap := fun p hp => ne_of_mem_of_not_mem hp hfresh
  have hnext : ∀ p ∈ nodes, (s.heap.kmalloc A).2.next p = s.heap.next p := fun p hp =>
    congrArg ListNode.next (h.kmalloc_node p hp)
  have hprev : ∀ p ∈ nodes, (s.heap.kmalloc A).2.prev p = s.heap.prev p := fun p hp =>
    congrArg ListNode.prev (h.kmalloc_node p hp)
  have hheld := (NodeHeap.kmalloc_held (A := A) (h := s.heap)).trans (if_neg hm)
  have hdata : (nodes ++ [A.answer s.heap]).map
      ((s.heap.kmalloc A).2.construct (A.answer s.heap) val).data = xs ++ [val] := by
    rw [List.map_append, h.map_construct hm, List.map_singleton, NodeHeap.construct_data,
      if_pos rfl]
  have hperm : (nodes ++ [A.answer s.heap]).Perm (A.answer s.heap :: nodes) :=
    List.perm_append_singleton _ _
  -- the push at the head of the reversed list
  have hd := h.deque.symm
  have hback : nodes ++ [A.answer s.heap] = (A.answer s.heap :: nodes.reverse).reverse := by simp
  by_cases htail : s.tail = 0
  · obtain rfl := h.deque.tail_eq_null_iff.mp htail
    rw [pushBack_first hm htail]
    refine ⟨rfl, h.grow hfresh (A.answer_lt _) hperm ?_ hheld hdata rfl⟩
    rw [hback]
    exact (hd.pushFront List.nodup_nil hm (by simp [htail]) (by simp) (by simp [htail])
      (by simp) (by simp)).symm
  · have hmem : s.tail ∈ nodes := List.mem_reverse.mp (hd.forward.head_mem.resolve_left htail)
    rw [pushBack_more hm htail]
    refine ⟨rfl, h.grow hfresh (A.answer_lt _) hperm ?_ hheld (by simpa using hdata) rfl⟩
    rw [hback, ← hd.tail_pushFront (b := A.answer s.heap) htail]
    refine (hd.pushFront (List.nodup_reverse.mpr h.nodup) hm (by simp)
      (by simp [(hne _ hmem).symm]) (by simp) (fun x hx => ?_) fun x hx hxt => ?_).symm
    · rw [List.mem_reverse] at hx
      simp [hne x hx, hprev x hx]
    · rw [List.mem_reverse] at hx
      simp [hne x hx, hxt, hnext x hx]

end Shows

/-! ## Pops -/

theorem popFront_of_eq (hhead : s.head = 0) : s.popFront A = s := if_pos hhead

theorem popBack_of_eq (htail : s.tail = 0) : s.popBack A = s := if_pos htail

theorem popFront_last (hhead : s.head ≠ 0) (hnext : s.heap.next s.head = 0) :
    s.popFront A = ⟨0, 0, sub64 s.size 1, s.heap.kfree A s.head⟩ := by
  simp [UtilList.popFront, hhead, hnext]

theorem popFront_more (hhead : s.head ≠ 0) (hnext : s.heap.next s.head ≠ 0) :
    s.popFront A = ⟨s.heap.next s.head, s.tail, sub64 s.size 1,
      (s.heap.setPrev (s.heap.next s.head) 0).kfree A s.head⟩ := by
  simp [UtilList.popFront, hhead, hnext]

theorem popBack_last (htail : s.tail ≠ 0) (hprev : s.heap.prev s.tail = 0) :
    s.popBack A = ⟨0, 0, sub64 s.size 1, s.heap.kfree A s.tail⟩ := by
  simp [UtilList.popBack, htail, hprev]

theorem popBack_more (htail : s.tail ≠ 0) (hprev : s.heap.prev s.tail ≠ 0) :
    s.popBack A = ⟨s.head, s.heap.prev s.tail, sub64 s.size 1,
      (s.heap.setNext (s.heap.prev s.tail) 0).kfree A s.tail⟩ := by
  simp [UtilList.popBack, htail, hprev]

namespace Shows

variable {b : ℕ} {bs : List ℕ} {x : α}

/-- **`pop_front`** drops the first element and frees its node. -/
theorem popFront (h : s.Shows (b :: bs) (x :: xs)) :
    (s.popFront A).Shows bs xs ∧ (s.popFront A).heap.calls = .kfree b true :: s.heap.calls := by
  obtain ⟨hb, hnd⟩ := List.nodup_cons.mp h.nodup
  obtain ⟨hhead, hb0, -, hl⟩ := h.deque.forward
  have hbheld : b ∈ s.heap.held := h.held b List.mem_cons_self
  have hheld : ∀ p ∈ bs, p ∈ s.heap.held := fun p hp => h.held p (List.mem_cons_of_mem _ hp)
  have hne : ∀ p ∈ bs, p ≠ b := fun p hp => ne_of_mem_of_not_mem hp hb
  have hdata : bs.map s.heap.data = xs := (List.cons.inj h.data).2
  have hs : s.head ≠ 0 := hhead ▸ hb0
  by_cases hnext : s.heap.next b = 0
  · obtain rfl := hl.chain.eq_null_iff.mp hnext
    rw [popFront_last hs (hhead ▸ hnext), hhead]
    refine ⟨h.shrink (.refl _) ⟨rfl, rfl⟩ rfl ?_ rfl, NodeHeap.kfree_calls hbheld⟩
    exact hdata
  · rw [popFront_more hs (hhead ▸ hnext), hhead]
    have hbs : bs ≠ [] := fun hnil => hnext (hl.chain.eq_null_iff.mpr hnil)
    refine ⟨h.shrink (.refl _) ?_ rfl ?_ rfl, NodeHeap.kfree_calls hbheld⟩
    · have hnext' : ∀ p ∈ bs, ((s.heap.setPrev (s.heap.next b) 0).kfree A b).next p
          = s.heap.next p := fun p hp => by
        rw [NodeHeap.kfree_next (h := s.heap.setPrev (s.heap.next b) 0) (hheld p hp) (hne p hp),
          NodeHeap.setPrev_next]
      have hprev' : ∀ p ∈ bs, ((s.heap.setPrev (s.heap.next b) 0).kfree A b).prev p
          = if p = s.heap.next b then 0 else s.heap.prev p := fun p hp => by
        rw [NodeHeap.kfree_prev (h := s.heap.setPrev (s.heap.next b) 0) (hheld p hp) (hne p hp),
          NodeHeap.setPrev_prev]
      have hmem := hl.head_mem.resolve_left hnext
      have hd := h.deque.popFront hnd (fun _ => (hprev' _ hmem).trans (if_pos rfl)) hnext'
        fun p hp hpn => (hprev' p hp).trans (if_neg hpn)
      rwa [h.deque.tail_popFront hbs] at hd
    · rw [← hdata, ← NodeHeap.setPrev_data (h := s.heap) (p := s.heap.next b) (v := 0)]
      exact List.map_congr_left fun p hp => NodeHeap.kfree_data (hheld p hp) (hne p hp)

/-- **`pop_back`** drops the last element and frees its node. -/
theorem popBack (h : s.Shows (bs ++ [b]) (xs ++ [x])) :
    (s.popBack A).Shows bs xs ∧ (s.popBack A).heap.calls = .kfree b true :: s.heap.calls := by
  have hperm : (bs ++ [b]).Perm (b :: bs) := List.perm_append_singleton _ _
  obtain ⟨hb, hnd⟩ := List.nodup_cons.mp (hperm.nodup_iff.mp h.nodup)
  -- the first node of the reversed list
  have hd := h.deque.symm
  rw [List.reverse_append, List.reverse_singleton, List.singleton_append] at hd
  obtain ⟨htail, hb0, -, hl⟩ := hd.forward
  have hbheld : b ∈ s.heap.held := h.held b (hperm.symm.subset List.mem_cons_self)
  have hheld : ∀ p ∈ bs, p ∈ s.heap.held := fun p hp => h.held p (List.mem_append_left _ hp)
  have hne : ∀ p ∈ bs, p ≠ b := fun p hp => ne_of_mem_of_not_mem hp hb
  have hdata : bs.map s.heap.data = xs := by
    have hmap := h.data
    rw [List.map_append] at hmap
    exact (List.append_inj' hmap rfl).1
  have hs : s.tail ≠ 0 := htail ▸ hb0
  by_cases hprev : s.heap.prev b = 0
  · obtain rfl := List.reverse_eq_nil_iff.mp (hl.chain.eq_null_iff.mp hprev)
    rw [popBack_last hs (htail ▸ hprev), htail]
    exact ⟨h.shrink hperm ⟨rfl, rfl⟩ rfl hdata rfl, NodeHeap.kfree_calls hbheld⟩
  · rw [popBack_more hs (htail ▸ hprev), htail]
    have hbs : bs.reverse ≠ [] := fun hnil => hprev (hl.chain.eq_null_iff.mpr hnil)
    refine ⟨h.shrink hperm ?_ rfl ?_ rfl, NodeHeap.kfree_calls hbheld⟩
    · have hprev' : ∀ p ∈ bs.reverse, ((s.heap.setNext (s.heap.prev b) 0).kfree A b).prev p
          = s.heap.prev p := fun p hp => by
        rw [List.mem_reverse] at hp
        rw [NodeHeap.kfree_prev (h := s.heap.setNext (s.heap.prev b) 0) (hheld p hp) (hne p hp),
          NodeHeap.setNext_prev]
      have hnext' : ∀ p ∈ bs.reverse, ((s.heap.setNext (s.heap.prev b) 0).kfree A b).next p
          = if p = s.heap.prev b then 0 else s.heap.next p := fun p hp => by
        rw [List.mem_reverse] at hp
        rw [NodeHeap.kfree_next (h := s.heap.setNext (s.heap.prev b) 0) (hheld p hp) (hne p hp),
          NodeHeap.setNext_next]
      have hmem := hl.head_mem.resolve_left hprev
      have hd' := (hd.popFront (List.nodup_reverse.mpr hnd)
        (fun _ => (hnext' _ hmem).trans (if_pos rfl)) hprev'
        fun p hp hpn => (hnext' p hp).trans (if_neg hpn)).symm
      rwa [List.reverse_reverse, hd.tail_popFront hbs] at hd'
    · rw [← hdata, ← NodeHeap.setNext_data (h := s.heap) (p := s.heap.prev b) (v := 0)]
      exact List.map_congr_left fun p hp => NodeHeap.kfree_data (hheld p hp) (hne p hp)

end Shows

/-! ## `clear` -/

/-- The loop frees the nodes of the chain in order, each while it is held. -/
theorem clearLoop_eq {h : NodeHeap α} {current fuel : ℕ} (hc : Chain 0 h.next current nodes)
    (hnd : nodes.Nodup) (hheld : ∀ p ∈ nodes, p ∈ h.held) (hfuel : nodes.length < fuel) :
    ∃ h', clearLoop A fuel h current = some h' ∧
      h'.calls = (nodes.map fun p => HeapCall.kfree p true).reverse ++ h.calls := by
  induction nodes generalizing h current fuel with
  | nil =>
    obtain ⟨fuel, rfl⟩ := Nat.exists_eq_succ_of_ne_zero (Nat.ne_zero_of_lt hfuel)
    refine ⟨h, ?_, rfl⟩
    rw [clearLoop, if_pos (show current = 0 from hc)]
  | cons b bs ih =>
    obtain ⟨rfl, hne, hc⟩ := hc
    obtain ⟨hb, hnd⟩ := List.nodup_cons.mp hnd
    obtain ⟨hcheld, hheld⟩ := List.forall_mem_cons.mp hheld
    rw [List.length_cons] at hfuel
    obtain ⟨fuel, rfl⟩ := Nat.exists_eq_succ_of_ne_zero (Nat.ne_zero_of_lt hfuel)
    have hbne : ∀ p ∈ bs, p ≠ current := fun p hp => ne_of_mem_of_not_mem hp hb
    -- the node is read before it is freed, and the nodes behind it stay as they are
    obtain ⟨h', heq, hcalls⟩ := @ih (h.kfree A current) _ fuel
      (hc.congr fun p hp => NodeHeap.kfree_next (hheld p hp) (hbne p hp)) hnd
      (fun p hp => Finset.mem_erase.mpr ⟨hbne p hp, hheld p hp⟩) (by omega)
    refine ⟨h', by rw [clearLoop, if_neg hne, heq], ?_⟩
    rw [hcalls, NodeHeap.kfree_calls hcheld, List.map_cons, List.reverse_cons, List.append_assoc,
      List.singleton_append]

/-- **`clear`** ends, leaves an empty list and frees the nodes in order. -/
theorem Shows.clear (h : s.Shows nodes xs) : ∃ s', s.clear A = some s' ∧ s'.Shows [] [] ∧
    s'.heap.calls = (nodes.map fun p => HeapCall.kfree p true).reverse ++ s.heap.calls := by
  obtain ⟨h', heq, hcalls⟩ :=
    clearLoop_eq (A := A) h.deque.forward.chain h.nodup h.held h.lengthLt
  refine ⟨⟨0, 0, 0, h'⟩, ?_, ?_, hcalls⟩
  · rw [UtilList.clear, walkFuel, heq, Option.map_some]
  · exact ⟨⟨rfl, rfl⟩, List.nodup_nil, by simp, by simp, rfl, rfl⟩

end UtilList

end MioOS
