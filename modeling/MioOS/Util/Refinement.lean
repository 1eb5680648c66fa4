import MioOS.Util.List

/-!
# Util/Refinement — `util::List` refines a sequence

`refines_sequence`: after any operations, and whatever the allocator answers, the list shows one
sequence forwards, backwards and by index, and every node it dropped went to `kfree` once.
-/

namespace MioOS

open Intrusive

namespace UtilList

variable {α : Type*} {A : NodeAllocator α} {s s' : UtilList α} {nodes nodes' : List ℕ}
  {xs xs' : List α} {m i : ℕ} {val : α}

/-! ## Reading -/

namespace Shows

theorem forEach (h : s.Shows nodes xs) : s.forEach = some xs := by
  have hc : Chain 0 (advance s.heap) s.head nodes := h.deque.forward.chain.congr fun p hp =>
    if_pos (h.ne_zero p hp)
  rw [UtilList.forEach, walkFuel, hc.collect h.lengthLt, h.data]

theorem forEachBack (h : s.Shows nodes xs) : s.forEachBack = some xs.reverse := by
  have hlen := h.lengthLt
  rw [← List.length_reverse] at hlen
  rw [UtilList.forEachBack, walkFuel, h.deque.backward.chain.collect hlen, List.map_reverse, h.data]

/-- **Both walks of `get_node`** end at the node of the index. -/
theorem getNode (h : s.Shows nodes xs) (hi : i < nodes.length) : s.getNode i = nodes[i] := by
  rw [UtilList.getNode]
  split
  · exact h.deque.forward.chain.iterate hi
  · have hlen := h.lengthLt
    have hsub : sub64 s.size 1 = nodes.length - 1 := by
      rw [h.size]
      exact sub64_of_le hlen (by omega)
    have hback : nodes.length - 1 - i < nodes.reverse.length := by
      rw [List.length_reverse]
      omega
    rw [hsub, h.deque.backward.chain.iterate hback, List.getElem_reverse]
    congr 1
    omega

theorem data_getElem (h : s.Shows nodes xs) (hi : i < nodes.length) (hi' : i < xs.length) :
    s.heap.data nodes[i] = xs[i] := by
  have hxs := h.data
  subst hxs
  rw [List.getElem_map]

theorem elementAt (h : s.Shows nodes xs) (hi : i < nodes.length) : s.elementAt i = nodes[i] := by
  rw [UtilList.elementAt, if_neg (by rw [h.size]; omega), h.getNode hi]

theorem elementAt_beyond (h : s.Shows nodes xs) (hi : nodes.length ≤ i) : s.elementAt i = 0 :=
  if_pos (by rw [h.size]; exact hi)

end Shows

/-! ## Runs -/

/-- `s` is reached by operations that leave the sequence `xs`: a push that fails leaves the sequence
as it is, and so does a pop of an empty one. -/
inductive Reaches (A : NodeAllocator α) : List α → UtilList α → Prop
  | start (h : NodeHeap α) : Reaches A [] (empty h)
  | pushBack {xs : List α} {s : UtilList α} (val : α) : Reaches A xs s →
      Reaches A (if (s.pushBack A val).1 then xs ++ [val] else xs) (s.pushBack A val).2
  | pushFront {xs : List α} {s : UtilList α} (val : α) : Reaches A xs s →
      Reaches A (if (s.pushFront A val).1 then val :: xs else xs) (s.pushFront A val).2
  | popBack {xs : List α} {s : UtilList α} : Reaches A xs s → Reaches A xs.dropLast (s.popBack A)
  | popFront {xs : List α} {s : UtilList α} : Reaches A xs s → Reaches A xs.tail (s.popFront A)
  | clear {xs : List α} {s s' : UtilList α} : Reaches A xs s → s.clear A = some s' →
      Reaches A [] s'

/-- The block a call handed out. -/
def handedOut : HeapCall → Option ℕ
  | .kmalloc answer => if answer = 0 then none else some answer
  | .kfree _ _ => none

/-- The block a call took back. -/
def takenBack : HeapCall → Option ℕ
  | .kmalloc _ => none
  | .kfree block _ => some block

/-- **Every node that was dropped went to `kfree` once**: what was handed out is what was taken back
and the nodes, and only blocks that were held were taken back. -/
structure FreedOnce (calls : List HeapCall) (nodes : List ℕ) : Prop where
  perm : (calls.filterMap handedOut).Perm (calls.filterMap takenBack ++ nodes)
  held : ∀ p held, HeapCall.kfree p held ∈ calls → held = true

namespace FreedOnce

variable {calls : List HeapCall} {b : ℕ}

theorem refused (h : FreedOnce calls nodes) : FreedOnce (.kmalloc 0 :: calls) nodes := by
  refine ⟨h.perm, fun p held hmem => ?_⟩
  exact h.held p held ((List.mem_cons.mp hmem).resolve_left (by simp))

theorem push (h : FreedOnce calls nodes) (hm : m ≠ 0) (hperm : nodes'.Perm (m :: nodes)) :
    FreedOnce (.kmalloc m :: calls) nodes' := by
  refine ⟨?_, fun p held hmem => ?_⟩
  · have hout : handedOut (.kmalloc m) = some m := if_neg hm
    rw [List.filterMap_cons_some hout, List.filterMap_cons_none rfl]
    exact (h.perm.cons m).trans
      (List.perm_middle.symm.trans (hperm.symm.append_left _))
  · exact h.held p held ((List.mem_cons.mp hmem).resolve_left (by simp))

theorem pop (h : FreedOnce calls nodes) (hperm : nodes.Perm (b :: nodes')) :
    FreedOnce (.kfree b true :: calls) nodes' := by
  refine ⟨?_, fun p held hmem => ?_⟩
  · have hback : takenBack (.kfree b true) = some b := rfl
    rw [List.filterMap_cons_none rfl, List.filterMap_cons_some hback]
    exact h.perm.trans ((hperm.append_left _).trans List.perm_middle)
  · rcases List.mem_cons.mp hmem with heq | hmem
    · exact (HeapCall.kfree.inj heq).2
    · exact h.held p held hmem

theorem clear (h : FreedOnce calls nodes) :
    FreedOnce ((nodes.map fun p => HeapCall.kfree p true).reverse ++ calls) [] := by
  induction nodes generalizing calls with
  | nil => exact h
  | cons b bs ih =>
    rw [List.map_cons, List.reverse_cons, List.append_assoc, List.singleton_append]
    exact ih (h.pop (.refl _))

end FreedOnce

/-- A push that the allocator refuses. -/
theorem pushBack_refused (hm : A.answer s.heap = 0) (val : α) :
    s.pushBack A val = (false, { s with heap := (s.heap.kmalloc A).2 }) := by
  simp [UtilList.pushBack, hm]

theorem pushFront_refused (hm : A.answer s.heap = 0) (val : α) :
    s.pushFront A val = (false, { s with heap := (s.heap.kmalloc A).2 }) := by
  simp [UtilList.pushFront, hm]

theorem pushBack_calls (val : α) :
    (s.pushBack A val).2.heap.calls = .kmalloc (A.answer s.heap) :: s.heap.calls := by
  rw [← NodeHeap.kmalloc_calls (A := A), UtilList.pushBack]
  dsimp only
  split_ifs <;> rfl

theorem pushFront_calls (val : α) :
    (s.pushFront A val).2.heap.calls = .kmalloc (A.answer s.heap) :: s.heap.calls := by
  rw [← NodeHeap.kmalloc_calls (A := A), UtilList.pushFront]
  dsimp only
  split_ifs <;> rfl

/-- What a refused request leaves is the same list. -/
theorem Shows.untouched (h : s.Shows nodes xs) (hs : s.Untouched s') : s'.Shows nodes xs := by
  have hnode : ∀ p ∈ nodes, s'.heap.node p = s.heap.node p := fun p hp => hs.node p (h.held p hp)
  have hfwd : Linked 0 s'.heap.next s'.heap.prev 0 s.head nodes :=
    h.deque.forward.congr (fun p hp => congrArg ListNode.next (hnode p hp))
      fun p hp => congrArg ListNode.prev (hnode p hp)
  refine ⟨?_, h.nodup, fun p hp => ?_, h.lt, ?_, hs.size.trans h.size⟩
  · rw [hs.head, hs.tail, h.deque.tail_eq]
    exact hfwd.deque
  · rw [hs.held]
    exact h.held p hp
  · rw [← h.data]
    exact List.map_congr_left fun p hp => congrArg ListNode.data (hnode p hp)

/-- **The invariant of a run.** -/
theorem Reaches.shows (hreach : Reaches A xs s) :
    ∃ nodes, s.Shows nodes xs ∧ FreedOnce s.heap.calls nodes := by
  induction hreach with
  | start h =>
    exact ⟨[], ⟨⟨rfl, rfl⟩, List.nodup_nil, by simp, by simp, rfl, rfl⟩, .refl _, by simp [empty]⟩
  | @pushBack xs s val _ ih =>
    obtain ⟨nodes, h, hfreed⟩ := ih
    by_cases hm : A.answer s.heap = 0
    · rw [pushBack_refused hm]
      refine ⟨nodes, h.untouched (untouched_kmalloc hm), ?_⟩
      rw [NodeHeap.kmalloc_calls, hm]
      exact hfreed.refused
    · obtain ⟨htrue, hshows⟩ := h.pushBack hm val
      rw [htrue, if_pos rfl]
      refine ⟨_, hshows, ?_⟩
      rw [pushBack_calls]
      exact hfreed.push hm (List.perm_append_singleton _ _)
  | @pushFront xs s val _ ih =>
    obtain ⟨nodes, h, hfreed⟩ := ih
    by_cases hm : A.answer s.heap = 0
    · rw [pushFront_refused hm]
      refine ⟨nodes, h.untouched (untouched_kmalloc hm), ?_⟩
      rw [NodeHeap.kmalloc_calls, hm]
      exact hfreed.refused
    · obtain ⟨htrue, hshows⟩ := h.pushFront hm val
      rw [htrue, if_pos rfl]
      refine ⟨_, hshows, ?_⟩
      rw [pushFront_calls]
      exact hfreed.push hm (.refl _)
  | @popBack xs s _ ih =>
    obtain ⟨nodes, h, hfreed⟩ := ih
    rcases List.eq_nil_or_concat xs with rfl | ⟨xs, x, rfl⟩
    · obtain rfl := List.length_eq_zero_iff.mp h.length_eq
      rw [popBack_of_eq (h.deque.tail_eq_null_iff.mpr rfl)]
      exact ⟨[], h, hfreed⟩
    · rcases List.eq_nil_or_concat nodes with rfl | ⟨bs, b, rfl⟩
      · exact absurd h.length_eq (by simp)
      · rw [List.concat_eq_append] at h hfreed ⊢
        rw [List.concat_eq_append] at h
        obtain ⟨hshows, hcalls⟩ := h.popBack (A := A)
        rw [List.dropLast_concat, hcalls]
        exact ⟨bs, hshows, hfreed.pop (List.perm_append_singleton _ _)⟩
  | @popFront xs s _ ih =>
    obtain ⟨nodes, h, hfreed⟩ := ih
    cases xs with
    | nil =>
      obtain rfl := List.length_eq_zero_iff.mp h.length_eq
      rw [popFront_of_eq (h.deque.head_eq_null_iff.mpr rfl)]
      exact ⟨[], h, hfreed⟩
    | cons x xs =>
      cases nodes with
      | nil => exact absurd h.length_eq (by simp)
      | cons b bs =>
        obtain ⟨hshows, hcalls⟩ := h.popFront (A := A)
        rw [List.tail_cons, hcalls]
        exact ⟨bs, hshows, hfreed.pop (.refl _)⟩
  | @clear xs s s' _ heq ih =>
    obtain ⟨nodes, h, hfreed⟩ := ih
    obtain ⟨s₁, heq', hshows, hcalls⟩ := h.clear (A := A)
    obtain rfl := Option.some.inj (heq.symm.trans heq')
    exact ⟨[], hshows, hcalls ▸ hfreed.clear⟩

/-- **What a list does that holds the sequence `xs`.** -/
structure ActsAs (A : NodeAllocator α) (s : UtilList α) (xs : List α) : Prop where
  chain : ∃ nodes, Deque 0 s.heap.next s.heap.prev s.head s.tail nodes ∧ nodes.Nodup ∧
    nodes.map s.heap.data = xs ∧ FreedOnce s.heap.calls nodes
  forward : s.forEach = some xs
  backward : s.forEachBack = some xs.reverse
  size : s.size = xs.length
  subscript : ∀ i (hi : i < xs.length), s.subscript i = xs[i]
  elementAt : ∀ i (hi : i < xs.length), s.elementAt i ≠ 0 ∧ s.heap.data (s.elementAt i) = xs[i]
  beyond : ∀ i, xs.length ≤ i → s.elementAt i = 0
  refused : A.answer s.heap = 0 → ∀ val,
    (s.pushBack A val).1 = false ∧ s.Untouched (s.pushBack A val).2 ∧
      (s.pushFront A val).1 = false ∧ s.Untouched (s.pushFront A val).2
  granted : A.answer s.heap ≠ 0 → ∀ val,
    (s.pushBack A val).1 = true ∧ (s.pushFront A val).1 = true
  popEmpty : xs = [] → s.popBack A = s ∧ s.popFront A = s
  clears : (s.clear A).isSome

/-- **`util::List` refines a sequence**, after any operations and whatever the allocator answers. -/
theorem refines_sequence (hreach : Reaches A xs s) : s.ActsAs A xs := by
  obtain ⟨nodes, h, hfreed⟩ := hreach.shows
  have hlen := h.length_eq
  refine ⟨⟨nodes, h.deque, h.nodup, h.data, hfreed⟩, h.forEach, h.forEachBack, h.size.trans hlen,
    fun i hi => ?_, fun i hi => ?_, fun i hi => ?_, fun hm val => ?_, fun hm val => ?_,
    fun hxs => ?_, ?_⟩
  · rw [subscript, h.getNode (hlen ▸ hi), h.data_getElem _ hi]
  · rw [h.elementAt (hlen ▸ hi)]
    exact ⟨h.ne_zero _ (List.getElem_mem _), h.data_getElem _ hi⟩
  · exact h.elementAt_beyond (hlen ▸ hi)
  · rw [pushBack_refused hm, pushFront_refused hm]
    exact ⟨rfl, untouched_kmalloc hm, rfl, untouched_kmalloc hm⟩
  · exact ⟨(h.pushBack hm val).1, (h.pushFront hm val).1⟩
  · subst hxs
    obtain rfl := List.length_eq_zero_iff.mp hlen
    exact ⟨popBack_of_eq (h.deque.tail_eq_null_iff.mpr rfl),
      popFront_of_eq (h.deque.head_eq_null_iff.mpr rfl)⟩
  · obtain ⟨s', heq, -⟩ := h.clear (A := A)
    rw [heq]
    rfl

/-- An allocator that hands out rising addresses and never fails before they run out. -/
def risingAllocator : NodeAllocator ℕ where
  answer h := if h.held.sup id + 16 < 2 ^ 64 then h.held.sup id + 16 else 0
  junk _ _ := ⟨0, 0, 0⟩
  answer_lt h := by
    split
    · assumption
    · norm_num
  answer_fresh h hne hmem := by
    rw [ne_eq, ite_eq_right_iff, Classical.not_imp] at hne
    rw [if_pos hne.1] at hmem
    have hle := Finset.le_sup (f := id) hmem
    rw [id] at hle
    omega

/-- Two elements, pushed at either end. -/
theorem refines_sequence_pair : ∃ s : UtilList ℕ, s.ActsAs risingAllocator [7, 5] := by
  have hempty : Reaches risingAllocator [] (empty ⟨fun _ => ⟨0, 0, 0⟩, ∅, []⟩) := .start _
  exact ⟨_, refines_sequence ((hempty.pushBack 5).pushFront 7)⟩

end UtilList

end MioOS
