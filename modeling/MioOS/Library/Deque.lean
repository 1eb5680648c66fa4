import MioOS.Library.Chain

/-!
# Library/Deque — doubly linked lists with a pointer to either end

`Deque` says that a head and a tail pointer are the two ends of one doubly linked list: it is
`Linked` from the head along `next`, and its reverse is `Linked` from the tail along `prev`.  The
second half follows from the first (`Linked.deque`), and swapping the two fields turns the list
around (`Deque.symm`), so an edit at the tail is the edit at the head of the reversed list.

`collect` is a traversal: what a cursor reads until it meets `null`.
-/

namespace Intrusive

variable {α β : Type*} {null p q h t b : α} {next next' prev prev' : α → α} {data : α → β}
  {l acc : List α} {fuel i : ℕ}

/-! ## Traversals -/

/-- What a cursor that starts at `h` and follows `next` reads before it meets `null`; it gives up
after `fuel` nodes. -/
def collect [DecidableEq α] (null : α) (next : α → α) (data : α → β) : ℕ → α → Option (List β)
  | 0, _ => none
  | fuel + 1, h =>
    if h = null then some [] else (collect null next data fuel (next h)).map (data h :: ·)

/-- **A traversal of a chain** reads its nodes in order. -/
theorem Chain.collect [DecidableEq α] (hc : Chain null next h l) (hfuel : l.length < fuel) :
    collect null next data fuel h = some (l.map data) := by
  induction l generalizing h fuel with
  | nil =>
    obtain ⟨fuel, rfl⟩ := Nat.exists_eq_succ_of_ne_zero (Nat.ne_zero_of_lt hfuel)
    rw [Intrusive.collect, if_pos (show h = null from hc), List.map_nil]
  | cons b bs ih =>
    obtain ⟨rfl, hne, hc⟩ := hc
    rw [List.length_cons] at hfuel
    obtain ⟨fuel, rfl⟩ := Nat.exists_eq_succ_of_ne_zero (Nat.ne_zero_of_lt hfuel)
    rw [Intrusive.collect, if_neg hne, ih hc (by omega), Option.map_some, List.map_cons]

/-- Following `next` some times leads to the node of that index. -/
theorem Chain.iterate (hc : Chain null next h l) (hi : i < l.length) : next^[i] h = l[i] := by
  induction l generalizing h i with
  | nil => exact absurd hi (by simp)
  | cons b bs ih =>
    obtain ⟨rfl, -, hc⟩ := hc
    cases i with
    | zero => rfl
    | succ i =>
      rw [Function.iterate_succ_apply, List.getElem_cons_succ]
      exact ih hc (Nat.lt_of_succ_lt_succ hi)

/-! ## Both ends -/

/-- `h` and `t` are the ends of one doubly linked list of the nodes `l`. -/
structure Deque (null : α) (next prev : α → α) (h t : α) (l : List α) : Prop where
  forward : Linked null next prev null h l
  backward : Linked null prev next null t l.reverse

/-- The nodes passed so far, turned around. -/
theorem Linked.reverse_aux (hl : Linked null next prev p h l) (hacc : Linked null prev next h p acc) :
    Linked null prev next null (l.getLastD p) (l.reverse ++ acc) := by
  induction l generalizing p h acc with
  | nil => exact hl ▸ hacc
  | cons b bs ih =>
    obtain ⟨rfl, hne, rfl, hl⟩ := hl
    rw [List.getLastD_cons, List.reverse_cons, List.append_assoc]
    exact ih hl ⟨rfl, hne, rfl, hacc⟩

/-- **A doubly linked list can be read from its last node.** -/
theorem Linked.deque (hl : Linked null next prev null h l) :
    Deque null next prev h (l.getLastD null) l := by
  have hrev : Linked null prev next null (l.getLastD null) (l.reverse ++ []) := hl.reverse_aux rfl
  rw [List.append_nil] at hrev
  exact ⟨hl, hrev⟩

namespace Deque

/-- The list from its other end. -/
theorem symm (hd : Deque null next prev h t l) : Deque null prev next t h l.reverse :=
  ⟨hd.backward, by rw [List.reverse_reverse]; exact hd.forward⟩

theorem head_eq_null_iff (hd : Deque null next prev h t l) : h = null ↔ l = [] :=
  hd.forward.chain.eq_null_iff

theorem tail_eq_null_iff (hd : Deque null next prev h t l) : t = null ↔ l = [] := by
  rw [hd.symm.head_eq_null_iff, List.reverse_eq_nil_iff]

/-- The tail is the last node. -/
theorem tail_eq (hd : Deque null next prev h t l) : t = l.getLastD null := by
  have hrev := hd.forward.deque.backward
  cases hl : l.reverse with
  | nil =>
    have ht := hd.backward
    rw [hl] at ht hrev
    exact ht.trans hrev.symm
  | cons b bs =>
    have ht := hd.backward
    rw [hl] at ht hrev
    exact ht.1.trans hrev.1.symm

/-- **Pushing a node at the head.** -/
theorem pushFront (hd : Deque null next prev h t l) (hnd : l.Nodup) (hb : b ≠ null)
    (hnb : next' b = h) (hpb : prev' b = null) (hph : h ≠ null → prev' h = b)
    (hn : ∀ x ∈ l, next' x = next x) (hp : ∀ x ∈ l, x ≠ h → prev' x = prev x) :
    Deque null next' prev' b ((b :: l).getLastD null) (b :: l) :=
  (hd.forward.push hnd hb hnb hpb hph hn hp).deque

/-- The tail after a push at the head. -/
theorem tail_pushFront (hd : Deque null next prev h t l) (hh : h ≠ null) :
    (b :: l).getLastD null = t := by
  rw [hd.tail_eq, List.getLastD_cons]
  cases l with
  | nil => exact absurd (hd.head_eq_null_iff.mpr rfl) hh
  | cons c cs => rw [List.getLastD_cons, List.getLastD_cons]

/-- **Taking the first node off.** -/
theorem popFront {bs : List α} (hd : Deque null next prev h t (b :: bs)) (hnd : bs.Nodup)
    (hph : next b ≠ null → prev' (next b) = null) (hn : ∀ x ∈ bs, next' x = next x)
    (hp : ∀ x ∈ bs, x ≠ next b → prev' x = prev x) :
    Deque null next' prev' (next b) (bs.getLastD null) bs :=
  (hd.forward.pop hnd hph hn hp).deque

/-- The tail after taking the first node off. -/
theorem tail_popFront {bs : List α} (hd : Deque null next prev h t (b :: bs)) (hbs : bs ≠ []) :
    bs.getLastD null = t := by
  rw [hd.tail_eq, List.getLastD_cons]
  cases bs with
  | nil => exact absurd rfl hbs
  | cons c cs => rw [List.getLastD_cons, List.getLastD_cons]

end Deque

end Intrusive
