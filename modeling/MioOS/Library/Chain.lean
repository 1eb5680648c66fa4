import Mathlib.Tactic
import Mathlib.Data.List.Nodup

/-!
# Library/Chain — intrusive linked lists over an arbitrary store

An intrusive list is a head pointer together with a `next` (and a `prev`) field in every node; the
fields are functions `α → α` on pointers and `null` ends the list.  `Chain` says that following
`next` from a head visits exactly the nodes of a list, `Linked` adds that every `prev` field names
the node before.  The rules are the two edits of a doubly linked list (`Linked.push`,
`Linked.remove`), the frame rule (`Linked.congr`), and `Chain.visits_iff`, which says that the
nodes a traversal meets are the members of the list.
-/

namespace Intrusive

variable {α : Type*}

/-- Following `next` from the head visits exactly the nodes of the list, then meets `null`. -/
def Chain (null : α) (next : α → α) : α → List α → Prop
  | h, [] => h = null
  | h, b :: bs => h = b ∧ b ≠ null ∧ Chain null next (next b) bs

/-- A chain in which every `prev` field names the node before it, the first one's naming `p`. -/
def Linked (null : α) (next prev : α → α) : α → α → List α → Prop
  | _, h, [] => h = null
  | p, h, b :: bs => h = b ∧ b ≠ null ∧ prev b = p ∧ Linked null next prev b (next b) bs

/-- The nodes a traversal from a head meets. -/
inductive Visits (null : α) (next : α → α) : α → α → Prop
  | here {h : α} : h ≠ null → Visits null next h h
  | there {h x : α} : h ≠ null → Visits null next (next h) x → Visits null next h x

variable {null p h b x : α} {next next' prev prev' : α → α} {l : List α}

/-! ## Chains -/

@[simp] theorem chain_nil : Chain null next h [] ↔ h = null := Iff.rfl

@[simp] theorem chain_cons {bs : List α} :
    Chain null next h (b :: bs) ↔ h = b ∧ b ≠ null ∧ Chain null next (next b) bs := Iff.rfl

/-- A chain reads the `next` fields of its own nodes only. -/
theorem Chain.congr : ∀ {h : α} {l : List α}, Chain null next h l →
    (∀ x ∈ l, next' x = next x) → Chain null next' h l
  | _, [], hc, _ => hc
  | _, b :: bs, ⟨hb, hne, hc⟩, heq => by
      refine ⟨hb, hne, ?_⟩
      rw [heq b List.mem_cons_self]
      exact hc.congr fun x hx => heq x (List.mem_cons_of_mem _ hx)

theorem Chain.ne_null : ∀ {h : α} {l : List α}, Chain null next h l → ∀ x ∈ l, x ≠ null
  | _, [], _, _, hx => absurd hx (by simp)
  | _, b :: bs, ⟨_, hne, hc⟩, x, hx => by
      rcases List.mem_cons.mp hx with rfl | hx
      · exact hne
      · exact hc.ne_null x hx

/-- The head is `null` exactly for the empty list. -/
theorem Chain.eq_null_iff (hc : Chain null next h l) : h = null ↔ l = [] := by
  cases l with
  | nil => exact ⟨fun _ => rfl, fun _ => hc⟩
  | cons b bs =>
    obtain ⟨rfl, hne, -⟩ := hc
    exact ⟨fun h => absurd h hne, fun h => absurd h (by simp)⟩

/-- The list determines the head. -/
theorem Chain.head_unique {h' : α} (hc : Chain null next h l) (hc' : Chain null next' h' l) :
    h = h' := by
  cases l with
  | nil => exact Eq.trans hc (Eq.symm hc')
  | cons b bs => exact hc.1.trans hc'.1.symm

/-- **The nodes a traversal meets are the members of the list.** -/
theorem Chain.visits_iff : ∀ {h : α} {l : List α}, Chain null next h l →
    (Visits null next h x ↔ x ∈ l)
  | h, [], hc => by
      refine ⟨fun hv => ?_, fun hx => absurd hx (by simp)⟩
      cases hv with
      | here hne => exact absurd hc hne
      | there hne _ => exact absurd hc hne
  | h, b :: bs, ⟨hb, hne, hc⟩ => by
      subst hb
      rw [List.mem_cons, ← hc.visits_iff]
      constructor
      · intro hv
        cases hv with
        | here _ => exact Or.inl rfl
        | there _ hv => exact Or.inr hv
      · rintro (rfl | hv)
        · exact .here hne
        · exact .there hne hv

/-- A store determines the list a head starts. -/
theorem Chain.unique : ∀ {h : α} {l l' : List α}, Chain null next h l → Chain null next h l' →
    l = l'
  | _, [], [], _, _ => rfl
  | _, [], b :: bs, hc, ⟨hb, hne, _⟩ => absurd (hb.symm.trans hc) hne
  | _, b :: bs, [], ⟨hb, hne, _⟩, hc => absurd (hb.symm.trans hc) hne
  | _, b :: bs, b' :: bs', ⟨hb, _, hc⟩, ⟨hb', _, hc'⟩ => by
      obtain rfl := hb.symm.trans hb'
      rw [hc.unique hc']

/-- Nodes that are numbered in the order of their `next` fields are a chain. -/
theorem chain_range' {a : ℕ → α} {i k : ℕ} (hne : ∀ j, i ≤ j → j < i + k → a j ≠ null)
    (hnext : ∀ j, i ≤ j → j + 1 < i + k → next (a j) = a (j + 1))
    (hlast : 0 < k → next (a (i + k - 1)) = null) (h0 : k = 0 → a i = null) :
    Chain null next (a i) ((List.range' i k).map a) := by
  induction k generalizing i with
  | zero => exact h0 rfl
  | succ k ih =>
    rw [List.range'_succ, List.map_cons]
    refine ⟨rfl, hne i le_rfl (by omega), ?_⟩
    cases k with
    | zero => exact hlast (by omega)
    | succ k =>
      rw [hnext i le_rfl (by omega)]
      refine ih (fun j hj hj' => hne j (by omega) (by omega))
        (fun j hj hj' => hnext j (by omega) (by omega)) (fun _ => ?_) (by omega)
      rw [show i + 1 + (k + 1) - 1 = i + (k + 1 + 1) - 1 by omega]
      exact hlast (by omega)

/-! ## Doubly linked chains -/

@[simp] theorem linked_nil : Linked null next prev p h [] ↔ h = null := Iff.rfl

@[simp] theorem linked_cons {bs : List α} :
    Linked null next prev p h (b :: bs) ↔
      h = b ∧ b ≠ null ∧ prev b = p ∧ Linked null next prev b (next b) bs := Iff.rfl

theorem Linked.chain : ∀ {p h : α} {l : List α}, Linked null next prev p h l →
    Chain null next h l
  | _, _, [], hl => hl
  | _, _, _ :: _, ⟨hb, hne, _, hl⟩ => ⟨hb, hne, hl.chain⟩

/-- **The frame rule**: a linked list reads the fields of its own nodes only. -/
theorem Linked.congr : ∀ {p h : α} {l : List α}, Linked null next prev p h l →
    (∀ x ∈ l, next' x = next x) → (∀ x ∈ l, prev' x = prev x) → Linked null next' prev' p h l
  | _, _, [], hl, _, _ => hl
  | _, _, b :: bs, ⟨hb, hne, hp, hl⟩, hn, hv => by
      refine ⟨hb, hne, (hv b List.mem_cons_self).trans hp, ?_⟩
      rw [hn b List.mem_cons_self]
      exact hl.congr (fun x hx => hn x (List.mem_cons_of_mem _ hx))
        fun x hx => hv x (List.mem_cons_of_mem _ hx)

/-- Every `prev` field names the start of the list or a node of it. -/
theorem Linked.prev_mem : ∀ {p h : α} {l : List α}, Linked null next prev p h l →
    ∀ x ∈ l, prev x = p ∨ prev x ∈ l
  | _, _, [], _, _, hx => absurd hx (by simp)
  | _, _, b :: bs, ⟨_, _, hp, hl⟩, x, hx => by
      rcases List.mem_cons.mp hx with rfl | hx
      · exact Or.inl hp
      · rcases hl.prev_mem x hx with h | h
        · exact Or.inr (h ▸ List.mem_cons_self)
        · exact Or.inr (List.mem_cons_of_mem _ h)

/-- Every `next` field names a node of the list or is `null`. -/
theorem Linked.next_mem : ∀ {p h : α} {l : List α}, Linked null next prev p h l →
    ∀ x ∈ l, next x = null ∨ next x ∈ l
  | _, _, [], _, _, hx => absurd hx (by simp)
  | _, _, b :: bs, ⟨_, _, _, hl⟩, x, hx => by
      rcases List.mem_cons.mp hx with rfl | hx
      · cases bs with
        | nil => exact Or.inl hl
        | cons c cs => exact Or.inr (by rw [hl.1]; simp)
      · exact (hl.next_mem x hx).imp_right (List.mem_cons_of_mem _)

/-- No node is its own predecessor. -/
theorem Linked.prev_ne : ∀ {p h : α} {l : List α}, Linked null next prev p h l → l.Nodup →
    p ∉ l → ∀ x ∈ l, prev x ≠ x
  | _, _, [], _, _, _, _, hx => absurd hx (by simp)
  | p, _, b :: bs, ⟨_, _, hpb, hl⟩, hnd, hp, x, hx => by
      obtain ⟨hb, hnd⟩ := List.nodup_cons.mp hnd
      rcases List.mem_cons.mp hx with rfl | hx
      · exact fun h => hp (by rw [← hpb, h]; simp)
      · exact hl.prev_ne hnd hb x hx

/-- A node's predecessor leads back to it. -/
theorem Linked.next_prev : ∀ {p h : α} {l : List α}, Linked null next prev p h l →
    ∀ x ∈ l, prev x = p ∧ h = x ∨ next (prev x) = x
  | _, _, [], _, _, hx => absurd hx (by simp)
  | _, _, b :: bs, ⟨hb, _, hp, hl⟩, x, hx => by
      rcases List.mem_cons.mp hx with rfl | hx
      · exact Or.inl ⟨hp, hb⟩
      · rcases hl.next_prev x hx with ⟨h1, h2⟩ | h
        · exact Or.inr (by rw [h1, h2])
        · exact Or.inr h

/-- A node's successor leads back to it. -/
theorem Linked.prev_next : ∀ {p h : α} {l : List α}, Linked null next prev p h l →
    ∀ x ∈ l, next x = null ∨ prev (next x) = x
  | _, _, [], _, _, hx => absurd hx (by simp)
  | _, _, b :: bs, ⟨_, _, _, hl⟩, x, hx => by
      rcases List.mem_cons.mp hx with rfl | hx
      · cases bs with
        | nil => exact Or.inl hl
        | cons c cs => exact Or.inr (by rw [hl.1]; exact hl.2.2.1)
      · exact hl.prev_next x hx

/-- The head is `null` or a node of the list. -/
theorem Linked.head_mem (hl : Linked null next prev p h l) : h = null ∨ h ∈ l := by
  cases l with
  | nil => exact Or.inl hl
  | cons b bs => exact Or.inr (by rw [hl.1]; simp)

/-- **Pushing a node at the front.** -/
theorem Linked.push (hl : Linked null next prev null h l) (hnd : l.Nodup) (hb : b ≠ null)
    (hnb : next' b = h) (hpb : prev' b = null) (hph : h ≠ null → prev' h = b)
    (hn : ∀ x ∈ l, next' x = next x) (hp : ∀ x ∈ l, x ≠ h → prev' x = prev x) :
    Linked null next' prev' null b (b :: l) := by
  refine ⟨rfl, hb, hpb, ?_⟩
  rw [hnb]
  cases l with
  | nil => exact hl
  | cons c cs =>
    obtain ⟨rfl, hne, -, hl⟩ := hl
    refine ⟨rfl, hne, hph hne, ?_⟩
    rw [hn h List.mem_cons_self]
    refine hl.congr (fun x hx => hn x (List.mem_cons_of_mem _ hx)) fun x hx => ?_
    refine hp x (List.mem_cons_of_mem _ hx) fun hxh => ?_
    exact (List.nodup_cons.mp hnd).1 (hxh ▸ hx)

/-- **Taking the first node off.** -/
theorem Linked.pop {bs : List α} (hl : Linked null next prev null h (b :: bs)) (hnd : bs.Nodup)
    (hph : next b ≠ null → prev' (next b) = null) (hn : ∀ x ∈ bs, next' x = next x)
    (hp : ∀ x ∈ bs, x ≠ next b → prev' x = prev x) : Linked null next' prev' null (next b) bs := by
  obtain ⟨-, -, -, hl⟩ := hl
  cases bs with
  | nil => exact hl
  | cons c cs =>
    obtain ⟨hc, hne, -, hl⟩ := hl
    refine ⟨hc, hne, ?_, ?_⟩
    · rw [← hc]
      exact hph (hc ▸ hne)
    · rw [hn c List.mem_cons_self]
      refine hl.congr (fun x hx => hn x (List.mem_cons_of_mem _ hx)) fun x hx => ?_
      refine hp x (List.mem_cons_of_mem _ hx) fun hxc => ?_
      exact (List.nodup_cons.mp hnd).1 (hxc.trans hc ▸ hx)

variable [DecidableEq α]

/-- **Unlinking a node**, read from an arbitrary start: only the `next` field of its predecessor
and the `prev` field of its successor change. -/
theorem Linked.remove_aux : ∀ {p h : α} {l : List α}, Linked null next prev p h l → l.Nodup →
    p ∉ l → b ∈ l →
    (∀ x ∈ l, x ≠ b → next' x = if x = prev b then next b else next x) →
    (∀ x ∈ l, x ≠ b → prev' x = if x = next b then prev b else prev x) →
    Linked null next' prev' p (if prev b = p then next b else h) (l.erase b)
  | _, _, [], _, _, _, hb, _, _ => absurd hb (by simp)
  | p, h, a :: t, hl, hnd, hp, hb, hn, hv => by
      obtain ⟨rfl, hne, hpa, hl⟩ := hl
      obtain ⟨hat, hndt⟩ := List.nodup_cons.mp hnd
      by_cases hba : b = h
      · -- the first node goes: its successor becomes the first one
        subst hba
        rw [List.erase_cons_head, if_pos hpa]
        cases t with
        | nil => exact hl
        | cons c cs =>
          obtain ⟨hc, hcne, hpc, hl⟩ := hl
          have hbc : c ≠ b := fun h => hat (h ▸ List.mem_cons_self)
          have hpc' : c ≠ p := fun h => hp (h ▸ by simp)
          refine ⟨hc, hcne, ?_, ?_⟩
          · rw [hv c (by simp) hbc, if_pos hc.symm, hpa]
          · rw [hn c (by simp) hbc, hpa, if_neg hpc']
            refine hl.congr (fun x hx => ?_) fun x hx => ?_
            · have hxb : x ≠ b := ne_of_mem_of_not_mem (List.mem_cons_of_mem _ hx) hat
              have hxp : x ≠ p := fun h => hp (h ▸ by simp [hx])
              rw [hn x (by simp [hx]) hxb, hpa, if_neg hxp]
            · have hxb : x ≠ b := ne_of_mem_of_not_mem (List.mem_cons_of_mem _ hx) hat
              have hxc : x ≠ next b := fun h =>
                (List.nodup_cons.mp hndt).1 (h.trans hc ▸ hx)
              rw [hv x (by simp [hx]) hxb, if_neg hxc]
      · have hbt : b ∈ t := (List.mem_cons.mp hb).resolve_left hba
        have hpb : prev b ≠ p := fun hpb => by
          rcases hl.prev_mem b hbt with h1 | h1
          · exact hp (by rw [← hpb, h1]; simp)
          · exact hp (by rw [← hpb]; exact List.mem_cons_of_mem _ h1)
        have hhb : h ≠ b := fun h1 => hba h1.symm
        have hhn : h ≠ next b := fun h1 => by
          rcases hl.next_mem b hbt with h2 | h2
          · exact hne (h1.trans h2)
          · exact hat (h1 ▸ h2)
        rw [List.erase_cons_tail (by simpa using hhb), if_neg hpb]
        refine ⟨rfl, hne, ?_, ?_⟩
        · rw [hv h (by simp) hhb, if_neg hhn, hpa]
        · rw [hn h (by simp) hhb, show (if h = prev b then next b else next h)
            = if prev b = h then next b else next h by simp [eq_comm]]
          exact hl.remove_aux hndt hat hbt
            (fun x hx => hn x (List.mem_cons_of_mem _ hx))
            fun x hx => hv x (List.mem_cons_of_mem _ hx)

/-- **Unlinking a node of a list.** -/
theorem Linked.remove (hl : Linked null next prev null h l) (hnd : l.Nodup) (hb : b ∈ l)
    (hn : ∀ x ∈ l, x ≠ b → next' x = if x = prev b then next b else next x)
    (hv : ∀ x ∈ l, x ≠ b → prev' x = if x = next b then prev b else prev x) :
    Linked null next' prev' null (if prev b = null then next b else h) (l.erase b) :=
  hl.remove_aux hnd (fun hmem => hl.chain.ne_null _ hmem rfl) hb hn hv

end Intrusive
