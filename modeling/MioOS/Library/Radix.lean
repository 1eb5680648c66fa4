import Mathlib.Tactic

/-!
# Library/Radix — multi-level tables in a heap

A heap maps a node and an index to an entry; read at a level, an entry is empty, a leaf, or names
the table one level down.  `trail` is what a walk along a path of indices meets on its way to a
leaf, `descend` the table a path of tables ends in.

Writing one entry changes the walks that visit its slot and no others (`trail_write_of_not_visits`).
Which walks these are depends on how tables are shared: `Separate` bounds the sharing by an
`Aliasing` of paths, and equality of paths, the finest aliasing, says that the tables form a tree.
-/

namespace Radix

variable {N I E : Type*}

/-- What an entry says at one level. -/
inductive View (N : Type*)
  | empty
  | leaf
  | table (n : N)

theorem View.empty_ne_table {N : Type*} (n : N) : View.empty ≠ .table n := by simp

theorem View.leaf_ne_table {N : Type*} (n : N) : View.leaf ≠ .table n := by simp

/-- **A format**: how entries are read at each level.  Whether an entry is empty does not depend on
the level, and level 0 names no tables. -/
structure Format (N E : Type*) where
  present : E → Bool
  view : ℕ → E → View N
  view_eq_empty_iff : ∀ l e, view l e = .empty ↔ present e = false
  bottom : ∀ e n, view 0 e ≠ .table n

variable (F : Format N E)

/-- **The entries a walk meets** from a table of level `l` to the leaf, if there is one. -/
def trail (h : N → I → E) : ℕ → N → List I → Option (List E)
  | _, _, [] => none
  | l, n, i :: is =>
    match F.view l (h n i) with
    | .empty => none
    | .leaf => some [h n i]
    | .table m => (trail h (l - 1) m is).map (h n i :: ·)

/-- **The table at the end of a path** through tables, from a table of level `l`. -/
def descend (h : N → I → E) : ℕ → N → List I → Option N
  | _, n, [] => some n
  | l, n, i :: is =>
    match F.view l (h n i) with
    | .table m => descend h (l - 1) m is
    | .empty | .leaf => none

/-- The entries along a path through tables. -/
def spine (h : N → I → E) : ℕ → N → List I → List E
  | _, _, [] => []
  | l, n, i :: is =>
    h n i ::
      match F.view l (h n i) with
      | .table m => spine h (l - 1) m is
      | .empty | .leaf => []

/-- **A walk visits a slot** of a table it descends to. -/
def Visits (h : N → I → E) (l : ℕ) (n : N) (v : List I) (m : N) (j : I) : Prop :=
  ∃ p rest, v = p ++ j :: rest ∧ descend F h l n p = some m

/-- Writing one entry. -/
def write [DecidableEq N] [DecidableEq I] (h : N → I → E) (n : N) (i : I) (e : E) : N → I → E :=
  Function.update h n (Function.update (h n) i e)

/-- **The present entries of the tables in use are kept.** -/
def Extends (h h' : N → I → E) (l : ℕ) (r : N) : Prop :=
  ∀ p n i, descend F h l r p = some n → F.present (h n i) = true → h' n i = h n i

variable {F} {h h' : N → I → E} {l : ℕ} {n m r t : N} {i j : I} {p q v rest : List I} {e : E}

/-! ## Walks -/

theorem descend_cons_of_table (hview : F.view l (h n i) = .table m) :
    descend F h l n (i :: p) = descend F h (l - 1) m p := by
  rw [descend, hview]

theorem descend_append :
    descend F h l n (p ++ q) = (descend F h l n p).bind fun m => descend F h (l - p.length) m q := by
  induction p generalizing l n with
  | nil => rfl
  | cons i is ih =>
    rw [List.cons_append, descend, descend]
    cases F.view l (h n i) with
    | empty => rfl
    | leaf => rfl
    | table m => simp only [ih, List.length_cons, Nat.sub_sub, Nat.add_comm 1]

/-- One level further down. -/
theorem descend_snoc (hp : descend F h l r p = some n)
    (hview : F.view (l - p.length) (h n i) = .table m) :
    descend F h l r (p ++ [i]) = some m := by
  rw [descend_append, hp, Option.bind_some, descend, hview]
  rfl

/-- The last step of a descent. -/
theorem descend_append_cons (hp : descend F h l r p = some n)
    (hq : descend F h l r (p ++ i :: rest) = some t) :
    ∃ m, F.view (l - p.length) (h n i) = .table m ∧
      descend F h (l - p.length - 1) m rest = some t := by
  rw [descend_append, hp, Option.bind_some, descend] at hq
  cases hview : F.view (l - p.length) (h n i) with
  | empty => rw [hview] at hq; exact absurd hq.symm (Option.some_ne_none t)
  | leaf => rw [hview] at hq; exact absurd hq.symm (Option.some_ne_none t)
  | table m => rw [hview] at hq; exact ⟨m, rfl, hq⟩

theorem length_spine (hp : descend F h l r p = some n) : (spine F h l r p).length = p.length := by
  induction p generalizing l r with
  | nil => rfl
  | cons i is ih =>
    rw [descend] at hp
    rw [spine, List.length_cons, List.length_cons]
    cases hview : F.view l (h r i) with
    | empty => rw [hview] at hp; exact absurd hp.symm (Option.some_ne_none n)
    | leaf => rw [hview] at hp; exact absurd hp.symm (Option.some_ne_none n)
    | table m => rw [hview] at hp; rw [ih hp]

/-- The entries along a path, one step further. -/
theorem spine_snoc (hp : descend F h l r p = some n) :
    spine F h l r (p ++ [i]) = spine F h l r p ++ [h n i] := by
  induction p generalizing l r with
  | nil =>
    obtain rfl := Option.some.inj hp
    show spine F h l r [i] = [h r i]
    rw [spine]
    cases F.view l (h r i) <;> rfl
  | cons j is ih =>
    rw [descend] at hp
    rw [List.cons_append, spine, spine]
    cases hview : F.view l (h r j) with
    | empty => rw [hview] at hp; exact absurd hp.symm (Option.some_ne_none n)
    | leaf => rw [hview] at hp; exact absurd hp.symm (Option.some_ne_none n)
    | table m =>
      rw [hview] at hp
      simp only [ih hp]
      rfl

/-- The tables before the last one of a path. -/
theorem descend_of_snoc (hp : descend F h l r (p ++ [i]) = some t) :
    ∃ n, descend F h l r p = some n ∧ F.view (l - p.length) (h n i) = .table t := by
  rw [descend_append] at hp
  obtain ⟨n, hn, hlast⟩ := Option.bind_eq_some_iff.mp hp
  rw [descend] at hlast
  refine ⟨n, hn, ?_⟩
  cases hview : F.view (l - p.length) (h n i) with
  | empty => rw [hview] at hlast; exact absurd hlast.symm (Option.some_ne_none t)
  | leaf => rw [hview] at hlast; exact absurd hlast.symm (Option.some_ne_none t)
  | table m =>
    rw [hview] at hlast
    obtain rfl := Option.some.inj hlast
    rfl

/-- **The entries along a path name its tables.** -/
theorem mem_spine (hp : descend F h l r p = some n) (he : e ∈ spine F h l r p) :
    ∃ q m i t, q ++ [i] <+: p ∧ descend F h l r q = some m ∧ e = h m i ∧
      F.view (l - q.length) (h m i) = .table t := by
  induction p using List.reverseRecOn generalizing n with
  | nil => exact absurd he List.not_mem_nil
  | append_singleton p i ih =>
    obtain ⟨m, hm, hview⟩ := descend_of_snoc hp
    rw [spine_snoc hm, List.mem_append, List.mem_singleton] at he
    rcases he with he | rfl
    · obtain ⟨q, m', j, t, hq, hdescend, heq, ht⟩ := ih hm he
      exact ⟨q, m', j, t, hq.trans (List.prefix_append p [i]), hdescend, heq, ht⟩
    · exact ⟨p, m, i, n, List.prefix_rfl, hm, rfl, hview⟩

/-- A walk through a path of tables. -/
theorem trail_append (hp : descend F h l r p = some n) :
    trail F h l r (p ++ v) = (trail F h (l - p.length) n v).map (spine F h l r p ++ ·) := by
  induction p generalizing l r with
  | nil =>
    obtain rfl := Option.some.inj hp
    exact Option.map_id'.symm
  | cons i is ih =>
    rw [descend] at hp
    rw [List.cons_append, trail, spine]
    cases hview : F.view l (h r i) with
    | empty => rw [hview] at hp; exact absurd hp.symm (Option.some_ne_none n)
    | leaf => rw [hview] at hp; exact absurd hp.symm (Option.some_ne_none n)
    | table m =>
      rw [hview] at hp
      simp only [ih hp, Option.map_map, List.length_cons, Nat.sub_sub, Nat.add_comm 1]
      rfl

/-- A walk to a leaf meets an entry. -/
theorem trail_ne_nil {es : List E} (hes : trail F h l n v = some es) : es ≠ [] := by
  rintro rfl
  cases v with
  | nil => exact absurd hes.symm (Option.some_ne_none _)
  | cons i v =>
    rw [trail] at hes
    split at hes
    · exact absurd hes.symm (Option.some_ne_none _)
    · exact absurd (Option.some.inj hes) (List.cons_ne_nil _ _)
    · obtain ⟨es, -, heq⟩ := Option.map_eq_some_iff.mp hes
      exact absurd heq (List.cons_ne_nil _ _)

theorem Visits.cons (hview : F.view l (h n i) = .table m) {m' : N}
    (hv : Visits F h (l - 1) m v m' j) : Visits F h l n (i :: v) m' j := by
  obtain ⟨p, rest, rfl, hp⟩ := hv
  exact ⟨i :: p, rest, rfl, (descend_cons_of_table hview).trans hp⟩

/-- **A walk depends on the slots it visits only.** -/
theorem trail_congr (heq : ∀ m j, Visits F h l n v m j → h' m j = h m j) :
    trail F h' l n v = trail F h l n v := by
  induction v generalizing l n with
  | nil => rfl
  | cons i is ih =>
    have hhead : h' n i = h n i := heq n i ⟨[], is, rfl, rfl⟩
    rw [trail, trail, hhead]
    cases hview : F.view l (h n i) with
    | empty => rfl
    | leaf => rfl
    | table m =>
      have hrest := ih fun m' j hv => heq m' j (hv.cons hview)
      simp only [hrest]

theorem descend_congr (heq : ∀ m j, Visits F h l n v m j → h' m j = h m j) :
    descend F h' l n v = descend F h l n v := by
  induction v generalizing l n with
  | nil => rfl
  | cons i is ih =>
    have hhead : h' n i = h n i := heq n i ⟨[], is, rfl, rfl⟩
    rw [descend, descend, hhead]
    cases hview : F.view l (h n i) with
    | empty => rfl
    | leaf => rfl
    | table m => exact ih fun m' j hv => heq m' j (hv.cons hview)

theorem spine_congr (heq : ∀ m j, Visits F h l n v m j → h' m j = h m j) :
    spine F h' l n v = spine F h l n v := by
  induction v generalizing l n with
  | nil => rfl
  | cons i is ih =>
    have hhead : h' n i = h n i := heq n i ⟨[], is, rfl, rfl⟩
    rw [spine, spine, hhead]
    cases hview : F.view l (h n i) with
    | empty => rfl
    | leaf => rfl
    | table m =>
      have hrest := ih fun m' j hv => heq m' j (hv.cons hview)
      simp only [hrest]

/-! ## Heaps that keep what is present -/

theorem present_of_view (hview : F.view l e ≠ .empty) : F.present e = true := by
  rw [ne_eq, F.view_eq_empty_iff, Bool.not_eq_false] at hview
  exact hview

theorem Extends.refl (h : N → I → E) (l : ℕ) (r : N) : Extends F h h l r := fun _ _ _ _ _ => rfl

/-- A descent is kept. -/
theorem Extends.descend (hx : Extends F h h' l r) (hp : Radix.descend F h l r p = some n) :
    Radix.descend F h' l r p = some n := by
  rw [← hp]
  refine descend_congr ?_
  rintro m j ⟨q, rest, rfl, hq⟩
  obtain ⟨m', hview, -⟩ := descend_append_cons hq hp
  exact hx q m j hq (present_of_view (by rw [hview]; nofun))

/-- A walk to a leaf is kept. -/
theorem Extends.trail (hx : Extends F h h' l r) {es : List E}
    (hv : Radix.trail F h l r v = some es) : Radix.trail F h' l r v = some es := by
  rw [← hv]
  refine trail_congr ?_
  rintro m j ⟨q, rest, rfl, hq⟩
  refine hx q m j hq (present_of_view (l := l - q.length) fun hview => ?_)
  rw [trail_append hq, Radix.trail, hview] at hv
  exact absurd hv.symm (Option.some_ne_none es)

theorem Extends.trans {h'' : N → I → E} (h₁ : Extends F h h' l r) (h₂ : Extends F h' h'' l r) :
    Extends F h h'' l r := by
  intro p n i hp hpresent
  have heq := h₁ p n i hp hpresent
  rw [h₂ p n i (h₁.descend hp) (by rw [heq]; exact hpresent), heq]

/-! ## Sharing -/

/-- **An aliasing of paths**: paths that may lead to one table.  They have one length, and stay
aliased when extended by one index. -/
structure Aliasing (I : Type*) where
  rel : List I → List I → Prop
  refl : ∀ p, rel p p
  length_eq : ∀ {p q}, rel p q → p.length = q.length
  snoc : ∀ {p q} (i : I), rel p q → rel (p ++ [i]) (q ++ [i])

/-- **The finest aliasing**: no two paths lead to one table. -/
def Aliasing.tree (I : Type*) : Aliasing I where
  rel := Eq
  refl := fun _ => rfl
  length_eq := congrArg List.length
  snoc := fun i => congrArg (· ++ [i])

/-- **Sharing is bounded by an aliasing.** -/
def Separate (F : Format N E) (A : Aliasing I) (h : N → I → E) (l : ℕ) (r : N) : Prop :=
  ∀ p q t, descend F h l r p = some t → descend F h l r q = some t → A.rel p q

variable {A : Aliasing I}

/-- The walks that visit a slot go through an alias of its path. -/
theorem Separate.of_visits (hsep : Separate F A h l r) (hp : descend F h l r p = some n)
    (hv : Visits F h l r v n i) : A.rel (v.take (p.length + 1)) (p ++ [i]) := by
  obtain ⟨q, rest, rfl, hq⟩ := hv
  have hrel := hsep q p n hq hp
  rw [← A.length_eq hrel, List.take_append, List.take_of_length_le (by omega),
    Nat.add_sub_cancel_left]
  exact A.snoc i hrel

/-- No descent goes through a slot that names no table. -/
theorem Separate.not_visits_of_descend (hsep : Separate F A h l r)
    (hp : descend F h l r p = some n)
    (hslot : ∀ m, F.view (l - p.length) (h n i) ≠ .table m)
    (hq : descend F h l r q = some t) : ¬ Visits F h l r q n i := by
  rintro ⟨q₁, q₂, rfl, hq₁⟩
  obtain ⟨m, hview, -⟩ := descend_append_cons hq₁ hq
  rw [A.length_eq (hsep q₁ p n hq₁ hp)] at hview
  exact hslot m hview

/-- From a blank table there is no further descent. -/
theorem descend_blank (hblank : ∀ j, F.present (h m j) = false)
    (hq : descend F h l m q = some t) : q = [] ∧ t = m := by
  cases q with
  | nil => exact ⟨rfl, (Option.some.inj hq).symm⟩
  | cons j q =>
    rw [descend, (F.view_eq_empty_iff l (h m j)).mpr (hblank j)] at hq
    exact absurd hq.symm (Option.some_ne_none t)

theorem trail_blank (hblank : ∀ j, F.present (h m j) = false) : trail F h l m v = none := by
  cases v with
  | nil => rfl
  | cons j v => rw [trail, (F.view_eq_empty_iff l (h m j)).mpr (hblank j)]

/-- An absent slot names no table. -/
theorem slot_of_absent (habsent : F.present (h n i) = false) (m : N) :
    F.view l (h n i) ≠ .table m := by
  rw [(F.view_eq_empty_iff _ _).mpr habsent]
  nofun

section Write

variable [DecidableEq N] [DecidableEq I]

theorem write_same (h : N → I → E) (n : N) (i : I) (e : E) : write h n i e n i = e := by
  rw [write, Function.update_self, Function.update_self]

theorem write_of_ne (hne : ¬ (m = n ∧ j = i)) : write h n i e m j = h m j := by
  rw [write]
  by_cases hm : m = n
  · subst hm
    rw [Function.update_self, Function.update_of_ne fun hj => hne ⟨rfl, hj⟩]
  · rw [Function.update_of_ne hm]

/-- Writing an absent entry keeps what is present. -/
theorem extends_write (habsent : F.present (h n i) = false) :
    Extends F h (write h n i e) l r := by
  intro p m j _ hpresent
  refine write_of_ne ?_
  rintro ⟨rfl, rfl⟩
  exact Bool.false_ne_true (habsent.symm.trans hpresent)

/-- **Frame**: a walk that does not visit the slot is not changed. -/
theorem trail_write_of_not_visits (hv : ¬ Visits F h l r v n i) :
    trail F (write h n i e) l r v = trail F h l r v := by
  refine trail_congr fun m j hvis => write_of_ne ?_
  rintro ⟨rfl, rfl⟩
  exact hv hvis

section Slot

variable (hsep : Separate F A h l r) (hp : descend F h l r p = some n)
  (hslot : ∀ m, F.view (l - p.length) (h n i) ≠ .table m)

include hsep hp hslot

/-- A slot that names no table carries no descent, so writing it keeps them all. -/
theorem descend_write (hq : descend F h l r q = some t) :
    descend F (write h n i e) l r q = some t := by
  rw [← hq]
  refine descend_congr fun m j hvis => write_of_ne ?_
  rintro ⟨rfl, rfl⟩
  exact hsep.not_visits_of_descend hp hslot hq hvis

theorem spine_write (hq : descend F h l r q = some t) :
    spine F (write h n i e) l r q = spine F h l r q := by
  refine spine_congr fun m j hvis => write_of_ne ?_
  rintro ⟨rfl, rfl⟩
  exact hsep.not_visits_of_descend hp hslot hq hvis

/-- The descents after a write are the old ones and those through the new entry. -/
theorem descend_write_cases (hq : descend F (write h n i e) l r q = some t) :
    descend F h l r q = some t ∨ ∃ q₁ q₂ m, q = q₁ ++ i :: q₂ ∧ descend F h l r q₁ = some n ∧
      F.view (l - p.length) e = .table m ∧
      descend F (write h n i e) (l - p.length - 1) m q₂ = some t := by
  by_cases hv : Visits F h l r q n i
  · obtain ⟨q₁, q₂, rfl, hq₁⟩ := hv
    obtain ⟨m, hview, hrest⟩ := descend_append_cons (descend_write hsep hp hslot hq₁) hq
    rw [write_same, A.length_eq (hsep q₁ p n hq₁ hp)] at hview
    rw [A.length_eq (hsep q₁ p n hq₁ hp)] at hrest
    exact Or.inr ⟨q₁, q₂, m, rfl, hq₁, hview, hrest⟩
  · refine Or.inl ?_
    rw [← hq]
    refine (descend_congr fun m j hvis => write_of_ne ?_).symm
    rintro ⟨rfl, rfl⟩
    exact hv hvis

/-- **A walk through the slot** goes on at the new entry. -/
theorem trail_write_of_descend (hq : descend F h l r q = some n) :
    trail F (write h n i e) l r (q ++ i :: rest)
      = (trail F (write h n i e) (l - p.length) n (i :: rest)).map (spine F h l r q ++ ·) := by
  rw [trail_append (descend_write hsep hp hslot hq), spine_write hsep hp hslot hq,
    A.length_eq (hsep q p n hq hp)]

/-- The slot gets a leaf. -/
theorem trail_write_leaf (he : F.view (l - p.length) e = .leaf) :
    trail F (write h n i e) l r (p ++ i :: rest) = some (spine F h l r p ++ [e]) := by
  rw [trail_write_of_descend hsep hp hslot hp, trail, write_same, he]
  rfl

/-- The slot is cleared. -/
theorem trail_write_empty (he : F.view (l - p.length) e = .empty) :
    trail F (write h n i e) l r (p ++ i :: rest) = none := by
  rw [trail_write_of_descend hsep hp hslot hp, trail, write_same, he]
  rfl

/-- An entry that names no table adds no sharing. -/
theorem separate_write (he : ∀ m, F.view (l - p.length) e ≠ .table m) :
    Separate F A (write h n i e) l r := by
  have hback : ∀ q t, descend F (write h n i e) l r q = some t → descend F h l r q = some t := by
    intro q t hq
    rcases descend_write_cases hsep hp hslot hq with hq | ⟨q₁, q₂, m, -, -, hview, -⟩
    · exact hq
    · exact absurd hview (he m)
  exact fun q q' t hq hq' => hsep q q' t (hback q t hq) (hback q' t hq')

/-- A descent after a write of a non-table was there before. -/
theorem descend_of_write (he : ∀ m, F.view (l - p.length) e ≠ .table m)
    (hq : descend F (write h n i e) l r q = some t) : descend F h l r q = some t := by
  rcases descend_write_cases hsep hp hslot hq with hq | ⟨q₁, q₂, m, -, -, hview, -⟩
  · exact hq
  · exact absurd hview (he m)

end Slot

/-! ## Outside the tables -/

section Outside

variable (hfresh : ∀ q, descend F h l r q ≠ some m) (hout : ∀ n i, n ≠ m → h' n i = h n i)

include hfresh hout

omit [DecidableEq N] [DecidableEq I]

/-- No walk visits a node that no path leads to. -/
theorem eq_of_visits_outside {n : N} {i : I} (hv : Visits F h l r v n i) : h' n i = h n i := by
  obtain ⟨q, rest, -, hq⟩ := hv
  exact hout n i fun heq => hfresh q (heq ▸ hq)

theorem trail_outside : trail F h' l r v = trail F h l r v :=
  trail_congr fun _ _ => eq_of_visits_outside hfresh hout

theorem descend_outside : descend F h' l r q = descend F h l r q :=
  descend_congr fun _ _ => eq_of_visits_outside hfresh hout

theorem extends_outside : Extends F h h' l r := by
  intro p n i hp _
  exact hout n i fun heq => hfresh p (heq ▸ hp)

theorem separate_outside (hsep : Separate F A h l r) : Separate F A h' l r := by
  intro p q t hp hq
  rw [descend_outside hfresh hout] at hp hq
  exact hsep p q t hp hq

end Outside

/-! ## A new table -/

/-- **A new table can be entered**: the slot at the end of a path is empty, and the node is blank
and at the end of no path. -/
structure Insertion (F : Format N E) (A : Aliasing I) (h : N → I → E) (l : ℕ) (r : N) (p : List I)
    (n : N) (i : I) (m : N) (e : E) : Prop where
  separate : Separate F A h l r
  table : descend F h l r p = some n
  absent : F.present (h n i) = false
  blank : ∀ j, F.present (h m j) = false
  fresh : ∀ q, descend F h l r q ≠ some m
  view : F.view (l - p.length) e = .table m

namespace Insertion

variable (H : Insertion F A h l r p n i m e)

include H

omit [DecidableEq N] [DecidableEq I] in
theorem ne : m ≠ n := fun heq => H.fresh p (heq ▸ H.table)

omit [DecidableEq N] [DecidableEq I] in
theorem slot (t : N) : F.view (l - p.length) (h n i) ≠ .table t := slot_of_absent H.absent t

/-- The new table stays blank. -/
theorem blank_write (j : I) : F.present (write h n i e m j) = false := by
  rw [write_of_ne fun heq => H.ne heq.1]
  exact H.blank j

/-- **No walk changes.** -/
theorem trail : Radix.trail F (write h n i e) l r v = Radix.trail F h l r v := by
  by_cases hv : Visits F h l r v n i
  · obtain ⟨q, rest, rfl, hq⟩ := hv
    rw [trail_write_of_descend H.separate H.table H.slot hq, Radix.trail, write_same, H.view,
      trail_append hq, Radix.trail, (F.view_eq_empty_iff _ _).mpr H.absent]
    simp only [trail_blank H.blank_write, Option.map_none]
  · exact trail_write_of_not_visits hv

/-- The descents are the old ones, and those to the new table. -/
theorem descend_cases (hq : descend F (write h n i e) l r q = some t) :
    descend F h l r q = some t ∨ t = m ∧ ∃ q₁, q = q₁ ++ [i] ∧ descend F h l r q₁ = some n := by
  rcases descend_write_cases H.separate H.table H.slot hq with
    hq | ⟨q₁, q₂, m', rfl, hq₁, hview, hrest⟩
  · exact Or.inl hq
  · obtain rfl : m = m' := View.table.inj (H.view.symm.trans hview)
    obtain ⟨rfl, rfl⟩ := descend_blank H.blank_write hrest
    exact Or.inr ⟨rfl, q₁, rfl, hq₁⟩

/-- **No sharing is added.** -/
theorem separate_write : Separate F A (write h n i e) l r := by
  intro q q' t hq hq'
  rcases H.descend_cases hq with hold | ⟨rfl, q₁, rfl, hq₁⟩
  · rcases H.descend_cases hq' with hold' | ⟨rfl, -⟩
    · exact H.separate q q' t hold hold'
    · exact absurd hold (H.fresh q)
  · rcases H.descend_cases hq' with hold' | ⟨-, q₂, rfl, hq₂⟩
    · exact absurd hold' (H.fresh q')
    · exact A.snoc i (H.separate q₁ q₂ n hq₁ hq₂)

/-- The path to the new table. -/
theorem descend_new : descend F (write h n i e) l r (p ++ [i]) = some m := by
  refine descend_snoc (descend_write H.separate H.table H.slot H.table) ?_
  rw [write_same, H.view]

end Insertion

omit [DecidableEq I] in
/-- **A node outside is blanked first.** -/
theorem insertion_of_blanked {blank : I → E} (hsep : Separate F A h l r)
    (hp : descend F h l r p = some n) (habsent : F.present (h n i) = false)
    (hblank : ∀ j, F.present (blank j) = false) (hfresh : ∀ q, descend F h l r q ≠ some m)
    (he : F.view (l - p.length) e = .table m) :
    Insertion F A (Function.update h m blank) l r p n i m e := by
  have hout : ∀ k j, k ≠ m → Function.update h m blank k j = h k j := fun k j hk => by
    rw [Function.update_of_ne hk]
  refine ⟨separate_outside hfresh hout hsep, (descend_outside hfresh hout).trans hp, ?_, ?_, ?_, he⟩
  · rw [hout n i fun heq => hfresh p (heq ▸ hp), habsent]
  · intro j
    rw [Function.update_self]
    exact hblank j
  · intro q
    rw [descend_outside hfresh hout]
    exact hfresh q

end Write

end Radix
