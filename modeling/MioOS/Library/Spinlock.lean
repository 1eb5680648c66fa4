import Mathlib.Data.Set.Basic
import Mathlib.Logic.Function.Basic
import Mathlib.Logic.Relation

/-!
# Library/Spinlock — programs under a lock, action by action

Threads run programs over a shared state under one test-and-set lock, in any interleaving, and the
environment writes to the state in between.  `Exclusive` is mutual exclusion.  `Running` is what holds
of a program in the middle: it has done nothing yet that a run of it at once would not have done, from
a state `s₀` in which nobody held the lock.  When it returns, its run was one step from `s₀`, followed
by writes of the environment (`Running.returned`).

A program may make one `call` of code that the writes do not commute with; its other actions have to
commute with them (`OneCall`).  So the writes before the call are moved before the program, and those
after the call behind it.
-/

namespace Spinlock

/-- **A program**: what it does to the state, and how it goes on from what it has read. -/
inductive Prog (σ α : Type) where
  | ret (a : α)
  /-- It does not go on. -/
  | stuck
  | act (upd : σ → σ) (next : σ → Prog σ α)
  | call (upd : σ → σ) (next : σ → Prog σ α)

variable {ι Op σ α β γ : Type}

namespace Prog

/-- One program after the other. -/
def bind : Prog σ α → (α → Prog σ β) → Prog σ β
  | .ret a, k => k a
  | .stuck, _ => .stuck
  | .act upd next, k => .act upd fun s => (next s).bind k
  | .call upd next, k => .call upd fun s => (next s).bind k

instance instMonadProg : Monad (Prog σ) where
  pure := .ret
  bind := bind

/-- **A run at once**: the result and the state. -/
def run : Prog σ α → σ → Option (α × σ)
  | .ret a, s => some (a, s)
  | .stuck, _ => none
  | .act upd next, s => (next s).run (upd s)
  | .call upd next, s => (next s).run (upd s)

/-- One action. -/
inductive Next : Prog σ α × σ → Prog σ α × σ → Prop
  | act (upd : σ → σ) (next : σ → Prog σ α) (s : σ) : Next (.act upd next, s) (next s, upd s)
  | call (upd : σ → σ) (next : σ → Prog σ α) (s : σ) : Next (.call upd next, s) (next s, upd s)

/-- Any number of actions. -/
abbrev Leads (p : Prog σ α) (s : σ) (p' : Prog σ α) (s' : σ) : Prop :=
  Relation.ReflTransGen Next (p, s) (p', s')

variable {p p' : Prog σ α} {k : α → Prog σ β} {s s' : σ} {a : α} {b : β}

theorem run_bind (p : Prog σ α) (k : α → Prog σ β) (s : σ) :
    (p >>= k).run s = (p.run s).bind fun r => (k r.1).run r.2 := by
  induction p generalizing s with
  | ret a => rfl
  | stuck => rfl
  | act upd next ih => exact ih s (upd s)
  | call upd next ih => exact ih s (upd s)

theorem run_bind_eq (h : p.run s = some (a, s')) : (p >>= k).run s = (k a).run s' := by
  rw [run_bind, h, Option.bind_some]

@[simp] theorem run_pure (a : α) (s : σ) : (pure a : Prog σ α).run s = some (a, s) := rfl

theorem Next.run_eq {x y : Prog σ α × σ} (h : Next x y) : x.1.run x.2 = y.1.run y.2 := by
  cases h <;> rfl

/-- The actions so far do not change what a run returns. -/
theorem run_eq_of_leads {x y : Prog σ α × σ} (h : Relation.ReflTransGen Next x y) :
    x.1.run x.2 = y.1.run y.2 := by
  induction h with
  | refl => rfl
  | tail _ hnext ih => exact ih.trans hnext.run_eq

end Prog

/-! ## Independence of the environment's writes -/

section Independence

variable (W : Set (σ → σ)) (O : Set (σ → γ))

/-- The environment may write nothing, and write twice; the observations do not see its writes. -/
structure Writes : Prop where
  id_mem : id ∈ W
  comp_mem : ∀ w ∈ W, ∀ w' ∈ W, w ∘ w' ∈ W
  obs : ∀ w ∈ W, ∀ f ∈ O, ∀ s, f (w s) = f s

/-- An action commutes with the writes and keeps the observations. -/
structure Commutes (upd : σ → σ) (next : σ → Prog σ α) (s : σ) : Prop where
  upd_eq : ∀ w ∈ W, upd (w s) = w (upd s)
  next_eq : ∀ w ∈ W, next (w s) = next s
  obs_eq : ∀ f ∈ O, f (upd s) = f s

/-- **A program without calls whose actions commute** with the writes. -/
def Quiet : Prog σ α → σ → Prop
  | .ret _, _ => True
  | .stuck, _ => False
  | .act upd next, s => Commutes W O upd next s ∧ Quiet (next s) (upd s)
  | .call _ _, _ => False

/-- **A program with one call at most**, whose other actions commute with the writes. -/
def OneCall : Prog σ α → σ → Prop
  | .ret _, _ => True
  | .stuck, _ => False
  | .act upd next, s => Commutes W O upd next s ∧ OneCall (next s) (upd s)
  | .call upd next, s => ∀ w ∈ W, (∀ f ∈ O, f (upd (w s)) = f s) ∧ Quiet W O (next (w s)) (upd (w s))

variable {W O} {p : Prog σ α} {k : α → Prog σ β} {s s' : σ} {w : σ → σ} {upd : σ → σ}
  {next : σ → Prog σ α}

theorem Commutes.write (hW : Writes W O) (h : Commutes W O upd next s) (hw : w ∈ W) :
    Commutes W O upd next (w s) where
  upd_eq w' hw' := by
    rw [h.upd_eq w hw]
    exact h.upd_eq (w' ∘ w) (hW.comp_mem w' hw' w hw)
  next_eq w' hw' := by
    rw [h.next_eq w hw]
    exact h.next_eq (w' ∘ w) (hW.comp_mem w' hw' w hw)
  obs_eq f hf := by rw [h.upd_eq w hw, hW.obs w hw f hf, hW.obs w hw f hf, h.obs_eq f hf]

theorem Quiet.write (hW : Writes W O) (h : Quiet W O p s) (hw : w ∈ W) : Quiet W O p (w s) := by
  induction p generalizing s with
  | ret a => trivial
  | stuck => exact h
  | act upd next ih =>
    obtain ⟨hc, hrest⟩ := h
    refine ⟨hc.write hW hw, ?_⟩
    rw [hc.upd_eq w hw, hc.next_eq w hw]
    exact ih s hrest
  | call upd next => exact h

/-- **A write moves behind a quiet program.** -/
theorem Quiet.run_write (h : Quiet W O p s) (hw : w ∈ W) :
    p.run (w s) = (p.run s).map (Prod.map id w) := by
  induction p generalizing s with
  | ret a => rfl
  | stuck => exact h.elim
  | act upd next ih =>
    obtain ⟨hc, hrest⟩ := h
    rw [Prog.run, hc.upd_eq w hw, hc.next_eq w hw]
    exact ih s hrest
  | call upd next => exact h.elim

theorem OneCall.write (hW : Writes W O) (h : OneCall W O p s) (hw : w ∈ W) : OneCall W O p (w s) := by
  induction p generalizing s with
  | ret a => trivial
  | stuck => exact h
  | act upd next ih =>
    obtain ⟨hc, hrest⟩ := h
    refine ⟨hc.write hW hw, ?_⟩
    rw [hc.upd_eq w hw, hc.next_eq w hw]
    exact ih s hrest
  | call upd next =>
    intro w' hw'
    obtain ⟨hobs, hrest⟩ := h (w' ∘ w) (hW.comp_mem w' hw' w hw)
    exact ⟨fun f hf => (hobs f hf).trans (hW.obs w hw f hf s).symm, hrest⟩

/-- A quiet program returns. -/
theorem Quiet.isSome_run (h : Quiet W O p s) : (p.run s).isSome := by
  induction p generalizing s with
  | ret a => rfl
  | stuck => exact h.elim
  | act upd next ih => exact ih s h.2
  | call upd next => exact h.elim

theorem OneCall.isSome_run (hW : Writes W O) (h : OneCall W O p s) : (p.run s).isSome := by
  induction p generalizing s with
  | ret a => rfl
  | stuck => exact h.elim
  | act upd next ih => exact ih s h.2
  | call upd next => exact (h id hW.id_mem).2.isSome_run

theorem Quiet.bind (h : Quiet W O p s)
    (hk : ∀ a s', p.run s = some (a, s') → Quiet W O (k a) s') : Quiet W O (p >>= k) s := by
  induction p generalizing s with
  | ret a => exact hk a s rfl
  | stuck => exact h.elim
  | act upd next ih =>
    obtain ⟨hc, hrest⟩ := h
    exact ⟨⟨hc.upd_eq, fun w hw => congrArg (Prog.bind · k) (hc.next_eq w hw), hc.obs_eq⟩, ih s hrest hk⟩
  | call upd next => exact h.elim

theorem Quiet.seq {b : α} (h : Quiet W O p s) (hrun : p.run s = some (b, s'))
    (hk : Quiet W O (k b) s') : Quiet W O (p >>= k) s :=
  h.bind fun a s₁ hrun' => by
    obtain ⟨rfl, rfl⟩ := Prod.mk.inj (Option.some.inj (hrun.symm.trans hrun'))
    exact hk

theorem Quiet.ite {a : Prop} [Decidable a] {p' : Prog σ α} (h : a → Quiet W O p s)
    (h' : ¬ a → Quiet W O p' s) : Quiet W O (if a then p else p') s := by
  split
  · exact h ‹_›
  · exact h' ‹_›

/-- The call may come after a quiet program. -/
theorem Quiet.bind_oneCall (h : Quiet W O p s)
    (hk : ∀ a s', p.run s = some (a, s') → OneCall W O (k a) s') : OneCall W O (p >>= k) s := by
  induction p generalizing s with
  | ret a => exact hk a s rfl
  | stuck => exact h.elim
  | act upd next ih =>
    obtain ⟨hc, hrest⟩ := h
    exact ⟨⟨hc.upd_eq, fun w hw => congrArg (Prog.bind · k) (hc.next_eq w hw), hc.obs_eq⟩, ih s hrest hk⟩
  | call upd next => exact h.elim

theorem Quiet.seq_oneCall {b : α} (h : Quiet W O p s) (hrun : p.run s = some (b, s'))
    (hk : OneCall W O (k b) s') : OneCall W O (p >>= k) s :=
  h.bind_oneCall fun a s₁ hrun' => by
    obtain ⟨rfl, rfl⟩ := Prod.mk.inj (Option.some.inj (hrun.symm.trans hrun'))
    exact hk

theorem Quiet.oneCall (h : Quiet W O p s) : OneCall W O p s := by
  induction p generalizing s with
  | ret a => trivial
  | stuck => exact h
  | act upd next ih => exact ⟨h.1, ih s h.2⟩
  | call upd next => exact h.elim

theorem Quiet.map (f : α → β) (h : Quiet W O p s) : Quiet W O (p >>= fun a => pure (f a)) s :=
  h.bind fun _ _ _ => trivial

theorem OneCall.map (f : α → β) (h : OneCall W O p s) :
    OneCall W O (p >>= fun a => pure (f a)) s := by
  induction p generalizing s with
  | ret a => trivial
  | stuck => exact h
  | act upd next ih =>
    obtain ⟨hc, hrest⟩ := h
    exact ⟨⟨hc.upd_eq, fun w hw => congrArg (Prog.bind · _) (hc.next_eq w hw), hc.obs_eq⟩,
      ih s hrest⟩
  | call upd next => exact fun w hw => ⟨(h w hw).1, (h w hw).2.map f⟩

end Independence

/-! ## A program in the middle -/

section Running

variable (W : Set (σ → σ)) (O : Set (σ → γ))

/-- **The program `p` was started in `s₀`** and has `rest` left to do in `s`: either it has not made its
call yet, and what it has done commutes with the writes, or what is left commutes with them. -/
inductive Running (p : Prog σ α) (s₀ : σ) (rest : Prog σ α) (s : σ) : Prop
  | before : (∀ w ∈ W, p.Leads (w s₀) rest (w s)) → OneCall W O rest s → (∀ f ∈ O, f s = f s₀) →
      Running p s₀ rest s
  | after (w : σ → σ) : w ∈ W → rest.run s = (p.run s₀).map (Prod.map id w) → Quiet W O rest s →
      (∀ f ∈ O, f s = f s₀) → Running p s₀ rest s

variable {W O} {p rest : Prog σ α} {s s₀ : σ} {w : σ → σ} {a : α} {upd : σ → σ}
  {next : σ → Prog σ α}

theorem Running.start (h : OneCall W O p s) : Running W O p s p s :=
  .before (fun _ _ => .refl) h fun _ _ => rfl

theorem Running.obs (h : Running W O p s₀ rest s) {f : σ → γ} (hf : f ∈ O) : f s = f s₀ := by
  cases h with
  | before _ _ hobs => exact hobs f hf
  | after _ _ _ _ hobs => exact hobs f hf

theorem Running.act (h : Running W O p s₀ (.act upd next) s) :
    Running W O p s₀ (next s) (upd s) := by
  cases h with
  | before hpast hfuture hobs =>
    obtain ⟨hc, hrest⟩ := hfuture
    refine .before (fun w hw => (hpast w hw).tail ?_) hrest fun f hf => (hc.obs_eq f hf).trans (hobs f hf)
    rw [← hc.upd_eq w hw, ← hc.next_eq w hw]
    exact .act upd next (w s)
  | after w hw hrun hquiet hobs =>
    exact .after w hw hrun hquiet.2 fun f hf => (hquiet.1.obs_eq f hf).trans (hobs f hf)

theorem Running.call (hW : Writes W O) (h : Running W O p s₀ (.call upd next) s) :
    Running W O p s₀ (next s) (upd s) := by
  cases h with
  | before hpast hfuture hobs =>
    obtain ⟨hkeep, hquiet⟩ := hfuture id hW.id_mem
    refine .after id hW.id_mem ?_ hquiet fun f hf => (hkeep f hf).trans (hobs f hf)
    have hrun : p.run s₀ = (next s).run (upd s) := Prog.run_eq_of_leads (hpast id hW.id_mem)
    rw [hrun, Prod.map_id, Option.map_id]
    rfl
  | after _ _ _ hquiet _ => exact hquiet.elim

/-- **A write** is moved before the program or behind it. -/
theorem Running.write (hW : Writes W O) (h : Running W O p s₀ rest s) (hw : w ∈ W) :
    Running W O p s₀ rest (w s) ∨ Running W O p (w s₀) rest (w s) := by
  cases h with
  | before hpast hfuture hobs =>
    refine Or.inr (.before (fun w' hw' => ?_) (hfuture.write hW hw) fun f hf => ?_)
    · exact hpast (w' ∘ w) (hW.comp_mem w' hw' w hw)
    · rw [hW.obs w hw f hf, hW.obs w hw f hf, hobs f hf]
  | after w₀ hw₀ hrun hquiet hobs =>
    refine Or.inl (.after (w ∘ w₀) (hW.comp_mem w hw w₀ hw₀) ?_ (hquiet.write hW hw) fun f hf => ?_)
    · rw [hquiet.run_write hw, hrun, Option.map_map, Prod.map_comp_map]
      rfl
    · rw [hW.obs w hw f hf, hobs f hf]

/-- **When a program returns**, it has been run at once, and writes have followed. -/
theorem Running.returned (hW : Writes W O) (h : Running W O p s₀ (.ret a) s) :
    ∃ w ∈ W, ∃ s₁, p.run s₀ = some (a, s₁) ∧ s = w s₁ := by
  cases h with
  | before hpast _ _ => exact ⟨id, hW.id_mem, s, Prog.run_eq_of_leads (hpast id hW.id_mem), rfl⟩
  | after w hw hrun _ _ =>
    obtain ⟨⟨a', s₁⟩, hp, heq⟩ := Option.map_eq_some_iff.mp hrun.symm
    obtain ⟨rfl, hs⟩ := Prod.mk.inj heq
    exact ⟨w, hw, s₁, hp, hs.symm⟩

/-- **A program in the middle comes to its end.** -/
theorem Running.isSome_run (hW : Writes W O) (h : Running W O p s₀ rest s) : (rest.run s).isSome := by
  cases h with
  | before _ hfuture _ => exact hfuture.isSome_run hW
  | after _ _ _ hquiet _ => exact hquiet.isSome_run

end Running

/-! ## Threads -/

/-- **What threads do**: an operation is checked without the lock, one read after the other, and then
run under it. -/
structure System (Op Ret σ : Type) where
  checks : Op → List (σ → Bool)
  prog : Op → Prog σ Ret

/-- Where a thread is. -/
inductive Thread (Op Ret σ : Type) where
  | outside
  /-- Before the lock, with checks left; without any, it spins. -/
  | waiting (op : Op) (checks : List (σ → Bool))
  | inside (op : Op) (rest : Prog σ Ret)
  /-- It has given the lock back, and has not returned yet. -/
  | returning (r : Ret)
  /-- A check has failed. -/
  | failed (op : Op)

/-- What a thread is about to return. -/
def Thread.outcome {Op Ret σ : Type} : Thread Op Ret σ → List Ret
  | .returning r => [r]
  | _ => []

/-- The checks that a thread has left are checks of its operation, and none has failed. -/
def Thread.Passing {Op Ret σ : Type} (T : System Op Ret σ) : Thread Op Ret σ → Prop
  | .waiting op fs => fs ⊆ T.checks op
  | .failed _ => False
  | _ => True

/-- The lock, the shared state and the threads. -/
structure Machine (ι Op Ret σ : Type) where
  locked : Bool
  shared : σ
  thread : ι → Thread Op Ret σ

/-- What the environment sees of a step. -/
inductive Event (ι Op Ret σ : Type) where
  | call (i : ι) (op : Op)
  | silent (i : ι)
  | release (i : ι) (r : Ret)
  | ret (i : ι) (r : Ret)
  | write (w : σ → σ)

/-- The thread that takes the step. -/
def Event.thread {ι Op Ret σ : Type} : Event ι Op Ret σ → Option ι
  | .call i _ => some i
  | .silent i => some i
  | .release i _ => some i
  | .ret i _ => some i
  | .write _ => none

namespace Machine

variable [DecidableEq ι] {Ret : Type} {T : System Op Ret σ} {M M' : Machine ι Op Ret σ}
  {e : Event ι Op Ret σ} {i j : ι} {t : Thread Op Ret σ} {op : Op} {rest : Prog σ Ret}

/-- A thread moves. -/
def set (M : Machine ι Op Ret σ) (i : ι) (t : Thread Op Ret σ) : Machine ι Op Ret σ :=
  { M with thread := Function.update M.thread i t }

/-- **One step of one thread**, or a write of the environment.  A step reads or writes once. -/
inductive Step (T : System Op Ret σ) (M : Machine ι Op Ret σ) :
    Event ι Op Ret σ → Machine ι Op Ret σ → Prop
  | call {i : ι} {op : Op} : M.thread i = .outside →
      Step T M (.call i op) (M.set i (.waiting op (T.checks op)))
  | check {i : ι} {op : Op} {f : σ → Bool} {fs : List (σ → Bool)} :
      M.thread i = .waiting op (f :: fs) → f M.shared = true →
      Step T M (.silent i) (M.set i (.waiting op fs))
  | fail {i : ι} {op : Op} {f : σ → Bool} {fs : List (σ → Bool)} :
      M.thread i = .waiting op (f :: fs) → f M.shared = false →
      Step T M (.silent i) (M.set i (.failed op))
  /-- The test-and-set finds the lock taken. -/
  | spin {i : ι} {op : Op} : M.thread i = .waiting op [] → M.locked = true → Step T M (.silent i) M
  | acquire {i : ι} {op : Op} : M.thread i = .waiting op [] → M.locked = false →
      Step T M (.silent i) { M.set i (.inside op (T.prog op)) with locked := true }
  | act {i : ι} {op : Op} {upd : σ → σ} {next : σ → Prog σ Ret} :
      M.thread i = .inside op (.act upd next) →
      Step T M (.silent i) { M.set i (.inside op (next M.shared)) with shared := upd M.shared }
  | callOut {i : ι} {op : Op} {upd : σ → σ} {next : σ → Prog σ Ret} :
      M.thread i = .inside op (.call upd next) →
      Step T M (.silent i) { M.set i (.inside op (next M.shared)) with shared := upd M.shared }
  | release {i : ι} {op : Op} {r : Ret} : M.thread i = .inside op (.ret r) →
      Step T M (.release i r) { M.set i (.returning r) with locked := false }
  | ret {i : ι} {r : Ret} : M.thread i = .returning r → Step T M (.ret i r) (M.set i .outside)
  | write {w : σ → σ} : Step T M (.write w) { M with shared := w M.shared }

@[simp] theorem set_thread_self : (M.set i t).thread i = t := Function.update_self ..

theorem set_thread_of_ne (h : j ≠ i) : (M.set i t).thread j = M.thread j :=
  Function.update_of_ne h ..

/-- After a move, a thread is the one that moved or is where it was. -/
theorem thread_set {u : Thread Op Ret σ} (h : (M.set i t).thread j = u) :
    j = i ∧ t = u ∨ j ≠ i ∧ M.thread j = u := by
  by_cases hji : j = i
  · rw [hji, set_thread_self] at h
    exact Or.inl ⟨hji, h⟩
  · rw [set_thread_of_ne hji] at h
    exact Or.inr ⟨hji, h⟩

/-- What holds of every thread, and of where one of them moves to. -/
theorem forall_set {p : Thread Op Ret σ → Prop} (h : ∀ j, p (M.thread j)) (ht : p t) (j : ι) :
    p ((M.set i t).thread j) := by
  by_cases hji : j = i
  · rwa [hji, set_thread_self]
  · rw [set_thread_of_ne hji]
    exact h j

/-- A thread that moves without a change of `f`. -/
theorem map_set {f : Thread Op Ret σ → α} (h : f t = f (M.thread i)) (j : ι) :
    f ((M.set i t).thread j) = f (M.thread j) := by
  by_cases hji : j = i
  · rw [hji, set_thread_self, h]
  · rw [set_thread_of_ne hji]

/-- **The other threads stay where they are.** -/
theorem Step.thread_of_ne (hstep : Step T M e M') (hj : e.thread ≠ some j) :
    M'.thread j = M.thread j := by
  have hne : ∀ {i}, some i ≠ some j → j ≠ i := fun h hji => h (congrArg some hji.symm)
  cases hstep with
  | spin _ _ => rfl
  | write => rfl
  | call _ => exact set_thread_of_ne (hne hj)
  | check _ _ => exact set_thread_of_ne (hne hj)
  | fail _ _ => exact set_thread_of_ne (hne hj)
  | acquire _ _ => exact set_thread_of_ne (hne hj)
  | act _ => exact set_thread_of_ne (hne hj)
  | callOut _ => exact set_thread_of_ne (hne hj)
  | release _ => exact set_thread_of_ne (hne hj)
  | ret _ => exact set_thread_of_ne (hne hj)

/-- **Mutual exclusion**: the lock is taken exactly if a thread is inside, and no two are. -/
structure Exclusive (M : Machine ι Op Ret σ) : Prop where
  locked_iff : M.locked = true ↔ ∃ i op rest, M.thread i = .inside op rest
  unique : ∀ {i j op op' rest rest'}, M.thread i = .inside op rest →
    M.thread j = .inside op' rest' → i = j

/-- A thread that was not inside and does not go in. -/
theorem Exclusive.set (h : Exclusive M) (hold : ∀ op rest, M.thread i ≠ .inside op rest)
    (hnew : ∀ op rest, t ≠ .inside op rest) : Exclusive (M.set i t) := by
  have hiff : ∀ j op rest, (M.set i t).thread j = .inside op rest ↔
      M.thread j = .inside op rest := fun j op rest => by
    by_cases hji : j = i
    · rw [hji, set_thread_self]
      exact iff_of_false (hnew op rest) (hold op rest)
    · rw [set_thread_of_ne hji]
  refine ⟨?_, fun hi hj => h.unique ((hiff ..).mp hi) ((hiff ..).mp hj)⟩
  simp only [hiff]
  exact h.locked_iff

/-- The thread inside goes on. -/
theorem Exclusive.goOn {op' : Op} {rest' : Prog σ Ret} {s : σ} (h : Exclusive M)
    (hold : M.thread i = .inside op rest) :
    Exclusive { M.set i (.inside op' rest') with shared := s } := by
  have hlocked : M.locked = true := h.locked_iff.mpr ⟨i, op, rest, hold⟩
  have honly : ∀ j op₁ rest₁, (M.set i (.inside op' rest')).thread j = .inside op₁ rest₁ → j = i := by
    intro j op₁ rest₁ hj
    rcases thread_set hj with ⟨hji, -⟩ | ⟨-, hj⟩
    · exact hji
    · exact h.unique hj hold
  refine ⟨iff_of_true hlocked ⟨i, op', rest', set_thread_self⟩, fun hj hk => ?_⟩
  exact (honly _ _ _ hj).trans (honly _ _ _ hk).symm

/-- **Every step keeps mutual exclusion.** -/
theorem Step.exclusive (hstep : Step T M e M') (h : Exclusive M) : Exclusive M' := by
  have hnone : M.locked = false → ∀ j op rest, M.thread j ≠ .inside op rest := fun hfree j op rest hj => by
    have hlocked := h.locked_iff.mpr ⟨j, op, rest, hj⟩
    rw [hfree] at hlocked
    exact Bool.noConfusion hlocked
  cases hstep with
  | call hi => exact h.set (by simp [hi]) (by simp)
  | check hi _ => exact h.set (by simp [hi]) (by simp)
  | fail hi _ => exact h.set (by simp [hi]) (by simp)
  | spin _ _ => exact h
  | @acquire i op hi hfree =>
    have honly : ∀ j op₁ rest₁, (M.set i (.inside op (T.prog op))).thread j = .inside op₁ rest₁ →
        j = i := by
      intro j op₁ rest₁ hj
      rcases thread_set hj with ⟨hji, -⟩ | ⟨-, hj⟩
      · exact hji
      · exact (hnone hfree j op₁ rest₁ hj).elim
    refine ⟨iff_of_true rfl ⟨i, op, T.prog op, set_thread_self⟩, fun hj hk => ?_⟩
    exact (honly _ _ _ hj).trans (honly _ _ _ hk).symm
  | act hi => exact h.goOn hi
  | callOut hi => exact h.goOn hi
  | @release i op r hi =>
    have hout : ∀ j op₁ rest₁, (M.set i (.returning r)).thread j ≠ .inside op₁ rest₁ := by
      intro j op₁ rest₁ hj
      rcases thread_set hj with ⟨-, heq⟩ | ⟨hji, hj⟩
      · cases heq
      · exact hji (h.unique hj hi)
    exact ⟨iff_of_false Bool.false_ne_true fun ⟨j, op₁, rest₁, hj⟩ => hout j op₁ rest₁ hj,
      fun hj _ => absurd hj (hout _ _ _)⟩
  | ret hi => exact h.set (by simp [hi]) (by simp)
  | write => exact ⟨h.locked_iff, h.unique⟩

/-- A silent step ends no call. -/
theorem Step.outcome_eq (hstep : Step T M (.silent i) M') (j : ι) :
    (M'.thread j).outcome = (M.thread j).outcome := by
  cases hstep with
  | spin _ _ => rfl
  | check hi _ => exact map_set (f := Thread.outcome) (by rw [hi]; rfl) j
  | fail hi _ => exact map_set (f := Thread.outcome) (by rw [hi]; rfl) j
  | acquire hi _ => exact map_set (f := Thread.outcome) (by rw [hi]; rfl) j
  | act hi => exact map_set (f := Thread.outcome) (by rw [hi]; rfl) j
  | callOut hi => exact map_set (f := Thread.outcome) (by rw [hi]; rfl) j

/-- Steps of one thread that the environment does not see. -/
abbrev Silent (T : System Op Ret σ) (i : ι) : Machine ι Op Ret σ → Machine ι Op Ret σ → Prop :=
  Relation.ReflTransGen fun M M' => Step T M (.silent i) M'

/-- **A thread under the lock can go on to its end**, if its program has one, without the others. -/
theorem silent_inside {s : σ} {r : Ret} (hi : M.thread i = .inside op rest)
    (hrun : rest.run M.shared = some (r, s)) :
    ∃ M', Silent T i M M' ∧ M'.thread i = .inside op (.ret r) ∧ M'.shared = s := by
  induction rest generalizing M with
  | ret a =>
    obtain ⟨rfl, hs⟩ := Prod.mk.inj (Option.some.inj hrun)
    exact ⟨M, .refl, hi, hs⟩
  | stuck => exact absurd hrun (by simp [Prog.run])
  | act upd next ih =>
    obtain ⟨M', hsteps, hend⟩ :=
      ih M.shared (M := { M.set i (.inside op (next M.shared)) with shared := upd M.shared })
        set_thread_self hrun
    exact ⟨M', .head (.act hi) hsteps, hend⟩
  | call upd next ih =>
    obtain ⟨M', hsteps, hend⟩ :=
      ih M.shared (M := { M.set i (.inside op (next M.shared)) with shared := upd M.shared })
        set_thread_self hrun
    exact ⟨M', .head (.callOut hi) hsteps, hend⟩

end Machine

end Spinlock
