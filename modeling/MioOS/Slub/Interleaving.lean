import MioOS.Slub.Footprint

/-!
# Slub/Interleaving — one cache on several cores

Any number of cores call `alloc` and `free` of one `KmemCache`; the steps of the calls and the writes of
callers to objects they hold come in any order.  `Smp.Inv` is the invariant: the calls that have given
the lock back are a sequential run, and the core under the lock is `Running` from where that run leads.

The page source is used by this cache only: the PMM takes no lock of its own.
-/

namespace MioOS

open ByteMemory Spinlock

namespace KmemCache

/-- A call. -/
inductive Call
  | alloc
  | free (x : ℕ)
  deriving DecidableEq, Repr

/-- A call at its end, with what it returns. -/
inductive Returned
  | alloc (x : ℕ)
  | free (x : ℕ)
  deriving DecidableEq, Repr

/-- What the caller gives away. -/
def Call.objects : Call → List ℕ
  | .alloc => []
  | .free x => [x]

/-- What the caller gets. -/
def Returned.objects : Returned → List ℕ
  | .alloc x => if x = 0 then [] else [x]
  | .free _ => []

/-- The other objects. -/
def Call.others (L : List ℕ) : Call → List ℕ
  | .alloc => L
  | .free x => L.erase x

variable {σ : Type}

/-- `alloc` and `free` of the cache at `addr`. -/
def system (P : PageSource σ) (addr : ℕ) : System Call Returned (KmemCache × σ) where
  checks
    | .alloc => []
    | .free x => Locked.checkFree P addr x
  prog
    | .alloc => do
      let x ← Locked.alloc P addr
      pure (.alloc x)
    | .free x => do
      Locked.free P x
      pure (.free x)

/-- **The objects in a core's hands**: the one it frees, until it gives the lock back, and from then on
the one it returns. -/
def inHand : Thread Call Returned (KmemCache × σ) → List ℕ
  | .outside => []
  | .waiting op _ => op.objects
  | .inside op _ => op.objects
  | .failed op => op.objects
  | .returning r => r.objects

/-- The cores, the objects that callers hold, and the calls that have given the lock back and those that
have returned, the latest first. -/
structure Smp (ι σ : Type) where
  machine : Machine ι Call Returned (KmemCache × σ)
  live : List ℕ
  released : List (ι × Returned)
  returned : List (ι × Returned)

/-- Before the first call. -/
def Smp.start (ι : Type) (c : KmemCache) (s : σ) : Smp ι σ :=
  ⟨⟨false, (c, s), fun _ => .outside⟩, [], [], []⟩

/-- **A core goes on** with its call, or returns from it. -/
inductive Smp.GoOn {ι : Type} [DecidableEq ι] (P : PageSource σ) (addr : ℕ) (i : ι) (w : Smp ι σ) :
    Smp ι σ → Prop
  | silent {M : Machine ι Call Returned (KmemCache × σ)} :
      w.machine.Step (system P addr) (.silent i) M → GoOn P addr i w { w with machine := M }
  | release {r : Returned} {M : Machine ι Call Returned (KmemCache × σ)} :
      w.machine.Step (system P addr) (.release i r) M →
      GoOn P addr i w { w with machine := M, released := (i, r) :: w.released }
  | ret {r : Returned} {M : Machine ι Call Returned (KmemCache × σ)} :
      w.machine.Step (system P addr) (.ret i r) M →
      GoOn P addr i w { w with machine := M, live := r.objects ++ w.live,
                               returned := (i, r) :: w.returned }

/-- **One step**: a core calls or goes on, or a caller writes to objects it holds. -/
inductive Smp.Step {ι : Type} [DecidableEq ι] (P : PageSource σ) (addr objSize : ℕ) (w : Smp ι σ) :
    Smp ι σ → Prop
  | callAlloc {i : ι} {M : Machine ι Call Returned (KmemCache × σ)} :
      w.machine.Step (system P addr) (.call i .alloc) M → Step P addr objSize w { w with machine := M }
  | callFree {i : ι} {x : ℕ} {M : Machine ι Call Returned (KmemCache × σ)} : x ∈ w.live →
      w.machine.Step (system P addr) (.call i (.free x)) M →
      Step P addr objSize w { w with machine := M, live := w.live.erase x }
  | goOn {i : ι} {w' : Smp ι σ} : Smp.GoOn P addr i w w' → Step P addr objSize w w'
  | write {B : ℕ → Bool} {b : Mem} {M : Machine ι Call Returned (KmemCache × σ)} :
      (∀ y, B y = true → y ∈ Locked.liveBytes objSize w.live) →
      w.machine.Step (system P addr) (.write (Locked.write P B b)) M →
      Step P addr objSize w { w with machine := M }

/-- `w'` is reached from `w`. -/
abbrev Smp.Run {ι : Type} [DecidableEq ι] (P : PageSource σ) (addr objSize : ℕ) :
    Smp ι σ → Smp ι σ → Prop :=
  Relation.ReflTransGen (Smp.Step P addr objSize)

/-- `w'` is reached from `w`, and only cores of `K` have gone on. -/
abbrev Smp.RunOf {ι : Type} [DecidableEq ι] (P : PageSource σ) (addr : ℕ) (K : Set ι) :
    Smp ι σ → Smp ι σ → Prop :=
  Relation.ReflTransGen fun w w' => ∃ i ∈ K, Smp.GoOn P addr i w w'

/-- **A sequential run** from `v₀` with these calls, the latest first. -/
inductive Serial (P : PageSource σ) (addr : ℕ) (v₀ : World σ) : List Returned → World σ → Prop
  | start : Serial P addr v₀ [] v₀
  | alloc {l : List Returned} {v : World σ} {x : ℕ} {c : KmemCache} {s : σ} : Serial P addr v₀ l v →
      KmemCache.alloc P addr v.cache v.source = some (x, c, s) →
      Serial P addr v₀ (.alloc x :: l) ⟨c, s, (Returned.alloc x).objects ++ v.live⟩
  | free {l : List Returned} {v : World σ} {x : ℕ} {c : KmemCache} {s : σ} : Serial P addr v₀ l v →
      x ∈ v.live → KmemCache.free P addr v.cache v.source x = some (c, s) →
      Serial P addr v₀ (.free x :: l) ⟨c, s, v.live.erase x⟩
  | write {l : List Returned} {v : World σ} {m : Mem} : Serial P addr v₀ l v →
      (∀ y, (∀ x ∈ v.live, y < x ∨ x + v.cache.objSize ≤ y) → m y = P.mem v.source y) →
      Serial P addr v₀ l ⟨v.cache, P.setMem v.source m, v.live⟩

variable {ι : Type} [DecidableEq ι] {P : PageSource σ} {I : σ → Set ℕ → Prop} {c : KmemCache}
  {S S₀ : Slabs} {s : σ} {addr objSize x : ℕ} {w w' : Smp ι σ} {v v₀ : World σ}
  {l : List Returned} {pending pending' : List ℕ} {M : Machine ι Call Returned (KmemCache × σ)}
  {op : Call} {i j : ι} {t : Thread Call Returned (KmemCache × σ)} {K K' : Set ι}
  {rest : Prog (KmemCache × σ) Returned} {r : Returned}

/-- It is a run of the cache. -/
theorem Serial.run (h : Serial P addr v₀ l v) : Run P addr v₀ v := by
  induction h with
  | start => exact .refl
  | @alloc l v x c s _ heq ih =>
    refine ih.tail ?_
    by_cases hx : x = 0
    · subst hx
      exact .allocNull heq
    · rw [Returned.objects, if_neg hx]
      exact .alloc heq hx
  | free _ hx heq ih => exact ih.tail (.free hx heq)
  | write _ hm ih => exact ih.tail (.write hm)

/-! ## What the others are -/

theorem Call.mem_of_others {L : List ℕ} (h : x ∈ op.others L) : x ∈ L := by
  cases op with
  | alloc => exact h
  | free y => exact List.mem_of_mem_erase h

theorem Call.mem_others {L : List ℕ} (h : x ∈ L) (hne : x ∉ op.objects) : x ∈ op.others L := by
  cases op with
  | alloc => exact h
  | free y =>
    have hxy : x ≠ y := fun heq => hne (by simp [Call.objects, heq])
    exact (List.mem_erase_of_ne hxy).mpr h

theorem Returned.nodup_objects (r : Returned) : r.objects.Nodup := by
  cases r with
  | alloc x =>
    rw [Returned.objects]
    split
    · exact List.nodup_nil
    · exact List.nodup_singleton x
  | free x => exact List.nodup_nil

/-- The checks of `free` read `magic` and `cache`. -/
theorem checkFree_congr {a b : KmemCache × σ} {f : KmemCache × σ → Bool}
    (hm : ∀ y, alignDown x pageSize ≤ y → y < alignDown x pageSize + 16 →
      P.mem a.2 y = P.mem b.2 y) (hf : f ∈ Locked.checkFree P addr x) : f a = f b := by
  have hmagic : SlabHeader.magic (P.mem a.2) (alignDown x pageSize)
      = SlabHeader.magic (P.mem b.2) (alignDown x pageSize) :=
    Mem.load_congr fun i hi => hm _ (by omega) (by omega)
  have hcache : SlabHeader.cache (P.mem a.2) (alignDown x pageSize)
      = SlabHeader.cache (P.mem b.2) (alignDown x pageSize) :=
    Mem.load_congr fun i hi => hm _ (by omega) (by omega)
  rcases List.mem_pair.mp hf with rfl | rfl
  · simp only [hmagic]
  · simp only [hcache]

/-- A live object passes the checks. -/
theorem checkFree_live (h : CacheInv (P.mem s) addr c S) (hz : Fits c.objSize) (hx : x ∈ S.objects) :
    x ≠ 0 ∧ ∀ f ∈ Locked.checkFree P addr x, f (c, s) = true := by
  obtain ⟨q, hq, hxq⟩ := Slabs.mem_objects.mp hx
  have hslab := h.slab q hq
  have hslot := hslab.mem_live hxq
  refine ⟨h.ne_zero hz hx, fun f hf => ?_⟩
  rcases List.mem_pair.mp hf with rfl | rfl
  · simp [alignDown_object hz (h.lt q hq) hslot, hslab.magic_eq]
  · simp [alignDown_object hz (h.lt q hq) hslot, hslab.cache_eq]

/-! ## Runs of some of the cores -/

namespace Smp

theorem GoOn.thread_of_ne (h : GoOn P addr i w w') (hj : j ≠ i) :
    w'.machine.thread j = w.machine.thread j := by
  have hne : ∀ {e : Spinlock.Event ι Call Returned (KmemCache × σ)}, e.thread = some i → e.thread ≠ some j :=
    fun he heq => hj (Option.some.inj (heq.symm.trans he))
  cases h with
  | silent hstep => exact hstep.thread_of_ne (hne rfl)
  | release hstep => exact hstep.thread_of_ne (hne rfl)
  | ret hstep => exact hstep.thread_of_ne (hne rfl)

/-- **The other cores stay where they are.** -/
theorem RunOf.thread_of_notMem (h : RunOf P addr K w w') (hj : j ∉ K) :
    w'.machine.thread j = w.machine.thread j := by
  induction h with
  | refl => rfl
  | tail _ hstep ih =>
    obtain ⟨i, hi, hgo⟩ := hstep
    have hji : j ≠ i := by
      rintro rfl
      exact hj hi
    exact (hgo.thread_of_ne hji).trans ih

theorem RunOf.run (h : RunOf P addr K w w') : Run P addr objSize w w' :=
  Relation.ReflTransGen.mono (fun _ _ ⟨_, _, hgo⟩ => .goOn hgo) _ _ h

theorem RunOf.mono (h : RunOf P addr K w w') (hK : K ⊆ K') : RunOf P addr K' w w' :=
  Relation.ReflTransGen.mono (fun _ _ ⟨i, hi, hgo⟩ => ⟨i, hK hi, hgo⟩) _ _ h

/-! ## The order of the calls -/

/-- **Each core returns from its calls in the order in which they gave the lock back**, and with their
results: it is at most one behind. -/
def Ordered (w : Smp ι σ) : Prop := ∀ i, w.released.filter (·.1 = i) =
  (w.machine.thread i).outcome.map (i, ·) ++ w.returned.filter (·.1 = i)

/-- A step that ends no call. -/
theorem Ordered.congr {live : List ℕ} (h : w.Ordered)
    (hM : ∀ j, (M.thread j).outcome = (w.machine.thread j).outcome) :
    Ordered { w with machine := M, live := live } := fun j => by
  simp only [hM]
  exact h j

theorem GoOn.ordered (hgo : GoOn P addr i w w') (h : w.Ordered) : w'.Ordered := by
  cases hgo with
  | silent hstep => exact h.congr hstep.outcome_eq
  | @release r M hstep =>
    intro j
    have hj := h j
    cases hstep with
    | release hi =>
      by_cases hji : j = i
      · subst hji
        rw [hi] at hj
        simpa [Thread.outcome] using hj
      · simpa [Machine.set_thread_of_ne hji, Ne.symm hji] using hj
  | @ret r M hstep =>
    intro j
    have hj := h j
    cases hstep with
    | ret hi =>
      by_cases hji : j = i
      · subst hji
        rw [hi] at hj
        simpa [Thread.outcome] using hj
      · simpa [Machine.set_thread_of_ne hji, Ne.symm hji] using hj

theorem Step.ordered (hstep : Step P addr objSize w w') (h : w.Ordered) : w'.Ordered := by
  cases hstep with
  | callAlloc hcall =>
    cases hcall with
    | call hi => exact h.congr (Machine.map_set (f := Thread.outcome) (by rw [hi]; rfl))
  | callFree _ hcall =>
    cases hcall with
    | call hi => exact h.congr (Machine.map_set (f := Thread.outcome) (by rw [hi]; rfl))
  | goOn hgo => exact hgo.ordered h
  | write _ hwrite =>
    cases hwrite with
    | write => exact h.congr fun _ => rfl

end Smp

/-! ## The invariant -/

/-- **`pending` are the objects in the hands of the cores**, each in those of one core. -/
structure Hands (thread : ι → Thread Call Returned (KmemCache × σ)) (pending : List ℕ) : Prop where
  mem : ∀ x, x ∈ pending ↔ ∃ i, x ∈ inHand (thread i)
  distinct : ∀ {i j x}, x ∈ inHand (thread i) → x ∈ inHand (thread j) → i = j

/-- A core moves with what it has in its hands. -/
theorem Hands.move (h : Hands M.thread pending) (ht : inHand t = inHand (M.thread i)) :
    Hands (M.set i t).thread pending := by
  refine ⟨fun x => ?_, fun {j k x} hj hk => ?_⟩
  · simp only [Machine.map_set (f := inHand) ht]
    exact h.mem x
  · rw [Machine.map_set (f := inHand) ht] at hj hk
    exact h.distinct hj hk

/-- A core moves, and changes what it has in its hands. -/
theorem Hands.set (h : Hands M.thread pending)
    (hfresh : ∀ x ∈ inHand t, x ∈ pending → x ∈ inHand (M.thread i))
    (hmem : ∀ x, x ∈ pending' ↔ x ∈ inHand t ∨ x ∈ pending ∧ x ∉ inHand (M.thread i)) :
    Hands (M.set i t).thread pending' := by
  have hset : ∀ {j x}, x ∈ inHand ((M.set i t).thread j) ↔
      j = i ∧ x ∈ inHand t ∨ j ≠ i ∧ x ∈ inHand (M.thread j) := fun {j x} => by
    by_cases hji : j = i
    · simp [hji]
    · simp [hji, Machine.set_thread_of_ne hji]
  refine ⟨fun x => ?_, fun {j k x} hj hk => ?_⟩
  · rw [hmem, h.mem]
    constructor
    · rintro (hx | ⟨⟨j, hx⟩, hout⟩)
      · exact ⟨i, hset.mpr (.inl ⟨rfl, hx⟩)⟩
      · have hji : j ≠ i := by
          rintro rfl
          exact hout hx
        exact ⟨j, hset.mpr (.inr ⟨hji, hx⟩)⟩
    · rintro ⟨j, hj⟩
      rcases hset.mp hj with ⟨-, hx⟩ | ⟨hji, hx⟩
      · exact .inl hx
      · exact .inr ⟨⟨j, hx⟩, fun hin => hji (h.distinct hx hin)⟩
  · have hone : ∀ {k}, k ≠ i → x ∈ inHand (M.thread k) → x ∉ inHand t := fun hki hx hin =>
      hki (h.distinct hx (hfresh x hin ((h.mem x).mpr ⟨_, hx⟩)))
    rcases hset.mp hj with ⟨rfl, hx⟩ | ⟨hji, hx⟩ <;> rcases hset.mp hk with ⟨rfl, hx'⟩ | ⟨hki, hx'⟩
    · rfl
    · exact absurd hx (hone hki hx')
    · exact absurd hx' (hone hji hx)
    · exact h.distinct hx hx'

/-- **The invariant of the cores**: `v` is where a sequential run of the calls leads that have given the
lock back. -/
structure Smp.Inv (P : PageSource σ) (addr : ℕ) (v₀ : World σ) (w : Smp ι σ) (v : World σ)
    (pending : List ℕ) : Prop where
  serial : Serial P addr v₀ (w.released.map Prod.snd) v
  exclusive : w.machine.Exclusive
  live : v.live.Perm (pending ++ w.live)
  hands : Hands w.machine.thread pending
  passing : ∀ i, (w.machine.thread i).Passing (system P addr)
  outside : w.machine.locked = false → w.machine.shared = (v.cache, v.source)
  inside : ∀ {i op rest}, w.machine.thread i = .inside op rest →
    Running (Locked.writes P (Locked.liveBytes v.cache.objSize (op.others v.live)))
      (Locked.reads P (Locked.headBytes (op.others v.live))) ((system P addr).prog op)
      (v.cache, v.source) rest w.machine.shared

section Context

variable (hP : P.Lawful) (hH : HandsOut P I) (haddr : addr < 2 ^ 64) (hz : Fits v.cache.objSize)
  (hv : v.Inv P I addr S)

include hv in
theorem live_objects : ∀ x ∈ op.others v.live, x ∈ S.objects := fun _ hx =>
  hv.live.symm.subset (Call.mem_of_others hx)

include hz hv

theorem nodup_live : v.live.Nodup := hv.live.nodup_iff.mp (hv.cache.nodup_objects hz)

include hP in
theorem writes_reads_others :
    Writes (Locked.writes P (Locked.liveBytes v.cache.objSize (op.others v.live)))
      (Locked.reads P (Locked.headBytes (op.others v.live))) :=
  Locked.writes_reads hP (Locked.disjoint_live hv.cache hz (live_objects hv))

include hP hH haddr in
/-- What a core does under the lock commutes with what others do. -/
theorem oneCall_prog (hop : ∀ x ∈ op.objects, x ∈ v.live) :
    OneCall (Locked.writes P (Locked.liveBytes v.cache.objSize (op.others v.live)))
      (Locked.reads P (Locked.headBytes (op.others v.live))) ((system P addr).prog op)
      (v.cache, v.source) := by
  have hL : ∀ x ∈ op.others v.live, x ∈ S.objects := live_objects hv
  cases op with
  | alloc => exact (Locked.oneCall_alloc hP hH hv.source hv.cache hz haddr hL).map Returned.alloc
  | free x =>
    have hx := hv.live.symm.subset (hop x (List.mem_singleton_self x))
    exact (Locked.oneCall_free hP hH hv.source hv.cache hz hx hL
      (nodup_live hz hv).not_mem_erase).map fun _ => Returned.free x

end Context

namespace Smp.Inv

variable (h : w.Inv P addr v₀ v pending)

include h

omit [DecidableEq ι] in
theorem mem_live (hi : x ∈ inHand (w.machine.thread i)) : x ∈ v.live :=
  h.live.symm.subset (List.mem_append_left _ ((h.hands.mem x).mpr ⟨i, hi⟩))

omit [DecidableEq ι] in
/-- What the cores have in their hands, callers do not hold. -/
theorem notMem_live (hz : Fits v.cache.objSize) (hv : v.Inv P I addr S) (hx : x ∈ w.live) :
    x ∉ pending := fun hin =>
  (List.nodup_append.mp (h.live.nodup_iff.mp (nodup_live hz hv))).2.2 x hin x hx rfl

/-- A core outside the lock moves. -/
theorem move {live : List ℕ} {returned : List (ι × Returned)}
    (hold : ∀ op rest, w.machine.thread i ≠ .inside op rest) (hnew : ∀ op rest, t ≠ .inside op rest)
    (ht : t.Passing (system P addr)) (hlive : v.live.Perm (pending' ++ live))
    (hhands : Hands (w.machine.set i t).thread pending') :
    Smp.Inv P addr v₀ ⟨w.machine.set i t, live, w.released, returned⟩ v pending' where
  serial := h.serial
  exclusive := h.exclusive.set hold hnew
  live := hlive
  hands := hhands
  passing := Machine.forall_set h.passing ht
  outside := h.outside
  inside {j op rest} hj := by
    rcases Machine.thread_set hj with ⟨-, heq⟩ | ⟨-, hj⟩
    · exact absurd heq (hnew op rest)
    · exact h.inside hj

/-- The core under the lock goes on. -/
theorem goOn {rest' : Prog (KmemCache × σ) Returned} {s' : KmemCache × σ}
    (hi : w.machine.thread i = .inside op rest)
    (hrun : Running (Locked.writes P (Locked.liveBytes v.cache.objSize (op.others v.live)))
      (Locked.reads P (Locked.headBytes (op.others v.live))) ((system P addr).prog op)
      (v.cache, v.source) rest' s') :
    Smp.Inv P addr v₀ { w with machine := { w.machine.set i (.inside op rest') with shared := s' } } v
      pending := by
  have hexclusive : Machine.Exclusive
      { w.machine.set i (.inside op rest') with shared := s' } := h.exclusive.goOn hi
  refine ⟨h.serial, hexclusive, h.live, h.hands.move (by rw [hi]; rfl),
    Machine.forall_set h.passing trivial, fun hfree => ?_, fun {j op' rest''} hj => ?_⟩
  · have hlocked := h.exclusive.locked_iff.mpr ⟨i, op, rest, hi⟩
    exact absurd (hlocked.symm.trans hfree) Bool.noConfusion
  · obtain rfl := hexclusive.unique hj Machine.set_thread_self
    obtain ⟨rfl, rfl⟩ := Thread.inside.inj (hj.symm.trans Machine.set_thread_self)
    exact hrun

omit [DecidableEq ι] in
/-- **No check fails**: the header of an object that is being freed stays. -/
theorem check {f : KmemCache × σ → Bool} {fs : List (KmemCache × σ → Bool)}
    (hz : Fits v.cache.objSize) (hv : v.Inv P I addr S)
    (hi : w.machine.thread i = .waiting op (f :: fs)) : f w.machine.shared = true := by
  have hpassing := h.passing i
  rw [hi] at hpassing
  have hf : f ∈ (system P addr).checks op := hpassing List.mem_cons_self
  cases op with
  | alloc => exact absurd hf List.not_mem_nil
  | free x =>
    have hhand : x ∈ inHand (w.machine.thread i) := by
      rw [hi]
      exact List.mem_singleton_self x
    have hmem : ∀ y, alignDown x pageSize ≤ y → y < alignDown x pageSize + 16 →
        P.mem w.machine.shared.2 y = P.mem v.source y := fun y hy hy' => by
      cases hlocked : w.machine.locked with
      | false => rw [h.outside hlocked]
      | true =>
        obtain ⟨j, op', rest, hj⟩ := h.exclusive.locked_iff.mp hlocked
        have hne : x ∉ op'.objects := fun hin => by
          have hij : i = j := h.hands.distinct hhand (by rwa [hj])
          rw [← hij, hi] at hj
          cases hj
        exact (h.inside hj).obs (f := fun s => P.mem s.2 y)
          ⟨y, ⟨x, Call.mem_others (h.mem_live hhand) hne, hy, hy'⟩, rfl⟩
    rw [checkFree_congr (b := (v.cache, v.source)) hmem hf]
    exact (checkFree_live hv.cache hz (hv.live.symm.subset (h.mem_live hhand))).2 f hf

/-- **A core takes the lock.** -/
theorem acquire (hP : P.Lawful) (hH : HandsOut P I) (haddr : addr < 2 ^ 64)
    (hz : Fits v.cache.objSize) (hv : v.Inv P I addr S) (hi : w.machine.thread i = .waiting op [])
    (hfree : w.machine.locked = false) :
    Smp.Inv P addr v₀ { w with machine :=
      { w.machine.set i (.inside op ((system P addr).prog op)) with locked := true } } v pending := by
  have hexclusive : Machine.Exclusive
      { w.machine.set i (.inside op ((system P addr).prog op)) with locked := true } :=
    (Machine.Step.acquire (T := system P addr) hi hfree).exclusive h.exclusive
  refine ⟨h.serial, hexclusive, h.live, h.hands.move (by rw [hi]; rfl),
    Machine.forall_set h.passing trivial, fun htaken => Bool.noConfusion htaken,
    fun {j op' rest'} hj => ?_⟩
  obtain rfl := hexclusive.unique hj Machine.set_thread_self
  obtain ⟨rfl, rfl⟩ := Thread.inside.inj (hj.symm.trans Machine.set_thread_self)
  change Running _ _ _ _ _ w.machine.shared
  rw [h.outside hfree]
  refine .start (oneCall_prog hP hH haddr hz hv fun x hx => h.mem_live (i := j) ?_)
  rw [hi]
  exact hx

/-- The core under the lock gives it back. -/
theorem leave {v' : World σ} (released : List (ι × Returned))
    (hi : w.machine.thread i = .inside op rest)
    (hserial : Serial P addr v₀ (released.map Prod.snd) v') (hlive : v'.live.Perm (pending' ++ w.live))
    (hhands : Hands (w.machine.set i (.returning r)).thread pending') :
    Smp.Inv P addr v₀ { w with machine := { w.machine.set i (.returning r) with
      locked := false, shared := (v'.cache, v'.source) }, released := released } v' pending' := by
  have hout : ∀ j op' rest', (w.machine.set i (.returning r)).thread j ≠ .inside op' rest' := by
    intro j op' rest' hj
    rcases Machine.thread_set hj with ⟨-, heq⟩ | ⟨hji, hj⟩
    · cases heq
    · exact hji (h.exclusive.unique hj hi)
  exact ⟨hserial, ⟨iff_of_false Bool.false_ne_true fun ⟨j, op', rest', hj⟩ => hout j op' rest' hj,
    fun hj _ => absurd hj (hout _ _ _)⟩, hlive, hhands, Machine.forall_set h.passing trivial,
    fun _ => rfl, fun hj => absurd hj (hout _ _ _)⟩

/-- **A call gives the lock back**: it is one sequential call from `v`, and the writes of others since
then. -/
theorem release (hP : P.Lawful) (hH : HandsOut P I) (haddr : addr < 2 ^ 64)
    (hz₀ : Fits v₀.cache.objSize) (h₀ : v₀.Inv P I addr S₀)
    (hi : w.machine.thread i = .inside op (.ret r)) :
    ∃ v' pending', Smp.Inv P addr v₀
      { w with machine := { w.machine.set i (.returning r) with locked := false },
               released := (i, r) :: w.released } v' pending' := by
  obtain ⟨hobj, S, hv⟩ := h.serial.run.inv hH haddr hz₀ h₀
  have hz : Fits v.cache.objSize := by rwa [hobj]
  obtain ⟨_, ⟨B, b, hB, rfl⟩, ⟨c', s'⟩, heq, hshared⟩ :=
    (h.inside hi).returned (writes_reads_others hP hz hv)
  -- a write of others after the call
  have hafter : ∀ {l live}, Serial P addr v₀ l ⟨c', s', live⟩ → (∀ o ∈ op.others v.live, o ∈ live) →
      Serial P addr v₀ l ⟨c', P.setMem s' (Mem.patch B b (P.mem s')), live⟩ := by
    intro l live hserial hsub
    have hobj' : c'.objSize = v₀.cache.objSize := (hserial.run.inv hH haddr hz₀ h₀).1
    refine hserial.write fun y hy => Mem.patch_of_not (Bool.eq_false_iff.mpr fun hBy => ?_)
    obtain ⟨o, ho, hlow, hhigh⟩ := hB y hBy
    have hout := hy o (hsub o ho)
    simp only [hobj', hobj] at hout hhigh
    omega
  rw [Locked.write] at hshared
  cases op with
  | alloc =>
    have hrun : ((Locked.alloc P addr).run (v.cache, v.source)).bind
        (fun r => (pure (Returned.alloc r.1) : Prog (KmemCache × σ) Returned).run r.2)
          = some (r, c', s') := (Prog.run_bind ..).symm.trans heq
    rw [Locked.run_alloc hP] at hrun
    obtain ⟨⟨x, c₁, s₁⟩, halloc, hret⟩ := Option.bind_eq_some_iff.mp hrun
    obtain ⟨rfl, hs⟩ := Prod.mk.inj (Option.some.inj hret)
    obtain ⟨rfl, rfl⟩ := Prod.mk.inj hs
    have hserial := hafter (h.serial.alloc halloc) fun o ho => List.mem_append_right _ ho
    -- the object is a new one
    obtain ⟨hobj', S', hv'⟩ := hserial.run.inv hH haddr hz₀ h₀
    have hnd : ((Returned.alloc x).objects ++ v.live).Nodup :=
      nodup_live (by rwa [hobj']) hv'
    have hnew : ∀ y ∈ (Returned.alloc x).objects, y ∉ pending := fun y hy hin =>
      (List.nodup_append.mp hnd).2.2 y hy y (h.live.symm.subset (List.mem_append_left _ hin)) rfl
    have hperm : ((Returned.alloc x).objects ++ v.live).Perm
        (((Returned.alloc x).objects ++ pending) ++ w.live) := by
      rw [List.append_assoc]
      exact h.live.append_left _
    have hhands : Hands (w.machine.set i (.returning (.alloc x))).thread
        ((Returned.alloc x).objects ++ pending) :=
      h.hands.set (fun y hy hin => absurd hin (hnew y hy)) fun y => by
        simp [inHand, hi, Call.objects]
    have hinv := h.leave ((i, .alloc x) :: w.released) hi hserial hperm hhands
    simp only [← hshared] at hinv
    exact ⟨_, _, hinv⟩
  | free x =>
    have hhand : x ∈ inHand (w.machine.thread i) := by
      rw [hi]
      exact List.mem_singleton_self x
    have hx : x ∈ v.live := h.mem_live hhand
    have hxp : x ∈ pending := (h.hands.mem x).mpr ⟨i, hhand⟩
    have hnd : (pending ++ w.live).Nodup := h.live.nodup_iff.mp (nodup_live hz hv)
    obtain ⟨hne, hcheck⟩ := checkFree_live hv.cache hz (hv.live.symm.subset hx)
    have hrun : ((Locked.free P x).run (v.cache, v.source)).bind
        (fun r => (pure (Returned.free x) : Prog (KmemCache × σ) Returned).run r.2)
          = some (r, c', s') := (Prog.run_bind ..).symm.trans heq
    rw [Locked.run_free hP hne hcheck, Option.bind_map] at hrun
    obtain ⟨⟨c₁, s₁⟩, hfree, hret⟩ := Option.bind_eq_some_iff.mp hrun
    obtain ⟨rfl, hs⟩ := Prod.mk.inj (Option.some.inj hret)
    obtain ⟨rfl, rfl⟩ := Prod.mk.inj hs
    have hserial := hafter (h.serial.free hx hfree) fun o ho => ho
    have hperm := h.live.erase x
    rw [List.erase_append_left _ hxp] at hperm
    have hhands : Hands (w.machine.set i (.returning (.free x))).thread (pending.erase x) :=
      h.hands.set (fun y hy => absurd hy List.not_mem_nil) fun y => by
        rw [(List.nodup_append.mp hnd).1.mem_erase_iff]
        simp [inHand, hi, Returned.objects, Call.objects, and_comm]
    have hinv := h.leave ((i, .free x) :: w.released) hi hserial hperm hhands
    simp only [← hshared] at hinv
    exact ⟨_, _, hinv⟩

/-- **A call returns**, and its caller gets the object. -/
theorem ret (hz : Fits v.cache.objSize) (hv : v.Inv P I addr S)
    (hi : w.machine.thread i = .returning r) :
    ∃ pending', Smp.Inv P addr v₀
      { w with machine := w.machine.set i .outside, live := r.objects ++ w.live,
               returned := (i, r) :: w.returned } v pending' := by
  have hnd : pending.Nodup := (List.nodup_append.mp (h.live.nodup_iff.mp (nodup_live hz hv))).1
  have hsub : r.objects ⊆ pending := fun x hx => (h.hands.mem x).mpr ⟨i, by rwa [hi]⟩
  have hperm : (r.objects ++ pending.diff r.objects).Perm pending :=
    List.subperm_append_diff_self_of_count_le
      (List.subperm_ext_iff.mp (List.subperm_of_subset r.nodup_objects hsub))
  refine ⟨pending.diff r.objects, h.move (by simp [hi]) (by simp) trivial ?_ ?_⟩
  · refine h.live.trans ((hperm.symm.append_right w.live).trans ?_)
    rw [← List.append_assoc]
    exact List.perm_append_comm.append_right w.live
  · refine h.hands.set (fun x hx => absurd hx List.not_mem_nil) fun x => ?_
    rw [hnd.mem_sdiff_iff, hi]
    simp [inHand]

omit [DecidableEq ι] in
/-- **A caller writes**: the write is moved before the call under the lock, or behind it. -/
theorem write (hP : P.Lawful) (hz : Fits v.cache.objSize) (hv : v.Inv P I addr S)
    {B : ℕ → Bool} {b : Mem} (hB : ∀ y, B y = true → y ∈ Locked.liveBytes v.cache.objSize w.live) :
    ∃ v', Smp.Inv P addr v₀
      { w with machine := { w.machine with shared := Locked.write P B b w.machine.shared } } v'
      pending := by
  have hserial : Serial P addr v₀ (w.released.map Prod.snd)
      ⟨v.cache, P.setMem v.source (Mem.patch B b (P.mem v.source)), v.live⟩ := by
    refine h.serial.write fun y hy => Mem.patch_of_not (Bool.eq_false_iff.mpr fun hBy => ?_)
    obtain ⟨o, ho, hlow, hhigh⟩ := hB y hBy
    have hout := hy o (h.live.symm.subset (List.mem_append_right _ ho))
    omega
  have hexclusive : Machine.Exclusive
      { w.machine with shared := Locked.write P B b w.machine.shared } :=
    ⟨h.exclusive.locked_iff, h.exclusive.unique⟩
  cases hlocked : w.machine.locked with
  | false =>
    refine ⟨_, hserial, hexclusive, h.live, h.hands, h.passing, fun _ => ?_,
      fun {i op rest} hi => ?_⟩
    · change Locked.write P B b w.machine.shared = _
      rw [h.outside hlocked]
      rfl
    · have htaken := h.exclusive.locked_iff.mpr ⟨i, op, rest, hi⟩
      exact absurd (hlocked.symm.trans htaken) Bool.noConfusion
  | true =>
    obtain ⟨i, op, rest, hi⟩ := h.exclusive.locked_iff.mp hlocked
    have hmem : Locked.write P B b ∈
        Locked.writes P (Locked.liveBytes v.cache.objSize (op.others v.live)) := by
      refine ⟨B, b, fun y hBy => ?_, rfl⟩
      obtain ⟨o, ho, hy⟩ := hB y hBy
      refine ⟨o, Call.mem_others (h.live.symm.subset (List.mem_append_right _ ho)) fun hin => ?_, hy⟩
      exact h.notMem_live hz hv ho ((h.hands.mem o).mpr ⟨i, by rwa [hi]⟩)
    have honly : ∀ {j op' rest'}, w.machine.thread j = .inside op' rest' →
        op' = op ∧ rest' = rest := fun hj => by
      obtain rfl := h.exclusive.unique hj hi
      exact Thread.inside.inj (hj.symm.trans hi)
    have htaken : w.machine.locked = false → False := fun hfree =>
      Bool.noConfusion (hlocked.symm.trans hfree)
    rcases (h.inside hi).write (writes_reads_others hP hz hv) hmem with hrun | hrun
    · refine ⟨v, h.serial, hexclusive, h.live, h.hands, h.passing,
        fun hfree => (htaken hfree).elim, fun {j op' rest'} hj => ?_⟩
      obtain ⟨rfl, rfl⟩ := honly hj
      exact hrun
    · refine ⟨_, hserial, hexclusive, h.live, h.hands, h.passing,
        fun hfree => (htaken hfree).elim, fun {j op' rest'} hj => ?_⟩
      obtain ⟨rfl, rfl⟩ := honly hj
      exact hrun

/-- **A caller frees an object.** -/
theorem callFree (hz : Fits v.cache.objSize) (hv : v.Inv P I addr S) (hx : x ∈ w.live)
    (hi : w.machine.thread i = .outside) :
    Smp.Inv P addr v₀ { w with machine := w.machine.set i (.waiting (.free x) (Locked.checkFree P addr x)),
                               live := w.live.erase x } v (x :: pending) := by
  refine h.move (by simp [hi]) (by simp) (List.Subset.refl _) ?_ ?_
  · refine h.live.trans ?_
    refine (List.Perm.append_left _ (List.perm_cons_erase hx)).trans ?_
    exact List.perm_middle
  · refine h.hands.set (fun y hy hin => ?_) fun y => ?_
    · obtain rfl := List.mem_singleton.mp hy
      exact absurd hin (h.notMem_live hz hv hx)
    · simp [inHand, hi, Call.objects]

end Smp.Inv

end KmemCache

end MioOS
