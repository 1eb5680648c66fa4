import MioOS.Slub.Interleaving

/-!
# Slub/Linearizable — what holds in every interleaving of the calls of one cache

`Smp.Run.linearizable`: no two cores are under the lock, no `free` panics, a core under the lock comes
to its end, and the calls that have given the lock back are a sequential run, in the order in which they
did; each core returns from its calls in that order and with these results.  `Smp.Run.deadlockFree`:
every call can still return.
-/

namespace MioOS

open ByteMemory Spinlock

namespace KmemCache

variable {σ ι : Type} [DecidableEq ι] {P : PageSource σ} {I : σ → Set ℕ → Prop} {c : KmemCache}
  {S₀ : Slabs} {s₀ : σ} {addr objSize : ℕ} {w w' : Smp ι σ} {v v₀ : World σ} {pending : List ℕ}
  {op : Call} {i : ι} {rest : Prog (KmemCache × σ) Returned} {r : Returned}

/-! ## Every interleaving -/

/-- **Going on keeps the invariant.** -/
theorem Smp.GoOn.inv (hP : P.Lawful) (hH : HandsOut P I) (haddr : addr < 2 ^ 64)
    (hz₀ : Fits v₀.cache.objSize) (h₀ : v₀.Inv P I addr S₀) (hgo : Smp.GoOn P addr i w w')
    (h : w.Inv P addr v₀ v pending) : ∃ v' pending', w'.Inv P addr v₀ v' pending' := by
  obtain ⟨hobj, S, hv⟩ := h.serial.run.inv hH haddr hz₀ h₀
  have hz : Fits v.cache.objSize := by rwa [hobj]
  cases hgo with
  | silent hstep =>
    cases hstep with
    | check hi _ =>
      have hpassing := h.passing i
      rw [hi] at hpassing
      exact ⟨v, pending, h.move (by simp [hi]) (by simp)
        (List.Subset.trans (List.subset_cons_self _ _) hpassing) h.live
        (h.hands.move (by rw [hi]; rfl))⟩
    | fail hi hfail => exact absurd ((h.check hz hv hi).symm.trans hfail) Bool.noConfusion
    | spin _ _ => exact ⟨v, pending, h⟩
    | acquire hi hfree => exact ⟨v, pending, h.acquire hP hH haddr hz hv hi hfree⟩
    | act hi => exact ⟨v, pending, h.goOn hi (h.inside hi).act⟩
    | callOut hi =>
      exact ⟨v, pending, h.goOn hi ((h.inside hi).call (writes_reads_others hP hz hv))⟩
  | release hstep =>
    cases hstep with
    | release hi => exact h.release hP hH haddr hz₀ h₀ hi
  | ret hstep =>
    cases hstep with
    | ret hi => exact ⟨v, h.ret hz hv hi⟩

/-- **Every step keeps the invariant.** -/
theorem Smp.Step.inv (hP : P.Lawful) (hH : HandsOut P I) (haddr : addr < 2 ^ 64)
    (hz₀ : Fits v₀.cache.objSize) (h₀ : v₀.Inv P I addr S₀)
    (hstep : Smp.Step P addr v₀.cache.objSize w w') (h : w.Inv P addr v₀ v pending) :
    ∃ v' pending', w'.Inv P addr v₀ v' pending' := by
  obtain ⟨hobj, S, hv⟩ := h.serial.run.inv hH haddr hz₀ h₀
  have hz : Fits v.cache.objSize := by rwa [hobj]
  cases hstep with
  | callAlloc hstep =>
    cases hstep with
    | call hi =>
      exact ⟨v, pending, h.move (by simp [hi]) (by simp) (List.Subset.refl _) h.live
        (h.hands.move (by rw [hi]; rfl))⟩
  | callFree hx hstep =>
    cases hstep with
    | call hi => exact ⟨v, _, h.callFree hz hv hx hi⟩
  | goOn hgo => exact hgo.inv hP hH haddr hz₀ h₀ h
  | write hB hstep =>
    cases hstep with
    | write =>
      obtain ⟨v', h'⟩ := h.write hP hz hv (by rwa [hobj])
      exact ⟨v', pending, h'⟩

variable (P addr) in
/-- **The core under the lock can return**, and returns what its program gives. -/
theorem Smp.exists_finish {s : KmemCache × σ} (hi : w.machine.thread i = .inside op rest)
    (hrun : rest.run w.machine.shared = some (r, s)) :
    ∃ w', Smp.RunOf P addr {i} w w' ∧ w'.machine.thread i = .outside ∧ w'.machine.locked = false ∧
      w'.machine.shared = s ∧ w'.live = r.objects ++ w.live ∧ w'.returned = (i, r) :: w.returned := by
  obtain ⟨M, hsteps, hret, hshared⟩ := Machine.silent_inside (T := system P addr) hi hrun
  have hlift : Smp.RunOf P addr {i} w { w with machine := M } :=
    Relation.ReflTransGen.lift (p := fun w w' => ∃ k ∈ ({i} : Set ι), Smp.GoOn P addr k w w')
      (fun M => ({ w with machine := M } : Smp ι σ)) (fun _ _ hstep => ⟨i, rfl, .silent hstep⟩) _ _
      hsteps
  refine ⟨_, (hlift.tail ⟨i, rfl, .release (.release hret)⟩).tail
    ⟨i, rfl, .ret (.ret Machine.set_thread_self)⟩, Machine.set_thread_self, rfl, hshared, rfl, rfl⟩

/-- **What holds in every interleaving.** -/
structure Smp.Sound (P : PageSource σ) (addr : ℕ) (v₀ : World σ) (w : Smp ι σ) : Prop where
  /-- No two cores are under the lock, and it is taken exactly if one is. -/
  exclusive : w.machine.Exclusive
  /-- No `free` panics. -/
  passed : ∀ i op, w.machine.thread i ≠ .failed op
  /-- A core under the lock comes to its end. -/
  finishes : ∀ i op rest, w.machine.thread i = .inside op rest → (rest.run w.machine.shared).isSome
  /-- Objects of callers do not overlap. -/
  apart : w.live.Pairwise fun x y => x + v₀.cache.objSize ≤ y ∨ y + v₀.cache.objSize ≤ x
  /-- The calls that have given the lock back are a sequential run, in this order and with these results;
  where it leads is where the cache is whenever the lock is free. -/
  serial : ∃ v pending, Serial P addr v₀ (w.released.map Prod.snd) v ∧
    v.live.Perm (pending ++ w.live) ∧
    (∀ x, x ∈ pending ↔ ∃ i, x ∈ inHand (w.machine.thread i)) ∧
    (w.machine.locked = false → w.machine.shared = (v.cache, v.source))
  /-- Each core returns from its calls in that order, and with these results. -/
  ordered : w.Ordered

/-- The invariant holds in every interleaving. -/
theorem Smp.Run.inv (hH : HandsOut P I) (hP : P.Lawful) (hs : I s₀ ∅) (haddr : addr < 2 ^ 64)
    (hc : c.partialList = 0) (hz : Fits c.objSize)
    (hrun : Smp.Run P addr c.objSize (Smp.start ι c s₀) w) :
    ∃ v pending S, w.Inv P addr ⟨c, s₀, []⟩ v pending ∧ v.Inv P I addr S ∧
      v.cache.objSize = c.objSize := by
  have h₀ : World.Inv P I addr ⟨c, s₀, []⟩ Slabs.none := inv_start hs c hc
  have hinv : ∃ v pending, w.Inv P addr ⟨c, s₀, []⟩ v pending := by
    induction hrun with
    | refl =>
      refine ⟨⟨c, s₀, []⟩, [], .start, ⟨?_, ?_⟩, .refl _, ⟨?_, ?_⟩, fun _ => trivial, fun _ => rfl,
        ?_⟩ <;> simp [Smp.start, inHand]
    | tail _ hstep ih =>
      obtain ⟨v, pending, h⟩ := ih
      exact hstep.inv hP hH haddr hz h₀ h
  obtain ⟨v, pending, h⟩ := hinv
  obtain ⟨hobj, S, hv⟩ := h.serial.run.inv hH haddr hz h₀
  exact ⟨v, pending, S, h, hv, hobj⟩

theorem Smp.Run.ordered (hrun : Smp.Run P addr objSize (Smp.start ι c s₀) w) : w.Ordered := by
  induction hrun with
  | refl => exact fun _ => rfl
  | tail _ hstep ih => exact hstep.ordered ih

/-- **A cache is linearizable** under its lock, whatever the cores and the callers do. -/
theorem Smp.Run.linearizable (hP : P.Lawful) (hH : HandsOut P I) (hs : I s₀ ∅) (haddr : addr < 2 ^ 64)
    (hc : c.partialList = 0) (hz : Fits c.objSize)
    (hrun : Smp.Run P addr c.objSize (Smp.start ι c s₀) w) : w.Sound P addr ⟨c, s₀, []⟩ := by
  obtain ⟨v, pending, S, h, hv, hobj⟩ := Smp.Run.inv hH hP hs haddr hc hz hrun
  have hz' : Fits v.cache.objSize := by rwa [hobj]
  refine ⟨h.exclusive, fun i op hi => ?_, fun i op rest hi => ?_, ?_,
    ⟨v, pending, h.serial, h.live, h.hands.mem, h.outside⟩, hrun.ordered⟩
  · have hpassing := h.passing i
    rw [hi] at hpassing
    exact hpassing
  · exact (h.inside hi).isSome_run (writes_reads_others hP hz' hv)
  · have hnd : (pending ++ w.live).Nodup := h.live.nodup_iff.mp (nodup_live hz' hv)
    have hmem : ∀ x ∈ w.live, x ∈ S.objects := fun x hx =>
      hv.live.symm.subset (h.live.symm.subset (List.mem_append_right _ hx))
    rw [← hobj]
    refine (List.nodup_append.mp hnd).2.1.imp_of_mem fun hx hy hne => ?_
    exact hv.cache.apart hz' (hmem _ hx) (hmem _ hy) hne

/-- Three cores call `alloc`, and the first takes the lock. -/
theorem Smp.exists_locked (P : PageSource σ) (addr objSize : ℕ) (c : KmemCache) (s₀ : σ) :
    ∃ w : Smp (Fin 3) σ, Smp.Run P addr objSize (Smp.start (Fin 3) c s₀) w ∧
      w.machine.thread 0 = .inside .alloc ((system P addr).prog .alloc) ∧
      (∀ i, i ≠ 0 → w.machine.thread i = .waiting .alloc []) ∧
      w.machine.shared = (c, s₀) ∧ w.live = [] ∧ w.returned = [] := by
  have hcall : Smp.Run P addr objSize (Smp.start (Fin 3) c s₀) _ :=
    ((Relation.ReflTransGen.single (.callAlloc (.call (i := 0) rfl))).tail
      (.callAlloc (.call (i := 1) rfl))).tail (.callAlloc (.call (i := 2) rfl))
  refine ⟨_, hcall.tail (.goOn (.silent (.acquire (i := 0)
    (show _ = Thread.waiting Call.alloc [] from rfl) rfl))), rfl,
    fun i hi => ?_, rfl, rfl, rfl⟩
  fin_cases i
  · exact absurd rfl hi
  · rfl
  · rfl

/-- **One core takes an object, writes to it and frees it** while another takes the lock. -/
theorem Smp.exists_run (hP : P.Lawful) (hH : HandsOut P I) (hs : I s₀ ∅) (haddr : addr < 2 ^ 64)
    (hc : c.partialList = 0) (hz : Fits c.objSize)
    (hpage : ∀ s', P.allocPages s₀ 1 ≠ some (0, s')) :
    ∃ (w : Smp (Fin 3) σ) (x : ℕ), Smp.Run P addr c.objSize (Smp.start (Fin 3) c s₀) w ∧ x ≠ 0 ∧
      w.returned = [(0, .alloc x)] ∧
      w.machine.thread 0 = .waiting (.free x) (Locked.checkFree P addr x) ∧
      w.machine.locked = true := by
  have h₀ : World.Inv P I addr ⟨c, s₀, []⟩ Slabs.none := inv_start hs c hc
  obtain ⟨w₀, hlock, hinside, hwaits, hshared, hlive, hreturned⟩ :=
    Smp.exists_locked P addr c.objSize c s₀
  obtain ⟨x, s, hrun, hne⟩ : ∃ x s,
      ((system P addr).prog .alloc).run w₀.machine.shared = some (.alloc x, s) ∧ x ≠ 0 := by
    rw [hshared]
    rcases alloc_spec hH h₀.source h₀.cache hz haddr with ⟨s', -, -, -, hnull⟩ |
      ⟨x, c', s', S', heq, hobj, -, hcache, hobjects, -⟩
    · exact absurd hnull (hpage s')
    · refine ⟨x, (c', s'), ?_, hcache.ne_zero (by rwa [hobj]) (hobjects.symm.subset List.mem_cons_self)⟩
      exact Prog.run_bind_eq ((Locked.run_alloc hP).trans heq)
  obtain ⟨w₁, hrun₁, hout₁, hfree₁, -, hlive₁, hreturned₁⟩ := Smp.exists_finish P addr hinside hrun
  have hwaits₁ : w₁.machine.thread 1 = .waiting .alloc [] :=
    (hrun₁.thread_of_notMem (by decide)).trans (hwaits 1 (by decide))
  have hlive₁ : w₁.live = [x] := by simpa [Returned.objects, hne, hlive] using hlive₁
  have hreturned₁ : w₁.returned = [(0, .alloc x)] := by rw [hreturned₁, hreturned]
  -- it writes to its object, the second takes the lock, and it frees the object
  have hB : ∀ y, decide (y = x) = true → y ∈ Locked.liveBytes c.objSize w₁.live := fun y hy => by
    have hge := hz.ge
    obtain rfl := of_decide_eq_true hy
    exact ⟨y, by simp [hlive₁], le_rfl, by omega⟩
  have hwrite := (hlock.trans hrun₁.run).tail (.write (b := fun _ => 1) hB .write)
  have hother := hwrite.tail (.goOn (.silent (.acquire (i := 1) hwaits₁ hfree₁)))
  have hthread := (Machine.set_thread_of_ne (M := w₁.machine)
    (t := .inside .alloc ((system P addr).prog .alloc)) (by decide : (0 : Fin 3) ≠ 1)).trans hout₁
  exact ⟨_, x, hother.tail (.callFree (by simp [hlive₁]) (.call (i := 0) hthread)), hne, hreturned₁,
    Machine.set_thread_self, rfl⟩

/-- The cache of 64-byte objects right after boot: one core has taken an object and is freeing it while
another is under the lock. -/
theorem linearizable_overPmm : ∃ s₀ w x, PMM.Boots PMM.imageAt1M PMM.lowAndHigh s₀ ∧ x ≠ 0 ∧
    w.returned = [((0 : Fin 3), .alloc x)] ∧
    w.machine.thread 0 = .waiting (.free x) (Locked.checkFree PMM.pageSource 0x1000 x) ∧
    w.machine.locked = true ∧ Smp.Sound PMM.pageSource 0x1000 ⟨KmemCache.new 64, s₀, []⟩ w := by
  obtain ⟨s₀, J, hboot, hJ, hs, hpage⟩ := boots_handsOut
  have hP := PMM.pageSource_lawful
  have haddr : 0x1000 < 2 ^ 64 := by decide
  obtain ⟨w, x, hrun, hne, hreturned, hthread, hlocked⟩ :=
    Smp.exists_run hP hJ hs haddr rfl fits_new64 hpage
  exact ⟨s₀, w, x, hboot, hne, hreturned, hthread, hlocked,
    Smp.Run.linearizable hP hJ hs haddr rfl fits_new64 hrun⟩

/-! ## No deadlock -/

/-- The cores under the lock. -/
def Smp.holders (w : Smp ι σ) : Set ι := {k | ∃ op rest, w.machine.thread k = .inside op rest}

/-- **A call returns when the lock is free**, without a step of another core. -/
theorem Smp.Run.exists_return (hP : P.Lawful) (hH : HandsOut P I) (hs : I s₀ ∅)
    (haddr : addr < 2 ^ 64) (hc : c.partialList = 0) (hz : Fits c.objSize)
    (hrun : Smp.Run P addr c.objSize (Smp.start ι c s₀) w) (hfree : w.machine.locked = false) (i : ι) :
    ∃ w', Smp.RunOf P addr {i} w w' ∧ w'.machine.thread i = .outside := by
  obtain ⟨v, pending, S, h, hv, hobj⟩ := Smp.Run.inv hH hP hs haddr hc hz hrun
  cases hi : w.machine.thread i with
  | outside => exact ⟨w, .refl, hi⟩
  | waiting op fs =>
    induction fs generalizing w v pending S with
    | nil =>
      have hstep : Smp.GoOn P addr i w _ := .silent (.acquire hi hfree)
      have h' := h.acquire hP hH haddr (by rwa [hobj]) hv hi hfree
      obtain ⟨⟨r, s⟩, hend⟩ := Option.isSome_iff_exists.mp
        ((h'.inside Machine.set_thread_self).isSome_run (writes_reads_others hP (by rwa [hobj]) hv))
      obtain ⟨w', hrun', hout, -⟩ := Smp.exists_finish P addr Machine.set_thread_self hend
      exact ⟨w', hrun'.head ⟨i, rfl, hstep⟩, hout⟩
    | cons f fs ih =>
      have hstep : Smp.GoOn P addr i w _ := .silent (.check hi (h.check (by rwa [hobj]) hv hi))
      have hrun₁ := hrun.tail (.goOn hstep)
      obtain ⟨v₁, pending₁, S₁, h₁, hv₁, hobj₁⟩ := Smp.Run.inv hH hP hs haddr hc hz hrun₁
      obtain ⟨w', hrun', hout⟩ :=
        ih hrun₁ hfree v₁ pending₁ S₁ h₁ hv₁ hobj₁ Machine.set_thread_self
      exact ⟨w', hrun'.head ⟨i, rfl, hstep⟩, hout⟩
  | inside op rest =>
    have hlocked := h.exclusive.locked_iff.mpr ⟨i, op, rest, hi⟩
    exact absurd (hlocked.symm.trans hfree) Bool.noConfusion
  | returning r => exact ⟨_, .single ⟨i, rfl, .ret (.ret hi)⟩, Machine.set_thread_self⟩
  | failed op =>
    have hpassing := h.passing i
    rw [hi] at hpassing
    exact hpassing.elim

/-- **No deadlock**: in every interleaving, every call can still return, by steps of the caller and of the
core under the lock; the others stay where they are. -/
theorem Smp.Run.deadlockFree (hP : P.Lawful) (hH : HandsOut P I) (hs : I s₀ ∅) (haddr : addr < 2 ^ 64)
    (hc : c.partialList = 0) (hz : Fits c.objSize)
    (hrun : Smp.Run P addr c.objSize (Smp.start ι c s₀) w) (i : ι) :
    ∃ w', Smp.RunOf P addr (insert i w.holders) w w' ∧ w'.machine.thread i = .outside ∧
      ∀ j ∉ insert i w.holders, w'.machine.thread j = w.machine.thread j := by
  obtain ⟨w', hrun', hout⟩ : ∃ w', Smp.RunOf P addr (insert i w.holders) w w' ∧
      w'.machine.thread i = .outside := by
    cases hlocked : w.machine.locked with
    | false =>
      obtain ⟨w', hrun', hout⟩ := hrun.exists_return hP hH hs haddr hc hz hlocked i
      exact ⟨w', hrun'.mono (by simp), hout⟩
    | true =>
      -- the core under the lock returns first
      obtain ⟨v, pending, S, h, hv, hobj⟩ := Smp.Run.inv hH hP hs haddr hc hz hrun
      obtain ⟨k, op, rest, hk⟩ := h.exclusive.locked_iff.mp hlocked
      obtain ⟨⟨r, s⟩, hend⟩ := Option.isSome_iff_exists.mp
        ((h.inside hk).isSome_run (writes_reads_others hP (by rwa [hobj]) hv))
      obtain ⟨w₁, hrun₁, -, hfree₁, -⟩ := Smp.exists_finish P addr hk hend
      obtain ⟨w', hrun', hout⟩ :=
        Smp.Run.exists_return hP hH hs haddr hc hz (hrun.trans hrun₁.run) hfree₁ i
      have hholder : k ∈ insert i w.holders := Set.mem_insert_of_mem _ ⟨op, rest, hk⟩
      exact ⟨w', (hrun₁.mono (by simpa using hholder)).trans (hrun'.mono (by simp)), hout⟩
  exact ⟨w', hrun', hout, fun j hj => hrun'.thread_of_notMem hj⟩

/-- Three cores have called `alloc`, and the first is under the lock: the second one's call can return,
and the third waits. -/
theorem deadlockFree_overPmm : ∃ s₀ w, PMM.Boots PMM.imageAt1M PMM.lowAndHigh s₀ ∧
    w.holders = ({0} : Set (Fin 3)) ∧ w.machine.thread 1 = .waiting .alloc [] ∧
    ∃ w', Smp.RunOf PMM.pageSource 0x1000 {1, 0} w w' ∧ w'.machine.thread 1 = .outside ∧
      w'.machine.thread 2 = .waiting .alloc [] ∧ w.machine.shared = (KmemCache.new 64, s₀) := by
  obtain ⟨s₀, J, hboot, hJ, hs, -⟩ := boots_handsOut
  obtain ⟨w, hrun, hinside, hwaits, hshared, -, -⟩ := Smp.exists_locked PMM.pageSource 0x1000
    (KmemCache.new 64).objSize (KmemCache.new 64) s₀
  have hholders : w.holders = {0} := by
    ext k
    refine ⟨fun ⟨op, rest, hk⟩ => ?_, fun hk => hk ▸ ⟨_, _, hinside⟩⟩
    by_contra hne
    rw [hwaits k hne] at hk
    cases hk
  obtain ⟨w', hrun', hout, hothers⟩ := Smp.Run.deadlockFree PMM.pageSource_lawful hJ hs (by decide)
    rfl fits_new64 hrun 1
  rw [hholders] at hrun' hothers
  exact ⟨s₀, w, hboot, hholders, hwaits 1 (by decide), w', hrun', hout,
    (hothers 2 (by decide)).trans (hwaits 2 (by decide)), hshared⟩

end KmemCache

end MioOS
