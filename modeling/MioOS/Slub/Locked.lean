import MioOS.Library.Spinlock
import MioOS.Slub.Cache

/-!
# Slub/Locked — what `alloc` and `free` do under `cache_lock`

The functions of `slub.cpp` once more, now access by access: `Locked.alloc` and `Locked.free` are what
stands between `acquire_lock` and `release_lock`.  Every load, store and read or write of
`partial_list` is an action of its own, and so is a call of the page source.  Run without a break they
are `KmemCache.alloc` and `KmemCache.free` (`Locked.run_alloc`, `Locked.run_free`).
-/

namespace MioOS

open ByteMemory SlabHeader Spinlock

/-- The memory of a page source is a part of its state. -/
structure PageSource.Lawful {σ : Type} (P : PageSource σ) : Prop where
  mem_setMem : ∀ s m, P.mem (P.setMem s m) = m
  setMem_mem : ∀ s, P.setMem s (P.mem s) = s
  setMem_setMem : ∀ s m m', P.setMem (P.setMem s m) m' = P.setMem s m'

theorem PMM.pageSource_lawful : PMM.pageSource.Lawful := ⟨fun _ _ => rfl, fun _ => rfl, fun _ _ _ => rfl⟩

namespace KmemCache

namespace Locked

section Programs

variable {σ α β : Type} (P : PageSource σ)

/-! ## Actions -/

/-- A read of memory. -/
def load (f : Mem → α) : Prog (KmemCache × σ) α := .act id fun s => .ret (f (P.mem s.2))

/-- A write to memory. -/
def store (f : Mem → Mem) : Prog (KmemCache × σ) Unit :=
  .act (fun s => (s.1, P.setMem s.2 (f (P.mem s.2)))) fun _ => .ret ()

/-- A read of `obj_size`. -/
def getObjSize : Prog (KmemCache × σ) ℕ := .act id fun s => .ret s.1.objSize

/-- A read of `partial_list`. -/
def getPartialList : Prog (KmemCache × σ) ℕ := .act id fun s => .ret s.1.partialList

/-- `partial_list = v`. -/
def setPartialList (v : ℕ) : Prog (KmemCache × σ) Unit :=
  .act (fun s => ({ s.1 with partialList := v }, s.2)) fun _ => .ret ()

/-- `PMM::alloc_pages()`. -/
def allocPages : Prog (KmemCache × σ) ℕ :=
  .call (fun s => (s.1, (P.allocPages s.2 1).elim s.2 Prod.snd))
    fun s => (P.allocPages s.2 1).elim .stuck fun r => .ret r.1

/-- `PMM::free_pages(phys_ptr)`. -/
def freePages (phys : ℕ) : Prog (KmemCache × σ) Unit :=
  .call (fun s => (s.1, P.freePages s.2 phys 1)) fun _ => .ret ()

/-! ## The functions -/

/-- The `for` loop of `format_new_slab`. -/
def chainObjects (header objSize : ℕ) : ℕ → ℕ → ℕ → Prog (KmemCache × σ) ℕ
  | 0, _, _ => .stuck
  | fuel + 1, i, currentObj => do
    let maxObjs ← load P (maxObjs · header)
    if i < sub32 maxObjs 1 then do
      let nextObj := u64 (currentObj + objSize)
      store P (setFreePointer · currentObj nextObj)
      chainObjects header objSize fuel (i + 1) nextObj
    else pure currentObj

/-- `format_new_slab`. -/
def formatNewSlab (self header page : ℕ) : Prog (KmemCache × σ) Unit := do
  store P (setMagic · header slabMagic)
  store P (setCache · header self)
  store P (setInuse · header 0)
  store P (setNextSlab · header 0)
  store P (setPrevSlab · header 0)
  let objSize ← getObjSize
  let alignment := if objSize < 64 then objSize else 64
  let firstObj := alignUp (u64 (page + slabHeaderSize)) alignment
  store P (setFreelist · header firstObj)
  let availableSpace := sub64 pageSize (sub64 firstObj page)
  if objSize = 0 then .stuck
  else do
    store P (setMaxObjs · header (availableSpace / objSize))
    let currentObj ← chainObjects P header objSize (2 ^ 32) 0 firstObj
    store P (setFreePointer · currentObj 0)

/-- `if (slab) slab->prev_slab = v`. -/
def setPrevOf (slab v : ℕ) : Prog (KmemCache × σ) Unit :=
  if slab ≠ 0 then store P (setPrevSlab · slab v) else pure ()

/-- The slab becomes the head of the partial list. -/
def pushPartial (header : ℕ) : Prog (KmemCache × σ) Unit := do
  let partialList ← getPartialList
  store P (setNextSlab · header partialList)
  store P (setPrevSlab · header 0)
  setPrevOf P partialList header
  setPartialList header

/-- The end of `alloc` when the slab is full now. -/
def dropHead (targetSlab : ℕ) : Prog (KmemCache × σ) Unit := do
  let next ← load P (nextSlab · targetSlab)
  setPartialList next
  setPrevOf P next 0
  store P (setNextSlab · targetSlab 0)
  store P (setPrevSlab · targetSlab 0)

/-- The second half of `alloc`. -/
def popObject (targetSlab : ℕ) : Prog (KmemCache × σ) ℕ := do
  let object ← load P (freelist · targetSlab)
  let next ← load P (freePointer · object)
  store P (setFreelist · targetSlab next)
  let inuse ← load P (inuse · targetSlab)
  store P (setInuse · targetSlab (inuse + 1))
  let free ← load P (freelist · targetSlab)
  if free = 0 then do
    dropHead P targetSlab
    pure object
  else pure object

/-- `alloc` from a page of its own. -/
def allocFresh (self virtAddr : ℕ) : Prog (KmemCache × σ) ℕ := do
  formatNewSlab P self virtAddr virtAddr
  pushPartial P virtAddr
  popObject P virtAddr

/-- **`alloc` under the lock.** -/
def alloc (self : ℕ) : Prog (KmemCache × σ) ℕ := do
  let targetSlab ← getPartialList
  if targetSlab = 0 then do
    let physPtr ← allocPages P
    if physPtr = 0 then pure 0 else allocFresh P self (u64 (physPtr + hhdmBase))
  else popObject P targetSlab

/-- `header->prev_slab->next_slab = header->next_slab`, or the same for the head. -/
def unlinkNext (header prev : ℕ) : Prog (KmemCache × σ) Unit :=
  if prev ≠ 0 then do
    let next ← load P (nextSlab · header)
    store P (setNextSlab · prev next)
  else do
    let next ← load P (nextSlab · header)
    setPartialList next

/-- Taking a slab off the partial list in `free`. -/
def unlinkPartial (header : ℕ) : Prog (KmemCache × σ) Unit := do
  let prev ← load P (prevSlab · header)
  unlinkNext P header prev
  let next ← load P (nextSlab · header)
  let prev ← load P (prevSlab · header)
  setPrevOf P next prev

/-- The page of a slab without live objects goes back to the PMM. -/
def returnEmpty (header : ℕ) : Prog (KmemCache × σ) Unit := do
  let inuse ← load P (inuse · header)
  if inuse = 0 then do
    unlinkPartial P header
    freePages P (sub64 header hhdmBase)
  else pure ()

/-- A slab that was full is partial now. -/
def pushIfWasFull (header : ℕ) : Prog (KmemCache × σ) Unit := do
  let inuse ← load P (inuse · header)
  let maxObjs ← load P (maxObjs · header)
  if inuse = sub32 maxObjs 1 then pushPartial P header else pure ()

/-- The object goes back onto the free list. -/
def putObject (header object : ℕ) : Prog (KmemCache × σ) Unit := do
  let head ← load P (freelist · header)
  store P (setFreePointer · object head)
  store P (setFreelist · header object)
  let inuse ← load P (inuse · header)
  store P (setInuse · header (sub32 inuse 1))

/-- **`free` under the lock.** -/
def free (object : ℕ) : Prog (KmemCache × σ) Unit := do
  let header := alignDown object pageSize
  putObject P header object
  pushIfWasFull P header
  returnEmpty P header

/-- What `free` checks before it takes the lock, load by load. -/
def checkFree (self object : ℕ) : List (KmemCache × σ → Bool) :=
  [fun s => magic (P.mem s.2) (alignDown object pageSize) == slabMagic,
    fun s => cache (P.mem s.2) (alignDown object pageSize) == self]

end Programs

/-! ## Runs without a break -/

variable {σ α β : Type} {P : PageSource σ} {c : KmemCache} {s : σ} {m : Mem} {self : ℕ}

section Runs

variable {k : α → Prog (KmemCache × σ) β} {k' : Unit → Prog (KmemCache × σ) β}
  {j : ℕ → Prog (KmemCache × σ) β}

theorem run_load (hP : P.Lawful) (f : Mem → α) :
    (load P f).run (c, P.setMem s m) = some (f m, c, P.setMem s m) :=
  congrArg (fun m' => some (f m', c, P.setMem s m)) (hP.mem_setMem s m)

theorem run_load_bind (hP : P.Lawful) (f : Mem → α) :
    (load P f >>= k).run (c, P.setMem s m) = (k (f m)).run (c, P.setMem s m) :=
  Prog.run_bind_eq (run_load hP f)

theorem run_store (hP : P.Lawful) (f : Mem → Mem) :
    (store P f).run (c, P.setMem s m) = some ((), c, P.setMem s (f m)) := by
  refine congrArg (fun s' => some ((), c, s')) ?_
  rw [hP.mem_setMem, hP.setMem_setMem]

theorem run_store_bind (hP : P.Lawful) (f : Mem → Mem) :
    (store P f >>= k').run (c, P.setMem s m) = (k' ()).run (c, P.setMem s (f m)) :=
  Prog.run_bind_eq (run_store hP f)

theorem run_getObjSize : (getObjSize >>= j).run (c, s) = (j c.objSize).run (c, s) := rfl

theorem run_getPartialList : (getPartialList >>= j).run (c, s) = (j c.partialList).run (c, s) := rfl

theorem run_setPartialList (v : ℕ) :
    (setPartialList v).run (c, s) = some ((), { c with partialList := v }, s) := rfl

theorem run_setPartialList_bind (v : ℕ) :
    (setPartialList v >>= k').run (c, s) = (k' ()).run ({ c with partialList := v }, s) := rfl

end Runs

theorem run_setPrevOf (hP : P.Lawful) (slab v : ℕ) :
    (setPrevOf P slab v).run (c, P.setMem s m)
      = some ((), c, P.setMem s (if slab ≠ 0 then setPrevSlab m slab v else m)) := by
  rw [setPrevOf]
  split
  · exact run_store hP _
  · rfl

theorem run_chainObjects (hP : P.Lawful) (header objSize : ℕ) : ∀ (fuel i currentObj : ℕ) (m : Mem),
    (chainObjects P header objSize fuel i currentObj).run (c, P.setMem s m)
      = (KmemCache.chainObjects header objSize fuel i currentObj m).map fun r =>
          (r.1, c, P.setMem s r.2)
  | 0, _, _, _ => rfl
  | fuel + 1, i, currentObj, m => by
      rw [chainObjects, KmemCache.chainObjects, run_load_bind hP]
      split
      · rw [run_store_bind hP]
        exact run_chainObjects hP header objSize fuel _ _ _
      · rfl

theorem run_formatNewSlab (hP : P.Lawful) (header page : ℕ) :
    (formatNewSlab P self header page).run (c, P.setMem s m)
      = (KmemCache.formatNewSlab self c header page m).map fun m' => ((), c, P.setMem s m') := by
  rw [formatNewSlab, KmemCache.formatNewSlab]
  simp only [run_store_bind hP, run_getObjSize]
  split
  · rfl
  · rw [run_store_bind hP, Prog.run_bind, run_chainObjects hP]
    generalize KmemCache.chainObjects header c.objSize (2 ^ 32) 0 _ _ = chained
    cases chained with
    | none => rfl
    | some r =>
      rw [Option.map_some, Option.bind_some, Option.map_some]
      exact run_store hP (setFreePointer · r.1 0)

theorem run_pushPartial (hP : P.Lawful) (header : ℕ) :
    (pushPartial P header).run (c, P.setMem s m)
      = some ((), (KmemCache.pushPartial c header m).1,
          P.setMem s (KmemCache.pushPartial c header m).2) := by
  rw [pushPartial, run_getPartialList, run_store_bind hP, run_store_bind hP, Prog.run_bind,
    run_setPrevOf hP]
  rfl

theorem run_dropHead (hP : P.Lawful) (header : ℕ) :
    (dropHead P header).run (c, P.setMem s m)
      = some ((), (KmemCache.dropHead c header m).1,
          P.setMem s (KmemCache.dropHead c header m).2) := by
  rw [dropHead, run_load_bind hP, run_setPartialList_bind, Prog.run_bind, run_setPrevOf hP,
    Option.bind_some, run_store_bind hP, run_store hP]
  rfl

theorem run_popObject (hP : P.Lawful) (header : ℕ) :
    (popObject P header).run (c, P.setMem s m)
      = some ((KmemCache.popObject c header m).1, (KmemCache.popObject c header m).2.1,
          P.setMem s (KmemCache.popObject c header m).2.2) := by
  rw [popObject, run_load_bind hP, run_load_bind hP, run_store_bind hP, run_load_bind hP, run_store_bind hP,
    run_load_bind hP, popObject_eq]
  change Prog.run (if freelist (takeObject m header) header = 0 then _ else _)
    (c, P.setMem s (takeObject m header)) = _
  split
  · rw [Prog.run_bind, run_dropHead hP]
    rfl
  · rfl

theorem run_allocPages {j : ℕ → Prog (KmemCache × σ) β} :
    (allocPages P >>= j).run (c, s) = (P.allocPages s 1).bind fun r => (j r.1).run (c, r.2) := by
  have hcall : (allocPages P).run (c, s) = (P.allocPages s 1).map fun r => (r.1, c, r.2) := by
    rw [allocPages, Prog.run]
    dsimp only
    cases P.allocPages s 1 with
    | none => rfl
    | some r => rfl
  rw [Prog.run_bind, hcall, Option.bind_map]
  rfl

/-- `KmemCache.alloc` from a page of its own. -/
def allocFrom (P : PageSource σ) (self : ℕ) (c : KmemCache) (virtAddr : ℕ) (s : σ) :
    Option (ℕ × KmemCache × σ) :=
  (KmemCache.formatNewSlab self c virtAddr virtAddr (P.mem s)).map fun m =>
    let (c, m) := KmemCache.pushPartial c virtAddr m
    let (object, c, m) := KmemCache.popObject c virtAddr m
    (object, c, P.setMem s m)

theorem alloc_eq (P : PageSource σ) (self : ℕ) (c : KmemCache) (s : σ) :
    KmemCache.alloc P self c s = if c.partialList = 0 then
        (P.allocPages s 1).bind fun r =>
          if r.1 = 0 then some (0, c, r.2) else allocFrom P self c (u64 (r.1 + hhdmBase)) r.2
      else
        let r := KmemCache.popObject c c.partialList (P.mem s)
        some (r.1, r.2.1, P.setMem s r.2.2) := by
  delta KmemCache.alloc allocFrom
  -- the three parts are not to be unfolded
  generalize KmemCache.formatNewSlab = format, KmemCache.pushPartial = push
  generalize KmemCache.popObject = pop
  rfl

theorem run_allocFresh (hP : P.Lawful) (virtAddr : ℕ) :
    (allocFresh P self virtAddr).run (c, s) = allocFrom P self c virtAddr s := by
  have hformat : (formatNewSlab P self virtAddr virtAddr).run (c, P.setMem s (P.mem s)) = _ :=
    run_formatNewSlab hP virtAddr virtAddr
  rw [hP.setMem_mem] at hformat
  rw [allocFresh, allocFrom]
  generalize formatNewSlab P self virtAddr virtAddr = format at hformat ⊢
  generalize KmemCache.formatNewSlab self c virtAddr virtAddr (P.mem s) = formatted at hformat ⊢
  cases formatted with
  | none =>
    rw [Prog.run_bind, hformat]
    rfl
  | some m' =>
    rw [Prog.run_bind_eq hformat, Prog.run_bind_eq (run_pushPartial hP virtAddr)]
    have hpop : (popObject P virtAddr).run ((KmemCache.pushPartial c virtAddr m').1,
        P.setMem s (KmemCache.pushPartial c virtAddr m').2) = _ := run_popObject hP virtAddr
    rw [hpop, Option.map_some]

/-- **`alloc` is what it does under the lock**, run at once. -/
theorem run_alloc (hP : P.Lawful) :
    (alloc P self).run (c, s) = KmemCache.alloc P self c s := by
  rw [alloc, run_getPartialList, alloc_eq]
  split
  · rw [run_allocPages]
    refine congrArg (Option.bind _) (funext fun r => ?_)
    split
    · rfl
    · exact run_allocFresh hP _
  · have hpop : (popObject P c.partialList).run (c, P.setMem s (P.mem s)) = _ :=
      run_popObject hP c.partialList
    rw [hP.setMem_mem] at hpop
    exact hpop

theorem run_putObject (hP : P.Lawful) (header object : ℕ) :
    (putObject P header object).run (c, P.setMem s m)
      = some ((), c, P.setMem s (KmemCache.putObject m header object)) := by
  rw [putObject, run_load_bind hP, run_store_bind hP, run_store_bind hP, run_load_bind hP, run_store hP]
  rfl

theorem run_pushIfWasFull (hP : P.Lawful) (header : ℕ) :
    (pushIfWasFull P header).run (c, P.setMem s m)
      = some ((), (pushedIfWasFull c header m).1, P.setMem s (pushedIfWasFull c header m).2) := by
  rw [pushIfWasFull, run_load_bind hP, run_load_bind hP, pushedIfWasFull]
  split
  · exact run_pushPartial hP header
  · rfl

/-- The memory after `header->prev_slab->next_slab = header->next_slab`. -/
def nextUnlinked (header prev : ℕ) (m : Mem) : Mem :=
  if prev ≠ 0 then setNextSlab m prev (nextSlab m header) else m

theorem run_unlinkNext (hP : P.Lawful) (header prev : ℕ) :
    (unlinkNext P header prev).run (c, P.setMem s m)
      = some ((), if prev ≠ 0 then c else { c with partialList := nextSlab m header },
          P.setMem s (nextUnlinked header prev m)) := by
  rw [unlinkNext, nextUnlinked]
  split
  · rw [run_load_bind hP, run_store hP]
  · rw [run_load_bind hP, run_setPartialList]

theorem unlinkPartial_eq (c : KmemCache) (header : ℕ) (m : Mem) :
    KmemCache.unlinkPartial c header m =
      let m' := nextUnlinked header (prevSlab m header) m
      (if prevSlab m header ≠ 0 then c else { c with partialList := nextSlab m header },
        if nextSlab m' header ≠ 0 then setPrevSlab m' (nextSlab m' header) (prevSlab m' header)
        else m') := by
  by_cases h : prevSlab m header = 0
  · simp only [KmemCache.unlinkPartial, nextUnlinked, h, ne_eq, not_true_eq_false, if_false]
  · simp only [KmemCache.unlinkPartial, nextUnlinked, h, ne_eq, not_false_eq_true, if_true]

theorem run_unlinkPartial (hP : P.Lawful) (header : ℕ) :
    (unlinkPartial P header).run (c, P.setMem s m)
      = some ((), (KmemCache.unlinkPartial c header m).1,
          P.setMem s (KmemCache.unlinkPartial c header m).2) := by
  rw [unlinkPartial, run_load_bind hP, Prog.run_bind_eq (run_unlinkNext hP _ _), run_load_bind hP,
    run_load_bind hP, run_setPrevOf hP, unlinkPartial_eq]

theorem run_freePages (phys : ℕ) :
    (freePages P phys).run (c, s) = some ((), c, P.freePages s phys 1) := rfl

theorem run_returnEmpty (hP : P.Lawful) (header : ℕ) :
    (returnEmpty P header).run (c, P.setMem s m)
      = some ((), returnedIfEmpty P c header s m) := by
  rw [returnEmpty, run_load_bind hP, returnedIfEmpty]
  split
  · rw [Prog.run_bind_eq (run_unlinkPartial hP header), run_freePages]
  · exact Prog.run_pure () _

/-- **`free` is its check and what it does under the lock**, run at once. -/
theorem run_free (hP : P.Lawful) {object : ℕ} (hne : object ≠ 0)
    (hcheck : ∀ f ∈ checkFree P self object, f (c, s) = true) :
    (free P object).run (c, s) = (KmemCache.free P self c s object).map fun r => ((), r) := by
  obtain ⟨hmagic, hcache⟩ : magic (P.mem s) (alignDown object pageSize) = slabMagic ∧
      cache (P.mem s) (alignDown object pageSize) = self := by
    simpa [checkFree] using hcheck
  conv_lhs => rw [← hP.setMem_mem s]
  rw [free, Prog.run_bind_eq (run_putObject hP _ _), Prog.run_bind_eq (run_pushIfWasFull hP _),
    run_returnEmpty hP, free_eq hne hmagic hcache, Option.map_some]

end Locked

end KmemCache

end MioOS
