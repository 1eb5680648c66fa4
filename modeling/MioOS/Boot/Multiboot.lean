import MioOS.Library.ByteMemory
import MioOS.Memory.Defs

/-!
# Boot/Multiboot — `Multiboot2::find_tag`

The Multiboot2 information is a header and a sequence of tags, each with its type and its size in its
first eight bytes, and each at a multiple of eight bytes from the first.  `findTag` is the source's
walk; `tags` are the tags of a type that the walk should be about, those before the end tag and
inside the block.
-/

namespace MioOS

namespace Multiboot2

open ByteMemory

/-! ## The walk -/

/-- `info->total_size`. -/
def totalSize (m : Mem) (info : ℕ) : ℕ := m.load 4 info

/-- `tag->type`. -/
def tagType (m : Mem) (tag : ℕ) : ℕ := m.load 4 tag

/-- `tag->size`. -/
def tagSize (m : Mem) (tag : ℕ) : ℕ := m.load 4 (tag + 4)

/-- `(tag->size + 7) & ~7`, in 32 bits. -/
def alignedSize (m : Mem) (tag : ℕ) : ℕ := u32 (tagSize m tag + 7) &&& 0xFFFFFFF8

/-- The loop of `find_tag` from the tag at `tag` on. -/
def findTagLoop (m : Mem) (info type : ℕ) : ℕ → ℕ → Option (Option ℕ)
  | 0, _ => none
  | fuel + 1, tag =>
    if tagType m tag = 0 then some none
    else if tagType m tag = type then some (some tag)
    else
      let tag := tag + alignedSize m tag
      if info + totalSize m info ≤ tag then some none else findTagLoop m info type fuel tag

/-- **`find_tag`**: the tag, if there is one, unless the fuel runs out. -/
def findTag (m : Mem) (info type fuel : ℕ) : Option (Option ℕ) :=
  findTagLoop m info type fuel (info + 8)

/-- The bytes the loop reads: the type, and for a tag it passes the size and `total_size`. -/
def findTagReads (m : Mem) (info type : ℕ) : ℕ → ℕ → List ℕ
  | 0, _ => []
  | fuel + 1, tag =>
    List.range' tag 4 ++
      if tagType m tag = 0 ∨ tagType m tag = type then []
      else
        List.range' (tag + 4) 4 ++ List.range' info 4 ++
          if info + totalSize m info ≤ tag + alignedSize m tag then []
          else findTagReads m info type fuel (tag + alignedSize m tag)

/-! ## What the walk should find -/

/-- Rounding up to a multiple of eight. -/
def roundUp8 (n : ℕ) : ℕ := (n + 7) / 8 * 8

/-- **Walk order**: from a tag whose header is inside the block, and which is not the end tag, on to
the next. -/
inductive OnWalk (m : Mem) (endOfInfo : ℕ) : ℕ → ℕ → Prop
  | refl {p : ℕ} : OnWalk m endOfInfo p p
  | step {p q : ℕ} : p + 8 ≤ endOfInfo → tagType m p ≠ 0 →
      OnWalk m endOfInfo (p + roundUp8 (tagSize m p)) q → OnWalk m endOfInfo p q

/-- **The tags of a type** from `p` on: those the walk comes to before the end tag, header and
contents inside the block. -/
def tags (m : Mem) (endOfInfo type p : ℕ) : Set ℕ :=
  {q | OnWalk m endOfInfo p q ∧ tagType m q = type ∧ type ≠ 0 ∧ q + 8 ≤ endOfInfo ∧
    q + tagSize m q ≤ endOfInfo}

/-- **Tag lookup is right**: it comes to its end, reads the block and nothing else, and returns the
first tag of the type, or null if there is none. -/
structure FindsTag (m : Mem) (info type : ℕ) : Prop where
  terminates : ∃ fuel, (findTag m info type fuel).isSome
  within : ∀ fuel, ∀ x ∈ findTagReads m info type fuel (info + 8),
    info ≤ x ∧ x < info + totalSize m info
  first : ∀ fuel r, findTag m info type fuel = some r → ∀ q,
    r = some q ↔ IsLeast (tags m (info + totalSize m info) type (info + 8)) q

/-- **A block the walk for a type gets through**: it ends at an end tag, at a tag of the type that is
inside the block, or after a tag that reaches the end of the block; the tags it passes have their
headers inside the block, and their sizes do not round to 0 in 32 bits. -/
inductive Walkable (m : Mem) (endOfInfo type : ℕ) : ℕ → Prop
  | endTag {p : ℕ} : p + 4 ≤ endOfInfo → tagType m p = 0 → Walkable m endOfInfo type p
  | found {p : ℕ} : tagType m p = type → tagType m p ≠ 0 → p + 8 ≤ endOfInfo →
      p + tagSize m p ≤ endOfInfo → Walkable m endOfInfo type p
  | last {p : ℕ} : tagType m p ≠ type → tagType m p ≠ 0 → p + 8 ≤ endOfInfo →
      alignedSize m p ≠ 0 → endOfInfo ≤ p + alignedSize m p → Walkable m endOfInfo type p
  | pass {p : ℕ} : tagType m p ≠ type → tagType m p ≠ 0 → p + 8 ≤ endOfInfo →
      alignedSize m p ≠ 0 → Walkable m endOfInfo type (p + alignedSize m p) →
      Walkable m endOfInfo type p

variable {m m' : Mem} {info type p q endOfInfo fuel : ℕ} {r : Option ℕ}

/-! ## Tags on the walk -/

theorem OnWalk.le (h : OnWalk m endOfInfo p q) : p ≤ q := by
  induction h with
  | refl => exact le_rfl
  | step _ _ _ ih => exact (Nat.le_add_right ..).trans ih

/-- No tag of any type follows the end tag. -/
theorem tags_of_endTag (h : tagType m p = 0) : tags m endOfInfo type p = ∅ := by
  ext q
  refine iff_of_false ?_ (Set.notMem_empty q)
  rintro ⟨hwalk, htype, hne, -⟩
  cases hwalk with
  | refl => exact hne (htype.symm.trans h)
  | step _ hne' _ => exact hne' h

/-- None is found where no header fits. -/
theorem tags_of_outside (h : endOfInfo < p + 8) : tags m endOfInfo type p = ∅ := by
  ext q
  refine iff_of_false ?_ (Set.notMem_empty q)
  rintro ⟨hwalk, -, -, hle, -⟩
  cases hwalk with
  | refl => exact absurd hle (not_le.mpr h)
  | step hle' _ _ => exact absurd hle' (not_le.mpr h)

/-- A tag of another type is passed. -/
theorem tags_of_ne (htype : tagType m p ≠ type) (hend : tagType m p ≠ 0) (hle : p + 8 ≤ endOfInfo) :
    tags m endOfInfo type p = tags m endOfInfo type (p + roundUp8 (tagSize m p)) := by
  ext q
  constructor
  · rintro ⟨hwalk, hq⟩
    cases hwalk with
    | refl => exact absurd hq.1 htype
    | step _ _ hwalk => exact ⟨hwalk, hq⟩
  · rintro ⟨hwalk, hq⟩
    exact ⟨.step hle hend hwalk, hq⟩

/-- A tag of the type inside the block is the first from its own place on. -/
theorem isLeast_tags (htype : tagType m p = type) (hend : tagType m p ≠ 0)
    (hle : p + 8 ≤ endOfInfo) (hsize : p + tagSize m p ≤ endOfInfo) :
    IsLeast (tags m endOfInfo type p) p :=
  ⟨⟨.refl, htype, htype ▸ hend, hle, hsize⟩, fun _ hq => hq.1.le⟩

/-- Masking the low bits of 32 off. -/
theorem and_mask32 {x : ℕ} (hx : x < 2 ^ 32) : x &&& 0xFFFFFFF8 = x / 8 * 8 := by
  have hmask : 0xFFFFFFF8 = (2 ^ 32 - 1) &&& (2 ^ 64 - 2 ^ 3) := by decide
  rw [hmask, ← Nat.and_assoc, Nat.and_two_pow_sub_one_eq_mod, Nat.mod_eq_of_lt hx,
    and_mask_eq (hx.trans (by norm_num)) (by norm_num)]
  rfl

/-- **A step that does not vanish in 32 bits** is the size rounded up. -/
theorem alignedSize_eq (h : alignedSize m p ≠ 0) : alignedSize m p = roundUp8 (tagSize m p) := by
  rw [alignedSize, and_mask32 (u32_lt _)] at h ⊢
  have hlt : tagSize m p < 2 ^ 32 := (Mem.load_lt m 4 (p + 4)).trans_eq (by norm_num)
  rw [roundUp8]
  by_cases hfits : tagSize m p + 7 < 2 ^ 32
  · rw [u32_of_lt hfits]
  · rw [u32_eq] at h
    omega

/-! ## Bounds and termination -/

/-- **The walk for a type, from a tag on**: what `FindsTag` says, of the loop. -/
structure FindsFrom (m : Mem) (info type p : ℕ) : Prop where
  terminates : ∃ fuel, (findTagLoop m info type fuel p).isSome
  within : ∀ fuel, ∀ x ∈ findTagReads m info type fuel p, x < info + totalSize m info
  first : ∀ fuel r, findTagLoop m info type fuel p = some r → ∀ q,
    r = some q ↔ IsLeast (tags m (info + totalSize m info) type p) q

/-- A walk that is over at once. -/
theorem FindsFrom.of_stop (r : Option ℕ) (hp : p + 4 ≤ info + totalSize m info)
    (hstop : tagType m p = 0 ∨ tagType m p = type)
    (hloop : ∀ fuel, findTagLoop m info type (fuel + 1) p = some r)
    (hfirst : ∀ q, r = some q ↔ IsLeast (tags m (info + totalSize m info) type p) q) :
    FindsFrom m info type p where
  terminates := ⟨1, by rw [hloop]; rfl⟩
  within := by
    rintro (_ | fuel) x hx
    · exact absurd hx List.not_mem_nil
    · rw [findTagReads, if_pos hstop, List.append_nil, List.mem_range'_1] at hx
      exact hx.2.trans_le hp
  first := by
    rintro (_ | fuel) r' hr
    · exact absurd hr.symm (Option.some_ne_none r')
    · obtain rfl := Option.some.inj ((hloop fuel).symm.trans hr)
      exact hfirst

/-- Nothing is found where there are no tags. -/
theorem none_iff_isLeast {s : Set ℕ} (h : s = ∅) (q : ℕ) : none = some q ↔ IsLeast s q := by
  rw [h]
  exact iff_of_false (Option.some_ne_none q).symm fun hq => hq.1

/-- The loop at a tag of another type. -/
theorem findTagLoop_of_ne (htype : tagType m p ≠ type) (hend : tagType m p ≠ 0) :
    findTagLoop m info type (fuel + 1) p =
      if info + totalSize m info ≤ p + alignedSize m p then some none
      else findTagLoop m info type fuel (p + alignedSize m p) := by
  rw [findTagLoop, if_neg hend, if_neg htype]

/-- What it reads there: type, size and `total_size`, and then what the rest of the walk reads. -/
theorem mem_findTagReads_of_ne {x : ℕ} (htype : tagType m p ≠ type) (hend : tagType m p ≠ 0) :
    x ∈ findTagReads m info type (fuel + 1) p ↔
      (p ≤ x ∧ x < p + 8 ∨ info ≤ x ∧ x < info + 4) ∨
        p + alignedSize m p < info + totalSize m info ∧
          x ∈ findTagReads m info type fuel (p + alignedSize m p) := by
  rw [findTagReads, if_neg (not_or.mpr ⟨hend, htype⟩)]
  have hheader : p ≤ x ∧ x < p + 8 ↔ p ≤ x ∧ x < p + 4 ∨ p + 4 ≤ x ∧ x < p + 4 + 4 := by omega
  by_cases hover : info + totalSize m info ≤ p + alignedSize m p
  · simp only [hover, not_lt.mpr hover, hheader, if_true, List.mem_append, List.mem_range'_1,
      List.not_mem_nil, false_and, or_false, or_assoc]
  · simp only [hover, not_le.mp hover, hheader, if_false, List.mem_append, List.mem_range'_1,
      true_and, or_assoc]

/-- **The loop depends on the bytes it reads** and on no others. -/
theorem findTagLoop_congr (h : ∀ x ∈ findTagReads m info type fuel p, m' x = m x) :
    findTagLoop m' info type fuel p = findTagLoop m info type fuel p := by
  induction fuel generalizing p with
  | zero => rfl
  | succ fuel ih =>
    have htype : tagType m' p = tagType m p := Mem.load_congr fun i hi =>
      h _ (List.mem_append_left _ (List.mem_range'_1.mpr (by omega)))
    rw [findTagLoop, findTagLoop, htype]
    by_cases hend : tagType m p = 0
    · rw [if_pos hend, if_pos hend]
    by_cases hfound : tagType m p = type
    · rw [if_neg hend, if_pos hfound, if_neg hend, if_pos hfound]
    have hsize : tagSize m' p = tagSize m p := Mem.load_congr fun i hi =>
      h _ ((mem_findTagReads_of_ne hfound hend).mpr (by omega))
    have htotal : totalSize m' info = totalSize m info := Mem.load_congr fun i hi =>
      h _ ((mem_findTagReads_of_ne hfound hend).mpr (by omega))
    rw [if_neg hend, if_neg hfound, if_neg hend, if_neg hfound, alignedSize, alignedSize, hsize,
      htotal]
    by_cases hover : info + totalSize m info ≤ p + alignedSize m p
    · rw [← alignedSize, if_pos hover, if_pos hover]
    · rw [← alignedSize, if_neg hover, if_neg hover]
      exact ih fun x hx =>
        h x ((mem_findTagReads_of_ne hfound hend).mpr (Or.inr ⟨not_le.mp hover, hx⟩))

/-- **A tag of another type is passed**, where the rest of the walk is right or over. -/
theorem FindsFrom.of_ne (hp : info + 8 ≤ p) (htype : tagType m p ≠ type) (hend : tagType m p ≠ 0)
    (hle : p + 8 ≤ info + totalSize m info) (hstep : alignedSize m p ≠ 0)
    (hnext : p + alignedSize m p < info + totalSize m info →
      FindsFrom m info type (p + alignedSize m p)) : FindsFrom m info type p := by
  have htags := tags_of_ne htype hend hle
  rw [← alignedSize_eq hstep] at htags
  refine ⟨?_, ?_, ?_⟩
  · by_cases hover : info + totalSize m info ≤ p + alignedSize m p
    · refine ⟨1, ?_⟩
      rw [findTagLoop_of_ne htype hend, if_pos hover]
      rfl
    · obtain ⟨fuel, hfuel⟩ := (hnext (not_le.mp hover)).terminates
      refine ⟨fuel + 1, ?_⟩
      rwa [findTagLoop_of_ne htype hend, if_neg hover]
  · rintro (_ | fuel) x hx
    · exact absurd hx List.not_mem_nil
    · rcases (mem_findTagReads_of_ne htype hend).mp hx with hx | ⟨hover, hx⟩
      · omega
      · exact (hnext hover).within fuel x hx
  · rintro (_ | fuel) r hr
    · exact absurd hr.symm (Option.some_ne_none r)
    · rw [findTagLoop_of_ne htype hend] at hr
      rw [htags]
      split at hr
      · rename_i hover
        obtain rfl := Option.some.inj hr
        exact none_iff_isLeast (tags_of_outside (Nat.lt_add_right 7 (Nat.lt_succ_of_le hover)))
      · rename_i hover
        exact (hnext (not_le.mp hover)).first fuel r hr

/-- **A block that can be walked is searched right.** -/
theorem Walkable.findsFrom (h : Walkable m (info + totalSize m info) type p) (hp : info + 8 ≤ p) :
    FindsFrom m info type p := by
  induction h with
  | @endTag p hle htype =>
    exact .of_stop none hle (Or.inl htype) (fun fuel => if_pos htype)
      (none_iff_isLeast (tags_of_endTag htype))
  | @found p htype hend hle hsize =>
    have hleast := isLeast_tags htype hend hle hsize
    refine .of_stop (some p) ((Nat.le_add_right (p + 4) 4).trans hle) (Or.inr htype)
      (fun fuel => ?_) fun q => ?_
    · rw [findTagLoop, if_neg hend, if_pos htype]
    · rw [Option.some_inj]
      exact ⟨fun heq => heq ▸ hleast, hleast.unique⟩
  | @last p htype hend hle hstep hover =>
    exact .of_ne hp htype hend hle hstep fun hlt => absurd hover (not_le.mpr hlt)
  | @pass p htype hend hle hstep _ ih =>
    exact .of_ne hp htype hend hle hstep fun _ => ih (hp.trans (Nat.le_add_right ..))

/-- **A block that is searched right can be walked.**  The induction is on the fuel of a search that
ends. -/
theorem FindsFrom.walkable (h : FindsFrom m info type p) :
    Walkable m (info + totalSize m info) type p := by
  obtain ⟨fuel, hfuel⟩ := h.terminates
  induction fuel generalizing p with
  | zero => exact absurd hfuel Bool.false_ne_true
  | succ fuel ih =>
    have hheader : p + 4 ≤ info + totalSize m info :=
      h.within 1 (p + 3) (List.mem_append_left _ (List.mem_range'_1.mpr (by omega)))
    by_cases hend : tagType m p = 0
    · exact .endTag hheader hend
    by_cases htype : tagType m p = type
    · have hloop : findTagLoop m info type 1 p = some (some p) := by
        rw [findTagLoop, if_neg hend, if_pos htype]
      obtain ⟨⟨_, _, _, hle, hsize⟩, _⟩ := (h.first 1 _ hloop p).mp rfl
      exact .found htype hend hle hsize
    have hle : p + 8 ≤ info + totalSize m info :=
      h.within 1 (p + 7) ((mem_findTagReads_of_ne htype hend).mpr (by omega))
    rw [findTagLoop_of_ne htype hend] at hfuel
    by_cases hover : info + totalSize m info ≤ p + alignedSize m p
    · refine .last htype hend hle ?_ hover
      omega
    rw [if_neg hover] at hfuel
    by_cases hstep : alignedSize m p = 0
    · -- a tag whose size rounds to 0 is looked at again, with less fuel
      rw [hstep] at hfuel
      exact ih h hfuel
    have htags := tags_of_ne htype hend hle
    rw [← alignedSize_eq hstep] at htags
    refine .pass htype hend hle hstep (ih ⟨⟨fuel, hfuel⟩, fun fuel x hx => ?_, fun fuel r hr => ?_⟩
      hfuel)
    · exact h.within (fuel + 1) x ((mem_findTagReads_of_ne htype hend).mpr
        (Or.inr ⟨not_le.mp hover, hx⟩))
    · rw [← htags]
      refine h.first (fuel + 1) r ?_
      rwa [findTagLoop_of_ne htype hend, if_neg hover]

/-- Nothing before the block is read. -/
theorem le_of_mem_findTagReads {x : ℕ} (hp : info ≤ p) (hx : x ∈ findTagReads m info type fuel p) :
    info ≤ x := by
  induction fuel generalizing p with
  | zero => exact absurd hx List.not_mem_nil
  | succ fuel ih =>
    by_cases hstop : tagType m p = 0 ∨ tagType m p = type
    · rw [findTagReads, if_pos hstop, List.append_nil, List.mem_range'_1] at hx
      exact hp.trans hx.1
    · rw [not_or] at hstop
      rcases (mem_findTagReads_of_ne hstop.2 hstop.1).mp hx with (hx | hx) | hx
      · exact hp.trans hx.1
      · exact hx.1
      · exact ih (hp.trans (Nat.le_add_right ..)) hx.2

/-- **Tag lookup is right** exactly for the blocks the walk gets through. -/
theorem findsTag_iff (m : Mem) (info type : ℕ) :
    FindsTag m info type ↔ Walkable m (info + totalSize m info) type (info + 8) := by
  constructor
  · intro h
    exact FindsFrom.walkable ⟨h.terminates, fun fuel x hx => (h.within fuel x hx).2, h.first⟩
  · intro h
    have hfrom := h.findsFrom le_rfl
    exact ⟨hfrom.terminates, fun fuel x hx =>
      ⟨le_of_mem_findTagReads (Nat.le_add_right info 8) hx, hfrom.within fuel x hx⟩, hfrom.first⟩

/-! ## A tag of size 0 -/

/-- A block of 24 bytes with one tag, of type 1 and size 0. -/
def zeroTag : Mem := fun x => if x = 0 then 24 else if x = 8 then 1 else 0

/-- **The search for another type does not come to its end.** -/
theorem not_findsTag_zeroTag : ¬ ∀ (m : Mem) (info type : ℕ),
    info % 8 = 0 → 8 ≤ totalSize m info → FindsTag m info type := by
  intro h
  obtain ⟨fuel, hfuel⟩ := (h zeroTag 0 6 rfl (by decide +kernel)).terminates
  have hnever : ∀ fuel, findTagLoop zeroTag 0 6 fuel 8 = none := by
    intro fuel
    induction fuel with
    | zero => rfl
    | succ fuel ih =>
      have hstep : 8 + alignedSize zeroTag 8 = 8 := by decide +kernel
      rw [findTagLoop_of_ne (by decide +kernel) (by decide +kernel), if_neg (by decide +kernel),
        hstep]
      exact ih
  rw [findTag, hnever] at hfuel
  exact Bool.false_ne_true hfuel

end Multiboot2

end MioOS
