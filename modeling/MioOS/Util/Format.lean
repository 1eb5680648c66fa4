import MioOS.Util.Number

/-!
# Util/Format — `sprintf` of `string_util.cpp`

A format string is read from left to right; `formatted` is the text it stands for, `sprintf` the loop
that stores that text into a buffer.  The format and the strings it prints are in the memory that the
loop stores into, and each of their characters is read when its turn comes.  The loop counts in
`int`s.  Every argument takes one slot of eight bytes, whatever its type.
-/

namespace MioOS

open ByteMemory Numeral

/-- The arguments of a `va_list`. -/
abbrev VaList := List UInt64

/-- `va_arg`: the next slot. -/
def vaArg : VaList → Option (UInt64 × VaList)
  | [] => none
  | a :: args => some (a, args)

/-- **`tmp_buf`**: where it is on the stack, and what happens to be there.  It is a local variable, so
that no pointer from outside leads into it. -/
structure TmpBuf where
  addr : ℕ
  bytes : Mem
  addr_ne : addr ≠ 0

/-- The string that `utoa` or `itoa` leaves in `tmp_buf`. -/
def TmpBuf.string (t : TmpBuf) (r : Option (ℕ × Mem)) : Option (List UInt8) :=
  r.bind fun r => r.2.cString 65 t.addr

/-- `"(null)"`. -/
def nullText : List UInt8 := ['(', 'n', 'u', 'l', 'l', ')'].map Char.toUInt8

/-! ## `sprintf` -/

/-- How much of the buffer of `sprintf` is written, and the memory with it. -/
structure Out where
  bufIdx : ℕ
  buf : Mem

/-- `buffer[buf_idx++] = c`. -/
def store (buffer : ℕ) (c : UInt8) (o : Out) : Option Out :=
  (intSucc o.bufIdx).map fun i => ⟨i, o.buf.put (buffer + o.bufIdx) c⟩

/-- The loop that stores a string of `sprintf`'s own, from its index `j` on. -/
def storeString (buffer : ℕ) : ℕ → List UInt8 → Out → Option Out
  | _, [], o => some o
  | j, c :: s, o => do
    let o ← store buffer c o
    let j ← intSucc j
    storeString buffer j s o

/-- The loop that stores the string at `s`, from its index `j` on. -/
def storeFrom (buffer s : ℕ) : ℕ → ℕ → Out → Option Out
  | 0, _, _ => none
  | fuel + 1, j, o =>
    if o.buf (s + j) = 0 then some o
    else do
      let o ← store buffer (o.buf (s + j)) o
      let j ← intSucc j
      storeFrom buffer s fuel j o

section Sprintf

variable (t : TmpBuf) (buffer fmt : ℕ)

/-- The `switch` of `sprintf` on `fmt[i]`. -/
def sprintfSwitch (i : ℕ) (args : VaList) (o : Out) : Option (VaList × Out) :=
  let spec := o.buf (fmt + i)
  if spec = 'd'.toUInt8 ∨ spec = 'i'.toUInt8 then do
    let (val, args) ← vaArg args
    let s ← t.string (itoa t.bytes val.toInt64 t.addr 10)
    return (args, ← storeString buffer 0 s o)
  else if spec = 'u'.toUInt8 then do
    let (val, args) ← vaArg args
    let s ← t.string (utoa t.bytes val t.addr 10)
    return (args, ← storeString buffer 0 s o)
  else if spec = 'x'.toUInt8 ∨ spec = 'X'.toUInt8 then do
    let (val, args) ← vaArg args
    let s ← t.string (utoa t.bytes val t.addr 16)
    return (args, ← storeString buffer 0 s o)
  else if spec = 's'.toUInt8 then do
    let (s, args) ← vaArg args
    if s = 0 then return (args, ← storeString buffer 0 nullText o)
    else return (args, ← storeFrom buffer s.toNat countFuel 0 o)
  else if spec = 'c'.toUInt8 then do
    let (c, args) ← vaArg args
    return (args, ← store buffer c.toUInt8 o)
  else if spec = '%'.toUInt8 then do
    return (args, ← store buffer '%'.toUInt8 o)
  else do
    let o ← store buffer '%'.toUInt8 o
    -- `fmt[i]` is read again, behind the store
    return (args, ← store buffer (o.buf (fmt + i)) o)

/-- The loop of `sprintf`, from the index `i` of the format on. -/
def sprintfLoop : ℕ → ℕ → VaList → Out → Option Out
  | 0, _, _, _ => none
  | fuel + 1, i, args, o =>
    if o.buf (fmt + i) = 0 then some o
    else if o.buf (fmt + i) = '%'.toUInt8 ∧ o.buf (fmt + (i + 1)) ≠ 0 then do
      let i ← intSucc i
      let (args, o) ← sprintfSwitch t buffer fmt i args o
      let i ← intSucc i
      sprintfLoop fuel i args o
    else do
      let o ← store buffer (o.buf (fmt + i)) o
      let i ← intSucc i
      sprintfLoop fuel i args o

/-- **`sprintf`**: what it returns, and the memory with the buffer. -/
def sprintf (m : Mem) (args : VaList) : Option (ℕ × Mem) :=
  (sprintfLoop t buffer fmt countFuel 0 args ⟨0, m⟩).map fun o =>
    (o.bufIdx, o.buf.put (buffer + o.bufIdx) 0)

end Sprintf

/-! ## The text of a format -/

/-- The text of a number in a base up to 16. -/
def unsignedText (base v : ℕ) : List UInt8 := (numeral base v).map symbol

/-- The text of a signed number. -/
def signedText (v : ℤ) : List UInt8 := sign v ++ unsignedText 10 v.natAbs

/-- What `%s` stands for: `"(null)"`, or the string that the argument points to. -/
def argText (m : Mem) (p : UInt64) : Option (List UInt8) :=
  if p = 0 then some nullText else stringAt m p.toNat

/-- **What a specifier stands for**, and the arguments it leaves. -/
def conversion (m : Mem) (spec : UInt8) (args : VaList) : Option (List UInt8 × VaList) :=
  if spec = 'd'.toUInt8 ∨ spec = 'i'.toUInt8 then
    (vaArg args).map fun a => (signedText a.1.toInt64.toInt, a.2)
  else if spec = 'u'.toUInt8 then (vaArg args).map fun a => (unsignedText 10 a.1.toNat, a.2)
  else if spec = 'x'.toUInt8 ∨ spec = 'X'.toUInt8 then
    (vaArg args).map fun a => (unsignedText 16 a.1.toNat, a.2)
  else if spec = 's'.toUInt8 then
    (vaArg args).bind fun a => (argText m a.1).map fun s => (s, a.2)
  else if spec = 'c'.toUInt8 then (vaArg args).map fun a => ([a.1.toUInt8], a.2)
  else if spec = '%'.toUInt8 then some (['%'.toUInt8], args)
  else some (['%'.toUInt8, spec], args)

/-- **The text of a format** with its arguments, if there are enough of them and `%s` gets strings. -/
def formatted (m : Mem) : List UInt8 → VaList → Option (List UInt8)
  | [], _ => some []
  | [c], _ => some [c]
  | c :: spec :: fmt, args =>
    if c = '%'.toUInt8 then
      (conversion m spec args).bind fun r => (formatted m fmt r.2).map (r.1 ++ ·)
    else (formatted m (spec :: fmt) args).map (c :: ·)

/-- The slots that a specifier takes. -/
def slotsOf (spec : UInt8) : ℕ :=
  if spec ∈ ['d', 'i', 'u', 'x', 'X', 's', 'c'].map Char.toUInt8 then 1 else 0

/-- **The slots that a format takes.** -/
def slots : List UInt8 → ℕ
  | [] => 0
  | [_] => 0
  | c :: spec :: fmt => if c = '%'.toUInt8 then slotsOf spec + slots fmt else slots (spec :: fmt)

/-- **The arguments that `%s` gets.** -/
def stringArgs : List UInt8 → VaList → List UInt64
  | [], _ => []
  | [_], _ => []
  | c :: spec :: fmt, args =>
    if c = '%'.toUInt8 then
      (if spec = 's'.toUInt8 then args.take 1 else []) ++ stringArgs fmt (args.drop (slotsOf spec))
    else stringArgs (spec :: fmt) args

/-- The bytes of a format and of the strings it prints. -/
def sourceBytes (m : Mem) (fmt : ℕ) (chars : List UInt8) (args : VaList) : Set ℕ :=
  stringBytes m fmt ∪ {x | ∃ p ∈ stringArgs chars args, p ≠ 0 ∧ x ∈ stringBytes m p.toNat}

/-- **The cases of a specifier**: what it takes from the arguments, and its text. -/
inductive Converts (m : Mem) : UInt8 → VaList → List UInt8 → VaList → Prop
  | signed {spec : UInt8} (v : UInt64) (args : VaList) (h : spec = 'd'.toUInt8 ∨ spec = 'i'.toUInt8) :
      Converts m spec (v :: args) (signedText v.toInt64.toInt) args
  | unsigned (v : UInt64) (args : VaList) :
      Converts m 'u'.toUInt8 (v :: args) (unsignedText 10 v.toNat) args
  | hex {spec : UInt8} (v : UInt64) (args : VaList) (h : spec = 'x'.toUInt8 ∨ spec = 'X'.toUInt8) :
      Converts m spec (v :: args) (unsignedText 16 v.toNat) args
  | null (args : VaList) : Converts m 's'.toUInt8 (0 :: args) nullText args
  | string {p : UInt64} {s : List UInt8} (args : VaList) (hp : p ≠ 0) (h : stringAt m p.toNat = some s) :
      Converts m 's'.toUInt8 (p :: args) s args
  | char (c : UInt64) (args : VaList) : Converts m 'c'.toUInt8 (c :: args) [c.toUInt8] args
  | percent (args : VaList) : Converts m '%'.toUInt8 args ['%'.toUInt8] args
  | unknown {spec : UInt8} (args : VaList)
      (h : spec ∉ ['d', 'i', 'u', 'x', 'X', 's', 'c', '%'].map Char.toUInt8) :
      Converts m spec args ['%'.toUInt8, spec] args

/-! ## Numbers in `tmp_buf` -/

variable {m : Mem} {t : TmpBuf} {buffer fmt fuel i j n p : ℕ} {c spec : UInt8}
  {chars s text : List UInt8} {args rest : VaList} {o : Out} {K : Set ℕ}

theorem symbol_ne_zero : ∀ d < 16, symbol d ≠ 0 := by decide

theorem unsignedText_noZero {base v : ℕ} (hb : 1 < base) (hb' : base ≤ 16) :
    ∀ c ∈ unsignedText base v, c ≠ 0 := by
  intro c hc
  obtain ⟨d, hd, rfl⟩ := List.mem_map.mp hc
  exact symbol_ne_zero d ((numeral_lt hb d hd).trans_le hb')

theorem length_unsignedText_le {base v k : ℕ} (hb : 1 < base) (hk : 0 < k) (hv : v < base ^ k) :
    (unsignedText base v).length ≤ k := by
  rw [unsignedText, List.length_map]
  exact length_numeral_le hb hk hv

theorem signedText_noZero (v : ℤ) : ∀ c ∈ signedText v, c ≠ 0 := by
  intro c hc
  rcases List.mem_append.mp hc with hc | hc
  · rw [sign] at hc
    split at hc
    · rw [List.mem_singleton.mp hc]
      decide
    · exact absurd hc List.not_mem_nil
  · exact unsignedText_noZero (by norm_num) (by norm_num) c hc

theorem length_signedText_le (v : Int64) : (signedText v.toInt).length ≤ 20 := by
  have hlt : v.toInt.natAbs < 10 ^ 19 := by
    have := v.toInt_lt
    have := v.le_toInt
    omega
  have hsign : (sign v.toInt).length ≤ 1 := by
    rw [sign]
    split <;> decide
  have hdigits := length_unsignedText_le (by norm_num) (by norm_num) hlt
  rw [signedText, List.length_append]
  omega

theorem length_unsignedText (v : UInt64) {base : ℕ} (hb : 2 ≤ base) :
    (unsignedText base v.toNat).length ≤ 64 :=
  length_unsignedText_le hb (by norm_num) (v.toNat_lt.trans_le (Nat.pow_le_pow_left hb 64))

/-- **`utoa` in `tmp_buf`.** -/
theorem string_utoa (t : TmpBuf) (v : UInt64) {base : ℕ} (hb : 2 ≤ base) (hb' : base ≤ 16) :
    t.string (utoa t.bytes v t.addr base) = some (unsignedText base v.toNat) := by
  have h16 : ∀ d ∈ numeral (base : ℤ).toNat v.toNat, d < 17 := fun d hd =>
    (numeral_lt hb d hd).trans_le (hb'.trans (by norm_num))
  rw [TmpBuf.string, utoa_eq t.addr_ne (by omega) (by omega) h16, Option.bind_some]
  exact Mem.cString_of_holds Mem.holds_write (unsignedText_noZero hb hb')
    (Nat.lt_succ_of_le (length_unsignedText v hb))

theorem string_utoa_dec (t : TmpBuf) (v : UInt64) :
    t.string (utoa t.bytes v t.addr 10) = some (unsignedText 10 v.toNat) :=
  string_utoa t v (by norm_num) (by norm_num)

theorem string_utoa_hex (t : TmpBuf) (v : UInt64) :
    t.string (utoa t.bytes v t.addr 16) = some (unsignedText 16 v.toNat) :=
  string_utoa t v (by norm_num) (by norm_num)

/-- **`itoa` in `tmp_buf`.** -/
theorem string_itoa (t : TmpBuf) (v : Int64) :
    t.string (itoa t.bytes v t.addr 10) = some (signedText v.toInt) := by
  rw [TmpBuf.string, itoa_eq t.addr_ne, Option.bind_some]
  refine Mem.cString_of_holds Mem.holds_write (signedText_noZero v.toInt) ?_
  exact (length_signedText_le v).trans_lt (by norm_num)

/-! ## What `sprintf` stores -/

/-- The buffer with a text behind what is written. -/
def Out.append (o : Out) (buffer : ℕ) (text : List UInt8) : Out :=
  ⟨o.bufIdx + text.length, o.buf.write (buffer + o.bufIdx) text⟩

theorem Out.append_append (o : Out) (buffer : ℕ) (s text : List UInt8) :
    (o.append buffer s).append buffer text = o.append buffer (s ++ text) := by
  rw [append, append, append, List.length_append, Mem.write_append, Nat.add_assoc, Nat.add_assoc]

theorem store_eq (h : o.bufIdx + 1 ≤ intMax) : store buffer c o = some (o.append buffer [c]) := by
  rw [store, intSucc_of_lt h, Option.map_some]
  rfl

/-- **A string is stored** behind what is written, if all of it can be counted. -/
theorem storeString_eq (hj : j + s.length ≤ intMax) (ho : o.bufIdx + s.length ≤ intMax) :
    storeString buffer j s o = some (o.append buffer s) := by
  induction s generalizing j o with
  | nil => rfl
  | cons c s ih =>
    rw [List.length_cons] at hj ho
    have hidx : (o.append buffer [c]).bufIdx = o.bufIdx + 1 := rfl
    rw [storeString, store_eq (by omega), Option.bind_eq_bind, Option.bind_some,
      intSucc_of_lt (by omega), Option.bind_eq_bind, Option.bind_some,
      ih (by omega) (by rw [hidx]; omega), Out.append_append]
    rfl

theorem storeString_zero (ho : o.bufIdx + s.length ≤ intMax) :
    storeString buffer 0 s o = some (o.append buffer s) :=
  storeString_eq (by omega) ho

theorem vaArg_eq_some {v : UInt64} (h : vaArg args = some (v, rest)) : args = v :: rest := by
  cases args with
  | nil => exact absurd h (Option.some_ne_none _).symm
  | cons a args =>
    obtain ⟨rfl, rfl⟩ := Prod.mk.inj (Option.some.inj h)
    rfl

theorem converts_of_eq (h : conversion m spec args = some (text, rest)) :
    Converts m spec args text rest := by
  have htake : ∀ f : UInt64 → List UInt8, (vaArg args).map (fun a => (f a.1, a.2)) = some (text, rest) →
      ∃ v, args = v :: rest ∧ f v = text := by
    intro f hf
    obtain ⟨⟨v, _⟩, ha, heq⟩ := Option.map_eq_some_iff.mp hf
    obtain ⟨hv, rfl⟩ := Prod.mk.inj heq
    exact ⟨v, vaArg_eq_some ha, hv⟩
  rw [conversion] at h
  split at h
  · obtain ⟨v, rfl, rfl⟩ := htake (fun v => signedText v.toInt64.toInt) h
    exact .signed v rest ‹_›
  split at h
  · obtain ⟨v, rfl, rfl⟩ := htake (fun v => unsignedText 10 v.toNat) h
    obtain rfl : spec = 'u'.toUInt8 := ‹_›
    exact .unsigned v rest
  split at h
  · obtain ⟨v, rfl, rfl⟩ := htake (fun v => unsignedText 16 v.toNat) h
    exact .hex v rest ‹_›
  split at h
  · obtain ⟨⟨p, _⟩, ha, h⟩ := Option.bind_eq_some_iff.mp h
    obtain ⟨s, hs, heq⟩ := Option.map_eq_some_iff.mp h
    obtain ⟨rfl, rfl⟩ := Prod.mk.inj heq
    obtain rfl := vaArg_eq_some ha
    obtain rfl : spec = 's'.toUInt8 := ‹_›
    rw [argText] at hs
    split at hs
    · obtain rfl : p = 0 := ‹_›
      rw [← Option.some.inj hs]
      exact .null _
    · exact .string _ ‹_› hs
  split at h
  · obtain ⟨v, rfl, rfl⟩ := htake (fun v => [v.toUInt8]) h
    obtain rfl : spec = 'c'.toUInt8 := ‹_›
    exact .char v rest
  split at h
  · obtain ⟨rfl, rfl⟩ := Prod.mk.inj (Option.some.inj h)
    obtain rfl : spec = '%'.toUInt8 := ‹_›
    exact .percent args
  · obtain ⟨rfl, rfl⟩ := Prod.mk.inj (Option.some.inj h)
    refine .unknown args ?_
    simp only [List.map_cons, List.map_nil, List.mem_cons, List.not_mem_nil, or_false]
    tauto

theorem Converts.rest_eq (h : Converts m spec args text rest) : rest = args.drop (slotsOf spec) := by
  cases h with
  | signed v _ hd => rcases hd with rfl | rfl <;> rfl
  | hex v _ hx => rcases hx with rfl | rfl <;> rfl
  | unknown _ hnone =>
    rw [slotsOf, if_neg, List.drop_zero]
    exact fun hmem => hnone (List.mem_of_mem_dropLast hmem)
  | _ => rfl

/-! ## Strings that `sprintf` does not overwrite

`K` are bytes outside the `n` bytes of the buffer that are written; the format and the strings are
among them, so that each is read as it was. -/

theorem Out.agreeOn_append (hK : Mem.Off K buffer n) (h : Mem.AgreeOn K m o.buf)
    (ho : o.bufIdx + text.length ≤ n) : Mem.AgreeOn K m (o.append buffer text).buf :=
  h.trans (Mem.agreeOn_write fun x hx => by
    have hout := hK x hx
    omega)

/-- **A string that stays as it is** is stored behind what is written. -/
theorem storeFrom_eq (hK : Mem.Off K buffer n) (hn : n ≤ intMax) (hagree : Mem.AgreeOn K m o.buf)
    (hs : m.Holds (p + j) (s ++ [0])) (hz : ∀ c ∈ s, c ≠ 0) (hin : ∀ i ≤ s.length, p + j + i ∈ K)
    (ho : o.bufIdx + s.length ≤ n) (hj : j + s.length ≤ intMax) (hfuel : s.length < fuel) :
    storeFrom buffer p fuel j o = some (o.append buffer s) := by
  induction s generalizing fuel j o with
  | nil =>
    obtain ⟨fuel, rfl⟩ := Nat.exists_eq_succ_of_ne_zero hfuel.ne'
    have hread : o.buf (p + j) = 0 := (hagree _ (hin 0 le_rfl)).trans hs.1
    rw [storeFrom, if_pos hread]
    rfl
  | cons c s ih =>
    obtain ⟨fuel, rfl⟩ := Nat.exists_eq_succ_of_ne_zero (Nat.ne_zero_of_lt hfuel)
    rw [List.length_cons] at ho hj hfuel
    have hread : o.buf (p + j) = c := (hagree _ (hin 0 (Nat.zero_le _))).trans hs.1
    have hidx : (o.append buffer [c]).bufIdx = o.bufIdx + 1 := rfl
    have hrest : storeFrom buffer p fuel (j + 1) (o.append buffer [c])
        = some ((o.append buffer [c]).append buffer s) := by
      refine ih (Out.agreeOn_append hK hagree ?_) hs.2 (fun c hc => hz c (List.mem_cons_of_mem _ hc))
        (fun i hi => ?_) (by rw [hidx]; omega) (by omega) (by omega)
      · rw [List.length_singleton]
        omega
      · have hin' := hin (i + 1) (by rw [List.length_cons]; omega)
        rwa [show p + (j + 1) + i = p + j + (i + 1) by omega]
    rw [storeFrom, hread, if_neg (hz c List.mem_cons_self), store_eq (by omega), Option.bind_eq_bind,
      Option.bind_some, intSucc_of_lt (by omega), Option.bind_eq_bind, Option.bind_some, hrest,
      Out.append_append]
    rfl

/-- **A specifier** stores its text. -/
theorem sprintfSwitch_eq (h : Converts m spec args text rest) (hspec : m (fmt + i) = spec)
    (hin : fmt + i ∈ K)
    (hargs : ∀ q ∈ if spec = 's'.toUInt8 then args.take 1 else [], q ≠ 0 → stringBytes m q.toNat ⊆ K)
    (hK : Mem.Off K buffer n) (hn : n ≤ intMax) (hagree : Mem.AgreeOn K m o.buf)
    (ho : o.bufIdx + text.length ≤ n) :
    sprintfSwitch t buffer fmt i args o = some (rest, o.append buffer text) := by
  have ho' : o.bufIdx + text.length ≤ intMax := ho.trans hn
  rw [sprintfSwitch]
  simp only [(hagree _ hin).trans hspec]
  cases h with
  | signed v _ hd => simp [if_pos hd, vaArg, string_itoa, storeString_zero ho']
  | unsigned v =>
    rw [if_neg (by decide), if_pos rfl]
    simp [vaArg, string_utoa_dec, storeString_zero ho']
  | hex v _ hx =>
    have hd : ¬ (spec = 'd'.toUInt8 ∨ spec = 'i'.toUInt8) ∧ ¬ spec = 'u'.toUInt8 := by
      rcases hx with rfl | rfl <;> decide
    rw [if_neg hd.1, if_neg hd.2, if_pos hx]
    simp [vaArg, string_utoa_hex, storeString_zero ho']
  | null =>
    rw [if_neg (by decide), if_neg (by decide), if_neg (by decide), if_pos rfl]
    simp [vaArg, storeString_zero ho']
  | @string p s _ hp hs =>
    rw [if_pos rfl] at hargs
    obtain ⟨hholds, hz, hlen⟩ := Mem.holds_of_cString hs
    have hbytes := hargs p List.mem_cons_self hp
    have hstore : storeFrom buffer p.toNat countFuel 0 o = some (o.append buffer text) :=
      storeFrom_eq hK hn hagree hholds hz (fun i hi => hbytes (mem_stringBytes hs hi)) ho
        (by omega) hlen
    rw [if_neg (by decide), if_neg (by decide), if_neg (by decide), if_pos rfl]
    simp [vaArg, hp, hstore]
  | char c =>
    rw [if_neg (by decide), if_neg (by decide), if_neg (by decide), if_neg (by decide), if_pos rfl]
    simp [vaArg, store_eq ho']
  | percent =>
    rw [if_neg (by decide), if_neg (by decide), if_neg (by decide), if_neg (by decide),
      if_neg (by decide), if_pos rfl]
    simp [store_eq ho']
  | unknown _ hnone =>
    simp only [List.map_cons, List.map_nil, List.mem_cons, List.not_mem_nil, or_false, not_or] at hnone
    obtain ⟨hd, hi, hu, hx, hX, hs, hc, hp⟩ := hnone
    have hfirst : o.bufIdx + 1 ≤ n := (Nat.le_succ _).trans ho
    have hagree' : Mem.AgreeOn K m (o.append buffer ['%'.toUInt8]).buf :=
      Out.agreeOn_append hK hagree hfirst
    have hsecond : (o.append buffer ['%'.toUInt8]).bufIdx + 1 ≤ intMax := ho'
    rw [if_neg (not_or.mpr ⟨hd, hi⟩), if_neg hu, if_neg (not_or.mpr ⟨hx, hX⟩), if_neg hs, if_neg hc,
      if_neg hp]
    simp [store_eq (hfirst.trans hn), (hagree' _ hin).trans hspec, store_eq hsecond,
      Out.append_append]

theorem sprintfLoop_end (hread : o.buf (fmt + i) = 0) :
    sprintfLoop t buffer fmt (fuel + 1) i args o = some o := by
  rw [sprintfLoop, if_pos hread]

/-- A character that starts no specifier is stored. -/
theorem sprintfLoop_char (hread : o.buf (fmt + i) = c) (hc : c ≠ 0)
    (hplain : ¬ (c = '%'.toUInt8 ∧ o.buf (fmt + (i + 1)) ≠ 0)) (ho : o.bufIdx + 1 ≤ intMax)
    (hi : i < intMax) :
    sprintfLoop t buffer fmt (fuel + 1) i args o
      = sprintfLoop t buffer fmt fuel (i + 1) args (o.append buffer [c]) := by
  rw [sprintfLoop, hread, if_neg hc, if_neg hplain, store_eq ho, Option.bind_eq_bind,
    Option.bind_some, intSucc_of_lt hi, Option.bind_eq_bind, Option.bind_some]

/-- A specifier takes its turn in the `switch`. -/
theorem sprintfLoop_percent (hread : o.buf (fmt + i) = '%'.toUInt8) (hnext : o.buf (fmt + (i + 1)) ≠ 0)
    (hi : i + 1 < intMax) :
    sprintfLoop t buffer fmt (fuel + 1) i args o
      = (sprintfSwitch t buffer fmt (i + 1) args o).bind fun r =>
          sprintfLoop t buffer fmt fuel (i + 2) r.1 r.2 := by
  rw [sprintfLoop, hread, if_neg (by decide), if_pos ⟨rfl, hnext⟩,
    intSucc_of_lt (Nat.lt_of_succ_lt hi)]
  simp only [Option.bind_eq_bind, Option.bind_some, intSucc_of_lt hi]

/-- **The loop of `sprintf`** stores the text of the format. -/
theorem sprintfLoop_eq (h : formatted m chars args = some text)
    (hchars : m.Holds (fmt + i) (chars ++ [0])) (hz : ∀ c ∈ chars, c ≠ 0)
    (hin : ∀ j ≤ chars.length, fmt + (i + j) ∈ K)
    (hargs : ∀ q ∈ stringArgs chars args, q ≠ 0 → stringBytes m q.toNat ⊆ K)
    (hK : Mem.Off K buffer n) (hn : n ≤ intMax) (hagree : Mem.AgreeOn K m o.buf)
    (hi : i + chars.length ≤ intMax) (ho : o.bufIdx + text.length ≤ n)
    (hfuel : chars.length < fuel) :
    sprintfLoop t buffer fmt fuel i args o = some (o.append buffer text) := by
  induction chars, args using formatted.induct generalizing fuel i o text with
  | case1 args =>
    obtain ⟨fuel, rfl⟩ := Nat.exists_eq_succ_of_ne_zero hfuel.ne'
    obtain rfl : [] = text := Option.some.inj h
    exact sprintfLoop_end ((hagree _ (hin 0 le_rfl)).trans hchars.1)
  | case2 c args =>
    obtain ⟨fuel, rfl⟩ : ∃ k, fuel = k + 1 + 1 := ⟨fuel - 2, by rw [List.length_singleton] at hfuel; omega⟩
    obtain rfl : [c] = text := Option.some.inj h
    have hread : o.buf (fmt + i) = c := (hagree _ (hin 0 (Nat.zero_le _))).trans hchars.1
    have hend : o.buf (fmt + (i + 1)) = 0 := (hagree _ (hin 1 le_rfl)).trans hchars.2.1
    have hend' : (o.append buffer [c]).buf (fmt + (i + 1)) = 0 :=
      (Out.agreeOn_append hK hagree ho _ (hin 1 le_rfl)).trans hchars.2.1
    rw [sprintfLoop_char hread (hz c List.mem_cons_self) (fun hc => hc.2 hend) (ho.trans hn) hi,
      sprintfLoop_end hend']
  | case3 spec chars args ih =>
    obtain ⟨fuel, rfl⟩ := Nat.exists_eq_succ_of_ne_zero (Nat.ne_zero_of_lt hfuel)
    rw [formatted, if_pos rfl] at h
    obtain ⟨⟨s, rest⟩, hconv, h⟩ := Option.bind_eq_some_iff.mp h
    obtain ⟨tail, htail, rfl⟩ := Option.map_eq_some_iff.mp h
    dsimp only at htail ho
    have hconverts := converts_of_eq hconv
    rw [List.length_cons, List.length_cons] at hi hfuel
    rw [List.length_append] at ho
    rw [stringArgs, if_pos rfl] at hargs
    have hspec : spec ≠ 0 := hz spec (List.mem_cons_of_mem _ List.mem_cons_self)
    have hread : o.buf (fmt + i) = '%'.toUInt8 := (hagree _ (hin 0 (Nat.zero_le _))).trans hchars.1
    have hnext : fmt + (i + 1) ∈ K := hin 1 (by rw [List.length_cons, List.length_cons]; omega)
    have hread' : o.buf (fmt + (i + 1)) = spec := (hagree _ hnext).trans hchars.2.1
    have hidx : (o.append buffer s).bufIdx = o.bufIdx + s.length := rfl
    have hswitch : sprintfSwitch t buffer fmt (i + 1) args o = some (rest, o.append buffer s) :=
      sprintfSwitch_eq hconverts hchars.2.1 hnext
        (fun q hq => hargs q (List.mem_append_left _ hq)) hK hn hagree (by omega)
    have hrest : sprintfLoop t buffer fmt fuel (i + 2) rest (o.append buffer s)
        = some (o.append buffer (s ++ tail)) := by
      rw [← Out.append_append]
      refine ih (s, rest) htail hchars.2.2
        (fun c hc => hz c (List.mem_cons_of_mem _ (List.mem_cons_of_mem _ hc))) (fun j hj => ?_)
        (fun q hq => hargs q (List.mem_append_right _ ?_)) (Out.agreeOn_append hK hagree (by omega))
        (by omega) (by rw [hidx]; omega) (by omega)
      · have hj' := hin (j + 1 + 1) (by rw [List.length_cons, List.length_cons]; omega)
        rwa [show i + 2 + j = i + (j + 1 + 1) by omega]
      · rwa [← hconverts.rest_eq]
    rw [sprintfLoop_percent hread (hread'.trans_ne hspec) (by omega), hswitch, Option.bind_some, hrest]
  | case4 c spec chars args hne ih =>
    obtain ⟨fuel, rfl⟩ := Nat.exists_eq_succ_of_ne_zero (Nat.ne_zero_of_lt hfuel)
    rw [formatted, if_neg hne] at h
    obtain ⟨tail, htail, rfl⟩ := Option.map_eq_some_iff.mp h
    rw [List.length_cons] at hi hfuel ho
    rw [stringArgs, if_neg hne] at hargs
    have hread : o.buf (fmt + i) = c := (hagree _ (hin 0 (Nat.zero_le _))).trans hchars.1
    have hidx : (o.append buffer [c]).bufIdx = o.bufIdx + 1 := rfl
    have hrest : sprintfLoop t buffer fmt fuel (i + 1) args (o.append buffer [c])
        = some (o.append buffer (c :: tail)) := by
      rw [show c :: tail = [c] ++ tail from rfl, ← Out.append_append]
      refine ih htail hchars.2 (fun c hc => hz c (List.mem_cons_of_mem _ hc)) (fun j hj => ?_) hargs
        (Out.agreeOn_append hK hagree (by rw [List.length_singleton]; omega)) (by omega)
        (by rw [hidx]; omega) (by omega)
      have hj' := hin (j + 1) (by rw [List.length_cons]; omega)
      rwa [show i + 1 + j = i + (j + 1) by omega]
    rw [sprintfLoop_char hread (hz c List.mem_cons_self) (fun hc => hne hc.1) (by omega) (by omega),
      hrest]

/-- **`sprintf` stores the text of the format with a zero behind it and returns its length**, if the
format and the strings lie outside the bytes that are stored before the zero. -/
theorem sprintf_eq (hfmt : stringAt m fmt = some chars) (h : formatted m chars args = some text)
    (htext : text.length ≤ intMax) (hout : Mem.Off (sourceBytes m fmt chars args) buffer text.length) :
    sprintf t buffer fmt m args = some (text.length, m.write buffer (text ++ [0])) := by
  obtain ⟨hholds, hz, hlen⟩ := Mem.holds_of_cString hfmt
  have hloop : sprintfLoop t buffer fmt countFuel 0 args ⟨0, m⟩ = some (Out.append ⟨0, m⟩ buffer text) :=
    sprintfLoop_eq h hholds hz (fun j hj => Or.inl (by rw [Nat.zero_add]; exact mem_stringBytes hfmt hj))
      (fun q hq hne x hx => Or.inr ⟨q, hq, hne, hx⟩) hout htext (Mem.AgreeOn.refl _ _)
      ((Nat.zero_add _).trans_le (Nat.le_of_lt_succ hlen)) (Nat.zero_add _).le hlen
  rw [sprintf, hloop, Option.map_some, Out.append, Mem.write_concat, Nat.zero_add, Nat.add_zero]

theorem argText_of_ne {q : UInt64} (hq : q ≠ 0) : argText m q = stringAt m q.toNat := if_neg hq

theorem formatted_string {q : UInt64} (h : argText m q = some s) :
    formatted m ('%'.toUInt8 :: 's'.toUInt8 :: chars) (q :: args)
      = (formatted m chars args).map (s ++ ·) := by
  have hconv : conversion m 's'.toUInt8 (q :: args) = some (s, args) := by
    rw [conversion, if_neg (by decide), if_neg (by decide), if_neg (by decide), if_pos rfl, vaArg,
      Option.bind_some, h, Option.map_some]
  rw [formatted, if_pos rfl, hconv, Option.bind_some]

/-! ## Strings that `sprintf` cannot store -/

/-- `%s` stores the string that the argument points to. -/
theorem sprintfSwitch_string {p : UInt64} (hread : o.buf (fmt + i) = 's'.toUInt8) (hp : p ≠ 0) :
    sprintfSwitch t buffer fmt i (p :: args) o
      = (storeFrom buffer p.toNat countFuel 0 o).map (args, ·) := by
  rw [sprintfSwitch]
  simp only [hread]
  rw [if_neg (by decide), if_neg (by decide), if_neg (by decide), if_pos trivial]
  simp only [vaArg, Option.bind_eq_bind, Option.bind_some, if_neg hp, Option.map_eq_bind]
  rfl

/-- **A string behind which more than `INT_MAX` characters are stored** is not stored to its end. -/
theorem storeFrom_eq_none (hK : Mem.Off K buffer n) (hagree : Mem.AgreeOn K m o.buf)
    (hs : m.Holds (p + j) (s ++ [0])) (hz : ∀ c ∈ s, c ≠ 0) (hin : ∀ i ≤ s.length, p + j + i ∈ K)
    (ho : o.bufIdx + s.length ≤ n) (hidx : o.bufIdx ≤ intMax) (hlong : intMax < o.bufIdx + s.length) :
    storeFrom buffer p fuel j o = none := by
  induction s generalizing fuel j o with
  | nil => exact absurd hlong (not_lt.mpr hidx)
  | cons c s ih =>
    cases fuel with
    | zero => rfl
    | succ fuel =>
      rw [List.length_cons] at ho hlong
      have hread : o.buf (p + j) = c := (hagree _ (hin 0 (Nat.zero_le _))).trans hs.1
      rw [storeFrom, hread, if_neg (hz c List.mem_cons_self)]
      rcases hidx.lt_or_eq with hlt | heq
      · have hidx' : (o.append buffer [c]).bufIdx = o.bufIdx + 1 := rfl
        rw [store_eq hlt, Option.bind_eq_bind, Option.bind_some]
        rcases Nat.lt_or_ge j intMax with hj | hj
        · rw [intSucc_of_lt hj, Option.bind_eq_bind, Option.bind_some]
          refine ih (Out.agreeOn_append hK hagree (by rw [List.length_singleton]; omega)) hs.2
            (fun c hc => hz c (List.mem_cons_of_mem _ hc)) (fun i hi => ?_) (by rw [hidx']; omega)
            hlt (by rw [hidx']; omega)
          have hin' := hin (i + 1) (by rw [List.length_cons]; omega)
          rwa [show p + (j + 1) + i = p + j + (i + 1) by omega]
        · rw [intSucc_of_ge hj]
          rfl
      · rw [store, intSucc_of_ge heq.ge]
        rfl

/-- **A string in the buffer itself**, with a character in front of it: every character that is stored
is the next one that is read, so that the zero behind the string is never reached. -/
theorem storeFrom_self (hc : c ≠ 0) (hread : o.buf (buffer + j) = c) (hidx : o.bufIdx = j + 1) :
    storeFrom buffer buffer fuel j o = none := by
  induction fuel generalizing j o with
  | zero => rfl
  | succ fuel ih =>
    rw [storeFrom, hread, if_neg hc, store]
    rcases Nat.lt_or_ge o.bufIdx intMax with hlt | hge
    · have hj : j < intMax := by omega
      rw [intSucc_of_lt hlt, intSucc_of_lt hj]
      refine ih ?_ (by dsimp only; omega)
      rw [hidx]
      exact Mem.put_self
    · rw [intSucc_of_ge hge]
      rfl

/-! ## Matching arguments -/

/-- **Enough arguments, of which those for `%s` point to strings.** -/
def Matching (m : Mem) (chars : List UInt8) (args : VaList) : Prop :=
  slots chars ≤ args.length ∧ ∀ p ∈ stringArgs chars args, p ≠ 0 → (stringAt m p.toNat).isSome

theorem vaArg_isSome_iff : (vaArg args).isSome ↔ 1 ≤ args.length := by
  cases args with
  | nil => exact iff_of_false (by decide) (by decide)
  | cons a args => exact iff_of_true rfl (Nat.succ_le_succ (Nat.zero_le _))

theorem argText_isSome_iff {p : UInt64} :
    (argText m p).isSome ↔ (p ≠ 0 → (stringAt m p.toNat).isSome) := by
  rw [argText]
  split
  · exact iff_of_true rfl fun hne => absurd ‹p = 0› hne
  · exact ⟨fun h _ => h, fun h => h ‹p ≠ 0›⟩

/-- A specifier has a text exactly when it gets the argument it takes. -/
theorem conversion_isSome_iff :
    (conversion m spec args).isSome ↔ slotsOf spec ≤ args.length ∧
      ∀ p ∈ if spec = 's'.toUInt8 then args.take 1 else [], p ≠ 0 → (stringAt m p.toNat).isSome := by
  by_cases hs : spec = 's'.toUInt8
  · subst hs
    rw [conversion, if_neg (by decide), if_neg (by decide), if_neg (by decide), if_pos rfl, if_pos rfl,
      show slotsOf 's'.toUInt8 = 1 from rfl]
    cases args with
    | nil => exact iff_of_false Bool.false_ne_true fun h => absurd h.1 (by decide)
    | cons p args =>
      have htext := argText_isSome_iff (m := m) (p := p)
      simp [vaArg, htext]
  · have hslots : (conversion m spec args).isSome ↔ slotsOf spec ≤ args.length := by
      rw [conversion]
      split
      · rename_i hd
        rw [Option.isSome_map, vaArg_isSome_iff]
        rcases hd with rfl | rfl <;> rfl
      split
      · rename_i hu
        rw [hu, Option.isSome_map, vaArg_isSome_iff]
        rfl
      split
      · rename_i hx
        rw [Option.isSome_map, vaArg_isSome_iff]
        rcases hx with rfl | rfl <;> rfl
      split
      · rename_i hc
        rw [hc, Option.isSome_map, vaArg_isSome_iff]
        rfl
      · rename_i hd hu hx hc
        have hnone : slotsOf spec = 0 := by
          rw [slotsOf, if_neg]
          simp only [List.map_cons, List.map_nil, List.mem_cons, List.not_mem_nil, or_false]
          tauto
        rw [hnone]
        split <;> exact iff_of_true rfl (Nat.zero_le _)
    rw [if_neg hs, hslots]
    exact (and_iff_left fun p hp => absurd hp List.not_mem_nil).symm

/-- **A format has a text exactly when its arguments match.** -/
theorem formatted_isSome_iff : (formatted m chars args).isSome ↔ Matching m chars args := by
  induction chars, args using formatted.induct with
  | case1 args => exact iff_of_true rfl ⟨Nat.zero_le _, fun _ hp => absurd hp List.not_mem_nil⟩
  | case2 c args => exact iff_of_true rfl ⟨Nat.zero_le _, fun _ hp => absurd hp List.not_mem_nil⟩
  | case3 spec chars args ih =>
    rw [formatted, if_pos rfl, Matching, slots, if_pos rfl, stringArgs, if_pos rfl]
    cases hconv : conversion m spec args with
    | none =>
      refine iff_of_false Bool.false_ne_true fun ⟨hle, hstr⟩ => ?_
      have hsome : (conversion m spec args).isSome := conversion_isSome_iff.mpr
        ⟨by omega, fun p hp => hstr p (List.mem_append_left _ hp)⟩
      rw [hconv] at hsome
      exact absurd hsome Bool.false_ne_true
    | some r =>
      have hconverts : Converts m spec args r.1 r.2 := converts_of_eq hconv
      obtain ⟨hone, hfirst⟩ := conversion_isSome_iff.mp (Option.isSome_iff_exists.mpr ⟨r, hconv⟩)
      rw [Option.bind_some, Option.isSome_map, ih r, Matching, hconverts.rest_eq, List.length_drop]
      refine and_congr (by omega) ⟨fun h p hp => ?_, fun h p hp => h p (List.mem_append_right _ hp)⟩
      exact (List.mem_append.mp hp).elim (hfirst p) (h p)
  | case4 c spec chars args hne ih =>
    rw [formatted, if_neg hne, Matching, slots, if_neg hne, stringArgs, if_neg hne, Option.isSome_map, ih]
    rfl

end MioOS
