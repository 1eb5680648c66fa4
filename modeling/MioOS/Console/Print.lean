import MioOS.Console.Refinement
import MioOS.Util.Format

/-!
# Console/Print — `kvprintf` of `kernel_ui.cpp`, beside `sprintf`

`kvprintf` has a format interpreter of its own, which passes the characters to `kputchar` one by one.
Where the characters go is a parameter (`Sink`), so that what is proved about the sequence holds of the
console and of anything else.  `Agree` says that the two interpreters emit the same text.
-/

namespace MioOS

namespace Console

open ByteMemory

/-- **Where `kvprintf` prints**: the memory it reads, `kputchar` on the section, and `write` of the
serial logger. -/
structure Sink (σ : Type) where
  mem : σ → Mem
  kputchar : UInt32 → UInt8 → σ → σ
  write : List UInt8 → σ → σ

/-- `PrintTypes`. -/
inductive PrintTypes
  | stdPrint | logInfo | logWarning | logError
  deriving DecidableEq, Repr

/-- `RGB_COLOR_LIGHT_GRAY`. -/
def lightGray : UInt32 := 0xAAAAAA

/-- `RGB_COLOR_YELLOW`. -/
def yellow : UInt32 := 0xFFFF55

/-- `RGB_COLOR_RED`. -/
def red : UInt32 := 0xAA0000

/-- The size of the buffer that `kvprintf` formats into before there is a screen. -/
def bufSize : ℕ := 1024

section Kvprintf

variable {σ : Type} (k : Sink σ) (t : TmpBuf) (fmt : ℕ)

/-- `kputs` with a string of `kvprintf`'s own. -/
def Sink.putText (color : UInt32) (text : List UInt8) (s : σ) : Option σ :=
  kputs (k.kputchar color) (textAt text) countFuel 0 s

/-- `kputs` with the string at an address. -/
def Sink.putString (color : UInt32) (p : ℕ) (s : σ) : Option σ :=
  kputs (k.kputchar color) (fun s i => k.mem s (p + i)) countFuel 0 s

/-- The prefix of a print type. -/
def printPrefix (printType : PrintTypes) (s : σ) : Option σ :=
  match printType with
  | .logInfo => k.putText lightGray (['[', 'I', 'N', 'F', 'O', ']', ' '].map Char.toUInt8) s
  | .logWarning => k.putText yellow (['[', 'W', 'A', 'R', 'N', ']', ' '].map Char.toUInt8) s
  | .logError => k.putText red (['[', 'F', 'A', 'I', 'L', ']', ' '].map Char.toUInt8) s
  | .stdPrint => some s

/-- The `switch` of `kvprintf` on `fmt[i]`. -/
def kvprintfSwitch (color : UInt32) (i : ℕ) (args : VaList) (s : σ) : Option (VaList × σ) :=
  let spec := k.mem s (fmt + i)
  if spec = 'd'.toUInt8 ∨ spec = 'i'.toUInt8 then do
    let (val, args) ← vaArg args
    let text ← t.string (itoa t.bytes val.toInt64 t.addr 10)
    return (args, ← k.putText color text s)
  else if spec = 'u'.toUInt8 then do
    let (val, args) ← vaArg args
    let text ← t.string (utoa t.bytes val t.addr 10)
    return (args, ← k.putText color text s)
  else if spec = 'x'.toUInt8 ∨ spec = 'X'.toUInt8 then do
    let (val, args) ← vaArg args
    let text ← t.string (utoa t.bytes val t.addr 16)
    return (args, ← k.putText color text s)
  else if spec = 's'.toUInt8 then do
    let (p, args) ← vaArg args
    if p = 0 then return (args, ← k.putText color nullText s)
    else return (args, ← k.putString color p.toNat s)
  else if spec = 'c'.toUInt8 then do
    let (c, args) ← vaArg args
    return (args, k.kputchar color c.toUInt8 s)
  else if spec = '%'.toUInt8 then
    return (args, k.kputchar color '%'.toUInt8 s)
  else
    let s := k.kputchar color '%'.toUInt8 s
    return (args, k.kputchar color (k.mem s (fmt + i)) s)

/-- The loop of `kvprintf`, from the index `i` of the format on. -/
def kvprintfLoop (color : UInt32) : ℕ → ℕ → VaList → σ → Option σ
  | 0, _, _, _ => none
  | fuel + 1, i, args, s =>
    if k.mem s (fmt + i) = 0 then some s
    else if k.mem s (fmt + i) = '%'.toUInt8 ∧ k.mem s (fmt + (i + 1)) ≠ 0 then do
      let i ← intSucc i
      let (args, s) ← kvprintfSwitch k t fmt color i args s
      let i ← intSucc i
      kvprintfLoop color fuel i args s
    else do
      let s := k.kputchar color (k.mem s (fmt + i)) s
      let i ← intSucc i
      kvprintfLoop color fuel i args s

/-- **`kvprintf`**, with `buf` the address of its buffer on the stack and `initialized` that of the
GUI. -/
def kvprintf (buf : ℕ) (initialized : Bool) (printType : PrintTypes) (color : UInt32) (args : VaList)
    (s : σ) : Option σ :=
  if !initialized then do
    let (len, m) ← sprintf t buf fmt (k.mem s) args
    -- writing past the end of the buffer is undefined
    if len < bufSize then return k.write (← m.cString bufSize buf) s else none
  else do
    let s ← printPrefix k printType s
    kvprintfLoop k t fmt color countFuel 0 args s

end Kvprintf

/-! ## What `kvprintf` prints -/

/-- The characters of a text, one by one. -/
def Sink.putAll {σ : Type} (k : Sink σ) (color : UInt32) (text : List UInt8) (s : σ) : σ :=
  text.foldl (fun s c => k.kputchar color c s) s

/-- **Printing leaves a set of bytes alone**, from a state on. -/
def Sink.Leaves {σ : Type} (k : Sink σ) (color : UInt32) (K : Set ℕ) (s : σ) : Prop :=
  ∀ text, Mem.AgreeOn K (k.mem s) (k.mem (k.putAll color text s))

/-- States in which the bytes `K` are as in `m`, closed under printing. -/
structure Sink.Keeps {σ : Type} (k : Sink σ) (color : UInt32) (m : Mem) (K : Set ℕ) (P : σ → Prop) :
    Prop where
  kputchar : ∀ c s, P s → P (k.kputchar color c s)
  agree : ∀ s, P s → Mem.AgreeOn K m (k.mem s)

variable {σ : Type} {k : Sink σ} {t : TmpBuf} {color : UInt32} {fmt fuel i p : ℕ} {spec c : UInt8}
  {chars text : List UInt8} {args rest : VaList} {m : Mem} {s : σ} {K : Set ℕ} {P : σ → Prop}

theorem Sink.putAll_append (text₁ text₂ : List UInt8) :
    k.putAll color (text₁ ++ text₂) s = k.putAll color text₂ (k.putAll color text₁ s) :=
  List.foldl_append

theorem Sink.Keeps.putAll (hk : k.Keeps color m K P) (hs : P s) (text : List UInt8) :
    P (k.putAll color text s) := by
  induction text generalizing s with
  | nil => exact hs
  | cons c text ih => exact ih (hk.kputchar c s hs)

/-- The states that printing reaches. -/
theorem Sink.Leaves.keeps (h : k.Leaves color K s) :
    k.Keeps color (k.mem s) K fun s' => ∃ text, s' = k.putAll color text s where
  kputchar := by
    rintro c _ ⟨text, rfl⟩
    exact ⟨text ++ [c], (putAll_append text [c]).symm⟩
  agree := by
    rintro _ ⟨text, rfl⟩
    exact h text

theorem Sink.putText_eq (htext : ∀ c ∈ text, c ≠ 0) (h : text.length ≤ intMax) :
    k.putText color text s = some (k.putAll color text s) := kputs_textAt htext h

theorem Sink.putText_signed (v : Int64) :
    k.putText color (signedText v.toInt) s = some (k.putAll color (signedText v.toInt) s) :=
  putText_eq (signedText_noZero v.toInt) ((length_signedText_le v).trans (by decide))

theorem Sink.putText_unsigned (v : UInt64) {base : ℕ} (hb : 2 ≤ base) (hb' : base ≤ 16) :
    k.putText color (unsignedText base v.toNat) s
      = some (k.putAll color (unsignedText base v.toNat) s) :=
  putText_eq (unsignedText_noZero hb hb') ((length_unsignedText v hb).trans (by decide))

/-- **A string that printing leaves alone** is printed. -/
theorem Sink.putString_eq (hk : k.Keeps color m K P) (hs : P s) (hp : stringAt m p = some text)
    (hin : stringBytes m p ⊆ K) : k.putString color p s = some (k.putAll color text s) := by
  obtain ⟨hholds, hz, hlen⟩ := Mem.holds_of_cString hp
  have hread : ∀ s, P s → ∀ j ≤ text.length, k.mem s (p + (0 + j)) = text.getD j 0 := by
    intro s hs j hj
    rw [Nat.zero_add, hk.agree s hs _ (hin (mem_stringBytes hp hj)), hholds.getD hj]
  exact kputs_eq hk.kputchar hread hz hs ((Nat.zero_add _).trans_le (Nat.le_of_lt_succ hlen)) hlen

/-- **A specifier** prints its text. -/
theorem kvprintfSwitch_eq (h : Converts m spec args text rest) (hspec : m (fmt + i) = spec)
    (hin : fmt + i ∈ K)
    (hargs : ∀ q ∈ if spec = 's'.toUInt8 then args.take 1 else [], q ≠ 0 → stringBytes m q.toNat ⊆ K)
    (hk : k.Keeps color m K P) (hs : P s) :
    kvprintfSwitch k t fmt color i args s = some (rest, k.putAll color text s) := by
  rw [kvprintfSwitch]
  simp only [(hk.agree s hs _ hin).trans hspec]
  cases h with
  | signed v _ hd => simp [if_pos hd, vaArg, string_itoa, Sink.putText_signed]
  | unsigned v =>
    rw [if_neg (by decide), if_pos rfl]
    simp [vaArg, string_utoa_dec, Sink.putText_unsigned]
  | hex v _ hx =>
    have hd : ¬ (spec = 'd'.toUInt8 ∨ spec = 'i'.toUInt8) ∧ ¬ spec = 'u'.toUInt8 := by
      rcases hx with rfl | rfl <;> decide
    rw [if_neg hd.1, if_neg hd.2, if_pos hx]
    simp [vaArg, string_utoa_hex, Sink.putText_unsigned]
  | null =>
    have hnull : k.putText color nullText s = some (k.putAll color nullText s) :=
      Sink.putText_eq (noZero_of_all rfl) (by decide)
    rw [if_neg (by decide), if_neg (by decide), if_neg (by decide), if_pos rfl]
    simp [vaArg, hnull]
  | @string p text _ hp hstr =>
    rw [if_pos rfl] at hargs
    rw [if_neg (by decide), if_neg (by decide), if_neg (by decide), if_pos rfl]
    simp [vaArg, hp, Sink.putString_eq hk hs hstr (hargs p List.mem_cons_self hp)]
  | char c =>
    rw [if_neg (by decide), if_neg (by decide), if_neg (by decide), if_neg (by decide), if_pos rfl]
    rfl
  | percent =>
    rw [if_neg (by decide), if_neg (by decide), if_neg (by decide), if_neg (by decide),
      if_neg (by decide), if_pos rfl]
    rfl
  | unknown _ hnone =>
    simp only [List.map_cons, List.map_nil, List.mem_cons, List.not_mem_nil, or_false, not_or] at hnone
    obtain ⟨hd, hi, hu, hx, hX, hs', hc, hp⟩ := hnone
    rw [if_neg (not_or.mpr ⟨hd, hi⟩), if_neg hu, if_neg (not_or.mpr ⟨hx, hX⟩), if_neg hs', if_neg hc,
      if_neg hp, (hk.agree _ (hk.kputchar _ s hs) _ hin).trans hspec]
    rfl

/-- `%s` prints the string that the argument points to. -/
theorem kvprintfSwitch_string {q : UInt64} (hread : k.mem s (fmt + i) = 's'.toUInt8) (hq : q ≠ 0) :
    kvprintfSwitch k t fmt color i (q :: args) s = (k.putString color q.toNat s).map (args, ·) := by
  rw [kvprintfSwitch]
  simp only [hread]
  rw [if_neg (by decide), if_neg (by decide), if_neg (by decide), if_pos trivial]
  simp only [vaArg, Option.bind_eq_bind, Option.bind_some, if_neg hq, Option.map_eq_bind]
  rfl

theorem kvprintfLoop_end (hread : k.mem s (fmt + i) = 0) :
    kvprintfLoop k t fmt color (fuel + 1) i args s = some s := by
  rw [kvprintfLoop, if_pos hread]

/-- A character that starts no specifier is printed. -/
theorem kvprintfLoop_char (hread : k.mem s (fmt + i) = c) (hc : c ≠ 0)
    (hplain : ¬ (c = '%'.toUInt8 ∧ k.mem s (fmt + (i + 1)) ≠ 0)) (hi : i < intMax) :
    kvprintfLoop k t fmt color (fuel + 1) i args s
      = kvprintfLoop k t fmt color fuel (i + 1) args (k.kputchar color c s) := by
  rw [kvprintfLoop, hread, if_neg hc, if_neg hplain, intSucc_of_lt hi, Option.bind_eq_bind,
    Option.bind_some]

/-- A specifier takes its turn in the `switch`. -/
theorem kvprintfLoop_percent (hread : k.mem s (fmt + i) = '%'.toUInt8)
    (hnext : k.mem s (fmt + (i + 1)) ≠ 0) (hi : i + 1 < intMax) :
    kvprintfLoop k t fmt color (fuel + 1) i args s
      = (kvprintfSwitch k t fmt color (i + 1) args s).bind fun r =>
          kvprintfLoop k t fmt color fuel (i + 2) r.1 r.2 := by
  rw [kvprintfLoop, hread, if_neg (by decide), if_pos ⟨rfl, hnext⟩,
    intSucc_of_lt (Nat.lt_of_succ_lt hi)]
  simp only [Option.bind_eq_bind, Option.bind_some, intSucc_of_lt hi]

/-- **The loop of `kvprintf`** prints the text of the format. -/
theorem kvprintfLoop_eq (h : formatted m chars args = some text)
    (hchars : m.Holds (fmt + i) (chars ++ [0])) (hz : ∀ c ∈ chars, c ≠ 0)
    (hin : ∀ j ≤ chars.length, fmt + (i + j) ∈ K)
    (hargs : ∀ q ∈ stringArgs chars args, q ≠ 0 → stringBytes m q.toNat ⊆ K)
    (hk : k.Keeps color m K P) (hs : P s) (hi : i + chars.length ≤ intMax)
    (hfuel : chars.length < fuel) :
    kvprintfLoop k t fmt color fuel i args s = some (k.putAll color text s) := by
  induction chars, args using formatted.induct generalizing fuel i s text with
  | case1 args =>
    obtain ⟨fuel, rfl⟩ := Nat.exists_eq_succ_of_ne_zero hfuel.ne'
    obtain rfl : [] = text := Option.some.inj h
    exact kvprintfLoop_end ((hk.agree s hs _ (hin 0 le_rfl)).trans hchars.1)
  | case2 c args =>
    obtain ⟨fuel, rfl⟩ : ∃ k, fuel = k + 1 + 1 := ⟨fuel - 2, by rw [List.length_singleton] at hfuel; omega⟩
    obtain rfl : [c] = text := Option.some.inj h
    have hread : k.mem s (fmt + i) = c := (hk.agree s hs _ (hin 0 (Nat.zero_le _))).trans hchars.1
    have hend : k.mem s (fmt + (i + 1)) = 0 := (hk.agree s hs _ (hin 1 le_rfl)).trans hchars.2.1
    have hend' : k.mem (k.kputchar color c s) (fmt + (i + 1)) = 0 :=
      (hk.agree _ (hk.kputchar c s hs) _ (hin 1 le_rfl)).trans hchars.2.1
    rw [kvprintfLoop_char hread (hz c List.mem_cons_self) (fun hc => hc.2 hend) hi,
      kvprintfLoop_end hend']
    rfl
  | case3 spec chars args ih =>
    obtain ⟨fuel, rfl⟩ := Nat.exists_eq_succ_of_ne_zero (Nat.ne_zero_of_lt hfuel)
    rw [formatted, if_pos rfl] at h
    obtain ⟨⟨first, rest⟩, hconv, h⟩ := Option.bind_eq_some_iff.mp h
    obtain ⟨tail, htail, rfl⟩ := Option.map_eq_some_iff.mp h
    dsimp only at htail
    have hconverts := converts_of_eq hconv
    rw [List.length_cons, List.length_cons] at hi hfuel
    rw [stringArgs, if_pos rfl] at hargs
    have hspec : spec ≠ 0 := hz spec (List.mem_cons_of_mem _ List.mem_cons_self)
    have hread : k.mem s (fmt + i) = '%'.toUInt8 :=
      (hk.agree s hs _ (hin 0 (Nat.zero_le _))).trans hchars.1
    have hnext : fmt + (i + 1) ∈ K := hin 1 (by rw [List.length_cons, List.length_cons]; omega)
    have hread' : k.mem s (fmt + (i + 1)) = spec := (hk.agree s hs _ hnext).trans hchars.2.1
    have hswitch : kvprintfSwitch k t fmt color (i + 1) args s = some (rest, k.putAll color first s) :=
      kvprintfSwitch_eq hconverts hchars.2.1 hnext
        (fun q hq => hargs q (List.mem_append_left _ hq)) hk hs
    have hrest : kvprintfLoop k t fmt color fuel (i + 2) rest (k.putAll color first s)
        = some (k.putAll color (first ++ tail) s) := by
      rw [Sink.putAll_append]
      refine ih (first, rest) htail hchars.2.2
        (fun c hc => hz c (List.mem_cons_of_mem _ (List.mem_cons_of_mem _ hc))) (fun j hj => ?_)
        (fun q hq => hargs q (List.mem_append_right _ ?_)) (hk.putAll hs first) (by omega) (by omega)
      · have hj' := hin (j + 1 + 1) (by rw [List.length_cons, List.length_cons]; omega)
        rwa [show i + 2 + j = i + (j + 1 + 1) by omega]
      · rwa [← hconverts.rest_eq]
    rw [kvprintfLoop_percent hread (hread'.trans_ne hspec) (by omega), hswitch, Option.bind_some, hrest]
  | case4 c spec chars args hne ih =>
    obtain ⟨fuel, rfl⟩ := Nat.exists_eq_succ_of_ne_zero (Nat.ne_zero_of_lt hfuel)
    rw [formatted, if_neg hne] at h
    obtain ⟨tail, htail, rfl⟩ := Option.map_eq_some_iff.mp h
    rw [List.length_cons] at hi hfuel
    rw [stringArgs, if_neg hne] at hargs
    have hread : k.mem s (fmt + i) = c := (hk.agree s hs _ (hin 0 (Nat.zero_le _))).trans hchars.1
    have hrest : kvprintfLoop k t fmt color fuel (i + 1) args (k.kputchar color c s)
        = some (k.putAll color (c :: tail) s) := by
      refine ih htail hchars.2 (fun c hc => hz c (List.mem_cons_of_mem _ hc)) (fun j hj => ?_) hargs
        (hk.kputchar c s hs) (by omega) (by omega)
      have hj' := hin (j + 1) (by rw [List.length_cons]; omega)
      rwa [show i + 1 + j = i + (j + 1) by omega]
    rw [kvprintfLoop_char hread (hz c List.mem_cons_self) (fun hc => hne hc.1) (by omega), hrest]

/-- **`kvprintf` prints the text of the format**, if printing leaves the format and the strings
alone. -/
theorem kvprintf_eq {buf : ℕ} (hfmt : stringAt (k.mem s) fmt = some chars)
    (h : formatted (k.mem s) chars args = some text)
    (hk : k.Leaves color (sourceBytes (k.mem s) fmt chars args) s) :
    kvprintf k t fmt buf true .stdPrint color args s = some (k.putAll color text s) := by
  obtain ⟨hholds, hz, hlen⟩ := Mem.holds_of_cString hfmt
  rw [kvprintf, if_neg (by decide)]
  exact kvprintfLoop_eq h hholds hz
    (fun j hj => Or.inl (by rw [Nat.zero_add]; exact mem_stringBytes hfmt hj))
    (fun q hq hne x hx => Or.inr ⟨q, hq, hne, hx⟩) hk.keeps ⟨[], rfl⟩
    ((Nat.zero_add _).trans_le (Nat.le_of_lt_succ hlen)) hlen

/-! ## The two formatters -/

/-- **`sprintf` and `kvprintf` agree** on a format: there is one text that `kvprintf` passes to
`kputchar`, without a prefix and on an initialized GUI, and that `sprintf` stores with a zero behind it,
and its length is what `sprintf` returns. -/
def Agree {σ : Type} (k : Sink σ) (color : UInt32) (buffer fmt : ℕ) (args : VaList) (s : σ) : Prop :=
  ∃ text : List UInt8,
    (∀ (t : TmpBuf) (buf : ℕ),
      kvprintf k t fmt buf true .stdPrint color args s = some (k.putAll color text s)) ∧
    ∀ t : TmpBuf, ∃ m', sprintf t buffer fmt (k.mem s) args = some (text.length, m') ∧
      m'.Holds buffer (text ++ [0])

/-- **The two formatters agree** on every format and every matching argument list, as long as the text
can be counted in an `int` and the format and the strings lie outside what `sprintf` stores and outside
what printing changes. -/
theorem formatters_agree {buffer : ℕ} (hfmt : stringAt (k.mem s) fmt = some chars)
    (hargs : Matching (k.mem s) chars args)
    (htext : ∀ text, formatted (k.mem s) chars args = some text → text.length ≤ intMax ∧
      Mem.Off (sourceBytes (k.mem s) fmt chars args) buffer text.length)
    (hk : k.Leaves color (sourceBytes (k.mem s) fmt chars args) s) :
    Agree k color buffer fmt args s := by
  obtain ⟨text, h⟩ := Option.isSome_iff_exists.mp (formatted_isSome_iff.mpr hargs)
  obtain ⟨hlen, hout⟩ := htext text h
  exact ⟨text, fun t buf => kvprintf_eq hfmt h hk, fun t =>
    ⟨_, sprintf_eq hfmt h hlen hout, Mem.holds_write⟩⟩

/-! ## On the console -/

/-- The console's section, and no serial port. -/
def consoleSink (fb : FramebufferDriver) : Sink State := ⟨State.mem, kputchar fb, fun _ s => s⟩

variable {fb : FramebufferDriver} {startX startY endX endY : ℕ} {m₀ : Mem}
  {h : Fits fb startX startY endX endY} {s : State} {tm : Grid startX startY endX endY}

theorem putAll_consoleSink :
    (consoleSink fb).putAll color text s = printChars fb (text.map fun c => (color, c)) s := by
  rw [Sink.putAll, printChars, List.foldl_map]
  rfl

/-- **The console leaves everything alone** but the pixels of its section. -/
theorem Displays.leaves (hd : Displays h m₀ s tm) (hfresh : tm.Fresh)
    (hK : K ⊆ (h.raster.bytes startX endX startY endY)ᶜ) : (consoleSink fb).Leaves color K s := by
  intro text x hx
  have hagree := (hd.printChars hfresh (text.map fun c => (color, c))).agree x (hK hx)
  rw [putAll_consoleSink]
  exact hagree.trans (hd.agree x (hK hx)).symm

/-- **`kvprintf` on the console** prints the text of the format in its color. -/
theorem kvprintf_console {buf : ℕ} (hd : Displays h m₀ s tm) (hfresh : tm.Fresh)
    (hfmt : stringAt s.mem fmt = some chars) (htext : formatted s.mem chars args = some text)
    (hout : sourceBytes s.mem fmt chars args ⊆ (h.raster.bytes startX endX startY endY)ᶜ) :
    kvprintf (consoleSink fb) t fmt buf true .stdPrint color args s
      = some (printChars fb (text.map fun c => (color, c)) s) := by
  rw [← putAll_consoleSink]
  exact kvprintf_eq hfmt htext (hd.leaves hfresh hout)

/-! ## A format and a string in memory -/

/-- Memory with a format at 16 and a string somewhere behind it. -/
def stringMem (format : List UInt8) (p : ℕ) (str : List UInt8) : Mem :=
  Mem.write (Mem.write (fun _ => 0) 16 format) p str

/-- A format and a string that do not meet, and that an `int` can count. -/
structure Placed (format : List UInt8) (p : ℕ) (str : List UInt8) : Prop where
  format_noZero : ∀ c ∈ format, c ≠ 0
  format_le : format.length ≤ intMax
  behind : 16 + format.length < p
  str_noZero : ∀ c ∈ str, c ≠ 0
  str_le : str.length ≤ intMax

namespace Placed

variable {format str : List UInt8} {p : ℕ} {x : ℕ}

theorem apply_of_lt (_ : Placed format p str) (hx : 16 + format.length ≤ x) (hp : x < p) :
    stringMem format p str x = 0 := by
  rw [stringMem, Mem.write_apply_of_lt hp, Mem.write_apply_of_ge hx]

theorem apply_of_ge (h : Placed format p str) (hx : p + str.length ≤ x) :
    stringMem format p str x = 0 := by
  have hbehind := h.behind
  rw [stringMem, Mem.write_apply_of_ge hx, Mem.write_apply_of_ge (by omega)]

theorem stringAt_format (h : Placed format p str) : stringAt (stringMem format p str) 16 = some format := by
  have hbehind := h.behind
  refine Mem.cString_of_holds (Mem.holds_append.mpr ⟨?_, h.apply_of_lt le_rfl hbehind, trivial⟩)
    h.format_noZero (lt_countFuel h.format_le)
  refine Mem.holds_iff.mpr fun i hi => ?_
  rw [stringMem, Mem.write_apply_of_lt (by omega), Mem.write_apply_add hi]

theorem stringAt_str (h : Placed format p str) : stringAt (stringMem format p str) p = some str :=
  Mem.cString_of_holds (Mem.holds_append.mpr ⟨Mem.holds_write, h.apply_of_ge le_rfl, trivial⟩)
    h.str_noZero (lt_countFuel h.str_le)

/-- The bytes of the format, its terminator included. -/
theorem format_byte (h : Placed format p str) {i : ℕ} (hi : i ≤ format.length) :
    stringMem format p str (16 + i) = format.getD i 0 :=
  (Mem.holds_of_cString h.stringAt_format).1.getD hi

theorem ne_zero {q : UInt64} (h : Placed format q.toNat str) : q ≠ 0 := by
  rintro rfl
  exact absurd h.behind (Nat.not_lt_zero _)

/-- The bytes that the format and the string occupy. -/
theorem sources (h : Placed format p str) (hargs : ∀ q ∈ stringArgs format args, q = 0 ∨ q.toNat = p)
    (hx : x ∈ sourceBytes (stringMem format p str) 16 format args) :
    16 ≤ x ∧ x ≤ 16 + format.length ∨ p ≤ x ∧ x ≤ p + str.length := by
  rcases hx with hx | ⟨q, hq, hne, hx⟩
  · exact Or.inl ((mem_stringBytes_iff h.stringAt_format).mp hx)
  · have hqp := (hargs q hq).resolve_left hne
    rw [hqp] at hx
    exact Or.inr ((mem_stringBytes_iff h.stringAt_str).mp hx)

end Placed

/-- The section of `smallScreen` over such a memory. -/
def stringScreen (format : List UInt8) (p : ℕ) (str : List UInt8) : State :=
  start (stringMem format p str) 2 1 14 20

/-- The format and the string are outside the pixels of `smallScreen`. -/
theorem Placed.leaves {format str : List UInt8} {p : ℕ} (h : Placed format p str)
    (hformat : 16 + format.length < 0x1000) (hp : 0x2000 ≤ p)
    (hargs : ∀ q ∈ stringArgs format args, q = 0 ∨ q.toNat = p) :
    (consoleSink smallScreen).Leaves color (sourceBytes (stringMem format p str) 16 format args)
      (stringScreen format p str) := by
  have hblank : ∀ x y, 2 ≤ x → x < 14 → 1 ≤ y → y < 20 → smallScreen.pixel (stringMem format p str) x y = 0 := by
    intro x y hx hx' hy hy'
    refine Mem.load_eq_zero fun i hi => h.apply_of_lt ?_ ?_ <;>
      simp only [smallScreen] at hi ⊢ <;> omega
  refine (displays_start fits_smallScreen hblank).leaves (Terminal.fresh_blank _ _) fun x hx hin => ?_
  obtain ⟨y, hy, hy', hle, hlt⟩ := hin
  have hsrc := h.sources hargs hx
  simp only [Fits.raster, smallScreen, Raster.addr] at hle hlt
  omega

/-- `"%s%s"`. -/
def percentSS : List UInt8 := ['%', 's', '%', 's'].map Char.toUInt8

/-- Strings that `"%s%s"` has one after the other. -/
theorem formatted_percentSS {q r : UInt64} {a b : List UInt8} (ha : argText m q = some a)
    (hb : argText m r = some b) : formatted m percentSS [q, r] = some (a ++ b) := by
  have hrest : formatted m ('%'.toUInt8 :: 's'.toUInt8 :: []) [r] = some b := by
    rw [formatted_string hb, formatted, Option.map_some, List.append_nil]
  rw [show percentSS = '%'.toUInt8 :: 's'.toUInt8 :: '%'.toUInt8 :: 's'.toUInt8 :: [] from rfl,
    formatted_string ha, hrest, Option.map_some]

/-- `"hi"`. -/
def hiText : List UInt8 := ['h', 'i'].map Char.toUInt8

theorem placed_hi : Placed percentSS 0x2000 hiText :=
  ⟨noZero_of_all rfl, by decide, by decide, noZero_of_all rfl, by decide⟩

/-- The null string is printed as `"(null)"` by both, and what follows it as it is. -/
theorem formatters_agree_null :
    Agree (consoleSink smallScreen) lightGray 0x3000 16 [0, 0x2000] (stringScreen percentSS 0x2000 hiText) := by
  have hformatted : formatted (stringMem percentSS 0x2000 hiText) percentSS [0, 0x2000]
      = some (nullText ++ hiText) :=
    formatted_percentSS rfl ((argText_of_ne (by decide)).trans placed_hi.stringAt_str)
  have hargs : ∀ q ∈ stringArgs percentSS [0, 0x2000], q = 0 ∨ q.toNat = 0x2000 := fun q hq => by
    rcases List.mem_pair.mp hq with rfl | rfl
    · exact Or.inl rfl
    · exact Or.inr rfl
  refine formatters_agree placed_hi.stringAt_format
    (formatted_isSome_iff.mp (Option.isSome_iff_exists.mpr ⟨_, hformatted⟩)) (fun text htext => ?_)
    (placed_hi.leaves (by decide) le_rfl hargs)
  obtain rfl := Option.some.inj (hformatted.symm.trans htext)
  refine ⟨by decide, fun x hx => Or.inl ?_⟩
  have hsrc := placed_hi.sources hargs hx
  have hlen : percentSS.length = 4 ∧ hiText.length = 2 := by decide
  omega

/-! ## Where the formatters differ -/

/-- **The formatters do not agree** on a format, although the arguments match it. -/
def Differ {σ : Type} (k : Sink σ) (color : UInt32) (buffer fmt : ℕ) (args : VaList) (s : σ) : Prop :=
  (∃ chars, stringAt (k.mem s) fmt = some chars ∧ Matching (k.mem s) chars args) ∧
    ¬ Agree k color buffer fmt args s

theorem differ_of_sprintf {buffer : ℕ} (hfmt : stringAt s.mem fmt = some chars)
    (h : formatted s.mem chars args = some text)
    (hnone : ∀ t, sprintf t buffer fmt s.mem args = none) :
    Differ (consoleSink fb) color buffer fmt args s := by
  refine ⟨⟨chars, hfmt, formatted_isSome_iff.mp (Option.isSome_iff_exists.mpr ⟨text, h⟩)⟩, ?_⟩
  rintro ⟨text', -, hsprintf⟩
  obtain ⟨m', hsome, -⟩ := hsprintf ⟨1, fun _ => 0, by decide⟩
  exact Option.some_ne_none _ (hsome.symm.trans (hnone _))

/-- Half as many characters as overflow an `int`. -/
def longText : List UInt8 := List.replicate (2 ^ 30) 'a'.toUInt8

theorem length_longText : longText.length = 2 ^ 30 := List.length_replicate

theorem placed_long : Placed percentSS 0x2000 longText where
  format_noZero := noZero_of_all rfl
  format_le := by decide
  behind := by decide
  str_noZero c hc := by
    rw [List.eq_of_mem_replicate hc]
    decide
  str_le := by
    rw [length_longText]
    decide

/-- A string is stored again behind itself, until an `int` cannot count both copies. -/
theorem storeFrom_again {str : List UInt8} {q : UInt64} {buffer : ℕ}
    (h : Placed percentSS q.toNat str) (hlong : intMax < str.length + str.length)
    (hbuffer : q.toNat + str.length < buffer) :
    storeFrom buffer q.toNat countFuel 0 ⟨0, stringMem percentSS q.toNat str⟩
        = some (Out.append ⟨0, stringMem percentSS q.toNat str⟩ buffer str) ∧
      storeFrom buffer q.toNat countFuel 0 (Out.append ⟨0, stringMem percentSS q.toNat str⟩ buffer str)
        = none := by
  set m := stringMem percentSS q.toNat str
  set K := stringBytes m q.toNat
  obtain ⟨hholds, hz, hlen⟩ := Mem.holds_of_cString h.stringAt_str
  have hK : Mem.Off K buffer (str.length + str.length) := by
    intro x hx
    have hsrc := (mem_stringBytes_iff h.stringAt_str).mp hx
    omega
  have hin : ∀ i ≤ str.length, q.toNat + 0 + i ∈ K := fun i hi => mem_stringBytes h.stringAt_str hi
  have hidx : (Out.append ⟨0, m⟩ buffer str).bufIdx = str.length := Nat.zero_add _
  have hstrLe : Mem.Off K buffer str.length := hK.mono le_rfl (by omega)
  have hagree : Mem.AgreeOn K m (Out.append ⟨0, m⟩ buffer str).buf :=
    Out.agreeOn_append hstrLe (Mem.AgreeOn.refl _ _) (Nat.zero_add _).le
  constructor
  · exact storeFrom_eq hstrLe h.str_le (Mem.AgreeOn.refl _ _) hholds hz hin (Nat.zero_add _).le
      ((Nat.zero_add _).trans_le h.str_le) hlen
  · exact storeFrom_eq_none hK hagree hholds hz hin (by rw [hidx]) (by rw [hidx]; exact h.str_le)
      (by rw [hidx]; exact hlong)

/-- **A string that is printed twice** and overflows the `int` that `sprintf` counts in, although each
copy can be counted. -/
theorem differ_of_twice {str : List UInt8} {q : UInt64} {buffer : ℕ}
    (h : Placed percentSS q.toNat str) (hlong : intMax < str.length + str.length)
    (hbuffer : q.toNat + str.length < buffer) :
    Differ (consoleSink fb) color buffer 16 [q, q]
      (start (stringMem percentSS q.toNat str) startX startY endX endY) := by
  set m := stringMem percentSS q.toNat str
  have hbehind := h.behind
  obtain ⟨hfirst, hsecond⟩ := storeFrom_again h hlong hbuffer
  have hread' : ∀ i ≤ percentSS.length,
      (Out.append ⟨0, m⟩ buffer str).buf (16 + i) = percentSS.getD i 0 := fun i hi =>
    (Mem.write_apply_of_lt (by dsimp only; omega)).trans (h.format_byte hi)
  have hnone : ∀ t, sprintf t buffer 16 m [q, q] = none := by
    intro t
    rw [sprintf, show countFuel = (intMax - 1) + 1 + 1 by decide,
      sprintfLoop_percent (h.format_byte (i := 0) (by decide))
        ((h.format_byte (i := 1) (by decide)).trans_ne (by decide)) (by decide),
      sprintfSwitch_string (h.format_byte (i := 1) (by decide)) h.ne_zero, hfirst, Option.map_some,
      Option.bind_some,
      sprintfLoop_percent (hread' 2 (by decide)) ((hread' 3 (by decide)).trans_ne (by decide)) (by decide),
      sprintfSwitch_string (hread' 3 (by decide)) h.ne_zero, hsecond]
    rfl
  have hstr : argText m q = some str := (argText_of_ne h.ne_zero).trans h.stringAt_str
  exact differ_of_sprintf h.stringAt_format (formatted_percentSS hstr hstr) hnone

/-- `"x%s"`. -/
def xPercentS : List UInt8 := ['x', '%', 's'].map Char.toUInt8

/-- **A string that is printed into itself**, with a character in front of it: `sprintf` never ends. -/
theorem differ_of_self {str : List UInt8} {q : UInt64} (h : Placed xPercentS q.toNat str) :
    Differ (consoleSink fb) color q.toNat 16 [q]
      (start (stringMem xPercentS q.toNat str) startX startY endX endY) := by
  set m := stringMem xPercentS q.toNat str
  have hbehind := h.behind
  have hq := h.ne_zero
  have hread' : ∀ i ≤ xPercentS.length,
      (Out.append ⟨0, m⟩ q.toNat ['x'.toUInt8]).buf (16 + i) = xPercentS.getD i 0 := fun i hi =>
    (Mem.write_apply_of_lt (by dsimp only; omega)).trans (h.format_byte hi)
  have hx : m (16 + 0) = 'x'.toUInt8 := h.format_byte (Nat.zero_le _)
  have hstore : storeFrom q.toNat q.toNat countFuel 0 (Out.append ⟨0, m⟩ q.toNat ['x'.toUInt8]) = none :=
    storeFrom_self (c := 'x'.toUInt8) (by decide) Mem.put_self rfl
  have hnone : ∀ t, sprintf t q.toNat 16 m [q] = none := by
    intro t
    rw [sprintf, show countFuel = (intMax - 1) + 1 + 1 by decide,
      sprintfLoop_char hx (by decide) (fun hc => absurd hc.1 (by decide)) (by decide : 0 + 1 ≤ intMax)
        (by decide), Nat.zero_add,
      sprintfLoop_percent (hread' 1 (by decide)) ((hread' 2 (by decide)).trans_ne (by decide)) (by decide),
      sprintfSwitch_string (hread' 2 (by decide)) hq, hstore]
    rfl
  have hstr : argText m q = some str := (argText_of_ne hq).trans h.stringAt_str
  have htext : formatted m xPercentS [q] = some ('x'.toUInt8 :: (str ++ [])) := by
    rw [show xPercentS = 'x'.toUInt8 :: '%'.toUInt8 :: 's'.toUInt8 :: [] from rfl, formatted,
      if_neg (by decide), formatted_string hstr]
    rfl
  exact differ_of_sprintf h.stringAt_format htext hnone

/-- `"%s"`. -/
def percentS : List UInt8 := ['%', 's'].map Char.toUInt8

theorem placed_pixel : Placed percentS 0x1000 hiText :=
  ⟨noZero_of_all rfl, by decide, by decide, noZero_of_all rfl, by decide⟩

/-- **A string in the pixels of the section**: printing its first character draws over the second. -/
theorem differ_pixels : Differ (consoleSink smallScreen) 0 0x3000 16 [0x1000]
    (start (stringMem percentS 0x1000 hiText) 0 0 16 20) := by
  set m := stringMem percentS 0x1000 hiText
  set s := start m 0 0 16 20
  set s' := kputchar smallScreen 0 'h'.toUInt8 s with hs'
  have hformat := placed_pixel.stringAt_format
  have hstr : argText m 0x1000 = some hiText := (argText_of_ne (by decide)).trans placed_pixel.stringAt_str
  have htext : formatted m percentS [0x1000] = some hiText := by
    rw [show percentS = '%'.toUInt8 :: 's'.toUInt8 :: [] from rfl, formatted_string hstr]
    rfl
  have hover : s'.mem 0x1001 = 0 ∧ s'.mem 18 = 0 := by
    rw [hs']
    decide +kernel
  have hput : (consoleSink smallScreen).putString 0 0x1000 s = some s' := by
    rw [Sink.putString, show countFuel = (intMax - 1) + 1 + 1 by decide,
      kputs_cons (c := 'h'.toUInt8) (by decide) (by decide) (by decide)]
    exact kputs_nil hover.1
  have hprint : ∀ (t : TmpBuf) buf,
      kvprintf (consoleSink smallScreen) t 16 buf true .stdPrint 0 [0x1000] s = some s' := by
    intro t buf
    have hread : ∀ i ≤ percentS.length, m (16 + i) = percentS.getD i 0 := fun i hi =>
      placed_pixel.format_byte hi
    rw [kvprintf, if_neg (by decide), show countFuel = (intMax - 1) + 1 + 1 by decide, printPrefix,
      Option.bind_eq_bind, Option.bind_some,
      kvprintfLoop_percent (hread 0 (by decide)) ((hread 1 (by decide)).trans_ne (by decide)) (by decide),
      kvprintfSwitch_string (hread 1 (by decide)) (by decide), show (0x1000 : UInt64).toNat = 0x1000 from rfl,
      hput, Option.map_some, Option.bind_some, kvprintfLoop_end hover.2]
  refine ⟨⟨percentS, hformat, formatted_isSome_iff.mp (Option.isSome_iff_exists.mpr ⟨hiText, htext⟩)⟩, ?_⟩
  rintro ⟨text, hkvprintf, hsprintf⟩
  have t : TmpBuf := ⟨1, fun _ => 0, by decide⟩
  obtain ⟨m', hsome, hholds⟩ := hsprintf t
  have hout : Mem.Off (sourceBytes m 16 percentS [0x1000]) 0x3000 hiText.length := by
    intro x hx
    have hargs : ∀ q ∈ stringArgs percentS [0x1000], q = 0 ∨ q.toNat = 0x1000 := fun q hq => by
      rw [List.mem_singleton.mp hq]
      exact Or.inr rfl
    have hsrc := placed_pixel.sources hargs hx
    have hlen : percentS.length = 2 ∧ hiText.length = 2 := by decide
    omega
  have heq := hsome.symm.trans (sprintf_eq hformat htext (by decide) hout)
  obtain ⟨hlen, rfl⟩ := Prod.mk.inj (Option.some.inj heq)
  obtain rfl : text = hiText := by
    have happend : text ++ [0] = hiText ++ [0] :=
      hholds.inj Mem.holds_write (by rw [List.length_append, List.length_append, hlen])
    exact List.append_cancel_right happend
  have hlast : (consoleSink smallScreen).putAll 0 hiText s = s' :=
    Option.some.inj ((hkvprintf t 0).symm.trans (hprint t 0))
  have hcursor : ((consoleSink smallScreen).putAll 0 hiText s).sect.currCords ≠ s'.sect.currCords := by
    decide +kernel
  exact hcursor (congrArg (fun s => s.sect.currCords) hlast)

/-- **The formatters do not always agree**: the text may be too long for an `int`, and a string may lie
in the buffer or under the pixels. -/
theorem not_always_agree :
    Differ (consoleSink smallScreen) lightGray (2 ^ 40) 16 [0x2000, 0x2000]
        (start (stringMem percentSS 0x2000 longText) 2 1 14 20) ∧
      Differ (consoleSink smallScreen) lightGray 0x2000 16 [0x2000]
        (start (stringMem xPercentS 0x2000 hiText) 2 1 14 20) ∧
      Differ (consoleSink smallScreen) 0 0x3000 16 [0x1000]
        (start (stringMem percentS 0x1000 hiText) 0 0 16 20) := by
  refine ⟨?_, ?_, differ_pixels⟩
  · have hlong : intMax < longText.length + longText.length := by
      rw [length_longText]
      decide
    exact differ_of_twice (q := 0x2000) placed_long hlong (by rw [length_longText]; decide)
  · exact differ_of_self (q := 0x2000)
      ⟨noZero_of_all rfl, by decide, by decide, noZero_of_all rfl, by decide⟩

end Console

end MioOS
