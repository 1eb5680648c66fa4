import MioOS.Library.CString
import MioOS.Library.Numeral

/-!
# Util/Number — `utoa` and `itoa` of `string_util.cpp`

`utoa` writes the digits of a number from the least significant on and turns the string around.  It
accepts every base up to 36, and its table has the sixteen digits of base 16 and the zero behind them:
`utoa_eq` says what it writes while the digits are in the table, and `utoa_eq_none` that it leaves the
table otherwise.
-/

namespace MioOS

open ByteMemory Numeral

/-- `chars`, with the zero that ends the literal. -/
def chars : List UInt8 :=
  [48, 49, 50, 51, 52, 53, 54, 55, 56, 57, 65, 66, 67, 68, 69, 70, 0]

/-- The loop of `utoa` that extracts the digits, in a base that has been checked. -/
def extractDigits (base value ptr : ℕ) (m : Mem) : Option (ℕ × Mem) :=
  if h : 0 < value ∧ 2 ≤ base then
    (chars[value % base]?).bind fun c => extractDigits base (value / base) (ptr + 1) (m.put ptr c)
  else some (ptr, m)
termination_by value
decreasing_by exact Nat.div_lt_self h.1 h.2

/-- The loop of `utoa` that turns a string around. -/
def reverseString (start stop : ℕ) (m : Mem) : Mem :=
  if start < stop then
    reverseString (start + 1) (stop - 1) ((m.put start (m stop)).put stop (m start))
  else m
termination_by stop - start

/-- **`utoa`**: what it returns, and the memory it leaves.  A digit outside the table is undefined. -/
def utoa (m : Mem) (value : UInt64) (str : ℕ) (base : ℤ) : Option (ℕ × Mem) :=
  if str = 0 then some (0, m)
  else if base < 2 ∨ base > 36 then some (str, m.put str 0)
  else if value = 0 then some (str, (m.put str 48).put (str + 1) 0)
  else (extractDigits base.toNat value.toNat str m).map fun r =>
    (str, reverseString str (r.1 - 1) (r.2.put r.1 0))

/-- **`itoa`**, with a sign in base 10 only. -/
def itoa (m : Mem) (value : Int64) (str : ℕ) (base : ℤ) : Option (ℕ × Mem) :=
  if str = 0 then some (0, m)
  else if base = 10 ∧ value < 0 then
    (utoa (m.put str 45) (-value).toUInt64 (str + 1) base).map fun r => (str, r.2)
  else (utoa m value.toUInt64 str base).map fun r => (str, r.2)

/-! ## Reading a string back -/

/-- The value of a digit or a letter. -/
def symbolValue (c : UInt8) : Option ℕ :=
  if 48 ≤ c ∧ c ≤ 57 then some (c.toNat - 48)
  else if 65 ≤ c ∧ c ≤ 90 then some (c.toNat - 55)
  else none

/-- The value of a digit of a base. -/
def digitOf (base : ℕ) (c : UInt8) : Option ℕ := (symbolValue c).filter (· < base)

/-- The number a string of digits says. -/
def readNumeral (base : ℕ) (text : List UInt8) : Option ℕ :=
  (text.mapM (digitOf base)).map (value base)

/-- The number a decimal string says, with a sign in front of it. -/
def readSigned (text : List UInt8) : Option ℤ :=
  if text.head? = some 45 then (readNumeral 10 text.tail).map fun v : ℕ => -(v : ℤ)
  else (readNumeral 10 text).map fun v : ℕ => (v : ℤ)

/-- The sign of a number. -/
def sign (v : ℤ) : List UInt8 := if v < 0 then [45] else []

/-- **A string is the numeral of a number**: at most 64 digits of the base, no leading zero unless the
number is 0, and read back it gives the number. -/
structure IsNumeral (base : ℕ) (text : List UInt8) (v : ℕ) : Prop where
  length : text.length ≤ 64
  nonempty : text ≠ []
  leading : text.head? = some 48 → v = 0
  digits : ∀ c ∈ text, (digitOf base c).isSome
  read : readNumeral base text = some v

/-- The symbol of a digit. -/
def symbol (d : ℕ) : UInt8 := chars.getD d 0

variable {m : Mem} {base v d str : ℕ} {ds : List ℕ} {text bs : List UInt8}

theorem symbolValue_symbol : ∀ d < 16, symbolValue (symbol d) = some d := by decide

theorem digitOf_symbol (hd : d < 16) (hb : d < base) : digitOf base (symbol d) = some d := by
  rw [digitOf, symbolValue_symbol d hd, Option.filter_some, if_pos (decide_eq_true hb)]

theorem symbolValue_zero : symbolValue 0 = none := by decide

theorem ne_zero_of_digitOf {c : UInt8} (h : (digitOf base c).isSome) : c ≠ 0 := by
  rintro rfl
  rw [digitOf, symbolValue_zero] at h
  exact absurd h Bool.false_ne_true

/-- **The symbols of digits are read back.** -/
theorem readNumeral_symbols (h16 : ∀ d ∈ ds, d < 16) (hb : ∀ d ∈ ds, d < base) :
    readNumeral base (ds.map symbol) = some (value base ds) := by
  suffices h : (ds.map symbol).mapM (digitOf base) = some ds by rw [readNumeral, h, Option.map_some]
  induction ds with
  | nil => rfl
  | cons d ds ih =>
    have hhead := digitOf_symbol (h16 d List.mem_cons_self) (hb d List.mem_cons_self)
    have htail := ih (fun d hd => h16 d (List.mem_cons_of_mem _ hd))
      (fun d hd => hb d (List.mem_cons_of_mem _ hd))
    rw [List.map_cons, List.mapM_cons, hhead, htail]
    rfl

/-- What reading a string says about its digits. -/
theorem digits_of_mapM (h : text.mapM (digitOf base) = some ds) :
    ds.length = text.length ∧ ∀ d ∈ ds, d < base := by
  induction text generalizing ds with
  | nil =>
    obtain rfl : [] = ds := Option.some.inj h
    exact ⟨rfl, fun d hd => absurd hd List.not_mem_nil⟩
  | cons c text ih =>
    rw [List.mapM_cons] at h
    obtain ⟨d, hd, h⟩ := Option.bind_eq_some_iff.mp h
    obtain ⟨rest, hrest, h⟩ := Option.bind_eq_some_iff.mp h
    obtain rfl : d :: rest = ds := Option.some.inj h
    obtain ⟨hlen, hlt⟩ := ih hrest
    have hbase : d < base := of_decide_eq_true (Option.filter_eq_some_iff.mp hd).2
    exact ⟨congrArg (· + 1) hlen, List.forall_mem_cons.mpr ⟨hbase, hlt⟩⟩

/-- **A numeral has at least as many digits** as the shortest one. -/
theorem IsNumeral.length_le (h : IsNumeral base text v) (hbase : 1 < base) :
    (numeral base v).length ≤ text.length := by
  obtain ⟨ds, hds, hval⟩ := Option.map_eq_some_iff.mp h.read
  obtain ⟨hlen, hlt⟩ := digits_of_mapM hds
  have hne : ds ≠ [] := by
    rintro rfl
    exact h.nonempty (List.length_eq_zero_iff.mp hlen.symm)
  exact (length_numeral_le_of_value hbase hlt hne hval).trans_eq hlen

/-- **The symbols of a number's digits are its numeral**, if the table has them. -/
theorem isNumeral_symbols (hbase : 1 < base) (hv : v < 2 ^ 64)
    (h16 : ∀ d ∈ numeral base v, d < 16) : IsNumeral base ((numeral base v).map symbol) v where
  length := by
    rw [List.length_map]
    exact length_numeral_le hbase (by norm_num) (hv.trans_le (Nat.pow_le_pow_left hbase 64))
  nonempty := mt List.map_eq_nil_iff.mp (numeral_ne_nil base v)
  leading h := by
    have hsymbol : ∀ d < 16, symbol d = 48 → d = 0 := by decide
    rw [List.head?_map, Option.map_eq_some_iff] at h
    obtain ⟨d, hd, h48⟩ := h
    refine numeral_head (b := base) ?_
    rw [hd, hsymbol d (h16 d (List.mem_of_head? hd)) h48]
  digits c hc := by
    obtain ⟨d, hd, rfl⟩ := List.mem_map.mp hc
    rw [digitOf_symbol (h16 d hd) (numeral_lt hbase d hd)]
    rfl
  read := by rw [readNumeral_symbols h16 (numeral_lt hbase), value_numeral]

/-- **Reading a signed numeral back.** -/
theorem readSigned_sign {v : ℤ} (h : IsNumeral 10 text v.natAbs) : readSigned (sign v ++ text) = some v := by
  by_cases hneg : v < 0
  · have hhead : ([45] ++ text).head? = some 45 := rfl
    rw [sign, if_pos hneg, readSigned, if_pos hhead, List.singleton_append, List.tail_cons, h.read,
      Option.map_some]
    congr 1
    omega
  · have hhead : text.head? ≠ some 45 := by
      intro hminus
      have hdigit := h.digits 45 (List.mem_of_head? hminus)
      exact absurd hdigit (by decide)
    rw [sign, if_neg hneg, List.nil_append, readSigned, if_neg hhead, h.read, Option.map_some]
    congr 1
    omega

/-! ## What `utoa` writes -/

/-- **The first loop** writes the symbols of the digits, the least significant first. -/
theorem extractDigits_eq (hbase : 2 ≤ base) (h : ∀ d ∈ Nat.digits base v, d < 17) (ptr : ℕ) (m : Mem) :
    extractDigits base v ptr m = some (ptr + (Nat.digits base v).length,
      m.write ptr ((Nat.digits base v).map symbol)) := by
  induction v using Nat.strong_induction_on generalizing ptr m with
  | _ v ih =>
    rw [extractDigits]
    rcases v.eq_zero_or_pos with rfl | hpos
    · rw [dif_neg fun hlt => absurd hlt.1 (lt_irrefl 0), Nat.digits_zero]
      rfl
    · rw [Nat.digits_def' hbase hpos] at h ⊢
      obtain ⟨hdigit, hrest⟩ := List.forall_mem_cons.mp h
      have hget : chars[v % base]? = some (symbol (v % base)) := by
        rw [symbol, List.getD_eq_getElem?_getD, List.getElem?_eq_getElem hdigit, Option.getD_some]
      rw [dif_pos ⟨hpos, hbase⟩, hget, Option.bind_some, ih _ (Nat.div_lt_self hpos hbase) hrest,
        List.length_cons, List.map_cons, Mem.write]
      congr 2
      omega

/-- **A digit that is not in the table** is undefined. -/
theorem extractDigits_eq_none (hbase : 2 ≤ base) (h : ∃ d ∈ Nat.digits base v, 17 ≤ d) (ptr : ℕ)
    (m : Mem) : extractDigits base v ptr m = none := by
  induction v using Nat.strong_induction_on generalizing ptr m with
  | _ v ih =>
    rw [extractDigits]
    rcases v.eq_zero_or_pos with rfl | hpos
    · obtain ⟨d, hd, -⟩ := h
      rw [Nat.digits_zero] at hd
      exact absurd hd List.not_mem_nil
    · rw [dif_pos ⟨hpos, hbase⟩]
      rw [Nat.digits_def' hbase hpos] at h
      obtain ⟨d, hd, hlt⟩ := h
      rcases List.mem_cons.mp hd with rfl | hd
      · rw [List.getElem?_eq_none hlt, Option.bind_none]
      · cases chars[v % base]? with
        | none => rfl
        | some c => exact ih _ (Nat.div_lt_self hpos hbase) ⟨d, hd, hlt⟩ _ _

/-- **The second loop** mirrors the bytes between its ends. -/
theorem reverseString_apply (start stop : ℕ) (m : Mem) (x : ℕ) :
    reverseString start stop m x = if start ≤ x ∧ x ≤ stop then m (start + stop - x) else m x := by
  induction start, stop, m using reverseString.induct with
  | case1 start stop m hlt ih =>
    rw [reverseString, if_pos hlt, ih]
    by_cases hstart : x = start
    · rw [if_neg (by omega), if_pos (by omega), hstart, Nat.add_sub_cancel_left, Mem.put_of_ne hlt.ne,
        Mem.put_self]
    by_cases hstop : x = stop
    · rw [if_neg (by omega), if_pos (by omega), hstop, Nat.add_sub_cancel, Mem.put_self]
    by_cases hin : start ≤ x ∧ x ≤ stop
    · rw [if_pos (by omega), if_pos hin, Mem.put_of_ne (by omega), Mem.put_of_ne (by omega)]
      congr 1
      omega
    · rw [if_neg (by omega), if_neg hin, Mem.put_of_ne hstop, Mem.put_of_ne hstart]
  | case2 start stop m hge =>
    rw [reverseString, if_neg hge]
    split
    · congr 1
      omega
    · rfl

/-- Turning a string around in memory. -/
theorem reverseString_write (hne : bs ≠ []) (a : ℕ) (b : UInt8) (m : Mem) :
    reverseString a (a + bs.length - 1) (m.write a (bs ++ [b])) = m.write a (bs.reverse ++ [b]) := by
  have hlen := List.length_pos_iff.mpr hne
  funext x
  rw [reverseString_apply, Mem.write_concat, Mem.write_concat, List.length_reverse]
  by_cases hin : a ≤ x ∧ x ≤ a + bs.length - 1
  · obtain ⟨i, rfl⟩ := Nat.exists_eq_add_of_le hin.1
    have hi : i < bs.length := by omega
    have hmirror : a + (a + bs.length - 1) - (a + i) = a + (bs.length - 1 - i) := by omega
    rw [if_pos hin, hmirror, Mem.put_of_ne (by omega), Mem.put_of_ne (by omega),
      Mem.write_apply_add (by omega), Mem.write_apply_add (by rwa [List.length_reverse]),
      List.getElem_reverse]
  · rw [if_neg hin]
    by_cases hx : x = a + bs.length
    · rw [hx, Mem.put_self, Mem.put_self]
    rw [Mem.put_of_ne hx, Mem.put_of_ne hx]
    rcases lt_or_ge x a with hlt | hge
    · rw [Mem.write_apply_of_lt hlt, Mem.write_apply_of_lt hlt]
    · rw [Mem.write_apply_of_ge (by omega), Mem.write_apply_of_ge (by rw [List.length_reverse]; omega)]

variable {u : UInt64} {b : ℤ}

theorem numeral_forall (hv : v ≠ 0) (p : ℕ → Prop) :
    (∀ d ∈ numeral base v, p d) ↔ ∀ d ∈ Nat.digits base v, p d := by
  rw [numeral_of_ne_zero hv]
  simp only [List.mem_reverse]

/-- **What `utoa` writes**: the symbols of the numeral and a zero. -/
theorem utoa_eq (hstr : str ≠ 0) (hb : 2 ≤ b) (hb' : b ≤ 36)
    (h : ∀ d ∈ numeral b.toNat u.toNat, d < 17) (m : Mem) :
    utoa m u str b = some (str, m.write str ((numeral b.toNat u.toNat).map symbol ++ [0])) := by
  have hbase : ¬ (b < 2 ∨ b > 36) := by omega
  rw [utoa, if_neg hstr, if_neg hbase]
  by_cases hu : u = 0
  · rw [if_pos hu, hu]
    rfl
  · have hv : u.toNat ≠ 0 := fun h => hu (UInt64.toNat_inj.mp h)
    rw [if_neg hu, extractDigits_eq (by omega) ((numeral_forall hv _).mp h), Option.map_some,
      numeral_of_ne_zero hv, List.map_reverse]
    dsimp only
    have hlen : ((Nat.digits b.toNat u.toNat).map symbol).length = (Nat.digits b.toNat u.toNat).length :=
      List.length_map ..
    rw [← hlen, ← Mem.write_concat, reverseString_write]
    exact mt List.map_eq_nil_iff.mp (Nat.digits_ne_nil_iff_ne_zero.mpr hv)

/-- **`utoa` leaves its table** when a digit is not in it. -/
theorem utoa_eq_none (hstr : str ≠ 0) (hb : 2 ≤ b) (hb' : b ≤ 36)
    (h : ∃ d ∈ numeral b.toNat u.toNat, 17 ≤ d) (m : Mem) : utoa m u str b = none := by
  have hbase : ¬ (b < 2 ∨ b > 36) := by omega
  have hv : u.toNat ≠ 0 := by
    intro hv
    obtain ⟨d, hd, hlt⟩ := h
    rw [hv, numeral, if_pos rfl, List.mem_singleton] at hd
    omega
  have hdigits : ∃ d ∈ Nat.digits b.toNat u.toNat, 17 ≤ d := by
    by_contra hnone
    obtain ⟨d, hd, hlt⟩ := h
    refine absurd hlt ((numeral_forall hv fun d => ¬ 17 ≤ d).mpr (fun d hd hlt => ?_) d hd)
    exact hnone ⟨d, hd, hlt⟩
  rw [utoa, if_neg hstr, if_neg hbase, if_neg fun hu => hv (by rw [hu]; rfl),
    extractDigits_eq_none (by omega) hdigits, Option.map_none]

/-! ## Round trips -/

/-- **`utoa` round-trips**: it returns, and leaves a numeral of the number with a zero behind it. -/
def RoundTrips (m : Mem) (str : ℕ) (base : ℤ) (v : UInt64) : Prop :=
  ∃ m' text, utoa m v str base = some (str, m') ∧ m'.Holds str (text ++ [0]) ∧
    IsNumeral base.toNat text v.toNat

/-- **`itoa` round-trips in base 10**: so does it, with a sign before the numeral of a negative
number. -/
def RoundTripsSigned (m : Mem) (str : ℕ) (v : Int64) : Prop :=
  ∃ m' text, itoa m v str 10 = some (str, m') ∧
    m'.Holds str (sign v.toInt ++ text ++ [0]) ∧ IsNumeral 10 text v.toInt.natAbs ∧
    readSigned (sign v.toInt ++ text) = some v.toInt

theorem roundTrips_of_lt (hstr : str ≠ 0) (hb : 2 ≤ b) (hb' : b ≤ 36)
    (h : ∀ d ∈ numeral b.toNat u.toNat, d < 16) : RoundTrips m str b u :=
  ⟨_, _, utoa_eq hstr hb hb' (fun d hd => Nat.lt_succ_of_lt (h d hd)) m, Mem.holds_write,
    isNumeral_symbols (by omega) u.toNat_lt h⟩

/-- **The sixteenth symbol ends the string**: no numeral of the number is there. -/
theorem not_roundTrips (hstr : str ≠ 0) (hb : 2 ≤ b) (hb' : b ≤ 36)
    (h : ∃ d ∈ numeral b.toNat u.toNat, 16 ≤ d) : ¬ RoundTrips m str b u := by
  rintro ⟨m', text, hutoa, hheld, htext⟩
  by_cases h17 : ∃ d ∈ numeral b.toNat u.toNat, 17 ≤ d
  · rw [utoa_eq_none hstr hb hb' h17] at hutoa
    exact absurd hutoa (Option.some_ne_none _).symm
  · have hlt : ∀ d ∈ numeral b.toNat u.toNat, d < 17 := fun d hd =>
      not_le.mp fun hle => h17 ⟨d, hd, hle⟩
    rw [utoa_eq hstr hb hb' hlt] at hutoa
    obtain rfl := (Prod.mk.inj (Option.some.inj hutoa)).2
    -- the table's zero stands inside the string
    obtain ⟨d, hd, hle⟩ := h
    obtain rfl : d = 16 := by
      have := hlt d hd
      omega
    obtain ⟨i, hi, hget⟩ := List.getElem_of_mem hd
    have hlen := htext.length_le (by omega : 1 < b.toNat)
    have hheld' := Mem.holds_append.mp hheld
    have hwritten : m.write str ((numeral b.toNat u.toNat).map symbol ++ [0]) (str + i) = 0 := by
      rw [Mem.write_apply_add (by rw [List.length_append, List.length_map]; omega),
        List.getElem_append_left (by rwa [List.length_map]), List.getElem_map, hget]
      rfl
    have hzero : text[i] = 0 := (Mem.holds_iff.mp hheld'.1 i (hi.trans_le hlen)).symm.trans hwritten
    exact ne_zero_of_digitOf (htext.digits _ (List.getElem_mem (hi.trans_le hlen))) hzero

theorem lt_zero_iff (v : Int64) : v < 0 ↔ v.toInt < 0 := by
  rw [Int64.lt_iff_toInt_lt, Int64.toInt_zero]

/-- **The magnitude**: the negation of a negative number, read as unsigned, is its absolute value, for
the least number too. -/
theorem toNat_magnitude (v : Int64) :
    (v.toInt < 0 → (-v).toUInt64.toNat = v.toInt.natAbs) ∧
      (¬ v.toInt < 0 → v.toUInt64.toNat = v.toInt.natAbs) := by
  have hlt := v.toBitVec.isLt
  have hint : v.toInt = if 2 * v.toBitVec.toNat < 2 ^ 64 then (v.toBitVec.toNat : ℤ)
      else v.toBitVec.toNat - (2 ^ 64 : ℕ) := BitVec.toInt_eq_toNat_cond _
  have hneg : (-v).toUInt64.toNat = (2 ^ 64 - v.toBitVec.toNat) % 2 ^ 64 := BitVec.toNat_neg _
  have hpos : v.toUInt64.toNat = v.toBitVec.toNat := rfl
  generalize v.toBitVec.toNat = n at *
  split at hint <;> omega

/-- **Decimal digits** are all in the table. -/
theorem digits_ten (v : ℕ) : ∀ d ∈ numeral 10 v, d < 16 := fun d hd =>
  (numeral_lt (by norm_num) d hd).trans (by norm_num)

/-- **What `itoa` writes in base 10**: a sign, the numeral and a zero. -/
theorem itoa_eq (hstr : str ≠ 0) (v : Int64) (m : Mem) : itoa m v str 10 = some (str,
    m.write str (sign v.toInt ++ (numeral 10 v.toInt.natAbs).map symbol ++ [0])) := by
  obtain ⟨hnegative, hpositive⟩ := toNat_magnitude v
  have h17 : ∀ u : UInt64, ∀ d ∈ numeral (10 : ℤ).toNat u.toNat, d < 17 := fun u d hd =>
    Nat.lt_succ_of_lt (digits_ten _ d hd)
  rw [itoa, if_neg hstr]
  by_cases hneg : v.toInt < 0
  · rw [if_pos ⟨rfl, (lt_zero_iff v).mpr hneg⟩,
      utoa_eq (Nat.succ_ne_zero str) (by norm_num) (by norm_num) (h17 _), Option.map_some,
      hnegative hneg, sign, if_pos hneg]
    rfl
  · rw [if_neg fun h => hneg ((lt_zero_iff v).mp h.2),
      utoa_eq hstr (by norm_num) (by norm_num) (h17 _), Option.map_some, hpositive hneg, sign, if_neg hneg]
    rfl

theorem roundTripsSigned (hstr : str ≠ 0) (v : Int64) (m : Mem) : RoundTripsSigned m str v := by
  have hlt : v.toInt.natAbs < 2 ^ 64 := by
    have := v.toInt_lt
    have := v.le_toInt
    omega
  have hnumeral := isNumeral_symbols (by norm_num) hlt (digits_ten _)
  exact ⟨_, _, itoa_eq hstr v m, Mem.holds_write, hnumeral, readSigned_sign hnumeral⟩

/-- **Numbers are formatted and read back**: an unsigned number exactly when the base has a symbol for
each of its digits, a signed number in base 10 always. -/
theorem number_roundTrips (m : Mem) (hstr : str ≠ 0) :
    (∀ (v : UInt64) (base : ℤ), 2 ≤ base → base ≤ 36 →
      (RoundTrips m str base v ↔ ∀ d ∈ Nat.digits base.toNat v.toNat, d < 16)) ∧
    ∀ v : Int64, RoundTripsSigned m str v := by
  refine ⟨fun v base hb hb' => ?_, fun v => roundTripsSigned hstr v m⟩
  have hdigits : (∀ d ∈ Nat.digits base.toNat v.toNat, d < 16) ↔
      ∀ d ∈ numeral base.toNat v.toNat, d < 16 := by
    by_cases hv : v.toNat = 0
    · rw [hv, Nat.digits_zero, numeral, if_pos rfl]
      decide
    · exact (numeral_forall hv _).symm
  rw [hdigits]
  constructor
  · intro h d hd
    by_contra hge
    exact not_roundTrips hstr hb hb' ⟨d, hd, not_lt.mp hge⟩ h
  · exact roundTrips_of_lt hstr hb hb'

/-- 255 in base 16. -/
theorem number_roundTrips_ff : RoundTrips (fun _ => 0) 0x1000 16 255 :=
  ((number_roundTrips (fun _ => 0) (by decide)).1 255 16 (by norm_num) (by norm_num)).mpr (by decide)

/-- **16 in base 17 is the empty string**, although 17 is accepted. -/
theorem not_roundTrips_base17 :
    ¬ ∀ (m : Mem) (str : ℕ) (base : ℤ) (v : UInt64), str ≠ 0 → 2 ≤ base → base ≤ 36 →
      RoundTrips m str base v := by
  intro h
  have hdigits : Nat.digits 17 16 = [16] := Nat.digits_of_lt 17 16 (by norm_num) (by norm_num)
  have hback := h (fun _ => 0) 0x1000 17 16 (by decide) (by norm_num) (by norm_num)
  refine not_roundTrips (by decide) (by norm_num) (by norm_num) ⟨16, ?_, le_rfl⟩ hback
  show 16 ∈ numeral 17 16
  rw [numeral_of_ne_zero (by norm_num), hdigits]
  exact List.mem_cons_self

end MioOS
