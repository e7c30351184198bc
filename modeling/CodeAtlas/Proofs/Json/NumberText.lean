import CodeAtlas.Json.Printer
import CodeAtlas.Json.Reader
import CodeAtlas.Proofs.Number.Shortest

/-!
The text of a number is read back as that number.

A number ends where no further digit, point or exponent follows (`Stops`). The reader takes a number
apart into its whole digits, its fraction and its exponent, and the three `numberBody_…` lemmas say
what comes of each shape. Integers print their digits; a double-precision number prints its shortest
decimal in one of four layouts, all of the same value (`number_decimalText`). `scalar_int` and
`scalar_float` are the results.
-/

namespace CodeAtlas.Json

open List

variable {ds rest cs whole text : List Char} {x : Decimal}

/-! ### Digits -/

def NoDigit (cs : List Char) : Prop :=
  ∀ c, cs.head? = some c → c.isDigit = false

def AllDigits (cs : List Char) : Prop :=
  ∀ c ∈ cs, c.isDigit = true

theorem AllDigits.append {a b : List Char} (ha : AllDigits a) (hb : AllDigits b) :
    AllDigits (a ++ b) := by
  intro c hc
  rcases mem_append.mp hc with hc | hc
  · exact ha c hc
  · exact hb c hc

theorem allDigits_toDigits (n : Nat) : AllDigits (Nat.toDigits 10 n) :=
  fun _ hc => Nat.isDigit_of_mem_toDigits (by decide) (by decide) hc

theorem allDigits_zeros (n : Nat) : AllDigits (replicate n '0') := by
  intro c hc
  rw [eq_of_mem_replicate hc]
  rfl

/-- Digits are taken up to the first character that is none. -/
theorem takeWhile_digits (digits : AllDigits ds) (ends : NoDigit rest) :
    (ds ++ rest).takeWhile Char.isDigit = ds := by
  rw [takeWhile_append_of_pos digits]
  cases rest with
  | nil => simp
  | cons c rest => simp [ends c rfl]

theorem dropWhile_digits (digits : AllDigits ds) (ends : NoDigit rest) :
    (ds ++ rest).dropWhile Char.isDigit = rest := by
  rw [dropWhile_append_of_pos digits]
  cases rest with
  | nil => rfl
  | cons c rest => simp [ends c rfl]

/-- The digits of a whole part: a lone zero, or digits of which the first is another one. -/
inductive IsWhole : List Char → Prop
  | zero : IsWhole ['0']
  | more {c ds} : c ≠ '0' → AllDigits (c :: ds) → IsWhole (c :: ds)

/-- The whole part of a number is read back. -/
theorem wholeDigits?_append (whole : IsWhole ds) (ends : NoDigit rest) :
    wholeDigits? (ds ++ rest) = some (ds, rest) := by
  cases whole with
  | zero => rfl
  | @more c ds other digits =>
    have first : c.isDigit = true := digits c mem_cons_self
    have take := takeWhile_digits digits ends
    have drop := dropWhile_digits digits ends
    rw [cons_append] at take drop ⊢
    rw [wholeDigits?]
    · rw [if_pos first, take, drop]
    · exact other

/-- A positive number does not start with a zero. -/
theorem toDigits_eq_cons (n : Nat) (pos : 0 < n) :
    ∃ c ds, Nat.toDigits 10 n = c :: ds ∧ c ≠ '0' := by
  induction n using Nat.strongRecOn with
  | ind n ih =>
    rcases Nat.lt_or_ge n 10 with small | large
    · refine ⟨n.digitChar, [], Nat.toDigits_of_lt_base small, fun isZero => ?_⟩
      have value := Nat.toNat_digitChar_sub_48_of_lt_ten small
      rw [isZero] at value
      exact absurd value.symm (Nat.ne_of_gt pos)
    · obtain ⟨c, ds, shorter, other⟩ := ih (n / 10) (by omega) (by omega)
      refine ⟨c, ds ++ [(n % 10).digitChar], ?_, other⟩
      rw [Nat.toDigits_of_base_le (by decide) large, shorter]
      rfl

/-- The digits of a number are those of a whole part. -/
theorem isWhole_toDigits (n : Nat) : IsWhole (Nat.toDigits 10 n) := by
  rcases Nat.eq_zero_or_pos n with rfl | pos
  · exact .zero
  · have digits := allDigits_toDigits n
    obtain ⟨c, ds, same, other⟩ := toDigits_eq_cons n pos
    rw [same] at digits ⊢
    exact .more other digits

theorem decimal_eq_ofDigitChars (cs : List Char) :
    Numeral.decimal cs = Nat.ofDigitChars 10 cs 0 := by
  simp [Numeral.decimal, Numeral.ofDigits, Nat.ofDigitChars_eq_foldl, foldl_map]

@[simp] theorem decimal_toDigits (n : Nat) : Numeral.decimal (Nat.toDigits 10 n) = n := by
  rw [decimal_eq_ofDigitChars, Nat.ofDigitChars_ten_toDigits]

theorem decimal_zeros_append (k : Nat) (cs : List Char) :
    Numeral.decimal (replicate k '0' ++ cs) = Numeral.decimal cs := by
  rw [decimal_eq_ofDigitChars, decimal_eq_ofDigitChars, Nat.ofDigitChars_append,
    Nat.ofDigitChars_replicate_zero, Nat.mul_zero]

theorem decimal_append_zeros (cs : List Char) (k : Nat) :
    Numeral.decimal (cs ++ replicate k '0') = 10 ^ k * Numeral.decimal cs := by
  rw [decimal_eq_ofDigitChars, decimal_eq_ofDigitChars, Nat.ofDigitChars_append,
    Nat.ofDigitChars_replicate_zero]

/-! ### The parts of a number -/

/-- A number that the text follows is complete: no digit, point or exponent comes next. -/
def Stops (rest : List Char) : Prop :=
  ∀ c, rest.head? = some c → c.isDigit = false ∧ c ≠ '.' ∧ c ≠ 'e' ∧ c ≠ 'E'

theorem Stops.noDigit (stops : Stops rest) : NoDigit rest :=
  fun c first => (stops c first).1

theorem noDigit_cons {c : Char} (h : c.isDigit = false) (rest : List Char) : NoDigit (c :: rest) :=
  fun _ first => Option.some.inj first ▸ h

theorem fractionDigits_of_not_point
    (h : ∀ c, cs.head? = some c → c ≠ '.') : fractionDigits cs = ([], cs) := by
  cases cs with
  | nil => rfl
  | cons c rest =>
    rw [fractionDigits]
    intro c' rest' same
    exact h c rfl (cons.inj same).1

theorem fractionDigits_point (some_digit : ds ≠ []) (digits : AllDigits ds)
    (ends : NoDigit rest) : fractionDigits ('.' :: (ds ++ rest)) = (ds, rest) := by
  cases ds with
  | nil => exact absurd rfl some_digit
  | cons c ds =>
    have first : c.isDigit = true := digits c mem_cons_self
    have take := takeWhile_digits digits ends
    have drop := dropWhile_digits digits ends
    rw [cons_append] at take drop ⊢
    rw [fractionDigits, if_pos first, take, drop]

theorem exponent?_of_stops (stops : Stops rest) : exponent? rest = none := by
  cases rest with
  | nil => rfl
  | cons c rest =>
    obtain ⟨-, -, small, large⟩ := stops c rfl
    simp [exponent?, small, large]

/-- The text of an exponent: a sign always, and zeros before a short one. -/
theorem exponentText_toList (e : Int) : ∃ k, (exponentText e).toList =
      'e' :: (if e < 0 then '-' else '+') :: (replicate k '0' ++ Nat.toDigits 10 e.natAbs) := by
  have digits : (toString e.natAbs).toList = Nat.toDigits 10 e.natAbs := Nat.toList_repr
  have lead : (if e < 0 then "e-" else "e+").toList = ['e', if e < 0 then '-' else '+'] := by
    split <;> rfl
  by_cases short : (toString e.natAbs).length < 2
  · refine ⟨1, ?_⟩
    simp only [exponentText, if_pos short, String.toList_append, lead, digits]
    rfl
  · refine ⟨0, ?_⟩
    simp only [exponentText, if_neg short, String.toList_append, lead, digits]
    rfl

theorem exponent?_exponentText (e : Int) (ends : NoDigit rest) :
    exponent? ((exponentText e).toList ++ rest) = some (e, rest) := by
  obtain ⟨k, text⟩ := exponentText_toList e
  let ds := replicate k '0' ++ Nat.toDigits 10 e.natAbs
  have digits : AllDigits ds := (allDigits_zeros k).append (allDigits_toDigits _)
  have take : (ds ++ rest).takeWhile Char.isDigit = ds := takeWhile_digits digits ends
  have drop : (ds ++ rest).dropWhile Char.isDigit = rest := dropWhile_digits digits ends
  have nonempty : ds.isEmpty = false := by simp [ds]
  have value : Numeral.decimal ds = e.natAbs := by
    rw [decimal_zeros_append, decimal_toDigits]
  have read : ∀ negative : Bool, exponentDigits? ((if negative then '-' else '+') :: (ds ++ rest)) =
      some (if negative then -(e.natAbs : Int) else e.natAbs, rest) := by
    intro negative
    cases negative with
    | true | false => simp [exponentDigits?, take, drop, nonempty, value]
  have unfolded : exponent? ((exponentText e).toList ++ rest) =
      exponentDigits? ((if e < 0 then '-' else '+') :: (ds ++ rest)) := by
    rw [text]
    rfl
  rw [unfolded]
  by_cases negative : e < 0
  · have signed := read true
    rw [if_pos rfl] at signed
    rw [if_pos negative, signed, if_pos rfl]
    congr 2
    omega
  · have signed := read false
    rw [if_neg Bool.false_ne_true] at signed
    rw [if_neg negative, signed, if_neg Bool.false_ne_true]
    congr 2
    omega

def numberBody (negative : Bool) (body : List Char) : Except JsonFault (Json × List Char) := do
  let some (whole, rest) := wholeDigits? body | .error .expectingValue
  let (fraction, rest) := fractionDigits rest
  match fraction, exponent? rest with
  | [], none =>
      if Numeral.maxDigits < whole.length then throw .longInteger
      let n : Int := Numeral.decimal whole
      return (int (if negative then -n else n), rest)
  | _, none =>
      return (float (.ofDecimal negative (Numeral.decimal (whole ++ fraction)) (-fraction.length)),
        rest)
  | _, some (e, rest) =>
      return (float (.ofDecimal negative (Numeral.decimal (whole ++ fraction))
        (e - fraction.length)), rest)

def signChars (negative : Bool) : List Char :=
  if negative then ['-'] else []

theorem number_signed (negative : Bool) (h : IsWhole whole) (rest : List Char) :
    number (signChars negative ++ (whole ++ rest)) = numberBody negative (whole ++ rest) := by
  cases negative with
  | true => rfl
  | false =>
    have unsigned : ∀ tail, whole ++ rest ≠ '-' :: tail := by
      cases h with
      | zero => exact nofun
      | more other digits =>
        intro tail same
        have isDigit := digits _ mem_cons_self
        rw [(cons.inj same).1] at isDigit
        exact absurd isDigit (by decide)
    rw [signChars, if_neg Bool.false_ne_true, nil_append]
    generalize whole ++ rest = body at unsigned
    rw [number]
    · rfl
    · exact unsigned

section Shapes

variable (negative : Bool) {whole fraction rest : List Char}

theorem numberBody_int (hwhole : IsWhole whole) (short : whole.length ≤ Numeral.maxDigits)
    (stops : Stops rest) :
    numberBody negative (whole ++ rest) =
      .ok (.int (if negative then -(Numeral.decimal whole : Int) else Numeral.decimal whole),
        rest) := by
  have noFraction := fractionDigits_of_not_point fun c first => (stops c first).2.1
  rw [numberBody, wholeDigits?_append hwhole stops.noDigit]
  simp only [noFraction, exponent?_of_stops stops, if_neg (Nat.not_lt.mpr short)]
  rfl

/-- Digits, a point and digits are a decimal. -/
theorem numberBody_fraction (hwhole : IsWhole whole) (nonempty : fraction ≠ [])
    (digits : AllDigits fraction) (stops : Stops rest) :
    numberBody negative (whole ++ '.' :: (fraction ++ rest)) =
      .ok (.float (.ofDecimal negative (Numeral.decimal (whole ++ fraction)) (-fraction.length)),
        rest) := by
  rw [numberBody, wholeDigits?_append hwhole (noDigit_cons rfl _)]
  simp only [fractionDigits_point nonempty digits stops.noDigit, exponent?_of_stops stops]
  cases fraction with
  | nil => exact absurd rfl nonempty
  | cons c ds => rfl

def fractionText (fraction : List Char) : List Char :=
  if fraction.isEmpty then [] else '.' :: fraction

theorem numberBody_exponent (hwhole : IsWhole whole) (digits : AllDigits fraction) (e : Int)
    (stops : Stops rest) :
    numberBody negative (whole ++ (fractionText fraction ++ ((exponentText e).toList ++ rest))) =
      .ok (.float (.ofDecimal negative (Numeral.decimal (whole ++ fraction)) (e - fraction.length)),
        rest) := by
  obtain ⟨k, text⟩ := exponentText_toList e
  have first : NoDigit ((exponentText e).toList ++ rest) := by
    rw [text]
    exact noDigit_cons rfl _
  have read := exponent?_exponentText e stops.noDigit
  cases fraction with
  | nil =>
    have noFraction : fractionDigits ((exponentText e).toList ++ rest) =
        ([], (exponentText e).toList ++ rest) := by
      apply fractionDigits_of_not_point
      rw [text]
      rintro c ⟨⟩
      decide
    rw [numberBody, fractionText, isEmpty_nil, if_pos rfl, nil_append,
      wholeDigits?_append hwhole first]
    simp only [noFraction, read]
    rfl
  | cons c ds =>
    rw [numberBody, fractionText, isEmpty_cons, if_neg Bool.false_ne_true, cons_append,
      wholeDigits?_append hwhole (noDigit_cons rfl _)]
    simp only [fractionDigits_point (cons_ne_nil c ds) digits first, read]
    rfl

end Shapes

/-! ### Decimals -/

inductive DecimalShape (x : Decimal) : List Char → Prop
  | before (k : Nat) : (k + (Nat.toDigits 10 x.digits).length : Int) = -x.exponent →
      DecimalShape x ('0' :: '.' :: (List.replicate k '0' ++ Nat.toDigits 10 x.digits))
  | behind (k : Nat) : (k : Int) = x.exponent →
      DecimalShape x (Nat.toDigits 10 x.digits ++ List.replicate k '0' ++ ['.', '0'])
  | among (k : Nat) : 0 < k → k < (Nat.toDigits 10 x.digits).length →
      (k : Int) = (Nat.toDigits 10 x.digits).length + x.exponent →
      DecimalShape x ((Nat.toDigits 10 x.digits).take k ++ '.' :: (Nat.toDigits 10 x.digits).drop k)
  | scientific :
      DecimalShape x ((Nat.toDigits 10 x.digits).take 1 ++
        (fractionText ((Nat.toDigits 10 x.digits).drop 1)
        ++ (exponentText ((Nat.toDigits 10 x.digits).length + x.exponent - 1)).toList))

/-- The text of a fraction, which is empty without digits. -/
theorem toList_fraction (ds : List Char) :
    (if String.ofList ds == "" then "" else "." ++ String.ofList ds).toList = fractionText ds := by
  cases ds with
  | nil => rfl
  | cons c ds => simp [fractionText]

/-- The text of a decimal has one of the four layouts. -/
theorem decimalShape_text (layout : FloatLayout) (x : Decimal) :
    DecimalShape x (x.text layout).toList := by
  have pos : 0 < (Nat.toDigits 10 x.digits).length := Nat.length_toDigits_pos
  rw [Decimal.text]
  generalize hpoint : ((Nat.toDigits 10 x.digits).length : Int) + x.exponent = point
  split
  · split
    · rename_i inside left
      have shape := DecimalShape.before (x := x) (-point).toNat (by omega)
      simpa [zeros] using shape
    · split
      · rename_i right
        have shape := DecimalShape.behind (x := x) (point.toNat - (Nat.toDigits 10 x.digits).length)
          (by omega)
        simpa [zeros] using shape
      · have shape := DecimalShape.among (x := x) point.toNat (by omega) (by omega) (by omega)
        simpa using shape
  · have shape := DecimalShape.scientific (x := x)
    rw [hpoint] at shape
    simp only [String.toList_append, String.toList_ofList, toList_fraction, append_assoc]
    exact shape

theorem AllDigits.take (digits : AllDigits ds) (k : Nat) : AllDigits (ds.take k) :=
  fun c hc => digits c (mem_of_mem_take hc)

theorem AllDigits.drop (digits : AllDigits ds) (k : Nat) : AllDigits (ds.drop k) :=
  fun c hc => digits c (mem_of_mem_drop hc)

/-- The first digits of a decimal other than zero can stand before the point. -/
theorem isWhole_take {n : Nat} (nonzero : n ≠ 0) (k : Nat) (some_before : 0 < k) :
    IsWhole ((Nat.toDigits 10 n).take k) := by
  obtain ⟨c, ds, cons, other⟩ := toDigits_eq_cons n (Nat.pos_of_ne_zero nonzero)
  have digits := (allDigits_toDigits n).take k
  obtain ⟨k, rfl⟩ := Nat.exists_eq_add_one.mpr some_before
  rw [cons, take_succ_cons] at digits ⊢
  exact .more other digits

/-- **The text of a decimal is read back with its value.** -/
theorem number_decimalText (negative : Bool) (nonzero : x.digits ≠ 0)
    (shape : DecimalShape x text) (stops : Stops rest) :
    number (signChars negative ++ (text ++ rest)) =
      .ok (.float (.ofDecimal negative x.digits x.exponent), rest) := by
  have digits := allDigits_toDigits x.digits
  have value := decimal_toDigits x.digits
  cases shape with
  | before k place =>
    let fraction := replicate k '0' ++ Nat.toDigits 10 x.digits
    have nonempty : fraction ≠ [] := by simp [fraction]
    have read := numberBody_fraction negative .zero nonempty
      ((allDigits_zeros k).append digits) stops
    have whole : Numeral.decimal (['0'] ++ fraction) = x.digits :=
      (decimal_zeros_append (k + 1) _).trans value
    have exponent : (-(fraction.length : Int)) = x.exponent := by
      simp only [fraction, length_append, length_replicate]
      omega
    rw [whole, exponent] at read
    rw [← read, ← number_signed negative .zero]
    simp [fraction]
  | behind k place =>
    have hwhole : IsWhole (Nat.toDigits 10 x.digits ++ replicate k '0') := by
      obtain ⟨c, ds, cons, other⟩ := toDigits_eq_cons x.digits (Nat.pos_of_ne_zero nonzero)
      have all := digits.append (allDigits_zeros k)
      rw [cons] at all ⊢
      exact .more other all
    have read := numberBody_fraction negative hwhole (cons_ne_nil '0' []) (allDigits_zeros 1) stops
    have whole : Numeral.decimal (Nat.toDigits 10 x.digits ++ replicate k '0' ++ ['0']) =
        10 ^ (k + 1) * x.digits := by
      rw [append_assoc, ← replicate_succ', decimal_append_zeros, value]
    -- The zeros that fill up the whole part and the one behind the point belong to the value.
    have same : Binary64.ofDecimal negative (10 ^ (k + 1) * x.digits) (-1) =
        Binary64.ofDecimal negative x.digits x.exponent := by
      apply Binary64.ofDecimal_congr negative (by positivity) nonzero
      rw [← place, zpow_natCast, zpow_neg_one]
      push_cast
      ring
    have one : (-((['0'] : List Char).length : Int)) = -1 := rfl
    rw [whole, one, same] at read
    rw [← read, ← number_signed negative hwhole]
    simp
  | among k some_before some_behind place =>
    have hwhole := isWhole_take nonzero k some_before
    have nonempty : (Nat.toDigits 10 x.digits).drop k ≠ [] := by simpa using some_behind
    have read := numberBody_fraction negative hwhole nonempty (digits.drop k) stops
    have exponent : (-((Nat.toDigits 10 x.digits).drop k).length : Int) = x.exponent := by
      rw [length_drop]
      omega
    rw [take_append_drop, value, exponent] at read
    rw [← read, ← number_signed negative hwhole]
    simp
  | scientific =>
    have hwhole := isWhole_take nonzero 1 Nat.one_pos
    have read := numberBody_exponent negative hwhole (digits.drop 1)
      ((Nat.toDigits 10 x.digits).length + x.exponent - 1) stops
    have count : 0 < (Nat.toDigits 10 x.digits).length := Nat.length_toDigits_pos
    have exponent : ((Nat.toDigits 10 x.digits).length : Int) + x.exponent - 1
        - ((Nat.toDigits 10 x.digits).drop 1).length = x.exponent := by
      rw [length_drop]
      omega
    rw [take_append_drop, value, exponent] at read
    rw [← read, ← number_signed negative hwhole]
    simp

/-! ### Numbers -/

def StartsNumber (cs : List Char) : Prop :=
  ∃ negative c tail, cs = signChars negative ++ c :: tail ∧ c.isDigit = true

theorem IsWhole.startsNumber (h : IsWhole whole) (negative : Bool) (rest : List Char) :
    StartsNumber (signChars negative ++ (whole ++ rest)) := by
  cases h with
  | zero => exact ⟨negative, '0', rest, rfl, rfl⟩
  | @more c ds _ digits => exact ⟨negative, c, ds ++ rest, rfl, digits c mem_cons_self⟩

theorem DecimalShape.startsNumber (nonzero : x.digits ≠ 0)
    (shape : DecimalShape x text) (negative : Bool) (rest : List Char) :
    StartsNumber (signChars negative ++ (text ++ rest)) := by
  cases shape with
  | before k _ => exact ⟨negative, '0', _, rfl, rfl⟩
  | behind k _ =>
    rw [append_assoc, append_assoc]
    exact (isWhole_toDigits x.digits).startsNumber negative _
  | among k some_before _ _ =>
    rw [append_assoc]
    exact (isWhole_take nonzero k some_before).startsNumber negative _
  | scientific =>
    rw [append_assoc]
    exact (isWhole_take nonzero 1 Nat.one_pos).startsNumber negative _

theorem scalar_eq_number (h : StartsNumber cs) : scalar cs = number cs := by
  obtain ⟨negative, c, tail, rfl, digit⟩ := h
  have differs : ∀ letter, letter.isDigit = false → (letter == c) = false := by
    intro letter noDigit
    rw [beq_eq_false_iff_ne]
    rintro rfl
    rw [digit] at noDigit
    cases noDigit
  have noWord : (words.findSome? fun p =>
      (Text.after? p.1.toList (signChars negative ++ c :: tail)).map fun rest => (p.2, rest)) =
        none := by
    cases negative with
    | true => simp [words, signChars, Text.after?, differs 'I' rfl]
    | false =>
      simp [words, signChars, Text.after?, differs 'n' rfl, differs 't' rfl, differs 'f' rfl,
        differs 'N' rfl, differs 'I' rfl, differs '-' rfl]
  rw [scalar, noWord]

def IsShort (n : Int) : Prop :=
  (Nat.toDigits 10 n.natAbs).length ≤ Numeral.maxDigits

/-- The text of an integer: a sign if it is negative, and its digits. -/
theorem toList_toString_int (n : Int) :
    (toString n).toList = signChars (n < 0) ++ Nat.toDigits 10 n.natAbs := by
  cases n with
  | ofNat n | negSucc n => simp [signChars, toString, Int.repr]

theorem startsNumber_int (n : Int) (rest : List Char) :
    StartsNumber ((toString n).toList ++ rest) := by
  rw [toList_toString_int, append_assoc]
  exact (isWhole_toDigits n.natAbs).startsNumber _ rest

/-- **Integers are read back.** -/
theorem scalar_int {n : Int} (short : IsShort n) (stops : Stops rest) :
    scalar ((toString n).toList ++ rest) = .ok (.int n, rest) := by
  have whole := isWhole_toDigits n.natAbs
  rw [scalar_eq_number (startsNumber_int n rest), toList_toString_int, append_assoc,
    number_signed _ whole, numberBody_int _ whole short stops, decimal_toDigits]
  by_cases negative : n < 0
  · simp only [negative, decide_true, if_pos]
    congr 3
    omega
  · simp only [negative, decide_false, Bool.false_eq_true, if_false]
    congr 3
    omega

/-- The text of a double-precision number: a sign, and zero or the shortest decimal. -/
theorem toList_text_finite (layout : FloatLayout) (negative : Bool) (m : Nat) (e : Int) :
    ((Binary64.finite negative m e).text layout).toList = signChars negative ++
        (if m == 0 then ['0', '.', '0'] else ((Decimal.shortest m e).text layout).toList) := by
  rw [Binary64.text, String.toList_append]
  congr 1
  · cases negative <;> rfl
  · split <;> rfl

/-- The text of a finite number starts a number. -/
theorem startsNumber_float {x : Binary64} (finite : x.IsFinite) (rest : List Char) :
    StartsNumber ((x.text .json).toList ++ rest) := by
  cases x with
  | nan | infinite negative => exact absurd finite id
  | finite negative m e =>
    rw [toList_text_finite, append_assoc]
    rcases Nat.eq_zero_or_pos m with rfl | pos
    · exact IsWhole.zero.startsNumber negative ('.' :: '0' :: rest)
    · have nonzero := (Decimal.shortest_reads negative finite pos).1
      rw [if_neg (by simpa using pos.ne')]
      exact (decimalShape_text .json _).startsNumber nonzero negative rest

/-- **Double-precision numbers are read back.** -/
theorem scalar_float {x : Binary64} (finite : x.IsFinite) (stops : Stops rest) :
    scalar ((x.text .json).toList ++ rest) = .ok (.float x, rest) := by
  rw [scalar_eq_number (startsNumber_float finite rest)]
  cases x with
  | nan | infinite negative => exact absurd finite id
  | finite negative m e =>
    rw [toList_text_finite, append_assoc]
    rcases Nat.eq_zero_or_pos m with rfl | pos
    · obtain rfl : e = Binary64.minExponent := finite.full.resolve_left (by decide)
      have read := numberBody_fraction negative .zero (cons_ne_nil '0' []) (allDigits_zeros 1) stops
      exact (number_signed negative .zero _).trans read
    · obtain ⟨nonzero, reads⟩ := Decimal.shortest_reads negative finite pos
      have shape := decimalShape_text .json (Decimal.shortest m e)
      rw [if_neg (by simpa using pos.ne'), number_decimalText negative nonzero shape stops, reads]

end CodeAtlas.Json
