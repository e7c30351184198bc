import CodeAtlas.Number.Binary64
import CodeAtlas.Text.Word

/-!
Numbers as people write them: integers in a base, and decimal numbers with a fraction and an
exponent.

Digits of all scripts count, and so do blanks of all scripts around a number. An underscore may
stand between two digits. Integers in decimal digits have a greatest length, both where they are
read and where they are written.
-/

namespace CodeAtlas.Numeral

/-- The greatest number of decimal digits of an integer that is read or written. -/
def maxDigits : Nat := 4300

/-! ### Characters -/

def isGap (c : Char) : Bool :=
  c == ' ' || ('\t' ≤ c && c ≤ '\r')

/-- A character of a number in ASCII: digits and blanks of other scripts become the ones of ASCII,
and nothing else beyond ASCII belongs to a number. -/
def plainChar? (c : Char) : Option Char :=
  if c.val < 127 then some c
  else if isBlank c then some ' '
  else (digitValue? c).map fun d => Char.ofNat ('0'.toNat + d)

/-- The text of a number in ASCII, without the blanks around it. -/
def plain? (cs : List Char) : Option (List Char) := do
  let cs ← cs.mapM plainChar?
  return Text.dropEndWhile isGap (cs.dropWhile isGap)

def digit? (base : Nat) (c : Char) : Option Nat :=
  let value :=
    if c.isDigit then some (c.toNat - '0'.toNat)
    else if 'a' ≤ c && c ≤ 'f' then some (c.toNat - 'a'.toNat + 10)
    else if 'A' ≤ c && c ≤ 'F' then some (c.toNat - 'A'.toNat + 10)
    else none
  value.filter (· < base)

def ofDigits (base : Nat) (digits : List Nat) : Nat :=
  digits.foldl (fun n d => base * n + d) 0

def decimal (cs : List Char) : Nat :=
  ofDigits 10 (cs.map fun c => c.toNat - '0'.toNat)

def sign (cs : List Char) : Bool × List Char :=
  match cs with
  | '-' :: rest => (true, rest)
  | '+' :: rest => (false, rest)
  | rest => (false, rest)

/-! ### Integers -/

/-- The value of digits with single underscores between some of them; there has to be one. Only
decimal digits have a greatest number. -/
def natural? (base : Nat) (cs : List Char) : Option Nat := do
  let groups := Text.splitBy (· == '_') cs
  if groups.any (·.isEmpty) then none
  else
    let digits ← groups.flatten.mapM (digit? base)
    if base == 10 && maxDigits < digits.length then none else some (ofDigits base digits)

def baseOf? (c : Char) : Option Nat :=
  [('x', 16), ('X', 16), ('o', 8), ('O', 8), ('b', 2), ('B', 2)].lookup c

/-- The base that the start of a number names, and the rest behind that. An underscore may
follow. -/
def namedBase? (cs : List Char) : Option (Nat × List Char) :=
  match cs with
  | '0' :: c :: rest =>
      (baseOf? c).map fun base => (base, if rest.head? == some '_' then rest.drop 1 else rest)
  | _ => none

/-- The value of a number without a sign. Its start may name the base, if that is the one asked for
or none is asked for. Where none is asked for and none is named, the number is decimal and does not
start with a zero, unless it is zero. -/
def unsignedInteger? (base : Option Nat) (cs : List Char) : Option Nat :=
  match base, namedBase? cs with
  | some base, some (named, rest) => natural? base (if named == base then rest else cs)
  | some base, none => natural? base cs
  | none, some (named, rest) => natural? named rest
  | none, none =>
      (natural? 10 cs).filter fun n => n == 0 || cs.head? != some '0'

def integer? (base : Option Nat) (cs : List Char) : Option Int := do
  let (isNegative, digits) := sign (← plain? cs)
  let n ← unsignedInteger? base digits
  return if isNegative then -(n : Int) else n

def text? (n : Int) : Option String :=
  if n.natAbs < Nat.pow 10 maxDigits then some (toString n) else none

/-! ### Decimal numbers -/

/-- A text without the underscores between its digits; no other underscores are allowed. -/
def ungrouped? : (before : Option Char) → List Char → Option (List Char)
  | _, [] => some []
  | before, '_' :: rest =>
      if before.any Char.isDigit && rest.head?.any Char.isDigit then ungrouped? (some '_') rest
      else none
  | _, c :: rest => (ungrouped? (some c) rest).map (c :: ·)

def exponent? (cs : List Char) : Option Int :=
  match cs with
  | [] => some 0
  | e :: rest =>
      let (isNegative, digits) := sign rest
      if (e == 'e' || e == 'E') && !digits.isEmpty && digits.all Char.isDigit then
        some (if isNegative then -(decimal digits : Int) else decimal digits)
      else none

/-- A decimal number without a sign. There has to be a digit before or after the point. -/
def unsigned? (cs : List Char) : Option Binary64 := do
  let whole := cs.takeWhile Char.isDigit
  let rest := cs.drop whole.length
  let (fraction, rest) := match rest with
    | '.' :: rest => (rest.takeWhile Char.isDigit, rest.dropWhile Char.isDigit)
    | _ => ([], rest)
  if whole.isEmpty && fraction.isEmpty then none
  else
    let e ← exponent? rest
    return Binary64.ofDecimal false (decimal (whole ++ fraction)) (e - fraction.length)

def float? (cs : List Char) : Option Binary64 := do
  let (isNegative, digits) := sign (← (← plain? cs) |> ungrouped? none)
  let word := String.ofList (digits.map Char.toLower)
  let x ←
    if word == "inf" || word == "infinity" then some (.infinite false)
    else if word == "nan" then some .nan
    else unsigned? digits
  return if isNegative then x.neg else x

end CodeAtlas.Numeral
