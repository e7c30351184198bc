import CodeAtlas.Number.Binary64

/-!
The shortest decimal that reads back as a given number.

For one digit, two digits and so on, the two decimals of that length on either side of the value
are read back. The first length at which one of them gives the number again wins; of two, the
nearer one.
-/

namespace CodeAtlas

structure Decimal where
  digits : Nat
  exponent : Int
  deriving Repr, DecidableEq

namespace Decimal

def leadingZeros : (fuel : Nat) → (n d : Nat) → Nat
  | 0, _, _ => 0
  | fuel + 1, n, d => if d ≤ n then 0 else leadingZeros fuel (n * 10) d + 1

def pointPlace (n d : Nat) : Int :=
  if d ≤ n then Binary64.digitCount (n / d) else 1 - (leadingZeros 400 n d : Int)

def neighbours (n d : Nat) (k : Int) : List Decimal :=
  let (a, b) := if 0 ≤ k then (n, d * Nat.pow 10 k.toNat) else (n * Nat.pow 10 (-k).toNat, d)
  let low := a / b
  let rest := a % b
  if 2 * rest < b || (2 * rest == b && low % 2 == 0) then [⟨low, k⟩, ⟨low + 1, k⟩]
  else [⟨low + 1, k⟩, ⟨low, k⟩]

def stripZeros : (fuel : Nat) → Decimal → Decimal
  | 0, x => x
  | fuel + 1, x =>
      if x.digits != 0 && x.digits % 10 == 0 then stripZeros fuel ⟨x.digits / 10, x.exponent + 1⟩
      else x

def shortest (m : Nat) (e : Int) : Decimal :=
  let (n, d) : Nat × Nat :=
    if 0 ≤ e then (m * Nat.pow 2 e.toNat, 1) else (m, Nat.pow 2 (-e).toNat)
  let p := pointPlace n d
  let candidates := (List.range 17).flatMap fun (i : Nat) => neighbours n d (p - (i + 1))
  let reads := fun (x : Decimal) =>
    x.digits != 0 && Binary64.ofDecimal false x.digits x.exponent == .finite false m e
  match candidates.find? reads with
  | some x => stripZeros 20 x
  | none => ⟨0, 0⟩

end Decimal

/-- How a number is written: positionally while the exponent of its first digit lies in a range,
with an exponent of at least two digits outside of it. -/
structure FloatLayout where
  leastPositional : Int
  firstScientific : Int
  infinite : String
  notANumber : String

namespace FloatLayout

def plain : FloatLayout := ⟨-4, 16, "inf", "nan"⟩

def json : FloatLayout := ⟨-4, 16, "Infinity", "NaN"⟩

end FloatLayout

def exponentText (e : Int) : String :=
  let digits := toString e.natAbs
  (if e < 0 then "e-" else "e+") ++ (if digits.length < 2 then "0" ++ digits else digits)

def zeros (n : Nat) : String :=
  String.ofList (List.replicate n '0')

def Decimal.text (layout : FloatLayout) (x : Decimal) : String :=
  let digits := Nat.toDigits 10 x.digits
  let point : Int := digits.length + x.exponent
  let first := point - 1
  if layout.leastPositional ≤ first && first < layout.firstScientific then
    if point ≤ 0 then "0." ++ zeros (-point).toNat ++ String.ofList digits
    else if digits.length ≤ point then
      String.ofList digits ++ zeros (point.toNat - digits.length) ++ ".0"
    else String.ofList (digits.take point.toNat) ++ "." ++ String.ofList (digits.drop point.toNat)
  else
    let fraction := String.ofList (digits.drop 1)
    String.ofList (digits.take 1) ++ (if fraction == "" then "" else "." ++ fraction)
      ++ exponentText first

/-- A number in the given layout: the fewest digits that read back. -/
def Binary64.text (layout : FloatLayout) : Binary64 → String
  | .finite negative m e =>
      (if negative then "-" else "")
        ++ (if m == 0 then "0.0" else (Decimal.shortest m e).text layout)
  | .infinite negative => (if negative then "-" else "") ++ layout.infinite
  | .nan => layout.notANumber

end CodeAtlas
