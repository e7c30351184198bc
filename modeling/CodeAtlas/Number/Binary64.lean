/-!
Double-precision numbers as exact values.

A finite number is a sign, a mantissa and a power of two, so that reading a decimal and comparing
two numbers are exact arithmetic on natural numbers. Every finite number that `ofRatio` makes is in
normal form: the mantissa is below `2 ^ 53`, and it is at least `2 ^ 52` unless the exponent is the
least one.
-/

namespace CodeAtlas

/-- A double-precision number; `finite s m e` stands for `± m · 2 ^ e`. -/
inductive Binary64 where
  | finite (negative : Bool) (mantissa : Nat) (exponent : Int)
  | infinite (negative : Bool)
  | nan
  deriving Repr, DecidableEq

namespace Binary64

def minExponent : Int := -1074

def maxExponent : Int := 971

/-- The quotient `n / d` rounded to the nearest integer, a tie to the even one. -/
def roundDiv (n d : Nat) : Nat :=
  let q := n / d
  let r := n % d
  if 2 * r < d then q
  else if d < 2 * r then q + 1
  else if q % 2 == 0 then q else q + 1

def scaled (n d : Nat) (e : Int) : Nat × Nat :=
  if 0 ≤ e then (n, d * Nat.pow 2 e.toNat) else (n * Nat.pow 2 (-e).toNat, d)

/-- The exponent of a mantissa for `n / d`: over this power of two the quotient has 53 binary digits
before the point, or fewer if the exponent is the least one. -/
def ratioExponent (n d : Nat) : Int :=
  let low : Int := (Nat.log2 n : Int) - Nat.log2 d - 53
  let quotient := scaled n d low
  max (if quotient.1 < quotient.2 * Nat.pow 2 53 then low else low + 1) minExponent

/-- The number with a rounded mantissa, which may have one digit too many. -/
def ofRounded (negative : Bool) (m : Nat) (e : Int) : Binary64 :=
  if m == Nat.pow 2 53 then
    if maxExponent < e + 1 then infinite negative else finite negative (Nat.pow 2 52) (e + 1)
  else if maxExponent < e then infinite negative
  else finite negative m e

def ofRatio (negative : Bool) (n d : Nat) : Binary64 :=
  if n == 0 then finite negative 0 minExponent
  else
    let e := ratioExponent n d
    let quotient := scaled n d e
    ofRounded negative (roundDiv quotient.1 quotient.2) e

def digitCount (n : Nat) : Nat :=
  (Nat.toDigits 10 n).length

/-- The number nearest to the decimal `± digits · 10 ^ exponent`. Decimals far outside the range
are settled by their size alone. -/
def ofDecimal (negative : Bool) (digits : Nat) (exponent : Int) : Binary64 :=
  let size : Int := digitCount digits + exponent
  if digits == 0 || size < -330 then finite negative 0 minExponent
  else if 330 < size then infinite negative
  else if 0 ≤ exponent then ofRatio negative (digits * Nat.pow 10 exponent.toNat) 1
  else ofRatio negative digits (Nat.pow 10 (-exponent).toNat)

def ofInt (n : Int) : Binary64 :=
  ofRatio (n < 0) n.natAbs 1

/-- A finite number as a signed numerator and a denominator. -/
def toRatio? : Binary64 → Option (Int × Nat)
  | finite negative m e =>
      let (n, d) : Nat × Nat :=
        if 0 ≤ e then (m * Nat.pow 2 e.toNat, 1) else (m, Nat.pow 2 (-e).toNat)
      some (if negative then -(n : Int) else n, d)
  | _ => none

/-- The integer part of a finite number: the fraction is cut off. -/
def truncate? (x : Binary64) : Option Int := do
  let (n, d) ← x.toRatio?
  return n.tdiv d

def isNegative : Binary64 → Bool
  | finite negative _ _ => negative
  | infinite negative => negative
  | nan => false

def neg : Binary64 → Binary64
  | finite negative m e => finite (!negative) m e
  | infinite negative => infinite (!negative)
  | nan => nan

/-- The rounded sum of two numbers. A sum of zero is positive, unless both numbers are negative
zeros. -/
def add (x y : Binary64) : Binary64 :=
  match x.toRatio?, y.toRatio? with
  | some (a, b), some (c, d) =>
      let n := a * d + c * b
      let negative := if n == 0 then x.isNegative && y.isNegative else n < 0
      ofRatio negative n.natAbs (b * d)
  | none, some _ => x
  | some _, none => y
  | none, none => if x == y then x else nan

def isZero : Binary64 → Bool
  | finite _ m _ => m == 0
  | _ => false

/-- The rounded product of two numbers. Zero times an infinite number is no number. -/
def mul (x y : Binary64) : Binary64 :=
  let negative := x.isNegative != y.isNegative
  match x.toRatio?, y.toRatio? with
  | some (a, b), some (c, d) => ofRatio negative (a.natAbs * c.natAbs) (b * d)
  | _, _ => if x == nan || y == nan || x.isZero || y.isZero then nan else infinite negative

end Binary64

end CodeAtlas
