import CodeAtlas.Json.Display

/-!
JSON values as keys.

Two numbers are the same key when they are equal, whether they are written as a Boolean, an integer
or a fraction; what is not a number is one key, which comes neither before nor after a number.
Arrays and objects cannot be keys, and only numbers compare with numbers and texts with texts.
-/

namespace CodeAtlas.Json

def isKey : Json → Bool
  | arr _ => false
  | obj _ => false
  | _ => true

/-- A finite number as a signed numerator and a denominator. -/
def ratio? : Json → Option (Int × Nat)
  | bool b => some (if b then 1 else 0, 1)
  | int n => some (n, 1)
  | float x => x.toRatio?
  | _ => none

def sameKey (a b : Json) : Bool :=
  match a.ratio?, b.ratio? with
  | some (n, d), some (m, e) => n * e == m * d
  | none, none =>
      match a, b with
      | null, null => true
      | str s, str t => s == t
      | float (.infinite s), float (.infinite t) => s == t
      | float .nan, float .nan => true
      | _, _ => false
  | _, _ => false

/-- The order of keys: numbers by size before texts by character. It decides only between keys that
compare. -/
def compareKey (a b : Json) : Ordering :=
  match a.ratio?, b.ratio? with
  | some (n, d), some (m, e) => compare (n * e) (m * d)
  | some _, none =>
      match b with
      | float (.infinite negative) => if negative then .gt else .lt
      | float .nan => .eq
      | _ => .lt
  | none, some _ =>
      match a with
      | float (.infinite negative) => if negative then .lt else .gt
      | float .nan => .eq
      | _ => .gt
  | none, none =>
      match a, b with
      | str s, str t => compare s t
      | float (.infinite s), float (.infinite t) => compare t s
      | _, _ => .eq

def isNumber : Json → Bool
  | bool _ => true
  | int _ => true
  | float _ => true
  | _ => false

/-- Does one of two different keys come before the other? -/
def isComparable (a b : Json) : Bool :=
  (a.isNumber && b.isNumber) || (a.text?.isSome && b.text?.isSome)

def keyText : Json → String
  | str s => s
  | v => v.compact

end CodeAtlas.Json
