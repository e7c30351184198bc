import CodeAtlas.Json.Key
import CodeAtlas.Value.Time

/-!
Values of documents that people write: what a JSON document can hold, and also dates, times, bytes,
and mappings whose keys are not texts.

A mapping keeps its keys in the order in which they first appeared, and the last of several equal
keys gives the value.
-/

namespace CodeAtlas

inductive Value where
  | plain (value : Json)
  | date (value : Date)
  | clock (value : Clock)
  | instant (value : Instant)
  | bytes (value : List UInt8)
  | list (items : List Value)
  | mapping (pairs : List (Value × Value))
  deriving Repr

namespace Value

/-! ### Text of values -/

mutual

/-- A value inside a list or a mapping, unless it holds a number with too many digits. -/
def literal? : Value → Option String
  | plain (.int n) => Numeral.text? n
  | plain v => some v.literal
  | date d => some d.literal
  | clock t => some t.literal
  | instant t => some t.literal
  | bytes b => some (Text.quotedBytes b)
  | list items => do return "[" ++ ", ".intercalate (← literalItems? items) ++ "]"
  | mapping pairs => do return "\x7b" ++ ", ".intercalate (← literalPairs? pairs) ++ "\x7d"

def literalItems? : List Value → Option (List String)
  | [] => some []
  | v :: vs => do return (← literal? v) :: (← literalItems? vs)

def literalPairs? : List (Value × Value) → Option (List String)
  | [] => some []
  | (k, v) :: rest => do
      let pair := (← literal? k) ++ ": " ++ (← literal? v)
      return pair :: (← literalPairs? rest)

end

/-- A value as text, unless it holds a number with too many digits or is a point in time in a zone
that there is none of. -/
def text? : Value → Option String
  | plain (.str s) => some s
  | date d => some d.text
  | clock t => some t.text
  | instant t => t.text?
  | v => v.literal?

/-! ### Keys -/

def isKey : Value → Bool
  | list _ => false
  | mapping _ => false
  | _ => true

def sameKey (a b : Value) : Bool :=
  match a, b with
  | plain x, plain y => x.sameKey y
  | date x, date y => x == y
  | clock x, clock y => x == y
  | instant x, instant y => x.isSame y
  | bytes x, bytes y => x == y
  | _, _ => false

/-- Set a key: an equal key keeps its place and its spelling, a new one goes to the end. -/
def setPair (key value : Value) : List (Value × Value) → List (Value × Value)
  | [] => [(key, value)]
  | (k, v) :: rest =>
      if k.sameKey key then (k, value) :: rest else (k, v) :: setPair key value rest

/-! ### Values of JSON documents -/

mutual

def ofJson : Json → Value
  | .arr items => list (ofJsonItems items)
  | .obj members => mapping (ofJsonFields members)
  | v => plain v

def ofJsonItems : List Json → List Value
  | [] => []
  | v :: vs => ofJson v :: ofJsonItems vs

def ofJsonFields : List (String × Json) → List (Value × Value)
  | [] => []
  | (name, v) :: rest => (plain (.str name), ofJson v) :: ofJsonFields rest

end

def str (s : String) : Value := plain (.str s)

def get? (name : String) : Value → Option Value
  | mapping pairs => (pairs.find? fun (k, _) => k.sameKey (str name)).map (·.2)
  | _ => none

end Value

end CodeAtlas
