import CodeAtlas.Number.Binary64

/-!
JSON values.

Whole numbers and numbers with a fraction or an exponent are different values, and an object keeps
its fields in the order in which they first appeared.
-/

namespace CodeAtlas

inductive Json where
  | null
  | bool (value : Bool)
  | int (value : Int)
  | float (value : Binary64)
  | str (value : String)
  | arr (items : List Json)
  | obj (members : List (String × Json))
  deriving Repr, Inhabited

namespace Json

/-- Set a field: a field of that name keeps its place, a new one goes to the end. -/
def setField (name : String) (value : Json) : List (String × Json) → List (String × Json)
  | [] => [(name, value)]
  | (k, v) :: rest =>
      if k == name then (k, value) :: rest else (k, v) :: setField name value rest

/-- The fields of an object in which the last of several equal names counts. -/
def collectFields (members : List (String × Json)) : List (String × Json) :=
  members.foldl (fun acc (k, v) => setField k v acc) []

def field? (name : String) : Json → Option Json
  | obj members => members.lookup name
  | _ => none

def ofPairs (members : List (String × Json)) : Json := obj members

def nat (n : Nat) : Json := int n

def opt {α : Type} (f : α → Json) : Option α → Json
  | some a => f a
  | none => null

def strs (xs : List String) : Json := arr (xs.map str)

end Json

end CodeAtlas
