import CodeAtlas.Json.Display

/-!
Mappings: what became of each removed node, as its new place or an explanation.
-/

namespace CodeAtlas

abbrev Mapping := List (String × String)

namespace Mapping

/-- The value of a mapping that a JSON value stands for: a value that counts as false explains
nothing. -/
def valueOf (v : Json) : String :=
  if v.isTruthy then v.display else ""

def ofFields (members : List (String × Json)) : Mapping :=
  members.map fun (name, v) => (name, valueOf v)

/-- One blank entry for each node, to be filled in. -/
def blank (ids : List String) : Mapping :=
  ids.map (·, "")

def explains (m : Mapping) (id : String) : Bool :=
  match m.lookup id with
  | some text => !Text.isAllBlank text.toList
  | none => false

end Mapping

structure MissingMapping where
  unmapped : List String
  deriving Repr, DecidableEq

namespace MissingMapping

/-- The text of the complaint; at most five nodes are named. -/
def message (e : MissingMapping) : String :=
  let count := e.unmapped.length
  let more := if 5 < count then ", ... (" ++ toString (count - 5) ++ " more)" else ""
  toString count ++ " removed node(s) are not mapped: " ++
    ", ".intercalate (e.unmapped.take 5) ++ more

end MissingMapping

end CodeAtlas
