import CodeAtlas.Text.Quoted

/-!
JSON values in messages, and their use as conditions and as keys.
-/

namespace CodeAtlas.Json

mutual

def literal : Json → String
  | null => "None"
  | bool true => "True"
  | bool false => "False"
  | int n => toString n
  | float x => x.text .plain
  | str s => Text.quoted s
  | arr items => "[" ++ ", ".intercalate (literalItems items) ++ "]"
  | obj members => "\x7b" ++ ", ".intercalate (literalFields members) ++ "\x7d"

def literalItems : List Json → List String
  | [] => []
  | v :: vs => literal v :: literalItems vs

def literalFields : List (String × Json) → List String
  | [] => []
  | (name, v) :: rest => (Text.quoted name ++ ": " ++ literal v) :: literalFields rest

end

/-- A value inside running text: a text as it is, anything else as a literal. -/
def display : Json → String
  | str s => s
  | v => literal v

/-- Does a value count as true? Zeros and everything empty do not. -/
def isTruthy : Json → Bool
  | null => false
  | bool b => b
  | int n => n != 0
  | float (.finite _ m _) => m != 0
  | float _ => true
  | str s => s != ""
  | arr items => !items.isEmpty
  | obj members => !members.isEmpty

def text? : Json → Option String
  | str s => some s
  | _ => none

end CodeAtlas.Json
