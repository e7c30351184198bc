import CodeAtlas.Toml.Layout
import CodeAtlas.Toml.Value

/-!
TOML documents: lines that open tables, and lines that give values to keys.

A table may be opened once, except that one which so far was only passed through may be opened
later. A text between three quotes may go on over several lines.
-/

namespace CodeAtlas.Toml

/-! ### Heads of tables -/

/-- Join the parts of a name in quotes that dots inside of it have cut. The answer holds the name
with its quotes and the parts that are left. -/
def joinName : (name : List Char) → (parts : List (List Char)) →
    Except Fault (List Char × List (List Char))
  | name, parts =>
      let text := Text.trim name
      if 1 < text.length && text.head? == text.getLast? then .ok (text, parts)
      else
        match parts with
        | [] => .error .malformed
        | part :: rest => joinName (name ++ '.' :: part) rest
termination_by _ parts => parts.length

def isHeadChar (c : Char) : Bool :=
  c.isAlphanum || c == '_' || c == '-'

def headNames : (fuel : Nat) → (parts : List (List Char)) → Except Fault (List String)
  | 0, _ => .error .malformed
  | _ + 1, [] => .ok []
  | fuel + 1, part :: rest => do
      let text := Text.trim part
      if text.head?.any fun c => c == '"' || c == '\'' then
        let (name, rest) ← joinName text rest
        return String.ofList (peel 1 name) :: (← headNames fuel rest)
      else if text.isEmpty || !text.all isHeadChar then throw .malformed
      else return String.ofList text :: (← headNames fuel rest)

/-- The names in a head, and whether it opens one more table of a list. The head has to stand on its
line alone. -/
def head (cs : List Char) : Except Fault (Bool × List String) := do
  if cs.length < 2 then throw .malformed
  let isList := Text.startsWith cs ['[', '[']
  let closing := if isList then [']', ']'] else [']']
  let text := cs.drop closing.length
  let index := quotedOccurrences closing false (quotePieces text) + 1
  let (inside, after) := divideAt closing index text
  if occurrences closing text < index || !Text.isAllBlank after then throw .malformed
  let parts := Text.splitBy (· == '.') inside
  return (isList, ← headNames (parts.length + 1) parts)

/-! ### Tables -/

inductive Step where
  | field (name : String)
  | last
  deriving Repr, DecidableEq

def modifyAt (f : Value → Except Fault Value) : (steps : List Step) → Value → Except Fault Value
  | [], v => f v
  | .field name :: rest, v =>
      match v.get? name with
      | some inner => do return setField name (← modifyAt f rest inner) v
      | none => .error .malformed
  | .last :: rest, v =>
      match v with
      | .list items =>
          match items.getLast? with
          | some inner => do return .list (items.dropLast ++ [← modifyAt f rest inner])
          | none => .error .malformed
      | _ => .error .notTable

def getAt? : (steps : List Step) → Value → Option Value
  | [], v => some v
  | .field name :: rest, v => (v.get? name).bind (getAt? rest)
  | .last :: rest, v =>
      match v with
      | .list items => items.getLast?.bind (getAt? rest)
      | _ => none

structure Reading where
  root : Value := .mapping []
  current : List Step := []
  implicit : List String := []
  openText : Option OpenText := none

def emptyTable : Value := .mapping []

def freshTable (isList isLast : Bool) : Value :=
  if isList && isLast then .list [emptyTable] else emptyTable

def stepsInto (isList : Bool) (steps : List Step) (v : Value) : Except Fault (List Step) :=
  if !isList then .ok steps
  else
    match v with
    | .list [] => .error .empty
    | .list _ => .ok (steps ++ [.last])
    | .mapping _ => .ok steps
    | .plain (.str s) => if s.isEmpty then .error .empty else .ok steps
    | _ => .error .notTable

/-- One name of a head, seen from a table: the steps that it takes and the table with what it
makes. -/
def enter (isList isLast : Bool) (name : String) (implicit : List String) (v : Value) :
    Except Fault (List Step × Value × List String) :=
  match v with
  | .mapping _ =>
      match v.get? name with
      | some inner =>
          if !isLast then do return (← stepsInto isList [.field name] inner, v, implicit)
          else if implicit.contains name then
            if isList then .error .malformed
            else .ok ([.field name], v, implicit.erase name)
          else if isList then
            match inner with
            | .list items =>
                .ok ([.field name, .last], setField name (.list (items ++ [emptyTable])) v,
                  implicit)
            | _ => .error .notTables
          else .error (if v.text?.isSome then .malformed else .longNumber)
      | none =>
          let made := freshTable isList isLast
          let implicit := if isLast then implicit else implicit ++ [name]
          do return (← stepsInto isList [.field name] made, setField name made v, implicit)
  | .list items =>
      match items.getLast? with
      | none => .error .empty
      | some (.mapping pairs) =>
          let table := Value.mapping pairs
          let inner := (table.get? name).getD (freshTable isList isLast)
          let table := if (table.get? name).isSome then table else setField name inner table
          do return (← stepsInto isList [.last, .field name] inner,
            .list (items.dropLast ++ [table]), implicit)
      | _ => .error .notTable
  | .plain (.str s) => .error (if s.isEmpty then .empty else .notTable)
  | _ => .error .notTable

def openTable (isList : Bool) : (names : List String) → Reading → Except Fault Reading
  | [], r => .ok r
  | name :: rest, r => do
      if name.isEmpty then throw .malformed
      let v ← orMalformed (getAt? r.current r.root)
      let (steps, made, implicit) ← enter isList rest.isEmpty name r.implicit v
      let root ← modifyAt (fun _ => .ok made) r.current r.root
      openTable isList rest
        { r with root := root, current := r.current ++ steps, implicit := implicit }

/-! ### Documents -/

def OpenText.isClosedBy (t : OpenText) (cs : List Char) : Except Fault Bool :=
  match t.text.head? with
  | some '[' => if cs.isEmpty then .error .empty else .ok (cs.getLast? == some ']')
  | some q => .ok (Text.endsWith cs [q, q, q])
  | none => .ok false

def readMore (r : Reading) (t : OpenText) (cs : List Char) : Except Fault Reading := do
  let cs := if t.isJoined || !t.text.contains '\n' then Text.trim cs else cs
  if cs.isEmpty && t.isJoined then return r
  let text := t.text ++ cs
  if ← t.isClosedBy cs then
    let v ← readValue text
    let root ← modifyAt (fun table => .ok (setField t.name v table)) r.current r.root
    return { r with root := root, openText := none }
  else return { r with openText := some (.ofValue t.name text) }

/-- Take in one line. A line that is no head and has no equals sign does not count. -/
def readLine (r : Reading) (cs : List Char) : Except Fault Reading := do
  match r.openText with
  | some t => readMore r t cs
  | none =>
      let cs := Text.trim cs
      match cs.head? with
      | none => return r
      | some '[' => do
          let (isList, names) ← head cs
          openTable isList names { r with current := [] }
      | some '{' => do
          if cs.getLast? != some '}' then throw .malformed
          return { r with root := ← modifyAt (readFields cs) r.current r.root }
      | some _ => do
          if !cs.contains '=' then return r
          let table ← orMalformed (getAt? r.current r.root)
          let (table, openText) ← readField cs table
          let root ← modifyAt (fun _ => .ok table) r.current r.root
          return { r with root := root, openText := openText }

def document (text : List Char) : Except Fault Value := do
  let r ← (← lines text).foldlM readLine {}
  return r.root

end CodeAtlas.Toml
