import CodeAtlas.Json.Reader
import CodeAtlas.Report.Snapshot

/-!
Reading snapshots.

A snapshot is one JSON document, or one JSON record a line with the statistics among them. Records
are read strictly where a number or an identity is needed, and everything else is kept as it is.
-/

namespace CodeAtlas

inductive ReportFault where
  | notAnObject
  | unknownKind (kind : Json)
  | notLists
  | missingField (name : String)
  | malformed
  | notInteger (text : String)
  | badLine (line : Nat) (fault : JsonFault)
  | unknownRecord (line : Nat) (type : Json)
  | recordNotKeyed
  | recordNotObject
  | infiniteNumber
  | longInteger
  deriving Repr

namespace ReportFault

def message : ReportFault → String
  | notAnObject => "report must be a JSON object"
  | unknownKind kind => "unknown report kind " ++ kind.literal
  | notLists => "'nodes' and 'edges' must be lists"
  | missingField name => "malformed report entry: " ++ Text.quoted name
  | malformed => "malformed report entry"
  | notInteger _ => "malformed report entry"
  | badLine line fault => "line " ++ toString line ++ ": " ++ fault.message
  | unknownRecord line type => "line " ++ toString line ++ ": unknown record type " ++ type.literal
  | recordNotKeyed => "record without named fields"
  | recordNotObject => "record is a plain value"
  | infiniteNumber => "cannot convert float infinity to integer"
  | longInteger => JsonFault.longInteger.message

def shownLength : Nat := 200

def fullMessage : ReportFault → String
  | notInteger text =>
      let shown := String.ofList ((Text.quoted text).toList.take shownLength)
      "malformed report entry: invalid literal for int() with base 10: " ++ shown
  | fault => fault.message

end ReportFault

abbrev ReportResult (α : Type) := Except ReportFault α

/-! ### Values -/

namespace Json

/-- The integer that a value stands for; a fraction is cut off. -/
def toInteger : Json → ReportResult Int
  | int n => .ok n
  | bool b => .ok (if b then 1 else 0)
  | float (.infinite _) => .error .infiniteNumber
  | float x => match x.truncate? with
    | some n => .ok n
    | none => .error .malformed
  | str s => match Numeral.integer? (some 10) s.toList with
    | some n => .ok n
    | none => .error (.notInteger s)
  | _ => .error .malformed

def required (name : String) (v : Json) : ReportResult Json :=
  match v with
  | obj members =>
      match members.lookup name with
      | some value => .ok value
      | none => .error (.missingField name)
  | _ => .error .malformed

def fieldOr (v : Json) (name : String) (default : Json) : Json :=
  (v.field? name).getD default

/-- An integer field of a record; it counts as zero where it is missing. -/
def integerField (name : String) (v : Json) : ReportResult Int :=
  (v.fieldOr name (.int 0)).toInteger

def flagField (name : String) (v : Json) : Bool :=
  (v.fieldOr name (.bool false)).isTruthy

def pair? : Json → Option (Json × Json)
  | arr [a, b] => some (a, b)
  | obj [(a, _), (b, _)] => some (str a, str b)
  | str s => match s.toList with
    | [a, b] => some (str a.toString, str b.toString)
    | _ => none
  | _ => none

def setKey (key value : Json) : List (Json × Json) → List (Json × Json)
  | [] => [(key, value)]
  | (k, v) :: rest =>
      if k.sameKey key then (k, value) :: rest else (k, v) :: setKey key value rest

def keyedPairs (pairs : List (Json × Json)) : Option (List (Json × Json)) :=
  if pairs.all fun (k, _) => k.isKey then some (pairs.foldl (fun acc (k, v) => setKey k v acc) [])
  else none

def parts? : Json → Option (List Json)
  | arr items => some items
  | obj members => some (members.map fun (name, _) => str name)
  | str s => some (s.toList.map fun c => str c.toString)
  | _ => none

end Json

/-! ### Records -/

def FileRecord.ofJson (v : Json) : ReportResult FileRecord := do
  let path ← v.required "path"
  let sizeBytes ← v.integerField "size_bytes"
  let lines ← v.integerField "lines"
  return ⟨path, v.fieldOr "language" (.str ""), sizeBytes, lines⟩

def ReferenceRecord.ofJson (v : Json) : ReportResult ReferenceRecord := do
  let source ← v.required "from"
  return ⟨source, v.fieldOr "to" .null, v.fieldOr "to_raw" (.str ""),
    v.fieldOr "kind" (.str LinkKind.imports.text), v.fieldOr "line" .null, v.flagField "resolved"⟩

def FunctionRecord.ofJson (v : Json) : ReportResult FunctionRecord := do
  let id ← v.required "id"
  let line ← v.integerField "line"
  return ⟨id, v.fieldOr "name" (.str ""), v.fieldOr "kind" (.str EntryKind.function.text),
    v.fieldOr "file" (.str ""), line, v.fieldOr "language" (.str "")⟩

def CallRecord.ofJson (v : Json) : ReportResult CallRecord := do
  let source ← v.required "from"
  let line ← v.integerField "line"
  return ⟨source, v.fieldOr "to" .null, v.fieldOr "callee_raw" (.str ""), line,
    v.flagField "resolved"⟩

def ErrorRecord.ofJson (v : Json) : ReportResult ErrorRecord := do
  let path ← v.required "path"
  return ⟨path, v.fieldOr "message" (.str "")⟩

def WarningRecord.ofJson (v : Json) : ReportResult WarningRecord := do
  let path ← v.required "path"
  return ⟨path, v.fieldOr "message" (.str ""), v.fieldOr "line" .null⟩

namespace Snapshot

def readParts {α : Type} (read : Json → ReportResult α) (v : Json) : ReportResult (List α) :=
  match v.parts? with
  | some items => items.mapM read
  | none => .error .malformed

def readStats (v : Json) : ReportResult Statistics :=
  match v with
  | .obj members => .ok (.ofFields members)
  | _ =>
      match v.parts? >>= List.mapM Json.pair? >>= Json.keyedPairs with
      | some pairs => .ok pairs
      | none => .error .malformed

def readRecords (kind : GraphKind) (nodes edges : List Json) : ReportResult GraphRecords :=
  match kind with
  | .blueprint => do
      let nodes ← nodes.mapM FileRecord.ofJson
      let edges ← edges.mapM ReferenceRecord.ofJson
      return .blueprint nodes edges
  | .callgraph => do
      let nodes ← nodes.mapM FunctionRecord.ofJson
      let edges ← edges.mapM CallRecord.ofJson
      return .callgraph nodes edges

def ofDocument (v : Json) : ReportResult Snapshot := do
  let .obj _ := v | .error .notAnObject
  let kind := v.fieldOr "kind" .null
  let some known := kind.text? >>= GraphKind.ofText? | .error (.unknownKind kind)
  let .arr nodes := v.fieldOr "nodes" (.arr []) | .error .notLists
  let .arr edges := v.fieldOr "edges" (.arr []) | .error .notLists
  let records ← readRecords known nodes edges
  let stats ← readStats (v.fieldOr "stats" (.obj []))
  let errors ← readParts ErrorRecord.ofJson (v.fieldOr "errors" (.arr []))
  let warnings ← readParts WarningRecord.ofJson (v.fieldOr "warnings" (.arr []))
  return ⟨records, stats, errors, warnings⟩

/-! ### One record a line -/

structure LineRecords where
  nodes : List Json := []
  edges : List Json := []
  errors : List Json := []
  warnings : List Json := []
  /-- The kind of graph and the statistics, from the last record that gives them. -/
  head : Option (Json × Json) := none

def LineRecords.document (r : LineRecords) : Json :=
  let head := match r.head with
    | some (kind, stats) => [("kind", kind), ("stats", stats)]
    | none => []
  .obj ([("nodes", .arr r.nodes), ("edges", .arr r.edges), ("errors", .arr r.errors),
    ("warnings", .arr r.warnings)] ++ head)

def LineRecords.add (r : LineRecords) (line : Nat) (record : Json) : ReportResult LineRecords :=
  match record with
  | .obj members =>
      let type := (members.lookup "type").getD .null
      let rest := Json.obj (members.filter (·.1 != "type"))
      match type with
      | .str "stats" =>
          .ok { r with head := some (rest.fieldOr "kind" .null, rest.fieldOr "stats" (.obj [])) }
      | .str "node" => .ok { r with nodes := r.nodes ++ [rest] }
      | .str "edge" => .ok { r with edges := r.edges ++ [rest] }
      | .str "error" => .ok { r with errors := r.errors ++ [rest] }
      | .str "warning" => .ok { r with warnings := r.warnings ++ [rest] }
      | _ => if type.isKey then .error (.unknownRecord line type) else .error .recordNotKeyed
  | .arr _ => .error .recordNotKeyed
  | _ => .error .recordNotObject

def readLines (r : LineRecords) : List (List Char × Nat) → ReportResult LineRecords
  | [] => .ok r
  | (line, number) :: lines =>
      if Text.isAllBlank line then readLines r lines
      else
        match Json.parse line with
        | .error .longInteger => .error .longInteger
        | .error fault => .error (.badLine number fault)
        | .ok record => do
            let r ← r.add number record
            readLines r lines

def documentOfLines (text : List Char) : ReportResult Json := do
  let records ← readLines {} ((Text.lines text).zipIdx 1)
  return records.document

def isStatsRecord (v : Json) : Bool :=
  match v.field? "type" with
  | some (.str type) => type == "stats"
  | _ => false

def parse (text : List Char) : ReportResult Snapshot :=
  match Json.parse text with
  | .ok v => do
      let v ← if isStatsRecord v then documentOfLines text else .ok v
      ofDocument v
  | .error .longInteger => .error .longInteger
  | .error _ => documentOfLines text >>= ofDocument

end Snapshot

end CodeAtlas
