import CodeAtlas.Audit.Document

/-!
Writing reports: as one JSON document, as one JSON record a line, and as a graph drawing.
-/

namespace CodeAtlas

inductive OutputFormat where
  | json
  | jsonl
  deriving Repr, DecidableEq

structure UnsupportedFormat where
  format : String
  deriving Repr, DecidableEq

namespace UnsupportedFormat

def message (e : UnsupportedFormat) : String :=
  "Unsupported output format '" ++ e.format ++ "' (expected one of: json, jsonl)"

end UnsupportedFormat

namespace OutputFormat

def ofText (text : String) : Except UnsupportedFormat OutputFormat :=
  if text == "json" then .ok json
  else if text == "jsonl" then .ok jsonl
  else .error ⟨text⟩

def recordLines (head : String) (groups : List (String × List (List (String × Json)))) : String :=
  let records := groups.flatMap fun (type, items) =>
    items.map fun item => (Json.obj (("type", .str type) :: item)).compact
  "\n".intercalate (head :: records) ++ "\n"

end OutputFormat

inductive WriteFault where
  | mixedKeys
  | longInteger
  deriving Repr, DecidableEq

namespace Statistics

def sorted (s : Statistics) : Except WriteFault Statistics :=
  let isSorted := s.all fun (a, _) => s.all fun (b, _) => a.sameKey b || a.isComparable b
  if isSorted || s.length < 2 then .ok (s.mergeSort fun a b => (a.1.compareKey b.1).isLE)
  else .error .mixedKeys

def text (layout : Json.Layout) (depth : Nat) (s : Statistics) : Except WriteFault String := do
  return Json.objectText layout depth
    ((← s.sorted).map fun (k, v) => (k.keyText, v.render layout (depth + 1)))

end Statistics

namespace Snapshot

def withStats (layout : Json.Layout) (fields : List (String × Json)) (stats : Statistics) :
    Except WriteFault String := do
  let texts := Json.renderFields layout 1 fields
  return Json.objectText layout 0 (Json.sortFields (("stats", ← stats.text layout 1) :: texts))

def text (s : Snapshot) : OutputFormat → Except WriteFault String
  | .json =>
      withStats .indented
        [("kind", .str s.kind.text), ("nodes", .arr (s.nodeFields.map .obj)),
          ("edges", .arr (s.edgeFields.map .obj)),
          ("errors", .arr (s.errors.map fun e => .obj e.fields)),
          ("warnings", .arr (s.warnings.map fun w => .obj w.fields))]
        s.stats
  | .jsonl => do
      let head ← withStats .inline [("type", .str "stats"), ("kind", .str s.kind.text)] s.stats
      return OutputFormat.recordLines head
        [("node", s.nodeFields), ("edge", s.edgeFields), ("error", s.errors.map (·.fields)),
          ("warning", s.warnings.map (·.fields))]

def write (s : Snapshot) (format : OutputFormat) : Except WriteFault String := do
  let text ← s.text format
  if s.toJson.isWritable then return text else throw .longInteger

end Snapshot

def Audit.write (a : Audit) : OutputFormat → String
  | .json => a.toJson.pretty
  | .jsonl =>
      OutputFormat.recordLines (Json.obj (("type", .str "summary") :: a.summary)).compact
        [("finding", a.findings.map (·.fields))]

/-! ### Graph drawings -/

inductive DrawingFault where
  | notAKey
  | notAText
  deriving Repr, DecidableEq

namespace Drawing

/-- A character between double quotes: a quote and a backslash have a backslash before them. -/
def escapeChar (c : Char) : List Char :=
  if c == '\\' || c == '"' then ['\\', c] else [c]

def quote (s : String) : String :=
  String.ofList ('"' :: s.toList.flatMap escapeChar ++ ['"'])

def nodeLine (id : String) (language : Json) : String :=
  "  " ++ quote id ++ " [label=" ++ quote (language.display ++ "\\n" ++ id) ++ "];"

def edgeLine (source target kind : String) : String :=
  "  " ++ quote source ++ " -> " ++ quote target ++ " [label=" ++ quote kind ++ "];"

def texts (fault : DrawingFault) (names : List Json) : Except DrawingFault (List String) :=
  if !names.all Json.isKey then .error .notAKey
  else
    match names.mapM Json.text? with
    | some texts => .ok texts
    | none => .error fault

/-- The nodes that a focus selects: those whose name contains it, and those that a resolved edge
joins with one of them. An empty focus selects all. -/
def selected (ids : List String) (edges : List (Json × Json)) (focus : String) : List String :=
  if focus == "" then ids
  else
    let matched := ids.filter fun id => Text.contains id.toList focus.toList
    let isMatched (name : Json) : Bool := name.text?.any matched.contains
    ids.filter fun id =>
      matched.contains id
        || edges.any fun (source, target) =>
          (source.sameKey (.str id) || target.sameKey (.str id)) &&
            (isMatched source || isMatched target)

/-- The edges of a drawing: those between selected nodes, each once, as source, target and kind. -/
def edgesBetween (ids : List String) :
    (seen : List (String × String × String)) → List EdgeView →
      Except DrawingFault (List (String × String × String))
  | seen, [] => .ok seen.reverse
  | seen, e :: edges => do
      if !e.source.isKey then throw .notAKey
      let some source := e.source.text?.filter ids.contains | edgesBetween ids seen edges
      if !e.target.isKey then throw .notAKey
      let some target := e.target.text?.filter ids.contains | edgesBetween ids seen edges
      if !e.kind.isKey then throw .notAKey
      let some kind := e.kind.text? | throw .notAText
      if seen.contains (source, target, kind) then edgesBetween ids seen edges
      else edgesBetween ids ((source, target, kind) :: seen) edges

end Drawing

namespace Snapshot

def drawingName : GraphKind → String
  | .blueprint => "Blueprint"
  | .callgraph => "CallGraph"

def draw (s : Snapshot) (focus : String) (resolvedOnly : Bool) : Except DrawingFault String := do
  let ids ← Drawing.texts (if focus == "" then .notAText else .notAKey) s.nodeIds
  let ends := s.resolvedEdges.map fun e => (e.source, e.target)
  if focus != "" && ends.any (fun (a, b) => !a.isKey || !b.isKey) then throw .notAKey
  let selected := Drawing.selected ids ends focus
  let nodes := (s.nodes.zip ids).filter fun (_, id) => selected.contains id
  let edges ← Drawing.edgesBetween selected [] (if resolvedOnly then s.resolvedEdges else s.edges)
  let lines := ["digraph " ++ drawingName s.kind ++ " \x7b", "  rankdir=LR;"]
    ++ nodes.map (fun ((_, language), id) => Drawing.nodeLine id language)
    ++ edges.map (fun (source, target, kind) => Drawing.edgeLine source target kind)
    ++ ["\x7d"]
  return "\n".intercalate lines ++ "\n"

end Snapshot

end CodeAtlas
