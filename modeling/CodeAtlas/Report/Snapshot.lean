import CodeAtlas.Calls.Build
import CodeAtlas.Flow.Document
import CodeAtlas.Json.Key

/-!
Snapshots: graphs as they are written to a document and read back.

A snapshot keeps the records of a graph in order. Fields that a reader only passes on hold whatever
value the document has there, which for a graph that was built is always a text.
-/

namespace CodeAtlas

inductive GraphKind where
  | blueprint
  | callgraph
  deriving Repr, DecidableEq

namespace GraphKind

def text : GraphKind → String
  | blueprint => "blueprint"
  | callgraph => "callgraph"

def ofText? (text : String) : Option GraphKind :=
  if text == "blueprint" then some blueprint
  else if text == "callgraph" then some callgraph
  else none

theorem ofText?_eq_some {kind : GraphKind} {text : String} :
    ofText? text = some kind ↔ text = kind.text := by
  unfold ofText?
  constructor
  · intro read
    split at read
    · next same =>
      cases read
      exact eq_of_beq same
    · split at read
      · next same =>
        cases read
        exact eq_of_beq same
      · cases read
  · rintro rfl
    cases kind <;> rfl

end GraphKind

structure FileRecord where
  path : Json
  language : Json
  sizeBytes : Int
  lines : Int
  deriving Repr

structure ReferenceRecord where
  source : Json
  target : Json
  written : Json
  kind : Json
  line : Json
  resolved : Bool
  deriving Repr

structure FunctionRecord where
  id : Json
  name : Json
  kind : Json
  file : Json
  line : Int
  language : Json
  deriving Repr

structure CallRecord where
  source : Json
  target : Json
  written : Json
  line : Int
  resolved : Bool
  deriving Repr

inductive GraphRecords where
  | blueprint (nodes : List FileRecord) (edges : List ReferenceRecord)
  | callgraph (nodes : List FunctionRecord) (edges : List CallRecord)
  deriving Repr

structure ErrorRecord where
  path : Json
  message : Json
  deriving Repr

structure WarningRecord where
  path : Json
  message : Json
  line : Json
  deriving Repr

/-- Statistics. Those that were read may have keys that are not texts. -/
abbrev Statistics := List (Json × Json)

namespace Statistics

def ofFields (fields : List (String × Json)) : Statistics :=
  fields.map fun (name, v) => (.str name, v)

/-- The fields that statistics have in a document; of several keys with one text the last one
counts. -/
def fields (s : Statistics) : List (String × Json) :=
  s.foldl (fun fields (k, v) => Json.setField k.keyText v fields) []

end Statistics

structure Snapshot where
  records : GraphRecords
  stats : Statistics
  errors : List ErrorRecord
  warnings : List WarningRecord
  deriving Repr

structure EdgeView where
  source : Json
  target : Json
  kind : Json
  resolved : Bool
  deriving Repr

namespace Snapshot

def kind (s : Snapshot) : GraphKind :=
  match s.records with
  | .blueprint _ _ => .blueprint
  | .callgraph _ _ => .callgraph

def nodes (s : Snapshot) : List (Json × Json) :=
  match s.records with
  | .blueprint nodes _ => nodes.map fun n => (n.path, n.language)
  | .callgraph nodes _ => nodes.map fun n => (n.id, n.language)

def nodeIds (s : Snapshot) : List Json :=
  s.nodes.map (·.1)

def edges (s : Snapshot) : List EdgeView :=
  match s.records with
  | .blueprint _ edges => edges.map fun e => ⟨e.source, e.target, e.kind, e.resolved⟩
  | .callgraph _ edges => edges.map fun e =>
    ⟨e.source, e.target, .str LinkKind.call.text, e.resolved⟩

def resolvedEdges (s : Snapshot) : List EdgeView :=
  s.edges.filter (·.resolved)

end Snapshot

/-! ### Snapshots as JSON -/

def FileRecord.fields (r : FileRecord) : List (String × Json) :=
  [("path", r.path), ("language", r.language), ("size_bytes", .int r.sizeBytes),
    ("lines", .int r.lines)]

def ReferenceRecord.fields (r : ReferenceRecord) : List (String × Json) :=
  [("from", r.source), ("to", r.target), ("to_raw", r.written), ("kind", r.kind), ("line", r.line),
    ("resolved", .bool r.resolved)]

def FunctionRecord.fields (r : FunctionRecord) : List (String × Json) :=
  [("id", r.id), ("name", r.name), ("kind", r.kind), ("file", r.file), ("line", .int r.line),
    ("language", r.language)]

def CallRecord.fields (r : CallRecord) : List (String × Json) :=
  [("from", r.source), ("to", r.target), ("callee_raw", r.written), ("line", .int r.line),
    ("resolved", .bool r.resolved)]

def ErrorRecord.fields (r : ErrorRecord) : List (String × Json) :=
  [("path", r.path), ("message", r.message)]

def WarningRecord.fields (r : WarningRecord) : List (String × Json) :=
  [("path", r.path), ("line", r.line), ("message", r.message)]

namespace Snapshot

def nodeFields (s : Snapshot) : List (List (String × Json)) :=
  match s.records with
  | .blueprint nodes _ => nodes.map (·.fields)
  | .callgraph nodes _ => nodes.map (·.fields)

def edgeFields (s : Snapshot) : List (List (String × Json)) :=
  match s.records with
  | .blueprint _ edges => edges.map (·.fields)
  | .callgraph _ edges => edges.map (·.fields)

def toJson (s : Snapshot) : Json :=
  .obj [("kind", .str s.kind.text), ("nodes", .arr (s.nodeFields.map .obj)),
    ("edges", .arr (s.edgeFields.map .obj)), ("stats", .obj s.stats.fields),
    ("errors", .arr (s.errors.map fun e => .obj e.fields)),
    ("warnings", .arr (s.warnings.map fun w => .obj w.fields))]

end Snapshot

/-! ### Snapshots of built graphs -/

def FileError.toRecord (e : FileError) : ErrorRecord :=
  ⟨.str e.path, .str e.message⟩

def FileWarning.toRecord (w : FileWarning) : WarningRecord :=
  ⟨.str w.path, .str w.message, .opt .int w.line⟩

def tally (xs : List String) : Json :=
  .obj ((sortedDistinct xs).map fun x => (x, .nat (xs.count x)))

namespace Blueprint

def stats (b : Blueprint) : List (String × Json) :=
  let resolved := b.links.filter (·.target.isSome)
  [("files_scanned", .nat b.nodes.length), ("files_errored", .nat b.errors.length),
    ("nodes", .nat b.nodes.length), ("edges", .nat b.links.length),
    ("edges_resolved", .nat resolved.length),
    ("by_language", tally (b.nodes.map (·.language.tag))),
    ("by_edge_kind", tally (b.links.map (·.kind.text))),
    ("by_edge_kind_resolved", tally (resolved.map (·.kind.text)))]

def snapshot (b : Blueprint) : Snapshot :=
  { records := .blueprint
      (b.nodes.map fun n => ⟨.str n.path, .str n.language.tag, n.sizeBytes, n.lines⟩)
      (b.links.map fun l => ⟨.str l.source, .opt .str l.target, .str l.written, .str l.kind.text,
        .nat l.line, l.target.isSome⟩)
    stats := .ofFields b.stats
    errors := b.errors.map (·.toRecord)
    warnings := [] }

end Blueprint

def Degree.toJson (d : Degree) : Json :=
  .obj [("in", .nat d.incoming), ("out", .nat d.outgoing), ("total", .nat d.total)]

def DegreeTable.toJson (table : DegreeTable) : Json :=
  .obj (table.map fun (id, d) => (id, d.toJson))

def DegreeClasses.fields (c : DegreeClasses) : List (String × Json) :=
  [("hubs", .arr (c.hubs.map fun (id, degree) => .obj [("id", .str id), ("degree", .nat degree)])),
    ("orphans", .strs c.orphans), ("sources", .strs c.sources), ("sinks", .strs c.sinks)]

namespace CallGraph

def stats (g : CallGraph) : List (String × Json) :=
  [("files_scanned", .nat g.filesScanned),
    ("files_errored", .nat (g.errors.map (·.path)).eraseDups.length),
    ("functions", .nat g.nodes.length), ("edges", .nat g.allLinks.length),
    ("edges_resolved", .nat (g.allLinks.countP (·.target.isSome))),
    ("edges_emitted", .nat g.links.length),
    ("by_language", tally (g.nodes.map (·.language.tag))),
    ("truncated_functions", .nat g.truncatedFunctions), ("degrees", g.degrees.toJson)]
    ++ g.classes.fields

def snapshot (g : CallGraph) : Snapshot :=
  { records := .callgraph
      (g.nodes.map fun n => ⟨.str n.id, .str n.name, .str n.kind.text, .str n.file, n.line,
        .str n.language.tag⟩)
      (g.links.map fun l => ⟨.str l.source, .opt .str l.target, .str l.written, l.line,
        l.target.isSome⟩)
    stats := .ofFields g.stats
    errors := g.errors.map (·.toRecord)
    warnings := g.warnings.map (·.toRecord) }

end CallGraph

end CodeAtlas
