import CodeAtlas.Diff.Build

/-!
Differences as JSON documents and as a summary to read.
-/

namespace CodeAtlas

def EdgeKey.toJson (e : EdgeKey Json) : Json :=
  .obj [("from", e.source), ("to", e.target), ("kind", e.kind)]

def Move.toJson (m : Move Json) : Json :=
  .obj [("from", m.source), ("to", m.target), ("score", .nat m.score), ("reason", .str m.reason)]

namespace Diff

def toJson (d : Diff Json) : Json :=
  .obj [("kind", .str d.kind.text), ("added_nodes", .arr d.addedNodes),
    ("removed_nodes", .arr d.removedNodes),
    ("added_edges", .arr (d.addedEdges.map (·.toJson))),
    ("removed_edges", .arr (d.removedEdges.map (·.toJson))),
    ("suggestions", .arr (d.moves.map (·.toJson))),
    ("mapping_template", .obj [("mappings", .obj (d.removedNodes.map fun id =>
      (id.display, .str "")))]),
    ("unmapped", .arr d.unmapped),
    ("summary", .obj [("added_nodes", .nat d.addedNodes.length),
      ("removed_nodes", .nat d.removedNodes.length), ("added_edges", .nat d.addedEdges.length),
      ("removed_edges", .nat d.removedEdges.length), ("suggestions", .nat d.moves.length)])]

def section_ (title : String) (items : List String) : List String :=
  if items.isEmpty then []
  else ["### " ++ title, ""] ++ items.map (fun item => "- `" ++ item ++ "`") ++ [""]

def edgeText (e : EdgeKey String) : String :=
  e.source ++ " -> " ++ e.target ++ " (" ++ e.kind ++ ")"

def moveTable (moves : List (Move String)) : List String :=
  if moves.isEmpty then []
  else
    ["### Suggested mappings", "", "| From | To | Score | Reason |", "|---|---|---:|---|"]
      ++ moves.map (fun m => "| `" ++ m.source ++ "` | `" ++ m.target ++ "` | " ++ toString m.score
        ++ " | " ++ m.reason ++ " |")
      ++ [""]

def title : GraphKind → String
  | .blueprint => "## Blueprint diff"
  | .callgraph => "## Callgraph diff"

def summary (d : Diff String) : String :=
  let head := [title d.kind, ""]
  if d.isEmpty then "\n".intercalate (head ++ ["No structural changes."]) ++ "\n"
  else
    let row (label : String) (added removed : Nat) : String :=
      "| " ++ label ++ " | " ++ toString added ++ " | " ++ toString removed ++ " |"
    let lines := head ++ ["| | Added | Removed |", "|---|---:|---:|",
        row "Nodes" d.addedNodes.length d.removedNodes.length,
        row "Edges" d.addedEdges.length d.removedEdges.length, ""]
      ++ section_ "Added nodes" d.addedNodes ++ section_ "Removed nodes" d.removedNodes
      ++ section_ "Added edges" (d.addedEdges.map edgeText)
      ++ section_ "Removed edges" (d.removedEdges.map edgeText)
      ++ moveTable d.moves ++ section_ "Unmapped removals" d.unmapped
    String.ofList (Text.trimEnd ("\n".intercalate lines).toList) ++ "\n"

end Diff

end CodeAtlas
