import CodeAtlas.Flow.Graph

/-!
Flow graphs as Mermaid flowcharts.
-/

namespace CodeAtlas.FlowGraph

def shape : NodeKind → String × String
  | .entry => ("([\"", "\"])")
  | .branch => ("\x7b\"", "\"\x7d")
  | .loopHead => ("\x7b\x7b\"", "\"\x7d\x7d")
  | .block => ("[\"", "\"]")
  | .jump => (">\"", "\"]")
  | .exit _ => ("[[\"", "\"]]")

/-- Text inside quotes: quotes are written as entities and line feeds as blanks. An empty text is a
blank. -/
def diagramText (s : String) : String :=
  let cs := s.toList.flatMap fun c =>
    if c == '"' then "#quot;".toList else if c == '\n' then [' '] else [c]
  if cs.isEmpty then " " else String.ofList cs

def diagramLabel (n : FlowNode) : String :=
  if n.kind == .block then
    let lines := "L" ++ toString n.startLine
      ++ (if n.startLine == n.endLine then "" else "-" ++ toString n.endLine)
    if n.label == "" then lines else lines ++ ": " ++ n.label
  else n.label

def diagramEdgeLabel (e : FlowEdge) : String :=
  match e.condition with
  | some condition => if condition == "" then e.kind.text else e.kind.text ++ ": " ++ condition
  | none => e.kind.text

def diagramNode (id : Nat) (n : FlowNode) : String :=
  let (opening, closing) := shape n.kind
  "    n" ++ toString id ++ opening ++ diagramText (diagramLabel n) ++ closing

def diagramEdge (e : FlowEdge) : String :=
  "    n" ++ toString e.source ++ " -->|\"" ++ diagramText (diagramEdgeLabel e) ++ "\"| n"
    ++ toString e.target

def diagram (g : FlowGraph) : String :=
  let unreachable := g.unreachable
  let styles :=
    if unreachable.isEmpty then []
    else
      ["    classDef unreachable stroke-dasharray: 5 5,fill:#eee,color:#888",
        "    class " ++ ",".intercalate (unreachable.map fun i => "n" ++ toString i)
          ++ " unreachable"]
  let lines := ["flowchart TD"]
    ++ List.zipWith (fun n links => diagramNode links.id n) g.nodes g.links.nodes
    ++ g.edges.map diagramEdge ++ styles
  "\n".intercalate lines ++ "\n"

end CodeAtlas.FlowGraph
