import CodeAtlas.Flow.Build
import CodeAtlas.Json.Basic

/-!
Flow graphs as JSON documents.
-/

namespace CodeAtlas

def FileError.toJson (e : FileError) : Json :=
  .obj [("path", .str e.path), ("message", .str e.message)]

def FileWarning.toJson (w : FileWarning) : Json :=
  .obj [("path", .str w.path), ("line", .opt .int w.line), ("message", .str w.message)]

def PathCondition.toJson (c : PathCondition) : Json :=
  .obj [("expression", .str c.expression), ("must_be_true", .bool c.mustBeTrue),
    ("line", .nat c.line)]

def ExitPath.toJson (p : ExitPath) : Json :=
  .obj [("nodes", .arr (p.nodes.map .nat)), ("conditions", .arr (p.conditions.map (·.toJson))),
    ("exit_node", .nat p.exitNode), ("exit_kind", .str p.exitKind.text)]

namespace FlowGraph

def nodeJson (n : FlowNode) (links : NodeLinks) : Json :=
  .obj [("id", .nat links.id), ("kind", .str n.kind.text), ("start_line", .nat n.startLine),
    ("end_line", .nat n.endLine), ("label", .str n.label),
    ("out_edges", .arr (links.outEdges.map .nat)),
    ("exit_kind", .opt (fun k => .str k.text) links.exitKind)]

def edgeJson (e : FlowEdge) (id : Nat) : Json :=
  .obj [("id", .nat id), ("from", .nat e.source), ("to", .nat e.target), ("kind", .str e.kind.text),
    ("condition", .opt .str e.condition)]

end FlowGraph

namespace FunctionFlow

def statsJson (f : FunctionFlow) : Json :=
  .obj [("nodes", .nat f.graph.nodes.length), ("edges", .nat f.graph.edges.length),
    ("exits", .nat f.graph.exits.length), ("unreachable_nodes", .nat f.graph.unreachable.length),
    ("exit_paths", .nat f.exitPaths.length), ("exit_paths_truncated", .bool f.exitPathsTruncated)]

def toJson (f : FunctionFlow) : Json :=
  .obj [("function_id", .str f.functionId), ("name", .str f.name), ("file", .str f.file),
    ("language", .str f.language.tag), ("start_line", .nat f.startLine),
    ("entry", .nat FlowGraph.entry), ("exits", .arr (f.graph.exits.map .nat)),
    ("unreachable", .arr (f.graph.unreachable.map .nat)),
    ("nodes", .arr (List.zipWith FlowGraph.nodeJson f.graph.nodes f.graph.links.nodes)),
    ("edges", .arr (List.zipWith FlowGraph.edgeJson f.graph.edges f.graph.links.edgeIds)),
    ("warnings", .arr (f.warnings.map (·.toJson))),
    ("exit_paths", .arr (f.exitPaths.map (·.toJson))), ("stats", f.statsJson),
    ("diagram", .opt .str f.diagram)]

end FunctionFlow

end CodeAtlas
