import CodeAtlas.Source.File
import CodeAtlas.Statement.Basic

/-!
Control-flow graphs.

Beside the nodes and edges themselves a graph keeps links: the number of each node and edge, which
edges leave a node, how an exit leaves the function, and which nodes are exits. They are written
down while the graph is made, and nothing in their types says that they fit the nodes and edges.
-/

namespace CodeAtlas

inductive NodeKind where
  | entry
  | branch
  | loopHead
  | block
  | jump
  | exit (kind : ExitKind)
  deriving Repr, DecidableEq

namespace NodeKind

def text : NodeKind → String
  | entry => "entry"
  | branch => "branch"
  | loopHead => "loop-head"
  | block => "statement-block"
  | jump => "jump"
  | exit _ => "exit"

def isExit : NodeKind → Bool
  | exit _ => true
  | _ => false

end NodeKind

structure FlowNode where
  kind : NodeKind
  startLine : Nat
  endLine : Nat
  label : String
  deriving Repr, DecidableEq

inductive EdgeKind where
  | fallthrough
  | whenTrue
  | whenFalse
  | case
  | back
  | loopExit
  | exception
  | jump
  deriving Repr, DecidableEq

namespace EdgeKind

def text : EdgeKind → String
  | fallthrough => "fallthrough"
  | whenTrue => "true"
  | whenFalse => "false"
  | case => "case"
  | back => "back"
  | loopExit => "loop-exit"
  | exception => "exception"
  | jump => "jump"

def decides? : EdgeKind → Option Bool
  | whenTrue => some true
  | case => some true
  | exception => some true
  | whenFalse => some false
  | loopExit => some false
  | fallthrough => none
  | back => none
  | jump => none

end EdgeKind

structure FlowEdge where
  source : Nat
  target : Nat
  kind : EdgeKind
  condition : Option String
  deriving Repr, DecidableEq

structure NodeLinks where
  id : Nat
  outEdges : List Nat
  exitKind : Option ExitKind
  deriving Repr, DecidableEq

structure FlowLinks where
  nodes : List NodeLinks := []
  edgeIds : List Nat := []
  exits : List Nat := []
  deriving Repr, DecidableEq

namespace FlowLinks

def addNode (l : FlowLinks) (id : Nat) (kind : NodeKind) (exitKind : Option ExitKind) : FlowLinks :=
  { l with
    nodes := l.nodes ++ [⟨id, [], exitKind⟩]
    exits := if kind.isExit then l.exits ++ [id] else l.exits }

def addEdge (l : FlowLinks) (id source : Nat) : FlowLinks :=
  { l with
    nodes := l.nodes.modify source fun n => { n with outEdges := n.outEdges ++ [id] }
    edgeIds := l.edgeIds ++ [id] }

/-- Add edges one after the other, numbered from `id` on. -/
def addEdges (l : FlowLinks) (id : Nat) : List FlowEdge → FlowLinks
  | [] => l
  | e :: edges => (l.addEdge id e.source).addEdges (id + 1) edges

def sorted (l : FlowLinks) : FlowLinks :=
  { l with exits := sortWith compare l.exits }

end FlowLinks

structure FlowGraph where
  nodes : List FlowNode
  edges : List FlowEdge
  links : FlowLinks
  deriving Repr, DecidableEq

namespace FlowGraph

def entry : Nat := 0

def outEdges (g : FlowGraph) (node : Nat) : List Nat :=
  (g.links.nodes[node]?.map (·.outEdges)).getD []

def exitKind? (g : FlowGraph) (node : Nat) : Option ExitKind :=
  g.links.nodes[node]? >>= (·.exitKind)

def exits (g : FlowGraph) : List Nat :=
  g.links.exits

def edgesFrom (g : FlowGraph) (node : Nat) : List FlowEdge :=
  g.edges.filter (·.source == node)

def successors (g : FlowGraph) (node : Nat) : List Nat :=
  (g.edgesFrom node).map (·.target)

/-- The nodes among `seen` or reachable from `todo`. Every step either takes a node off the list or
adds one to those seen. -/
def reach (g : FlowGraph) : (fuel : Nat) → (todo seen : List Nat) → List Nat
  | 0, _, seen => seen
  | _ + 1, [], seen => seen
  | fuel + 1, n :: todo, seen =>
      if seen.contains n then reach g fuel todo seen
      else reach g fuel (g.successors n ++ todo) (n :: seen)

def reachable (g : FlowGraph) : List Nat :=
  g.reach (g.nodes.length + g.edges.length + 2) [entry] []

def unreachable (g : FlowGraph) : List Nat :=
  let reached := g.reachable
  (List.range g.nodes.length).filter (!reached.contains ·)

end FlowGraph

end CodeAtlas
