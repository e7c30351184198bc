import CodeAtlas.Flow.Graph

/-!
Paths from the entry of a flow graph to its exits.

A path repeats no node, so a loop is walked at most once. The search goes depth first, with the
edges that are still to be tried on a stack, and stops when enough paths are found. It works on
linked graphs, in which every node lists the edges that leave it.
-/

namespace CodeAtlas

structure PathCondition where
  expression : String
  mustBeTrue : Bool
  line : Nat
  deriving Repr, DecidableEq

structure ExitPath where
  nodes : List Nat
  conditions : List PathCondition
  exitNode : Nat
  exitKind : ExitKind
  deriving Repr, DecidableEq

structure LinkedNode where
  startLine : Nat
  outEdges : List Nat
  exitKind : Option ExitKind
  deriving Repr, DecidableEq

/-- A flow graph with all its links written down. Nothing says that the numbers in it fit
together. -/
structure LinkedGraph where
  entry : Nat
  nodes : List LinkedNode
  edges : List FlowEdge
  exits : List Nat
  deriving Repr, DecidableEq

structure SearchLevel where
  todo : List Nat
  decided : Bool

/-- A search for exit paths. Nodes, conditions and levels are kept innermost first. -/
structure PathSearch where
  found : List ExitPath
  path : List Nat
  onPath : List Nat
  conditions : List PathCondition
  levels : List SearchLevel

namespace PathSearch

def record (s : PathSearch) (exit : Nat) (condition : Option PathCondition) (kind : ExitKind) :
    PathSearch :=
  let path : ExitPath :=
    ⟨(exit :: s.path).reverse, (condition.toList ++ s.conditions).reverse, exit, kind⟩
  { s with found := s.found ++ [path] }

def enter (s : PathSearch) (node : Nat) (condition : Option PathCondition) (outEdges : List Nat) :
    PathSearch :=
  { s with
    path := node :: s.path
    onPath := node :: s.onPath
    conditions := condition.toList ++ s.conditions
    levels := ⟨outEdges, condition.isSome⟩ :: s.levels }

def leave (s : PathSearch) (decided : Bool) (levels : List SearchLevel) : PathSearch :=
  { s with
    path := s.path.tail
    onPath := s.onPath.filter fun n => s.path.head? != some n
    conditions := if decided then s.conditions.tail else s.conditions
    levels := levels }

end PathSearch

namespace LinkedGraph

/-- The decision that an edge stands for, if it stands for one. Fails where the deciding node is
missing. -/
def condition? (g : LinkedGraph) (e : FlowEdge) : Option (Option PathCondition) :=
  match e.condition, e.kind.decides? with
  | some expression, some mustBeTrue =>
      g.nodes[e.source]?.map fun node => some ⟨expression, mustBeTrue, node.startLine⟩
  | _, _ => some none

def unvisited (g : LinkedGraph) (onPath : List Nat) : List Nat :=
  (List.range g.nodes.length).filter fun n => !onPath.contains n

/-- More than an edge can cost a search: each node that it enters has fewer unvisited ones below. -/
def edgeCost (g : LinkedGraph) (onPath : List Nat) : Nat :=
  Nat.pow ((g.nodes.map (·.outEdges)).flatten.length + 2) (g.unvisited onPath).length

/-- More steps than a search still takes. -/
def work (g : LinkedGraph) : (path onPath : List Nat) → List SearchLevel → Nat
  | _, _, [] => 0
  | path, onPath, ⟨todo, _⟩ :: levels =>
      todo.length * g.edgeCost onPath + 1 +
        g.work path.tail (onPath.filter fun n => path.head? != some n) levels

section Termination

variable {g : LinkedGraph} {n i : Nat} {node : LinkedNode} {path onPath todo : List Nat}
  {levels : List SearchLevel} {decided decides : Bool}

theorem length_unvisited_lt (known : g.nodes[n]? = some node) (new : n ∉ onPath) :
    (g.unvisited (n :: onPath)).length < (g.unvisited onPath).length := by
  have fewer : g.unvisited (n :: onPath) = (g.unvisited onPath).filter fun m =>
      !decide (m = n) := by
    simp [unvisited, List.filter_filter]
  rw [fewer, List.length_filter_lt_length_iff_exists]
  have bound := (List.getElem?_eq_some_iff.mp known).1
  exact ⟨n, by simp [unvisited, bound, new], by simp⟩

theorem edgeCost_enter (known : g.nodes[n]? = some node) (new : n ∉ onPath) :
    node.outEdges.length * g.edgeCost (n :: onPath) + 1 < g.edgeCost onPath := by
  have degree := (List.sublist_flatten_of_mem
    (List.mem_map_of_mem (f := (·.outEdges)) (List.mem_of_getElem? known))).length_le
  rw [edgeCost, edgeCost, Nat.pow_eq, Nat.pow_eq]
  generalize (g.nodes.map (·.outEdges)).flatten.length = most at degree
  have base : 0 < most + 2 := Nat.succ_pos _
  have cheaper := Nat.pow_le_pow_right base (length_unvisited_lt known new)
  have positive := Nat.pow_pos (n := (g.unvisited (n :: onPath)).length) base
  have spent := Nat.mul_le_mul_right ((most + 2) ^ (g.unvisited (n :: onPath)).length) degree
  rw [Nat.succ_eq_add_one, Nat.pow_succ, Nat.mul_add] at cheaper
  rw [Nat.mul_comm most] at spent
  omega

theorem work_next_lt : g.work path onPath (⟨todo, decided⟩ :: levels) <
    g.work path onPath (⟨i :: todo, decided⟩ :: levels) := by
  have positive : 0 < g.edgeCost onPath := Nat.pow_pos (Nat.succ_pos _)
  rw [work, work, List.length_cons, Nat.add_mul]
  omega

theorem onPath_leave (new : n ∉ onPath) :
    (n :: onPath).filter (fun m => (n :: path).head? != some m) = onPath := by
  rw [List.filter_cons_of_neg (by simp), List.filter_eq_self]
  intro m member
  simpa using (ne_of_mem_of_not_mem member new).symm

theorem work_enter_lt (known : g.nodes[n]? = some node) (new : n ∉ onPath) :
    g.work (n :: path) (n :: onPath) (⟨node.outEdges, decides⟩ :: ⟨todo, decided⟩ :: levels) <
      g.work path onPath (⟨i :: todo, decided⟩ :: levels) := by
  have spent := edgeCost_enter known new
  rw [work, onPath_leave new, List.tail_cons, work, work, List.length_cons, Nat.add_mul]
  omega

end Termination

/-- What a search finds from a state on, and whether it stopped at the limit. Fails where a node or
an edge is missing. -/
def search (g : LinkedGraph) (limit : Int) (s : PathSearch) : Option (List ExitPath × Bool) := do
  match h : s.levels with
  | [] => return (s.found, false)
  | ⟨[], decided⟩ :: levels => search g limit (s.leave decided levels)
  | ⟨i :: todo, decided⟩ :: levels =>
      let s' := { s with levels := ⟨todo, decided⟩ :: levels }
      let e ← g.edges[i]?
      if repeats : e.target ∈ s.onPath then search g limit s'
      else
        let condition ← g.condition? e
        match known : g.nodes[e.target]? with
        | none => none
        | some node =>
            if g.exits.contains e.target then
              let s' := s'.record e.target condition (node.exitKind.getD .returns)
              if limit ≤ s'.found.length then return (s'.found, true) else search g limit s'
            else search g limit (s'.enter e.target condition node.outEdges)
termination_by g.work s.path s.onPath s.levels
decreasing_by
  · rw [h]
    simp [work, PathSearch.leave]
  · exact h ▸ work_next_lt
  · exact h ▸ work_next_lt
  · exact h ▸ work_enter_lt known repeats

/-- The first paths from the entry to an exit in depth-first order, and whether the search stopped
at the limit. A limit below one counts as one. -/
def exitPaths (g : LinkedGraph) (limit : Int) : Option (List ExitPath × Bool) := do
  if g.nodes.isEmpty then return ([], false)
  let node ← g.nodes[g.entry]?
  g.search limit ⟨[], [g.entry], [g.entry], [], [⟨node.outEdges, false⟩]⟩

end LinkedGraph

namespace FlowGraph

def linked (g : FlowGraph) : LinkedGraph where
  entry := entry
  nodes := List.zipWith (fun node links => ⟨node.startLine, links.outEdges, links.exitKind⟩)
    g.nodes g.links.nodes
  edges := g.edges
  exits := g.exits

/-- The first paths from the entry to an exit in depth-first order, and whether the search stopped
at the limit. A graph in which a node is missing has none. -/
def exitPaths (g : FlowGraph) (limit : Int) : List ExitPath × Bool :=
  (g.linked.exitPaths limit).getD ([], false)

def maxExitPaths : Nat := 1000

end FlowGraph

end CodeAtlas
