import CodeAtlas.Proofs.Flow.ExitRoute
import CodeAtlas.Proofs.Flow.Walks

/-!
The links of a flow graph.

While a graph is made its links are written down node by node and edge by edge. They stay in step
with the nodes and edges: a new node and a new edge keep them so (`InStep.addNode`,
`InStep.addEdges`), therefore everything that lowering does keeps them so (`Builds.inStep`), and the
finished graph has them so (`graph_joins`).

The edges along a route are a walk through the graph, and each walk follows a sequence of edges. So
the exit paths of a flow graph are walks that repeat no node (`exitPaths_eq_routes`,
`walk_of_edgesAlong`).
-/

namespace CodeAtlas.Flow

open LinkedGraph List

/-! ### Links in step with nodes and edges -/

/-- The numbers of the edges from a node, in order. -/
def numbersFrom (edges : List FlowEdge) (n : Nat) : List Nat :=
  (edges.zipIdx.filter (·.1.source == n)).map (·.2)

/-- A number is listed for the node that its edge leaves. -/
theorem mem_numbersFrom {edges : List FlowEdge} {n i : Nat} :
    i ∈ numbersFrom edges n ↔ ∃ e, edges[i]? = some e ∧ e.source = n := by
  simp [numbersFrom, mem_zipIdx_iff_getElem?]

/-- A new edge has the last number, at the node that it leaves. -/
theorem numbersFrom_append (edges : List FlowEdge) (e : FlowEdge) (n : Nat) :
    numbersFrom (edges ++ [e]) n = numbersFrom edges n ++ if e.source = n
      then [edges.length] else [] := by
  simp only [numbersFrom, zipIdx_append, filter_append, map_append, Nat.zero_add]
  by_cases here : e.source = n <;> simp [here]

/-- A node that no edge leaves has no numbers. -/
theorem numbersFrom_eq_nil {edges : List FlowEdge} {n : Nat} (apart : ∀ e ∈ edges, e.source ≠ n) :
    numbersFrom edges n = [] := by
  rw [eq_nil_iff_forall_not_mem]
  intro i mem
  obtain ⟨e, edge, source⟩ := mem_numbersFrom.mp mem
  exact apart e (mem_of_getElem? edge) source

def isExitAt (nodes : List FlowNode) (n : Nat) : Bool :=
  nodes[n]?.any (·.kind.isExit)

/-- The links say of every node its own number, the numbers of the edges that leave it and how it
leaves the function; of every edge its own number; and which nodes are exits, in order. -/
structure InStep (g : FlowGraph) : Prop where
  nodes_eq : ∀ n, g.links.nodes[n]? =
    g.nodes[n]?.map fun node => (⟨n, numbersFrom g.edges n, exitKindOf node.kind⟩ : NodeLinks)
  edgeIds_eq : g.links.edgeIds = range g.edges.length
  exits_eq : g.links.exits = (range g.nodes.length).filter (isExitAt g.nodes)

namespace InStep

variable {nodes : List FlowNode} {edges : List FlowEdge} {links : FlowLinks}

theorem length_eq {g : FlowGraph} (step : InStep g) : g.links.nodes.length = g.nodes.length := by
  apply Nat.le_antisymm
  · rw [← List.getElem?_eq_none_iff, step.nodes_eq, getElem?_eq_none (Nat.le_refl _)]
    rfl
  · rw [← List.getElem?_eq_none_iff, ← Option.map_eq_none_iff, ← step.nodes_eq,
      getElem?_eq_none (Nat.le_refl _)]

/-- A new node has no edges yet; if it is an exit it is the last of them. -/
theorem addNode (step : InStep ⟨nodes, edges, links⟩)
    (inside : ∀ e ∈ edges, e.source < nodes.length) (node : FlowNode) :
    InStep ⟨nodes ++ [node], edges,
      links.addNode nodes.length node.kind (exitKindOf node.kind)⟩ := by
  have count : links.nodes.length = nodes.length := step.length_eq
  refine ⟨?_, step.edgeIds_eq, ?_⟩
  · intro n
    have old : links.nodes[n]? = _ := step.nodes_eq n
    rcases Nat.lt_trichotomy n nodes.length with before | rfl | after
    · rw [FlowLinks.addNode, getElem?_append_left (count ▸ before),
        getElem?_append_left before, old]
    · -- No edge can leave the node that is new.
      have none : numbersFrom edges nodes.length = [] :=
        numbersFrom_eq_nil fun e he => Nat.ne_of_lt (inside e he)
      have made : (links.nodes ++ [⟨nodes.length, [], exitKindOf node.kind⟩])[nodes.length]? =
          some ⟨nodes.length, [], exitKindOf node.kind⟩ := by
        rw [← count, getElem?_concat_length]
      rw [getElem?_concat_length, Option.map_some, none]
      exact made
    · have outside : (links.nodes ++ [(⟨nodes.length, [], exitKindOf node.kind⟩ : NodeLinks)])[n]? =
          none :=
        getElem?_eq_none (by rw [length_append, count, length_singleton]; exact after)
      have nothing : (nodes ++ [node])[n]? = none :=
        getElem?_eq_none (by rw [length_append, length_singleton]; exact after)
      rw [nothing]
      exact outside
  · have old : links.exits = _ := step.exits_eq
    have kept : (range nodes.length).filter (isExitAt (nodes ++ [node])) =
        (range nodes.length).filter (isExitAt nodes) := by
      refine filter_congr fun n mem => ?_
      rw [isExitAt, isExitAt, getElem?_append_left (mem_range.mp mem)]
    have last : isExitAt (nodes ++ [node]) nodes.length = node.kind.isExit := by
      simp [isExitAt]
    simp only [FlowLinks.addNode, old, length_append, length_singleton, range_succ,
      filter_append, kept]
    cases isExit : node.kind.isExit <;> simp [last, isExit]

/-- A new edge puts its number at the end of the list of its source. -/
theorem addEdge (step : InStep ⟨nodes, edges, links⟩) (e : FlowEdge) :
    InStep ⟨nodes, edges ++ [e], links.addEdge edges.length e.source⟩ := by
  refine ⟨?_, ?_, step.exits_eq⟩
  · intro n
    have old : links.nodes[n]? = _ := step.nodes_eq n
    simp only [FlowLinks.addEdge, getElem?_modify, old, Option.map_eq_map, Option.map_map,
      numbersFrom_append]
    congr 1
    funext node
    by_cases here : e.source = n <;> simp [here]
  · have old : links.edgeIds = _ := step.edgeIds_eq
    simp only [FlowLinks.addEdge, old, length_append, length_singleton, range_succ]

/-- New edges are noted one after the other. By induction on them, with `addEdge` for each. -/
theorem addEdges (step : InStep ⟨nodes, edges, links⟩) (new : List FlowEdge) :
    InStep ⟨nodes, edges ++ new, links.addEdges edges.length new⟩ := by
  induction new generalizing edges links with
  | nil =>
    rw [append_nil]
    exact step
  | cons e new ih =>
    have added := ih (step.addEdge e)
    rwa [append_assoc, length_append, length_singleton] at added

/-- What the links say of a node they read off its kind alone. -/
theorem modify (step : InStep ⟨nodes, edges, links⟩) (n : Nat) (f : FlowNode → FlowNode)
    (kind : ∀ node, (f node).kind = node.kind) : InStep ⟨nodes.modify n f, edges, links⟩ := by
  have kinds (m : Nat) : (nodes.modify n f)[m]?.map (·.kind) = nodes[m]?.map (·.kind) := by
    rw [getElem?_modify]
    split <;> simp [Function.comp_def, kind]
  have same : isExitAt (nodes.modify n f) = isExitAt nodes := by
    funext m
    have exits := congrArg (Option.any NodeKind.isExit) (kinds m)
    rwa [Option.any_map, Option.any_map] at exits
  refine ⟨?_, step.edgeIds_eq, ?_⟩
  · intro m
    have old : links.nodes[m]? = _ := step.nodes_eq m
    have links := congrArg (Option.map fun kind =>
      (⟨m, numbersFrom edges m, exitKindOf kind⟩ : NodeLinks)) (kinds m)
    rw [Option.map_map, Option.map_map] at links
    exact old.trans links.symm
  · have old : links.exits = _ := step.exits_eq
    simp only [old, length_modify, same]

end InStep

/-- **The links stay in step**, by induction over the rules of the construction. A rule that makes a
node finds no edge out of it, because edges join nodes that are there. -/
theorem Builds.inStep {f : FunctionText} {heads : List Nat} {a b : Stage} (h : Builds f heads a b)
    (start : a.Within f heads) (step : InStep ⟨a.state.nodes, a.state.edges, a.state.links⟩) :
    InStep ⟨b.state.nodes, b.state.edges, b.state.links⟩ := by
  have newNode {sites : List Site} {s : LowerState} {ends : Multiset PendingEdge}
      (sound : Stage.Sound f ⟨sites, s, ends⟩)
      (step : InStep ⟨s.nodes, s.edges, s.links⟩) (kind : NodeKind) (span : Span) (label : String)
      (pending : List PendingEdge) :
      let made := joined f.env s kind span label pending
      InStep ⟨made.nodes, made.edges, made.links⟩ := by
    have count : s.nodes.length = sites.length := sound.nodes_length
    exact (step.addNode (fun e he => count ▸ (sound.edges_lt e he).1)
      (nodeAt f.env kind span label)).addEdges _
  induction h with
  | refl => exact step
  | join built _ _ _ ih => exact newNode (built.within start).sound (ih start step) ..
  | extend span _ ih => exact (ih start step).modify _ _ fun _ => rfl
  | adjust s' _ nodes edges links _ ih =>
    rw [nodes, edges, links]
    exact ih start step
  | back _ _ ih => exact (ih start step).addEdges _
  | again built _ _ _ ih => exact (newNode (built.within start).sound (ih start step) ..).addEdges _
  | loop built opens plain _ ih body =>
    have before := built.within start
    exact body (before.enterLoop opens plain) (newNode before.sound (ih start step) ..)

theorem inStep_start (f : FunctionText) :
    InStep ⟨(entered f).nodes, (entered f).edges, (entered f).links⟩ := by
  have empty : InStep ⟨[], [], {}⟩ := ⟨fun n => by simp, rfl, rfl⟩
  exact empty.addNode nofun (nodeAt f.env .entry ⟨f.first, f.first + 1⟩ f.name)

/-- Exits are noted in the order of their numbers, so sorting them changes nothing. -/
theorem InStep.sorted {g : FlowGraph} (step : InStep g) : g.links.sorted = g.links := by
  have ordered : g.links.exits.Pairwise (· < ·) := step.exits_eq ▸ pairwise_lt_range.filter _
  have same : sortWith compare g.links.exits = g.links.exits := by
    refine mergeSort_of_pairwise (ordered.imp fun {a b} less => ?_)
    rw [Nat.isLE_compare]
    exact Nat.le_of_lt less
  rw [FlowLinks.sorted, same]

/-- Edges join nodes that are there, and the links are in step. -/
structure Joins (g : FlowGraph) : Prop where
  edges_lt : ∀ e ∈ g.edges, e.source < g.nodes.length ∧ e.target < g.nodes.length
  inStep : InStep g

/-- **In every flow graph edges join its nodes and the links are in step.** -/
theorem graph_joins (f : FunctionText) (body : List Stmt) : Joins (f.graph body) := by
  obtain ⟨sites, s, builds, graph, -⟩ := graph_history f body
  have step := builds.inStep (Stage.start_within f) (inStep_start f)
  have sound := (builds.within (Stage.start_within f)).sound
  have count : s.nodes.length = sites.length := sound.nodes_length
  have same : s.links.sorted = s.links := step.sorted
  rw [graph, LowerState.graph, same]
  exact ⟨fun e he => count ▸ sound.edges_lt e he, step⟩

/-! ### Routes and walks -/

section Links

variable {g : FlowGraph} {n : Nat}

section

variable (joins : Joins g)
include joins

/-- What is stored for a node are the numbers of the edges that leave it. -/
theorem outEdges_eq (n : Nat) : g.outEdges n = numbersFrom g.edges n := by
  rw [FlowGraph.outEdges, joins.inStep.nodes_eq]
  cases found : g.nodes[n]? with
  | some node => rfl
  | none =>
    refine (numbersFrom_eq_nil fun e he => ?_).symm
    have outside := List.getElem?_eq_none_iff.mp found
    exact Nat.ne_of_lt (Nat.lt_of_lt_of_le (joins.edges_lt e he).1 outside)

/-- A stored number is that of an edge from the node, and each of these is stored. -/
theorem mem_outEdges (n i : Nat) : i ∈ g.outEdges n ↔ ∃ e, g.edges[i]? = some e ∧ e.source = n := by
  rw [outEdges_eq joins, mem_numbersFrom]

/-- The stored exits are the nodes of that kind. -/
theorem mem_exits (n : Nat) : n ∈ g.exits ↔ isExitAt g.nodes n = true := by
  rw [FlowGraph.exits, joins.inStep.exits_eq, mem_filter, mem_range]
  refine ⟨And.right, fun exit => ⟨?_, exit⟩⟩
  by_contra outside
  rw [isExitAt, getElem?_eq_none (Nat.le_of_not_lt outside)] at exit
  cases exit

theorem linked_nodes_length : g.linked.nodes.length = g.nodes.length := by
  simp [FlowGraph.linked, joins.inStep.length_eq]

/-- The search for exit paths reads the stored numbers. -/
theorem linked_outEdges (n : Nat) : g.linked.outEdges n = g.outEdges n := by
  have stored := joins.inStep.nodes_eq n
  cases found : g.nodes[n]? with
  | none | some node =>
    rw [found] at stored
    simp [LinkedGraph.outEdges, FlowGraph.linked, FlowGraph.outEdges,
      getElem?_zipWith, found, stored]

theorem mem_linked_outEdges {i : Nat} :
    i ∈ g.linked.outEdges n ↔ ∃ e, g.edges[i]? = some e ∧ e.source = n := by
  rw [linked_outEdges joins, mem_outEdges joins]

/-- In a flow graph the search meets no number out of range. -/
theorem linked_inRange : g.linked.InRange := by
  refine ⟨?_, ?_, ?_⟩
  · rw [linked_nodes_length joins]
    cases hnodes : g.nodes with
    | nil => exact .inl (by simp [FlowGraph.linked, hnodes])
    | cons node nodes => exact .inr (by simp [FlowGraph.linked, FlowGraph.entry])
  · intro node hnode i hi
    obtain ⟨m, found⟩ := mem_iff_getElem?.mp hnode
    have out : i ∈ g.linked.outEdges m := by
      rw [LinkedGraph.outEdges, found]
      exact hi
    obtain ⟨e, edge, -⟩ := (mem_linked_outEdges joins).mp out
    exact (List.getElem?_eq_some_iff.mp edge).1
  · rw [linked_nodes_length joins]
    exact joins.edges_lt

/-- The exit paths of a flow graph are its first routes. -/
theorem exitPaths_eq_routes (limit : Int) : g.exitPaths limit =
      ((g.linked.routes.take (max 1 limit.toNat)).map g.linked.pathAlong,
        decide (max 1 limit.toNat ≤ g.linked.routes.length)) := by
  rw [FlowGraph.exitPaths, exitPaths_eq _ (linked_inRange joins)]
  rfl

theorem mem_exitPaths {limit : Int} {path : ExitPath} (mem : path ∈ (g.exitPaths limit).1) :
    ∃ r, g.linked.IsRoute r ∧ path = g.linked.pathAlong r := by
  rw [exitPaths_eq_routes joins] at mem
  obtain ⟨r, hr, rfl⟩ := mem_map.mp mem
  exact ⟨r, ((routes_enumerates _ (linked_inRange joins)).mem_iff r).mp (mem_of_mem_take hr), rfl⟩

/-- The targets of the edges along a route are a walk. -/
theorem walk_of_edgesAlong {picks : List Nat} {edges : List FlowEdge}
    (follows : g.linked.edgesAlong n picks = some edges) : Walk g n (n :: targets edges) := by
  induction picks generalizing n edges with
  | nil =>
    obtain rfl : [] = edges := Option.some.inj follows
    exact .stop n
  | cons pick picks ih =>
    obtain ⟨i, e, rest, out, edge, along, rfl⟩ := edgesAlong_cons.mp follows
    obtain ⟨e', edge', source⟩ := (mem_linked_outEdges joins).mp (mem_of_getElem? out)
    obtain rfl : e' = e := Option.some.inj (edge'.symm.trans edge)
    exact .step (mem_successors.mpr ⟨e', mem_of_getElem? edge', source, rfl⟩) (ih along)

/-- Each walk follows edges that the nodes list. -/
theorem edgesAlong_of_walk {walk : List Nat} (along : Walk g n walk) :
    ∃ picks edges, g.linked.edgesAlong n picks = some edges ∧ walk = n :: targets edges := by
  induction along with
  | stop n => exact ⟨[], [], rfl, rfl⟩
  | @step n m walk next along ih =>
    obtain ⟨picks, edges, follows, rfl⟩ := ih
    obtain ⟨e, he, source, rfl⟩ := mem_successors.mp next
    obtain ⟨i, edge⟩ := mem_iff_getElem?.mp he
    obtain ⟨pick, out⟩ := mem_iff_getElem?.mp ((mem_linked_outEdges joins).mpr ⟨e, edge, source⟩)
    exact ⟨pick :: picks, e :: edges,
      edgesAlong_cons.mpr ⟨i, e, edges, out, edge, follows, rfl⟩, rfl⟩

end

end Links

end CodeAtlas.Flow
