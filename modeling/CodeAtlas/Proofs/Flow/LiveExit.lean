import CodeAtlas.Proofs.Flow.Degrees

/-!
The exit paths of a function lead to its live exits.

`reach` takes each node off its list once and puts the successors of a new one on it, so the edges
out of nodes not yet seen bound what is still to come (`reach_closed`). What it collects is closed
under successors, hence these are exactly the nodes that walks from the entry get to
(`mem_reachable`).

A walk is cut short to one that repeats no node (`Walk.shortened`). No edge leaves an exit of a
function, so such a walk to an exit is a route, and an enumeration of routes that was not cut off
has it.
-/

namespace CodeAtlas.Flow

open LinkedGraph List

variable {g : FlowGraph}

/-! ### Nodes that are reached -/

/-- Control can get to a node: a walk from the entry ends there. -/
def Reaches (g : FlowGraph) (n : Nat) : Prop :=
  ∃ walk, Walk g FlowGraph.entry walk ∧ walk.getLast? = some n

section Reach

variable {g : FlowGraph} {n : Nat}

theorem reaches_entry (g : FlowGraph) : Reaches g FlowGraph.entry :=
  ⟨[FlowGraph.entry], .stop _, rfl⟩

/-- Control gets from a node to its successors. -/
theorem Reaches.successor {m : Nat} (h : Reaches g n) (next : m ∈ g.successors n) :
    Reaches g m := by
  obtain ⟨walk, along, last⟩ := h
  exact ⟨walk ++ [m], along.snoc last next, by simp⟩

/-- What holds at the entry and at the successors of every node holds wherever control can get. -/
theorem Reaches.induction {p : Nat → Prop} (start : p FlowGraph.entry)
    (step : ∀ n, p n → ∀ m ∈ g.successors n, p m) (h : Reaches g n) : p n := by
  obtain ⟨walk, along, last⟩ := h
  generalize FlowGraph.entry = first at start along
  induction along with
  | stop k =>
    obtain rfl : k = n := by simpa using last
    exact start
  | @step k m walk next along ih =>
    refine ih ?_ (step k start m next)
    cases along <;> simpa using last

/-- A node has one successor for each edge that leaves it. -/
theorem length_successors (g : FlowGraph) (n : Nat) :
    (g.successors n).length = g.edges.countP (·.source == n) := by
  rw [FlowGraph.successors, length_map, FlowGraph.edgesFrom, countP_eq_length_filter]

/-- When a node is seen its edges are no longer to come. -/
theorem countP_unseen (g : FlowGraph) {seen : List Nat} (new : n ∉ seen) :
    g.edges.countP (fun e => !seen.contains e.source) =
      g.edges.countP (·.source == n) + g.edges.countP (fun e =>
        !(n :: seen).contains e.source) := by
  induction g.edges with
  | nil => rfl
  | cons e edges ih =>
    simp only [countP_cons, ih]
    by_cases same : e.source = n
    · simp [same, new]
      omega
    · simp [same]
      omega

/-- **What is collected is closed under successors**, if every successor of what is seen is seen or
on the list, and the fuel lasts for the list and the edges that may yet put nodes on it. -/
theorem reach_closed (fuel : Nat) : ∀ todo seen : List Nat,
    todo.length + g.edges.countP (fun e => !seen.contains e.source) ≤ fuel →
    (∀ n ∈ seen, ∀ m ∈ g.successors n, m ∈ seen ∨ m ∈ todo) →
    (∀ n, n ∈ seen ∨ n ∈ todo → n ∈ g.reach fuel todo seen) ∧
      ∀ n ∈ g.reach fuel todo seen, ∀ m ∈ g.successors n, m ∈ g.reach fuel todo seen := by
  induction fuel with
  | zero =>
    intro todo seen enough closed
    obtain rfl : todo = [] := length_eq_zero_iff.mp (by omega)
    simpa [FlowGraph.reach] using closed
  | succ fuel ih =>
    intro todo seen enough closed
    cases todo with
    | nil => simpa [FlowGraph.reach] using closed
    | cons n todo =>
      rw [FlowGraph.reach]
      by_cases old : n ∈ seen
      · have known : ∀ k, k ∈ seen ∨ k ∈ n :: todo → k ∈ seen ∨ k ∈ todo := by
          rintro k (inSeen | inTodo)
          · exact .inl inSeen
          · rcases mem_cons.mp inTodo with rfl | later
            · exact .inl old
            · exact .inr later
        rw [if_pos (by simpa using old)]
        rw [length_cons] at enough
        obtain ⟨kept, closed'⟩ := ih todo seen (by omega) fun k hk m hm =>
          known m (closed k hk m hm)
        exact ⟨fun k hk => kept k (known k hk), closed'⟩
      · have known : ∀ k, k ∈ seen ∨ k ∈ n :: todo → k ∈ n :: seen ∨
            k ∈ g.successors n ++ todo := by
          rintro k (inSeen | inTodo)
          · exact .inl (mem_cons_of_mem _ inSeen)
          · rcases mem_cons.mp inTodo with rfl | later
            · exact .inl mem_cons_self
            · exact .inr (mem_append_right _ later)
        rw [if_neg (by simpa using old)]
        rw [length_cons, countP_unseen g old] at enough
        have bound : (g.successors n ++ todo).length +
            g.edges.countP (fun e => !(n :: seen).contains e.source) ≤ fuel := by
          rw [length_append, length_successors]
          omega
        obtain ⟨kept, closed'⟩ := ih (g.successors n ++ todo) (n :: seen) bound fun k hk m hm => by
          rcases mem_cons.mp hk with rfl | hk
          · exact .inr (mem_append_left _ hm)
          · exact known m (closed k hk m hm)
        exact ⟨fun k hk => kept k (known k hk), closed'⟩

/-- Only nodes are collected that control gets to. By induction on the fuel. -/
theorem reaches_of_mem_reach (fuel : Nat) : ∀ todo seen : List Nat,
    (∀ n, n ∈ seen ∨ n ∈ todo → Reaches g n) → ∀ n ∈ g.reach fuel todo seen, Reaches g n := by
  induction fuel with
  | zero =>
    intro todo seen sound n hn
    exact sound n (.inl hn)
  | succ fuel ih =>
    intro todo seen sound
    cases todo with
    | nil => exact fun n hn => sound n (.inl hn)
    | cons first todo =>
      have reached : Reaches g first := sound first (.inr mem_cons_self)
      have others : ∀ n ∈ todo, Reaches g n := fun n hn => sound n (.inr (mem_cons_of_mem _ hn))
      rw [FlowGraph.reach]
      split
      · exact ih todo seen fun n hn => hn.elim (fun h => sound n (.inl h)) (others n)
      · refine ih _ _ fun n hn => ?_
        rcases hn with inSeen | inTodo
        · rcases mem_cons.mp inSeen with rfl | old
          · exact reached
          · exact sound n (.inl old)
        · rcases mem_append.mp inTodo with next | later
          · exact reached.successor next
          · exact others n later

/-- **The reachable nodes are those that walks from the entry get to.** -/
theorem mem_reachable (g : FlowGraph) (n : Nat) : n ∈ g.reachable ↔ Reaches g n := by
  constructor
  · refine reaches_of_mem_reach _ _ _ (fun m hm => ?_) n
    obtain rfl : m = FlowGraph.entry := by simpa using hm
    exact reaches_entry g
  · intro reached
    have few : g.edges.countP (fun e => !([] : List Nat).contains e.source) ≤ g.edges.length :=
      countP_le_length
    obtain ⟨kept, closed⟩ := reach_closed (g := g) (g.nodes.length + g.edges.length + 2)
      [FlowGraph.entry] []
      (by simp only [length_singleton]; omega) nofun
    exact reached.induction (kept _ (.inr (by simp))) closed

/-- Unreachable are the nodes that no walk from the entry gets to. -/
theorem mem_unreachable (g : FlowGraph) (n : Nat) :
    n ∈ g.unreachable ↔ n < g.nodes.length ∧ ¬ Reaches g n := by
  rw [← mem_reachable]
  simp [FlowGraph.unreachable]

end Reach

/-! ### Walks without detours -/

section Walks

variable {g : FlowGraph} {n m : Nat} {walk : List Nat}

section

variable (along : Walk g n walk)
include along

theorem Walk.from_mem (hm : m ∈ walk) :
    ∃ before after, walk = before ++ after ∧ Walk g m after := by
  induction along with
  | stop n =>
    obtain rfl := mem_singleton.mp hm
    exact ⟨[], [m], rfl, .stop m⟩
  | @step n k walk next along ih =>
    rcases mem_cons.mp hm with rfl | later
    · exact ⟨[], m :: walk, rfl, .step next along⟩
    · obtain ⟨before, after, rfl, rest⟩ := ih later
      exact ⟨n :: before, after, rfl, rest⟩

theorem Walk.ne_nil : walk ≠ [] := by
  cases along <;> simp

/-- **A walk can be cut short** so that it repeats no node. When it comes back to its first node,
what lies before that visit is left out. -/
theorem Walk.shortened :
    ∃ short, Walk g n short ∧ short.getLast? = walk.getLast? ∧ short.Nodup := by
  induction along with
  | stop n => exact ⟨[n], .stop n, rfl, by simp⟩
  | @step n k walk next along ih =>
    obtain ⟨short, rest, last, nodup⟩ := ih
    have last' : (n :: walk).getLast? = short.getLast? := by
      rw [last]
      cases along <;> simp
    by_cases again : n ∈ short
    · obtain ⟨before, after, rfl, back⟩ := rest.from_mem again
      refine ⟨after, back, ?_, (nodup_append.mp nodup).2.1⟩
      rw [last', getLast?_append_of_ne_nil _ back.ne_nil]
    · refine ⟨n :: short, .step next rest, ?_, nodup_cons.mpr ⟨again, nodup⟩⟩
      rw [last']
      cases rest <;> simp

theorem Walk.reaches (start : Reaches g n) : ∀ m ∈ walk, Reaches g m := by
  induction along with
  | stop n => simpa using start
  | @step n k walk next along ih => exact forall_mem_cons.mpr ⟨start, ih (start.successor next)⟩

/-- A node that a walk leaves has successors, so an exit can only be the last. -/
theorem Walk.exit_last (hm : m ∈ walk.dropLast) : g.successors m ≠ [] := by
  induction along with
  | stop n => simp at hm
  | @step n k walk next along ih =>
    rw [dropLast_cons_of_ne_nil along.ne_nil] at hm
    rcases mem_cons.mp hm with rfl | later
    · exact ne_nil_of_mem next
    · exact ih later

end

end Walks

/-! ### Live exits -/

section Exits

variable {g : FlowGraph}

/-- A walk to an exit that repeats no node is a route, if no edge leaves an exit. -/
theorem isRoute_of_walk (joins : Joins g) (stops : ∀ n ∈ g.exits, g.successors n = [])
    (starts : FlowGraph.entry ∉ g.exits) {walk : List Nat} (along : Walk g FlowGraph.entry walk)
    (nodup : walk.Nodup) {n : Nat} (last : walk.getLast? = some n) (exit : n ∈ g.exits) :
    ∃ r, g.linked.IsRoute r ∧ walk = FlowGraph.entry :: targets r.edges := by
  obtain ⟨picks, edges, follows, rfl⟩ := edgesAlong_of_walk joins along
  refine ⟨⟨picks, edges⟩, ⟨follows, nodup, ?_⟩, rfl⟩
  rcases eq_nil_or_concat edges with rfl | ⟨before, e, rfl⟩
  · obtain rfl : FlowGraph.entry = n := by simpa [targets] using last
    exact absurd exit starts
  · rw [concat_eq_append] at *
    have split : FlowGraph.entry :: targets (before ++ [e]) =
        (FlowGraph.entry :: targets before) ++ [e.target] := by simp [targets]
    refine ⟨before, e, rfl, ?_, fun e' he' isExit => ?_⟩
    · rw [split, getLast?_concat] at last
      exact Option.some.inj last ▸ exit
    · have inner : e'.target ∈ (FlowGraph.entry :: targets (before ++ [e])).dropLast := by
        rw [split, dropLast_concat]
        exact mem_cons_of_mem _ (mem_map.mpr ⟨e', he', rfl⟩)
      exact along.exit_last inner (stops _ isExit)

theorem exitNode_pathAlong {r : Route} (route : g.linked.IsRoute r) :
    (FlowGraph.entry :: targets r.edges).getLast? = some (g.linked.pathAlong r).exitNode ∧
      (g.linked.pathAlong r).exitNode ∈ g.exits := by
  obtain ⟨before, last, same, exit, -⟩ := route.ends
  have isLast : (g.linked.pathAlong r).exitNode = last.target := by
    simp [pathAlong, same, targets, getLastD_eq_getLast?, getLast?_cons]
  rw [isLast, same]
  exact ⟨by simp [targets, getLast?_cons], exit⟩

/-- The exits of some paths are the exits that control can get to, and control can get to all nodes
of the paths. -/
structure Covers (g : FlowGraph) (paths : List ExitPath) : Prop where
  exits : ∀ n, n ∈ paths.map (·.exitNode) ↔ n ∈ g.exits ∧ n ∉ g.unreachable
  nodes : ∀ path ∈ paths, ∀ n ∈ path.nodes, Reaches g n ∧ n ∈ g.reachable

/-- An enumeration of routes that was not cut off covers the live exits, if no edge leaves an
exit. -/
theorem exitPaths_cover (joins : Joins g) (stops : ∀ n ∈ g.exits, g.successors n = [])
    (starts : FlowGraph.entry ∉ g.exits) {limit : Int} (whole : (g.exitPaths limit).2 = false) :
    Covers g (g.exitPaths limit).1 := by
  have all : (g.exitPaths limit).1 = g.linked.routes.map g.linked.pathAlong := by
    rw [exitPaths_eq_routes joins] at whole ⊢
    rw [take_of_length_le]
    have := of_decide_eq_false whole
    omega
  have mem_iff := (routes_enumerates _ (linked_inRange joins)).mem_iff
  have along : ∀ r ∈ g.linked.routes, Walk g FlowGraph.entry (FlowGraph.entry :: targets r.edges) :=
    fun r hr => walk_of_edgesAlong joins ((mem_iff r).mp hr).follows
  rw [all]
  constructor
  · intro n
    rw [map_map, mem_map, mem_unreachable]
    constructor
    · rintro ⟨r, hr, rfl⟩
      obtain ⟨last, exit⟩ := exitNode_pathAlong ((mem_iff r).mp hr)
      exact ⟨exit, fun outside => outside.2 ⟨_, along r hr, last⟩⟩
    · rintro ⟨exit, live⟩
      have bound : n < g.nodes.length := by
        rw [FlowGraph.exits, joins.inStep.exits_eq] at exit
        exact mem_range.mp (mem_filter.mp exit).1
      obtain ⟨walk, from_entry, last⟩ : Reaches g n := by
        by_contra dead
        exact live ⟨bound, dead⟩
      obtain ⟨short, short_walk, same, nodup⟩ := from_entry.shortened
      obtain ⟨r, route, rfl⟩ :=
        isRoute_of_walk joins stops starts short_walk nodup (same.trans last) exit
      refine ⟨r, (mem_iff r).mpr route, ?_⟩
      have ends := (exitNode_pathAlong route).1
      exact Option.some.inj (ends.symm.trans (same.trans last))
  · intro path hpath n hn
    obtain ⟨r, hr, rfl⟩ := mem_map.mp hpath
    have reached := (along r hr).reaches (reaches_entry g) n hn
    exact ⟨reached, (mem_reachable g n).mpr reached⟩

end Exits

/-! ### The graph of a body -/

theorem Describes.entry_degree {f : FunctionText} {body : List Stmt} {sites : List Site}
    (describes : Describes f body sites g) : ∃ site, sites[0]? = some site ∧ site.degree = 1 := by
  obtain ⟨ending, -, steps⟩ := describes.steps_eq
  cases sites with
  | nil => cases steps
  | cons site sites =>
    refine ⟨site, rfl, ?_⟩
    obtain ⟨spot, degree⟩ := site
    cases spot with
    | single v | block first more => exact (Prod.mk.inj (cons.inj steps).1).2

/-- A node without stored edges has no successors. -/
theorem successors_eq_nil {n : Nat} (joins : Joins g) (nothing : g.outEdges n = []) :
    g.successors n = [] := by
  rw [eq_nil_iff_forall_not_mem]
  intro m next
  obtain ⟨e, he, source, -⟩ := mem_successors.mp next
  obtain ⟨i, edge⟩ := mem_iff_getElem?.mp he
  have out := (mem_outEdges joins n i).mpr ⟨e, edge, source⟩
  rw [nothing] at out
  cases out

/-- **Exit paths that were not cut off cover the live exits**, for any statement tree. -/
theorem graph_covers (f : FunctionText) (body : List Stmt) (limit : Int)
    (whole : ((f.graph body).exitPaths limit).2 = false) :
    Covers (f.graph body) ((f.graph body).exitPaths limit).1 := by
  have joins := graph_joins f body
  obtain ⟨sites, describes, exact⟩ := graph_exact f body
  refine exitPaths_cover joins (fun n exit => successors_eq_nil joins (exact.exit_out n exit))
    ?_ whole
  intro exit
  obtain ⟨site, found, one⟩ := describes.entry_degree
  have degree := exact.degree FlowGraph.entry site found
  rw [exact.exit_out _ exit, one] at degree
  cases degree

/-- The exit paths in the result for a function are those of its graph, up to the limit of the
program. -/
theorem ofEntry_exitPaths {file : SourceFile} {entry : Entry} {withDiagram : Bool}
    {flow : FunctionFlow} (made : FunctionFlow.ofEntry file entry withDiagram = .ok flow) :
    flow.graph.exitPaths FlowGraph.maxExitPaths = (flow.exitPaths, flow.exitPathsTruncated) := by
  rw [FunctionFlow.ofEntry] at made
  cases hparse : parseStatements file entry with
  | error e =>
    rw [hparse] at made
    cases made
  | ok parsed =>
    rw [hparse] at made
    cases made
    rfl

/-- **Exit paths cover the live exits.** In the graph of any statement tree, if the enumeration of
exit paths was not cut off, the exits of the paths are exactly the exits that are not unreachable,
and control can get to every node on the paths. The graph of an indexed function is that of the
statements parsed from its text. -/
theorem exitPaths_cover_live_exits :
    (∀ (f : FunctionText) (body : List Stmt) (limit : Int),
      ((f.graph body).exitPaths limit).2 = false →
        Covers (f.graph body) ((f.graph body).exitPaths limit).1) ∧
      ∀ (file : SourceFile) (entry : Entry) (withDiagram : Bool),
        match parseStatements file entry with
        | .error e => FunctionFlow.ofEntry file entry withDiagram = .error e
        | .ok (body, _) => ∃ flow, FunctionFlow.ofEntry file entry withDiagram = .ok flow ∧
            flow.graph = (FunctionText.ofEntry file entry).graph body ∧
            (flow.exitPathsTruncated = false → Covers flow.graph flow.exitPaths) := by
  refine ⟨graph_covers, fun file entry withDiagram => ?_⟩
  rcases ofEntry_spec file entry withDiagram
    with ⟨e, parse, failed⟩ | ⟨parsed, flow, parse, made, graph, -⟩
  · rw [parse]
    exact failed
  · rw [parse]
    refine ⟨flow, made, graph, fun whole => ?_⟩
    have paths := ofEntry_exitPaths made
    have covers := graph_covers (FunctionText.ofEntry file entry) parsed.1 FlowGraph.maxExitPaths
    rw [← graph, paths] at covers
    exact covers whole

/-- A function with a branch that raises, a return that control cannot get to, and a statement
behind the branch. -/
def deadReturn : FunctionText × List Stmt :=
  (⟨⟨"if a \x7b panic!(); return; \x7d b();".toList, ⟨[0]⟩⟩, "f", 0, 30⟩,
    [.branch ⟨0, 26⟩ "a" [.leave .raises ⟨7, 16⟩, .leave .returns ⟨17, 24⟩] [], .simple ⟨27, 31⟩])

/-- The paths lead to the panic and to the end, and not to the return that control cannot get to. -/
theorem exitPaths_cover_live_exits_deadReturn :
    let g := deadReturn.1.graph deadReturn.2
    (g.exitPaths FlowGraph.maxExitPaths).2 = false ∧
      Covers g (g.exitPaths FlowGraph.maxExitPaths).1 := by
  intro g
  have whole : (g.exitPaths FlowGraph.maxExitPaths).2 = false := by
    have joins := graph_joins deadReturn.1 deadReturn.2
    have exits : g.linked =
        ⟨FlowGraph.entry, g.linked.nodes, g.edges,
          (range g.nodes.length).filter (isExitAt g.nodes)⟩ :=
      congrArg (LinkedGraph.mk _ _ _) joins.inStep.exits_eq
    rw [exitPaths_eq_routes joins, exits]
    decide +kernel
  exact ⟨whole, exitPaths_cover_live_exits.1 _ _ _ whole⟩

end CodeAtlas.Flow
