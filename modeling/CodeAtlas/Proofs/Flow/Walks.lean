import CodeAtlas.Flow.Build
import CodeAtlas.Proofs.Flow.Lowering

/-!
The walks through a flow graph are the runs of the function.

A graph runs as a body (`RunsAs`) when the visits along its walks from the entry, and their
beginnings, are exactly what executions of the body visit. Once nothing is owed any more, balanced
books say so (`Balanced.arrive_iff`): a walk spells out which edges a run follows. `graph_runsAs` is
the result for any statement tree, and `ofEntry_spec` the one for the graph of an indexed function.
-/

namespace CodeAtlas.Flow

open List

/-- A walk through a graph that starts at the given node and goes from successor to successor. -/
inductive Walk (g : FlowGraph) : Nat → List Nat → Prop
  | stop (n : Nat) : Walk g n [n]
  | step {n m : Nat} {walk : List Nat} : m ∈ g.successors n → Walk g m walk → Walk g n (n :: walk)

def visitsAlong (spots : List Spot) (walk : List Nat) : List Visit :=
  walk.flatMap fun n => (spots[n]?.map Spot.visits).getD []

/-- The graph has one node for each spot, its edges stay inside the graph, and its walks from the
entry are the executions of the body. Executions may also stop within the visits of a block. -/
structure RunsAs (f : FunctionText) (spots : List Spot) (g : FlowGraph) (body : List Stmt) :
    Prop where
  nodes_eq : g.nodes = spots.map (Spot.node f)
  edges_lt : ∀ e ∈ g.edges, e.source < g.nodes.length ∧ e.target < g.nodes.length
  executes_iff : ∀ trace, Executes (.start body) trace ↔
    ∃ walk, Walk g FlowGraph.entry walk ∧ trace <+: visitsAlong spots walk

/-- The successors of a node are the ends of its edges. -/
theorem mem_successors {g : FlowGraph} {n m : Nat} :
    m ∈ g.successors n ↔ ∃ e ∈ g.edges, e.source = n ∧ e.target = m := by
  simp [FlowGraph.successors, FlowGraph.edgesFrom, and_assoc]

section Settled

variable {f : FunctionText} {points : List Point} {s : LowerState} {n : Nat} {p : Point}

/-- Along a walk the visits of its nodes follow each other. -/
theorem visitsAlong_cons (hp : points[n]? = some p) (walk : List Nat) :
    visitsAlong (points.map Point.spot) (n :: walk) = p.spot.visits ++
      visitsAlong (points.map Point.spot) walk := by
  simp [visitsAlong, hp]

section

variable (h : Balanced f points s 0)
include h

/-- When nothing is owed, runs go on along edges. -/
theorem Balanced.after_iff_follows (hp : points[n]? = some p) (trace : List Visit) :
    p.after trace ↔ trace = [] ∨ Follows s.edges points n trace := by
  have nothing : ¬ Owed 0 n trace := not_owed fun d hd => absurd hd (Multiset.notMem_zero d)
  rw [h.after_iff n p hp trace]
  simp only [nothing, or_false]

/-- What is visited along a walk is a run that arrives at its first node. -/
theorem Balanced.arrive_of_walk {walk : List Nat} (along : Walk s.graph n walk) :
    n < points.length → ∀ trace, trace <+: visitsAlong (points.map Point.spot) walk →
      arrive points n trace := by
  induction along with
  | stop n =>
    intro bound trace before
    have hp : points[n]? = some points[n] := getElem?_eq_getElem bound
    rw [visitsAlong_cons hp, visitsAlong, flatMap_nil, append_nil] at before
    exact ⟨points[n], hp, Or.inl before⟩
  | @step n m walk next along ih =>
    intro bound trace before
    have hp : points[n]? = some points[n] := getElem?_eq_getElem bound
    rw [visitsAlong_cons hp] at before
    obtain ⟨e, he, source, rfl⟩ := mem_successors.mp next
    refine ⟨points[n], hp, ?_⟩
    rcases prefix_or_prefix_of_prefix before (prefix_append _ _) with inside | ⟨rest, rfl⟩
    · exact Or.inl inside
    · have goesOn := ih (h.edges_lt e he).2 rest ((prefix_append_right_inj _).mp before)
      exact Or.inr ⟨rest, rfl, (h.after_iff_follows hp rest).mpr (Or.inr ⟨e, he, source, goesOn⟩)⟩

/-- A run that arrives at a node is visited along a walk. The walk is found one node at a time;
every node makes at least one visit, so the rest of the run gets shorter. -/
theorem Balanced.walk_of_arrive (trace : List Visit) : ∀ n, arrive points n trace →
      ∃ walk, Walk s.graph n walk ∧ trace <+: visitsAlong (points.map Point.spot) walk := by
  induction hlen : trace.length using Nat.strongRecOn generalizing trace with
  | ind len ih =>
    rintro n ⟨p, hp, inside | ⟨rest, rfl, goesOn⟩⟩
    · refine ⟨[n], .stop n, ?_⟩
      rw [visitsAlong_cons hp]
      exact inside.trans (prefix_append _ _)
    · rcases (h.after_iff_follows hp rest).mp goesOn with rfl | ⟨e, he, source, arrives⟩
      · refine ⟨[n], .stop n, ?_⟩
        rw [visitsAlong_cons hp, append_nil]
        exact prefix_append _ _
      · have shorter : rest.length < len := by
          have := length_pos_iff.mpr p.spot.visits_ne_nil
          rw [← hlen, length_append]
          omega
        obtain ⟨walk, along, before⟩ := ih _ shorter rest rfl e.target arrives
        refine ⟨n :: walk, .step (mem_successors.mpr ⟨e, he, source, rfl⟩) along, ?_⟩
        rw [visitsAlong_cons hp]
        exact (prefix_append_right_inj _).mpr before

/-- **When nothing is owed, runs are walks.** -/
theorem Balanced.arrive_iff (bound : n < points.length) (trace : List Visit) :
    arrive points n trace ↔
      ∃ walk, Walk s.graph n walk ∧ trace <+: visitsAlong (points.map Point.spot) walk := by
  constructor
  · exact h.walk_of_arrive trace n
  · rintro ⟨walk, along, before⟩
    exact h.arrive_of_walk along bound trace before

end

end Settled

/-! ### The graph of a body -/

def FunctionText.graph (f : FunctionText) (body : List Stmt) : FlowGraph :=
  (lowerBody f.env f.name f.first f.last body).1

def entered (f : FunctionText) : LowerState :=
  joined f.env {} .entry ⟨f.first, f.first + 1⟩ f.name []

def loweredBody (f : FunctionText) (body : List Stmt) : List PendingEdge × LowerState :=
  lowerStmts f.env [] body [⟨FlowGraph.entry, .fallthrough, none⟩] (entered f)

/-- The graph of a body: its statements are lowered behind the entry, and an end is added if control
gets there. -/
theorem graph_eq (f : FunctionText) (body : List Stmt) :
    let (pending, s) := loweredBody f body
    let s' := if pending.isEmpty then s
      else joined f.env s (.exit .returns) ⟨f.last, f.last + 1⟩ "end" pending
    f.graph body = s'.graph := by
  have run : f.graph body =
      let s' := (if !(loweredBody f body).1.isEmpty then
          (do
            let _ ← Lower.join f.env (.exit .returns) ⟨f.last, f.last + 1⟩ "end"
                (loweredBody f body).1
              (some .returns))
        else pure () : Lower Unit) (loweredBody f body).2
      s'.2.graph := rfl
  rw [run]
  cases hempty : (loweredBody f body).1.isEmpty with
  | true | false =>
    simp only [hempty]
    rfl

def Stage.start (f : FunctionText) : Stage :=
  ⟨[⟨.single .enter, 1⟩], entered f, {⟨FlowGraph.entry, .fallthrough, none⟩}⟩

/-- The entry with its one open end is a stage outside of all loops. -/
theorem Stage.start_within (f : FunctionText) : (Stage.start f).Within f [] := by
  refine ⟨⟨rfl, nofun, ?_, nofun⟩, nofun, nofun⟩
  intro p hp
  rw [Multiset.mem_singleton.mp hp]
  exact ⟨by simp, ⟨.single .enter, 1⟩, rfl, rfl⟩

def Books.start (f : FunctionText) (body : List Stmt) : Books :=
  ⟨[⟨.single .enter, 1⟩], [⟨.single .enter, Executes (.run (frames body))⟩], entered f,
    owe [⟨FlowGraph.entry, .fallthrough, none⟩] (.run (frames body ++ []))⟩

/-- Behind the entry the body may be lowered. -/
theorem Books.start_ready (f : FunctionText) (body : List Stmt) :
    Ready f [] [] 0 (Books.start f body) := by
  have empty : Balanced f [] {} (owe [] (.start body) + 0) :=
    ⟨rfl, nofun, fun d hd => absurd hd (Multiset.notMem_zero d), nofun, nofun⟩
  have balanced :=
    empty.visit [(⟨FlowGraph.entry, .fallthrough, none⟩, Executes (.run (frames body)))]
    (v := .enter) rfl (by simp) (executes_start body) (by simp [FlowGraph.entry])
      (by simp [executes_or_nil])
  refine ⟨Stage.start_within f, .nil, nofun, ?_⟩
  rw [Books.start, append_nil]
  exact balanced

/-- **How the graph of a body comes about.** From the entry on its statements are lowered, and the
end of the body gets a node if control can get there. No break is left over, since there is no loop
or choice around the body, so nothing is owed any more. -/
theorem graph_built (f : FunctionText) (body : List Stmt) :
    ∃ sites points s, ∃ ending ∈ [[], [(Visit.finish, 0)]], f.graph body = s.graph ∧
      Parks f [] 0 [] 0 (censusAll [] body ++ ending) (jumpsInAll [] body) (Books.start f body)
        s 0 sites points [] := by
  have settled : ∃ s, ∃ ending ∈ [[], [(Visit.finish, 0)]], f.graph body = s.graph ∧
      Grew f [] 0 [] 0 (censusAll [] body ++ ending) (jumpsInAll [] body)
        (Books.start f body) s 0 := by
    have lowered : Grew f [] 0 [] 0 (censusAll [] body) (jumpsInAll [] body) (Books.start f body)
        (loweredBody f body).2 (owe (loweredBody f body).1 (.run [])) :=
      lowers_stmts f body [] [] _ (Books.start_ready f body)
    have graph := graph_eq f body
    generalize loweredBody f body = result at lowered graph
    obtain ⟨pending, s⟩ := result
    cases pending with
    | nil => exact ⟨s, [], by simp, graph, by simpa using lowered⟩
    | cons p rest =>
      have finish : Lowers f (fun s =>
          ([], joined f.env s (.exit .returns) ⟨f.last, f.last + 1⟩ "end" (p :: rest)))
          [] [] (owe (p :: rest) (.run [])) [(.finish, 0)] [] :=
        lowers_exit rfl (by simp) rfl executes_finish fun _ => executes_over
      have ended := lowered.andThen (Books.start_ready f body) finish 0 (add_zero _).symm ⟨[], rfl⟩
      rw [append_nil] at ended
      exact ⟨_, [(.finish, 0)], by simp, graph, ended⟩
  obtain ⟨s, ending, isEnding, graph, sites, points, parked, built⟩ := settled
  obtain rfl : parked = [] :=
    eq_nil_iff_forall_not_mem.mpr fun b hb => Nat.not_lt_zero _ (built.parked_lt b hb)
  exact ⟨sites, points, s, ending, isEnding, graph, built⟩

/-- Balanced books in which the entry is the entry and nothing is owed describe a graph that runs as
the body. -/
theorem Balanced.runsAs {f : FunctionText} {points : List Point} {s : LowerState} {body : List Stmt}
    (h : Balanced f points s 0)
    (grows : Grows [⟨.single .enter, Executes (.run (frames body))⟩] points) :
    RunsAs f (points.map Point.spot) s.graph body := by
  have arrives : arrive points FlowGraph.entry = Executes (.start body) := by
    rw [grows.2 FlowGraph.entry Nat.zero_lt_one, arrive_of_getElem? rfl,
      arrivals_single (executes_nil _), executes_start]
  refine ⟨by rw [map_map]; exact h.nodes_eq, ?_, ?_⟩
  · intro e he
    have count : s.graph.nodes.length = points.length := h.nodes_length
    rw [count]
    exact h.edges_lt e he
  · intro trace
    rw [← arrives]
    exact h.arrive_iff grows.1 trace

/-- **The books of a finished graph.** Nothing is owed any more, and the jumps of the body have
their nodes. -/
theorem graph_books (f : FunctionText) (body : List Stmt) :
    ∃ points s, GrowsBy (jumpsInAll [] body)
    [⟨.single .enter, Executes (.run (frames body))⟩] points ∧
      Balanced f points s 0 ∧ f.graph body = s.graph := by
  obtain ⟨_, points, s, _, _, graph, built⟩ := graph_built f body
  exact ⟨points, s, built.grows, built.balanced, graph⟩

/-- **The walks through the graph of a body are its executions**, for any statement tree. -/
theorem graph_runsAs (f : FunctionText) (body : List Stmt) :
    ∃ spots, RunsAs f spots (f.graph body) body := by
  obtain ⟨points, s, grows, balanced, graph⟩ := graph_books f body
  exact ⟨_, graph ▸ balanced.runsAs grows.grows⟩

/-- The sites are what the nodes of the graph of a body stand for: the entry, the statements of the
body, and the end of the body if control can get there. -/
structure Describes (f : FunctionText) (body : List Stmt) (sites : List Site) (g : FlowGraph) :
    Prop where
  nodes_eq : g.nodes = sites.map (·.spot.node f)
  steps_eq : ∃ ending ∈ [[], [(Visit.finish, 0)]],
    stepsOf sites = (.enter, 1) :: censusAll [] body ++ ending

/-- **Every graph is built by the rules**, from the entry on and with no open ends at last, and its
sites are those of the census. -/
theorem graph_history (f : FunctionText) (body : List Stmt) :
    ∃ sites s, Builds f [] (Stage.start f) ⟨sites, s, 0⟩ ∧ f.graph body = s.graph ∧
      Describes f body sites (f.graph body) := by
  obtain ⟨sites, _, s, ending, isEnding, graph, built⟩ := graph_built f body
  have builds : Builds f [] (Stage.start f) ⟨sites, s, 0⟩ := built.builds
  refine ⟨sites, s, builds, graph, ?_, ending, isEnding, built.steps_eq⟩
  rw [graph]
  exact (builds.within (Stage.start_within f)).sound.nodes_eq

/-! ### The graph of an indexed function -/

def FunctionText.ofEntry (file : SourceFile) (entry : Entry) : FunctionText where
  env := ⟨file.text, LineMap.ofText file.text⟩
  name := entry.name
  first := entry.declOffset
  last := max entry.declOffset (entry.endOffset - 1)

/-- The flow of an entry fails only where its statements cannot be parsed. Otherwise it has the
graph of these statements and the exit paths of that graph. -/
theorem ofEntry_spec (file : SourceFile) (entry : Entry) (withDiagram : Bool) :
    (∃ e, parseStatements file entry = .error e ∧
      FunctionFlow.ofEntry file entry withDiagram = .error e) ∨
    ∃ parsed flow, parseStatements file entry = .ok parsed ∧
      FunctionFlow.ofEntry file entry withDiagram = .ok flow ∧
      flow.graph = (FunctionText.ofEntry file entry).graph parsed.1 ∧
      flow.exitPaths = (flow.graph.exitPaths FlowGraph.maxExitPaths).1 := by
  rw [FunctionFlow.ofEntry]
  cases parseStatements file entry with
  | error e => exact Or.inl ⟨e, rfl, rfl⟩
  | ok parsed => exact Or.inr ⟨parsed, _, rfl, rfl, rfl, rfl⟩

/-- **Flow graphs preserve meaning.** For every statement tree, the walks from the entry of its
graph are the finite executions of the tree; and the graph of an indexed function is that of the
statements parsed from its text. -/
theorem walks_eq_executions :
    (∀ (f : FunctionText) (body : List Stmt), ∃ spots, RunsAs f spots (f.graph body) body) ∧
      ∀ (file : SourceFile) (entry : Entry) (withDiagram : Bool),
        match parseStatements file entry with
        | .error e => FunctionFlow.ofEntry file entry withDiagram = .error e
        | .ok (body, _) => ∃ flow, FunctionFlow.ofEntry file entry withDiagram = .ok flow ∧
            ∃ spots, RunsAs (.ofEntry file entry) spots flow.graph body := by
  refine ⟨graph_runsAs, fun file entry withDiagram => ?_⟩
  rcases ofEntry_spec file entry withDiagram
    with ⟨e, parse, failed⟩ | ⟨parsed, flow, parse, made, graph, -⟩
  · rw [parse]
    exact failed
  · rw [parse]
    exact ⟨flow, made, graph ▸ graph_runsAs _ _⟩

end CodeAtlas.Flow
