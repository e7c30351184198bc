import CodeAtlas.Proofs.Flow.Degrees

/-!
Where a break goes.

The jumps of a statement tree have nodes in the order of the text (`jumpNodes`). From the node of a
jump with a target exactly one edge leads on, and the walks from its end are the runs of what
follows the target (`jumps_wired`). For a break without a label the target is the innermost loop or
choice around it. So a break leaves the innermost loop around it exactly when no choice stands
between the two; one in an arm of a choice leaves the choice, in every language.
-/

namespace CodeAtlas.Flow

variable {k : List Frame} {f : FunctionText} {g : FlowGraph} {points : List Point}
  {v : Visit} {n : Nat}

/-! ### What follows a loop -/

def afterLoop? : List Frame → Option (List Frame)
  | [] => none
  | .loop _ _ _ _ :: k => some k
  | .stmt _ :: k => afterLoop? k
  | .choice :: k => afterLoop? k

/-- Does a choice stand inside the innermost loop of a stack? -/
def inChoice : List Frame → Bool
  | [] => false
  | .loop _ _ _ _ :: _ => false
  | .stmt _ :: k => inChoice k
  | .choice :: _ => true

def afterChoice? : List Frame → Option (List Frame)
  | [] => none
  | .choice :: k => some k
  | .stmt _ :: k => afterChoice? k
  | .loop _ _ _ _ :: k => afterChoice? k

/-- Inside a choice there is something that follows the choice. -/
theorem afterChoice_of_inChoice (inside : inChoice k) : ∃ left, afterChoice? k = some left := by
  induction k with
  | nil => cases inside
  | cons frame k ih =>
    cases frame with
    | stmt s => exact ih inside
    | loop span head body orelse => cases inside
    | choice => exact ⟨k, rfl⟩

/-- A break without a label leaves the innermost choice inside the innermost loop, or else that
loop. -/
theorem unwind_break (k : List Frame) :
    unwind .breaks none k = if inChoice k then afterChoice? k else afterLoop? k := by
  induction k with
  | nil => rfl
  | cons frame k ih =>
    cases frame with
    | stmt s => exact ih
    | loop span head body orelse => simp [unwind, inChoice, afterLoop?]
    | choice => simp [unwind, inChoice, afterChoice?]

/-! ### Runs go on -/

section Progress

variable {k : List Frame}

def Visits (k : List Frame) : Prop :=
  ∃ v, Executes (.run k) [v]

/-- Control that starts with a visit visits something. -/
theorem visits_of_visiting {c : Control} {v : Visit}
    (h : Executes (.run k) = visiting v (Executes c)) : Visits k :=
  ⟨v, h ▸ .inr ⟨[], rfl, executes_nil c⟩⟩

mutual

/-- One statement before a stack that visits something: it is visited itself, or control gets to the
stack. -/
theorem visits_stmt : ∀ (s : Stmt) (k : List Frame), Visits k → Visits (.stmt s :: k)
  | .simple _, k, _ => visits_of_visiting (executes_stmt rfl k)
  | .leave _ _, k, _ => visits_of_visiting (executes_stmt rfl k)
  | .tryOp _, k, _ => visits_of_visiting (executes_stmt rfl k)
  | .jump _ _ _, k, _ => visits_of_visiting (executes_stmt rfl k)
  | .unknown kind span, k, h => by
      rw [Visits, executes_unknown]
      exact h
  | .branch _ _ _ _, k, _ => visits_of_visiting (executes_stmt rfl k)
  | .loop span head body orelse, k, _ => by
      rw [Visits, executes_reachLoop]
      exact visits_of_visiting (executes_loop span head body orelse k)
  | .choice _ _ _, k, _ => visits_of_visiting (executes_stmt rfl k)
  | .guarded _ _ _ _ _, k, _ => visits_of_visiting (executes_stmt rfl k)
  | .block span header body, k, h => by
      rw [Visits, executes_block]
      exact visits_frames body k h

theorem visits_frames : ∀ (ss : List Stmt) (k : List Frame), Visits k → Visits (frames ss ++ k)
  | [], _, h => h
  | s :: ss, k, h => visits_stmt s (frames ss ++ k) (visits_frames ss k h)

end

/-- **Control never gets stuck without a visit**: it gets to a statement, to the head of a loop
around, or to the end of the body. -/
theorem visits (k : List Frame) : Visits k := by
  induction k with
  | nil => exact visits_of_visiting executes_finish
  | cons frame k ih =>
    cases frame with
    | stmt s => exact visits_stmt s k ih
    | loop span head body orelse => exact visits_of_visiting (executes_loop span head body orelse k)
    | choice =>
      rw [Visits, executes_choice]
      exact ih

end Progress

/-! ### The nodes of jumps -/

def jumpNodes (g : FlowGraph) : List Nat :=
  (g.nodes.zipIdx.filter (·.1.kind == .jump)).map (·.2)

/-- The nodes of kind jump are those that stand for a jump. -/
theorem node_isJump (f : FunctionText) (spot : Spot) :
    ((spot.node f).kind == .jump) = spot.isJump := by
  rw [Site.node_kind f ⟨spot, 0⟩]
  cases spot with
  | block first more => rfl
  | single v =>
    cases v with
    | stmt s => cases s <;> rfl
    | enter | early span | finish => rfl

/-- The nodes of kind jump come in the order of the jumps in the books. -/
theorem jumpNodes_getElem?
    (nodes : g.nodes = points.map (·.spot.node f)) {i : Nat} {p : Point}
    (found : (jumpPoints points)[i]? = some p) :
    ∃ n, (jumpNodes g)[i]? = some n ∧ points[n]? = some p := by
  let numbered := points.zipIdx.filter (·.1.spot.isJump)
  have ofPoints : jumpPoints points = numbered.map (·.1) := by
    have all := List.zipIdx_map_fst 0 points
    conv_lhs => rw [jumpPoints, ← all, List.filter_map]
    rfl
  have ofNodes : jumpNodes g = numbered.map (·.2) := by
    rw [jumpNodes, nodes, List.zipIdx_map, List.filter_map, List.map_map]
    have same : (fun x : FlowNode × Nat => x.1.kind == .jump) ∘
        Prod.map (fun p : Point => p.spot.node f) id = fun x => x.1.spot.isJump := by
      funext x
      exact node_isJump f x.1.spot
    rw [same]
    rfl
  rw [ofPoints, List.getElem?_map, Option.map_eq_some_iff] at found
  obtain ⟨⟨p', n⟩, found, rfl⟩ := found
  refine ⟨n, ?_, ?_⟩
  · rw [ofNodes, List.getElem?_map, found]
    rfl
  · exact List.mem_zipIdx_iff_getElem?.mp (List.mem_filter.mp (List.mem_of_getElem? found)).1

/-! ### Edges of jumps -/

/-- The walks from a node are the runs of a stack: this is where control goes on with it. -/
def GoesOnWith (spots : List Spot) (g : FlowGraph) (n : Nat) (k : List Frame) : Prop :=
  ∀ trace, Executes (.run k) trace ↔ ∃ walk, Walk g n walk ∧ trace <+: visitsAlong spots walk

/-- A node has the kind of the first visit that it stands for. -/
theorem first_visit_kind (f : FunctionText) {spot : Spot} (first : [v] <+: spot.visits) :
    (visitNode f v).kind = (spot.node f).kind := by
  cases spot with
  | single w =>
    obtain rfl : v = w := by simpa [Spot.visits] using first
    rfl
  | block span more =>
    obtain rfl : v = .stmt (.simple span) := by simpa [Spot.visits] using first
    rfl

/-- What is visited first tells the kind of the node where control goes on. -/
theorem GoesOnWith.first_kind {spots : List Spot} {body : List Stmt}
    (h : GoesOnWith spots g n k) (runs : RunsAs f spots g body)
    (bound : n < g.nodes.length) (first : Executes (.run k) [v]) :
    g.nodes[n]?.map (·.kind) = some (visitNode f v).kind := by
  obtain ⟨walk, along, before⟩ := (h [v]).mp first
  obtain ⟨rest, rfl⟩ : ∃ rest, walk = n :: rest := by cases along <;> exact ⟨_, rfl⟩
  rw [runs.nodes_eq, List.length_map] at bound
  have spot : spots[n]? = some spots[n] := List.getElem?_eq_getElem bound
  have here : [v] <+: spots[n].visits := by
    have pos := List.length_pos_iff.mpr spots[n].visits_ne_nil
    refine List.prefix_of_prefix_length_le before ?_ pos
    simp [visitsAlong, spot]
  rw [runs.nodes_eq, List.getElem?_map, spot, first_visit_kind f here]
  rfl

theorem jump_edges_le (f : FunctionText) (body : List Stmt)
    (jump : ((f.graph body).nodes[n]?).map (·.kind) = some .jump) :
    ((f.graph body).edgesFrom n).length ≤ 1 := by
  obtain ⟨sites, describes, exact⟩ := graph_exact f body
  obtain ⟨site, found, kind⟩ : ∃ site, sites[n]? = some site ∧ site.kind = .jump := by
    rw [describes.nodes_eq, List.getElem?_map, Option.map_map, Option.map_eq_some_iff] at jump
    obtain ⟨site, found, kind⟩ := jump
    exact ⟨site, found, (site.node_kind f).symm.trans kind⟩
  have degree := exact.degree n site found
  have few := describes.jump_degree (List.mem_of_getElem? found) kind
  have count : ((f.graph body).edgesFrom n).length = ((f.graph body).outEdges n).length := by
    rw [outEdges_length (graph_joins f body), FlowGraph.edgesFrom, ← List.countP_eq_length_filter]
    simp [beq_eq_decide]
  omega

/-- Behind a jump go the runs of the stack that it unwinds to, if there is one. -/
theorem after_jump (site : JumpSite) (trace : List Visit) : site.point.after trace ↔
      trace = [] ∨ ∃ k, unwind site.kind site.label site.behind = some k ∧
        Executes (.run k) trace := by
  change Executes (.head site.stmt site.behind) trace ↔ _
  rw [executes_head, JumpSite.stmt, ways]
  simp

/-- A jump is wired to what follows its target: one edge leads on from its node, to where control
goes on behind the target. If the jump has no target, no edge leads on. -/
def Wired (spots : List Spot) (g : FlowGraph) (n : Nat) (site : JumpSite) : Prop :=
  match unwind site.kind site.label site.behind with
  | none => g.edgesFrom n = []
  | some k => ∃ e, g.edgesFrom n = [e] ∧ GoesOnWith spots g e.target k

/-- In balanced books with nothing owed, a node with at most one edge that stands for a jump is
wired. An edge is there because runs go on behind the target, and the runs along it can be no
others. -/
theorem Balanced.wired {s : LowerState} (h : Balanced f points s 0)
    {site : JumpSite} (point : points[n]? = some site.point)
    (one : (FlowGraph.edgesFrom s.graph n).length ≤ 1) :
    Wired (points.map Point.spot) s.graph n site := by
  have follows : ∀ trace, trace ≠ [] →
      ((∃ e ∈ FlowGraph.edgesFrom s.graph n, arrive points e.target trace) ↔
        ∃ k, unwind site.kind site.label site.behind = some k ∧ Executes (.run k) trace) := by
    intro trace nonempty
    have goesOn := h.after_iff_follows point trace
    rw [after_jump] at goesOn
    simp only [nonempty, false_or] at goesOn
    rw [goesOn, Follows]
    simp [FlowGraph.edgesFrom, LowerState.graph, and_assoc]
  have bound : ∀ e ∈ FlowGraph.edgesFrom s.graph n, e.target < points.length :=
    fun e he => (h.edges_lt e (List.mem_of_mem_filter he)).2
  have node : ∀ e ∈ FlowGraph.edgesFrom s.graph n, ∃ p, points[e.target]? = some p :=
    fun e he => ⟨_, List.getElem?_eq_getElem (bound e he)⟩
  generalize edges : FlowGraph.edgesFrom s.graph n = leading at *
  unfold Wired
  cases target : unwind site.kind site.label site.behind with
  | none =>
    simp only [edges]
    refine List.eq_nil_iff_forall_not_mem.mpr fun e he => ?_
    obtain ⟨p, hp⟩ := node e he
    obtain ⟨k, found, -⟩ := (follows _ p.spot.visits_ne_nil).mp ⟨e, he, p, hp, .inl List.prefix_rfl⟩
    rw [target] at found
    cases found
  | some k =>
    simp only [edges]
    obtain ⟨v, goesOn⟩ := visits k
    obtain ⟨e, he, -⟩ := (follows [v] (List.cons_ne_nil v [])).mpr ⟨k, target, goesOn⟩
    obtain ⟨e', rfl⟩ := List.length_eq_one_iff.mp (Nat.le_antisymm one (List.length_pos_of_mem he))
    obtain rfl := List.mem_singleton.mp he
    refine ⟨e, rfl, fun trace => ?_⟩
    rw [← h.arrive_iff (bound e he)]
    cases trace with
    | nil =>
      obtain ⟨p, hp⟩ := node e he
      exact ⟨fun _ => ⟨p, hp, .inl List.nil_prefix⟩, fun _ => executes_nil _⟩
    | cons v rest => simpa [target] using (follows _ (List.cons_ne_nil v rest)).symm

/-- **Jumps are wired to where control goes on**, for any statement tree: the jump at each place in
the body has the node at that place among the nodes of jumps. -/
theorem jumps_wired (f : FunctionText) (body : List Stmt) :
    ∃ spots, RunsAs f spots (f.graph body) body ∧
      ∀ (i : Nat) (site : JumpSite), (jumpsInAll [] body)[i]? = some site →
        ∃ n, (jumpNodes (f.graph body))[i]? = some n ∧ spots[n]? =
          some (.single (.stmt site.stmt)) ∧
          Wired spots (f.graph body) n site := by
  obtain ⟨points, s, grows, balanced, graph⟩ := graph_books f body
  have runs : RunsAs f (points.map Point.spot) (f.graph body) body :=
    graph ▸ balanced.runsAs grows.grows
  refine ⟨points.map Point.spot, runs, fun i site found => ?_⟩
  have nodes : (f.graph body).nodes = points.map (·.spot.node f) := by
    rw [graph]
    exact balanced.nodes_eq
  have listed : (jumpPoints points)[i]? = some site.point := by
    rw [grows.jumps]
    change ((jumpsInAll [] body).map JumpSite.point)[i]? = _
    rw [List.getElem?_map, found]
    rfl
  obtain ⟨n, node, point⟩ := jumpNodes_getElem? nodes listed
  have jump : ((f.graph body).nodes[n]?).map (·.kind) = some .jump := by
    rw [nodes, List.getElem?_map, point]
    rfl
  refine ⟨n, node, by rw [List.getElem?_map, point]; rfl, ?_⟩
  rw [graph]
  exact balanced.wired point (graph ▸ jump_edges_le f body jump)

/-- Breaks without a label leave the innermost loop or choice. Take any of them that has a loop
around it. One edge leads on from its node: to where control goes on after the loop if no choice
stands between the two, and else to where it goes on after the innermost choice. -/
def BreaksLeaveInnermost (spots : List Spot) (g : FlowGraph) (body : List Stmt) : Prop :=
  ∀ (i : Nat) (span : Span) (behind after : List Frame),
    (jumpsInAll [] body)[i]? = some ⟨.breaks, none, span, behind⟩ → afterLoop? behind = some after →
      ∃ n e, (jumpNodes g)[i]? = some n ∧
        spots[n]? = some (.single (.stmt (.jump .breaks none span))) ∧
        g.edgesFrom n = [e] ∧
        if inChoice behind then ∃ left, afterChoice? behind = some left ∧
          GoesOnWith spots g e.target left
        else GoesOnWith spots g e.target after

/-- Breaks in the graph of any statement tree leave the innermost loop or choice: `jumps_wired` for
jumps of this kind, with their target read off by `unwind_break`. -/
theorem graph_breaks (f : FunctionText) (body : List Stmt) :
    ∃ spots, RunsAs f spots (f.graph body) body ∧
      BreaksLeaveInnermost spots (f.graph body) body := by
  obtain ⟨spots, runs, wired⟩ := jumps_wired f body
  refine ⟨spots, runs, fun i span behind after found loop => ?_⟩
  obtain ⟨n, node, spot, leads⟩ := wired i _ found
  have target := unwind_break behind
  unfold Wired at leads
  simp only at leads
  by_cases choice : inChoice behind
  · obtain ⟨left, inner⟩ := afterChoice_of_inChoice choice
    rw [if_pos choice, inner] at target
    rw [target] at leads
    obtain ⟨e, edge, goesOn⟩ := leads
    refine ⟨n, e, node, spot, edge, ?_⟩
    rw [if_pos choice]
    exact ⟨left, inner, goesOn⟩
  · rw [if_neg choice, loop] at target
    rw [target] at leads
    obtain ⟨e, edge, goesOn⟩ := leads
    refine ⟨n, e, node, spot, edge, ?_⟩
    rw [if_neg choice]
    exact goesOn

/-- **A break leaves the innermost loop or choice**, in the graph of any statement tree. The graph
of an indexed function is that of the statements parsed from its text, whatever its language. -/
theorem breaks_leave_innermost (withDiagram : Bool) :
    (∀ (f : FunctionText) (body : List Stmt), ∃ spots, RunsAs f spots (f.graph body) body ∧
        BreaksLeaveInnermost spots (f.graph body) body) ∧
      ∀ (file : SourceFile) (entry : Entry),
        match parseStatements file entry with
        | .error e => FunctionFlow.ofEntry file entry withDiagram = .error e
        | .ok (body, _) => ∃ flow, FunctionFlow.ofEntry file entry withDiagram = .ok flow ∧
            ∃ spots, RunsAs (.ofEntry file entry) spots flow.graph body ∧
              BreaksLeaveInnermost spots flow.graph body := by
  refine ⟨graph_breaks, fun file entry => ?_⟩
  rcases ofEntry_spec file entry withDiagram
    with ⟨e, parse, failed⟩ | ⟨parsed, flow, parse, made, graph, -⟩
  · rw [parse]
    exact failed
  · rw [parse]
    exact ⟨flow, made, graph ▸ graph_breaks _ _⟩

/-- A function with a break directly in a loop and one in an arm of a choice in the loop. -/
def twoBreaks : FunctionText × List Stmt :=
  (⟨⟨"fn f() \x7b while c \x7b if d \x7b break \x7d match x \x7b _ => break \x7d \x7d g(); \x7d".toList, ⟨[0]⟩⟩,
      "f", 0, 64⟩,
    [.loop ⟨9, 58⟩ { header := "while c" }
      [.branch ⟨19, 33⟩ "if d" [.jump .breaks none ⟨26, 31⟩] [],
       .choice ⟨34, 56⟩ { header := "match x" } [.mk "_" 44 [.jump .breaks none ⟨49, 54⟩]]] [],
     .simple ⟨59, 63⟩])

/-- Both breaks of the function have one edge, the second of them to what follows the choice. -/
theorem breaks_leave_innermost_twoBreaks :
    let g := twoBreaks.1.graph twoBreaks.2
    ∃ spots, RunsAs twoBreaks.1 spots g twoBreaks.2 ∧
      (∃ e, g.edgesFrom 3 = [e] ∧ GoesOnWith spots g e.target (frames [.simple ⟨59, 63⟩])) ∧
      ∃ e head body, g.edgesFrom 5 = [e] ∧
        GoesOnWith spots g e.target (.loop ⟨9, 58⟩ head body [] :: frames [.simple ⟨59, 63⟩]) := by
  intro g
  obtain ⟨spots, runs, breaks⟩ := (breaks_leave_innermost false).1 twoBreaks.1 twoBreaks.2
  have nodes : jumpNodes g = [3, 5] := by decide +kernel
  obtain ⟨_, e, node, -, edge, loop⟩ := breaks 0 _ _ _ rfl rfl
  obtain ⟨_, e', node', -, edge', left, choice, goesOn⟩ := breaks 1 _ _ _ rfl rfl
  rw [show jumpNodes (twoBreaks.1.graph twoBreaks.2) = [3, 5] from nodes] at node node'
  cases node
  cases node'
  cases choice
  exact ⟨spots, runs, ⟨e, edge, loop⟩, e', _, _, edge', goesOn⟩

/-- A function with an endless loop, a choice in the loop and a break in its only arm. A statement
follows the loop. -/
def breakInArm : FunctionText × List Stmt :=
  (⟨⟨"fn f() \x7b loop \x7b match x \x7b _ => break \x7d \x7d g(); \x7d".toList, ⟨[0]⟩⟩,
    "f", 0, 46⟩, [.loop ⟨9, 40⟩ { header := "loop", infinite := true }
      [.choice ⟨16, 38⟩ { header := "match x", exhaustive := true }
        [.mk "_" 31 [.jump .breaks none ⟨31, 36⟩]]] [],
     .simple ⟨41, 45⟩])

/-- The break does not leave the loop. It goes back to the head, and control never gets to the
statement behind. -/
theorem break_in_arm_stays_in_loop :
    let g := breakInArm.1.graph breakInArm.2
    ∃ span behind, jumpsInAll [] breakInArm.2 = [⟨.breaks, none, span, behind⟩] ∧
      afterLoop? behind = some (frames [.simple ⟨41, 45⟩]) ∧ jumpNodes g = [3] ∧
      (g.edgesFrom 3).map (·.target) = [1] ∧ g.unreachable = [4, 5] ∧
      ∀ spots, RunsAs breakInArm.1 spots g breakInArm.2 →
        ¬ GoesOnWith spots g 1 (frames [.simple ⟨41, 45⟩]) := by
  intro g
  refine ⟨_, _, rfl, rfl, by decide +kernel, by decide +kernel, by decide +kernel,
    fun spots runs goesOn => ?_⟩
  have statement : Executes (.run (frames [.simple ⟨41, 45⟩])) [.stmt (.simple ⟨41, 45⟩)] := by
    change Executes (.run [.stmt (.simple ⟨41, 45⟩)]) _
    rw [executes_stmt rfl]
    exact .inr ⟨[], rfl, executes_nil _⟩
  have head : g.nodes[1]?.map (·.kind) = some .loopHead := by decide +kernel
  rw [goesOn.first_kind runs (by decide +kernel) statement] at head
  cases head

end CodeAtlas.Flow
