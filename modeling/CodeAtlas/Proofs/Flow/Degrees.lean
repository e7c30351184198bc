import CodeAtlas.Flow.Document
import CodeAtlas.Proofs.Flow.Reducible

/-!
No edge of a flow graph is lost or made twice.

The load of a node is the number of edges that leave it together with its open ends. No rule of the
construction changes the load of a node that is there, and a new node starts with the load of its
site (`Builds.loaded`). When no end is open any more, the load of a node is its out-degree, which is
the number of ways on that the census of the body gives.
-/

namespace CodeAtlas.Flow

open List

variable {v : Visit} {f : FunctionText} {body : List Stmt} {sites : List Site}
  {g : FlowGraph} {site : Site}

/-! ### Loads -/

/-- The number of edges that leave a node, with those that lack a target. -/
def load (a : Stage) (n : Nat) : Nat :=
  a.state.edges.countP (·.source = n) + a.ends.countP (·.source = n)

/-- From one stage to a later one the load of a node that is there stays the same, and that of a new
node is the degree of its site. -/
structure Loaded (a b : Stage) : Prop where
  old : ∀ n < a.sites.length, load b n = load a n
  new : ∀ n d, a.sites.length ≤ n → HasShape b.sites n (·.2.2 = d) → load b n = d

section Loads

variable {f : FunctionText} {heads : List Nat} {a b c : Stage} {sites : List Site} {s : LowerState}
  {site : Site} {pending : List PendingEdge} {rest next : Multiset PendingEdge} {s' : LowerState}
  {ends ends' : Multiset PendingEdge} {n : Nat}

/-- Where no site is new it is enough that all loads stay the same. -/
theorem Loaded.same (loads : ∀ n, load b n = load a n)
    (length : b.sites.length = a.sites.length) : Loaded a b :=
  ⟨fun n _ => loads n, fun _ _ new shape => absurd shape.lt (Nat.not_lt.mpr (length ▸ new))⟩

/-- One stage after the other: a site that is new in the first part is old in the second. -/
theorem Loaded.trans (ab : Loaded a b) (bc : Loaded b c) (length : a.sites.length ≤ b.sites.length)
    (kept : b.sites.map Site.shape <+: c.sites.map Site.shape) : Loaded a c := by
  refine ⟨fun n bound => (bc.old n (by omega)).trans (ab.old n bound), fun n d new shape => ?_⟩
  rcases Nat.lt_or_ge n b.sites.length with before | after
  · -- The shape of a site does not change, so it is the degree that the site had before.
    obtain ⟨site, found⟩ : ∃ site, b.sites[n]? = some site := ⟨_, getElem?_eq_getElem before⟩
    have had : HasShape b.sites n (·.2.2 = site.degree) := ⟨site, found, rfl⟩
    obtain ⟨later, found', same⟩ := had.mono kept
    obtain ⟨later', found'', rfl⟩ := shape
    obtain rfl := Option.some.inj (found'.symm.trans found'')
    rw [bc.old n before, ab.new n _ new had]
    exact same.symm
  · exact bc.new n d after shape

/-- Open ends that are parked elsewhere add the same to both sides. -/
theorem Loaded.frame {sites' : List Site}
    (h : Loaded ⟨sites, s, ends⟩ ⟨sites', s', ends'⟩) (old : ∀ p ∈ rest, p.source < sites.length) :
    Loaded ⟨sites, s, ends + rest⟩ ⟨sites', s', ends' + rest⟩ := by
  have more : ∀ (state : LowerState) (sites : List Site) (ends : Multiset PendingEdge) (n : Nat),
      load ⟨sites, state, ends + rest⟩ n =
        load ⟨sites, state, ends⟩ n + rest.countP (·.source = n) := by
    intro state sites ends n
    simp only [load, Multiset.countP_add]
    omega
  refine ⟨fun n bound => by rw [more, more, h.old n bound], fun n d new shape => ?_⟩
  have none_new : rest.countP (·.source = n) = 0 := by
    rw [Multiset.countP_eq_zero]
    intro p hp
    have := old p hp
    dsimp only at new
    omega
  rw [more, none_new, Nat.add_zero, h.new n d new shape]

/-- Nothing leaves a node that is not there yet. -/
theorem Stage.Sound.load_eq_zero (sound : a.Sound f) (new : a.sites.length ≤ n) : load a n = 0 := by
  rw [load, Nat.add_eq_zero_iff, countP_eq_zero, Multiset.countP_eq_zero]
  refine ⟨fun e he => ?_, fun p hp => ?_⟩
  · have := (sound.edges_lt e he).1
    simp only [decide_eq_true_eq]
    omega
  · have := (sound.ends_at p hp).2.lt
    omega

/-- One new node, with the load of its site. -/
theorem Loaded.join (sound : Stage.Sound f ⟨sites, s, ends⟩)
    (loads : ∀ n, load ⟨sites ++ [site], s', ends'⟩ n =
      load ⟨sites, s, ends⟩ n + if n = sites.length then site.degree else 0) :
    Loaded ⟨sites, s, ends⟩ ⟨sites ++ [site], s', ends'⟩ := by
  refine ⟨fun n bound => by rw [loads, if_neg (Nat.ne_of_lt bound), Nat.add_zero],
    fun n d new shape => ?_⟩
  have last : n = sites.length := by
    have := shape.lt
    rw [length_append, length_singleton] at this
    dsimp only at new
    omega
  obtain ⟨_, found, rfl⟩ := shape
  subst last
  obtain rfl : site = _ := by simpa using found
  rw [loads, if_pos rfl, sound.load_eq_zero (Nat.le_refl _), Nat.zero_add]
  rfl

/-- Joining pending edges turns open ends into edges; only the ends that the new node opens are
added. -/
theorem load_joined (f : FunctionText) (sites sites' : List Site) (s : LowerState)
    (pending : List PendingEdge) (next rest : Multiset PendingEdge) (kind : NodeKind) (span : Span)
    (label : String) (n : Nat) :
    load ⟨sites', joined f.env s kind span label pending, next + rest⟩ n =
      load ⟨sites, s, ↑pending + rest⟩ n + next.countP (·.source = n) := by
  simp only [load, joined, countP_append, countP_map, Multiset.countP_add, Multiset.coe_countP,
    Function.comp_def]
  omega

/-- Ends that all start at one node are counted there and nowhere else. -/
theorem countP_sources (m : Nat) (sources : ∀ p ∈ next, p.source = n) :
    next.countP (·.source = m) = if m = n then next.card else 0 := by
  split
  · rename_i same
    exact Multiset.countP_eq_card.mpr fun p hp => (sources p hp).trans same.symm
  · rename_i differs
    exact Multiset.countP_eq_zero.mpr fun p hp same => differs (same.symm.trans (sources p hp))

/-- A node that opens its ends gets the load of its site. -/
theorem Opens.loaded {kind : NodeKind} {span : Span} {label : String}
    (opens : Opens f s.nodes.length site kind span label next)
    (sound : Stage.Sound f ⟨sites, s, ↑pending + rest⟩) :
    Loaded ⟨sites, s, ↑pending + rest⟩ ⟨sites ++ [site], joined f.env s kind span label pending,
      next + rest⟩ := by
  have count : s.nodes.length = sites.length := sound.nodes_length
  refine Loaded.join sound fun n => ?_
  rw [load_joined f sites, countP_sources n fun p hp => (opens.source p hp).1, opens.card, count]

/-- **Loads last**: whatever is built, no edge of a node that is there is lost or made twice. -/
theorem Builds.loaded (h : Builds f heads a b) (start : a.Within f heads) : Loaded a b := by
  induction h with
  | refl => exact .same (fun _ => rfl) rfl
  | join built opens _ _ ih =>
    exact (ih start).trans (opens.loaded (built.within start).sound) built.length_le (by simp)
  | extend _ built ih =>
    exact (ih start).trans (.same (fun _ => rfl) (by simp)) built.length_le
      (by simp [Site.shape, Site.kind, Site.continues])
  | adjust _ built _ edges _ _ ih =>
    refine (ih start).trans (.same (fun n => ?_) rfl) built.length_le (prefix_refl _)
    simp only [load, edges]
  | @back _ _ sites s rest head ends built _ ih =>
    refine (ih start).trans (.same (fun n => ?_) rfl) built.length_le (prefix_refl _)
    simp only [load, goBack, LowerState.addEdges, countP_append, map_map, countP_map,
      Multiset.countP_add, Multiset.coe_countP, Function.comp_def]
    omega
  | @again _ _ sites s rest site span label head pending built _ _ degree ih =>
    have sound := (built.within start).sound
    have count : s.nodes.length = sites.length := sound.nodes_length
    refine (ih start).trans (Loaded.join sound fun n => ?_) built.length_le (by simp)
    have pendings := load_joined f sites (sites ++ [site]) s pending 0 rest .jump span label n
    rw [zero_add, Multiset.countP_zero] at pendings
    simp only [load, LowerState.addEdges, countP_append, countP_singleton, count, degree,
      decide_eq_true_eq, eq_comm (b := n)] at pendings ⊢
    omega
  | @loop heads a sites s rest site span label enter exits sites' s' ends pending built opens plain
      body ih ihBody =>
      have before := built.within start
      have atHead := before.join opens (by simp [plain])
      have inBody := ihBody (before.enterLoop opens plain)
      have parked : ∀ p ∈ exits + rest, p.source < (sites ++ [site]).length := by
        intro p hp
        refine (atHead.sound.ends_at p ?_).2.lt
        rw [Multiset.cons_add]
        exact Multiset.mem_cons_of_mem hp
      have framed := inBody.frame parked
      rw [← add_assoc, Multiset.singleton_add] at framed
      exact ((ih start).trans (opens.loaded before.sound) built.length_le (by simp)).trans framed
        (built.length_le.trans (by simp)) body.shapes_kept

end Loads

/-! ### Exits and jumps in the census -/

/-- No way leads on from where control leaves the function, and at most one from a jump. -/
def FewWays (v : Visit) (ways : Nat) : Prop :=
  match visitKind v with
  | .exit _ => ways = 0
  | .jump => ways ≤ 1
  | _ => True

def AllFewWays (made : List (Visit × Nat)) : Prop :=
  ∀ p ∈ made, FewWays p.1 p.2

theorem allFewWays_append {a b : List (Visit × Nat)} (ha : AllFewWays a) (hb : AllFewWays b) :
    AllFewWays (a ++ b) :=
  fun p hp => (mem_append.mp hp).elim (ha p) (hb p)

theorem allFewWays_cons {d : Nat} {rest : List (Visit × Nat)} (first : FewWays v d)
    (later : AllFewWays rest) : AllFewWays ((v, d) :: rest) :=
  forall_mem_cons.mpr ⟨first, later⟩

mutual

/-- A statement lists no way on from an exit and at most one from a jump. -/
theorem census_fewWays (scopes : List Scope) : ∀ stmt : Stmt, AllFewWays (census scopes stmt)
  | .simple _ => by rw [census]; exact allFewWays_cons trivial nofun
  | .leave _ _ => by rw [census]; exact allFewWays_cons rfl nofun
  | .tryOp _ => by rw [census]; exact allFewWays_cons trivial (allFewWays_cons rfl nofun)
  | .jump _ _ _ => by
      rw [census]
      refine allFewWays_cons ?_ nofun
      show (if _ then 1 else 0) ≤ 1
      split <;> simp
  | .unknown _ _ => by rw [census]; exact nofun
  | .branch _ _ body orelse => by
      rw [census]
      exact allFewWays_cons trivial
        (allFewWays_append (censusAll_fewWays scopes body) (censusAll_fewWays scopes orelse))
  | .loop _ head body orelse => by
      rw [census]
      refine allFewWays_cons trivial (allFewWays_append (censusAll_fewWays _ body) ?_)
      split
      · exact nofun
      · exact censusAll_fewWays scopes orelse
  | .choice _ _ arms => by
      rw [census]
      exact allFewWays_cons trivial (censusArms_fewWays _ arms)
  | .guarded _ body handlers orelse none => by
      rw [census]
      exact allFewWays_cons trivial (allFewWays_append
        (allFewWays_append (censusAll_fewWays scopes body) (censusAll_fewWays scopes orelse))
        (censusArms_fewWays scopes handlers))
  | .guarded _ body handlers orelse (some final) => by
      rw [census]
      exact allFewWays_cons trivial (allFewWays_append (allFewWays_append
        (allFewWays_append (censusAll_fewWays scopes body) (censusAll_fewWays scopes orelse))
        (censusArms_fewWays scopes handlers)) (censusAll_fewWays scopes final))
  | .block _ _ body => by
      rw [census]
      exact censusAll_fewWays scopes body

theorem censusAll_fewWays (scopes : List Scope) : ∀ ss : List Stmt, AllFewWays (censusAll scopes ss)
  | [] => by rw [censusAll]; exact nofun
  | stmt :: rest => by
      rw [censusAll]
      exact allFewWays_append (census_fewWays scopes stmt) (censusAll_fewWays scopes rest)

theorem censusArms_fewWays (scopes : List Scope) :
    ∀ arms : List Arm, AllFewWays (censusArms scopes arms)
  | [] => by rw [censusArms]; exact nofun
  | .mk _ _ body :: later => by
      rw [censusArms]
      exact allFewWays_append (censusAll_fewWays scopes body) (censusArms_fewWays scopes later)

end

/-- The sites of a graph are those of the census, with the two at its ends. -/
theorem Describes.fewWays (describes : Describes f body sites g) {degree : Nat}
    (hsite : (⟨.single v, degree⟩ : Site) ∈ sites) : FewWays v degree := by
  obtain ⟨ending, hending, steps⟩ := describes.steps_eq
  have few : AllFewWays (stepsOf sites) := by
    rw [steps]
    refine allFewWays_append (allFewWays_cons trivial (censusAll_fewWays [] body)) ?_
    simp only [mem_cons, not_mem_nil, or_false] at hending
    rcases hending with rfl | rfl
    · exact nofun
    · exact allFewWays_cons rfl nofun
  exact few (v, degree) (mem_flatMap.mpr ⟨_, hsite, by simp [Site.steps, Spot.visits]⟩)

theorem Describes.exit_degree (describes : Describes f body sites g) (hsite : site ∈ sites)
    {kind : ExitKind} (exit : site.kind = .exit kind) : site.degree = 0 := by
  obtain ⟨spot, degree⟩ := site
  cases spot with
  | block first more => cases exit
  | single v =>
    have few := describes.fewWays hsite
    have isExit : visitKind v = .exit kind := exit
    rw [FewWays, isExit] at few
    exact few

theorem Describes.jump_degree (describes : Describes f body sites g) (hsite : site ∈ sites)
    (jump : site.kind = .jump) : site.degree ≤ 1 := by
  obtain ⟨spot, degree⟩ := site
  cases spot with
  | block first more => cases jump
  | single v =>
    have few := describes.fewWays hsite
    have isJump : visitKind v = .jump := jump
    rw [FewWays, isJump] at few
    exact few

/-! ### Finished graphs -/

/-- The graph in which the sites say what the nodes stand for has every edge once, and its links say
so. -/
structure Exact (sites : List Site) (g : FlowGraph) : Prop where
  node_ids : g.links.nodes.map (·.id) = range g.nodes.length
  edge_ids : g.links.edgeIds = range g.edges.length
  out_sorted : ∀ n, (g.outEdges n).Pairwise (· < ·)
  mem_out : ∀ n i, i ∈ g.outEdges n ↔ ∃ e, g.edges[i]? = some e ∧ e.source = n
  entry_in : ∀ e ∈ g.edges, e.target ≠ FlowGraph.entry
  exits_sorted : g.exits.Pairwise (· < ·)
  mem_exits : ∀ n, n ∈ g.exits ↔ ∃ kind, (g.nodes[n]?).map (·.kind) = some (.exit kind)
  exit_kind : ∀ n, n ∈ g.exits ↔ (g.exitKind? n).isSome
  exit_out : ∀ n ∈ g.exits, g.outEdges n = []
  degree : ∀ n site, sites[n]? = some site → (g.outEdges n).length = site.degree

/-- Numbers of edges are collected in order. -/
theorem numbersFrom_sorted (edges : List FlowEdge) (n : Nat) :
    (numbersFrom edges n).Pairwise (· < ·) := by
  have numbers : edges.zipIdx.map (·.2) = range' 0 edges.length := zipIdx_map_snd 0 edges
  have sorted : (edges.zipIdx.map (·.2)).Pairwise (· < ·) := numbers ▸ pairwise_lt_range'
  exact sorted.sublist (filter_sublist.map _)

/-- There are as many numbers as edges from the node. -/
theorem numbersFrom_length (edges : List FlowEdge) (n : Nat) :
    (numbersFrom edges n).length = edges.countP (·.source = n) := by
  have counts := congrArg (countP (·.source = n)) (zipIdx_map_fst 0 edges)
  rw [countP_map] at counts
  rw [numbersFrom, length_map, ← countP_eq_length_filter]
  exact counts

/-- A number is that of an exit if the node there is one. -/
theorem isExitAt_iff (nodes : List FlowNode) (n : Nat) :
    isExitAt nodes n = true ↔ ∃ kind, (nodes[n]?).map (·.kind) = some (.exit kind) := by
  rw [isExitAt]
  cases nodes[n]? with
  | none => simp
  | some node =>
    obtain ⟨kind, startLine, endLine, label⟩ := node
    cases kind <;> simp [NodeKind.isExit]

section Linked

variable (joins : Joins g)
include joins

/-- The stored ids of nodes are their positions. -/
theorem node_ids_eq : g.links.nodes.map (·.id) = range g.nodes.length := by
  apply List.ext_getElem?
  intro n
  rw [getElem?_map, joins.inStep.nodes_eq]
  cases found : g.nodes[n]? with
  | none =>
    have outside := List.getElem?_eq_none_iff.mp found
    rw [getElem?_eq_none (by rwa [length_range])]
    rfl
  | some node =>
    have bound := (List.getElem?_eq_some_iff.mp found).1
    rw [getElem?_range bound]
    rfl

/-- The stored list of a node has one number for each edge that leaves it. -/
theorem outEdges_length (n : Nat) : (g.outEdges n).length = g.edges.countP (·.source = n) := by
  rw [outEdges_eq joins, numbersFrom_length]

/-- The links name a kind of exit for the nodes that are exits and for no other. -/
theorem exitKind?_isSome (n : Nat) : (g.exitKind? n).isSome = isExitAt g.nodes n := by
  rw [FlowGraph.exitKind?, joins.inStep.nodes_eq, isExitAt]
  cases g.nodes[n]? with
  | none => rfl
  | some node =>
    obtain ⟨kind, startLine, endLine, label⟩ := node
    cases kind <;> rfl

end Linked

/-- **In every flow graph each edge is there once**, for any statement tree. -/
theorem graph_exact (f : FunctionText) (body : List Stmt) :
    ∃ sites, Describes f body sites (f.graph body) ∧ Exact sites (f.graph body) := by
  obtain ⟨sites, s, builds, graph, describes⟩ := graph_history f body
  have joins := graph_joins f body
  refine ⟨sites, describes, ?_⟩
  rw [graph] at describes joins ⊢
  let g : FlowGraph := s.graph
  have loaded := builds.loaded (Stage.start_within f)
  have degree : ∀ n site, sites[n]? = some site → (g.outEdges n).length = site.degree := by
    intro n site found
    have leaving : load ⟨sites, s, 0⟩ n = (g.outEdges n).length := by
      rw [outEdges_length joins]
      exact Nat.add_zero _
    rw [← leaving]
    rcases Nat.eq_zero_or_pos n with rfl | later
    · -- The entry is there from the start, with one open end.
      have atEntry : HasShape (Stage.start f).sites 0 (·.2.2 = 1) := ⟨⟨.single .enter, 1⟩, rfl, rfl⟩
      obtain ⟨site', found', one⟩ := atEntry.mono builds.shapes_kept
      obtain rfl := Option.some.inj (found.symm.trans found')
      rw [loaded.old 0 Nat.zero_lt_one]
      exact one.symm
    · exact loaded.new n _ later ⟨site, found, rfl⟩
  refine ⟨node_ids_eq joins, joins.inStep.edgeIds_eq, fun n => ?_, mem_outEdges joins, ?_, ?_,
    ?_, ?_, ?_, degree⟩
  · rw [outEdges_eq joins]
    exact numbersFrom_sorted _ n
  · exact fun e he => Nat.ne_of_gt (made_since_start builds e he).target_pos
  · rw [FlowGraph.exits, joins.inStep.exits_eq]
    exact pairwise_lt_range.filter _
  · intro n
    rw [mem_exits joins, isExitAt_iff]
  · intro n
    rw [mem_exits joins, exitKind?_isSome joins]
  · intro n exit
    obtain ⟨kind, isExit⟩ := (isExitAt_iff g.nodes n).mp ((mem_exits joins n).mp exit)
    have nodes : s.nodes = sites.map (·.spot.node f) := describes.nodes_eq
    have found : sites[n]?.map (fun site => (site.spot.node f).kind) = some (.exit kind) := by
      simpa [g, LowerState.graph, nodes, Function.comp_def] using isExit
    obtain ⟨site, found, isExit⟩ := Option.map_eq_some_iff.mp found
    rw [Site.node_kind] at isExit
    apply length_eq_zero_iff.mp
    rw [degree n site found]
    exact describes.exit_degree (mem_of_getElem? found) isExit

/-! ### Numbers in documents -/

/-- In the document of a flow graph the numbers of nodes and edges are their positions, and the
edges out of a node and the exits are listed by number. -/
structure Numbered (flow : FunctionFlow) : Prop where
  nodes : ∃ docs : List Json, flow.toJson.field? "nodes" = some (.arr docs) ∧
    docs.length = flow.graph.nodes.length ∧
    ∀ n (doc : Json), docs[n]? = some doc → doc.field? "id" = some (.nat n) ∧
      doc.field? "out_edges" = some (.arr ((flow.graph.outEdges n).map .nat)) ∧
      doc.field? "exit_kind" = some (.opt (fun kind => .str kind.text) (flow.graph.exitKind? n))
  edges : ∃ docs : List Json, flow.toJson.field? "edges" = some (.arr docs) ∧
    docs.length = flow.graph.edges.length ∧
      ∀ i (doc : Json), docs[i]? = some doc → doc.field? "id" = some (.nat i)
  exits : flow.toJson.field? "exits" = some (.arr (flow.graph.exits.map .nat))

/-- The document writes the stored links, so in a graph whose links are in step it numbers by
positions. -/
theorem toJson_numbered {flow : FunctionFlow} (joins : Joins flow.graph) : Numbered flow := by
  refine ⟨⟨_, rfl, ?_, ?_⟩, ⟨_, rfl, ?_, ?_⟩, rfl⟩
  · rw [length_zipWith, joins.inStep.length_eq, Nat.min_self]
  · intro n doc found
    obtain ⟨node, links, -, stored, rfl⟩ := getElem?_zipWith_eq_some.mp found
    have here := joins.inStep.nodes_eq n
    rw [stored] at here
    obtain ⟨_, -, same⟩ := Option.map_eq_some_iff.mp here.symm
    have out : flow.graph.outEdges n = links.outEdges := by
      rw [FlowGraph.outEdges, stored]
      rfl
    have kind : flow.graph.exitKind? n = links.exitKind := by
      rw [FlowGraph.exitKind?, stored]
      rfl
    rw [out, kind, ← same]
    exact ⟨rfl, rfl, rfl⟩
  · rw [length_zipWith, joins.inStep.edgeIds_eq, length_range, Nat.min_self]
  · intro i doc found
    obtain ⟨edge, id, -, stored, rfl⟩ := getElem?_zipWith_eq_some.mp found
    rw [joins.inStep.edgeIds_eq] at stored
    obtain ⟨bound, rfl⟩ := List.getElem?_eq_some_iff.mp stored
    rw [getElem_range]
    rfl

/-- **No edge of a flow graph is lost or made twice.** In the graph of any statement tree, the
numbers of the edges out of a node are listed in order, no edge leads to the entry, no edge leaves
an exit, and as many edges leave a node as there are ways on from the statement that it stands for.
The graph of an indexed function is that of the statements parsed from its text, and its document
numbers nodes and edges by their positions. -/
theorem flow_exact :
    (∀ (f : FunctionText) (body : List Stmt),
        ∃ sites, Describes f body sites (f.graph body) ∧ Exact sites (f.graph body)) ∧
      ∀ (file : SourceFile) (entry : Entry) (withDiagram : Bool),
        match parseStatements file entry with
        | .error e => FunctionFlow.ofEntry file entry withDiagram = .error e
        | .ok (body, _) => ∃ flow, FunctionFlow.ofEntry file entry withDiagram = .ok flow ∧
            Numbered flow ∧
            ∃ sites, Describes (.ofEntry file entry) body sites flow.graph ∧
              Exact sites flow.graph := by
  refine ⟨graph_exact, fun file entry withDiagram => ?_⟩
  rcases ofEntry_spec file entry withDiagram
    with ⟨e, parse, failed⟩ | ⟨parsed, flow, parse, made, graph, -⟩
  · rw [parse]
    exact failed
  · rw [parse]
    have joins : Joins flow.graph := graph ▸ graph_joins _ _
    exact ⟨flow, made, toJson_numbered joins, graph ▸ graph_exact _ _⟩

end CodeAtlas.Flow
