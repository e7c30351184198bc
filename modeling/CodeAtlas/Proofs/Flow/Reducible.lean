import CodeAtlas.Proofs.Flow.Linked

/-!
Flow graphs are reducible.

The body of a loop is built from the edge into it alone. So while it is built, edges start at the
head or at nodes of the body (`Builds.ends_from`), and once it is closed no edge leads into it any
more: the nodes of a loop are entered at its head only (`Builds.regions`). `Builds.edges` says what
an edge can be: it leads forward to a node that is made for it, or back to the head of a loop
around.

Over the walks through a finished graph this gives dominance: who walks to the source of an edge
that leads back has passed its target. A walk that repeats no node then never follows such an edge.
-/

namespace CodeAtlas.Flow

open List

variable {b : Stage} {e : FlowEdge} {f : FunctionText} {n : Nat} {g : FlowGraph}

/-! ### Edges forward and back -/

/-- A node that is new since a stage, or that has an open end there. -/
def From (a : Stage) (n : Nat) : Prop :=
  a.sites.length ≤ n ∨ ∃ p ∈ a.ends, p.source = n

structure Forward (a b : Stage) (e : FlowEdge) : Prop where
  source : From a e.source
  target : a.sites.length ≤ e.target
  lt : e.source < e.target
  kind : e.kind ≠ .back
  plain : HasShape b.sites e.source (·.2.1 = false)

structure Backward (heads : List Nat) (a b : Stage) (e : FlowEdge) : Prop where
  source : From a e.source
  target : e.target ∈ heads ∨ a.sites.length ≤ e.target
  le : e.target ≤ e.source
  kind : e.kind = .back ∨ e.kind = .jump
  loop : HasShape b.sites e.target (·.1 = .loopHead)

def Made (heads : List Nat) (a b : Stage) (e : FlowEdge) : Prop :=
  Forward a b e ∨ Backward heads a b e

theorem Made.mono {heads : List Nat} {a c : Stage} (h : Made heads a b e)
    (kept : b.sites.map Site.shape <+: c.sites.map Site.shape) : Made heads a c e :=
  h.imp (fun h => { h with plain := h.plain.mono kept })
    (fun h => { h with loop := h.loop.mono kept })

section Stages

variable {f : FunctionText} {heads : List Nat} {a b : Stage} {sites : List Site} {s : LowerState}
  {site : Site} {enter : PendingEdge} {pending : List PendingEdge}
  {rest exits : Multiset PendingEdge} {span : Span} {label : String}

/-- What starts in the body of a loop starts behind the stage at which the loop was met. -/
theorem From.leaveLoop {n : Nat} {state : LowerState} (bound : a.sites.length ≤ sites.length)
    (source : enter.source = sites.length) (h : From ⟨sites ++ [site], state, {enter}⟩ n) :
    From a n := by
  left
  rcases h with new | ⟨p, hp, rfl⟩
  · rw [length_append] at new
    omega
  · rw [Multiset.mem_singleton.mp hp, source]
    exact bound

/-- **Open ends start at nodes of their own stage.** -/
theorem Builds.ends_from (h : Builds f heads a b) (start : a.Within f heads) :
    ∀ p ∈ b.ends, From a p.source := by
  induction h with
  | refl => exact fun p hp => Or.inr ⟨p, hp, rfl⟩
  | join built opens _ _ ih =>
    intro p hp
    rcases Multiset.mem_add.mp hp with new | old
    · left
      rw [(opens.source p new).1, (built.within start).sound.nodes_length]
      exact built.length_le
    · exact ih start p (Multiset.mem_add.mpr (Or.inr old))
  | extend _ _ ih | adjust _ _ _ _ _ _ ih => exact ih start
  | back _ _ ih | again _ _ _ _ ih =>
    exact fun p hp => ih start p (Multiset.mem_add.mpr (Or.inr hp))
  | @loop _ _ sites s _ _ _ _ enter exits _ _ _ _ built opens plain body ih ihBody =>
    have before := built.within start
    have count : s.nodes.length = sites.length := before.sound.nodes_length
    have source : ∀ p ∈ enter ::ₘ exits, p.source = sites.length :=
      fun p hp => count ▸ (opens.source p hp).1
    intro p hp
    rcases Multiset.mem_add.mp hp with inside | outside
    · exact (ihBody (before.enterLoop opens plain) p inside).leaveLoop built.length_le
        (source enter (Multiset.mem_cons_self _ _))
    · rcases Multiset.mem_add.mp outside with exit | old
      · left
        rw [source p (Multiset.mem_cons_of_mem exit)]
        exact built.length_le
      · exact ih start p (Multiset.mem_add.mpr (Or.inr old))

/-- Pending edges lead forward to the new node. -/
theorem Builds.forward (h : Builds f heads a ⟨sites, s, ↑pending + rest⟩)
    (start : a.Within f heads) {e : FlowEdge}
    (he : e ∈ pending.map fun p => (⟨p.source, s.nodes.length, p.kind, p.condition⟩ : FlowEdge)) :
    e.target = sites.length ∧ Forward a ⟨sites, s, ↑pending + rest⟩ e := by
  obtain ⟨p, hp, rfl⟩ := mem_map.mp he
  have isEnd : p ∈ ↑pending + rest := by simp [hp]
  have before := (h.within start).sound
  have count : s.nodes.length = sites.length := before.nodes_length
  obtain ⟨kind, plain⟩ := before.ends_at p isEnd
  exact ⟨count, h.ends_from start p isEnd, count ▸ h.length_le, count ▸ plain.lt, kind, plain⟩

/-- **What an edge can be**: it leads forward to a node that was made for it, or back to the head of
a loop around. -/
theorem Builds.edges (h : Builds f heads a b) (start : a.Within f heads) :
    ∀ e ∈ b.state.edges, e ∈ a.state.edges ∨ Made heads a b e := by
  induction h with
  | refl => exact fun e he => Or.inl he
  | join built opens _ _ ih =>
    intro e he
    rcases mem_append.mp he with old | new
    · exact (ih start e old).imp_right (·.mono (by simp))
    · exact Or.inr (Made.mono (Or.inl (built.forward start new).2) (by simp))
  | extend _ _ ih =>
    intro e he
    have kept : ∀ (sites : List Site) (first : Span) (more more' : List Span),
        (sites ++ [(⟨.block first more, 1⟩ : Site)]).map Site.shape <+:
          (sites ++ [(⟨.block first more', 1⟩ : Site)]).map Site.shape := by
      simp [Site.shape, Site.kind, Site.continues]
    exact (ih start e he).imp_right (·.mono (kept ..))
  | adjust s' _ _ edges _ _ ih =>
    intro e he
    exact (ih start e (edges ▸ he)).imp_right (·.mono (prefix_refl _))
  | @back _ _ sites s rest head ends built around ih =>
    intro e he
    rcases mem_append.mp he with old | new
    · exact (ih start e old).imp_right (·.mono (prefix_refl _))
    · rw [map_map] at new
      obtain ⟨p, hp, rfl⟩ := mem_map.mp new
      have isEnd : p ∈ ↑ends + rest := by simp [hp]
      have before := built.within start
      exact Or.inr
        (Or.inr ⟨built.ends_from start p isEnd, Or.inl around, before.above p isEnd head around,
        Or.inl rfl, before.loops head around⟩)
  | @again _ _ sites s rest site span label head pending built around _ _ ih =>
    intro e he
    have before := built.within start
    have count : s.nodes.length = sites.length := before.sound.nodes_length
    have bound : head < sites.length := (before.loops head around).lt
    rcases mem_append.mp he with joined | new
    · rcases mem_append.mp joined with old | new
      · exact (ih start e old).imp_right (·.mono (by simp))
      · exact Or.inr (Made.mono (Or.inl (built.forward start new).2) (by simp))
    · rw [mem_singleton.mp new]
      refine Or.inr (Or.inr ⟨Or.inl ?_, Or.inl around, ?_, Or.inr rfl,
        (before.loops head around).mono (by simp)⟩)
      · exact count ▸ built.length_le
      · dsimp only
        omega
  | @loop _ _ sites s rest site span label enter exits sites' s' ends pending built opens plain
      body ih ihBody =>
      intro e he
      have before := built.within start
      have count : s.nodes.length = sites.length := before.sound.nodes_length
      have source : enter.source = sites.length :=
        count ▸ (opens.source enter (Multiset.mem_cons_self _ _)).1
      have bound : _ ≤ sites.length := built.length_le
      have kept : sites.map Site.shape <+: sites'.map Site.shape :=
        .trans (by simp) body.shapes_kept
      rcases ihBody (before.enterLoop opens plain) e he with outside | forward | backward
      · rcases mem_append.mp outside with old | new
        · exact (ih start e old).imp_right (·.mono kept)
        · exact Or.inr (Made.mono (Or.inl (built.forward start new).2) kept)
      · have target := forward.target
        rw [length_append] at target
        exact Or.inr (Or.inl { forward with
          source := forward.source.leaveLoop bound source
          target := by omega })
      · refine Or.inr (Or.inr { backward with
          source := backward.source.leaveLoop bound source
          target := ?_ })
        rcases backward.target with around | new
        · rcases mem_cons.mp around with own | around
          · rw [own, count]
            exact Or.inr bound
          · exact Or.inl around
        · rw [length_append] at new
          exact Or.inr (by omega)

/-! ### Loops are entered at their heads -/

def Closed (edges : List FlowEdge) (head stop : Nat) : Prop :=
  ∀ e ∈ edges, head < e.target → e.target < stop → head ≤ e.source ∧ e.source < stop

/-- Edges to the head or past the loop keep a loop closed. -/
theorem Closed.more {edges more : List FlowEdge} {head stop : Nat} (h : Closed edges head stop)
    (outside : ∀ e ∈ more, e ∈ edges ∨ e.target ≤ head ∨ stop ≤ e.target) :
    Closed more head stop := by
  intro e he above below
  rcases outside e he with old | before | after
  · exact h e old above below
  · omega
  · omega

/-- Every edge back to a head that was made since stage `a` comes from a loop that is closed. -/
def Regions (a b : Stage) : Prop :=
  ∀ e ∈ b.state.edges, a.sites.length ≤ e.target → e.target ≤ e.source →
    ∃ stop ≤ b.sites.length, e.source < stop ∧ Closed b.state.edges e.target stop

/-- New edges do not matter that lead to new nodes or back behind stage `a`. -/
theorem Regions.more {c : Stage} (h : Regions a b) (length : b.sites.length ≤ c.sites.length)
    (outside : ∀ e ∈ c.state.edges, e ∈ b.state.edges ∨ e.target < a.sites.length ∨
      b.sites.length ≤ e.target ∧ e.source < e.target) : Regions a c := by
  intro e he new back
  rcases outside e he with old | before | ⟨-, forward⟩
  · obtain ⟨stop, bound, source, closed⟩ := h e old new back
    refine ⟨stop, bound.trans length, source, closed.more fun e' he' => ?_⟩
    rcases outside e' he' with old | before | ⟨after, -⟩
    · exact Or.inl old
    · exact Or.inr (Or.inl (by omega))
    · exact Or.inr (Or.inr (by omega))
  · omega
  · omega

/-- What the edges can be when the body of a loop is done: those before the loop, those to its head
from before, and those from its nodes, to its nodes or back. -/
theorem Builds.loop_edges {sites' : List Site} {s' : LowerState} {ends : Multiset PendingEdge}
    (before : Stage.Within f heads ⟨sites, s, ↑pending + rest⟩)
    (opens : Opens f s.nodes.length site .loopHead span label (enter ::ₘ exits))
    (plain : site.continues = false)
    (body : Builds f (s.nodes.length :: heads)
      ⟨sites ++ [site], joined f.env s .loopHead span label pending, {enter}⟩ ⟨sites', s', ends⟩) :
    ∀ e ∈ s'.edges, e ∈ s.edges ∨ e.target = sites.length ∧ e.source < e.target ∨
      sites.length ≤ e.source ∧
        (sites.length < e.target ∨ e.target ≤ e.source ∧
          (e.target = sites.length ∨ e.target ∈ heads)) := by
  have count : s.nodes.length = sites.length := before.sound.nodes_length
  have enters : enter.source = sites.length :=
    count ▸ (opens.source enter (Multiset.mem_cons_self _ _)).1
  have inside : ∀ {n}, From
      ⟨sites ++ [site], joined f.env s .loopHead span label pending, {enter}⟩ n →
      sites.length ≤ n := by
    intro n source
    exact (source.leaveLoop (a := ⟨sites, s, 0⟩) (Nat.le_refl _) enters).elim id (by simp)
  intro e he
  rcases body.edges (before.enterLoop opens plain) e he with old | forward | backward
  · rcases mem_append.mp old with old | new
    · exact Or.inl old
    · obtain ⟨target, made⟩ := (Builds.refl _).forward before new
      exact Or.inr (Or.inl ⟨target, made.lt⟩)
  · have target := forward.target
    rw [length_append] at target
    exact Or.inr (Or.inr ⟨inside forward.source, Or.inl target⟩)
  · refine Or.inr (Or.inr ⟨inside backward.source, ?_⟩)
    rcases backward.target with around | new
    · exact Or.inr ⟨backward.le, count ▸ mem_cons.mp around⟩
    · rw [length_append] at new
      exact Or.inl new

/-- **The nodes of a loop are entered at its head only.** While the body of a loop is built, no end
is open outside of it, and when it is done, new edges lead to new nodes or to loops further out. -/
theorem Builds.regions (h : Builds f heads a b) (start : a.Within f heads) : Regions a b := by
  induction h with
  | refl =>
    intro e he new
    have := (start.sound.edges_lt e he).2
    omega
  | join built _ _ _ ih =>
    refine (ih start).more (by simp) fun e he => ?_
    rcases mem_append.mp he with old | new
    · exact Or.inl old
    · obtain ⟨target, made⟩ := built.forward start new
      exact Or.inr (Or.inr ⟨target.ge, made.lt⟩)
  | extend _ _ ih => exact (ih start).more (by simp) fun e he => Or.inl he
  | adjust _ _ _ edges _ _ ih =>
    exact (ih start).more (Nat.le_refl _) fun e he => Or.inl (edges ▸ he)
  | @back _ _ sites s rest head ends built around ih =>
    refine (ih start).more (Nat.le_refl _) fun e he => ?_
    rcases mem_append.mp he with old | new
    · exact Or.inl old
    · rw [map_map] at new
      obtain ⟨p, -, rfl⟩ := mem_map.mp new
      exact Or.inr (Or.inl (start.loops head around).lt)
  | @again _ _ sites s rest site span label head pending built around _ _ ih =>
    refine (ih start).more (by simp) fun e he => ?_
    rcases mem_append.mp he with joined | new
    · rcases mem_append.mp joined with old | new
      · exact Or.inl old
      · obtain ⟨target, made⟩ := built.forward start new
        exact Or.inr (Or.inr ⟨target.ge, made.lt⟩)
    · rw [mem_singleton.mp new]
      exact Or.inr (Or.inl (start.loops head around).lt)
  | @loop heads a sites s rest site span label enter exits sites' s' ends pending built opens plain
      body ih ihBody =>
      have before := built.within start
      have inLoop := before.enterLoop opens plain
      have done := (body.within inLoop).sound
      have edges := Builds.loop_edges before opens plain body
      have longer : sites.length + 1 ≤ sites'.length := by simpa using body.length_le
      have outer : ∀ head ∈ heads, head < a.sites.length :=
        fun head around => (start.loops head around).lt
      intro e he new back
      rcases edges e he with old | ⟨target, forward⟩ | ⟨-, inBody | ⟨-, own | around⟩⟩
      · obtain ⟨stop, bound, source, closed⟩ := ih start e old new back
        dsimp only at bound
        refine ⟨stop, by dsimp only; omega, source, closed.more fun e' he' => ?_⟩
        rcases edges e' he' with old | ⟨target, -⟩ | ⟨-, inBody | ⟨-, own | around⟩⟩
        · exact Or.inl old
        · exact Or.inr (Or.inr (by omega))
        · exact Or.inr (Or.inr (by omega))
        · exact Or.inr (Or.inr (by omega))
        · have := outer _ around
          exact Or.inr (Or.inl (by omega))
      · omega
      · have inside : (sites ++ [site]).length ≤ e.target := by rwa [length_append]
        exact ihBody inLoop e he inside back
      · -- An edge back to the head of this loop; all its nodes are there.
        refine ⟨sites'.length, Nat.le_refl _, (done.edges_lt e he).1, fun e' he' above below => ?_⟩
        refine ⟨?_, (done.edges_lt e' he').1⟩
        rcases edges e' he' with old | ⟨target, -⟩ | ⟨source, -⟩
        · have : e'.target < sites.length := (before.sound.edges_lt e' old).2
          omega
        · omega
        · omega
      · have := outer _ around
        omega

end Stages

/-! ### Walks -/

section Walks

variable {g : FlowGraph} {n : Nat} {walk : List Nat}

theorem Walk.head? (along : Walk g n walk) : walk.head? = some n := by
  cases along <;> rfl

/-- A walk can go on to a successor of its last node. -/
theorem Walk.snoc {u v : Nat} (along : Walk g n walk) (last : walk.getLast? = some u)
    (next : v ∈ g.successors u) :
    Walk g n (walk ++ [v]) := by
  induction along with
  | stop n =>
    obtain rfl : n = u := by simpa using last
    exact .step next (.stop v)
  | @step n m walk first along ih =>
    refine .step first (ih ?_)
    cases along <;> simpa using last

theorem Walk.upTo {u : Nat} {before after : List Nat} (along : Walk g n (before ++ u :: after)) :
    Walk g n (before ++ [u]) := by
  induction before generalizing n with
  | nil =>
    cases along with
    | stop | step => exact .stop _
  | cons m before ih =>
    cases hwalk : before ++ u :: after with
    | nil => simp at hwalk
    | cons k rest =>
      rw [cons_append, hwalk] at along
      cases along with
      | step next along => exact .step next (ih (hwalk ▸ along))

/-- Who walks into a closed loop from outside passes its head. -/
theorem Closed.passes {head stop u : Nat} (closed : Closed g.edges head stop)
    (along : Walk g n walk) (outside : n < head ∨ stop ≤ n) (last : walk.getLast? = some u)
    (inside : head ≤ u ∧ u < stop) :
    head ∈ walk := by
  induction along with
  | stop n =>
    obtain rfl : n = u := by simpa using last
    omega
  | @step n m walk next along ih =>
    obtain ⟨e, he, rfl, rfl⟩ := mem_successors.mp next
    have last' : walk.getLast? = some u := by
      cases along <;> simpa using last
    refine mem_cons_of_mem _ ?_
    by_cases atHead : e.target = head
    · exact mem_of_mem_head? (atHead ▸ along.head?)
    · refine ih ?_ last'
      by_contra entered
      have := closed e he (by omega) (by omega)
      omega

/-! ### Exit paths -/

/-- Nodes, last one first, along a walk from the entry that repeats none. -/
structure Trail (g : FlowGraph) (nodes : List Nat) : Prop where
  walk : Walk g FlowGraph.entry nodes.reverse
  nodup : nodes.Nodup

theorem exitPaths_trail (joins : Joins g) (limit : Int) :
    ∀ path ∈ (g.exitPaths limit).1, Trail g path.nodes.reverse := by
  intro path hpath
  obtain ⟨r, route, rfl⟩ := mem_exitPaths joins hpath
  refine ⟨?_, nodup_reverse.mpr route.nodup⟩
  rw [reverse_reverse]
  exact walk_of_edgesAlong joins route.follows

end Walks

/-! ### Finished graphs -/

structure Reducible (sites : List Site) (g : FlowGraph) : Prop where
  back_edge : ∀ e ∈ g.edges, e.target ≤ e.source →
    (e.kind = .back ∨ e.kind = .jump) ∧ (g.nodes[e.target]?).map (·.kind) = some .loopHead
  dominates : ∀ e ∈ g.edges, e.target ≤ e.source → ∀ walk, Walk g FlowGraph.entry walk →
    walk.getLast? = some e.source → e.target ∈ walk
  cycle : ∀ n walk, Walk g n walk → 2 ≤ walk.length → walk.getLast? = some n →
    ∃ m ∈ walk, (g.nodes[m]?).map (·.kind) = some .loopHead
  exit_path : ∀ limit, ∀ path ∈ (g.exitPaths limit).1, ∀ e ∈ g.edges,
    [e.source, e.target] <:+: path.nodes →
      e.source < e.target ∧ e.kind ≠ .back ∧ ∀ site, sites[e.source]? = some site →
        site.continues = false

/-- The kind of a node is that of its site. -/
theorem HasShape.node_kind {sites : List Site} {kind : NodeKind}
    (h : HasShape sites n (·.1 = kind)) :
    ((sites.map (·.spot.node f))[n]?).map (·.kind) = some kind := by
  obtain ⟨site, found, rfl⟩ := h
  rw [getElem?_map, found]
  exact congrArg some (site.node_kind f)

/-- A walk that never goes back gets to later and later nodes. -/
theorem Walk.increases {walk : List Nat} (along : Walk g n walk)
    (forward : ∀ e ∈ g.edges, e.target ∈ walk → e.source < e.target) : walk.Pairwise (· < ·) := by
  induction along with
  | stop n => simp
  | @step n m walk next along ih =>
    have later := ih fun e he inside => forward e he (mem_cons_of_mem _ inside)
    obtain ⟨rest, rfl⟩ := head?_eq_some_iff.mp along.head?
    obtain ⟨e, he, rfl, rfl⟩ := mem_successors.mp next
    have first : e.source < e.target := forward e he (by simp)
    refine pairwise_cons.mpr ⟨fun k hk => ?_, later⟩
    rcases mem_cons.mp hk with rfl | hk
    · exact first
    · exact first.trans ((pairwise_cons.mp later).1 k hk)

/-- A trail follows no edge that leads back: it has passed the target already. -/
theorem Trail.forward {nodes : List Nat} (h : Trail g nodes.reverse)
    (dominates : e.target ≤ e.source → ∀ walk, Walk g FlowGraph.entry walk →
      walk.getLast? = some e.source → e.target ∈ walk)
    (follows : [e.source, e.target] <:+: nodes) : e.source < e.target := by
  by_contra back
  obtain ⟨before, after, rfl⟩ := follows
  have walk : Walk g FlowGraph.entry (before ++ e.source :: (e.target :: after)) := by
    simpa using h.walk
  have passed := dominates (by omega) _ walk.upTo (by simp)
  have nodup : (before ++ [e.source] ++ (e.target :: after)).Nodup := by
    simpa using nodup_reverse.mp h.nodup
  exact (nodup_append.mp nodup).2.2 _ passed _ (by simp) rfl

/-- In a finished graph every edge was made since the entry. -/
theorem made_since_start (builds : Builds f [] (Stage.start f) b) :
    ∀ e ∈ b.state.edges, Made [] (Stage.start f) b e :=
  fun e he => (builds.edges (Stage.start_within f) e he).resolve_left
    (by simp [Stage.start, entered, joined])

theorem Made.target_pos (h : Made [] (Stage.start f) b e) : 0 < e.target := by
  rcases h with forward | backward
  · exact forward.target
  · exact backward.target.resolve_left (by simp)

/-- **Flow graphs are reducible**, for any statement tree. -/
theorem graph_reducible (f : FunctionText) (body : List Stmt) :
    ∃ sites, Describes f body sites (f.graph body) ∧ Reducible sites (f.graph body) := by
  obtain ⟨sites, s, builds, graph, describes⟩ := graph_history f body
  have joins := graph_joins f body
  refine ⟨sites, describes, ?_⟩
  rw [graph] at describes joins ⊢
  have edges := made_since_start builds
  have backward : ∀ e ∈ s.edges,
      e.target ≤ e.source → Backward [] (Stage.start f) ⟨sites, s, 0⟩ e :=
    fun e he back => (edges e he).resolve_left fun forward => Nat.not_lt.mpr back forward.lt
  have loop : ∀ e ∈ s.edges,
      e.target ≤ e.source → (s.nodes[e.target]?).map (·.kind) = some .loopHead := by
    intro e he back
    have nodes : s.nodes = _ := describes.nodes_eq
    rw [nodes]
    exact (backward e he back).loop.node_kind
  have dominates : ∀ e ∈ s.edges, e.target ≤ e.source → ∀ walk, Walk s.graph FlowGraph.entry walk →
      walk.getLast? = some e.source → e.target ∈ walk := by
    intro e he back walk along last
    have afterEntry := (edges e he).target_pos
    obtain ⟨stop, -, source, closed⟩ := builds.regions (Stage.start_within f) e he afterEntry back
    exact closed.passes along (Or.inl afterEntry) last ⟨back, source⟩
  refine ⟨fun e he back => ⟨(backward e he back).kind, loop e he back⟩, dominates, ?_, ?_⟩
  · intro n walk along long last
    by_contra! noLoop
    have later := along.increases fun e he inside => by
      by_contra back
      exact noLoop _ inside (loop e he (by omega))
    -- Later and later nodes do not come back to the first one.
    obtain ⟨rest, rfl⟩ := head?_eq_some_iff.mp along.head?
    have returns : n ∈ rest := by
      cases rest with
      | nil => simp at long
      | cons m rest => exact mem_of_getLast? (getLast?_cons_cons ▸ last)
    exact Nat.lt_irrefl n ((pairwise_cons.mp later).1 n returns)
  · intro limit path hpath e he follows
    have lt := (exitPaths_trail joins limit path hpath).forward (dominates e he) follows
    have forward := (edges e he).resolve_right fun back => Nat.not_lt.mpr back.le lt
    obtain ⟨site, found, plain⟩ := forward.plain
    refine ⟨lt, forward.kind, fun site' found' => ?_⟩
    rw [Option.some.inj (found'.symm.trans found)]
    exact plain

/-- **Every flow graph is reducible.** In the graph of any statement tree, an edge to the same or an
earlier node has kind back or jump and leads to the head of a loop, which every walk from the entry
to its source passes. So every cycle passes the head of a loop, and no exit path uses a back edge or
the edge of a continue. The graph of an indexed function is that of the statements parsed from its
text. -/
theorem flow_reducible :
    (∀ (f : FunctionText) (body : List Stmt),
        ∃ sites, Describes f body sites (f.graph body) ∧ Reducible sites (f.graph body)) ∧
      ∀ (file : SourceFile) (entry : Entry) (withDiagram : Bool),
        match parseStatements file entry with
        | .error e => FunctionFlow.ofEntry file entry withDiagram = .error e
        | .ok (body, _) => ∃ flow, FunctionFlow.ofEntry file entry withDiagram = .ok flow ∧
            flow.exitPaths = (flow.graph.exitPaths FlowGraph.maxExitPaths).1 ∧
            ∃ sites, Describes (.ofEntry file entry) body sites flow.graph ∧
              Reducible sites flow.graph := by
  refine ⟨graph_reducible, fun file entry withDiagram => ?_⟩
  rcases ofEntry_spec file entry withDiagram
    with ⟨e, parse, failed⟩ | ⟨parsed, flow, parse, made, graph, paths⟩
  · rw [parse]
    exact failed
  · rw [parse]
    exact ⟨flow, made, paths, graph ▸ graph_reducible _ _⟩

end CodeAtlas.Flow
