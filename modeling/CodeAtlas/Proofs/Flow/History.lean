import CodeAtlas.Proofs.Flow.Balance

/-!
How a flow graph comes about.

A stage of the construction has the sites that its nodes stand for, each with the number of edges
that are to leave it, and the open ends: edges that have a source and no target yet. `Builds` has
one rule for each thing that lowering does to a stage. A rule names the open ends that it uses up,
so what is parked elsewhere, such as the breaks out of an outer loop, stays out of reach; the body
of a loop starts from the edge into it and nothing else.

Every statement tree is lowered by these rules, so what holds of a graph is shown by induction over
the rules and not over the tree. The first such result is `Builds.within`.
-/

namespace CodeAtlas.Flow

open List

variable {sites : List Site} {n : Nat} {p : NodeKind × Bool × Nat → Prop}

/-! ### Sites -/

def visitKind : Visit → NodeKind
  | .enter => .entry
  | .stmt (.leave kind _) => .exit kind
  | .stmt (.tryOp _) => .branch
  | .stmt (.jump _ _ _) => .jump
  | .stmt (.branch _ _ _ _) => .branch
  | .stmt (.loop _ _ _ _) => .loopHead
  | .stmt (.choice _ _ _) => .branch
  | .stmt (.guarded _ _ _ _ _) => .branch
  | .stmt _ => .block
  | .early _ => .exit .returns
  | .finish => .exit .returns

def isContinue : Visit → Bool
  | .stmt (.jump .continues _ _) => true
  | _ => false

/-- What a node stands for, and how many edges are to leave it. -/
structure Site where
  spot : Spot
  degree : Nat

namespace Site

def kind (site : Site) : NodeKind :=
  match site.spot with
  | .single v => visitKind v
  | .block _ _ => .block

def continues (site : Site) : Bool :=
  match site.spot with
  | .single v => isContinue v
  | .block _ _ => false

def steps (site : Site) : List (Visit × Nat) :=
  site.spot.visits.map (·, site.degree)

def shape (site : Site) : NodeKind × Bool × Nat :=
  (site.kind, site.continues, site.degree)

/-- The node of a site has the kind of the site. -/
theorem node_kind (f : FunctionText) (site : Site) : (site.spot.node f).kind = site.kind := by
  obtain ⟨spot, degree⟩ := site
  cases spot with
  | block first more => rfl
  | single v =>
    cases v with
    | stmt s => cases s <;> rfl
    | enter | early span | finish => rfl

end Site

/-! ### Stages -/

structure Stage where
  sites : List Site
  state : LowerState
  ends : Multiset PendingEdge

/-- The site at the new node `n` opens the ends `next`. A block starts with a single statement. -/
structure Opens (f : FunctionText) (n : Nat) (site : Site) (kind : NodeKind) (span : Span)
    (label : String) (next : Multiset PendingEdge) : Prop where
  node_eq : site.spot.node f = nodeAt f.env kind span label
  block : kind = .block → ∃ first, site = ⟨.block first [], 1⟩
  card : next.card = site.degree
  source : ∀ p ∈ next, p.source = n ∧ p.kind ≠ .back

/-- How a stage comes from an earlier one, inside the loops with the given heads. -/
inductive Builds (f : FunctionText) : List Nat → Stage → Stage → Prop
  | refl {heads : List Nat} (a : Stage) : Builds f heads a a
  | join {heads a sites s rest site kind span label next} {pending : List PendingEdge} :
      Builds f heads a ⟨sites, s, ↑pending + rest⟩ →
      Opens f s.nodes.length site kind span label next → kind ≠ .loopHead →
      (site.continues = true → next = 0) →
      Builds f heads a ⟨sites ++ [site], joined f.env s kind span label pending, next + rest⟩
  | extend {heads a sites s ends first more} (span : Span) :
      Builds f heads a ⟨sites ++ [⟨.block first more, 1⟩], s, ends⟩ →
      Builds f heads a ⟨sites ++ [⟨.block first (more ++ [span]), 1⟩],
        { s with
          nodes := s.nodes.modify sites.length fun n =>
            { n with endLine := max n.endLine (Lower.endLine f.env span) } }, ends⟩
  | adjust {heads a sites s ends} (s' : LowerState) :
      Builds f heads a ⟨sites, s, ends⟩ → s'.nodes = s.nodes → s'.edges = s.edges →
        s'.links = s.links →
      s'.openBlock = none ∨ s'.openBlock = s.openBlock → Builds f heads a ⟨sites, s', ends⟩
  | back {heads a sites s rest head} {ends : List PendingEdge} :
      Builds f heads a ⟨sites, s, ↑ends + rest⟩ → head ∈ heads →
      Builds f heads a ⟨sites, goBack s ends head, rest⟩
  /-- A continue takes some open ends and goes back to the head of a loop around. -/
  | again {heads a sites s rest site span label head} {pending : List PendingEdge} :
      Builds f heads a ⟨sites, s, ↑pending + rest⟩ → head ∈ heads →
      site.spot.node f = nodeAt f.env .jump span label → site.degree = 1 →
      Builds f heads a ⟨sites ++ [site],
        (joined f.env s .jump span label pending).addEdges
          [⟨s.nodes.length, head, .jump, none⟩], rest⟩
  | loop {heads a sites s rest site span label enter exits sites' s' ends}
      {pending : List PendingEdge} :
      Builds f heads a ⟨sites, s, ↑pending + rest⟩ →
      Opens f s.nodes.length site .loopHead span label (enter ::ₘ exits) → site.continues = false →
      Builds f (s.nodes.length :: heads)
        ⟨sites ++ [site], joined f.env s .loopHead span label pending, {enter}⟩ ⟨sites', s', ends⟩ →
      Builds f heads a ⟨sites', s', ends + (exits + rest)⟩

namespace Builds

variable {f : FunctionText} {heads : List Nat} {a b : Stage}

theorem trans {c : Stage} (ab : Builds f heads a b) (bc : Builds f heads b c) :
    Builds f heads a c := by
  induction bc with
  | refl => exact ab
  | join _ opens noLoop stops ih => exact .join (ih ab) opens noLoop stops
  | extend span _ ih => exact .extend span (ih ab)
  | adjust s' _ nodes edges links block ih => exact .adjust s' (ih ab) nodes edges links block
  | back _ inside ih => exact .back (ih ab) inside
  | again _ inside node degree ih => exact .again (ih ab) inside node degree
  | loop _ opens noContinue body ih _ => exact .loop (ih ab) opens noContinue body

/-- **What is parked elsewhere stays there**: more open ends on both sides change nothing. -/
theorem frame (h : Builds f heads a b) (more : Multiset PendingEdge) :
    Builds f heads ⟨a.sites, a.state, a.ends + more⟩ ⟨b.sites, b.state, b.ends + more⟩ := by
  induction h with
  | refl => exact .refl _
  | join _ opens noLoop stops ih =>
    rw [add_assoc] at ih ⊢
    exact .join ih opens noLoop stops
  | extend span _ ih => exact .extend span ih
  | adjust s' _ nodes edges links block ih => exact .adjust s' ih nodes edges links block
  | back _ inside ih =>
    rw [add_assoc] at ih
    exact .back ih inside
  | again _ inside node degree ih =>
    rw [add_assoc] at ih
    exact .again ih inside node degree
  | loop _ opens noContinue body ih _ =>
    rw [add_assoc] at ih
    rw [add_assoc, add_assoc]
    exact .loop ih opens noContinue body

/-- Sites keep their number, kind and degree; only a block may get more statements. -/
theorem shapes_kept (h : Builds f heads a b) :
    a.sites.map Site.shape <+: b.sites.map Site.shape := by
  induction h with
  | refl => exact prefix_refl _
  | join _ _ _ _ ih => exact ih.trans (by simp)
  | extend _ _ ih => exact ih.trans (by simp [Site.shape, Site.kind, Site.continues])
  | adjust _ _ _ _ _ _ ih | back _ _ ih => exact ih
  | again _ _ _ _ ih => exact ih.trans (by simp)
  | loop _ _ _ _ ih body => exact ih.trans ((by simp : _ <+: _).trans body)

theorem length_le (h : Builds f heads a b) : a.sites.length ≤ b.sites.length := by
  simpa using h.shapes_kept.length_le

end Builds

def HasShape (sites : List Site) (n : Nat) (p : NodeKind × Bool × Nat → Prop) : Prop :=
  ∃ site, sites[n]? = some site ∧ p site.shape

theorem HasShape.lt (h : HasShape sites n p) : n < sites.length := by
  obtain ⟨site, found, -⟩ := h
  exact (List.getElem?_eq_some_iff.mp found).1

/-- A site that is there keeps its shape at later stages. -/
theorem HasShape.mono {sites' : List Site}
    (h : HasShape sites n p) (kept : sites.map Site.shape <+: sites'.map Site.shape) :
    HasShape sites' n p := by
  obtain ⟨site, found, holds⟩ := h
  have shape : (sites.map Site.shape)[n]? = some site.shape := by rw [getElem?_map, found]; rfl
  obtain ⟨more, same⟩ := kept
  have bound := (List.getElem?_eq_some_iff.mp shape).1
  have later : (sites'.map Site.shape)[n]? = some site.shape := by
    rw [← same, getElem?_append_left bound, shape]
  rw [getElem?_map, Option.map_eq_some_iff] at later
  obtain ⟨site', found', sameShape⟩ := later
  exact ⟨site', found', sameShape ▸ holds⟩

theorem hasShape_last (sites : List Site) (site : Site) (p : NodeKind × Bool × Nat → Prop)
    (holds : p site.shape) : HasShape (sites ++ [site]) sites.length p :=
  ⟨site, by simp, holds⟩

/-- A stage hangs together: sites describe the nodes, edges and open ends start and end at nodes, no
open end comes from a continue, and an open block is the last node. -/
structure Stage.Sound (f : FunctionText) (a : Stage) : Prop where
  nodes_eq : a.state.nodes = a.sites.map (·.spot.node f)
  edges_lt : ∀ e ∈ a.state.edges, e.source < a.sites.length ∧ e.target < a.sites.length
  ends_at : ∀ p ∈ a.ends, p.kind ≠ .back ∧ HasShape a.sites p.source (·.2.1 = false)
  open_last : ∀ b, a.state.openBlock = some b →
    ∃ init first more, a.sites = init ++ [⟨.block first more, 1⟩] ∧ b = init.length

theorem modify_last {α : Type} (g : α → α) (xs : List α) (x : α) :
    (xs ++ [x]).modify xs.length g = xs ++ [g x] := by
  induction xs with
  | nil => rfl
  | cons y ys ih => simp [ih]

namespace Stage.Sound

variable {f : FunctionText} {sites : List Site} {s : LowerState} {pending : List PendingEdge}
  {rest next : Multiset PendingEdge} {ends : Multiset PendingEdge}

theorem nodes_length {a : Stage} (sound : a.Sound f) : a.state.nodes.length = a.sites.length := by
  rw [sound.nodes_eq, length_map]

/-- A new node for the pending edges keeps a stage sound, whatever ends it opens. -/
theorem join {site : Site} {kind : NodeKind} {span : Span} {label : String}
    (sound : Sound f ⟨sites, s, ↑pending + rest⟩)
    (node_eq : site.spot.node f = nodeAt f.env kind span label)
    (block : kind = .block → ∃ first, site = ⟨.block first [], 1⟩)
    (opens : ∀ p ∈ next, p.source = s.nodes.length ∧ p.kind ≠ .back ∧ site.continues = false) :
    Sound f ⟨sites ++ [site], joined f.env s kind span label pending, next + rest⟩ := by
  have count : s.nodes.length = sites.length := sound.nodes_length
  have kept : sites.map Site.shape <+: (sites ++ [site]).map Site.shape := by simp
  refine ⟨?_, ?_, ?_, ?_⟩
  · have nodes : s.nodes = sites.map (·.spot.node f) := sound.nodes_eq
    simp [joined, nodes, node_eq]
  · intro e he
    rw [length_append, length_singleton]
    rcases mem_append.mp he with he | he
    · have bounds := sound.edges_lt e he
      dsimp only at bounds
      omega
    · obtain ⟨p, hp, rfl⟩ := mem_map.mp he
      have source := (sound.ends_at p (by simp [hp])).2.lt
      dsimp only at source ⊢
      omega
  · intro p hp
    rcases Multiset.mem_add.mp hp with new | old
    · obtain ⟨source, kind, plain⟩ := opens p new
      rw [source, count]
      exact ⟨kind, hasShape_last sites site _ plain⟩
    · obtain ⟨kind, at_⟩ := sound.ends_at p (by simp [old])
      exact ⟨kind, at_.mono kept⟩
  · intro b hb
    simp only [joined] at hb
    split at hb
    · rename_i isBlock
      obtain ⟨first, rfl⟩ := block (by simpa using isBlock)
      exact ⟨sites, first, [], rfl, (Option.some.inj hb).symm.trans count⟩
    · cases hb

/-- More edges between nodes that are there keep a stage sound. -/
theorem addEdges {s' : LowerState} (sound : Sound f ⟨sites, s, ends⟩)
    (new : List FlowEdge) (nodes : s'.nodes = s.nodes) (edges : s'.edges = s.edges ++ new)
    (new_lt : ∀ e ∈ new, e.source < sites.length ∧ e.target < sites.length)
    (fewer : ∀ p ∈ rest, p ∈ ends)
    (block : s'.openBlock = none ∨ s'.openBlock = s.openBlock) : Sound f ⟨sites, s', rest⟩ := by
  refine ⟨nodes.trans sound.nodes_eq, ?_, fun p hp => sound.ends_at p (fewer p hp), ?_⟩
  · intro e he
    rw [edges] at he
    rcases mem_append.mp he with old | new
    · exact sound.edges_lt e old
    · exact new_lt e new
  · intro b hb
    rcases block with closed | same
    · rw [closed] at hb
      cases hb
    · exact sound.open_last b (same ▸ hb)

/-- One more statement in the last block keeps a stage sound. -/
theorem extend {first : Span} {more : List Span}
    (sound : Sound f ⟨sites ++ [⟨.block first more, 1⟩], s, ends⟩) (span : Span) :
    Sound f ⟨sites ++ [⟨.block first (more ++ [span]), 1⟩], { s with
        nodes := s.nodes.modify sites.length fun n =>
          { n with endLine := max n.endLine (Lower.endLine f.env span) } }, ends⟩ := by
  have kept : (sites ++ [(⟨.block first more, 1⟩ : Site)]).map Site.shape <+:
      (sites ++ [(⟨.block first (more ++ [span]), 1⟩ : Site)]).map Site.shape := by
    simp [Site.shape, Site.kind, Site.continues]
  refine ⟨?_, ?_, ?_, ?_⟩
  · have nodes : s.nodes = _ := sound.nodes_eq
    have count : (sites.map (·.spot.node f)).length = sites.length := length_map _
    simp only [nodes, map_append, map_cons, map_nil, node_snoc]
    rw [← count, modify_last]
  · simpa using sound.edges_lt
  · exact fun p hp => ⟨(sound.ends_at p hp).1, (sound.ends_at p hp).2.mono kept⟩
  · intro b hb
    obtain ⟨init, first', more', same, rfl⟩ := sound.open_last b hb
    obtain ⟨rfl, -⟩ := append_inj' same rfl
    exact ⟨sites, first, more ++ [span], rfl, rfl⟩

end Stage.Sound

/-- A stage inside the loops with the given heads: it hangs together, and its open ends start at the
innermost head or behind it. -/
structure Stage.Within (f : FunctionText) (heads : List Nat) (a : Stage) : Prop where
  sound : a.Sound f
  loops : ∀ head ∈ heads, HasShape a.sites head (·.1 = .loopHead)
  above : ∀ p ∈ a.ends, ∀ head ∈ heads, head ≤ p.source

namespace Stage.Within

variable {f : FunctionText} {heads : List Nat} {sites : List Site} {s : LowerState}
  {pending : List PendingEdge} {rest next : Multiset PendingEdge} {site : Site} {span : Span}
  {label : String}

theorem fewer {s' : LowerState} {ends : Multiset PendingEdge} (h : Within f heads ⟨sites, s, ends⟩)
    (nodes : s'.nodes = s.nodes) (edges : s'.edges = s.edges) (less : ∀ p ∈ rest, p ∈ ends)
    (block : s'.openBlock = none ∨ s'.openBlock = s.openBlock) : Within f heads ⟨sites, s', rest⟩ :=
  ⟨h.sound.addEdges [] nodes (by simp [edges]) nofun less block, h.loops,
    fun p hp => h.above p (less p hp)⟩

/-- A new node inside some loops stays inside them: its ends start at itself. -/
theorem join {kind : NodeKind} (h : Within f heads ⟨sites, s, ↑pending + rest⟩)
    (opens : Opens f s.nodes.length site kind span label next)
    (stops : site.continues = true → next = 0) :
    Within f heads ⟨sites ++ [site], joined f.env s kind span label pending, next + rest⟩ := by
  have count : s.nodes.length = sites.length := h.sound.nodes_length
  refine ⟨h.sound.join opens.node_eq opens.block fun p hp => ?_,
    fun head around => (h.loops head around).mono (by simp), ?_⟩
  · refine ⟨(opens.source p hp).1, (opens.source p hp).2, Bool.eq_false_iff.mpr fun continues => ?_⟩
    rw [stops continues] at hp
    exact absurd hp (Multiset.notMem_zero p)
  · intro p hp head around
    rcases Multiset.mem_add.mp hp with new | old
    · rw [(opens.source p new).1, count]
      exact Nat.le_of_lt (h.loops head around).lt
    · exact h.above p (Multiset.mem_add.mpr (Or.inr old)) head around

/-- The body of a loop starts inside the loop, with the edge into it alone. -/
theorem enterLoop {enter : PendingEdge} {exits : Multiset PendingEdge}
    (h : Within f heads ⟨sites, s, ↑pending + rest⟩)
    (opens : Opens f s.nodes.length site .loopHead span label (enter ::ₘ exits))
    (plain : site.continues = false) :
    Within f (s.nodes.length :: heads) ⟨sites ++ [site],
      joined f.env s .loopHead span label pending, {enter}⟩ := by
  have count : s.nodes.length = sites.length := h.sound.nodes_length
  have made : Within f heads
      ⟨sites ++ [site], joined f.env s .loopHead span label pending, {enter}⟩ :=
    (h.join opens (by simp [plain])).fewer rfl rfl
      (fun p hp => by simp [Multiset.mem_singleton.mp hp]) (Or.inr rfl)
  have kind : site.kind = .loopHead := by
    rw [← site.node_kind f, opens.node_eq]
    rfl
  refine ⟨made.sound, ?_, ?_⟩
  · intro head around
    rcases mem_cons.mp around with rfl | around
    · rw [count]
      exact hasShape_last sites site _ kind
    · exact made.loops head around
  · intro p hp head around
    rcases mem_cons.mp around with rfl | around
    · rw [Multiset.mem_singleton.mp hp, (opens.source enter (Multiset.mem_cons_self _ _)).1]
    · exact made.above p hp head around

end Stage.Within

/-- **What is built inside some loops stays inside them**, by induction over the rules. -/
theorem Builds.within {f : FunctionText} {heads : List Nat} {a b : Stage} (h : Builds f heads a b)
    (start : a.Within f heads) : b.Within f heads := by
  induction h with
  | refl => exact start
  | join _ opens _ stops ih => exact (ih start).join opens stops
  | extend span _ ih =>
    have before := ih start
    exact ⟨before.sound.extend span, fun head around => (before.loops head around).mono
      (by simp [Site.shape, Site.kind, Site.continues]), before.above⟩
  | adjust s' _ nodes edges _ block ih => exact (ih start).fewer nodes edges (fun _ hp => hp) block
  | @back _ _ sites s rest head ends _ around ih =>
    have before := ih start
    have fewer : ∀ p ∈ rest, p ∈ ↑ends + rest := fun p hp => by simp [hp]
    refine ⟨before.sound.addEdges _ rfl rfl ?_ fewer (Or.inl rfl), before.loops,
      fun p hp => before.above p (fewer p hp)⟩
    intro e he
    rw [map_map] at he
    obtain ⟨p, hp, rfl⟩ := mem_map.mp he
    exact ⟨(before.sound.ends_at p (by simp [hp])).2.lt, (before.loops head around).lt⟩
  | @again _ _ sites s rest site span label head pending _ around node _ ih =>
    have before := ih start
    have count : s.nodes.length = sites.length := before.sound.nodes_length
    have made : Stage.Sound f
        ⟨sites ++ [site], joined f.env s .jump span label pending, 0 + rest⟩ :=
      before.sound.join node nofun (by simp)
    refine ⟨made.addEdges _ rfl rfl ?_ (fun p hp => by simpa using hp) (Or.inr rfl),
      fun head around => (before.loops head around).mono (by simp),
      fun p hp => before.above p (by simp [hp])⟩
    have bound : head < sites.length := (before.loops head around).lt
    simp only [forall_mem_singleton, length_append, length_singleton, count]
    omega
  | @loop _ _ sites s rest site span label enter exits sites' s' ends pending _ opens plain
      body ih ihBody =>
    have before := ih start
    have atHead := before.join opens (by simp [plain])
    have done := ihBody (before.enterLoop opens plain)
    have parked : ∀ p ∈ exits + rest, p ∈ (enter ::ₘ exits) + rest := by
      intro p hp
      rw [Multiset.cons_add]
      exact Multiset.mem_cons_of_mem hp
    refine ⟨⟨done.sound.nodes_eq, done.sound.edges_lt, ?_, done.sound.open_last⟩,
      fun head around => done.loops head (mem_cons_of_mem _ around), ?_⟩
    · intro p hp
      rcases Multiset.mem_add.mp hp with inside | outside
      · exact done.sound.ends_at p inside
      · obtain ⟨kind, at_⟩ := atHead.sound.ends_at p (parked p outside)
        exact ⟨kind, at_.mono body.shapes_kept⟩
    · intro p hp head around
      rcases Multiset.mem_add.mp hp with inside | outside
      · exact done.above p inside head (mem_cons_of_mem _ around)
      · exact atHead.above p (parked p outside) head around

end CodeAtlas.Flow
