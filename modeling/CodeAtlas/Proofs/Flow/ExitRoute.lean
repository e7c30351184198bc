import Mathlib
import CodeAtlas.Flow.ExitPath

/-!
The search for exit paths lists all of them, in order.

A route is a sequence of edges from the entry to an exit, given also by the places at which its
edges stand among those of their nodes. Depth-first order is the lexicographic order of these
places. `routes` lists the routes of a graph by recursion over the nodes that are not on the path
yet.

The search keeps a stack, a path, a set of nodes and a list of conditions, which grow and shrink
together. What becomes of them at one edge depends on where it leads: to a node on the path
(`search_repeat`), to an exit (`search_exit`) or to another node (`search_enter`). `search_level`
says what has been found when all edges out of the last node are tried: then everything else is as
it was before.
-/

namespace CodeAtlas.LinkedGraph

open List

variable {g : LinkedGraph} {r : Route}

/-! ### Routes -/

structure InRange (g : LinkedGraph) : Prop where
  entry : g.nodes = [] ∨ g.entry < g.nodes.length
  outEdges : ∀ node ∈ g.nodes, ∀ i ∈ node.outEdges, i < g.edges.length
  edges : ∀ e ∈ g.edges, e.source < g.nodes.length ∧ e.target < g.nodes.length

def outEdges (g : LinkedGraph) (n : Nat) : List Nat :=
  (g.nodes[n]?.map (·.outEdges)).getD []

def edgesAlong (g : LinkedGraph) : (node : Nat) → (picks : List Nat) → Option (List FlowEdge)
  | _, [] => some []
  | n, pick :: picks => do
      let i ← (g.outEdges n)[pick]?
      let e ← g.edges[i]?
      let edges ← edgesAlong g e.target picks
      return e :: edges

/-- A sequence of edges, with the places at which they stand among the edges of their nodes. -/
structure Route where
  picks : List Nat
  edges : List FlowEdge

def targets (edges : List FlowEdge) : List Nat :=
  edges.map (·.target)

def EndsAtExit (g : LinkedGraph) (edges : List FlowEdge) : Prop :=
  ∃ before last, edges = before ++ [last] ∧ last.target ∈ g.exits ∧ ∀ e ∈ before, e.target ∉ g.exits

/-- A route leads from the entry to an exit. It repeats no node, so the exit is not the entry, and
it meets no other exit behind the entry. -/
structure IsRoute (g : LinkedGraph) (r : Route) : Prop where
  follows : g.edgesAlong g.entry r.picks = some r.edges
  nodup : (g.entry :: targets r.edges).Nodup
  ends : g.EndsAtExit r.edges

/-- All routes of a graph, in depth-first order: of two routes, the one that takes an earlier edge
where they part comes first. -/
structure Enumerates (g : LinkedGraph) (routes : List Route) : Prop where
  ordered : routes.Pairwise (·.picks < ·.picks)
  mem_iff : ∀ r, r ∈ routes ↔ g.IsRoute r

def decision? (g : LinkedGraph) (e : FlowEdge) : Option PathCondition := do
  let expression ← e.condition
  let mustBeTrue ← e.kind.decides?
  let node ← g.nodes[e.source]?
  return ⟨expression, mustBeTrue, node.startLine⟩

def exitKindOf (g : LinkedGraph) (n : Nat) : ExitKind :=
  (g.nodes[n]?.bind (·.exitKind)).getD .returns

/-- The exit path of a route: its nodes from the entry on, and the decisions on it in order. -/
def pathAlong (g : LinkedGraph) (r : Route) : ExitPath :=
  let nodes := g.entry :: targets r.edges
  let exit := nodes.getLastD g.entry
  ⟨nodes, r.edges.filterMap g.decision?, exit, g.exitKindOf exit⟩

/-! ### Listing the routes -/

/-- The routes that go on from a path by one of the numbered edges. A path and `fuel` together have
one node more than the graph. -/
def routesBy (g : LinkedGraph) :
    (fuel : Nat) → (path : List Nat) → (todo : List (Nat × Nat)) → List Route
  | 0, _, _ => []
  | fuel + 1, path, todo => todo.flatMap fun (i, pick) =>
      match g.edges[i]? with
      | none => []
      | some e =>
          if path.contains e.target then []
          else if g.exits.contains e.target then [⟨[pick], [e]⟩]
          else (routesBy g fuel (e.target :: path) (g.outEdges e.target).zipIdx).map fun r =>
            ⟨pick :: r.picks, e :: r.edges⟩

def routes (g : LinkedGraph) : List Route :=
  g.routesBy g.nodes.length [g.entry] (g.outEdges g.entry).zipIdx

section Listing

variable {g : LinkedGraph} {fuel : Nat} {path : List Nat} {e : FlowEdge} {i pick : Nat}

/-- The routes by some edges, edge after edge. -/
theorem routesBy_cons (todo : List (Nat × Nat)) : g.routesBy (fuel + 1) path ((i, pick) :: todo) =
      g.routesBy (fuel + 1) path [(i, pick)] ++ g.routesBy (fuel + 1) path todo := by
  simp [routesBy]

/-- No route goes back to a node of the path. -/
theorem routesBy_repeat (found : g.edges[i]? = some e) (onPath : e.target ∈ path) :
    g.routesBy (fuel + 1) path [(i, pick)] = [] := by
  simp [routesBy, found, onPath]

theorem routesBy_exit (found : g.edges[i]? = some e) (new : e.target ∉ path)
    (exit : e.target ∈ g.exits) :
    g.routesBy (fuel + 1) path [(i, pick)] = [⟨[pick], [e]⟩] := by
  simp [routesBy, found, new, exit]

/-- At another node the routes go on from there. -/
theorem routesBy_enter (found : g.edges[i]? = some e) (new : e.target ∉ path)
    (inner : e.target ∉ g.exits) :
    g.routesBy (fuel + 1) path [(i, pick)] =
      (g.routesBy fuel (e.target :: path) (g.outEdges e.target).zipIdx).map fun r =>
        ⟨pick :: r.picks, e :: r.edges⟩ := by
  simp [routesBy, found, new, inner]

end Listing

/-! ### One step of the search -/

def goingOn (g : LinkedGraph) (path : List Nat) (conditions : List PathCondition)
    (edges : List FlowEdge) :
    ExitPath :=
  let nodes := path.reverse ++ targets edges
  let exit := nodes.getLastD g.entry
  ⟨nodes, conditions.reverse ++ edges.filterMap g.decision?, exit, g.exitKindOf exit⟩

section Search

variable {g : LinkedGraph} {limit : Int} {found : List ExitPath} {path onPath : List Nat}
  {conditions : List PathCondition} {todo : List Nat} {decided : Bool} {levels : List SearchLevel}
  {e : FlowEdge} {i : Nat} {n : Nat}

/-- The numbers that a node lists are those of edges. -/
theorem InRange.edge_of_mem_outEdges (fits : g.InRange) (mem : i ∈ g.outEdges n) :
    ∃ e ∈ g.edges, g.edges[i]? = some e := by
  have bound : i < g.edges.length := by
    unfold LinkedGraph.outEdges at mem
    cases hnode : g.nodes[n]? with
    | none => simp [hnode] at mem
    | some node =>
      rw [hnode] at mem
      exact fits.outEdges node (mem_of_getElem? hnode) i mem
  exact ⟨g.edges[i], getElem_mem bound, getElem?_eq_getElem bound⟩

/-- An edge ends at a node, with the links that are stored for it. -/
theorem InRange.target_node (fits : g.InRange) (he : e ∈ g.edges) :
    ∃ node, g.nodes[e.target]? = some node ∧ node.outEdges = g.outEdges e.target ∧
      node.exitKind.getD .returns = g.exitKindOf e.target := by
  have bound := (fits.edges e he).2
  have hnode := getElem?_eq_getElem bound
  refine ⟨_, hnode, ?_, ?_⟩
  · simp [LinkedGraph.outEdges, hnode]
  · simp [exitKindOf, hnode]

/-- The condition of an edge can always be computed. -/
theorem InRange.condition?_eq (fits : g.InRange) (he : e ∈ g.edges) :
    g.condition? e = some (g.decision? e) := by
  have hnode := getElem?_eq_getElem (fits.edges e he).1
  unfold condition? decision?
  cases e.condition with
  | none => rfl
  | some expression =>
    cases e.kind.decides? with
    | none => rfl
    | some mustBeTrue => simp [hnode]

/-- With no level left the search has found all paths. -/
theorem search_done : g.search limit ⟨found, path, onPath, conditions, []⟩ =
    some (found, false) := by
  rw [search]
  rfl

/-- When a node is left, all that was noted when it was entered is taken back. -/
theorem search_leave {condition : Option PathCondition} (new : n ∉ onPath) :
    g.search limit ⟨found, n :: path, n :: onPath, condition.toList ++ conditions,
      ⟨[], condition.isSome⟩ :: levels⟩ =
      g.search limit ⟨found, path, onPath, conditions, levels⟩ := by
  have back : (if condition.isSome then (condition.toList ++ conditions).tail
      else condition.toList ++ conditions) = conditions := by
    cases condition <;> rfl
  rw [search]
  simp only [PathSearch.leave, onPath_leave new, back, tail_cons]

/-- An edge back to the path is passed over. -/
theorem search_repeat (edge : g.edges[i]? = some e) (repeats : e.target ∈ onPath) :
    g.search limit ⟨found, path, onPath, conditions, ⟨i :: todo, decided⟩ :: levels⟩ =
      g.search limit ⟨found, path, onPath, conditions, ⟨todo, decided⟩ :: levels⟩ := by
  rw [search]
  simp [edge, repeats]

section

variable (fits : g.InRange) (he : e ∈ g.edges) (edge : g.edges[i]? = some e)
  (new : e.target ∉ onPath)
include fits he edge new

/-- An edge to an exit: one more path is found, and the search stops if that is enough. -/
theorem search_exit (exit : e.target ∈ g.exits) :
    g.search limit ⟨found, path, onPath, conditions, ⟨i :: todo, decided⟩ :: levels⟩ =
      let more := found ++ [g.goingOn path conditions [e]]
      if limit ≤ more.length then some (more, true)
      else g.search limit ⟨more, path, onPath, conditions, ⟨todo, decided⟩ :: levels⟩ := by
  obtain ⟨node, hnode, -, kind⟩ := fits.target_node he
  have one : ((g.decision? e).toList ++ conditions).reverse =
      conditions.reverse ++ [e].filterMap g.decision? := by
    cases hdecision : g.decision? e <;> simp [hdecision]
  have recorded :
      (⟨(e.target :: path).reverse, ((g.decision? e).toList ++ conditions).reverse, e.target,
      node.exitKind.getD .returns⟩ : ExitPath) = g.goingOn path conditions [e] := by
    rw [kind, one]
    simp [goingOn, targets]
  rw [search]
  simp only [edge, new, fits.condition?_eq he, Option.bind_eq_bind, Option.bind_some, dite_false]
  split
  case h_1 missing => simp [hnode] at missing
  case h_2 known =>
    obtain rfl := Option.some.inj (hnode.symm.trans known)
    simp [exit, PathSearch.record, ← recorded]

/-- An edge to another node opens a new level with the edges of that node. -/
theorem search_enter (inner : e.target ∉ g.exits) :
    g.search limit ⟨found, path, onPath, conditions, ⟨i :: todo, decided⟩ :: levels⟩ =
      g.search limit ⟨found, e.target :: path, e.target :: onPath,
        (g.decision? e).toList ++ conditions,
          ⟨g.outEdges e.target, (g.decision? e).isSome⟩ :: ⟨todo, decided⟩ :: levels⟩ := by
  obtain ⟨node, hnode, out, -⟩ := fits.target_node he
  rw [search]
  simp only [edge, new, fits.condition?_eq he, Option.bind_eq_bind, Option.bind_some, dite_false]
  split
  case h_1 missing => simp [hnode] at missing
  case h_2 known =>
    obtain rfl := Option.some.inj (hnode.symm.trans known)
    simp [inner, PathSearch.enter, out]

end

/-! ### A whole level -/

/-- A path goes on along an edge and others as it goes on along the others behind that edge. -/
theorem goingOn_cons (edges : List FlowEdge) :
    g.goingOn (e.target :: path) ((g.decision? e).toList ++ conditions) edges =
      g.goingOn path conditions (e :: edges) := by
  have decisions : ((g.decision? e).toList ++ conditions).reverse ++ edges.filterMap g.decision? =
      conditions.reverse ++ (e :: edges).filterMap g.decision? := by
    cases hdecision : g.decision? e <;> simp [hdecision]
  have nodes : (e.target :: path).reverse ++ targets edges =
      path.reverse ++ targets (e :: edges) := by
    simp [targets]
  simp only [goingOn, decisions, nodes]

/-- The nodes of a path: they are nodes of the graph, none is repeated, and the search knows
them. -/
structure OnPath (g : LinkedGraph) (path onPath : List Nat) : Prop where
  nodup : path.Nodup
  bound : ∀ n ∈ path, n < g.nodes.length
  same : ∀ n, n ∈ onPath ↔ n ∈ path

/-- A path repeats no node, so it is no longer than the graph. -/
theorem OnPath.length_le (h : OnPath g path onPath) : path.length ≤ g.nodes.length := by
  have subset : path ⊆ range g.nodes.length := fun n hn => mem_range.mpr (h.bound n hn)
  simpa using (h.nodup.subperm subset).length_le

/-- A path grows by a node that is not on it. -/
theorem OnPath.cons (h : OnPath g path onPath) (new : n ∉ path) (bound : n < g.nodes.length) :
    OnPath g (n :: path) (n :: onPath) := by
  refine ⟨nodup_cons.mpr ⟨new, h.nodup⟩, ?_, ?_⟩
  · intro m hm
    rcases mem_cons.mp hm with rfl | hm
    · exact bound
    · exact h.bound m hm
  · intro m
    rw [mem_cons, mem_cons, h.same]

/-- **What the search has found when the edges out of the last node are tried.** Either it has
stopped at the limit, or it goes on with everything but the list of paths as it was. The induction
is over the nodes that are not on the path, and inside over the edges. -/
theorem search_level (fits : g.InRange) {budget : Nat} (hbudget : budget = max 1 limit.toNat)
    (fuel : Nat) :
    ∀ (todo : List Nat) (pick : Nat) (found : List ExitPath) (path onPath : List Nat)
      (conditions : List PathCondition) (decided : Bool) (levels : List SearchLevel),
      OnPath g path onPath → fuel + path.length = g.nodes.length + 1 → found.length < budget →
      (∀ i ∈ todo, i < g.edges.length) →
      g.search limit ⟨found, path, onPath, conditions, ⟨todo, decided⟩ :: levels⟩ =
        let all := found ++
          (g.routesBy fuel path (todo.zipIdx pick)).map fun r => g.goingOn path conditions r.edges
        if budget ≤ all.length then some (all.take budget, true)
        else g.search limit ⟨all, path, onPath, conditions, ⟨[], decided⟩ :: levels⟩ := by
  induction fuel with
  | zero =>
    intro todo pick found path onPath conditions decided levels known length
    have := known.length_le
    omega
  | succ fuel ih =>
    intro todo
    induction todo with
    | nil =>
      intro pick found path onPath conditions decided levels known length short inside
      simp [routesBy, Nat.not_le.mpr short]
    | cons i todo ihTodo =>
      intro pick found path onPath conditions decided levels known length short inside
      obtain ⟨bound, inside⟩ := forall_mem_cons.mp inside
      have edge := getElem?_eq_getElem bound
      have he := getElem_mem bound
      generalize g.edges[i] = e at edge he
      rw [zipIdx_cons, routesBy_cons, map_append, ← append_assoc]
      by_cases repeats : e.target ∈ path
      · rw [search_repeat edge ((known.same _).mpr repeats), routesBy_repeat edge repeats,
          ihTodo (pick + 1) found path onPath conditions decided levels known length short inside]
        simp
      · have new : e.target ∉ onPath := fun h => repeats ((known.same _).mp h)
        by_cases exit : e.target ∈ g.exits
        · rw [search_exit fits he edge new exit, routesBy_exit edge repeats exit, map_singleton]
          generalize hmore : found ++ [g.goingOn path conditions [e]] = more
          have length_more : more.length = found.length + 1 := by rw [← hmore]; simp
          by_cases full : limit ≤ more.length
          · have exact : budget = more.length := by omega
            simp [full, exact]
          · have later := ihTodo (pick + 1) more path onPath conditions decided levels known length
              (by omega) inside
            simp only [full, if_false]
            exact later
        · have deeper := ih (g.outEdges e.target) 0 found (e.target :: path) (e.target :: onPath)
            ((g.decision? e).toList ++ conditions) (g.decision? e).isSome
              (⟨todo, decided⟩ :: levels)
            (known.cons repeats (fits.edges e he).2) (by simp; omega) short
            fun i hi => by
              obtain ⟨_, _, found⟩ := fits.edge_of_mem_outEdges hi
              exact (List.getElem?_eq_some_iff.mp found).1
          rw [search_enter fits he edge new exit, routesBy_enter edge repeats exit, deeper, map_map]
          simp only [goingOn_cons, Function.comp_def]
          generalize hmore : found ++ _ = more
          by_cases full : budget ≤ more.length
          · simp [full, take_append_of_le_length full, Nat.le_add_right_of_le full]
          · rw [if_neg full, search_leave new]
            exact ihTodo (pick + 1) more path onPath conditions decided levels known length
              (by omega) inside

end Search

/-! ### The order of the routes -/

/-- The edges of a node are numbered in order. -/
theorem zipIdx_ordered (xs : List Nat) (start : Nat) : (xs.zipIdx start).Pairwise (·.2 < ·.2) := by
  have numbers : ((xs.zipIdx start).map (·.2)).Pairwise (· < ·) := by
    rw [zipIdx_map_snd]
    exact pairwise_lt_range'
  exact pairwise_map.mp numbers

/-- A route by one edge starts with the place of that edge. -/
theorem head_of_mem_routesBy {fuel : Nat} {path : List Nat} {i pick : Nat}
    (mem : r ∈ g.routesBy (fuel + 1) path [(i, pick)]) : ∃ picks, r.picks = pick :: picks := by
  simp only [routesBy, flatMap_singleton] at mem
  split at mem
  · simp at mem
  · split at mem
    · simp at mem
    · split at mem
      · rw [mem_singleton.mp mem]
        exact ⟨[], rfl⟩
      · obtain ⟨r, -, rfl⟩ := mem_map.mp mem
        exact ⟨r.picks, rfl⟩

theorem routesBy_eq_flatMap (g : LinkedGraph) (fuel : Nat) (path : List Nat)
    (todo : List (Nat × Nat)) :
    g.routesBy (fuel + 1) path todo = todo.flatMap fun numbered =>
      g.routesBy (fuel + 1) path [numbered] := by
  induction todo with
  | nil => rfl
  | cons first todo ih => rw [routesBy_cons, ih, flatMap_cons]

/-- **Routes are listed in depth-first order.** -/
theorem routesBy_ordered (g : LinkedGraph) (fuel : Nat) (path todo : List Nat) (start : Nat) :
    (g.routesBy fuel path (todo.zipIdx start)).Pairwise (·.picks < ·.picks) := by
  induction fuel generalizing path todo start with
  | zero => exact .nil
  | succ fuel ih =>
    rw [routesBy_eq_flatMap, pairwise_flatMap]
    constructor
    · rintro ⟨i, pick⟩ -
      simp only [routesBy, flatMap_singleton]
      split
      · exact .nil
      · rename_i e _
        split
        · exact .nil
        · split
          · exact pairwise_singleton _ _
          · refine pairwise_map.mpr ((ih (e.target :: path) (g.outEdges e.target) 0).imp ?_)
            intro r r' earlier
            exact cons_lt_cons_iff.mpr (.inr ⟨rfl, earlier⟩)
    · refine (zipIdx_ordered todo start).imp ?_
      rintro ⟨i, pick⟩ ⟨j, pick'⟩ earlier r hr r' hr'
      obtain ⟨picks, same⟩ := head_of_mem_routesBy hr
      obtain ⟨picks', same'⟩ := head_of_mem_routesBy hr'
      rw [same, same']
      exact cons_lt_cons_iff.mpr (.inl earlier)

/-! ### All routes are listed -/

section Complete

variable {g : LinkedGraph} {path : List Nat} {n : Nat} {r : Route} {edges : List FlowEdge}

/-- Following places: the first names an edge, and the others go on from its end. -/
theorem edgesAlong_cons {pick : Nat} {picks : List Nat} :
    g.edgesAlong n (pick :: picks) = some edges ↔
      ∃ i e rest, (g.outEdges n)[pick]? = some i ∧ g.edges[i]? = some e ∧
        g.edgesAlong e.target picks = some rest ∧ edges = e :: rest := by
  simp only [edgesAlong, Option.bind_eq_bind, Option.bind_eq_some_iff, Option.pure_def,
    Option.some.injEq]
  constructor
  · rintro ⟨i, out, e, edge, rest, along, rfl⟩
    exact ⟨i, e, rest, out, edge, along, rfl⟩
  · rintro ⟨i, e, rest, out, edge, along, rfl⟩
    exact ⟨i, out, e, edge, rest, along, rfl⟩

/-- Either the first edge ends at an exit and is the last, or the rest ends at one. -/
theorem endsAtExit_cons {e : FlowEdge} :
    g.EndsAtExit (e :: edges) ↔ (e.target ∈ g.exits ∧ edges = []) ∨
      (e.target ∉ g.exits ∧ g.EndsAtExit edges) := by
  constructor
  · rintro ⟨before, last, split, exit, inner⟩
    cases before with
    | nil =>
      obtain ⟨rfl, rfl⟩ := cons.inj split
      exact .inl ⟨exit, rfl⟩
    | cons first before =>
      obtain ⟨rfl, rfl⟩ := cons.inj split
      obtain ⟨here, later⟩ := forall_mem_cons.mp inner
      exact .inr ⟨here, before, last, rfl, exit, later⟩
  · rintro (⟨exit, rfl⟩ | ⟨here, before, last, rfl, exit, later⟩)
    · exact ⟨[], e, rfl, exit, nofun⟩
    · exact ⟨e :: before, last, rfl, exit, forall_mem_cons.mpr ⟨here, later⟩⟩

theorem not_endsAtExit_nil : ¬ g.EndsAtExit [] := by
  rintro ⟨before, last, split, -⟩
  simp at split

/-- A route goes on from a node at the end of a path: it leads to an exit and meets no node
twice. -/
structure GoesOn (g : LinkedGraph) (path : List Nat) (n : Nat) (r : Route) : Prop where
  follows : g.edgesAlong n r.picks = some r.edges
  nodup : (targets r.edges).Nodup
  new : ∀ m ∈ targets r.edges, m ∉ path
  ends : g.EndsAtExit r.edges

/-- **A route goes on edge by edge**: it ends at the first exit, or goes on from a longer path. -/
theorem goesOn_iff :
    GoesOn g path n r ↔ ∃ pick i e, (g.outEdges n)[pick]? = some i ∧ g.edges[i]? = some e ∧
      e.target ∉ path ∧
      ((e.target ∈ g.exits ∧ r = ⟨[pick], [e]⟩) ∨
        (e.target ∉ g.exits ∧ ∃ rest, GoesOn g (e.target :: path) e.target rest ∧
          r = ⟨pick :: rest.picks, e :: rest.edges⟩)) := by
  obtain ⟨picks, edges⟩ := r
  constructor
  · rintro ⟨follows, nodup, new, ends⟩
    cases picks with
    | nil =>
      obtain rfl : [] = edges := Option.some.inj follows
      exact absurd ends not_endsAtExit_nil
    | cons pick picks =>
      obtain ⟨i, e, rest, out, edge, along, rfl⟩ := edgesAlong_cons.mp follows
      obtain ⟨fresh, nodup⟩ := nodup_cons.mp nodup
      obtain ⟨here, later⟩ := forall_mem_cons.mp new
      refine ⟨pick, i, e, out, edge, here, ?_⟩
      rcases endsAtExit_cons.mp ends with ⟨exit, rfl⟩ | ⟨inner, ends⟩
      · left
        cases picks with
        | nil => exact ⟨exit, rfl⟩
        | cons pick picks =>
          obtain ⟨_, _, _, _, _, _, same⟩ := edgesAlong_cons.mp along
          cases same
      · right
        refine ⟨inner, ⟨picks, rest⟩, ⟨along, nodup, ?_, ends⟩, rfl⟩
        intro m hm
        rw [mem_cons, not_or]
        refine ⟨?_, later m hm⟩
        rintro rfl
        exact fresh hm
  · rintro ⟨pick, i, e, out, edge, new, ⟨exit, same⟩ | ⟨inner, rest, goes, same⟩⟩
    · cases same
      refine ⟨edgesAlong_cons.mpr ⟨i, e, [], out, edge, rfl, rfl⟩, by simp [targets], ?_,
        endsAtExit_cons.mpr (.inl ⟨exit, rfl⟩)⟩
      simpa [targets] using new
    · cases same
      have apart := fun m hm => not_or.mp (mem_cons.not.mp (goes.new m hm))
      refine ⟨edgesAlong_cons.mpr ⟨i, e, rest.edges, out, edge, goes.follows, rfl⟩, ?_, ?_,
        endsAtExit_cons.mpr (.inr ⟨inner, goes.ends⟩)⟩
      · exact nodup_cons.mpr ⟨fun mem => (apart _ mem).1 rfl, goes.nodup⟩
      · exact forall_mem_cons.mpr ⟨new, fun m hm => (apart m hm).2⟩

/-- **Exactly the routes are listed**, as long as the fuel lasts for the nodes that are not on the
path. -/
theorem mem_routesBy_iff (fits : g.InRange) (fuel : Nat) :
    ∀ path onPath n r, OnPath g path onPath → fuel + path.length = g.nodes.length + 1 →
      (r ∈ g.routesBy fuel path (g.outEdges n).zipIdx ↔ GoesOn g path n r) := by
  induction fuel with
  | zero =>
    intro path onPath n r known length
    have := known.length_le
    omega
  | succ fuel ih =>
    intro path onPath n r known length
    have longer : ∀ e ∈ g.edges, e.target ∉ path → ∀ rest,
        (rest ∈ g.routesBy fuel (e.target :: path) (g.outEdges e.target).zipIdx ↔
          GoesOn g (e.target :: path) e.target rest) := fun e he new rest =>
      ih _ _ _ rest (known.cons new (fits.edges e he).2) (by simp; omega)
    rw [goesOn_iff, routesBy_eq_flatMap, mem_flatMap]
    constructor
    · rintro ⟨⟨i, pick⟩, numbered, mem⟩
      have out := mem_zipIdx_iff_getElem?.mp numbered
      obtain ⟨e, he, edge⟩ := fits.edge_of_mem_outEdges (mem_of_getElem? out)
      refine ⟨pick, i, e, out, edge, ?_⟩
      by_cases repeats : e.target ∈ path
      · simp [routesBy_repeat edge repeats] at mem
      · refine ⟨repeats, ?_⟩
        by_cases exit : e.target ∈ g.exits
        · rw [routesBy_exit edge repeats exit, mem_singleton] at mem
          exact .inl ⟨exit, mem⟩
        · rw [routesBy_enter edge repeats exit, mem_map] at mem
          obtain ⟨rest, mem, rfl⟩ := mem
          exact .inr ⟨exit, rest, (longer e he repeats rest).mp mem, rfl⟩
    · rintro ⟨pick, i, e, out, edge, new, goes⟩
      refine ⟨(i, pick), mem_zipIdx_iff_getElem?.mpr out, ?_⟩
      rcases goes with ⟨exit, rfl⟩ | ⟨inner, rest, goes, rfl⟩
      · rw [routesBy_exit edge new exit]
        exact mem_singleton_self _
      · rw [routesBy_enter edge new inner]
        exact mem_map.mpr ⟨rest, (longer e (mem_of_getElem? edge) new rest).mpr goes, rfl⟩

end Complete

/-! ### All exit paths -/

/-- A route is one that goes on from the entry. -/
theorem isRoute_iff : g.IsRoute r ↔ GoesOn g [g.entry] g.entry r := by
  constructor
  · rintro ⟨follows, nodup, ends⟩
    obtain ⟨new, nodup⟩ := nodup_cons.mp nodup
    exact ⟨follows, nodup, fun m hm same => new (mem_singleton.mp same ▸ hm), ends⟩
  · rintro ⟨follows, nodup, new, ends⟩
    exact ⟨follows, nodup_cons.mpr ⟨fun mem => new _ mem (mem_singleton_self _), nodup⟩, ends⟩

/-- `routes` lists all routes in depth-first order. A path has room for all nodes of the graph, so
the fuel lasts. -/
theorem routes_enumerates (g : LinkedGraph) (fits : g.InRange) : g.Enumerates g.routes := by
  refine ⟨routesBy_ordered g _ _ _ _, fun r => ?_⟩
  rw [isRoute_iff]
  rcases fits.entry with empty | bound
  · -- Without nodes there is no edge to take.
    have nowhere : g.outEdges g.entry = [] := by simp [LinkedGraph.outEdges, empty]
    rw [goesOn_iff, routes, empty]
    simp [routesBy, nowhere]
  · exact mem_routesBy_iff fits _ _ [g.entry] _ r ⟨by simp, by simpa using bound, fun _ => Iff.rfl⟩
      (by simp)

/-- What the search gives: the first of all routes, as many as the limit allows and at least one. -/
theorem exitPaths_eq (g : LinkedGraph) (fits : g.InRange) (limit : Int) : g.exitPaths limit =
      some ((g.routes.take (max 1 limit.toNat)).map g.pathAlong,
        decide (max 1 limit.toNat ≤ g.routes.length)) := by
  rcases fits.entry with empty | bound
  · have none : g.routes = [] := by simp [routes, routesBy, empty]
    simp [exitPaths, empty, none]
  · have hnode := getElem?_eq_getElem bound
    have nonempty : g.nodes ≠ [] := ne_nil_of_length_pos (by omega)
    have out : g.nodes[g.entry].outEdges = g.outEdges g.entry := by
      simp [LinkedGraph.outEdges, hnode]
    have start : g.exitPaths limit =
        g.search limit ⟨[], [g.entry], [g.entry], [], [⟨g.outEdges g.entry, false⟩]⟩ := by
      simp [exitPaths, nonempty, hnode, out]
    have done : ∀ found, g.search limit ⟨found, [g.entry], [g.entry], [], [⟨[], false⟩]⟩ =
        some (found, false) := by
      intro found
      rw [search]
      exact search_done
    have inside : ∀ i ∈ g.outEdges g.entry, i < g.edges.length := by
      intro i hi
      obtain ⟨_, _, edge⟩ := fits.edge_of_mem_outEdges hi
      exact (List.getElem?_eq_some_iff.mp edge).1
    rw [start, search_level fits rfl g.nodes.length _ 0 [] [g.entry] [g.entry] [] false []
      ⟨by simp, by simpa using bound, fun _ => Iff.rfl⟩ (by simp) (by simp) inside]
    change (if max 1 limit.toNat ≤ (g.routes.map g.pathAlong).length then
      some ((g.routes.map g.pathAlong).take (max 1 limit.toNat), true) else g.search limit _) = _
    rw [length_map, done]
    split
    · rename_i full
      rw [map_take, decide_eq_true full]
    · rename_i short
      rw [decide_eq_false short, take_of_length_le (by omega)]
      rfl

/-- **The exit paths of a graph are its routes in depth-first order, cut off at the limit.** Each
path has the nodes, the exit and the decisions of its route; the search says that it was cut off
exactly when there are as many routes as the limit allows. -/
theorem exitPaths_list_routes (g : LinkedGraph) (fits : g.InRange) (limit : Int) :
    ∃ routes, g.Enumerates routes ∧
      g.exitPaths limit =
        some ((routes.take (max 1 limit.toNat)).map g.pathAlong,
          decide (max 1 limit.toNat ≤ routes.length)) :=
  ⟨g.routes, routes_enumerates g fits, exitPaths_eq g fits limit⟩

/-- Two edges lead from the entry to a node from which one leads back, and two lead to exits; the
first of these says nothing about its kind. -/
def twoWays : LinkedGraph where
  entry := 0
  nodes := [⟨1, [1, 0], none⟩, ⟨2, [2, 3, 4], none⟩, ⟨5, [], none⟩, ⟨7, [], some .raises⟩]
  edges := [⟨0, 1, .whenTrue, some "a"⟩, ⟨0, 1, .whenFalse, some "a"⟩, ⟨1, 2, .fallthrough, none⟩,
    ⟨1, 0, .back, none⟩, ⟨1, 3, .case, some "b"⟩]
  exits := [2, 3]

theorem twoWays_inRange : twoWays.InRange :=
  ⟨.inr (by decide), by decide, by decide⟩

/-- Of the four routes of the graph three are shown. -/
theorem exitPaths_list_routes_twoWays :
    twoWays.InRange ∧ ∃ routes, twoWays.Enumerates routes ∧
      twoWays.exitPaths 3 = some ((routes.take 3).map twoWays.pathAlong,
        decide (3 ≤ routes.length)) :=
  ⟨twoWays_inRange, exitPaths_list_routes twoWays twoWays_inRange 3⟩

example : twoWays.routes.map (·.picks) = [[0, 0], [0, 2], [1, 0], [1, 2]] := by decide

end CodeAtlas.LinkedGraph
