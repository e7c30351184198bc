import CodeAtlas.Audit.Build
import CodeAtlas.Proofs.Source.Order

/-!
The chains of pass-through wrappers are genuine and complete, over any forwarding graph.

`Chained` says what a chain is. Following a wrapper keeps it from hop to hop (`follows_step`) up to
the last one, whichever way the chain ends (`follows_follow`), and where nothing cuts it short a
chain holds every wrapper that is forwarded to from it (`Follows.complete`). The list of chains
grows by one wrapper after the other: `Lists.addChain` is what one wrapper does to it, and
`lists_foldl` what a whole row of them does. A wrapper that no other forwards into can only be the
first of its chain; in a graph without cycles every wrapper is downstream of such a one
(`exists_root`).
-/

namespace CodeAtlas

open List

namespace Wrapper

variable {wrappers : List Wrapper} {id next : String} {chain : List String} {hops : Nat}
  {front : List String}

def IsWrapper (wrappers : List Wrapper) (id : String) : Prop :=
  ∃ w ∈ wrappers, w.id = id

def Forwards (wrappers : List Wrapper) (id next : String) : Prop :=
  ∃ w, find? wrappers id = some w ∧ w.target = some next

/-- What a wrapper names as the next of its chain: its target, or its callee as written where that
is not known. -/
def LeadsTo (wrappers : List Wrapper) (id next : String) : Prop :=
  ∃ w, find? wrappers id = some w ∧ w.target.getD w.path = next

structure IsRoot (wrappers : List Wrapper) (id : String) : Prop where
  wrapper : IsWrapper wrappers id
  first : ∀ other, ¬ Forwards wrappers other id

def Acyclic (wrappers : List Wrapper) : Prop :=
  ∀ id, ¬ Relation.TransGen (Forwards wrappers) id id

/-- A row of different wrappers, each of which forwards to the next. -/
structure Run (wrappers : List Wrapper) (run : List String) : Prop where
  wrapper : ∀ id ∈ run, IsWrapper wrappers id
  forwards : run.IsChain (Forwards wrappers)
  nodup : run.Nodup

/-- What a chain of wrappers is. Only the last of its names may be met twice or be no wrapper, and
only the last link may go by a name as written. -/
structure Chained (wrappers : List Wrapper) (chain : List String) : Prop where
  two_le : 2 ≤ chain.length
  length_le : chain.length ≤ maxChain + 1
  linked : chain.IsChain (LeadsTo wrappers)
  run : Run wrappers chain.dropLast

/-! ### Wrappers -/

/-- Looking up an id finds a wrapper exactly for the ids of wrappers. -/
theorem isSome_find?_iff : (find? wrappers id).isSome ↔ IsWrapper wrappers id := by
  simp [find?, IsWrapper]

theorem find?_of_isWrapper (h : IsWrapper wrappers id) : ∃ w, find? wrappers id = some w :=
  Option.isSome_iff_exists.mp (isSome_find?_iff.mpr h)

theorem isWrapper_of_find? {w : Wrapper} (h : find? wrappers id = some w) : IsWrapper wrappers id :=
  isSome_find?_iff.mp (by rw [h]; rfl)

theorem Forwards.isWrapper (h : Forwards wrappers id next) : IsWrapper wrappers id := by
  obtain ⟨w, found, -⟩ := h
  exact isWrapper_of_find? found

theorem Forwards.leadsTo (h : Forwards wrappers id next) : LeadsTo wrappers id next := by
  obtain ⟨w, found, target⟩ := h
  exact ⟨w, found, by rw [target]; rfl⟩

/-! ### One chain -/

/-- A run goes on with a wrapper that its last one forwards to and that it does not hold yet. -/
theorem Run.extend (h : Run wrappers (front ++ [id])) (forwards : Forwards wrappers id next)
    (wrapper : IsWrapper wrappers next) (new : next ∉ front ++ [id]) :
    Run wrappers (front ++ [id] ++ [next]) := by
  refine ⟨?_, ?_, ?_⟩
  · intro other mem
    rcases mem_append.mp mem with old | last
    · exact h.wrapper other old
    · exact mem_singleton.mp last ▸ wrapper
  · refine isChain_append.mpr ⟨h.forwards, .singleton _, ?_⟩
    simpa using forwards
  · refine nodup_append.mpr ⟨h.nodup, nodup_singleton _, ?_⟩
    intro a old b last
    rw [mem_singleton.mp last]
    exact ne_of_mem_of_not_mem old new

/-- A run and one more link are a chain. -/
theorem Run.chained (h : Run wrappers (front ++ [id])) (leads : LeadsTo wrappers id next)
    (short : front.length < maxChain) : Chained wrappers (front ++ [id] ++ [next]) := by
  refine ⟨by simp, by simp; omega, ?_, by rwa [dropLast_concat]⟩
  refine isChain_append.mpr ⟨h.forwards.imp fun _ _ => Forwards.leadsTo, .singleton _, ?_⟩
  simpa using leads

/-- The first wrapper of an id decides what the id forwards to, so that is one name at most. -/
theorem Forwards.unique {other : String} (h : Forwards wrappers id next)
    (h' : Forwards wrappers id other) :
    next = other := by
  obtain ⟨w, found, target⟩ := h
  obtain ⟨w', found', target'⟩ := h'
  obtain rfl := Option.some.inj (found.symm.trans found')
  exact Option.some.inj (target.symm.trans target')

/-- Every wrapper that one of some names forwards to is one of them. -/
def Closed (wrappers : List Wrapper) (ids : List String) : Prop :=
  ∀ id ∈ ids, ∀ next, Forwards wrappers id next → IsWrapper wrappers next → next ∈ ids

/-- Of a run only the last wrapper can forward to one outside. -/
theorem mem_of_forwards {run ids : List String} (linked : run.IsChain (Forwards wrappers))
    (sub : run ⊆ ids) (last : ∀ id ∈ run.getLast?, ∀ next,
      Forwards wrappers id next → IsWrapper wrappers next → next ∈ ids) :
    ∀ id ∈ run, ∀ next, Forwards wrappers id next → IsWrapper wrappers next → next ∈ ids := by
  induction run with
  | nil => simp
  | cons first run ih =>
    intro id mem next forwards wrapper
    cases run with
    | nil =>
      rw [mem_singleton.mp mem] at forwards
      exact last first rfl next forwards wrapper
    | cons second run =>
      obtain ⟨link, linked⟩ := isChain_cons_cons.mp linked
      rcases mem_cons.mp mem with rfl | later
      · rw [forwards.unique link]
        exact sub (.tail _ mem_cons_self)
      · exact ih linked (subset_of_cons_subset sub) (by simpa using last) id later
          next forwards wrapper

/-- A run whose last wrapper forwards to none outside is closed: the others forward along the
run. -/
theorem Run.closed (h : Run wrappers (front ++ [id]))
    (last : ∀ next, Forwards wrappers id next → IsWrapper wrappers next → next ∈ front ++ [id]) :
    Closed wrappers (front ++ [id]) :=
  mem_of_forwards h.forwards (List.Subset.refl _) (by simpa using last)

/-- What following the last wrapper of a run leads to: a chain that goes on from the run, and that
holds every wrapper that one of its own forwards to unless all its hops are spent. -/
structure Follows (wrappers : List Wrapper) (run chain : List String) : Prop where
  goesOn : run <+: chain
  chained : Chained wrappers chain
  complete : Closed wrappers chain.dropLast ∨ Run wrappers chain ∧ maxChain < chain.length

/-- A run whose last wrapper forwards back into the run or to no wrapper ends with the name that it
leads to. -/
theorem Run.follows (run : Run wrappers (front ++ [id])) (leads : LeadsTo wrappers id next)
    (short : front.length < maxChain)
    (last : ∀ other, Forwards wrappers id other → IsWrapper wrappers other →
      other ∈ front ++ [id]) :
    Follows wrappers (front ++ [id]) (front ++ [id] ++ [next]) := by
  refine ⟨prefix_append _ _, run.chained leads short, .inl ?_⟩
  rw [dropLast_concat]
  exact run.closed last

/-- Nothing is added to a chain behind a name that is no wrapper. -/
theorem follow_of_not_wrapper (outside : ¬ IsWrapper wrappers id) :
    follow wrappers hops chain id = chain := by
  cases hops with
  | zero => rfl
  | succ hops =>
    have missing : find? wrappers id = none := by
      simpa using mt isSome_find?_iff.mp outside
    simp only [follow, missing]

/-- One hop: the chain ends here, or it goes on from a longer run. -/
theorem follows_step (run : Run wrappers (front ++ [id])) (short : front.length < maxChain)
    (later : ∀ next, Forwards wrappers id next → Run wrappers (front ++ [id] ++ [next]) →
      Follows wrappers (front ++ [id]) (follow wrappers hops (front ++ [id] ++ [next]) next)) :
    Follows wrappers (front ++ [id]) (follow wrappers (hops + 1) (front ++ [id]) id) := by
  obtain ⟨w, found⟩ := find?_of_isWrapper (run.wrapper id (by simp))
  rw [follow, found]
  dsimp only
  cases target : w.target with
  | none =>
    refine run.follows ⟨w, found, by rw [target]; rfl⟩ short ?_
    rintro other ⟨w', found', target'⟩
    cases found.symm.trans found'
    cases target.symm.trans target'
  | some next =>
    have forwards : Forwards wrappers id next := ⟨w, found, target⟩
    dsimp only
    split
    · rename_i met
      refine run.follows forwards.leadsTo short fun other also _ => ?_
      rw [also.unique forwards]
      simpa using met
    · rename_i new
      by_cases wrapper : IsWrapper wrappers next
      · exact later next forwards (run.extend forwards wrapper (by simpa using new))
      · rw [follow_of_not_wrapper wrapper]
        refine run.follows forwards.leadsTo short fun other also inside => ?_
        exact absurd (also.unique forwards ▸ inside) wrapper

/-- The whole way: a chain that is followed with the hops that are left goes on from its run. By
induction on the hops, with `follows_step` for each. -/
theorem follows_follow (run : Run wrappers (front ++ [id]))
    (left : front.length + (hops + 1) = maxChain) :
    Follows wrappers (front ++ [id]) (follow wrappers (hops + 1) (front ++ [id]) id) := by
  induction hops generalizing front id with
  | zero =>
    refine follows_step run (by omega) fun next forwards longer => ?_
    refine ⟨prefix_append _ _, run.chained forwards.leadsTo (by omega), .inr ⟨longer, ?_⟩⟩
    simp [follow]
    omega
  | succ hops ih =>
    refine follows_step run (by omega) fun next forwards longer => ?_
    have rest := ih longer (by simp; omega)
    exact { rest with goesOn := (prefix_append _ _).trans rest.goesOn }

/-- The chain of a wrapper follows the run that holds the wrapper alone. -/
theorem follows_chainFrom (wrapper : IsWrapper wrappers id) :
    Follows wrappers [id] (chainFrom wrappers id) := by
  have run : Run wrappers ([] ++ [id]) := ⟨by simpa using wrapper, .singleton _, nodup_singleton _⟩
  exact follows_follow run rfl

theorem head?_chainFrom (wrapper : IsWrapper wrappers id) :
    (chainFrom wrappers id).head? = some id := by
  obtain ⟨rest, same⟩ := (follows_chainFrom wrapper).goesOn
  rw [← same]
  rfl

/-- A chain has two names at least, so its first is not its last. -/
theorem Chained.head?_dropLast (h : Chained wrappers chain) :
    chain.dropLast.head? = chain.head? := by
  obtain ⟨first, second, rest, rfl⟩ : ∃ first second rest, chain = first :: second :: rest := by
    match chain, h.two_le with
    | first :: second :: rest, _ => exact ⟨first, second, rest, rfl⟩
  rfl

/-- A wrapper that no other forwards into is the first of every chain that it is part of. -/
theorem Chained.head?_of_root (h : Chained wrappers chain) (root : IsRoot wrappers id)
    (mem : id ∈ chain.dropLast) :
    chain.head? = some id := by
  obtain ⟨front, back, split⟩ := append_of_mem mem
  have linked := h.run.forwards
  rw [split, isChain_append] at linked
  rw [← h.head?_dropLast, split]
  cases last : front.getLast? with
  | none =>
    rw [getLast?_eq_none_iff.mp last]
    rfl
  | some other => exact absurd (linked.2.2 other last id rfl) (root.first other)

/-! ### The list of chains -/

def Covers (chains : List (List String)) (id : String) : Prop :=
  ∃ chain ∈ chains, id ∈ chain.dropLast

/-- A list of chains from different wrappers. -/
structure Lists (wrappers : List Wrapper) (chains : List (List String)) : Prop where
  follows : ∀ chain ∈ chains, ∃ head, IsWrapper wrappers head ∧ chain = chainFrom wrappers head
  heads : (chains.map (·.head?)).Nodup

variable {chains : List (List String)}

theorem Lists.chained (h : Lists wrappers chains) (mem : chain ∈ chains) :
    Chained wrappers chain := by
  obtain ⟨head, wrapper, rfl⟩ := h.follows chain mem
  exact (follows_chainFrom wrapper).chained

/-- The test of `addChain` asks whether a chain covers the wrapper. -/
theorem covers_iff : chains.any (·.dropLast.contains id) ↔ Covers chains id := by
  simp [Covers]

theorem addChain_of_covers (covered : Covers chains id) : addChain wrappers chains id = chains :=
  if_pos (covers_iff.mpr covered)

theorem addChain_of_not_covers (new : ¬ Covers chains id) :
    addChain wrappers chains id = chains ++ [chainFrom wrappers id] :=
  if_neg (mt covers_iff.mp new)

/-- A wrapper stands on its own chain before the end. -/
theorem covers_chainFrom (wrapper : IsWrapper wrappers id) :
    id ∈ (chainFrom wrappers id).dropLast := by
  refine mem_of_head? ?_
  rw [(follows_chainFrom wrapper).chained.head?_dropLast, head?_chainFrom wrapper]

/-- What one wrapper does to the list: it is covered now, and any chain that is new starts from
it. -/
theorem Lists.addChain (h : Lists wrappers chains) (wrapper : IsWrapper wrappers id) :
    Lists wrappers (addChain wrappers chains id) ∧ Covers (Wrapper.addChain wrappers chains id) id ∧
      chains <+: Wrapper.addChain wrappers chains id ∧
      ∀ chain ∈ Wrapper.addChain wrappers chains id, chain ∈ chains ∨ chain.head? = some id := by
  by_cases covered : Covers chains id
  · rw [addChain_of_covers covered]
    exact ⟨h, covered, prefix_rfl, fun _ => .inl⟩
  rw [addChain_of_not_covers covered]
  refine ⟨⟨?_, ?_⟩, ⟨_, mem_concat_self, covers_chainFrom wrapper⟩, prefix_append _ _, ?_⟩
  · intro chain mem
    rcases mem_append.mp mem with old | new
    · exact h.follows chain old
    · exact ⟨id, wrapper, mem_singleton.mp new⟩
  · rw [map_append, nodup_append]
    refine ⟨h.heads, nodup_singleton _, ?_⟩
    rintro head old head' new rfl
    obtain ⟨chain, mem, same⟩ := mem_map.mp old
    rw [map_singleton, mem_singleton, head?_chainFrom wrapper] at new
    refine covered ⟨chain, mem, mem_of_head? ?_⟩
    rw [(h.chained mem).head?_dropLast, same, new]
  · intro chain mem
    rcases mem_append.mp mem with old | new
    · exact .inl old
    · rw [mem_singleton.mp new]
      exact .inr (head?_chainFrom wrapper)

/-- What a row of wrappers does to the list: all of them are covered, and every new chain starts
from one of them. -/
theorem lists_foldl {ids : List String} (h : Lists wrappers chains)
    (known : ∀ id ∈ ids, IsWrapper wrappers id) :
    Lists wrappers (ids.foldl (addChain wrappers) chains) ∧
      (∀ id ∈ ids, Covers (ids.foldl (addChain wrappers) chains) id) ∧
      chains <+: ids.foldl (addChain wrappers) chains ∧
      ∀ chain ∈ ids.foldl (addChain wrappers) chains, chain ∈ chains ∨ ∃ id ∈ ids,
        chain.head? = some id := by
  induction ids generalizing chains with
  | nil => exact ⟨h, nofun, prefix_rfl, fun _ => .inl⟩
  | cons id ids ih =>
    obtain ⟨wrapper, others⟩ := forall_mem_cons.mp known
    obtain ⟨lists, covered, grown, starts⟩ := h.addChain wrapper
    obtain ⟨lists', covered', grown', starts'⟩ := ih lists others
    refine ⟨lists', forall_mem_cons.mpr ⟨?_, covered'⟩, grown.trans grown', ?_⟩
    · obtain ⟨chain, mem, inside⟩ := covered
      exact ⟨chain, grown'.subset mem, inside⟩
    · intro chain mem
      rcases starts' chain mem with early | ⟨other, later, head⟩
      · rcases starts chain early with old | head
        · exact .inl old
        · exact .inr ⟨id, mem_cons_self, head⟩
      · exact .inr ⟨other, mem_cons_of_mem _ later, head⟩

/-! ### All chains -/

theorem mem_ids : id ∈ ids wrappers ↔ IsWrapper wrappers id := by
  simp [ids, IsWrapper]

theorem mem_roots : id ∈ roots wrappers ↔ IsRoot wrappers id := by
  have targeted : id ∈ ((ids wrappers).filterMap fun id => (find? wrappers id).bind (·.target)) ↔
      ∃ other, Forwards wrappers other id := by
    simp only [mem_filterMap, mem_ids, Option.bind_eq_some_iff, Forwards]
    exact ⟨fun ⟨other, _, w, h⟩ => ⟨other, w, h⟩, fun ⟨other, w, h⟩ =>
      ⟨other, isWrapper_of_find? h.1, w, h⟩⟩
  rw [roots, mem_filter, mem_ids, Bool.not_eq_true', contains_eq_mem, decide_eq_false_iff_not,
    targeted, not_exists]
  exact ⟨fun ⟨wrapper, first⟩ => ⟨wrapper, first⟩, fun ⟨wrapper, first⟩ => ⟨wrapper, first⟩⟩

/-- The chains are made in two rounds, the first of them over the roots. -/
theorem chains_eq (wrappers : List Wrapper) : Wrapper.chains wrappers =
      (ids wrappers).foldl (addChain wrappers) ((roots wrappers).foldl (addChain wrappers) []) := by
  rw [← foldl_append]
  rfl

/-- After the first round every root is covered, and only roots start a chain. -/
theorem lists_roots (wrappers : List Wrapper) :
    Lists wrappers ((roots wrappers).foldl (addChain wrappers) []) ∧
      (∀ id, IsRoot wrappers id → Covers ((roots wrappers).foldl (addChain wrappers) []) id) ∧
      ∀ chain ∈ (roots wrappers).foldl (addChain wrappers) [], ∃ id, IsRoot wrappers id ∧
        chain.head? = some id := by
  have empty : Lists wrappers [] := ⟨nofun, nodup_nil⟩
  obtain ⟨lists, covered, -, starts⟩ := lists_foldl empty fun id mem => (mem_roots.mp mem).wrapper
  refine ⟨lists, fun id root => covered id (mem_roots.mpr root), fun chain mem => ?_⟩
  rcases starts chain mem with old | ⟨id, root, head⟩
  · cases old
  · exact ⟨id, mem_roots.mp root, head⟩

/-! ### Graphs without cycles -/

/-- Going back against the forwarding ends at a root where there are no cycles, since there are
finitely many wrappers. -/
theorem exists_root (acyclic : Acyclic wrappers) (wrapper : IsWrapper wrappers id) :
    ∃ root, IsRoot wrappers root ∧ Relation.ReflTransGen (Forwards wrappers) root id := by
  have finite : Finite {id // IsWrapper wrappers id} :=
    ((ids wrappers).finite_toSet.subset fun _ known => mem_ids.mpr known).to_subtype
  have wf : WellFounded fun a b : {id // IsWrapper wrappers id} =>
      Relation.TransGen (Forwards wrappers) a.1 b.1 := by
    have trans : IsTrans {id // IsWrapper wrappers id} fun a b =>
        Relation.TransGen (Forwards wrappers) a.1 b.1 :=
      ⟨fun _ _ _ => .trans⟩
    have irrefl : Std.Irrefl fun a b : {id // IsWrapper wrappers id} =>
        Relation.TransGen (Forwards wrappers) a.1 b.1 :=
      ⟨fun a => acyclic a.1⟩
    exact Finite.wellFounded_of_trans_of_irrefl _
  -- Back along the graph until there is no way back.
  induction h : (⟨id, wrapper⟩ : {id // IsWrapper wrappers id}) using wf.induction
    generalizing id with
  | h _ ih =>
    subst h
    by_cases first : ∃ other, Forwards wrappers other id
    · obtain ⟨other, forwards⟩ := first
      obtain ⟨root, isRoot, path⟩ :=
        ih ⟨other, forwards.isWrapper⟩ (.single forwards) forwards.isWrapper rfl
      exact ⟨root, isRoot, path.tail forwards⟩
    · exact ⟨id, ⟨wrapper, not_exists.mp first⟩, .refl⟩

/-- A closed list that holds a root holds every wrapper that is reached from it. -/
theorem mem_of_reaches {ids : List String} {root : String} (closed : Closed wrappers ids)
    (mem : root ∈ ids) (path : Relation.ReflTransGen (Forwards wrappers) root id)
    (wrapper : IsWrapper wrappers id) : id ∈ ids := by
  induction path with
  | refl => exact mem
  | tail _ forwards ih => exact closed _ (ih forwards.isWrapper) _ forwards wrapper

/-- Without cycles and long runs, the chains from the roots hold every wrapper. -/
theorem covers_roots (acyclic : Acyclic wrappers)
    (short : ∀ run, Run wrappers run → run.length ≤ maxChain)
    (wrapper : IsWrapper wrappers id) :
    Covers ((roots wrappers).foldl (addChain wrappers) []) id := by
  obtain ⟨lists, covered, -⟩ := lists_roots wrappers
  obtain ⟨root, isRoot, path⟩ := exists_root acyclic wrapper
  obtain ⟨chain, mem, inside⟩ := covered root isRoot
  obtain ⟨head, known, rfl⟩ := lists.follows chain mem
  refine ⟨_, mem, ?_⟩
  rcases (follows_chainFrom known).complete with closed | ⟨run, long⟩
  · exact mem_of_reaches closed inside path wrapper
  · exact absurd (short _ run) (Nat.not_le.mpr long)

/-- A row of wrappers that are covered adds nothing. -/
theorem foldl_addChain_of_covers {ids : List String} (covered : ∀ id ∈ ids, Covers chains id) :
    ids.foldl (addChain wrappers) chains = chains := by
  induction ids with
  | nil => rfl
  | cons id ids ih =>
    obtain ⟨here, others⟩ := forall_mem_cons.mp covered
    rw [foldl_cons, addChain_of_covers here, ih others]

/-- After both rounds every wrapper is covered. -/
theorem lists_chains (wrappers : List Wrapper) :
    Lists wrappers (Wrapper.chains wrappers) ∧ ∀ id, IsWrapper wrappers id →
      Covers (Wrapper.chains wrappers) id := by
  rw [chains_eq]
  obtain ⟨lists, covered, -⟩ := lists_foldl (lists_roots wrappers).1 fun id mem => mem_ids.mp mem
  exact ⟨lists, fun id wrapper => covered id (mem_ids.mpr wrapper)⟩

/-- A root that is covered starts one chain: it can only be the first of its chain, and no two
chains start alike. -/
theorem Lists.root_starts (h : Lists wrappers chains) (root : IsRoot wrappers id)
    (covered : Covers chains id) :
    chains.countP (·.head? == some id) = 1 := by
  obtain ⟨chain, mem, inside⟩ := covered
  have head := (h.chained mem).head?_of_root root inside
  have counted := count_eq_one_of_mem h.heads (mem_map.mpr ⟨chain, mem, head⟩)
  rwa [count, countP_map] at counted

end Wrapper

/-! ### Findings -/

namespace AuditScope

/-- Every wrapper of an audit is one of its entries, so no finding is dropped for want of its
entry. -/
theorem byId?_of_isWrapper (s : AuditScope) {id : String} (h : Wrapper.IsWrapper s.wrappers id) :
    ∃ e, s.byId? id = some e := by
  obtain ⟨w, mem, rfl⟩ := h
  obtain ⟨e, function, made⟩ := mem_filterMap.mp mem
  simp only [Option.bind_eq_bind, Option.bind_eq_some_iff, Option.pure_def, Option.some.injEq]
    at made
  obtain ⟨-, -, path, -, rfl⟩ := made
  refine Option.isSome_iff_exists.mp ?_
  simp only [byId?, find?_isSome, mem_reverse]
  exact ⟨e, function, beq_self_eq_true e.id⟩

/-- Each chain of the wrappers becomes one finding. -/
theorem passThrough_chain (s : AuditScope) :
    s.passThrough.map (·.chain) = Wrapper.chains s.wrappers := by
  rw [passThrough, map_filterMap]
  have made : ∀ chain ∈ Wrapper.chains s.wrappers,
      (s.chainFinding? s.wrappers chain).map (·.chain) = some chain := by
    intro chain mem
    obtain ⟨head, wrapper, rfl⟩ := (Wrapper.lists_chains s.wrappers).1.follows chain mem
    obtain ⟨e, known⟩ := s.byId?_of_isWrapper wrapper
    simp [chainFinding?, Wrapper.head?_chainFrom wrapper, known]
  rw [filterMap_congr made, filterMap_some]

end AuditScope

namespace Wrapper

/-- **Pass-through chains are genuine and complete.** Whatever forwards to whatever, every chain is
made of wrappers that each lead to the next name, none of them twice; no two chains have the same
start; a wrapper that no other forwards into starts exactly one chain, and every wrapper is on one
before its end; without cycles and runs that are too long only such wrappers start a chain; and the
findings of an audit carry the chains of its wrappers. -/
theorem passThrough_genuine_and_complete (wrappers : List Wrapper) :
    (∀ chain ∈ chains wrappers, Chained wrappers chain) ∧
      ((chains wrappers).map (·.head?)).Nodup ∧
      (∀ id, IsRoot wrappers id → (chains wrappers).countP (·.head? == some id) = 1) ∧
      (∀ id, IsWrapper wrappers id → ∃ chain ∈ chains wrappers, id ∈ chain.dropLast) ∧
      (Acyclic wrappers → (∀ run, Run wrappers run → run.length ≤ maxChain) →
        ∀ id, (∃ chain ∈ chains wrappers, chain.head? = some id) ↔ IsRoot wrappers id) ∧
      ∀ s : AuditScope, s.passThrough.map (·.chain) = chains s.wrappers := by
  obtain ⟨lists, covered⟩ := lists_chains wrappers
  have starts (id : String) (root : IsRoot wrappers id) :=
    lists.root_starts root (covered id root.wrapper)
  refine ⟨fun _ => lists.chained, lists.heads, starts, covered, ?_, AuditScope.passThrough_chain⟩
  intro acyclic short id
  constructor
  · rintro ⟨chain, member, head⟩
    have only : chains wrappers = (roots wrappers).foldl (addChain wrappers) [] := by
      rw [chains_eq]
      exact foldl_addChain_of_covers fun id known => covers_roots acyclic short (mem_ids.mp known)
    obtain ⟨root, isRoot, same⟩ := (lists_roots wrappers).2.2 chain (only ▸ member)
    rwa [Option.some.inj (head.symm.trans same)]
  · intro root
    obtain ⟨chain, member, inside⟩ := covered id root.wrapper
    exact ⟨chain, member, (lists.chained member).head?_of_root root inside⟩

/-- Two wrappers of a third one, whose own callee is not known. -/
def sharedTail : List Wrapper :=
  [⟨"a", "b", some "b"⟩, ⟨"b", "lib.c", none⟩, ⟨"d", "b", some "b"⟩]

theorem passThrough_genuine_and_complete_sharedTail :
    IsRoot sharedTail "a" ∧ Acyclic sharedTail ∧
      (∀ run, Run sharedTail run → run.length ≤ maxChain) ∧
      chains sharedTail = [["a", "b", "lib.c"], ["d", "b", "lib.c"]] ∧
      (chains sharedTail).countP (·.head? == some "a") = 1 ∧
      ∀ id, (∃ chain ∈ chains sharedTail, chain.head? = some id) ↔ IsRoot sharedTail id := by
  have forwards {x y : String} (h : Forwards sharedTail x y) : x ≠ "b" ∧ y = "b" := by
    obtain ⟨w, found, target⟩ := h
    have member := List.mem_of_find?_eq_some found
    have same := List.find?_some found
    simp only [sharedTail, List.mem_reverse, List.mem_cons, List.not_mem_nil, or_false] at member
    rcases member with rfl | rfl | rfl
    · exact ⟨by rw [← eq_of_beq same]; decide, Option.some.inj target.symm⟩
    · cases target
    · exact ⟨by rw [← eq_of_beq same]; decide, Option.some.inj target.symm⟩
  have root : IsRoot sharedTail "a" :=
    ⟨⟨_, List.mem_cons_self, rfl⟩, fun other h => absurd (forwards h).2 (by decide)⟩
  have acyclic : Acyclic sharedTail := by
    intro id cycle
    obtain ⟨_, first, -⟩ := Relation.TransGen.head'_iff.mp cycle
    obtain ⟨_, -, last⟩ := Relation.TransGen.tail'_iff.mp cycle
    exact (forwards first).1 (forwards last).2
  have short (run : List String) (h : Run sharedTail run) : run.length ≤ maxChain := by
    have inside : run ⊆ sharedTail.map (·.id) := fun id member =>
      List.mem_map.mpr (h.wrapper id member)
    exact (h.nodup.subperm inside).length_le.trans (by decide)
  obtain ⟨-, -, starts, -, exact, -⟩ := passThrough_genuine_and_complete sharedTail
  exact ⟨root, acyclic, short, by cbv, starts "a" root, exact acyclic short⟩

end Wrapper

end CodeAtlas
