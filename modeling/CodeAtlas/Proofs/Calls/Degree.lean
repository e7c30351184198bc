import CodeAtlas.Proofs.Source.Order
import CodeAtlas.Report.Snapshot

/-!
Degrees count different neighbours, and the classes of functions follow from them.

One pair adds to the rows of its two ends (`countPair_eq`), so after all of them each row holds how
many pairs it is an end of (`foldl_countPair`). The pairs are all different, so a function has as
many of them as it has callers (`incoming_eq_ncard`), and in a table that knows every function each
pair counts once (`sum_countP_eq_length`). The classes of a table speak of its own rows, which is
why its ids must be different (`sources_eq`).
-/

namespace CodeAtlas

open List

/-! ### Counting by key -/

/-- Adding one for each key that is equal counts the key. -/
theorem sum_indicator_eq_count (key : String) (keys : List String) :
    (keys.map fun k => if key == k then 1 else 0).sum = keys.count key := by
  induction keys with
  | nil => simp
  | cons k keys ih => rw [map_cons, sum_cons, ih, count_cons, add_comm, BEq.comm]

/-- Over different keys that name all the elements each element counts once. -/
theorem sum_countP_eq_length {α : Type} {key : α → String} {keys : List String}
    (distinct : keys.Nodup) {xs : List α} (inside : ∀ x ∈ xs, key x ∈ keys) :
    (keys.map fun k => xs.countP (key · == k)).sum = xs.length := by
  induction xs with
  | nil => simp
  | cons x xs ih =>
    have once := count_eq_one_of_mem distinct (inside x mem_cons_self)
    have rest := ih fun y hy => inside y (mem_cons_of_mem _ hy)
    simp only [countP_cons, sum_map_add, sum_indicator_eq_count, once, rest, length_cons]

/-! ### The pairs that count -/

namespace Call

variable {calls : List Call} {pair : String × String}

/-- A resolved call leads from `source` to `target`. -/
def Leads (calls : List Call) (source target : String) : Prop :=
  ∃ c ∈ calls, c.resolved = true ∧ c.source = source ∧ c.target = some target

/-- A call has a pair if it is resolved and its target has a name. -/
theorem pair?_eq_some {c : Call} :
    c.pair? = some pair ↔ (c.resolved = true ∧ c.source = pair.1 ∧ c.target = some pair.2) ∧
      pair.2 ≠ "" := by
  obtain ⟨source, target⟩ := pair
  cases there : c.target with
  | none => simp [pair?, there]
  | some t =>
    simp only [pair?, there, Option.ite_none_right_eq_some, Bool.and_eq_true, bne_iff_ne,
      Option.some.injEq, Prod.mk.injEq]
    grind

/-- The pairs are the ends of the resolved calls, without those to an empty name. -/
theorem mem_pairs : pair ∈ pairs calls ↔ Leads calls pair.1 pair.2 ∧ pair.2 ≠ "" := by
  simp only [pairs, mem_sortWith, mem_eraseDups, mem_filterMap, pair?_eq_some, Leads]
  grind

/-- Calls between the same two functions make one pair. -/
theorem nodup_pairs (calls : List Call) : (pairs calls).Nodup :=
  (sortWith_perm _ _).nodup_iff.mpr (nodup_eraseDups _)

/-- Where no target is empty there are as many pairs as different calls. -/
theorem length_pairs (present : ∀ s t, Leads calls s t → t ≠ "") :
    (pairs calls).length = {c : String × String | Leads calls c.1 c.2}.ncard := by
  rw [← countP_true]
  refine countP_eq_ncard (f := fun c => c) (nodup_pairs calls) (fun _ _ _ _ _ _ same => same) ?_
  intro c
  simp only [mem_pairs]
  grind

end Call

/-! ### Counting the pairs -/

/-- The degree of `id` after some pairs have been counted. -/
def Degree.after (d : Degree) (id : String) (pairs : List (String × String)) : Degree :=
  { incoming := d.incoming + pairs.countP (·.2 == id)
    outgoing := d.outgoing + pairs.countP (·.1 == id)
    total := d.total + (pairs.countP (·.2 == id) + pairs.countP (·.1 == id)) }

theorem Degree.after_cons (d : Degree) (id : String) (pair : String × String)
    (pairs : List (String × String)) :
    d.after id (pair :: pairs) = (d.after id [pair]).after id pairs := by
  simp only [Degree.after, countP_cons, countP_nil, Degree.mk.injEq]
  omega

namespace DegreeTable

variable {table : DegreeTable} {ids : List String} {calls : List Call} {id : String}

theorem has_eq_false : table.has id = false ↔ ∀ row ∈ table, row.1 ≠ id := by
  simp [has]

/-- A row that the table does not have cannot be changed. -/
theorem update_of_not_has (f : Degree → Degree) (missing : table.has id = false) :
    table.update id f = table := by
  have apart := has_eq_false.mp missing
  refine (map_congr_left fun row mem => ?_).trans (map_id table)
  simp [apart row mem]

/-- One pair adds to the rows of its two ends and to no other. The tests for the ends do not matter:
where the table has no such row nothing is added. -/
theorem countPair_eq (table : DegreeTable) (pair : String × String) :
    table.countPair pair = table.map fun row => (row.1, row.2.after row.1 [pair]) := by
  have source : (if table.has pair.1 then table.update pair.1 Degree.addOutgoing else table) =
      table.update pair.1 Degree.addOutgoing := by
    split
    · rfl
    · rename_i missing
      exact (update_of_not_has _ (Bool.not_eq_true _ ▸ missing)).symm
  have target : table.countPair pair =
      (table.update pair.1 Degree.addOutgoing).update pair.2 Degree.addIncoming := by
    simp only [countPair, source]
    split
    · rfl
    · rename_i missing
      exact (update_of_not_has _ (Bool.not_eq_true _ ▸ missing)).symm
  rw [target, update, update, map_map]
  refine map_congr_left fun row _ => ?_
  simp only [Function.comp_apply, Degree.after, countP_cons, countP_nil, BEq.comm (b := row.1)]
  cases row.1 == pair.1 <;> cases second : row.1 == pair.2 <;> simp [second] <;> rfl

/-- After all pairs each row holds what `Degree.after` says of its own id. By induction on the
pairs, with `countPair_eq` for each. -/
theorem foldl_countPair (pairs : List (String × String)) (table : DegreeTable) :
    pairs.foldl countPair table = table.map fun row => (row.1, row.2.after row.1 pairs) := by
  induction pairs generalizing table with
  | nil => simp [Degree.after]
  | cons pair pairs ih =>
    rw [foldl_cons, ih, countPair_eq, map_map]
    refine map_congr_left fun row _ => ?_
    simp only [Function.comp_apply, Degree.after_cons _ _ pair pairs]

/-- The whole table: one row for each id, with the pairs that it is an end of. -/
theorem ofCalls_eq (ids : List String) (calls : List Call) :
    ofCalls ids calls = ids.eraseDups.map fun id =>
      (id, Degree.after {} id (Call.pairs calls)) := by
  rw [ofCalls, foldl_countPair, start, map_map]
  rfl

/-- The incoming degree of a function is the number of its callers. -/
theorem incoming_eq_ncard (named : id ≠ "") :
    (Degree.after {} id (Call.pairs calls)).incoming = {s | Call.Leads calls s id}.ncard := by
  rw [Degree.after, Nat.zero_add]
  refine countP_eq_ncard (f := Prod.fst) (Call.nodup_pairs calls) ?_ ?_
  · intro x _ y _ hx hy same
    rw [beq_iff_eq] at hx hy
    exact Prod.ext same (hx.trans hy.symm)
  · intro s
    simp only [Call.mem_pairs, beq_iff_eq, Prod.exists]
    grind

/-- The outgoing degree of a function is the number of its callees that have a name. -/
theorem outgoing_eq_ncard (calls : List Call) (id : String) :
    (Degree.after {} id (Call.pairs calls)).outgoing =
      {t | t ≠ "" ∧ Call.Leads calls id t}.ncard := by
  simp only [Degree.after, Nat.zero_add]
  refine countP_eq_ncard (f := Prod.snd) (Call.nodup_pairs calls) ?_ ?_
  · intro x _ y _ hx hy same
    rw [beq_iff_eq] at hx hy
    exact Prod.ext (hx.trans hy.symm) same
  · intro t
    simp only [Call.mem_pairs, beq_iff_eq, Prod.exists]
    grind

end DegreeTable

/-! ### Classes -/

namespace DegreeClasses

variable {table : DegreeTable}

def RanksAbove (a b : String × Degree) : Prop :=
  b.2.total < a.2.total ∨ a.2.total = b.2.total ∧ a.1 < b.1

instance : Std.TransCmp compareRank :=
  inferInstanceAs (Std.TransCmp (compareLex
    (fun a b => compareOn (fun n : String × Degree => n.2.total) b a) (compareOn Prod.fst)))

/-- Two rows of different ids are never tied, so the order of the ranking is strict. -/
theorem ranksAbove_of_before {a b : String × Degree} (before : Before compareRank a b)
    (apart : a.1 ≠ b.1) :
    RanksAbove a b := by
  simp only [Before, compareRank, Ordering.isLE_then_iff_or, Nat.compare_eq_lt, Nat.compare_eq_eq]
    at before
  rcases before with higher | ⟨same, order⟩
  · exact .inl higher
  · have less : compare a.1 b.1 = .lt := lt_of_before order apart
    exact .inr ⟨same.symm, compareOfLessAndEq_eq_lt.mp less⟩

/-- The ranking has the rows with some neighbour, each as often as the table. -/
theorem ranking_perm (table : DegreeTable) :
    (ranking table).Perm (table.filter fun n => 0 < n.2.total) :=
  (sortWith_perm _ _).trans ((sortWith_perm _ table).filter _)

/-- In a ranking each row is above all rows that follow it. -/
theorem ranking_pairwise (distinct : (table.map (·.1)).Nodup) :
    (ranking table).Pairwise RanksAbove := by
  have apart : ((ranking table).map (·.1)).Nodup :=
    ((ranking_perm table).map _).nodup_iff.mpr (distinct.sublist (filter_sublist.map _))
  have sorted : (ranking table).Pairwise (Before compareRank) := sortWith_pairwise _
  have both := sorted.and (pairwise_map.mp apart)
  exact both.imp fun h => ranksAbove_of_before h.1 h.2

/-- The hubs are the first rows of the ranking. -/
theorem hubs_eq (table : DegreeTable) (hubCount : Nat) :
    (ofTable table hubCount).hubs = ((ranking table).take hubCount).map fun n =>
      (n.1, n.2.total) := by
  simp [ofTable, Text.takeSigned]

/-- A row is the only one of its id, so an id is a sink when its own row calls nothing. -/
theorem mem_sinks_iff (distinct : (table.map (·.1)).Nodup) {hubCount : Int} {n : String × Degree}
    (mem : n ∈ table) :
    n.1 ∈ (ofTable table hubCount).sinks ↔ n.2.outgoing = 0 := by
  simp only [ofTable, mem_map, mem_filter, DegreeTable.sorted, mem_sortWith, beq_iff_eq]
  constructor
  · rintro ⟨m, ⟨there, none⟩, same⟩
    rwa [inj_on_of_nodup_map distinct there mem same] at none
  · intro none
    exact ⟨n, ⟨mem, none⟩, rfl⟩

/-- Sources are the orphans that call something. -/
theorem sources_eq (distinct : (table.map (·.1)).Nodup) (hubCount : Int) :
    (ofTable table hubCount).sources =
      (ofTable table hubCount).orphans.filter (· ∉ (ofTable table hubCount).sinks) := by
  have row : ∀ n ∈ table.sorted, (n.2.incoming == 0 && decide (0 < n.2.outgoing)) =
      (decide (n.1 ∉ (ofTable table hubCount).sinks) && n.2.incoming == 0) := by
    intro n mem
    simp only [mem_sinks_iff distinct (mem_sortWith.mp mem), Nat.pos_iff_ne_zero, Bool.and_comm]
  simp only [ofTable, filter_map, filter_filter, Function.comp_def]
  rw [filter_congr row]
  rfl

end DegreeClasses

/-! ### Resolved calls only -/

namespace CallGraph

def resolvedLinks (g : CallGraph) : List CallLink :=
  g.links.filter (·.target.isSome)

def withResolved (g : CallGraph) : CallGraph :=
  { g with links := g.resolvedLinks }

/-- Asking for resolved calls only takes the other links from the graph that is built without it,
and fails where that fails. -/
theorem build_resolvedOnly (files : List SourceFile) (entries : List Entry) (options : CallOptions)
    (readErrors : List FileError) (warnings : List FileWarning) (blueprint : Blueprint) :
    build files entries { options with resolvedOnly := true } readErrors warnings blueprint =
      (build files entries { options with resolvedOnly := false } readErrors warnings blueprint).map
        withResolved := by
  unfold build
  split
  · rfl
  · split <;> rfl

/-- Of the statistics only the number of links that are shown changes. -/
theorem stats_withResolved (g : CallGraph) : g.withResolved.stats = g.stats.map fun s =>
      if s.1 = "edges_emitted" then (s.1, .nat g.resolvedLinks.length) else s := by
  simp [stats, withResolved, DegreeClasses.fields]

/-- A row of a table counts the different callers and callees of a function, and when all the calls
are between known functions the rows add up to the different calls. The hubs of a table are the
first of its ranking, the sources the orphans that are no sinks. To keep resolved calls only takes
the others from the links and changes one number. -/
theorem degrees_count_neighbours :
    (∀ (ids : List String) (calls : List Call),
      let table := DegreeTable.ofCalls ids calls
      table.map (·.1) = ids.eraseDups ∧
      (∀ n ∈ table, n.1 ≠ "" → n.2.incoming = {s | Call.Leads calls s n.1}.ncard ∧
        n.2.outgoing = {t | t ≠ "" ∧ Call.Leads calls n.1 t}.ncard ∧
        n.2.total = n.2.incoming + n.2.outgoing) ∧
      ((∀ s t, Call.Leads calls s t → (s ≠ "" ∧ s ∈ ids) ∧ t ≠ "" ∧ t ∈ ids) →
        (table.map (·.2.incoming)).sum = {c : String × String | Call.Leads calls c.1 c.2}.ncard ∧
        (table.map (·.2.outgoing)).sum = {c : String × String | Call.Leads calls c.1 c.2}.ncard)) ∧
    (∀ table : DegreeTable, (table.map (·.1)).Nodup → ∀ hubCount : Nat,
      let classes := DegreeClasses.ofTable table hubCount
      let ranked := table.filter fun n => 0 < n.2.total
      (∃ ranking : DegreeTable, ranking.Perm ranked ∧ ranking.Pairwise DegreeClasses.RanksAbove ∧
        classes.hubs = (ranking.take (min hubCount ranked.length)).map fun n => (n.1, n.2.total)) ∧
      classes.sources = classes.orphans.filter (· ∉ classes.sinks)) ∧
    ∀ (files : List SourceFile) (entries : List Entry) (options : CallOptions)
      (readErrors : List FileError)
      (warnings : List FileWarning) (blueprint : Blueprint),
      build files entries { options with resolvedOnly := true } readErrors warnings blueprint =
        (build files entries { options with resolvedOnly := false } readErrors warnings
          blueprint).map withResolved ∧
      ∀ g : CallGraph, g.withResolved.stats = g.stats.map fun s =>
        if s.1 = "edges_emitted" then (s.1, .nat g.resolvedLinks.length) else s := by
  refine ⟨fun ids calls => ⟨?_, ?_, ?_⟩, ?_, ?_⟩
  · simp [DegreeTable.ofCalls_eq, Function.comp_def]
  · intro n member named
    rw [DegreeTable.ofCalls_eq] at member
    obtain ⟨id, -, rfl⟩ := List.mem_map.mp member
    refine ⟨DegreeTable.incoming_eq_ncard named, DegreeTable.outgoing_eq_ncard calls id, ?_⟩
    simp [Degree.after]
  · intro known
    have inside : ∀ c ∈ Call.pairs calls, c.1 ∈ ids.eraseDups ∧ c.2 ∈ ids.eraseDups := by
      intro c member
      have ends := known c.1 c.2 (Call.mem_pairs.mp member).1
      exact ⟨List.mem_eraseDups.mpr ends.1.2, List.mem_eraseDups.mpr ends.2.2⟩
    rw [← Call.length_pairs fun s t leads => (known s t leads).2.1]
    simp only [DegreeTable.ofCalls_eq, List.map_map, Function.comp_def, Degree.after, Nat.zero_add]
    exact ⟨sum_countP_eq_length (nodup_eraseDups ids) fun c hc => (inside c hc).2,
      sum_countP_eq_length (nodup_eraseDups ids) fun c hc => (inside c hc).1⟩
  · intro table distinct hubCount
    refine ⟨⟨DegreeClasses.ranking table, DegreeClasses.ranking_perm table,
      DegreeClasses.ranking_pairwise distinct, ?_⟩, DegreeClasses.sources_eq distinct hubCount⟩
    rw [DegreeClasses.hubs_eq, ← (DegreeClasses.ranking_perm table).length_eq,
      ← List.take_eq_take_min]
  · intro files entries options readErrors warnings blueprint
    exact ⟨build_resolvedOnly files entries options readErrors warnings blueprint,
      stats_withResolved⟩

def threeCalls : List Call :=
  [⟨"a", some "b", true⟩, ⟨"a", some "b", true⟩, ⟨"b", some "b", true⟩, ⟨"b", some "c", false⟩]

/-- A call that is made twice counts once, a call of itself counts at both ends, and a call that is
not resolved counts nowhere. -/
theorem degrees_count_neighbours_repeated :
    let table := DegreeTable.ofCalls ["a", "b"] threeCalls
    let classes := DegreeClasses.ofTable table 1
    (table.map (·.2.incoming)).sum = {c : String × String | Call.Leads threeCalls c.1 c.2}.ncard ∧
      classes.sources = classes.orphans.filter (· ∉ classes.sinks) := by
  obtain ⟨counts, classes, -⟩ := degrees_count_neighbours
  obtain ⟨ids, -, sums⟩ := counts ["a", "b"] threeCalls
  have known : ∀ s t, Call.Leads threeCalls s t → (s ≠ "" ∧ s ∈ ["a", "b"]) ∧ t ≠ "" ∧
      t ∈ ["a", "b"] := by
    rintro s t ⟨c, mem, resolved, rfl, target⟩
    simp only [threeCalls, List.mem_cons, List.not_mem_nil, or_false] at mem
    rcases mem with rfl | rfl | rfl | rfl <;> cases target <;> simp at resolved ⊢
  have distinct : ((DegreeTable.ofCalls ["a", "b"] threeCalls).map (·.1)).Nodup :=
    ids ▸ nodup_eraseDups _
  exact ⟨(sums known).1, (classes _ distinct 1).2⟩

end CallGraph

end CodeAtlas
