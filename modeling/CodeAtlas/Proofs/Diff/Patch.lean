import CodeAtlas.Diff.Build
import CodeAtlas.Proofs.Report.Reload
import CodeAtlas.Proofs.Source.Order

/-!
A difference is an exact patch, and it sees nothing but identities.

Of two graphs with the same identities, in any order and any number, everything that a difference
computes is the same: the lists of added and removed names (`sortedMinus_congr`), the neighbours of
a node and with them every score (`GraphView.score_congr`), and so the whole difference
(`GraphView.diff_congr`). What is added and removed turns the identities of the first graph into
those of the second (`isPatch_sortedMinus`). A mapping has to explain exactly the removed nodes
(`Diff.enforce_cases`). `Snapshot.diff_exact` states all this of snapshots.
-/

namespace CodeAtlas

open List

variable {α : Type}

/-! ### Patches -/

/-- What is added and removed turns the first set into the second, and nothing is added that was
there or removed that was not. -/
structure IsPatch {α : Type} (before after added removed : List α) : Prop where
  patched : ∀ x, x ∈ after ↔ (x ∈ before ∧ x ∉ removed) ∨ x ∈ added
  removed : ∀ x ∈ removed, x ∈ before
  added : ∀ x ∈ added, x ∉ before

/-- A patch stays a patch when names are replaced by others one to one. -/
theorem IsPatch.map {β : Type} {f : α → β} (inj : Function.Injective f)
    {before after added removed : List α} (h : IsPatch before after added removed) :
    IsPatch (before.map f) (after.map f) (added.map f) (removed.map f) := by
  constructor
  · intro y
    constructor
    · intro mem
      obtain ⟨x, there, rfl⟩ := mem_map.mp mem
      simp only [mem_map_of_injective inj]
      exact (h.patched x).mp there
    · rintro (⟨mem, kept⟩ | mem)
      · obtain ⟨x, there, rfl⟩ := mem_map.mp mem
        rw [mem_map_of_injective inj] at kept ⊢
        exact (h.patched x).mpr (.inl ⟨there, kept⟩)
      · obtain ⟨x, there, rfl⟩ := mem_map.mp mem
        rw [mem_map_of_injective inj]
        exact (h.patched x).mpr (.inr there)
  · intro y mem
    obtain ⟨x, there, rfl⟩ := mem_map.mp mem
    exact mem_map_of_mem (h.removed x there)
  · intro y mem
    obtain ⟨x, there, rfl⟩ := mem_map.mp mem
    rw [mem_map_of_injective inj]
    exact h.added x there

section Minus

variable {α : Type} [BEq α] [LawfulBEq α] [Ord α] {xs ys : List α}

/-- What stands in the first list and not in the second. -/
theorem mem_sortedMinus {x : α} : x ∈ sortedMinus xs ys ↔ x ∈ xs ∧ x ∉ ys := by
  simp [sortedMinus]

/-- **The lists of added and removed names are a patch** from the one list to the other. -/
theorem isPatch_sortedMinus (xs ys : List α) :
    IsPatch xs ys (sortedMinus ys xs) (sortedMinus xs ys) := by
  constructor
  · intro x
    simp only [mem_sortedMinus]
    by_cases inXs : x ∈ xs <;> by_cases inYs : x ∈ ys <;> simp [inXs, inYs]
  · intro x h
    exact (mem_sortedMinus.mp h).1
  · intro x h
    exact (mem_sortedMinus.mp h).2

theorem sortedMinus_eq_nil : sortedMinus xs ys = [] ↔ ∀ x ∈ xs, x ∈ ys := by
  rw [eq_nil_iff_forall_not_mem]
  simp only [mem_sortedMinus, not_and, not_not]

variable [Std.TransOrd α] [Std.LawfulEqOrd α]

/-- Order and number of the names do not matter for what is added and removed. -/
theorem sortedMinus_congr {xs' ys' : List α} (first : SameElements xs xs')
    (second : SameElements ys ys') : sortedMinus xs ys = sortedMinus xs' ys' := by
  have kept : (xs.eraseDups.filter (!ys.contains ·)).Perm
      (xs'.eraseDups.filter (!ys'.contains ·)) := by
    rw [filter_congr fun x _ => congrArg not (second.contains_eq x)]
    exact first.eraseDups_perm.filter _
  exact sortWith_eq_of_perm kept

/-- Added and removed names are listed in strict order. -/
theorem sortedMinus_pairwise (xs ys : List α) :
    (sortedMinus xs ys).Pairwise fun a b => compare a b = .lt := by
  have distinct : (sortedMinus xs ys).Nodup :=
    (sortWith_perm _ _).nodup_iff.mpr ((nodup_eraseDups xs).filter _)
  exact (List.Pairwise.and (sortWith_pairwise _) distinct).imp fun h => lt_of_before h.1 h.2

end Minus

/-- Order and number of the neighbours do not matter for a score. -/
theorem sharedCount_congr [BEq α] [LawfulBEq α] {xs xs' ys ys' : List α}
    (first : SameElements xs xs') (second : SameElements ys ys') :
    sharedCount xs ys = sharedCount xs' ys' := by
  unfold sharedCount
  rw [countP_congr fun x _ => by rw [second.contains_eq x], first.eraseDups_perm.countP_eq]

/-! ### Edges -/

namespace EdgeKey

variable {ν : Type}

instance [BEq ν] [LawfulBEq ν] : LawfulBEq (EdgeKey ν) where
  eq_of_beq {a b} same := by
    obtain ⟨source, target, kind⟩ := a
    obtain ⟨source', target', kind'⟩ := b
    simp only [BEq.beq, Bool.and_eq_true] at same
    obtain ⟨⟨sources, targets⟩, kinds⟩ := same
    rw [eq_of_beq sources, eq_of_beq targets, eq_of_beq kinds]
  rfl {a} := by
    simp [BEq.beq]

instance [Ord ν] [Std.TransOrd ν] : Std.TransOrd (EdgeKey ν) :=
  inferInstanceAs (Std.TransCmp (compareLex (compareLex (compareOn source) (compareOn target))
    (compareOn kind)))

instance [Ord ν] [Std.TransOrd ν] [Std.LawfulEqOrd ν] : Std.LawfulEqOrd (EdgeKey ν) where
  eq_of_compare {a b} tie := by
    obtain ⟨source, target, kind⟩ := a
    obtain ⟨source', target', kind'⟩ := b
    obtain ⟨ends, kinds⟩ := Ordering.then_eq_eq.mp tie
    obtain ⟨sources, targets⟩ := Ordering.then_eq_eq.mp ends
    obtain rfl : source = source' := Std.LawfulEqOrd.eq_of_compare sources
    obtain rfl : target = target' := Std.LawfulEqOrd.eq_of_compare targets
    obtain rfl : kind = kind' := Std.LawfulEqOrd.eq_of_compare kinds
    rfl

end EdgeKey

/-! ### Differences of graphs -/

namespace GraphView

variable {ν : Type}

/-- Two graphs of one kind have the same identities of nodes and of edges. -/
structure Agree (g h : GraphView ν) : Prop where
  kind : g.kind = h.kind
  nodes : SameElements g.nodes h.nodes
  edges : SameElements g.edges h.edges

variable [BEq ν] [LawfulBEq ν] {naming : Naming ν} {a a' b b' : GraphView ν}

/-- Graphs with the same identities give the same scores. -/
theorem score_congr (before : Agree a a') (after : Agree b b') (old new : ν) :
    a.score naming b old new = a'.score naming b' old new :=
  sharedCount_congr (before.edges.filterMap _) (after.edges.filterMap _)

/-- Graphs with the same identities suggest the same move for a node. -/
theorem move?_congr (before : Agree a a') (after : Agree b b') (added : List ν) (old : ν) :
    a.move? naming b added old = a'.move? naming b' added old := by
  have scores : a.score naming b old = a'.score naming b' old :=
    funext (score_congr before after old)
  unfold move?
  rw [scores]

variable [Ord ν] [Std.TransOrd ν] [Std.LawfulEqOrd ν]

/-- The whole difference depends only on the kind and on which identities there are. -/
theorem diff_congr (before : Agree a a') (after : Agree b b') :
    a.diff naming b = a'.diff naming b' := by
  have added : sortedMinus b.nodes a.nodes = sortedMinus b'.nodes a'.nodes :=
    sortedMinus_congr after.nodes before.nodes
  have removed : sortedMinus a.nodes b.nodes = sortedMinus a'.nodes b'.nodes :=
    sortedMinus_congr before.nodes after.nodes
  have moves : a.move? naming b (sortedMinus b'.nodes a'.nodes) =
      a'.move? naming b' (sortedMinus b'.nodes a'.nodes) :=
    funext (move?_congr before after _)
  simp only [diff, before.kind, added, removed, moves,
    sortedMinus_congr after.edges before.edges, sortedMinus_congr before.edges after.edges]

end GraphView

/-- Nothing is added or removed exactly between lists of the same names. -/
theorem sortedMinus_both_empty [BEq α] [LawfulBEq α] [Ord α] {xs ys : List α} :
    sortedMinus ys xs = [] ∧ sortedMinus xs ys = [] ↔ SameElements xs ys := by
  rw [sortedMinus_eq_nil, sortedMinus_eq_nil]
  exact ⟨fun h x => ⟨h.2 x, h.1 x⟩, fun h => ⟨fun x => (h x).mpr, fun x => (h x).mp⟩⟩

/-- A difference is empty exactly between graphs with the same identities. -/
theorem GraphView.isEmpty_diff {ν : Type} [BEq ν] [LawfulBEq ν] [Ord ν] {naming : Naming ν}
    {a b : GraphView ν} :
    (a.diff naming b).isEmpty = true ↔ SameElements a.nodes b.nodes ∧
      SameElements a.edges b.edges := by
  rw [← sortedMinus_both_empty, ← sortedMinus_both_empty]
  simp only [Diff.isEmpty, GraphView.diff, Bool.and_eq_true, List.isEmpty_iff, and_assoc]

/-! ### Enforcement -/

def Mapping.HasValue (m : Mapping) (id : String) : Prop :=
  ∃ text, m.lookup id = some text ∧ ∃ c ∈ text.toList, isBlank c = false

/-- A mapping explains an id if its value for it holds something other than blanks. -/
theorem Mapping.explains_iff {m : Mapping} {id : String} :
    m.explains id = true ↔ m.HasValue id := by
  unfold explains HasValue
  cases m.lookup id with
  | none => simp
  | some text => simp [Text.isAllBlank]

namespace Diff

theorem isEmpty_map {ν μ : Type} (f : ν → μ) (d : Diff ν) : (d.map f).isEmpty = d.isEmpty := by
  simp [isEmpty, map]

/-- Enforcing a mapping gives the difference itself where every removed node is explained, and else
exactly the nodes that are not, in the order of the difference. -/
theorem enforce_cases {ν : Type} (text : ν → String) (m : Mapping) (d : Diff ν) :
    ((∀ id ∈ d.removedNodes, m.HasValue (text id)) ∧ d.enforce text m =
      .ok { d with unmapped := [] }) ∨
    ((∃ id ∈ d.removedNodes, ¬ m.HasValue (text id)) ∧ d.enforce text m =
        .error ⟨(d.removedNodes.filter fun id => !m.explains (text id)).map text⟩) := by
  unfold enforce withMapping unexplained
  cases missing : d.removedNodes.filter fun id => !m.explains (text id) with
  | nil =>
    left
    refine ⟨fun id h => ?_, rfl⟩
    simpa [Mapping.explains_iff] using filter_eq_nil_iff.mp missing id h
  | cons id rest =>
    right
    refine ⟨⟨id, ?_⟩, rfl⟩
    have mem : id ∈ d.removedNodes.filter fun id => !m.explains (text id) := by
      rw [missing]
      exact mem_cons_self
    simpa [← Mapping.explains_iff] using mem_filter.mp mem

end Diff

/-! ### Differences of snapshots -/

namespace Snapshot

variable {s t : Snapshot} {v w : GraphView String}

/-- The names that a difference sees are texts, as the types of a report say; the target of an edge
may be missing. -/
structure TextNamed (s : Snapshot) : Prop where
  nodes : ∀ id ∈ s.nodeIds, id.IsText
  edges : ∀ e ∈ s.resolvedEdges, e.source.IsText ∧ e.target.IsOptionalText ∧ e.kind.IsText

/-- Two snapshots show the same identities of nodes and of resolved edges. -/
structure Agree (s t : Snapshot) : Prop where
  kind : s.kind = t.kind
  nodes : SameElements s.nodeIds t.nodeIds
  edges : SameElements s.edgeKeys t.edgeKeys

structure ShowsTexts (s : Snapshot) (v : GraphView String) : Prop where
  read : s.textView? = some v
  kind : s.kind = v.kind
  nodes : s.nodeIds = v.nodes.map .str
  edges : s.edgeKeys = v.edges.map (·.map .str)

theorem str_injective : Function.Injective Json.str :=
  fun _ _ same => Json.str.inj same

theorem edge_str_injective : Function.Injective (EdgeKey.map Json.str) := by
  rintro ⟨source, target, kind⟩ ⟨source', target', kind'⟩ same
  simpa [EdgeKey.map] using same

/-- Where all elements are written images, reading them gives what was written. -/
theorem mapM_of_images {α β : Type} (read : β → Option α) (write : α → β)
    (back : ∀ a, read (write a) = some a) {xs : List β} (images : ∀ x ∈ xs, ∃ a, x = write a) :
    ∃ as : List α, xs.mapM read = some as ∧ xs = as.map write := by
  induction xs with
  | nil => exact ⟨[], rfl, rfl⟩
  | cons x xs ih =>
    obtain ⟨a, rfl⟩ := images x mem_cons_self
    obtain ⟨as, all, same⟩ := ih fun x h => images x (mem_cons_of_mem _ h)
    refine ⟨a :: as, ?_, by rw [map_cons, ← same]⟩
    rw [mapM_cons, back, all]
    rfl

/-- A snapshot whose names are texts has a view by these texts. -/
theorem showsTexts_of_images (nodes : ∀ id ∈ s.nodeIds, ∃ name, id = .str name)
    (edges : ∀ k ∈ s.edgeKeys, ∃ e : EdgeKey String, k = e.map .str) : ∃ v, s.ShowsTexts v := by
  obtain ⟨names, readNames, sameNames⟩ := mapM_of_images Json.text? .str (fun _ => rfl) nodes
  obtain ⟨keys, readKeys, sameKeys⟩ := mapM_of_images textEdge? (.map .str) (fun _ => rfl) edges
  refine ⟨⟨s.kind, names, keys⟩, ?_, rfl, sameNames, sameKeys⟩
  rw [textView?, readNames, readKeys]
  rfl

/-- The keys of the edges are texts too: a missing target becomes the empty text. -/
theorem TextNamed.edgeKeys (h : s.TextNamed) :
    ∀ k ∈ s.edgeKeys, ∃ e : EdgeKey String, k = e.map .str := by
  intro k mem
  obtain ⟨e, resolved, rfl⟩ := mem_map.mp mem
  obtain ⟨⟨source, sourceText⟩, target, kind, kindText⟩ := h.edges e resolved
  obtain ⟨name, targetText⟩ : (if e.target.isTruthy then e.target else .str "").IsText := by
    split
    · rename_i truthy
      rcases target with missing | text
      · rw [missing] at truthy
        cases truthy
      · exact text
    · exact ⟨"", rfl⟩
  exact ⟨⟨source, name, kind⟩, by rw [sourceText, targetText, kindText]; rfl⟩

theorem TextNamed.showsTexts (h : s.TextNamed) : ∃ v, s.ShowsTexts v :=
  showsTexts_of_images h.nodes h.edgeKeys

theorem Agree.showsTexts (h : s.Agree t) (named : t.TextNamed) : ∃ v, s.ShowsTexts v :=
  showsTexts_of_images (fun id mem => named.nodes id ((h.nodes id).mp mem))
    fun k mem => named.edgeKeys k ((h.edges k).mp mem)

/-- The views of snapshots that agree do so too. -/
theorem Agree.views (h : s.Agree t) (hv : s.ShowsTexts v) (hw : t.ShowsTexts w) : v.Agree w where
  kind := by rw [← hv.kind, ← hw.kind, h.kind]
  nodes := (SameElements.map_iff str_injective).mp (hv.nodes ▸ hw.nodes ▸ h.nodes)
  edges := (SameElements.map_iff edge_str_injective).mp (hv.edges ▸ hw.edges ▸ h.edges)

/-- The difference of two snapshots is that of their views. -/
theorem diff_eq (kinds : s.kind = t.kind) (hv : s.ShowsTexts v) (hw : t.ShowsTexts w) :
    s.diff t = .ok ((v.diff (Naming.ofKind v.kind) w).map .str) := by
  simp [diff, kinds, hv.read, hw.read]

def Unexplained (before after : Snapshot) (m : Mapping) (id : String) : Prop :=
  .str id ∈ before.nodeIds ∧ .str id ∉ after.nodeIds ∧ ¬ m.HasValue id

/-- Enforcing a mapping on a difference of snapshots: all removed nodes are explained, or exactly
the others are reported, in order. -/
theorem enforce_diff {naming : Naming String} (hv : s.ShowsTexts v)
    (hw : t.ShowsTexts w) (m : Mapping) :
    ((∀ id, ¬ Unexplained s t m id) ∧
      ((v.diff naming w).map Json.str).enforce Json.display m = .ok ((v.diff naming w).map .str)) ∨
    ∃ missing, missing ≠ [] ∧ missing.Pairwise (· < ·) ∧
      (∀ id, id ∈ missing ↔ Unexplained s t m id) ∧
      ((v.diff naming w).map Json.str).enforce Json.display m = .error ⟨missing⟩ := by
  have gone (id : String) : id ∈ (v.diff naming w).removedNodes ↔
      .str id ∈ s.nodeIds ∧ .str id ∉ t.nodeIds := by
    rw [hv.nodes, hw.nodes, mem_map_of_injective str_injective, mem_map_of_injective str_injective]
    exact mem_sortedMinus
  have ordered : (v.diff naming w).removedNodes.Pairwise (· < ·) :=
    (sortedMinus_pairwise v.nodes w.nodes).imp compareOfLessAndEq_eq_lt.mp
  rcases Diff.enforce_cases Json.display m ((v.diff naming w).map .str) with
    ⟨explained, result⟩ | ⟨⟨id, removed, unexplained⟩, result⟩
  · left
    refine ⟨?_, result⟩
    rintro id ⟨before, after, without⟩
    exact without (explained (.str id) (mem_map_of_mem ((gone id).mpr ⟨before, after⟩)))
  · right
    have listed (id : String) :
        id ∈ (v.diff naming w).removedNodes.filter (fun id => !m.explains id) ↔
          Unexplained s t m id := by
      rw [mem_filter, gone, Unexplained, ← Mapping.explains_iff]
      simp [and_assoc]
    refine ⟨_, ?_, ordered.filter _, listed, ?_⟩
    · obtain ⟨name, mem, rfl⟩ := mem_map.mp removed
      have inside := (listed name).mpr ⟨((gone name).mp mem).1, ((gone name).mp mem).2, unexplained⟩
      exact ne_nil_of_mem inside
    · have shown : Json.display ∘ Json.str = fun name => name := funext fun _ => rfl
      rw [result, Diff.map, filter_map, map_map, shown, map_id']
      rfl

/-- A difference is an exact patch. For snapshots of one kind whose names are texts there is a
difference; it turns the nodes and the resolved edges of the first into those of the second; the
other way round it swaps what is added and removed; it is empty exactly when the identities agree;
all of it depends on the identities only; and a mapping is accepted exactly when it has a value for
every node that is gone, with the others listed in order where it is not. -/
theorem diff_exact (a b : Snapshot) (ha : a.TextNamed) (hb : b.TextNamed)
    (kinds : a.kind = b.kind) :
    ∃ d, a.diff b = .ok d ∧
      IsPatch a.nodeIds b.nodeIds d.addedNodes d.removedNodes ∧
      IsPatch a.edgeKeys b.edgeKeys d.addedEdges d.removedEdges ∧
      (∃ back, b.diff a = .ok back ∧
        back.addedNodes = d.removedNodes ∧ back.removedNodes = d.addedNodes ∧
        back.addedEdges = d.removedEdges ∧ back.removedEdges = d.addedEdges) ∧
      (d.isEmpty = true ↔
        SameElements a.nodeIds b.nodeIds ∧ SameElements a.edgeKeys b.edgeKeys) ∧
      (∀ a' b' : Snapshot, a'.Agree a → b'.Agree b → a'.diff b' = .ok d) ∧
      ∀ m : Mapping,
        ((∀ id, ¬ Unexplained a b m id) ∧ d.enforce Json.display m = .ok d) ∨
        ∃ missing, missing ≠ [] ∧ missing.Pairwise (· < ·) ∧
          (∀ id, id ∈ missing ↔ Unexplained a b m id) ∧
          d.enforce Json.display m = .error ⟨missing⟩ := by
  obtain ⟨v, hv⟩ := ha.showsTexts
  obtain ⟨w, hw⟩ := hb.showsTexts
  refine ⟨_, diff_eq kinds hv hw, ?_, ?_, ?_, ?_, ?_, enforce_diff hv hw⟩
  · rw [hv.nodes, hw.nodes]
    exact (isPatch_sortedMinus v.nodes w.nodes).map str_injective
  · rw [hv.edges, hw.edges]
    exact (isPatch_sortedMinus v.edges w.edges).map edge_str_injective
  · exact ⟨_, diff_eq kinds.symm hw hv, rfl, rfl, rfl, rfl⟩
  · rw [hv.nodes, hw.nodes, hv.edges, hw.edges, SameElements.map_iff str_injective,
      SameElements.map_iff edge_str_injective, ← GraphView.isEmpty_diff, Diff.isEmpty_map]
  · intro a' b' agreeA agreeB
    obtain ⟨v', hv'⟩ := agreeA.showsTexts ha
    obtain ⟨w', hw'⟩ := agreeB.showsTexts hb
    have first := agreeA.views hv' hv
    have second := agreeB.views hw' hw
    have kinds' : a'.kind = b'.kind := by rw [agreeA.kind, agreeB.kind, kinds]
    rw [diff_eq kinds' hv' hw', first.kind, GraphView.diff_congr first second]

/-- A graph in which `a.py` imports `b.py`, on two lines, and something unknown. -/
def importing : Snapshot where
  records := .blueprint [⟨.str "a.py", .str "python", 9, 2⟩, ⟨.str "b.py", .str "python", 0, 0⟩]
    [⟨.str "a.py", .str "b.py", .str "b", .str "import", .int 1, true⟩,
      ⟨.str "a.py", .str "b.py", .str "b", .str "import", .int 2, true⟩,
      ⟨.str "a.py", .null, .str "x", .str "import", .int 3, false⟩]
  stats := []
  errors := []
  warnings := []

/-- The same graph after `b.py` has become `c.py`. -/
def renamed : Snapshot where
  records := .blueprint [⟨.str "c.py", .str "python", 0, 0⟩, ⟨.str "a.py", .str "python", 9, 2⟩]
    [⟨.str "a.py", .str "c.py", .str "c", .str "import", .int 1, true⟩]
  stats := []
  errors := []
  warnings := []

theorem importing_textNamed : importing.TextNamed := by
  constructor <;>
    simp [importing, nodeIds, nodes, resolvedEdges, edges, Json.IsText, Json.IsOptionalText]

theorem renamed_textNamed : renamed.TextNamed := by
  constructor <;>
    simp [renamed, nodeIds, nodes, resolvedEdges, edges, Json.IsText, Json.IsOptionalText]

/-- A file that was renamed: the difference patches nodes and edges. -/
theorem diff_exact_renamed :
    importing.TextNamed ∧ renamed.TextNamed ∧ importing.kind = renamed.kind ∧
    ∃ d, importing.diff renamed = .ok d ∧
      IsPatch importing.nodeIds renamed.nodeIds d.addedNodes d.removedNodes ∧
      IsPatch importing.edgeKeys renamed.edgeKeys d.addedEdges d.removedEdges := by
  obtain ⟨d, found, nodes, edges, -⟩ :=
    diff_exact importing renamed importing_textNamed renamed_textNamed rfl
  exact ⟨importing_textNamed, renamed_textNamed, rfl, d, found, nodes, edges⟩

end Snapshot

end CodeAtlas
