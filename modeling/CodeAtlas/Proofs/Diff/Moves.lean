import CodeAtlas.Proofs.Diff.Patch
import CodeAtlas.Proofs.Reference.Resolution

/-!
A suggested move is the best match for a removed node, and the only one.

The search for the best match keeps the first of the nodes with the highest score so far; `IsBest`
is what it knows of the nodes that it has passed, and each node keeps it (`IsBest.next`). Over the
added nodes in order the first is the smallest (`isLeast_of_isBest`). A score counts the neighbours
that two nodes share as sets (`ShowsTexts.score_eq`), so `Snapshot.moves_best_match` speaks of the
edges of the snapshots alone.
-/

namespace CodeAtlas

open List

/-! ### The best of a list -/

namespace GraphView

variable {ν : Type} {scoreOf : ν → Nat} {front xs : List ν} {best : Option (ν × Nat)}

/-- What a search knows after some nodes: all of them score nothing, or the best is the first with
its score. -/
def IsBest (scoreOf : ν → Nat) (xs : List ν) : Option (ν × Nat) → Prop
  | none => ∀ x ∈ xs, scoreOf x = 0
  | some (x, score) => scoreOf x = score ∧ 0 < score ∧ ∃ front back, xs = front ++ x :: back ∧
      (∀ y ∈ front, scoreOf y < score) ∧ ∀ y ∈ back, scoreOf y ≤ score

/-- No node that has been passed scores more than the best one. -/
theorem IsBest.le (h : IsBest scoreOf xs best) : ∀ x ∈ xs, scoreOf x ≤ (best.map (·.2)).getD 0 := by
  intro x mem
  match best, h with
  | none, h => exact (h x mem).le
  | some (y, score), ⟨own, _, front, back, split, less, le⟩ =>
    rw [split, mem_append, mem_cons] at mem
    rcases mem with early | rfl | late
    · exact (less x early).le
    · exact own.le
    · exact le x late

/-- One more node is the best if it scores more than all before it. -/
theorem IsBest.next (h : IsBest scoreOf xs best) (x : ν) :
    IsBest scoreOf (xs ++ [x])
      (if (best.map (·.2)).getD 0 < scoreOf x then some (x, scoreOf x) else best) := by
  split
  · rename_i more
    exact ⟨rfl, Nat.zero_lt_of_lt more, xs, [], rfl, fun y mem => (h.le y mem).trans_lt more, nofun⟩
  · rename_i less
    match best, h with
    | none, h =>
      intro y mem
      rcases mem_append.mp mem with old | new
      · exact h y old
      · rw [mem_singleton.mp new]
        exact Nat.le_zero.mp (Nat.le_of_not_lt less)
    | some (y, score), ⟨own, positive, front, back, split, smaller, le⟩ =>
      refine ⟨own, positive, front, back ++ [x], by rw [split, append_assoc, cons_append],
        smaller, ?_⟩
      intro z mem
      rcases mem_append.mp mem with old | new
      · exact le z old
      · rw [mem_singleton.mp new]
        exact Nat.le_of_not_lt less

/-- The search keeps `IsBest` over all nodes that follow. By induction on these nodes. -/
theorem IsBest.bestFrom (h : IsBest scoreOf front best) (xs : List ν) :
    IsBest scoreOf (front ++ xs) (bestFrom scoreOf best xs) := by
  induction xs generalizing front best with
  | nil => simpa [GraphView.bestFrom] using h
  | cons x xs ih =>
    have later := ih (h.next x)
    rwa [append_assoc] at later

/-- What a whole search finds is the best of the list. -/
theorem isBest_bestFrom (scoreOf : ν → Nat) (xs : List ν) :
    IsBest scoreOf xs (bestFrom scoreOf none xs) := by
  have start : IsBest scoreOf [] none := by simp [IsBest]
  exact start.bestFrom xs

/-- In a list in order the best is the smallest with the highest score. -/
theorem isLeast_of_isBest [LinearOrder ν] {x : ν} {score : Nat} (sorted : xs.Pairwise (· < ·))
    (h : IsBest scoreOf xs (some (x, score))) : IsLeast {y | y ∈ xs ∧ scoreOf y = score} x := by
  obtain ⟨own, -, front, back, rfl, less, -⟩ := h
  refine ⟨⟨mem_append_right _ mem_cons_self, own⟩, ?_⟩
  rintro y ⟨mem, same⟩
  rw [mem_append, mem_cons] at mem
  rcases mem with early | rfl | late
  · exact absurd same (less y early).ne
  · exact le_rfl
  · exact ((pairwise_cons.mp (pairwise_append.mp sorted).2.1).1 y late).le

/-! ### Neighbours as sets -/

/-- The neighbours of a node are the other ends of its edges, itself and absent targets left out. -/
theorem mem_neighbours [BEq ν] [LawfulBEq ν] {naming : Naming ν} {g : GraphView ν} {x y : ν} :
    y ∈ g.neighbours naming x ↔ y ≠ x ∧ ∃ e ∈ g.edges, e.target ≠ naming.absent ∧
      (e.source = x ∧ e.target = y ∨ e.source = y ∧ e.target = x) := by
  simp only [neighbours, mem_filterMap]
  constructor
  · rintro ⟨e, mem, found⟩
    grind
  · rintro ⟨different, e, mem, present, ends⟩
    refine ⟨e, mem, ?_⟩
    grind

end GraphView

/-- A score counts the common elements of two sets, however often they are listed. -/
theorem sharedCount_eq_ncard {α : Type} [BEq α] [LawfulBEq α] (xs ys : List α) :
    sharedCount xs ys = ({x | x ∈ xs} ∩ {x | x ∈ ys}).ncard := by
  refine countP_eq_ncard (f := id) (nodup_eraseDups xs) (fun _ _ _ _ _ _ same => same) ?_
  simp

/-! ### Moves between snapshots -/

def Move.map {ν μ : Type} (f : ν → μ) (m : Move ν) : Move μ :=
  ⟨f m.source, f m.target, m.score, m.sameName⟩

def EdgeView.Joins (e : EdgeView) (x y : String) : Prop :=
  e.source = .str x ∧ e.target = .str y ∨ e.source = .str y ∧ e.target = .str x

namespace Snapshot

variable {id y old : String} {m : Move String}

def IsRemoved (before after : Snapshot) (id : String) : Prop :=
  .str id ∈ before.nodeIds ∧ .str id ∉ after.nodeIds

def IsAdded (before after : Snapshot) (id : String) : Prop :=
  .str id ∉ before.nodeIds ∧ .str id ∈ after.nodeIds

/-- The other nodes that a resolved edge joins with a node, in either direction. An edge to the
empty text leads to no node. -/
def joined (s : Snapshot) (x : String) : Set String :=
  {y | y ≠ x ∧ ∃ e ∈ s.resolvedEdges, e.target ≠ .str "" ∧ e.Joins x y}

/-- How many neighbours a node of one snapshot shares with a node of another. -/
noncomputable def shared (before after : Snapshot) (old new : String) : Nat :=
  (before.joined old ∩ after.joined new).ncard

def SameBase (s : Snapshot) (x y : String) : Prop :=
  s.kind.baseName x = s.kind.baseName y

/-- What a move has to be. Its score is the highest that any added node has; of several nodes with
that score the move goes to the smallest, and where it is nothing to the only one with the base
name. -/
structure IsMove (before after : Snapshot) (m : Move String) : Prop where
  removed : IsRemoved before after m.source
  added : IsAdded before after m.target
  score : IsGreatest {n | ∃ y, IsAdded before after y ∧ shared before after m.source y = n} m.score
  smallest : 0 < m.score → IsLeast
    {y | IsAdded before after y ∧ shared before after m.source y = m.score} m.target
  only : m.score = 0 → ∀ y, IsAdded before after y → (SameBase before y m.source ↔ y = m.target)
  reason : m.reason = "move" ↔ SameBase before m.target m.source

variable {s a b : Snapshot} {u v w : GraphView String}

theorem ShowsTexts.mem_nodes (h : s.ShowsTexts v) : id ∈ v.nodes ↔ .str id ∈ s.nodeIds := by
  rw [h.nodes, mem_map_of_injective str_injective]

/-- The edges with a target are the same in a snapshot and in its view. -/
theorem ShowsTexts.edge_iff (h : s.ShowsTexts v) {x : String} (present : y ≠ "") :
    (∃ e ∈ v.edges, e.source = x ∧ e.target = y) ↔ ∃ e ∈ s.resolvedEdges, e.source = .str x ∧
      e.target = .str y := by
  constructor
  · rintro ⟨e, mem, rfl, rfl⟩
    have listed : e.map .str ∈ s.edgeKeys := h.edges ▸ mem_map_of_mem mem
    obtain ⟨r, resolved, key⟩ := mem_map.mp listed
    obtain ⟨source, target, -⟩ := EdgeKey.mk.inj key
    refine ⟨r, resolved, source, ?_⟩
    split at target
    · exact target
    · exact absurd (Json.str.inj target).symm present
  · rintro ⟨r, resolved, source, target⟩
    have listed : (⟨.str x, .str y, r.kind⟩ : EdgeKey Json) ∈ s.edgeKeys := by
      refine mem_map.mpr ⟨r, resolved, ?_⟩
      simp [source, target, Json.isTruthy, present]
    rw [h.edges] at listed
    obtain ⟨e, mem, key⟩ := mem_map.mp listed
    obtain ⟨source, target, -⟩ := EdgeKey.mk.inj key
    exact ⟨e, mem, Json.str.inj source, Json.str.inj target⟩

/-- The neighbours in a view are the nodes that the snapshot joins. -/
theorem ShowsTexts.joined_eq (h : s.ShowsTexts v) (kind : GraphKind) (x : String) :
    s.joined x = {y | y ∈ v.neighbours (Naming.ofKind kind) x} := by
  ext y
  simp only [joined, Set.mem_ofPred_eq, GraphView.mem_neighbours, Naming.ofKind]
  refine and_congr_right fun _ => ⟨?_, ?_⟩
  · rintro ⟨r, resolved, present, ⟨source, target⟩ | ⟨source, target⟩⟩
    · have some : y ≠ "" := fun empty => present (empty ▸ target)
      obtain ⟨e, mem, ends⟩ := (h.edge_iff some).mpr ⟨r, resolved, source, target⟩
      exact ⟨e, mem, ends.2 ▸ some, .inl ends⟩
    · have some : x ≠ "" := fun empty => present (empty ▸ target)
      obtain ⟨e, mem, ends⟩ := (h.edge_iff some).mpr ⟨r, resolved, source, target⟩
      exact ⟨e, mem, ends.2 ▸ some, .inr ends⟩
  · rintro ⟨e, mem, present, ends⟩
    obtain ⟨r, resolved, source, target⟩ := (h.edge_iff present).mp ⟨e, mem, rfl, rfl⟩
    refine ⟨r, resolved, by simpa [target] using present, ?_⟩
    rcases ends with ⟨rfl, rfl⟩ | ⟨rfl, rfl⟩
    · exact .inl ⟨source, target⟩
    · exact .inr ⟨source, target⟩

section

variable (hv : a.ShowsTexts v) (hw : b.ShowsTexts w)
include hv hw

/-- The score of two nodes is the number of neighbours that they share in the snapshots. -/
theorem ShowsTexts.score_eq (kind : GraphKind) (old new : String) :
    v.score (Naming.ofKind kind) w old new = shared a b old new := by
  rw [GraphView.score, sharedCount_eq_ncard, shared, hv.joined_eq kind, hw.joined_eq kind]

/-- The nodes that a difference removes are those of the first snapshot alone. -/
theorem ShowsTexts.mem_removed :
    id ∈ sortedMinus v.nodes w.nodes ↔ IsRemoved a b id := by
  rw [mem_sortedMinus, hv.mem_nodes, hw.mem_nodes, IsRemoved]

/-- The nodes that a difference adds are those of the second snapshot alone. -/
theorem ShowsTexts.mem_added :
    id ∈ sortedMinus w.nodes v.nodes ↔ IsAdded a b id := by
  rw [mem_sortedMinus, hv.mem_nodes, hw.mem_nodes, IsAdded, and_comm]

end

theorem reason_eq_move {ν : Type} (m : Move ν) : m.reason = "move" ↔ m.sameName = true := by
  unfold Move.reason
  split <;> simp_all

theorem source_of_move? {naming : Naming String} {added : List String}
    (h : v.move? naming w added old = some m) : m.source = old := by
  unfold GraphView.move? at h
  dsimp only at h
  split at h
  · cases h
    rfl
  · obtain ⟨new, -, rfl⟩ := Option.map_eq_some_iff.mp h
    rfl

/-- A list without repetitions that holds one thing only is a list of one. -/
theorem eq_singleton_of_mem_iff {xs : List String} (distinct : xs.Nodup)
    (only : ∀ x, x ∈ xs ↔ x = y) : xs = [y] := by
  refine perm_singleton.mp ((perm_ext_iff_of_nodup distinct (nodup_singleton y)).mpr fun x => ?_)
  rw [only x, mem_singleton]

/-- What is suggested for a removed node: a move where some added node scores, or where only one has
the base name. -/
theorem move?_cases (hv : a.ShowsTexts v) (hw : b.ShowsTexts w) (removed : IsRemoved a b old) :
    match v.move? (Naming.ofKind v.kind) w (sortedMinus w.nodes v.nodes) old with
    | some m => IsMove a b m
    | none => (∀ y, IsAdded a b y → shared a b old y = 0) ∧ ¬ ∃! y, IsAdded a b y ∧
        SameBase a y old := by
  have sorted : (sortedMinus w.nodes v.nodes).Pairwise (· < ·) :=
    (sortedMinus_pairwise w.nodes v.nodes).imp compareOfLessAndEq_eq_lt.mp
  have added (y : String) : y ∈ sortedMinus w.nodes v.nodes ↔ IsAdded a b y := hv.mem_added hw
  have best := GraphView.isBest_bestFrom (shared a b old) (sortedMinus w.nodes v.nodes)
  have sameBase (y : String) :
      (((Naming.ofKind v.kind).base y == (Naming.ofKind v.kind).base old) = true ↔
        SameBase a y old) := by
    rw [SameBase, hv.kind]
    exact beq_iff_eq
  unfold GraphView.move?
  rw [funext (hv.score_eq hw v.kind old)]
  cases found : GraphView.bestFrom (shared a b old) none (sortedMinus w.nodes v.nodes) with
  | some choice =>
    obtain ⟨new, score⟩ := choice
    rw [found] at best
    have least := GraphView.isLeast_of_isBest sorted best
    simp only [added] at least
    refine ⟨removed, least.1.1, ⟨⟨new, least.1⟩, ?_⟩, fun _ => least, ?_, ?_⟩
    · rintro n ⟨y, there, rfl⟩
      exact best.le y ((added y).mpr there)
    · rintro rfl
      exact absurd best.2.1 (Nat.lt_irrefl 0)
    · rw [reason_eq_move, sameBase]
  | none =>
    rw [found] at best
    dsimp only
    have nothing (y : String) (there : IsAdded a b y) : shared a b old y = 0 :=
      best y ((added y).mpr there)
    have named (y : String) : y ∈ (sortedMinus w.nodes v.nodes).filter
        (fun new => (Naming.ofKind v.kind).base new == (Naming.ofKind v.kind).base old) ↔
          IsAdded a b y ∧ SameBase a y old := by
      rw [mem_filter, added, sameBase]
    cases alone : sole? ((sortedMinus w.nodes v.nodes).filter
        fun new => (Naming.ofKind v.kind).base new == (Naming.ofKind v.kind).base old) with
    | some new =>
      have only (y : String) : y = new ↔ IsAdded a b y ∧ SameBase a y old := by
        rw [← named, sole?_eq_some.mp alone, mem_singleton]
      obtain ⟨there, same⟩ := (only new).mp rfl
      refine ⟨removed, there, ⟨⟨new, there, nothing new there⟩, ?_⟩, ?_, ?_, ?_⟩
      · rintro n ⟨y, there, rfl⟩
        exact (nothing y there).le
      · intro positive
        exact absurd positive (Nat.lt_irrefl 0)
      · intro _ y there
        rw [only y]
        exact ⟨fun same => ⟨there, same⟩, And.right⟩
      · rw [reason_eq_move]
        exact iff_of_true rfl same
    | none =>
      refine ⟨nothing, ?_⟩
      rintro ⟨y, isOne, only⟩
      have single := eq_singleton_of_mem_iff (sorted.imp ne_of_lt |>.filter _) fun x =>
        ⟨fun mem => only x ((named x).mp mem), fun same => (named x).mpr (same ▸ isOne)⟩
      rw [sole?_eq_some.mpr single] at alone
      cases alone

/-- A move has one of the two reasons: some added node scores, or one alone has the base name. -/
theorem IsMove.reached (h : IsMove a b m) :
    (∃ y, IsAdded a b y ∧ 0 < shared a b m.source y) ∨ ∃! y, IsAdded a b y ∧
      SameBase a y m.source := by
  rcases Nat.eq_zero_or_pos m.score with nothing | positive
  · refine .inr ⟨m.target, ⟨h.added, (h.only nothing _ h.added).mpr rfl⟩, ?_⟩
    rintro y ⟨there, same⟩
    exact (h.only nothing y there).mp same
  · obtain ⟨y, there, own⟩ := h.score.1
    exact .inl ⟨y, there, own ▸ positive⟩

/-- **Suggested moves are the best matches.** Of snapshots of one kind whose names are texts the
difference suggests at most one move for a removed node, in the order of those nodes, and each is
the best match for its node. There is one for every removed node that shares a neighbour with an
added one, and where none does for every removed node whose base name exactly one added node has. -/
theorem moves_best_match (a b : Snapshot) (ha : a.TextNamed) (hb : b.TextNamed)
    (kinds : a.kind = b.kind) :
    ∃ (d : Diff Json) (moves : List (Move String)), a.diff b = .ok d ∧
      d.moves = moves.map (Move.map .str) ∧
      moves.Pairwise (fun m n => m.source < n.source) ∧ (∀ m ∈ moves, IsMove a b m) ∧
      ∀ old, IsRemoved a b old → ((∃ m ∈ moves, m.source = old) ↔
        (∃ y, IsAdded a b y ∧ 0 < shared a b old y) ∨ ∃! y, IsAdded a b y ∧ SameBase a y old) := by
  obtain ⟨v, hv⟩ := ha.showsTexts
  obtain ⟨w, hw⟩ := hb.showsTexts
  have isMove {old : String} {m : Move String} (removed : old ∈ sortedMinus v.nodes w.nodes)
      (found : v.move? (Naming.ofKind v.kind) w (sortedMinus w.nodes v.nodes) old = some m) :
      IsMove a b m := by
    have cases := move?_cases hv hw ((hv.mem_removed hw).mp removed)
    rwa [found] at cases
  refine ⟨_, (v.diff (Naming.ofKind v.kind) w).moves, diff_eq kinds hv hw, rfl, ?_, ?_, ?_⟩
  · refine ((sortedMinus_pairwise v.nodes w.nodes).imp compareOfLessAndEq_eq_lt.mp).filterMap _ ?_
    intro x y before m found n found'
    rwa [source_of_move? found, source_of_move? found']
  · intro m member
    obtain ⟨old, removed, found⟩ := List.mem_filterMap.mp member
    exact isMove removed found
  · intro old removed
    constructor
    · rintro ⟨m, member, rfl⟩
      obtain ⟨old, listed, found⟩ := List.mem_filterMap.mp member
      exact (isMove listed found).reached
    · intro reached
      have listed := (hv.mem_removed hw).mpr removed
      have cases := move?_cases hv hw removed
      cases found : v.move? (Naming.ofKind v.kind) w (sortedMinus w.nodes v.nodes) old with
      | some m => exact ⟨m, List.mem_filterMap.mpr ⟨old, listed, found⟩, source_of_move? found⟩
      | none =>
        rw [found] at cases
        rcases reached with ⟨y, there, positive⟩ | only
        · exact absurd (cases.1 y there) positive.ne'
        · exact absurd only cases.2

/-- The file that was renamed is matched with its new name. -/
theorem moves_best_match_renamed :
    importing.TextNamed ∧ renamed.TextNamed ∧ IsRemoved importing renamed "b.py" ∧
    ∃ (d : Diff Json) (moves : List (Move String)), importing.diff renamed = .ok d ∧
      d.moves = moves.map (Move.map .str) ∧ ∃ m ∈ moves, m.source = "b.py" ∧
        IsMove importing renamed m := by
  have removed : IsRemoved importing renamed "b.py" := by
    simp [IsRemoved, importing, renamed, nodeIds, nodes]
  have added : IsAdded importing renamed "c.py" := by
    simp [IsAdded, importing, renamed, nodeIds, nodes]
  have importer : importing.joined "b.py" ∩ renamed.joined "c.py" = {"a.py"} := by
    ext y
    simp [joined, EdgeView.Joins, importing, renamed, resolvedEdges, edges]
    grind
  have scores : 0 < shared importing renamed "b.py" "c.py" := by
    rw [shared, importer, Set.ncard_singleton]
    exact Nat.one_pos
  obtain ⟨d, moves, found, listed, -, best, reached⟩ :=
    moves_best_match importing renamed importing_textNamed renamed_textNamed rfl
  obtain ⟨m, member, source⟩ := (reached "b.py" removed).mpr (.inl ⟨"c.py", added, scores⟩)
  exact ⟨importing_textNamed, renamed_textNamed, removed, d, moves, found, listed, m, member,
    source, best m member⟩

/-- A graph of a file that refers to the file with the empty name. -/
def pointing (path : String) : Snapshot where
  records := .blueprint [⟨.str path, .str "python", 0, 0⟩, ⟨.str "", .str "python", 0, 0⟩]
    [⟨.str path, .str "", .str "x", .str "import", .int 1, true⟩]
  stats := []
  errors := []
  warnings := []

/-- A neighbour with the empty name is no neighbour: the nodes that share it are not matched. -/
theorem empty_neighbour_not_shared :
    let joins (s : Snapshot) (x : String) :
    Set String := {y | y ≠ x ∧ ∃ e ∈ s.resolvedEdges, e.Joins x y}
    (pointing "a.py").TextNamed ∧ (pointing "b.py").TextNamed ∧
      .str "" ∈ (pointing "a.py").nodeIds ∧
      IsRemoved (pointing "a.py") (pointing "b.py") "a.py" ∧
        IsAdded (pointing "a.py") (pointing "b.py") "b.py" ∧
      (joins (pointing "a.py") "a.py" ∩ joins (pointing "b.py") "b.py").ncard = 1 ∧
      ∃ d, (pointing "a.py").diff (pointing "b.py") = .ok d ∧ d.moves = [] := by
  have named (path : String) : (pointing path).TextNamed := by
    constructor <;> simp [pointing, nodeIds, nodes, resolvedEdges, edges, Json.IsText,
      Json.IsOptionalText]
  refine ⟨named _, named _, ?_, ?_, ?_, ?_, _, rfl, ?_⟩
  · simp [pointing, nodeIds, nodes]
  · simp [IsRemoved, pointing, nodeIds, nodes]
  · simp [IsAdded, pointing, nodeIds, nodes]
  · rw [Set.ncard_eq_one]
    refine ⟨"", ?_⟩
    ext y
    simp [EdgeView.Joins, pointing, resolvedEdges, edges]
    grind
  · cbv

end Snapshot

end CodeAtlas
