import CodeAtlas.Proofs.Flow.Execution

/-!
The books of a graph under construction.

Beside every node made so far the books keep what the node stands for and how runs go on from there.
A run that goes on from a node either follows an edge that is in place, or it is owed: some pending
edge will carry it once its target exists. `Balanced` says that edges and debts together account for
every run and for nothing else. Each primitive of the construction then has one lemma:

* `Balanced.join` settles the debts of the pending edges by a new node, which has debts of its own;
* `Balanced.extend` lets a simple statement join the open block. The runs that arrive at the block
  stay the same, so no other node notices;
* `Balanced.settle` settles debts by edges to a node that is there already, as the end of a loop
  does.

`Grows` says what lasts from one state of the construction to a later one, and `GrowsBy` also which
jumps of the tree got a node.
-/

namespace CodeAtlas.Flow

open List

variable {points : List Point} {n : Nat} {p : Point} {debts : Multiset Debt}

abbrev Runs := List Visit → Prop

/-! ### What nodes stand for -/

structure FunctionText where
  env : LowerEnv
  name : String
  first : Nat
  last : Nat

def nodeAt (env : LowerEnv) (kind : NodeKind) (span : Span) (label : String) : FlowNode :=
  let startLine := env.lines.lineOf span.start
  ⟨kind, startLine, max startLine (Lower.endLine env span), label⟩

def stmtNode (env : LowerEnv) : Stmt → FlowNode
  | .leave kind span => nodeAt env (.exit kind) span (Lower.preview env span)
  | .tryOp span => nodeAt env .branch span (Lower.preview env span)
  | .jump _ _ span => nodeAt env .jump span (Lower.preview env span)
  | .branch span condition _ _ =>
      nodeAt env .branch (Lower.headSpan span)
        (String.ofList (Text.trim ("if " ++ Text.label condition.toList).toList))
  | .loop span head _ _ => nodeAt env .loopHead (Lower.headSpan span) head.header
  | .choice span head _ => nodeAt env .branch (Lower.headSpan span) head.header
  | .guarded span _ _ _ _ => nodeAt env .branch (Lower.headSpan span) "try"
  | s => nodeAt env .block s.span (Lower.preview env s.span)

def visitNode (f : FunctionText) : Visit → FlowNode
  | .enter => nodeAt f.env .entry ⟨f.first, f.first + 1⟩ f.name
  | .stmt s => stmtNode f.env s
  | .early span => nodeAt f.env (.exit .returns) span "? early return"
  | .finish => nodeAt f.env (.exit .returns) ⟨f.last, f.last + 1⟩ "end"

inductive Spot where
  | single (v : Visit)
  /-- Simple statements that are always run one after the other. -/
  | block (first : Span) (more : List Span)

namespace Spot

def visits : Spot → List Visit
  | single v => [v]
  | block first more => (first :: more).map fun span => .stmt (.simple span)

/-- The node. A block starts and is labelled as its first statement, and ends on the last line that
any of its statements ends on. -/
def node (f : FunctionText) : Spot → FlowNode
  | single v => visitNode f v
  | block first more =>
      let made := stmtNode f.env (.simple first)
      { made with
        endLine := more.foldl (fun line span => max line (Lower.endLine f.env span)) made.endLine }

/-- Every node stands for something that is visited. -/
theorem visits_ne_nil (spot : Spot) : spot.visits ≠ [] := by
  cases spot <;> simp [visits]

end Spot

/-- A node in the books: what it stands for and the runs that go on from there. -/
structure Point where
  spot : Spot
  after : Runs

def Point.arrivals (p : Point) : Runs := fun trace =>
  trace <+: p.spot.visits ∨ ∃ rest, trace = p.spot.visits ++ rest ∧ p.after rest

def arrive (points : List Point) (n : Nat) : Runs := fun trace =>
  ∃ p, points[n]? = some p ∧ p.arrivals trace

theorem arrive_of_getElem? (h : points[n]? = some p) : arrive points n = p.arrivals := by
  funext trace
  simp [arrive, h]

/-- A node of one visit is arrived at by that visit and whatever goes on from there. -/
theorem arrivals_single {v : Visit} {after : Runs} (stops : after []) :
    (⟨.single v, after⟩ : Point).arrivals = visiting v after := by
  funext trace
  apply propext
  simp only [Point.arrivals, Spot.visits, visiting]
  constructor
  · rintro (before | ⟨rest, rfl, goesOn⟩)
    · rcases prefix_cons_iff.mp before with rfl | ⟨rest, rfl, nothing⟩
      · exact Or.inl rfl
      · rw [prefix_nil] at nothing
        exact Or.inr ⟨rest, rfl, nothing ▸ stops⟩
    · exact Or.inr ⟨rest, rfl, goesOn⟩
  · rintro (rfl | ⟨rest, rfl, goesOn⟩)
    · exact Or.inl nil_prefix
    · exact Or.inr ⟨rest, rfl, goesOn⟩

/-! ### Debts -/

/-- An edge that has no target yet, with the runs that it is to carry. -/
abbrev Debt := PendingEdge × Runs

def owe (pending : List PendingEdge) (c : Control) : Multiset Debt :=
  (pending.map (·, Executes c) : List Debt)

@[simp] theorem owe_nil (c : Control) : owe [] c = 0 := rfl

@[simp] theorem owe_append (p q : List PendingEdge) (c : Control) :
    owe (p ++ q) c = owe p c + owe q c := by
  simp [owe]

theorem owe_cons (p : PendingEdge) (q : List PendingEdge) (c : Control) :
    owe (p :: q) c = owe [p] c + owe q c :=
  owe_append [p] q c

/-- Edges owe runs, not the control that makes them. -/
theorem owe_congr {c c' : Control} (same : Executes c = Executes c') (pending : List PendingEdge) :
    owe pending c = owe pending c' := by
  simp [owe, same]

/-- The edges of debts are the pending edges that owe them. -/
@[simp] theorem edges_owe (pending : List PendingEdge) (c : Control) :
    (owe pending c).map (·.1) = (pending : Multiset PendingEdge) := by
  rw [owe, Multiset.map_coe, map_map]
  exact congrArg _ (map_id pending)

/-- A bound for the sources of all debts is one for the pending edges among them. -/
theorem source_lt_of_owe {pending : List PendingEdge} {c : Control}
    {bound : Nat} (h : ∀ d ∈ owe pending c + debts, d.1.source < bound) :
    ∀ p ∈ pending, p.source < bound := by
  intro p hp
  apply h (p, Executes c)
  rw [Multiset.mem_add]
  exact Or.inl (mem_map.mpr ⟨p, hp, rfl⟩)

def debtCount (debts : Multiset Debt) (n : Nat) : Nat :=
  debts.countP (·.1.source = n)

@[simp] theorem debtCount_add (a b : Multiset Debt) (n : Nat) :
    debtCount (a + b) n = debtCount a n + debtCount b n :=
  Multiset.countP_add _ _ _

/-- Nothing is owed from a node if no debt starts there. -/
theorem debtCount_eq_zero : debtCount debts n = 0 ↔ ∀ d ∈ debts, d.1.source ≠ n :=
  Multiset.countP_eq_zero

theorem debtCount_owe_one (p : PendingEdge) (c : Control) : debtCount (owe [p] c) p.source = 1 := by
  rw [debtCount, owe, Multiset.coe_countP]
  simp

/-! ### Where the runs from a node go -/

def Follows (edges : List FlowEdge) (points : List Point) (n : Nat) : Runs := fun trace =>
  ∃ e ∈ edges, e.source = n ∧ arrive points e.target trace

def Owed (debts : Multiset Debt) (n : Nat) : Runs := fun trace =>
  ∃ d ∈ debts, d.1.source = n ∧ d.2 trace

section Going

variable {points : List Point} {n : Nat} {trace : List Visit} {pending : List PendingEdge}

theorem follows_append {a b : List FlowEdge} :
    Follows (a ++ b) points n trace ↔ Follows a points n trace ∨ Follows b points n trace := by
  simp only [Follows, mem_append, or_and_right, exists_or]

/-- Edges made from pending ones lead on from their sources, and all to the same node. -/
theorem follows_pending {target : Nat} {kind : PendingEdge → EdgeKind} :
    Follows (pending.map fun p => ⟨p.source, target, kind p, p.condition⟩) points n trace ↔
      (∃ p ∈ pending, p.source = n) ∧ arrive points target trace := by
  constructor
  · rintro ⟨e, he, source, htrace⟩
    obtain ⟨p, hp, rfl⟩ := mem_map.mp he
    exact ⟨⟨p, hp, source⟩, htrace⟩
  · rintro ⟨⟨p, hp, source⟩, htrace⟩
    exact ⟨_, mem_map.mpr ⟨p, hp, rfl⟩, source, htrace⟩

/-- No run follows an edge from a node that no edge leaves. -/
theorem not_follows {edges : List FlowEdge}
    (h : ∀ e ∈ edges, e.source ≠ n) : ¬ Follows edges points n trace := by
  rintro ⟨e, he, source, -⟩
  exact h e he source

theorem owed_add {a b : Multiset Debt} :
    Owed (a + b) n trace ↔ Owed a n trace ∨ Owed b n trace := by
  simp only [Owed, Multiset.mem_add, or_and_right, exists_or]

/-- What some pending edges owe from a node, if one of them starts there. -/
theorem owed_owe {c : Control} :
    Owed (owe pending c) n trace ↔ (∃ p ∈ pending, p.source = n) ∧ Executes c trace := by
  constructor
  · rintro ⟨d, hd, source, htrace⟩
    obtain ⟨p, hp, rfl⟩ := mem_map.mp (Multiset.mem_coe.mp hd)
    exact ⟨⟨p, hp, source⟩, htrace⟩
  · rintro ⟨⟨p, hp, source⟩, htrace⟩
    exact ⟨_, mem_map.mpr ⟨p, hp, rfl⟩, source, htrace⟩

theorem not_owed {debts : Multiset Debt}
    (h : ∀ d ∈ debts, d.1.source ≠ n) : ¬ Owed debts n trace := by
  rintro ⟨d, hd, source, -⟩
  exact h d hd source

end Going

/-! ### The invariant -/

/-- The books of the state `s` balance: `points` describes its nodes, and from every node exactly
those runs go on that follow an edge or are owed. While a block is open nothing has left it, and at
most one debt is on it. -/
structure Balanced (f : FunctionText) (points : List Point) (s : LowerState)
    (debts : Multiset Debt) : Prop where
  nodes_eq : s.nodes = points.map (·.spot.node f)
  edges_lt : ∀ e ∈ s.edges, e.source < points.length ∧ e.target < points.length
  debts_lt : ∀ d ∈ debts, d.1.source < points.length
  after_iff : ∀ n p, points[n]? = some p → ∀ trace,
    p.after trace ↔ trace = [] ∨ Follows s.edges points n trace ∨ Owed debts n trace
  open_block : ∀ b, s.openBlock = some b →
    (∃ first more after, points[b]? = some ⟨.block first more, after⟩) ∧
      (∀ e ∈ s.edges, e.source ≠ b) ∧ debtCount debts b ≤ 1

/-- What lasts while a graph is built: nodes keep their numbers and the runs that arrive at them. -/
def Grows (points points' : List Point) : Prop :=
  points.length ≤ points'.length ∧
    ∀ n < points.length, arrive points' n = arrive points n

namespace Grows

theorem refl (points : List Point) : Grows points points :=
  ⟨Nat.le_refl _, fun _ _ => rfl⟩

theorem trans {a b c : List Point} (ab : Grows a b) (bc : Grows b c) : Grows a c := by
  refine ⟨Nat.le_trans ab.1 bc.1, fun n bound => ?_⟩
  rw [bc.2 n (Nat.lt_of_lt_of_le bound ab.1), ab.2 n bound]

/-- New nodes at the end leave the others as they are. -/
theorem append (points more : List Point) : Grows points (points ++ more) := by
  refine ⟨by simp, fun n bound => ?_⟩
  funext trace
  simp [arrive, getElem?_append_left bound]

/-- Edges between old nodes carry the same runs after the graph has grown. -/
theorem follows_iff {points points' : List Point} (grows : Grows points points')
    {edges : List FlowEdge} (targets : ∀ e ∈ edges, e.target < points.length) {n : Nat}
    {trace : List Visit} : Follows edges points' n trace ↔ Follows edges points n trace := by
  constructor
  · rintro ⟨e, he, source, htrace⟩
    rw [grows.2 _ (targets e he)] at htrace
    exact ⟨e, he, source, htrace⟩
  · rintro ⟨e, he, source, htrace⟩
    rw [← grows.2 _ (targets e he)] at htrace
    exact ⟨e, he, source, htrace⟩

end Grows

/-! ### Jumps in the books -/

/-- A jump in a statement tree, with what control has to do behind it. -/
structure JumpSite where
  kind : JumpKind
  label : Option String
  span : Span
  behind : List Frame

namespace JumpSite

def stmt (site : JumpSite) : Stmt :=
  .jump site.kind site.label site.span

def point (site : JumpSite) : Point :=
  ⟨.single (.stmt site.stmt), Executes (.head site.stmt site.behind)⟩

end JumpSite

mutual

/-- The jumps in a statement before `k`, in the order of the text. A loop that never ends by itself
is not left through its else part, which has no nodes. -/
def jumpsIn (k : List Frame) : Stmt → List JumpSite
  | .simple _ => []
  | .leave _ _ => []
  | .tryOp _ => []
  | .unknown _ _ => []
  | .jump kind label span => [⟨kind, label, span, k⟩]
  | .branch _ _ body orelse => jumpsInAll k body ++ jumpsInAll k orelse
  | .loop span head body orelse =>
      jumpsInAll (.loop span head body orelse :: k) body ++
        if head.infinite then [] else jumpsInAll k orelse
  | .choice _ head arms => jumpsInArms head.fallthrough k arms
  | .guarded _ body handlers orelse none =>
      jumpsInAll (frames orelse ++ k) body ++ jumpsInAll k orelse ++ jumpsInHandlers k handlers
  | .guarded _ body handlers orelse (some final) =>
      jumpsInAll (frames orelse ++ (frames final ++ k)) body ++
        jumpsInAll (frames final ++ k) orelse ++
        jumpsInHandlers (frames final ++ k) handlers ++ jumpsInAll k final
  | .block _ _ body => jumpsInAll k body

def jumpsInAll (k : List Frame) : List Stmt → List JumpSite
  | [] => []
  | stmt :: stmts => jumpsIn (frames stmts ++ k) stmt ++ jumpsInAll k stmts

def jumpsInArms (fallthrough : Bool) (k : List Frame) : List Arm → List JumpSite
  | [] => []
  | .mk _ _ body :: later =>
      jumpsInAll (frames (armTail fallthrough later) ++ .choice :: k) body ++
        jumpsInArms fallthrough k later

def jumpsInHandlers (k : List Frame) : List Arm → List JumpSite
  | [] => []
  | .mk _ _ body :: later => jumpsInAll k body ++ jumpsInHandlers k later

end

def Spot.isJump : Spot → Bool
  | .single (.stmt (.jump _ _ _)) => true
  | _ => false

def jumpPoints (points : List Point) : List Point :=
  points.filter (·.spot.isJump)

/-- What lasts while a graph is built, and the jumps that got a node on the way. -/
structure GrowsBy (made : List JumpSite) (points points' : List Point) : Prop where
  grows : Grows points points'
  jumps : jumpPoints points' = jumpPoints points ++ made.map JumpSite.point

namespace GrowsBy

variable {made made' : List JumpSite}

theorem refl (points : List Point) : GrowsBy [] points points :=
  ⟨.refl points, by simp⟩

theorem trans {a b c : List Point} (ab : GrowsBy made a b) (bc : GrowsBy made' b c) :
    GrowsBy (made ++ made') a c := by
  refine ⟨ab.grows.trans bc.grows, ?_⟩
  rw [bc.jumps, ab.jumps, map_append, append_assoc]

/-- A node that stands for no jump is added. -/
theorem plain (points : List Point) {p : Point} (noJump : p.spot.isJump = false) :
    GrowsBy [] points (points ++ [p]) := by
  refine ⟨.append points [p], ?_⟩
  simp [jumpPoints, noJump]

/-- The node of a jump is added, and the jump with it. -/
theorem jump (points : List Point) (site : JumpSite) :
    GrowsBy [site] points (points ++ [site.point]) := by
  refine ⟨.append points [site.point], ?_⟩
  have isJump : site.point.spot.isJump = true := rfl
  simp [jumpPoints, isJump]

/-- A node is replaced, and neither the old nor the new one stands for a jump. -/
theorem set {points : List Point} {n : Nat} {p q : Point} (grows : Grows points (points.set n q))
    (found : points[n]? = some p) (noJump : p.spot.isJump = false)
    (noJump' : q.spot.isJump = false) :
    GrowsBy [] points (points.set n q) := by
  refine ⟨grows, ?_⟩
  obtain ⟨bound, rfl⟩ := List.getElem?_eq_some_iff.mp found
  rw [map_nil, append_nil, set_eq_take_append_cons_drop, if_pos bound]
  conv_rhs => rw [← take_append_drop n points, drop_eq_getElem_cons bound]
  simp only [jumpPoints, filter_append, filter_cons, noJump, noJump', Bool.false_eq_true, if_false]

end GrowsBy

theorem lt_length_of_getElem? (h : points[n]? = some p) : n < points.length :=
  (List.getElem?_eq_some_iff.mp h).1

/-! ### The primitives of the construction -/

def exitKindOf : NodeKind → Option ExitKind
  | .exit kind => some kind
  | _ => none

def joined (env : LowerEnv) (s : LowerState) (kind : NodeKind) (span : Span) (label : String)
    (pending : List PendingEdge) : LowerState :=
  { s with
    nodes := s.nodes ++ [nodeAt env kind span label]
    edges := s.edges ++ pending.map fun p => ⟨p.source, s.nodes.length, p.kind, p.condition⟩
    links := (s.links.addNode s.nodes.length kind (exitKindOf kind)).addEdges s.edges.length
      (pending.map fun p => ⟨p.source, s.nodes.length, p.kind, p.condition⟩)
    openBlock := if kind == NodeKind.block then some s.nodes.length else none }

/-- The state behind edges from the given ends back to a node that is there. -/
def goBack (s : LowerState) (ends : List PendingEdge) (id : Nat) : LowerState :=
  { s.addEdges
      ((ends.map fun p => { p with kind := .back }).map fun p =>
        ⟨p.source, id, p.kind, p.condition⟩) with
    openBlock := none }

section Books

variable {f : FunctionText} {points : List Point} {s : LowerState} {debts : Multiset Debt}
  {pending : List PendingEdge} {c : Control} {kind : NodeKind} {span : Span} {label : String}
  {p : PendingEdge}

theorem Balanced.nodes_length (h : Balanced f points s debts) : s.nodes.length = points.length := by
  rw [h.nodes_eq, length_map]

/-- Debts are a multiset, so they may be written in another order. -/
theorem Balanced.regroup {debts' : Multiset Debt} (h : Balanced f points s debts)
    (same : debts = debts') : Balanced f points s debts' :=
  same ▸ h

/-- The books do not see what else a state keeps, as long as no block is opened. -/
theorem Balanced.of_state_eq {s' : LowerState} (h : Balanced f points s debts)
    (hnodes : s'.nodes = s.nodes) (hedges : s'.edges = s.edges)
    (hopen : s'.openBlock = none ∨ s'.openBlock = s.openBlock) : Balanced f points s' debts := by
  refine ⟨by rw [hnodes]; exact h.nodes_eq, by rw [hedges]; exact h.edges_lt, h.debts_lt,
    by rw [hedges]; exact h.after_iff, ?_⟩
  intro b hb
  rw [hedges]
  rcases hopen with closed | same
  · rw [closed] at hb
    cases hb
  · exact h.open_block b (same ▸ hb)

section

variable (h : Balanced f points s (owe pending c + debts))
include h

/-- **A new node settles the pending edges.** They owed the runs that arrive at it, and it has the
debts `next` in turn. A block has one debt at most, so that the next statement may join it. -/
theorem Balanced.join (p : Point) (next : List Debt)
    (hnode : p.spot.node f = nodeAt f.env kind span label) (harrive : Executes c = p.arrivals)
    (hsource : ∀ d ∈ next, d.1.source = s.nodes.length)
    (hafter : ∀ trace, p.after trace ↔ trace = [] ∨ ∃ d ∈ next, d.2 trace)
    (hblock : kind = .block → (∃ first more, p.spot = .block first more) ∧ next.length ≤ 1) :
    Balanced f (points ++ [p]) (joined f.env s kind span label pending) (↑next + debts) := by
  have hlen := h.nodes_length
  have hgrows := Grows.append points [p]
  have hnew : (points ++ [p])[points.length]? = some p := by simp
  have hpend : ∀ q ∈ pending, q.source < points.length := source_lt_of_owe h.debts_lt
  have hrest : ∀ d ∈ debts, d.1.source < points.length := fun d hd =>
    h.debts_lt d (Multiset.mem_add.mpr (Or.inr hd))
  have hown : ∀ n trace, Owed ↑next n trace ↔ points.length = n ∧ ∃ d ∈ next, d.2 trace := by
    intro n trace
    constructor
    · rintro ⟨d, hd, rfl, htrace⟩
      exact ⟨hlen.symm.trans (hsource d hd).symm, d, hd, htrace⟩
    · rintro ⟨rfl, d, hd, htrace⟩
      exact ⟨d, hd, (hsource d hd).trans hlen, htrace⟩
  have htargets : ∀ e ∈ s.edges, e.target < points.length := fun e he => (h.edges_lt e he).2
  refine ⟨?_, ?_, ?_, ?_, ?_⟩
  · simp [joined, h.nodes_eq, hnode]
  · intro e he
    rw [length_append, length_singleton]
    rcases mem_append.mp he with he | he
    · have bounds := h.edges_lt e he
      omega
    · obtain ⟨q, hq, rfl⟩ := mem_map.mp he
      have bound := hpend q hq
      simp only [hlen]
      omega
  · intro d hd
    rw [length_append, length_singleton]
    rcases Multiset.mem_add.mp hd with hd | hd
    · rw [hsource d hd, hlen]
      exact Nat.lt_succ_self _
    · exact Nat.lt_succ_of_lt (hrest d hd)
  · intro n q hq trace
    simp only [joined]
    rw [follows_append, follows_pending, hgrows.follows_iff htargets, owed_add, hown, hlen,
      arrive_of_getElem? hnew, ← harrive]
    rcases Nat.lt_trichotomy n points.length with bound | rfl | bound
    · -- An older node: the new edges carry exactly what the pending edges owed.
      rw [getElem?_append_left bound] at hq
      rw [h.after_iff n q hq trace, owed_add, owed_owe]
      have older : points.length ≠ n := Nat.ne_of_gt bound
      simp only [older, false_and, false_or, or_assoc]
    · -- The new node: nothing has left it yet, so all its runs are owed.
      rw [hnew] at hq
      obtain rfl := Option.some.inj hq
      have noEdge : ¬ Follows s.edges points points.length trace :=
        not_follows fun e he => Nat.ne_of_lt (h.edges_lt e he).1
      have noPending : ¬ ∃ r ∈ pending, r.source = points.length := by
        rintro ⟨r, hr, source⟩
        exact Nat.ne_of_lt (hpend r hr) source
      have noDebt : ¬ Owed debts points.length trace :=
        not_owed fun d hd => Nat.ne_of_lt (hrest d hd)
      rw [hafter trace]
      simp only [noEdge, noPending, noDebt, false_and, true_and, or_false, false_or]
    · exact absurd (lt_length_of_getElem? hq) (by simp; omega)
  · intro b hb
    simp only [joined] at hb
    split at hb
    · rename_i isBlock
      obtain rfl := Option.some.inj hb
      obtain ⟨⟨first, more, hspot⟩, short⟩ := hblock (by simpa using isBlock)
      rw [hlen]
      refine ⟨⟨first, more, p.after, by rw [hnew, ← hspot]⟩, ?_, ?_⟩
      · intro e he
        rcases mem_append.mp he with he | he
        · exact Nat.ne_of_lt (h.edges_lt e he).1
        · obtain ⟨r, hr, rfl⟩ := mem_map.mp he
          exact Nat.ne_of_lt (hpend r hr)
      · have older : debtCount debts points.length = 0 :=
          debtCount_eq_zero.mpr fun d hd => Nat.ne_of_lt (hrest d hd)
        have own : debtCount ↑next points.length ≤ next.length := Multiset.countP_le_card _ _
        rw [debtCount_add, older]
        omega
    · simp at hb

/-- A new node for one visit: the pending edges owe what control does from the visit on, and the
debts `next` take over what comes after it. -/
theorem Balanced.visit {after : Control} {v : Visit}
    (next : List Debt)
    (hnode : visitNode f v = nodeAt f.env kind span label) (hkind : kind ≠ .block)
    (hvisit : Executes c = visiting v (Executes after))
    (hsource : ∀ d ∈ next, d.1.source = s.nodes.length)
    (hafter : ∀ trace, Executes after trace ↔ trace = [] ∨ ∃ d ∈ next, d.2 trace) :
    Balanced f (points ++ [⟨.single v, Executes after⟩]) (joined f.env s kind span label pending)
      (↑next + debts) := by
  apply h.join ⟨.single v, Executes after⟩ next hnode _ hsource hafter
  · intro isBlock
    exact absurd isBlock hkind
  · rw [hvisit, arrivals_single (executes_nil after)]

/-- **Edges to a node that is there settle debts**, if they owed the runs that arrive at it. The
open block is closed, since an edge may leave it now. -/
theorem Balanced.settle {target : Nat} (kind : PendingEdge → EdgeKind)
    (bound : target < points.length) (harrive : arrive points target = Executes c) :
    Balanced f points { s with
        edges := s.edges ++ pending.map fun p => ⟨p.source, target, kind p, p.condition⟩
        openBlock := none } debts := by
  refine ⟨h.nodes_eq, ?_, ?_, ?_, ?_⟩
  · intro e he
    rcases mem_append.mp he with he | he
    · exact h.edges_lt e he
    · obtain ⟨q, hq, rfl⟩ := mem_map.mp he
      exact ⟨source_lt_of_owe h.debts_lt q hq, bound⟩
  · exact fun d hd => h.debts_lt d (Multiset.mem_add.mpr (Or.inr hd))
  · intro n p hp trace
    rw [h.after_iff n p hp trace, follows_append, follows_pending, owed_add, owed_owe, harrive]
    simp only [or_assoc]
  · intro b hb
    cases hb

end

/-! ### Joining the open block -/

/-- A block with one more statement is arrived at by the same runs, if from the shorter one exactly
the runs through that statement go on. -/
theorem arrivals_snoc (first : Span) (more : List Span) (span : Span) (after : Runs)
    (stops : after []) :
    (⟨.block first (more ++ [span]), after⟩ : Point).arrivals =
      (⟨.block first more, visiting (.stmt (.simple span)) after⟩ : Point).arrivals := by
  have hvisits : (Spot.block first (more ++ [span])).visits =
      (Spot.block first more).visits ++ [.stmt (.simple span)] := by
    simp [Spot.visits]
  funext trace
  apply propext
  simp only [Point.arrivals, hvisits]
  constructor
  · rintro (before | ⟨rest, rfl, goesOn⟩)
    · rcases prefix_concat_iff.mp before with rfl | before
      · exact Or.inr ⟨[.stmt (.simple span)], rfl, Or.inr ⟨[], rfl, stops⟩⟩
      · exact Or.inl before
    · exact Or.inr ⟨.stmt (.simple span) :: rest, by simp, Or.inr ⟨rest, rfl, goesOn⟩⟩
  · rintro (before | ⟨rest, rfl, rfl | ⟨rest', rfl, goesOn⟩⟩)
    · exact Or.inl (before.trans (prefix_append _ _))
    · exact Or.inl (by simp)
    · exact Or.inr ⟨rest', by simp, goesOn⟩

/-- One more statement in a block can only move the last line of its node. -/
theorem node_snoc (first : Span) (more : List Span) (span : Span) :
    (Spot.block first (more ++ [span])).node f =
      { (Spot.block first more).node f with
        endLine := max ((Spot.block first more).node f).endLine (Lower.endLine f.env span) } := by
  simp [Spot.node]

/-- A simple statement is one visit, and control goes on behind it. -/
theorem executes_simple (span : Span) (k : List Frame) :
    Executes (.run (.stmt (.simple span) :: k)) =
      visiting (.stmt (.simple span)) (Executes (.run k)) := by
  have silent : Executes (.head (.simple span) k) = Executes (.run k) :=
    executes_of_one_silent fun v d => by rw [step_head_iff, ways, mem_singleton]
  rw [executes_stmt rfl, silent]

/-- The runs behind an open block are all owed by the one debt on it. -/
theorem Balanced.open_block_after {q : Point}
    (h : Balanced f points s (owe [p] c + debts)) (hopen : s.openBlock = some p.source)
    (hq : points[p.source]? = some q) :
    q.after = Executes c ∧ ∀ d ∈ debts, d.1.source ≠ p.source := by
  obtain ⟨-, hedges, hcount⟩ := h.open_block p.source hopen
  have hothers : ∀ d ∈ debts, d.1.source ≠ p.source := by
    apply debtCount_eq_zero.mp
    rw [debtCount_add, debtCount_owe_one] at hcount
    omega
  refine ⟨?_, hothers⟩
  funext trace
  apply propext
  have noEdge : ¬ Follows s.edges points p.source trace := not_follows hedges
  have noDebt : ¬ Owed debts p.source trace := not_owed hothers
  have hself : ∃ r ∈ [p], r.source = p.source := ⟨p, mem_singleton_self p, rfl⟩
  have hnil : trace = [] → Executes c trace := fun h => h ▸ executes_nil c
  rw [h.after_iff _ q hq trace, owed_add, owed_owe]
  simp only [noEdge, noDebt, hself, true_and, false_or, or_false]
  exact ⟨fun runs => runs.elim hnil id, Or.inr⟩

/-- **A simple statement joins the open block** when the block alone leads to it. Nothing else is
owed by the block, and no edge leaves it, so only its own entry in the books changes. -/
theorem Balanced.extend {k : List Frame} (hopen : s.openBlock = some p.source)
    (h : Balanced f points s (owe [p] (.run (.stmt (.simple span) :: k)) + debts)) :
    ∃ points', GrowsBy [] points points' ∧ Balanced f points' { s with
          nodes := s.nodes.modify p.source fun n =>
            { n with endLine := max n.endLine (Lower.endLine f.env span) } }
        (owe [p] (.run k) + debts) := by
  obtain ⟨⟨first, more, after, hp⟩, hedges, -⟩ := h.open_block p.source hopen
  obtain ⟨hafter, hothers⟩ := h.open_block_after hopen hp
  rw [executes_simple] at hafter
  let longer : Point := ⟨.block first (more ++ [span]), Executes (.run k)⟩
  have bound := lt_length_of_getElem? hp
  have hself : (points.set p.source longer)[p.source]? = some longer :=
    getElem?_set_self bound
  have hother : ∀ n, p.source ≠ n → (points.set p.source longer)[n]? = points[n]? :=
    fun n different => getElem?_set_ne different
  have harr : ∀ n, arrive (points.set p.source longer) n = arrive points n := by
    intro n
    by_cases same : p.source = n
    · subst same
      rw [arrive_of_getElem? hself, arrive_of_getElem? hp]
      cases hafter
      exact arrivals_snoc first more span _ (executes_nil _)
    · funext trace
      simp only [arrive, hother n same]
  have hgrows : Grows points (points.set p.source longer) := ⟨by simp, fun n _ => harr n⟩
  refine ⟨_, .set hgrows hp rfl rfl, ?_, ?_, ?_, ?_, ?_⟩
  · apply ext_getElem?
    intro n
    rw [getElem?_modify, h.nodes_eq, getElem?_map, getElem?_map]
    by_cases same : p.source = n
    · subst same
      simp [hself, hp, longer, node_snoc]
    · simp [same, hother n same]
  · simpa using h.edges_lt
  · intro d hd
    rw [length_set]
    rcases Multiset.mem_add.mp hd with hd | hd
    · obtain ⟨r, hr, rfl⟩ := mem_map.mp (Multiset.mem_coe.mp hd)
      rw [mem_singleton] at hr
      exact hr ▸ bound
    · exact h.debts_lt d (Multiset.mem_add.mpr (Or.inr hd))
  · intro n q hq trace
    rw [hgrows.follows_iff fun e he => (h.edges_lt e he).2, owed_add, owed_owe]
    by_cases same : p.source = n
    · subst same
      obtain rfl := Option.some.inj (hself.symm.trans hq)
      have noEdge : ¬ Follows s.edges points p.source trace := not_follows hedges
      have noDebt : ¬ Owed debts p.source trace := not_owed hothers
      have own : ∃ r ∈ [p], r.source = p.source := ⟨p, mem_singleton_self p, rfl⟩
      have hnil : trace = [] → Executes (.run k) trace := fun h => h ▸ executes_nil _
      simp only [noEdge, noDebt, own, true_and, false_or, or_false]
      exact ⟨Or.inr, fun runs => runs.elim hnil id⟩
    · rw [hother n same] at hq
      have notOwn : ¬ ∃ r ∈ [p], r.source = n := by simpa using same
      rw [h.after_iff n q hq trace, owed_add, owed_owe]
      simp only [notOwn, false_and]
  · intro b hb
    obtain rfl : p.source = b := Option.some.inj (hopen.symm.trans hb)
    refine ⟨⟨first, more ++ [span], Executes (.run k), hself⟩, hedges, ?_⟩
    have others : debtCount debts p.source = 0 := debtCount_eq_zero.mpr hothers
    rw [debtCount_add, debtCount_owe_one, others]

end Books

end CodeAtlas.Flow
