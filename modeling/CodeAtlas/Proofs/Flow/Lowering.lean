import CodeAtlas.Proofs.Flow.Census

/-!
Lowering builds the census of a statement tree and keeps the books of the graph balanced.

`Ties` matches the loops and choices that lowering knows with those that a run is inside of, and
`jumpTarget?_unwind` says that both send a jump to the same place. A break is owed until its loop or
choice is done, so the breaks recorded on the way are debts too (`breakDebts`).

`Lowers` is what a step of the lowering does: it builds the sites of a census, the pending edges
that it is given owe the runs of the statement, and those that it returns owe the runs of what
follows. There is one lemma for each kind of statement, over its parts, and `lowers_stmts` puts them
together by induction over the tree.
-/

namespace CodeAtlas.Flow

variable {frame : Frame} {points : List Point} {k : List Frame}

/-! ### The loops and choices around a statement -/

/-- The number of loops and choices in a stack. -/
def depth : List Frame → Nat
  | [] => 0
  | .stmt _ :: k => depth k
  | .loop _ _ _ _ :: k => depth k + 1
  | .choice :: k => depth k + 1

/-- What follows the loop or choice that has `d` others around it. -/
def leaving (d : Nat) : List Frame → List Frame
  | [] => []
  | .stmt _ :: k => leaving d k
  | .loop _ _ _ _ :: k => if depth k = d then k else leaving d k
  | .choice :: k => if depth k = d then k else leaving d k

def isScope : Frame → Bool
  | .stmt _ => false
  | _ => true

/-- Leaving by depth: this loop or choice if it has that depth, else one further out. -/
theorem leaving_scope (scope : isScope frame) (d : Nat) (k : List Frame) :
    leaving d (frame :: k) = if depth k = d then k else leaving d k := by
  cases frame with
  | stmt s => cases scope
  | loop span head body orelse | choice => rfl

/-- Statements are no loops or choices to be left. -/
@[simp] theorem leaving_frames (d : Nat) (ss : List Stmt) (k : List Frame) :
    leaving d (frames ss ++ k) = leaving d k := by
  induction ss with
  | nil => rfl
  | cons s ss ih => exact ih

/-- The frames that lowering keeps are the loops and choices of a stack, and the runs that arrive at
the node of a loop are those that reach its frame. -/
inductive Ties (points : List Point) : List JumpFrame → List Frame → Prop
  | nil : Ties points [] []
  | stmt {outer s k} : Ties points outer k → Ties points outer (.stmt s :: k)
  | loop {outer span head body orelse k id} :
      arrive points id = Executes (.run (.loop span head body orelse :: k)) →
      Ties points outer k →
      Ties points (⟨some id, head.label⟩ :: outer) (.loop span head body orelse :: k)
  | choice {outer k} : Ties points outer k → Ties points (⟨none, none⟩ :: outer) (.choice :: k)

theorem lt_length_of_arrive {n : Nat} {c : Control} (h : arrive points n = Executes c) :
    n < points.length := by
  have stops : arrive points n [] := h ▸ executes_nil c
  obtain ⟨p, hp, -⟩ := stops
  exact lt_length_of_getElem? hp

namespace Ties

variable {points points' : List Point} {outer : List JumpFrame} {k : List Frame}

/-- Lowering knows as many loops and choices as a run is inside of. -/
theorem depth_eq (ties : Ties points outer k) : depth k = outer.length := by
  induction ties with
  | nil => rfl
  | stmt _ ih => exact ih
  | loop _ _ ih | choice _ ih => simp [depth, ih]

/-- Statements to come do not matter for the loops and choices around. -/
theorem frames (ties : Ties points outer k) (ss : List Stmt) :
    Ties points outer (Flow.frames ss ++ k) := by
  induction ss with
  | nil => exact ties
  | cons s ss ih => exact .stmt ih

/-- Loops keep their heads while the graph grows. -/
theorem grows (ties : Ties points outer k) (grows : Grows points points') :
    Ties points' outer k := by
  induction ties with
  | nil => exact .nil
  | stmt _ ih => exact .stmt ih
  | loop arrives _ ih =>
    refine .loop ?_ ih
    rw [grows.2 _ (lt_length_of_arrive arrives), arrives]
  | choice _ ih => exact .choice ih

end Ties

/-- A loop is the target without a label or with its own. -/
theorem jumpTarget?_loop (kind : JumpKind) (label own : Option String) (id : Nat)
    (outer : List JumpFrame) :
    Lower.jumpTarget? kind label (⟨some id, own⟩ :: outer) =
      if label.isNone || own == label then some (outer.length, ⟨some id, own⟩)
      else Lower.jumpTarget? kind label outer := by
  cases label <;> simp [Lower.jumpTarget?]

/-- A choice is the target of a break without a label only. -/
theorem jumpTarget?_choice (kind : JumpKind) (label : Option String) (outer : List JumpFrame) :
    Lower.jumpTarget? kind label (⟨none, none⟩ :: outer) =
      if kind == .breaks && label.isNone then some (outer.length, ⟨none, none⟩)
      else Lower.jumpTarget? kind label outer := by
  cases label <;> simp [Lower.jumpTarget?]

/-- Lowering sends a jump to the place where a run goes. A continue goes to the head of a loop
around, at which exactly the runs from there arrive; a break leaves the loop or choice that lowering
names by its depth. -/
inductive SamePlace (points : List Point) (outer : List JumpFrame) (k : List Frame) :
    JumpKind → Option (Nat × JumpFrame) → Option (List Frame) → Prop
  | nowhere {kind} : SamePlace points outer k kind none none
  | head {d id label k'} : id ∈ headsOf outer → arrive points id = Executes (.run k') →
      SamePlace points outer k .continues (some (d, ⟨some id, label⟩)) (some k')
  | exit {d frame k'} : d < outer.length → leaving d k = k' →
      SamePlace points outer k .breaks (some (d, frame)) (some k')

/-- The same place, seen from further inside. -/
theorem SamePlace.outward {outer outer' : List JumpFrame} {k' : List Frame}
    {kind : JumpKind} {target : Option (Nat × JumpFrame)} {goesTo : Option (List Frame)}
    (same : SamePlace points outer k kind target goesTo) (inside : outer <:+ outer')
    (leaves : ∀ d < outer.length, leaving d k' = leaving d k) :
    SamePlace points outer' k' kind target goesTo := by
  cases same with
  | nowhere => exact .nowhere
  | head around arrives => exact .head ((inside.filterMap _).subset around) arrives
  | exit bound left =>
    exact .exit (Nat.lt_of_lt_of_le bound inside.length_le) ((leaves _ bound).trans left)

/-- **Lowering and running agree on jumps**, by induction over the loops and choices from the inside
out. -/
theorem jumpTarget?_unwind {outer : List JumpFrame}
    (ties : Ties points outer k) (kind : JumpKind) (label : Option String) :
    SamePlace points outer k kind (Lower.jumpTarget? kind label outer) (unwind kind label k) := by
  induction ties with
  | nil => exact .nowhere
  | stmt _ ih => exact ih.outward (List.suffix_refl _) fun _ _ => rfl
  | @loop outer span head body orelse k id arrives ties ih =>
    rw [jumpTarget?_loop, unwind.eq_def]
    dsimp only
    split
    · cases kind with
      | breaks => exact .exit (Nat.lt_succ_self _) (if_pos ties.depth_eq)
      | continues => exact .head List.mem_cons_self arrives
    · refine ih.outward (List.suffix_cons _ _) fun d bound => if_neg ?_
      rw [ties.depth_eq]
      omega
  | @choice outer k ties ih =>
    rw [jumpTarget?_choice, unwind.eq_def]
    dsimp only
    split
    · rename_i fits
      obtain rfl : kind = .breaks := by
        rw [Bool.and_eq_true] at fits
        exact eq_of_beq fits.1
      exact .exit (Nat.lt_succ_self _) (if_pos ties.depth_eq)
    · refine ih.outward (List.suffix_cons _ _) fun d bound => if_neg ?_
      rw [ties.depth_eq]
      omega

/-! ### Breaks -/

/-- What the recorded breaks owe: the runs that follow the loop or choice that they leave. -/
def breakDebts (k : List Frame) (breaks : List (Nat × PendingEdge)) : Multiset Debt :=
  (breaks.map fun b => (b.2, Executes (.run (leaving b.1 k))) : List Debt)

@[simp] theorem breakDebts_nil (k : List Frame) : breakDebts k [] = 0 := rfl

@[simp] theorem breakDebts_append (k : List Frame) (a b : List (Nat × PendingEdge)) :
    breakDebts k (a ++ b) = breakDebts k a + breakDebts k b := by
  simp [breakDebts]

/-- A recorded break owes the runs behind the loop or choice that it leaves. -/
theorem breakDebts_cons (k : List Frame) (d : Nat) (p : PendingEdge)
    (rest : List (Nat × PendingEdge)) :
    breakDebts k ((d, p) :: rest) = owe [p] (.run (leaving d k)) + breakDebts k rest :=
  breakDebts_append k [(d, p)] rest

/-- Statements to come do not change where breaks go. -/
@[simp] theorem breakDebts_frames (ss : List Stmt) (k : List Frame)
    (breaks : List (Nat × PendingEdge)) :
    breakDebts (frames ss ++ k) breaks = breakDebts k breaks := by
  simp [breakDebts]

/-- The breaks of a loop or choice become pending edges behind it, and the others stay. -/
theorem breakDebts_scope (scope : isScope frame) (k : List Frame)
    (breaks : List (Nat × PendingEdge)) :
    breakDebts (frame :: k) breaks = owe ((breaks.filter (·.1 == depth k)).map (·.2)) (.run k) +
        breakDebts k (breaks.filter (·.1 != depth k)) := by
  induction breaks with
  | nil => rfl
  | cons b rest ih =>
    obtain ⟨d, p⟩ := b
    rw [breakDebts_cons, ih, leaving_scope scope]
    by_cases own : d = depth k
    · subst own
      simp only [beq_self_eq_true, List.filter_cons_of_pos, bne_self_eq_false, Bool.false_eq_true,
        not_false_eq_true, List.filter_cons_of_neg, List.map_cons, if_true]
      rw [owe_cons p ((rest.filter (·.1 == depth k)).map (·.2))]
      abel
    · rw [if_neg (Ne.symm own), List.filter_cons_of_neg (by simpa using own),
        List.filter_cons_of_pos (by simpa using own), breakDebts_cons]
      abel

def breaksAt (s : LowerState) (depth : Nat) : List PendingEdge :=
  (s.breaks.filter (·.1 == depth)).map (·.2)

/-- The state when a loop or choice is done: its breaks are taken, and no block is open. -/
def leaveScope (s : LowerState) (depth : Nat) : LowerState :=
  { s with openBlock := none, breaks := s.breaks.filter (·.1 != depth) }

/-! ### What lowering does -/

/-- The nodes of a state, as sites and in the books, and the debts that are to be settled. -/
structure Books where
  sites : List Site
  points : List Point
  state : LowerState
  debts : Multiset Debt

def Books.stage (a : Books) : Stage :=
  ⟨a.sites, a.state, a.debts.map (·.1)⟩

/-- Statements before `k` and inside the loops and choices `outer` may be lowered from here. All
that is owed elsewhere is `more`, and every recorded break leaves one of the loops and choices
around. -/
structure Ready (f : FunctionText) (outer : List JumpFrame) (k : List Frame) (more : Multiset Debt)
    (a : Books) : Prop where
  within : a.stage.Within f (headsOf outer)
  ties : Ties a.points outer k
  breaks_lt : ∀ b ∈ a.state.breaks, b.1 < outer.length
  balanced : Balanced f a.points a.state (a.debts + more)

/-- Since `a` the sites of a census were built and the jumps in it got their nodes, and the books
stayed balanced. The breaks `parked` were recorded on the way, and are owed too. -/
structure Parks (f : FunctionText) (heads : List Nat) (depth : Nat) (k : List Frame)
    (more : Multiset Debt) (made : List (Visit × Nat)) (jumps : List JumpSite) (a : Books)
    (s : LowerState) (debts : Multiset Debt) (sites : List Site) (points : List Point)
    (parked : List (Nat × PendingEdge)) : Prop where
  breaks_eq : s.breaks = a.state.breaks ++ parked
  parked_lt : ∀ p ∈ parked, p.1 < depth
  steps_eq : stepsOf sites = stepsOf a.sites ++ made
  builds : Builds f heads a.stage ⟨sites, s, (debts + breakDebts k parked).map (·.1)⟩
  grows : GrowsBy jumps a.points points
  balanced : Balanced f points s (debts + breakDebts k parked + more)

/-- Building went from `a` to the state `s` with the given debts. -/
def Grew (f : FunctionText) (heads : List Nat) (depth : Nat) (k : List Frame) (more : Multiset Debt)
    (made : List (Visit × Nat)) (jumps : List JumpSite) (a : Books) (s : LowerState)
    (debts : Multiset Debt) : Prop :=
  ∃ sites points parked, Parks f heads depth k more made jumps a s debts sites points parked

/-- From books with the debts `before`, the step `x` builds the sites `made`, and what it returns
owes the runs of `k`. All that is owed elsewhere stays as it is. -/
def Lowers (f : FunctionText) (x : Lower (List PendingEdge)) (outer : List JumpFrame)
    (k : List Frame) (before : Multiset Debt) (made : List (Visit × Nat))
    (jumps : List JumpSite) : Prop :=
  ∀ {sites points s more}, Ready f outer k more ⟨sites, points, s, before⟩ →
    Grew f (headsOf outer) outer.length k more made jumps ⟨sites, points, s, before⟩ (x s).2
      (owe (x s).1 (.run k))

section Grew

variable {f : FunctionText} {outer : List JumpFrame} {heads : List Nat} {d n : Nat} {k : List Frame}
  {more : Multiset Debt} {made made' : List (Visit × Nat)}
  {jumps jumps' : List JumpSite} {a : Books} {sites : List Site} {points : List Point}
  {s s' : LowerState} {debts : Multiset Debt} {pending : List PendingEdge} {kind : NodeKind}
  {span : Span} {label : String} {next : List Debt}

theorem Ready.refl (ready : Ready f outer k more a) :
    Grew f (headsOf outer) outer.length k more [] [] a a.state a.debts :=
  ⟨a.sites, a.points, [], by simp, nofun, by simp, by simpa [Books.stage] using Builds.refl a.stage,
    .refl _, by simpa using ready.balanced⟩

section

variable (h : Grew f heads d k more made jumps a s debts)
include h

theorem Grew.regroup {debts' : Multiset Debt} (same : debts = debts') :
    Grew f heads d k more made jumps a s debts' :=
  same ▸ h

/-- What else a state keeps may change, as long as no block is opened. -/
theorem Grew.adjust (nodes : s'.nodes = s.nodes)
    (edges : s'.edges = s.edges) (links : s'.links = s.links) (breaks : s'.breaks = s.breaks)
    (block : s'.openBlock = none ∨ s'.openBlock = s.openBlock) :
    Grew f heads d k more made jumps a s' debts := by
  obtain ⟨sites, points, parked, h⟩ := h
  exact ⟨sites, points, parked, breaks.trans h.breaks_eq, h.parked_lt, h.steps_eq,
    h.builds.adjust s' nodes edges links block, h.grows, h.balanced.of_state_eq nodes edges block⟩

/-- The open block may be closed at any time. -/
theorem Grew.closeBlock :
    Grew f heads d k more made jumps a { s with openBlock := none } debts :=
  h.adjust rfl rfl rfl rfl (Or.inl rfl)

end

/-- A further step takes some of the debts and leaves the others as they are. What control has to do
behind the step may start with statements: they have no breaks of their own. -/
theorem Grew.andThen {k' : List Frame} {before : Multiset Debt} {x : Lower (List PendingEdge)}
    (h : Grew f (headsOf outer) outer.length k more made jumps a s debts)
    (ready : Ready f outer k more a) (next : Lowers f x outer k' before made' jumps')
    (elsewhere : Multiset Debt) (same : debts = before + elsewhere)
    (inside : ∃ ss, k' = frames ss ++ k) :
    Grew f (headsOf outer) outer.length k more (made ++ made') (jumps ++ jumps') a (x s).2
      (owe (x s).1 (.run k') + elsewhere) := by
  subst same
  obtain ⟨ss, rfl⟩ := inside
  obtain ⟨sites, points, parked, h⟩ := h
  have within := h.builds.within ready.within
  have ready' : Ready f outer (frames ss ++ k) (elsewhere + breakDebts k parked + more)
      ⟨sites, points, s, before⟩ := by
    refine ⟨within.fewer rfl rfl (fun p hp => ?_) (Or.inr rfl),
      (ready.ties.grows h.grows.grows).frames ss, ?_, h.balanced.regroup (by abel)⟩
    · rw [Multiset.map_add, Multiset.map_add]
      exact Multiset.mem_add.mpr (Or.inl (Multiset.mem_add.mpr (Or.inl hp)))
    · rw [h.breaks_eq]
      exact List.forall_mem_append.mpr ⟨ready.breaks_lt, h.parked_lt⟩
  obtain ⟨sites', points', parked', h'⟩ := next ready'
  have balanced := h'.balanced
  have builds := h'.builds.frame ((elsewhere + breakDebts k parked).map (·.1))
  rw [breakDebts_frames] at balanced builds
  refine ⟨sites', points', parked ++ parked', ?_,
    List.forall_mem_append.mpr ⟨h.parked_lt, h'.parked_lt⟩, ?_, ?_, h.grows.trans h'.grows,
    balanced.regroup ?_⟩
  · rw [h'.breaks_eq, h.breaks_eq, List.append_assoc]
  · rw [h'.steps_eq, h.steps_eq, List.append_assoc]
  · have start : before.map (·.1) + (elsewhere + breakDebts k parked).map (·.1) =
        (before + elsewhere + breakDebts k parked).map (·.1) := by
      rw [← Multiset.map_add, add_assoc]
    have done : (owe (x s).1 (.run (frames ss ++ k)) + breakDebts k parked').map (·.1) +
          (elsewhere + breakDebts k parked).map (·.1) =
        (owe (x s).1 (.run (frames ss ++ k)) + elsewhere + breakDebts k (parked ++ parked')).map
          (·.1) := by
      rw [← Multiset.map_add, breakDebts_append]
      congr 1
      abel
    change Builds f _ ⟨sites, s, before.map (·.1) + _⟩ ⟨_, _, _ + _⟩ at builds
    rw [start, done] at builds
    exact h.builds.trans builds
  · rw [breakDebts_append]
    abel

/-- A break is recorded: it is owed until control leaves the loop or choice around. -/
theorem Grew.park {k' : List Frame} {p : PendingEdge}
    (h : Grew f heads n k more made jumps a s ↑[((p, Executes (.run k')) : Debt)]) (inside : d < n)
    (left : leaving d k = k') :
    Grew f heads n k more made jumps a { s with breaks := s.breaks ++ [(d, p)] } 0 := by
  obtain ⟨sites, points, parked, h⟩ := h
  have same : ↑[((p, Executes (.run k')) : Debt)] + breakDebts k parked =
      0 + breakDebts k (parked ++ [(d, p)]) := by
    rw [zero_add, breakDebts_append, add_comm, ← left]
    rfl
  refine ⟨sites, points, parked ++ [(d, p)], by simp [h.breaks_eq],
    List.forall_mem_append.mpr ⟨h.parked_lt, by simpa using inside⟩, h.steps_eq, ?_, h.grows, ?_⟩
  · rw [← same]
    exact h.builds.adjust _ rfl rfl rfl (Or.inr rfl)
  · rw [← same]
    exact h.balanced.of_state_eq rfl rfl (Or.inr rfl)

/-- Statements that may be lowered here may be lowered inside a choice here. -/
theorem Ready.enterChoice (ready : Ready f outer k more a) :
    Ready f (⟨none, none⟩ :: outer) (.choice :: k) more a :=
  ⟨ready.within, .choice ready.ties, fun b hb => Nat.lt_succ_of_lt (ready.breaks_lt b hb),
    ready.balanced⟩

/-- When a loop or choice is done, its breaks lead on to what follows it, and the others stay
recorded. -/
theorem Grew.leaveScope (scope : isScope frame)
    (h : Grew f heads (outer.length + 1) (frame :: k) more made jumps a s debts)
    (ready : Ready f outer k more a) :
    Grew f heads outer.length k more made jumps a (leaveScope s outer.length)
      (debts + owe (breaksAt s outer.length) (.run k)) := by
  obtain ⟨sites, points, parked, h⟩ := h
  have old_stay : a.state.breaks.filter (·.1 != outer.length) = a.state.breaks :=
    List.filter_eq_self.mpr fun b hb => by simpa using Nat.ne_of_lt (ready.breaks_lt b hb)
  have old_other : a.state.breaks.filter (·.1 == outer.length) = [] :=
    List.filter_eq_nil_iff.mpr fun b hb => by simpa using Nat.ne_of_lt (ready.breaks_lt b hb)
  have own : breaksAt s outer.length = (parked.filter (·.1 == outer.length)).map (·.2) := by
    rw [breaksAt, h.breaks_eq, List.filter_append, old_other, List.nil_append]
  have same : debts + breakDebts (frame :: k) parked =
      debts + owe (breaksAt s outer.length) (.run k) +
        breakDebts k (parked.filter (·.1 != outer.length)) := by
    rw [breakDebts_scope scope, ready.ties.depth_eq, own, add_assoc]
  refine ⟨sites, points, parked.filter (·.1 != outer.length), ?_, ?_, h.steps_eq, ?_, h.grows, ?_⟩
  · simp only [Flow.leaveScope, h.breaks_eq, List.filter_append, old_stay]
  · intro b hb
    obtain ⟨hb, other⟩ := List.mem_filter.mp hb
    have bound := h.parked_lt b hb
    have differs : b.1 ≠ outer.length := by simpa using other
    omega
  · rw [← same]
    exact h.builds.adjust _ rfl rfl rfl (Or.inl rfl)
  · rw [← same]
    exact h.balanced.of_state_eq rfl rfl (Or.inl rfl)

/-! ### New nodes -/

/-- A new node settles the pending edges and has the debts `next`. -/
theorem Grew.join {c : Control} {spot : Spot} {after : Runs}
    (opens : Opens f s.nodes.length ⟨spot, n⟩ kind span label ↑(next.map (·.1)))
    (noLoop : kind ≠ .loopHead) (stops : Site.continues ⟨spot, n⟩ = true → next = [])
    (balanced : Balanced f (points ++ [⟨spot, after⟩]) (joined f.env s kind span label pending)
      (↑next + more))
    (grows : GrowsBy jumps points (points ++ [⟨spot, after⟩])) :
    Grew f heads d k more (Site.steps ⟨spot, n⟩) jumps ⟨sites, points, s, owe pending c⟩
      (joined f.env s kind span label pending) ↑next := by
  have builds : Builds f heads ⟨sites, s, ↑pending + 0⟩ _ :=
    .join (.refl _) opens noLoop fun continues => by rw [stops continues]; rfl
  refine ⟨sites ++ [⟨spot, n⟩], points ++ [⟨spot, after⟩], [], by simp [joined],
    nofun, by simp, ?_, grows, ?_⟩
  · simpa [Books.stage] using builds
  · simpa using balanced

/-- The debts at the head of a statement are those of its ways on. -/
structure Opened (n : Nat) (k : List Frame) (stmt : Stmt) (next : List Debt) : Prop where
  runs : next.map (·.2) = (ways k stmt).map Executes
  source : ∀ d ∈ next, d.1.source = n ∧ d.1.kind ≠ .back

/-- The runs from a head are those of its debts. -/
theorem Opened.after {stmt : Stmt} (opened : Opened n k stmt next) (trace : List Visit) :
    Executes (.head stmt k) trace ↔ trace = [] ∨ ∃ d ∈ next, d.2 trace := by
  have goesOn : (∃ c ∈ ways k stmt, Executes c trace) ↔ ∃ runs ∈ next.map (·.2), runs trace := by
    rw [opened.runs]
    simp
  rw [executes_head, goesOn]
  simp only [List.mem_map, exists_exists_and_eq_and]

/-- The ways on from a head start at its node. -/
theorem Opened.edge_source {stmt : Stmt} (opened : Opened n k stmt next) :
    ∀ p ∈ next.map (·.1), p.source = n ∧ p.kind ≠ .back :=
  List.forall_mem_map.mpr opened.source

variable {stmt : Stmt}

/-- The node of a head in the books: the pending edges are settled, and its ways on are owed. -/
theorem Ready.head
    (ready : Ready f outer k more ⟨sites, points, s, owe pending (.run (.stmt stmt :: k))⟩)
    (reached : Executes (.run (.stmt stmt :: k)) = visiting (.stmt stmt) (Executes (.head stmt k)))
    (node : stmtNode f.env stmt = nodeAt f.env kind span label) (noBlock : kind ≠ .block)
    (opened : Opened s.nodes.length k stmt next) :
    Balanced f (points ++ [⟨.single (.stmt stmt), Executes (.head stmt k)⟩])
      (joined f.env s kind span label pending) (↑next + more) :=
  ready.balanced.visit next node noBlock reached (fun d hd => (opened.source d hd).1) opened.after

/-- The node of a head and its ways on, as a step of the lowering. -/
theorem Ready.visit (inner : List JumpFrame) (k' : List Frame)
    (ready : Ready f outer k more ⟨sites, points, s, owe pending (.run (.stmt stmt :: k))⟩)
    (visited : isVisited stmt) (node : stmtNode f.env stmt = nodeAt f.env kind span label)
    (plain : kind ≠ .block ∧ kind ≠ .loopHead) (opened : Opened s.nodes.length k stmt next)
    (degree : next.length = n) (stops : isContinue (.stmt stmt) = true → next = [])
    (grows : GrowsBy jumps points (points ++ [⟨.single (.stmt stmt), Executes (.head stmt k)⟩])) :
    Grew f (headsOf inner) inner.length k' more [(.stmt stmt, n)] jumps
      ⟨sites, points, s, owe pending (.run (.stmt stmt :: k))⟩
        (joined f.env s kind span label pending) ↑next := by
  have card : (↑(next.map (·.1)) : Multiset PendingEdge).card = n := by
    rw [Multiset.coe_card, List.length_map, degree]
  have opens : Opens f s.nodes.length ⟨.single (.stmt stmt), n⟩ kind span label ↑(next.map (·.1)) :=
    ⟨node, fun isBlock => absurd isBlock plain.1, card, opened.edge_source⟩
  exact .join opens plain.2 stops (ready.head (executes_stmt visited k) node plain.1 opened) grows

/-- A visit with no way on. -/
theorem lowers_exit {c after : Control} {v : Visit}
    (node : visitNode f v = nodeAt f.env kind span label) (plain : kind ≠ .block ∧ kind ≠ .loopHead)
    (noJump : (Spot.single v).isJump = false) (reached : Executes c = visiting v (Executes after))
    (ends : ∀ trace, Executes after trace ↔ trace = []) :
    Lowers f (fun s => ([], joined f.env s kind span label pending)) outer k (owe pending c)
    [(v, 0)] [] := by
  intro sites points s more ready
  have opens : Opens f s.nodes.length ⟨.single v, 0⟩ kind span label ↑([] : List PendingEdge) :=
    ⟨node, fun isBlock => absurd isBlock plain.1, rfl, nofun⟩
  have balanced := ready.balanced.visit [] node plain.1 reached nofun (by simpa using ends)
  exact .join opens plain.2 (fun _ => rfl) balanced (.plain _ noJump)

end Grew

/-! ### Single statements -/

/-- Lowering a statement does what it should, wherever the statement stands. -/
def LowersStmt (f : FunctionText) (stmt : Stmt) : Prop :=
  ∀ outer k pending, Lowers f (lowerStmt f.env outer stmt pending) outer k
    (owe pending (.run (.stmt stmt :: k))) (census (scopesOf outer) stmt) (jumpsIn k stmt)

def LowersAll (f : FunctionText) (ss : List Stmt) : Prop :=
  ∀ outer k pending, Lowers f (lowerStmts f.env outer ss pending) outer k
    (owe pending (.run (frames ss ++ k))) (censusAll (scopesOf outer) ss) (jumpsInAll k ss)

section Statements

variable {f : FunctionText} {body orelse : List Stmt} {later : List Arm}

/-- A simple statement joins the open block if that alone leads to it, and otherwise gets a block of
its own. -/
theorem simple_run (env : LowerEnv) (span : Span) (pending : List PendingEdge) (s : LowerState) :
    (∃ b, s.openBlock = some b ∧ pending = [⟨b, .fallthrough, none⟩] ∧
      Lower.simple env span pending s = (pending,
          { s with
            nodes := s.nodes.modify b fun n =>
              { n with endLine := max n.endLine (Lower.endLine env span) } })) ∨
    Lower.simple env span pending s = ([⟨s.nodes.length, .fallthrough, none⟩],
        joined env s .block span (Lower.preview env span) pending) := by
  simp only [Lower.simple, bind, StateT.bind, get, getThe, MonadStateOf.get, StateT.get, pure]
  cases hfilter : s.openBlock.filter fun b => pending == [⟨b, .fallthrough, none⟩] with
  | none => exact Or.inr rfl
  | some b =>
    obtain ⟨hopen, alone⟩ := Option.filter_eq_some_iff.mp hfilter
    exact Or.inl ⟨b, hopen, by simpa using alone, rfl⟩

/-- A simple statement joins the open block (`Balanced.extend`) or gets a node. -/
theorem lowers_simple (span : Span) : LowersStmt f (.simple span) := by
  intro outer k pending sites points s more ready
  have same : lowerStmt f.env outer (.simple span) pending = Lower.simple f.env span pending := rfl
  rw [same]
  rcases simple_run f.env span pending s with ⟨b, hopen, rfl, run⟩ | run
  · obtain ⟨init, first, rest, rfl, rfl⟩ := ready.within.sound.open_last b hopen
    obtain ⟨points', grows, balanced⟩ := ready.balanced.extend hopen
    rw [run]
    refine ⟨init ++ [⟨.block first (rest ++ [span]), 1⟩], points', [], by simp, nofun,
      ?_, ?_, grows, ?_⟩
    · simp [Site.steps, Spot.visits, census]
    · simpa [Books.stage] using Builds.extend span (.refl _)
    · simpa using balanced
  · let exit : PendingEdge := ⟨s.nodes.length, .fallthrough, none⟩
    have opens : Opens f s.nodes.length ⟨.block span [], 1⟩ .block span
        (Lower.preview f.env span) ↑[exit] :=
      ⟨rfl, fun _ => ⟨span, rfl⟩, rfl, by simp [exit]⟩
    have arrives : Executes (.run (.stmt (.simple span) :: k)) =
        (⟨.block span [], Executes (.run k)⟩ : Point).arrivals := by
      rw [executes_simple, ← arrivals_single (executes_nil _)]
      rfl
    have balanced := ready.balanced.join ⟨.block span [], Executes (.run k)⟩
      [(exit, Executes (.run k))]
      opens.node_eq arrives (by simp [exit]) (by simp [executes_or_nil])
      (fun _ => ⟨⟨span, [], rfl⟩, Nat.le_refl _⟩)
    rw [run]
    exact .join opens (by simp) (by simp [Site.continues]) balanced (.plain _ rfl)

theorem lowers_leave (kind : ExitKind) (span : Span) : LowersStmt f (.leave kind span) :=
  fun _ k _ => lowers_exit rfl (by simp) rfl (executes_stmt rfl k) fun _ => by
    simp [executes_head, ways]

/-- An operator that may return early has two ways on, one of them to a node of its own. -/
theorem lowers_tryOp (span : Span) : LowersStmt f (.tryOp span) := by
  intro outer k pending sites points s more ready
  let text := Lower.preview f.env span
  let goesOn : PendingEdge := ⟨s.nodes.length, .whenTrue, some text⟩
  let leaves : PendingEdge := ⟨s.nodes.length, .whenFalse, some text⟩
  have opened : Opened s.nodes.length k (.tryOp span) [(leaves, Executes (.early span)),
      (goesOn, Executes (.run k))] :=
    ⟨rfl, by simp [leaves, goesOn]⟩
  have operator := ready.visit outer k rfl rfl (by simp) opened rfl nofun (.plain _ rfl)
  have early :
      Lowers f (fun s => ([], joined f.env s (.exit .returns) span "? early return" [leaves]))
        outer k (owe [leaves] (.early span)) [(.early span, 0)] [] :=
    lowers_exit rfl (by simp) rfl (executes_early span) fun _ => executes_over
  have both := operator.andThen ready early (owe [goesOn] (.run k)) rfl ⟨[], rfl⟩
  exact both.regroup (zero_add _)

/-! ### Jumps -/

/-- What lowering does at a jump: a continue gets an edge back, a break is recorded, and a jump
without a target is only a node. -/
theorem jump_run (env : LowerEnv) (outer : List JumpFrame) (kind : JumpKind) (label : Option String)
    (span : Span) (pending : List PendingEdge) (s : LowerState) :
    let made := joined env s .jump span (Lower.preview env span) pending
    lowerStmt env outer (.jump kind label span) pending s =
      ([], match Lower.jumpTarget? kind label outer with
        | none =>
          { made with warnings := made.warnings ++ [(span.start, .jumpOutsideLoop kind.text)] }
        | some (d, frame) =>
          match kind, frame.head with
          | .continues, some head =>
            made.addEdges [⟨s.nodes.length, head, .jump, none⟩]
          | _, _ =>
            { made with breaks := made.breaks ++ [(d, ⟨s.nodes.length, .jump, none⟩)] }) := by
  change Lower.jump env outer kind label span pending s = _
  simp only [Lower.jump]
  cases htarget : Lower.jumpTarget? kind label outer with
  | none => rfl
  | some target =>
    obtain ⟨d, ⟨head, own⟩⟩ := target
    cases kind with
    | breaks => rfl
    | continues =>
      cases head with
      | none | some head => rfl

/-- A jump goes where `jumpTarget?_unwind` says that runs go. -/
theorem lowers_jump (kind : JumpKind) (label : Option String) (span : Span) :
    LowersStmt f (.jump kind label span) := by
  intro outer k pending sites points s more ready
  let exit : PendingEdge := ⟨s.nodes.length, .jump, none⟩
  let site : Site := ⟨.single (.stmt (.jump kind label span)), 1⟩
  have grows := GrowsBy.jump points ⟨kind, label, span, k⟩
  have run := jump_run f.env outer kind label span pending s
  have same := jumpTarget?_unwind ready.ties kind label
  rw [run, census, hasTarget_scopesOf]
  generalize Lower.jumpTarget? kind label outer = target at same
  generalize goes : unwind kind label k = goesTo at same
  cases same with
  | nowhere =>
    have opened : Opened s.nodes.length k (.jump kind label span) [] :=
      ⟨by simp [ways, goes], by simp⟩
    have made := ready.visit outer k rfl rfl (by simp) opened rfl (fun _ => rfl) grows
    exact made.adjust rfl rfl rfl rfl (Or.inr rfl)
  | @head d id own k' around arrives =>
    have opened : Opened s.nodes.length k (.jump .continues label span)
        [(exit, Executes (.run k'))] :=
      ⟨by simp [ways, goes], by simp [exit]⟩
    have made : Balanced f _ _ (owe [exit] (.run k') + more) :=
      ready.head (executes_stmt rfl k) rfl (by simp) opened
    have arrives' := (grows.grows.2 id (lt_length_of_arrive arrives)).trans arrives
    have settled := made.settle (·.kind) (lt_length_of_arrive arrives') arrives'
    have builds : Builds f (headsOf outer) ⟨sites, s, ↑pending + 0⟩ ⟨sites ++ [site], _, 0⟩ :=
      .again (.refl _) around rfl rfl
    refine ⟨sites ++ [site], _, [], by simp [joined, LowerState.addEdges], by simp, by simp [site,
      Site.steps, Spot.visits], ?_, grows, ?_⟩
    · simpa [Books.stage] using builds
    · refine Balanced.regroup (settled.of_state_eq rfl rfl (Or.inr rfl)) ?_
      simp
  | @exit d frame k' inside left =>
    have opened : Opened s.nodes.length k (.jump .breaks label span) [(exit, Executes (.run k'))] :=
      ⟨by simp [ways, goes], by simp [exit]⟩
    have made := ready.visit outer k rfl rfl (by simp) opened rfl (fun h => by cases h) grows
    exact made.park inside left

/-! ### Statements with parts -/

/-- A statement of unknown kind is left out, with a warning. -/
theorem lowers_unknown (kind : String) (span : Span) : LowersStmt f (.unknown kind span) := by
  intro outer k pending sites points s more ready
  have same := owe_congr (executes_unknown kind span k) pending
  exact (ready.refl.regroup same).adjust rfl rfl rfl rfl (Or.inr rfl)

theorem lowers_block (span : Span) (header : String) (hbody : LowersAll f body) :
    LowersStmt f (.block span header body) := by
  intro outer k pending
  rw [owe_congr (executes_block span header body k)]
  exact hbody outer k pending

/-- The two sides of a branch are lowered one after the other, each from one way on of the head. -/
theorem lowers_branch (span : Span) (condition : String) (hbody : LowersAll f body)
    (horelse : LowersAll f orelse) :
    LowersStmt f (.branch span condition body orelse) := by
  intro outer k pending sites points s more ready
  let cond := Text.label condition.toList
  let ifTrue : PendingEdge := ⟨s.nodes.length, .whenTrue, some cond⟩
  let ifFalse : PendingEdge := ⟨s.nodes.length, .whenFalse, some cond⟩
  let atHead := joined f.env s .branch (Lower.headSpan span)
    (String.ofList (Text.trim ("if " ++ cond).toList)) pending
  let taken := lowerStmts f.env outer body [ifTrue] atHead
  let other := lowerStmts f.env outer orelse [ifFalse] taken.2
  have run : lowerStmt f.env outer (.branch span condition body orelse) pending s =
      (taken.1 ++ other.1, other.2) := rfl
  have opened : Opened s.nodes.length k (.branch span condition body orelse)
      [(ifTrue, Executes (.run (frames body ++ k))),
        (ifFalse, Executes (.run (frames orelse ++ k)))] :=
    ⟨rfl, by simp [ifTrue, ifFalse]⟩
  have made := ready.visit outer k rfl rfl (by simp) opened rfl nofun (.plain _ rfl)
  have ifBody := made.andThen ready (hbody outer k [ifTrue])
    (owe [ifFalse] (.run (frames orelse ++ k))) rfl ⟨[], rfl⟩
  have ifElse := ifBody.andThen ready (horelse outer k [ifFalse]) _ (add_comm _ _) ⟨[], rfl⟩
  rw [run, owe_append]
  exact ifElse.regroup (add_comm _ _)

/-! ### Loops -/

def loopEntry (id : Nat) (head : LoopHead) : PendingEdge :=
  ⟨id, if head.infinite || head.postTest then .fallthrough else .whenTrue,
    if head.infinite then none else some head.header⟩

/-- What lowering does at a loop: a node for the head, the body inside the loop, edges back, and the
else part unless the loop never ends by itself. -/
theorem loop_run (env : LowerEnv) (outer : List JumpFrame) (span : Span) (head : LoopHead)
    (body orelse : List Stmt) (pending : List PendingEdge) (s : LowerState) :
    let id := s.nodes.length
    let atHead := joined env s .loopHead (Lower.headSpan span) head.header pending
    let ends := lowerStmts env (⟨some id, head.label⟩ :: outer) body [loopEntry id head] atHead
    let closed := leaveScope (goBack ends.2 ends.1 id) outer.length
    let normal := lowerStmts env outer orelse [⟨id, .loopExit, some head.header⟩] closed
    lowerStmt env outer (.loop span head body orelse) pending s =
      if head.infinite then (breaksAt ends.2 outer.length, closed)
      else (normal.1 ++ breaksAt ends.2 outer.length, normal.2) := by
  obtain ⟨header, label, infinite, postTest⟩ := head
  cases infinite with
  | true | false => rfl

/-- What is owed behind a loop that ends by itself. -/
def loopExits (id : Nat) (head : LoopHead) (orelse : List Stmt) (k : List Frame) : List Debt :=
  if head.infinite then []
    else [(⟨id, .loopExit, some head.header⟩, Executes (.run (frames orelse ++ k)))]

/-- The head of a loop owes the runs of its body and of what follows. -/
theorem opened_loop (id : Nat) (span : Span) (head : LoopHead) (body orelse : List Stmt)
    (k : List Frame) :
    Opened id k (.loop span head body orelse)
      ((loopEntry id head, Executes (.run (frames body ++ .loop span head body orelse :: k)))
        :: loopExits id head orelse k) := by
  refine ⟨?_, List.forall_mem_cons.mpr ⟨⟨rfl, ?_⟩, ?_⟩⟩
  · rw [loopExits, ways]
    split <;> rfl
  · simp only [loopEntry]
    split <;> simp
  · rw [loopExits]
    split <;> simp

/-- The body of a loop settles its debts by edges back to the head. Its breaks lead on behind the
loop. -/
theorem lowers_loop (span : Span) (head : LoopHead) (hbody : LowersAll f body)
    (horelse : LowersAll f orelse) :
    LowersStmt f (.loop span head body orelse) := by
  intro outer k pending sites points s more ready
  let id := s.nodes.length
  let enter := loopEntry id head
  let exit : PendingEdge := ⟨id, .loopExit, some head.header⟩
  let exits := loopExits id head orelse k
  let stmt : Stmt := .loop span head body orelse
  let frame : Frame := .loop span head body orelse
  let inner : List JumpFrame := ⟨some id, head.label⟩ :: outer
  let atHead := joined f.env s .loopHead (Lower.headSpan span) head.header pending
  let ends := lowerStmts f.env inner body [enter] atHead
  let closed := leaveScope (goBack ends.2 ends.1 id) outer.length
  let normal := lowerStmts f.env outer orelse [exit] closed
  let site : Site := ⟨.single (.stmt stmt), if head.infinite then 1 else 2⟩
  let p : Point := ⟨.single (.stmt stmt), Executes (.head stmt k)⟩
  have run : lowerStmt f.env outer stmt pending s =
      if head.infinite then (breaksAt ends.2 outer.length, closed)
      else (normal.1 ++ breaksAt ends.2 outer.length, normal.2) := loop_run ..
  have opened := opened_loop id span head body orelse k
  have opens : Opens f id site .loopHead (Lower.headSpan span) head.header
      (enter ::ₘ ↑(exits.map (·.1))) := by
    refine ⟨rfl, nofun, ?_, opened.edge_source⟩
    simp only [exits, loopExits, site]
    split <;> rfl
  have made := ready.head ((executes_reachLoop ..).trans (executes_loop ..)) rfl (by simp) opened
  have arrives : arrive (points ++ [p]) id = Executes (.run (frame :: k)) := by
    have hp : (points ++ [p])[id]? = some p := by simp [id, ready.balanced.nodes_length]
    rw [arrive_of_getElem? hp, arrivals_single (executes_nil _), executes_loop]
  -- The body is lowered from the edge into it alone.
  have start : Builds f (headsOf outer)
      (Books.stage ⟨sites, points, s, owe pending (.run (.stmt stmt :: k))⟩)
      ⟨sites, s, ↑pending + 0⟩ := by
    simpa [Books.stage] using Builds.refl _
  have readyBody : Ready f inner (frame :: k) (↑exits + more)
      ⟨sites ++ [site], points ++ [p], atHead, owe [enter] (.run (frames body ++ frame :: k))⟩ :=
    ⟨(start.within ready.within).enterLoop opens rfl,
      .loop arrives (ready.ties.grows (.append _ _)), fun b hb =>
        Nat.lt_succ_of_lt (ready.breaks_lt b hb), made.regroup (by rw [← add_assoc]; rfl)⟩
  obtain ⟨sites₁, points₁, parked, inside⟩ := hbody inner (frame :: k) [enter] readyBody
  have back : Grew f (headsOf outer) (outer.length + 1) (frame :: k) more
      (site.steps ++ censusAll (scopesOf inner) body) (jumpsInAll (frame :: k) body)
      ⟨sites, points, s, owe pending (.run (.stmt stmt :: k))⟩
        (goBack ends.2 ends.1 id) ↑exits := by
    have arrives₁ := (inside.grows.grows.2 id (lt_length_of_arrive arrives)).trans arrives
    refine ⟨sites₁, points₁, parked, inside.breaks_eq, inside.parked_lt, ?_, ?_,
      (GrowsBy.plain points rfl).trans inside.grows, ?_⟩
    · rw [inside.steps_eq, stepsOf_append, stepsOf_singleton, List.append_assoc]
    · have builds := inside.builds
      rw [Multiset.map_add, edges_owe] at builds
      have built := start.loop opens rfl (builds.back List.mem_cons_self)
      rw [add_zero, add_comm] at built
      rw [Multiset.map_add]
      exact built
    · have settled := (inside.balanced.regroup (add_assoc _ _ _)).settle (fun _ => .back)
        (lt_length_of_arrive arrives₁) arrives₁
      refine Balanced.regroup (settled.of_state_eq rfl ?_ (Or.inl rfl)) (by abel)
      rw [goBack, List.map_map]
      rfl
  have left := back.leaveScope rfl ready
  have listed : census (scopesOf outer) stmt = site.steps ++ censusAll (scopesOf inner) body ++
      if head.infinite then [] else censusAll (scopesOf outer) orelse := rfl
  rw [run, listed, jumpsIn]
  by_cases infinite : head.infinite
  · rw [if_pos infinite, if_pos infinite, if_pos infinite, List.append_nil, List.append_nil]
    refine left.regroup ?_
    simp only [exits, loopExits, if_pos infinite]
    exact zero_add _
  · have goesOn : (exits : Multiset Debt) = owe [exit] (.run (frames orelse ++ k)) := by
      simp only [exits, loopExits, if_neg infinite]
      rfl
    rw [goesOn] at left
    have done := left.andThen ready (horelse outer k [exit]) _ rfl ⟨[], rfl⟩
    rw [if_neg infinite, if_neg infinite, if_neg infinite, owe_append]
    exact done

/-! ### Choices -/

/-- What the head of a choice owes to its arms. -/
def armDebts (id : Nat) (fallthrough : Bool) (k : List Frame) : List Arm → List Debt
  | [] => []
  | arm :: later =>
      (⟨id, .case, some arm.label⟩,
        Executes (.run (frames arm.body ++ (frames (armTail fallthrough later) ++ .choice :: k))))
        :: armDebts id fallthrough k later

/-- Lowering some arms does what it should: control comes to them from the node of the choice and,
with fallthrough, from what was carried over from the arm before. -/
def LowersArms (f : FunctionText) (arms : List Arm) : Prop :=
  ∀ outer k id fallthrough carry,
    Lowers f (lowerArms f.env outer id fallthrough arms carry) outer (.choice :: k)
      (owe carry (.run (frames (armTail fallthrough arms) ++ .choice :: k)) +
        ↑(armDebts id fallthrough k arms))
      (censusArms (scopesOf outer) arms) (jumpsInArms fallthrough k arms)

/-- Behind the last arm control leaves the choice. -/
theorem lowers_arms_nil : LowersArms f [] := by
  intro outer k id fallthrough carry sites points s more ready
  have nothing : armTail fallthrough [] = [] := by
    cases fallthrough <;> rfl
  refine ready.refl.regroup ?_
  rw [nothing]
  exact add_zero _

/-- One arm, with control from the head and from the arm before, and the arms behind it. -/
theorem lowers_arms_cons (label : String) (start : Nat) (hbody : LowersAll f body)
    (hlater : LowersArms f later) :
    LowersArms f (.mk label start body :: later) := by
  intro outer k id fallthrough carry sites points s more ready
  let enter : PendingEdge := ⟨id, .case, some label⟩
  let onward := frames (armTail fallthrough later) ++ .choice :: k
  have edges : (↑(armDebts id fallthrough k (.mk label start body :: later)) : Multiset Debt) =
      owe [enter] (.run (frames body ++ onward)) + ↑(armDebts id fallthrough k later) := rfl
  cases fallthrough with
  | true =>
    -- With fallthrough the body is entered from the choice and from the end of the arm before.
    let carried := lowerStmts f.env outer body (enter :: carry) s
    have tail : frames (armTail true (.mk label start body :: later)) ++ .choice :: k =
        frames body ++ onward := by
      simp [armTail, frames, Arm.body, onward]
    have same : owe carry (.run (frames body ++ onward)) +
        ↑(armDebts id true k (.mk label start body :: later)) =
        owe (enter :: carry) (.run (frames body ++ onward)) + ↑(armDebts id true k later) := by
      rw [edges, owe_cons enter carry]
      abel
    rw [tail] at ready ⊢
    have first := ready.refl.andThen ready (hbody outer onward (enter :: carry)) _ same ⟨_, rfl⟩
    have rest := first.andThen ready (hlater outer k id true carried.1) 0
      (add_zero _).symm ⟨[], rfl⟩
    exact rest.regroup (add_zero _)
  | false =>
    let out := lowerStmts f.env outer body [enter] s
    let rest := lowerArms f.env outer id false later carry out.2
    have run : lowerArms f.env outer id false (.mk label start body :: later) carry s =
        (out.1 ++ rest.1, rest.2) := rfl
    have first := ready.refl.andThen ready (hbody outer onward [enter]) _
      ((congrArg _ edges).trans (add_left_comm _ _ _)) ⟨[], rfl⟩
    have others := first.andThen ready (hlater outer k id false carry) _ (add_comm _ _) ⟨[], rfl⟩
    rw [run, owe_append]
    exact others.regroup (add_comm _ _)

/-- What the head of a choice owes past its arms. -/
def skipEdges (id : Nat) (head : ChoiceHead) (arms : List Arm) : List PendingEdge :=
  if Lower.hasDefault arms || head.exhaustive then [] else [⟨id, .whenFalse, some "no match"⟩]

/-- The head of a choice owes the runs of its arms, and those past them unless an arm is always
taken. -/
theorem opened_choice (id : Nat) (span : Span) (head : ChoiceHead) (arms : List Arm)
    (k : List Frame) :
    Opened id k (.choice span head arms)
      (armDebts id head.fallthrough k arms ++ (skipEdges id head arms).map (·,
        Executes (.run k))) := by
  have entries : (armDebts id head.fallthrough k arms).map (·.2) =
      (armWays head.fallthrough k arms).map Executes ∧
      ∀ d ∈ armDebts id head.fallthrough k arms, d.1.source = id ∧ d.1.kind ≠ .back := by
    induction arms with
    | nil => exact ⟨rfl, nofun⟩
    | cons arm later ih => simpa [armDebts, armWays] using ih
  refine ⟨?_, List.forall_mem_append.mpr ⟨entries.2, ?_⟩⟩
  · rw [List.map_append, entries.1, ways, List.map_append, skipEdges]
    split <;> rfl
  · rw [skipEdges]
    split <;> simp

/-- It has as many ways on as the census says. -/
theorem choice_degree (id : Nat) (head : ChoiceHead) (arms : List Arm) (k : List Frame) :
    (armDebts id head.fallthrough k arms ++ (skipEdges id head arms).map (·,
      Executes (.run k))).length =
      choiceDegree head arms := by
  have entries : (armDebts id head.fallthrough k arms).length = arms.length := by
    induction arms with
    | nil => rfl
    | cons arm later ih => simp [armDebts, ih]
  have default : Lower.hasDefault arms = arms.any fun arm =>
      ["default", "_"].contains arm.label := by
    simp only [Lower.hasDefault, List.contains_cons, List.contains_nil, Bool.or_false]
  rw [List.length_append, entries, skipEdges, choiceDegree, default, Bool.or_comm head.exhaustive]
  split <;> rfl

/-- The arms of a choice are lowered inside of it, and their breaks lead on behind it. -/
theorem lowers_choice (span : Span) (head : ChoiceHead) {arms : List Arm}
    (harms : LowersArms f arms) :
    LowersStmt f (.choice span head arms) := by
  intro outer k pending sites points s more ready
  let id := s.nodes.length
  let inner : List JumpFrame := ⟨none, none⟩ :: outer
  let atHead := joined f.env s .branch (Lower.headSpan span) head.header pending
  let out := lowerArms f.env inner id head.fallthrough arms [] atHead
  let skipped := skipEdges id head arms
  have run : lowerStmt f.env outer (.choice span head arms) pending s =
      (out.1 ++ skipped ++ breaksAt out.2 outer.length, leaveScope out.2 outer.length) := rfl
  have made := ready.visit inner (.choice :: k) rfl rfl (by simp)
    (opened_choice id span head arms k) (choice_degree id head arms k)
    nofun (.plain _ rfl)
  have arm := made.andThen ready.enterChoice (harms inner k id head.fallthrough []) _
    ((Multiset.coe_add _ _).symm.trans (congrArg (· + _) (zero_add _).symm)) ⟨[], rfl⟩
  have left := arm.leaveScope rfl ready
  rw [run, owe_append, owe_append]
  refine left.regroup ?_
  rw [owe_congr (executes_choice k)]
  rfl

/-! ### Guarded statements -/

def handlerDebts (id : Nat) (k : List Frame) (handlers : List Arm) : List Debt :=
  handlers.map fun handler =>
    (⟨id, .exception, some handler.label⟩, Executes (.run (frames handler.body ++ k)))

def LowersHandlers (f : FunctionText) (handlers : List Arm) : Prop :=
  ∀ outer k id, Lowers f (lowerHandlers f.env outer id handlers) outer k
    ↑(handlerDebts id k handlers)
    (censusArms (scopesOf outer) handlers) (jumpsInHandlers k handlers)

theorem lowers_handlers_nil : LowersHandlers f [] :=
  fun _ _ _ _ _ _ _ ready => ready.refl

/-- Handlers are lowered one after the other, each from its own way on. -/
theorem lowers_handlers_cons (label : String) (start : Nat)
    (hbody : LowersAll f body) (hlater : LowersHandlers f later) :
    LowersHandlers f (.mk label start body :: later) := by
  intro outer k id sites points s more ready
  let raised : PendingEdge := ⟨id, .exception, some label⟩
  let out := lowerStmts f.env outer body [raised] s
  let rest := lowerHandlers f.env outer id later out.2
  have run : lowerHandlers f.env outer id (.mk label start body :: later) s =
      (out.1 ++ rest.1, rest.2) := rfl
  have first := ready.refl.andThen ready (hbody outer k [raised])
    ↑(handlerDebts id k later) rfl ⟨[], rfl⟩
  have others := first.andThen ready (hlater outer k id) _ (add_comm _ _) ⟨[], rfl⟩
  rw [run, owe_append]
  exact others.regroup (add_comm _ _)

/-- What an exception owes past the handlers, if anything runs at last. -/
def finalDebts (id : Nat) (k : List Frame) (final : Option (List Stmt)) : List Debt :=
  final.toList.map fun stmts =>
    (⟨id, .exception, some "finally"⟩, Executes (.run (frames stmts ++ k)))

def guardedDebts (id : Nat) (k : List Frame) (body : List Stmt) (handlers : List Arm)
    (orelse : List Stmt) (final : Option (List Stmt)) : List Debt :=
  (⟨id, .fallthrough, none⟩,
    Executes (.run (frames body ++ (frames orelse ++ (frames (final.getD []) ++ k)))))
    :: (handlerDebts id (frames (final.getD []) ++ k) handlers ++ finalDebts id k final)

/-- The head of a guarded statement owes the runs of its body, of each handler and of what runs at
last. -/
theorem opened_guarded (id : Nat) (span : Span) (body : List Stmt) (handlers : List Arm)
    (orelse : List Stmt) (final : Option (List Stmt)) (k : List Frame) :
    Opened id k (.guarded span body handlers orelse final)
      (guardedDebts id k body handlers orelse final) := by
  refine ⟨?_, ?_⟩
  · simp only [ways, guardedDebts, handlerDebts, finalDebts, List.map_cons, List.map_append,
      List.map_map, List.cons_append]
    rfl
  intro d hd
  simp only [guardedDebts, handlerDebts, finalDebts, List.mem_cons, List.mem_append, List.mem_map]
    at hd
  rcases hd with rfl | ⟨handler, -, rfl⟩ | ⟨stmts, -, rfl⟩ <;> simp

/-- The parts of a guarded statement, each of them before what runs at last. -/
theorem lowers_guarded (span : Span) {handlers : List Arm}
    {final : Option (List Stmt)} (hbody : LowersAll f body) (hhandlers : LowersHandlers f handlers)
    (horelse : LowersAll f orelse) (hfinal : ∀ stmts ∈ final, LowersAll f stmts) :
    LowersStmt f (.guarded span body handlers orelse final) := by
  intro outer k pending sites points s more ready
  let id := s.nodes.length
  let enter : PendingEdge := ⟨id, .fallthrough, none⟩
  -- What the body and every handler lead on to.
  let onward := frames (final.getD []) ++ k
  let atHead := joined f.env s .branch (Lower.headSpan span) "try" pending
  let tried := lowerStmts f.env outer body [enter] atHead
  let passed := lowerStmts f.env outer orelse tried.1 tried.2
  let handled := lowerHandlers f.env outer id handlers passed.2
  let caught : Multiset Debt := ↑(handlerDebts id onward handlers)
  let unhandled : Multiset Debt := ↑(finalDebts id k final)
  have degree : (guardedDebts id k body handlers orelse final).length =
      1 + handlers.length + (finalDebts id k final).length := by
    simp only [guardedDebts, handlerDebts, List.length_cons, List.length_append, List.length_map]
    omega
  have made := ready.visit outer k rfl rfl (by simp)
    (opened_guarded id span body handlers orelse final k) degree
    nofun (.plain _ rfl)
  have attempt := made.andThen ready (hbody outer (frames orelse ++ onward) [enter])
    (caught + unhandled)
    rfl ⟨orelse ++ final.getD [], by simp [frames, onward]⟩
  have passes := attempt.andThen ready (horelse outer onward tried.1) _ rfl ⟨_, rfl⟩
  have handles := passes.andThen ready (hhandlers outer onward id) _ (add_left_comm _ _ _) ⟨_, rfl⟩
  have both : owe handled.1 (.run onward) + (owe passed.1 (.run onward) + unhandled) =
      owe (passed.1 ++ handled.1) (.run onward) + unhandled := by
    rw [owe_append]
    abel
  have out := handles.regroup both
  cases final with
  | none =>
    have run : lowerStmt f.env outer (.guarded span body handlers orelse none) pending s =
        (passed.1 ++ handled.1, { handled.2 with openBlock := none }) := rfl
    rw [run]
    exact (out.regroup (add_zero _)).closeBlock
  | some stmts =>
    let raised : PendingEdge := ⟨id, .exception, some "finally"⟩
    let last := lowerStmts f.env outer stmts ((passed.1 ++ handled.1) ++ [raised]) handled.2
    have run : lowerStmt f.env outer (.guarded span body handlers orelse (some stmts)) pending s =
        (last.1, { last.2 with openBlock := none }) := rfl
    have done :=
      out.andThen ready (hfinal stmts rfl outer k ((passed.1 ++ handled.1) ++ [raised])) 0
      ((owe_append _ [raised] _).symm.trans (add_zero _).symm) ⟨[], rfl⟩
    rw [run]
    exact (done.regroup (add_zero _)).closeBlock

/-! ### Any statement -/

theorem lowersAll_nil : LowersAll f [] :=
  fun _ _ _ _ _ _ _ ready => ready.refl

/-- Statements one after the other: what the first leaves pending leads to the others. -/
theorem lowersAll_cons {stmt : Stmt} {rest : List Stmt} (hstmt : LowersStmt f stmt)
    (hrest : LowersAll f rest) :
    LowersAll f (stmt :: rest) := by
  intro outer k pending sites points s more ready
  let first := lowerStmt f.env outer stmt pending s
  have one := ready.refl.andThen ready (hstmt outer (frames rest ++ k) pending) 0
    (add_zero _).symm ⟨rest, rfl⟩
  have others := one.andThen ready (hrest outer k first.1) 0 rfl ⟨[], rfl⟩
  exact others.regroup (add_zero _)

end Statements

-- The recursion is that of the statement tree; each case is one of the lemmas above.
mutual

theorem lowers_stmt (f : FunctionText) : ∀ stmt : Stmt, LowersStmt f stmt
  | .simple span => lowers_simple span
  | .leave kind span => lowers_leave kind span
  | .tryOp span => lowers_tryOp span
  | .jump kind label span => lowers_jump kind label span
  | .unknown kind span => lowers_unknown kind span
  | .branch span condition body orelse =>
    lowers_branch span condition (lowers_stmts f body) (lowers_stmts f orelse)
  | .loop span head body orelse =>
    lowers_loop span head (lowers_stmts f body) (lowers_stmts f orelse)
  | .choice span head arms => lowers_choice span head (lowers_arms f arms)
  | .guarded span body handlers orelse none =>
    lowers_guarded span (lowers_stmts f body) (lowers_handlers f handlers)
      (lowers_stmts f orelse) nofun
  | .guarded span body handlers orelse (some final) =>
    lowers_guarded span (lowers_stmts f body) (lowers_handlers f handlers) (lowers_stmts f orelse)
      fun _ same => Option.some.inj same ▸ lowers_stmts f final
  | .block span header body => lowers_block span header (lowers_stmts f body)

/-- **Lowering builds the census of what it lowers and settles every debt.** Whatever pending edges
owed the runs of some statements before `k`, lowering these statements leaves edges that owe the
runs of `k`. -/
theorem lowers_stmts (f : FunctionText) : ∀ ss : List Stmt, LowersAll f ss
  | [] => lowersAll_nil
  | stmt :: rest => lowersAll_cons (lowers_stmt f stmt) (lowers_stmts f rest)

theorem lowers_arms (f : FunctionText) : ∀ arms : List Arm, LowersArms f arms
  | [] => lowers_arms_nil
  | .mk label start body :: later =>
    lowers_arms_cons label start (lowers_stmts f body) (lowers_arms f later)

theorem lowers_handlers (f : FunctionText) : ∀ handlers : List Arm, LowersHandlers f handlers
  | [] => lowers_handlers_nil
  | .mk label start body :: later =>
    lowers_handlers_cons label start (lowers_stmts f body) (lowers_handlers f later)

end

end CodeAtlas.Flow
