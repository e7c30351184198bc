import Mathlib
import CodeAtlas.Flow.Lower

/-!
What running a statement tree means.

A run is a sequence of small steps over a stack of frames: the statements that are still to come,
and the loops and choices that control is inside of. A visit to a statement is the only thing that
can be seen of a run; which way control goes from there is a silent step. No values are modelled, so
at every head each way out is open.

* `Step` has one rule for each way in which control moves. Jumps go by `unwind`, which looks through
  the stack from the inside out.
* `Executes c trace` says that `trace` is a finite beginning of what control at `c` goes on to
  visit.
* The `executes_…` equations unfold `Executes` at each statement. Proofs about runs use these and
  never take a run apart.
-/

namespace CodeAtlas.Flow

open List

variable {arms : List Arm}

inductive Visit where
  | enter
  | stmt (s : Stmt)
  | early (span : Span)
  | finish

/-- What control still has to do, or is inside of. -/
inductive Frame where
  | stmt (s : Stmt)
  | loop (span : Span) (head : LoopHead) (body orelse : List Stmt)
  /-- Control is in an arm of a choice; whatever reaches this frame goes on. -/
  | choice

def frames (ss : List Stmt) : List Frame :=
  ss.map .stmt

/-- What the end of an arm runs on into before it leaves the choice. -/
def armTail (fallthrough : Bool) (later : List Arm) : List Stmt :=
  if fallthrough then later.flatMap Arm.body else []

/-- Where a jump goes: out of the innermost loop with its label or back to the head of that loop.
Without a label any loop will do, and for a break any choice. -/
def unwind (kind : JumpKind) (label : Option String) : List Frame → Option (List Frame)
  | [] => none
  | .stmt _ :: k => unwind kind label k
  | .loop span head body orelse :: k =>
      if label.isNone || head.label == label then
        match kind with
        | .breaks => some k
        | .continues => some (.loop span head body orelse :: k)
      else unwind kind label k
  | .choice :: k => if kind == .breaks && label.isNone then some k else unwind kind label k

inductive Control where
  | start (body : List Stmt)
  | run (k : List Frame)
  | head (s : Stmt) (k : List Frame)
  | early (span : Span)
  | over

/-- Is control seen at a statement as soon as it gets there? A block has no head of its own, a
statement of unknown kind does nothing, and the head of a loop is visited through its frame. -/
def isVisited : Stmt → Bool
  | .unknown _ _ => false
  | .loop _ _ _ _ => false
  | .block _ _ _ => false
  | _ => true

inductive Step : Control → Option Visit → Control → Prop
  | enter {body} : Step (.start body) (some .enter) (.run (frames body))
  | finish : Step (.run []) (some .finish) .over
  | visit {s k} : isVisited s → Step (.run (.stmt s :: k)) (some (.stmt s)) (.head s k)
  | skip {kind span k} : Step (.run (.stmt (.unknown kind span) :: k)) none (.run k)
  | block {span header body k} :
      Step (.run (.stmt (.block span header body) :: k)) none (.run (frames body ++ k))
  | simple {span k} : Step (.head (.simple span) k) none (.run k)
  | goOn {span k} : Step (.head (.tryOp span) k) none (.run k)
  | giveUp {span k} : Step (.head (.tryOp span) k) none (.early span)
  | early {span} : Step (.early span) (some (.early span)) .over
  | jump {kind label span k k'} : unwind kind label k = some k' →
      Step (.head (.jump kind label span) k) none (.run k')
  | ifBody {span condition body orelse k} :
      Step (.head (.branch span condition body orelse) k) none (.run (frames body ++ k))
  | ifElse {span condition body orelse k} :
      Step (.head (.branch span condition body orelse) k) none (.run (frames orelse ++ k))
  | reachLoop {span head body orelse k} :
      Step (.run (.stmt (.loop span head body orelse) :: k)) none
        (.run (.loop span head body orelse :: k))
  | loopHead {span head body orelse k} :
      Step (.run (.loop span head body orelse :: k)) (some (.stmt (.loop span head body orelse)))
        (.head (.loop span head body orelse) k)
  | iterate {span head body orelse k} :
      Step (.head (.loop span head body orelse) k) none
        (.run (frames body ++ .loop span head body orelse :: k))
  | leaveLoop {span head body orelse k} : head.infinite = false →
      Step (.head (.loop span head body orelse) k) none (.run (frames orelse ++ k))
  | arm {span head earlier arm later k} :
      Step (.head (.choice span head (earlier ++ arm :: later)) k) none
        (.run (frames arm.body ++ (frames (armTail head.fallthrough later) ++ .choice :: k)))
  | noMatch {span head arms k} : (∀ arm ∈ arms, arm.label ≠ "default" ∧ arm.label ≠ "_") →
      head.exhaustive = false → Step (.head (.choice span head arms) k) none (.run k)
  | leaveChoice {k} : Step (.run (.choice :: k)) none (.run k)
  | tryBody {span body handlers orelse final k} :
      Step (.head (.guarded span body handlers orelse final) k) none
        (.run (frames body ++ (frames orelse ++ (frames (final.getD []) ++ k))))
  | handler {span body handlers orelse final k handler} : handler ∈ handlers →
      Step (.head (.guarded span body handlers orelse final) k) none
        (.run (frames handler.body ++ (frames (final.getD []) ++ k)))
  | lastly {span body handlers orelse final k} :
      Step (.head (.guarded span body handlers orelse (some final)) k) none
        (.run (frames final ++ k))

inductive Steps : Control → List Visit → Control → Prop
  | refl (c : Control) : Steps c [] c
  | cons {c c' c'' v trace} : Step c v c' → Steps c' trace c'' → Steps c (v.toList ++ trace) c''

def Executes (c : Control) (trace : List Visit) : Prop :=
  ∃ c', Steps c trace c'

/-! ### Unfolding a run -/

/-- Every run may stop before its first visit. -/
theorem executes_nil (c : Control) : Executes c [] :=
  ⟨c, .refl c⟩

theorem executes_or_nil {c : Control} {trace : List Visit} :
    trace = [] ∨ Executes c trace ↔ Executes c trace :=
  ⟨fun runs => runs.elim (fun none => none ▸ executes_nil c) id, Or.inr⟩

theorem executes_iff {c : Control} {trace : List Visit} : Executes c trace ↔
      trace = [] ∨ ∃ v c' rest, Step c v c' ∧ trace = v.toList ++ rest ∧ Executes c' rest := by
  constructor
  · rintro ⟨final, steps⟩
    cases steps with
    | refl => exact Or.inl rfl
    | cons first rest => exact Or.inr ⟨_, _, _, first, rfl, _, rest⟩
  · rintro (rfl | ⟨v, c', rest, first, rfl, final, steps⟩)
    · exact executes_nil c
    · exact ⟨final, .cons first steps⟩

/-- The runs of a control that makes a visit before anything else. -/
def visiting (v : Visit) (after : List Visit → Prop) (trace : List Visit) : Prop :=
  trace = [] ∨ ∃ rest, trace = v :: rest ∧ after rest

/-- Control that has one way to go, with a visit, runs as that visit followed by what comes
after. -/
theorem executes_of_visit {c c' : Control} {v : Visit} (step : Step c (some v) c')
    (only : ∀ w d, Step c w d → w = some v ∧ d = c') :
    Executes c = visiting v (Executes c') := by
  funext trace
  apply propext
  rw [executes_iff]
  constructor
  · rintro (rfl | ⟨w, d, rest, first, rfl, run⟩)
    · exact Or.inl rfl
    · obtain ⟨rfl, rfl⟩ := only w d first
      exact Or.inr ⟨rest, rfl, run⟩
  · rintro (rfl | ⟨rest, rfl, run⟩)
    · exact Or.inl rfl
    · exact Or.inr ⟨some v, c', rest, step, rfl, run⟩

/-- Control that can only go on silently runs as what it goes on with. -/
theorem executes_of_silent {c : Control} {next : List Control}
    (steps : ∀ v d, Step c v d ↔ v = none ∧ d ∈ next) {trace : List Visit} :
    Executes c trace ↔ trace = [] ∨ ∃ d ∈ next, Executes d trace := by
  rw [executes_iff]
  constructor
  · rintro (rfl | ⟨v, d, rest, first, rfl, run⟩)
    · exact Or.inl rfl
    · obtain ⟨rfl, mem⟩ := (steps v d).mp first
      exact Or.inr ⟨d, mem, run⟩
  · rintro (rfl | ⟨d, mem, run⟩)
    · exact Or.inl rfl
    · exact Or.inr ⟨none, d, trace, (steps none d).mpr ⟨rfl, mem⟩, rfl, run⟩

/-- With one silent way on nothing can be told apart. -/
theorem executes_of_one_silent {c d : Control} (steps : ∀ v e, Step c v e ↔ v = none ∧ e = d) :
    Executes c = Executes d := by
  funext trace
  have unfolded : Executes c trace ↔ trace = [] ∨ ∃ e ∈ [d], Executes e trace :=
    executes_of_silent fun v e => by rw [steps v e, mem_singleton]
  apply propext
  rw [unfolded]
  constructor
  · rintro (rfl | ⟨e, mem, run⟩)
    · exact executes_nil d
    · rw [mem_singleton] at mem
      exact mem ▸ run
  · intro run
    exact Or.inr ⟨d, mem_singleton_self d, run⟩

/-! ### The ways on from a head -/

def armWays (fallthrough : Bool) (k : List Frame) : List Arm → List Control
  | [] => []
  | arm :: later =>
      .run (frames arm.body ++ (frames (armTail fallthrough later) ++ .choice :: k))
        :: armWays fallthrough k later

def ways (k : List Frame) : Stmt → List Control
  | .simple _ => [.run k]
  | .tryOp span => [.early span, .run k]
  | .jump kind label _ => (unwind kind label k).toList.map .run
  | .branch _ _ body orelse => [.run (frames body ++ k), .run (frames orelse ++ k)]
  | .loop span head body orelse =>
      .run (frames body ++ .loop span head body orelse :: k)
        :: if head.infinite then [] else [.run (frames orelse ++ k)]
  | .choice _ head arms =>
      armWays head.fallthrough k arms
        ++ if Lower.hasDefault arms || head.exhaustive then [] else [.run k]
  | .guarded _ body handlers orelse final =>
      .run (frames body ++ (frames orelse ++ (frames (final.getD []) ++ k)))
        :: (handlers.map fun handler => .run (frames handler.body ++ (frames (final.getD []) ++ k)))
        ++ final.toList.map fun final => .run (frames final ++ k)
  | _ => []

/-- There is one way into each arm, with the later arms behind it where control falls through. -/
theorem mem_armWays_iff {fallthrough : Bool} {k : List Frame} {c : Control} :
    c ∈ armWays fallthrough k arms ↔
      ∃ earlier arm later, arms = earlier ++ arm :: later ∧
        c = .run (frames arm.body ++ (frames (armTail fallthrough later) ++ .choice :: k)) := by
  induction arms with
  | nil => simp [armWays]
  | cons first rest ih =>
    rw [armWays, mem_cons, ih]
    constructor
    · rintro (rfl | ⟨earlier, arm, later, rfl, rfl⟩)
      · exact ⟨[], first, rest, rfl, rfl⟩
      · exact ⟨first :: earlier, arm, later, rfl, rfl⟩
    · rintro ⟨earlier, arm, later, split, rfl⟩
      cases earlier with
      | nil =>
        obtain ⟨rfl, rfl⟩ := cons.inj split
        exact Or.inl rfl
      | cons other earlier =>
        obtain ⟨rfl, rfl⟩ := cons.inj split
        exact Or.inr ⟨earlier, arm, later, rfl, rfl⟩

/-- Without an arm that is always taken no arm has one of the two labels for it. -/
theorem hasDefault_eq_false_iff : Lower.hasDefault arms = false ↔
      ∀ arm ∈ arms, arm.label ≠ "default" ∧ arm.label ≠ "_" := by
  simp [Lower.hasDefault]

/-- **All steps from a head are silent, and `ways` lists them.** -/
theorem step_head_iff {s : Stmt} {k : List Frame} {v : Option Visit} {d : Control} :
    Step (.head s k) v d ↔ v = none ∧ d ∈ ways k s := by
  constructor
  · intro step
    cases step with
    | simple | goOn | giveUp => simp [ways]
    | jump target => simp [ways, target]
    | ifBody | ifElse | iterate => simp [ways]
    | leaveLoop finite => simp [ways, finite]
    | arm =>
      refine ⟨rfl, mem_append_left _ ?_⟩
      exact mem_armWays_iff.mpr ⟨_, _, _, rfl, rfl⟩
    | noMatch undecided inexhaustive =>
      have noDefault := hasDefault_eq_false_iff.mpr undecided
      simp [ways, noDefault, inexhaustive]
    | tryBody => simp [ways]
    | handler mem => simp only [ways]; grind
    | lastly => simp [ways]
  · rintro ⟨rfl, mem⟩
    cases s with
    | simple span =>
      rw [ways, mem_singleton] at mem
      exact mem ▸ .simple
    | leave kind span => simp [ways] at mem
    | tryOp span =>
      simp only [ways, mem_cons, not_mem_nil, or_false] at mem
      rcases mem with rfl | rfl
      · exact .giveUp
      · exact .goOn
    | jump kind label span =>
      simp only [ways, mem_map, Option.mem_toList] at mem
      obtain ⟨k', target, rfl⟩ := mem
      exact .jump target
    | unknown kind span => simp [ways] at mem
    | branch span condition body orelse =>
      simp only [ways, mem_cons, not_mem_nil, or_false] at mem
      rcases mem with rfl | rfl
      · exact .ifBody
      · exact .ifElse
    | loop span head body orelse =>
      rw [ways, mem_cons] at mem
      rcases mem with rfl | mem
      · exact .iterate
      · split at mem
        · simp at mem
        · rename_i finite
          rw [mem_singleton] at mem
          exact mem ▸ .leaveLoop (by simpa using finite)
    | choice span head arms =>
      rw [ways, mem_append] at mem
      rcases mem with mem | mem
      · obtain ⟨earlier, arm, later, rfl, rfl⟩ := mem_armWays_iff.mp mem
        exact .arm
      · split at mem
        · simp at mem
        · rename_i undecided
          rw [mem_singleton] at mem
          simp only [Bool.or_eq_true, not_or, Bool.not_eq_true] at undecided
          exact mem ▸ .noMatch (hasDefault_eq_false_iff.mp undecided.1) undecided.2
    | guarded span body handlers orelse final =>
      simp only [ways, cons_append, mem_cons, mem_append, mem_map, Option.mem_toList] at mem
      rcases mem with rfl | ⟨handler, mem, rfl⟩ | ⟨stmts, rfl, rfl⟩
      · exact .tryBody
      · exact .handler mem
      · exact .lastly
    | block span header body => simp [ways] at mem

/-! ### The equations -/

/-- The runs from a head are those of its ways on. -/
theorem executes_head {s : Stmt} {k : List Frame} {trace : List Visit} :
    Executes (.head s k) trace ↔ trace = [] ∨ ∃ d ∈ ways k s, Executes d trace :=
  executes_of_silent fun _ _ => step_head_iff

theorem executes_over {trace : List Visit} : Executes .over trace ↔ trace = [] := by
  rw [executes_iff]
  constructor
  · rintro (rfl | ⟨v, d, rest, step, -, -⟩)
    · rfl
    · cases step
  · exact Or.inl

/-- A function starts with a visit to its entry. -/
theorem executes_start (body : List Stmt) :
    Executes (.start body) = visiting .enter (Executes (.run (frames body))) :=
  executes_of_visit .enter fun _ _ step => by cases step; exact ⟨rfl, rfl⟩

/-- With nothing left to do control visits the end. -/
theorem executes_finish : Executes (.run []) = visiting .finish (Executes .over) :=
  executes_of_visit .finish fun _ _ step => by cases step; exact ⟨rfl, rfl⟩

/-- An early return is visited, and then the function is over. -/
theorem executes_early (span : Span) :
    Executes (.early span) = visiting (.early span) (Executes .over) :=
  executes_of_visit .early fun _ _ step => by cases step; exact ⟨rfl, rfl⟩

/-- A statement is visited before its head decides. -/
theorem executes_stmt {s : Stmt} (visited : isVisited s) (k : List Frame) :
    Executes (.run (.stmt s :: k)) = visiting (.stmt s) (Executes (.head s k)) := by
  refine executes_of_visit (.visit visited) fun _ _ step => ?_
  cases step with
  | visit => exact ⟨rfl, rfl⟩
  | skip | block | reachLoop => simp [isVisited] at visited

/-- At the frame of a loop its head is visited. -/
theorem executes_loop (span : Span) (head : LoopHead) (body orelse : List Stmt) (k : List Frame) :
    Executes (.run (.loop span head body orelse :: k)) =
      visiting (.stmt (.loop span head body orelse))
        (Executes (.head (.loop span head body orelse) k)) :=
  executes_of_visit .loopHead fun _ _ step => by cases step; exact ⟨rfl, rfl⟩

theorem executes_reachLoop (span : Span) (head : LoopHead) (body orelse : List Stmt)
    (k : List Frame) :
    Executes (.run (.stmt (.loop span head body orelse) :: k)) =
      Executes (.run (.loop span head body orelse :: k)) := by
  refine executes_of_one_silent fun v d => ⟨fun step => ?_, ?_⟩
  · cases step with
    | visit visited => simp [isVisited] at visited
    | reachLoop => exact ⟨rfl, rfl⟩
  · rintro ⟨rfl, rfl⟩
    exact .reachLoop

/-- A statement of unknown kind does nothing. -/
theorem executes_unknown (kind : String) (span : Span) (k : List Frame) :
    Executes (.run (.stmt (.unknown kind span) :: k)) = Executes (.run k) := by
  refine executes_of_one_silent fun v d => ⟨fun step => ?_, ?_⟩
  · cases step with
    | visit visited => simp [isVisited] at visited
    | skip => exact ⟨rfl, rfl⟩
  · rintro ⟨rfl, rfl⟩
    exact .skip

theorem executes_block (span : Span) (header : String) (body : List Stmt) (k : List Frame) :
    Executes (.run (.stmt (.block span header body) :: k)) =
      Executes (.run (frames body ++ k)) := by
  refine executes_of_one_silent fun v d => ⟨fun step => ?_, ?_⟩
  · cases step with
    | visit visited => simp [isVisited] at visited
    | block => exact ⟨rfl, rfl⟩
  · rintro ⟨rfl, rfl⟩
    exact .block

/-- What reaches the end of a choice goes on behind it. -/
theorem executes_choice (k : List Frame) : Executes (.run (.choice :: k)) = Executes (.run k) := by
  refine executes_of_one_silent fun v d => ⟨fun step => ?_, ?_⟩
  · cases step
    exact ⟨rfl, rfl⟩
  · rintro ⟨rfl, rfl⟩
    exact .leaveChoice

end CodeAtlas.Flow
