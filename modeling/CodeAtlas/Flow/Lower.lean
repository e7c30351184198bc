import CodeAtlas.Flow.Graph
import CodeAtlas.Statement.Warning
import CodeAtlas.Text.Lines

/-!
Lowering statement trees to flow graphs.

Lowering threads the edges that still lack a target through the statements: the next node made gets
all of them. So a point where control joins exists only when something follows it, and statements
that control cannot reach get nodes without an edge into them. Trees of any depth are lowered: a
bound on the depth of recursion is no part of this model.
-/

namespace CodeAtlas

structure PendingEdge where
  source : Nat
  kind : EdgeKind
  condition : Option String
  deriving Repr, DecidableEq

/-- A loop or choice around a statement: the head of a loop, none for a choice, and the label. -/
structure JumpFrame where
  head : Option Nat
  label : Option String
  deriving Repr, DecidableEq

structure LowerEnv where
  source : List Char
  lines : LineMap

structure LowerState where
  nodes : List FlowNode := []
  edges : List FlowEdge := []
  links : FlowLinks := {}
  openBlock : Option Nat := none
  /-- Edges that leave a loop or choice, with the number of frames around that loop or choice. -/
  breaks : List (Nat × PendingEdge) := []
  warnings : List (Nat × FlowWarning) := []

namespace LowerState

def addEdges (s : LowerState) (edges : List FlowEdge) : LowerState :=
  { s with edges := s.edges ++ edges, links := s.links.addEdges s.edges.length edges }

def graph (s : LowerState) : FlowGraph :=
  ⟨s.nodes, s.edges, s.links.sorted⟩

end LowerState

abbrev Lower := StateM LowerState

namespace Lower

def endLine (env : LowerEnv) (span : Span) : Nat :=
  env.lines.lineOf (max span.start (span.stop - 1) : Nat)

def preview (env : LowerEnv) (span : Span) : String :=
  String.ofList (Text.preview 48 ((env.source.take span.stop).drop span.start))

def node (env : LowerEnv) (kind : NodeKind) (span : Span) (label : String)
    (exitKind : Option ExitKind) : Lower Nat := do
  let s ← get
  let id := s.nodes.length
  let startLine := env.lines.lineOf span.start
  let made : FlowNode := ⟨kind, startLine, max startLine (endLine env span), label⟩
  set { s with
    nodes := s.nodes ++ [made]
    links := s.links.addNode id kind exitKind
    openBlock := if kind == NodeKind.block then some id else none }
  return id

def edge (source target : Nat) (kind : EdgeKind) (condition : Option String) : Lower Unit :=
  modify (·.addEdges [⟨source, target, kind, condition⟩])

def connect (pending : List PendingEdge) (target : Nat) : Lower Unit :=
  modify (·.addEdges (pending.map fun p => ⟨p.source, target, p.kind, p.condition⟩))

def join (env : LowerEnv) (kind : NodeKind) (span : Span) (label : String)
    (pending : List PendingEdge) (exitKind : Option ExitKind) : Lower Nat := do
  let id ← node env kind span label exitKind
  connect pending id
  return id

def closeBlock : Lower Unit :=
  modify fun s => { s with openBlock := none }

def warn (offset : Nat) (w : FlowWarning) : Lower Unit :=
  modify fun s => { s with warnings := s.warnings ++ [(offset, w)] }

/-- Take the edges that leave the loop or choice with `depth` frames around it. -/
def takeBreaks (depth : Nat) : Lower (List PendingEdge) := do
  let s ← get
  set { s with breaks := s.breaks.filter (·.1 != depth) }
  return (s.breaks.filter (·.1 == depth)).map (·.2)

def headSpan (span : Span) : Span :=
  ⟨span.start, span.start + 1⟩

/-- A simple statement: it joins the open block when control comes from there alone. -/
def simple (env : LowerEnv) (span : Span) (pending : List PendingEdge) :
    Lower (List PendingEdge) := do
  let s ← get
  let alone := s.openBlock.filter fun b => pending == [⟨b, .fallthrough, none⟩]
  match alone with
  | some b =>
      let extended := s.nodes.modify b fun n =>
        { n with endLine := max n.endLine (endLine env span) }
      set { s with nodes := extended }
      return pending
  | none =>
      let id ← join env .block span (preview env span) pending none
      return [⟨id, .fallthrough, none⟩]

/-- The frame that a jump goes to, with the number of frames around it: the innermost one with the
label, or without a label the innermost loop, or for a break the innermost loop or choice. -/
def jumpTarget? (kind : JumpKind) (label : Option String) :
    List JumpFrame → Option (Nat × JumpFrame)
  | [] => none
  | frame :: frames =>
      let fits : Bool := match label with
        | some _ => frame.label == label
        | none => kind == .breaks || frame.head.isSome
      if fits then some (frames.length, frame) else jumpTarget? kind label frames

def jump (env : LowerEnv) (frames : List JumpFrame) (kind : JumpKind) (label : Option String)
    (span : Span) (pending : List PendingEdge) : Lower (List PendingEdge) := do
  let id ← join env .jump span (preview env span) pending none
  match jumpTarget? kind label frames with
  | none => warn span.start (.jumpOutsideLoop kind.text)
  | some (depth, frame) =>
      match kind, frame.head with
      | .continues, some head => edge id head .jump none
      | _, _ =>
          modify fun s => { s with breaks := s.breaks ++ [(depth, ⟨id, .jump, none⟩)] }
  return []

def hasDefault (arms : List Arm) : Bool :=
  arms.any fun arm => arm.label == "default" || arm.label == "_"

end Lower

open Lower in
mutual

def lowerStmt (env : LowerEnv) (frames : List JumpFrame) :
    Stmt → List PendingEdge → Lower (List PendingEdge)
  | .simple span, pending => simple env span pending
  | .leave kind span, pending => do
      let _ ← join env (.exit kind) span (preview env span) pending (some kind)
      return []
  | .tryOp span, pending => do
      let text := preview env span
      let id ← join env .branch span text pending none
      let early ← node env (.exit .returns) span "? early return" (some .returns)
      edge id early .whenFalse (some text)
      return [⟨id, .whenTrue, some text⟩]
  | .jump kind label span, pending => jump env frames kind label span pending
  | .unknown kind span, pending => do
      warn span.start (.unknownKind kind)
      return pending
  | .branch span condition body orelse, pending => do
      let cond := Text.label condition.toList
      let label := String.ofList (Text.trim ("if " ++ cond).toList)
      let id ← join env .branch (headSpan span) label pending none
      let taken ← lowerStmts env frames body [⟨id, .whenTrue, some cond⟩]
      let other ← lowerStmts env frames orelse [⟨id, .whenFalse, some cond⟩]
      return taken ++ other
  | .loop span head body orelse, pending => do
      let id ← join env .loopHead (headSpan span) head.header pending none
      let enterKind : EdgeKind := if head.infinite || head.postTest then .fallthrough else .whenTrue
      let enter : PendingEdge := ⟨id, enterKind, if head.infinite then none else some head.header⟩
      let around := frames.length
      let ends ← lowerStmts env (⟨some id, head.label⟩ :: frames) body [enter]
      connect (ends.map fun p => { p with kind := .back }) id
      let breaks ← takeBreaks around
      closeBlock
      if head.infinite then return breaks
      else
        let normal ← lowerStmts env frames orelse [⟨id, .loopExit, some head.header⟩]
        return normal ++ breaks
  | .choice span head arms, pending => do
      let id ← join env .branch (headSpan span) head.header pending none
      let around := frames.length
      let out ← lowerArms env (⟨none, none⟩ :: frames) id head.fallthrough arms []
      let breaks ← takeBreaks around
      closeBlock
      let skipped : List PendingEdge :=
        if hasDefault arms || head.exhaustive then [] else [⟨id, .whenFalse, some "no match"⟩]
      return out ++ skipped ++ breaks
  | .guarded span body handlers orelse final, pending => do
      let id ← join env .branch (headSpan span) "try" pending none
      let out ← lowerStmts env frames body [⟨id, .fallthrough, none⟩]
      let out ← lowerStmts env frames orelse out
      let handled ← lowerHandlers env frames id handlers
      let out := out ++ handled
      let out ← match final with
        | some stmts => lowerStmts env frames stmts (out ++ [⟨id, .exception, some "finally"⟩])
        | none => pure out
      closeBlock
      return out
  | .block _ _ body, pending => lowerStmts env frames body pending

def lowerStmts (env : LowerEnv) (frames : List JumpFrame) :
    List Stmt → List PendingEdge → Lower (List PendingEdge)
  | [], pending => return pending
  | stmt :: stmts, pending => do
      let pending ← lowerStmt env frames stmt pending
      lowerStmts env frames stmts pending

/-- Lower the arms of the choice at node `id`. With fallthrough, what comes out of an arm leads into
the next one; without, it leads on. -/
def lowerArms (env : LowerEnv) (frames : List JumpFrame) (id : Nat) (fallthrough : Bool) :
    List Arm → (carry : List PendingEdge) → Lower (List PendingEdge)
  | [], carry => return carry
  | .mk label _ body :: arms, carry => do
      let enter : PendingEdge := ⟨id, .case, some label⟩
      if fallthrough then
        let carry ← lowerStmts env frames body (enter :: carry)
        lowerArms env frames id fallthrough arms carry
      else
        let out ← lowerStmts env frames body [enter]
        let rest ← lowerArms env frames id fallthrough arms carry
        return out ++ rest

def lowerHandlers (env : LowerEnv) (frames : List JumpFrame) (id : Nat) :
    List Arm → Lower (List PendingEdge)
  | [] => return []
  | .mk label _ body :: arms => do
      let out ← lowerStmts env frames body [⟨id, .exception, some label⟩]
      let rest ← lowerHandlers env frames id arms
      return out ++ rest

end

/-- The graph of a function body. `name` labels the entry, `head` is the place of the declaration,
and `last` that of the end of the body. -/
def lowerBody (env : LowerEnv) (name : String) (head last : Nat) (body : List Stmt) :
    FlowGraph × List (Nat × FlowWarning) :=
  let build : Lower Unit := do
    let entry ← Lower.node env .entry ⟨head, head + 1⟩ name none
    let pending ← lowerStmts env [] body [⟨entry, .fallthrough, none⟩]
    if !pending.isEmpty then
      let _ ← Lower.join env (.exit .returns) ⟨last, last + 1⟩ "end" pending (some .returns)
  let (_, s) := build.run {}
  (s.graph, s.warnings)

end CodeAtlas
