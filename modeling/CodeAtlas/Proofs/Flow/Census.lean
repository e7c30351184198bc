import CodeAtlas.Proofs.Flow.History

/-!
What a statement tree becomes in its graph.

The census of a tree lists its statements in the order of the text, each with the number of ways on
from it. It is read off the tree alone: a jump has a way on if one of the loops and choices around
it is its target.
-/

namespace CodeAtlas.Flow

/-! ### The census of a statement tree -/

structure Scope where
  label : Option String
  isLoop : Bool

/-- May a jump go to this loop or choice? With a label it goes to a loop with that label; without
one a break goes to any loop or choice, and a continue to any loop. -/
def Scope.fits (kind : JumpKind) (label : Option String) (scope : Scope) : Bool :=
  match label with
  | some _ => scope.label == label
  | none => kind == .breaks || scope.isLoop

def hasTarget (kind : JumpKind) (label : Option String) (scopes : List Scope) : Bool :=
  scopes.any (Scope.fits kind label)

/-- The ways on from the head of a choice: one into each arm, and one past them unless some arm is
always taken. -/
def choiceDegree (head : ChoiceHead) (arms : List Arm) : Nat :=
  arms.length +
    if head.exhaustive || arms.any (fun arm => ["default", "_"].contains arm.label) then 0 else 1

mutual

/-- What the nodes of a statement stand for, in the order of the text, each with the number of ways
on. -/
def census (scopes : List Scope) : Stmt → List (Visit × Nat)
  | .simple span => [(.stmt (.simple span), 1)]
  | .leave kind span => [(.stmt (.leave kind span), 0)]
  | .tryOp span => [(.stmt (.tryOp span), 2), (.early span, 0)]
  | .jump kind label span =>
      [(.stmt (.jump kind label span), if hasTarget kind label scopes then 1 else 0)]
  | .unknown _ _ => []
  | .branch span condition body orelse =>
      (.stmt (.branch span condition body orelse), 2)
        :: (censusAll scopes body ++ censusAll scopes orelse)
  | .loop span head body orelse =>
      (.stmt (.loop span head body orelse), if head.infinite then 1 else 2)
        :: (censusAll (⟨head.label, true⟩ :: scopes) body
          ++ if head.infinite then [] else censusAll scopes orelse)
  | .choice span head arms =>
      (.stmt (.choice span head arms), choiceDegree head arms)
        :: censusArms (⟨none, false⟩ :: scopes) arms
  | .guarded span body handlers orelse none =>
      (.stmt (.guarded span body handlers orelse none), 1 + handlers.length)
        :: (censusAll scopes body ++ censusAll scopes orelse ++ censusArms scopes handlers)
  | .guarded span body handlers orelse (some final) =>
      (.stmt (.guarded span body handlers orelse (some final)), 1 + handlers.length + 1)
        :: (censusAll scopes body ++ censusAll scopes orelse ++ censusArms scopes handlers
          ++ censusAll scopes final)
  | .block _ _ body => censusAll scopes body

def censusAll (scopes : List Scope) : List Stmt → List (Visit × Nat)
  | [] => []
  | stmt :: stmts => census scopes stmt ++ censusAll scopes stmts

def censusArms (scopes : List Scope) : List Arm → List (Visit × Nat)
  | [] => []
  | .mk _ _ body :: arms => censusAll scopes body ++ censusArms scopes arms

end

/-! ### Stages of the lowering -/

def scopeOf (frame : JumpFrame) : Scope :=
  ⟨frame.label, frame.head.isSome⟩

def scopesOf (outer : List JumpFrame) : List Scope :=
  outer.map scopeOf

def headsOf (outer : List JumpFrame) : List Nat :=
  outer.filterMap (·.head)

def stepsOf (sites : List Site) : List (Visit × Nat) :=
  sites.flatMap Site.steps

@[simp] theorem stepsOf_append (a b : List Site) : stepsOf (a ++ b) = stepsOf a ++ stepsOf b :=
  List.flatMap_append

@[simp] theorem stepsOf_singleton (site : Site) : stepsOf [site] = site.steps := by
  simp [stepsOf]

/-- Lowering looks for the target of a jump from the inside out. -/
theorem jumpTarget?_cons (kind : JumpKind) (label : Option String) (frame : JumpFrame)
    (outer : List JumpFrame) :
    Lower.jumpTarget? kind label (frame :: outer) =
      if (scopeOf frame).fits kind label then some (outer.length, frame)
      else Lower.jumpTarget? kind label outer := by
  cases label <;> rfl

/-- The census counts a way on from a jump exactly where lowering finds a target. -/
theorem hasTarget_scopesOf (kind : JumpKind) (label : Option String) (outer : List JumpFrame) :
    hasTarget kind label (scopesOf outer) = (Lower.jumpTarget? kind label outer).isSome := by
  induction outer with
  | nil => rfl
  | cons frame outer ih =>
    have first : hasTarget kind label (scopesOf (frame :: outer)) =
        ((scopeOf frame).fits kind label || hasTarget kind label (scopesOf outer)) := rfl
    rw [first, jumpTarget?_cons, ih]
    cases (scopeOf frame).fits kind label <;> rfl

end CodeAtlas.Flow
