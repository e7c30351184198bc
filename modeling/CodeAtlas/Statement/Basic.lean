import CodeAtlas.Text.Preview
import CodeAtlas.Text.Word

/-!
Statement trees.

The body of a function is read into a tree of the statements that matter for control flow. Every
statement has a span of offsets in the file. A simple statement is classified by its text alone.

Statements may be nested to any depth: a bound on the depth of recursion is no part of this model.
-/

namespace CodeAtlas

structure Span where
  start : Nat
  stop : Nat
  deriving Repr, DecidableEq

inductive ExitKind where
  | returns
  | raises
  | exits
  deriving Repr, DecidableEq

namespace ExitKind

def text : ExitKind → String
  | returns => "return"
  | raises => "raise"
  | exits => "exit"

end ExitKind

inductive JumpKind where
  | breaks
  | continues
  deriving Repr, DecidableEq

namespace JumpKind

def text : JumpKind → String
  | breaks => "break"
  | continues => "continue"

end JumpKind

structure LoopHead where
  header : String
  label : Option String := none
  infinite : Bool := false
  postTest : Bool := false
  deriving Repr, DecidableEq

structure ChoiceHead where
  header : String
  fallthrough : Bool := false
  exhaustive : Bool := false
  deriving Repr, DecidableEq

mutual

inductive Stmt where
  | simple (span : Span)
  | leave (kind : ExitKind) (span : Span)
  | tryOp (span : Span)
  /-- Control goes to the end or the head of an enclosing loop or choice. -/
  | jump (kind : JumpKind) (label : Option String) (span : Span)
  | unknown (kind : String) (span : Span)
  | branch (span : Span) (condition : String) (body orelse : List Stmt)
  | loop (span : Span) (head : LoopHead) (body orelse : List Stmt)
  | choice (span : Span) (head : ChoiceHead) (arms : List Arm)
  | guarded (span : Span) (body : List Stmt) (handlers : List Arm) (orelse : List Stmt)
      (final : Option (List Stmt))
  | block (span : Span) (header : String) (body : List Stmt)

inductive Arm where
  | mk (label : String) (start : Nat) (body : List Stmt)

end

namespace Stmt

def span : Stmt → Span
  | simple span => span
  | leave _ span => span
  | tryOp span => span
  | jump _ _ span => span
  | unknown _ span => span
  | branch span _ _ _ => span
  | loop span _ _ _ => span
  | choice span _ _ => span
  | guarded span _ _ _ _ => span
  | block span _ _ => span

def kind : Stmt → String
  | simple _ => "simple"
  | leave k _ => k.text
  | tryOp _ => "try-op"
  | jump k _ _ => k.text
  | unknown k _ => k
  | branch _ _ _ _ => "if"
  | loop _ _ _ _ => "loop"
  | choice _ _ _ => "switch"
  | guarded _ _ _ _ _ => "try"
  | block _ _ _ => "block"

end Stmt

namespace Arm

def label : Arm → String
  | mk label _ _ => label

def start : Arm → Nat
  | mk _ start _ => start

def body : Arm → List Stmt
  | mk _ _ body => body

end Arm

/-! ### Simple statements -/

inductive SimpleKind where
  | plain
  | leave (kind : ExitKind)
  | tryOp
  | jump (kind : JumpKind) (label : Option String)
  | unknown (kind : String)
  deriving Repr, DecidableEq

namespace SimpleKind

def text : SimpleKind → String
  | plain => "simple"
  | leave k => k.text
  | tryOp => "try-op"
  | jump k _ => k.text
  | unknown k => k

def label : SimpleKind → Option String
  | jump _ label => label
  | _ => none

def toStmt (span : Span) : SimpleKind → Stmt
  | plain => .simple span
  | leave k => .leave k span
  | tryOp => .tryOp span
  | jump k label => .jump k label span
  | unknown k => .unknown k span

/-- Does a question mark stand outside of all braces? The bound `?Sized` is no operator. -/
def hasTryOperatorFrom : (depth : Int) → List Char → Bool
  | _, [] => false
  | depth, c :: cs =>
      if c == '{' then hasTryOperatorFrom (depth + 1) cs
      else if c == '}' then hasTryOperatorFrom (depth - 1) cs
      else if c == '?' && depth == 0 && !Text.startsWith cs "Sized".toList then true
      else hasTryOperatorFrom depth cs

/-- Does a statement apply the operator `?` outside any nested block? -/
def hasTryOperator (cs : List Char) : Bool :=
  hasTryOperatorFrom 0 cs

def jumpWord? (cs : List Char) : Option (JumpKind × List Char) :=
  match Text.wholeWord? "break" none cs with
  | some rest => some (.breaks, rest)
  | none => (Text.wholeWord? "continue" none cs).map fun rest => (.continues, rest)

/-- What follows a jump word, when it is at most a label and a semicolon: whether the label has a
quote before it, and the label. -/
def jumpLabel? (cs : List Char) : Option (Bool × Option String) :=
  let cs := Text.trimStart cs
  let (quoted, cs) := match cs with
    | '\'' :: rest => (true, rest)
    | _ => (false, cs)
  let (label, cs) := match Text.dollarName? cs with
    | some (name, rest) => (some (String.ofList name), rest)
    | none => (none, cs)
  let cs := Text.trimStart cs
  let cs := match cs with
    | ';' :: rest => rest
    | _ => cs
  if (Text.trimStart cs).isEmpty then some (quoted, label) else none

def firstField (cs : List Char) : String :=
  String.ofList (Text.dropEndWhile (· == ';') ((Text.fields cs).headD []))

def classifyJump (quotedLabels : Bool) (cs : List Char) (word : JumpKind) (rest : List Char) :
    SimpleKind :=
  match jumpLabel? rest with
  | some (quoted, label) => .jump word (if quotedLabels && !quoted then none else label)
  | none =>
      let first := firstField cs
      if first == "break" then .jump .breaks none
      else if first == "continue" then .jump .continues none
      else .unknown first

def isPanic (cs : List Char) : Bool :=
  ["panic", "unreachable", "todo", "unimplemented"].any fun word =>
    match Text.after? word.toList cs with
    | some rest => (Text.trimStart rest).head? == some '!'
    | none => false

def afterParts? : List String → List Char → Option (List Char)
  | [], cs => some cs
  | [part], cs => Text.after? part.toList cs
  | part :: parts, cs => do
      let rest ← Text.after? part.toList cs
      afterParts? parts (Text.trimStart rest)

def exitCalls : List (List String) :=
  [["std", "::", "process", "::", "exit"], ["process", "::", "exit"], ["process", ".", "exit"],
    ["Deno", ".", "exit"], ["sys", ".", "exit"], ["os", ".", "_exit"], ["exit"], ["quit"]]

def isExitCall (cs : List Char) : Bool :=
  exitCalls.any fun parts =>
    match afterParts? parts cs with
    | some rest => (Text.trimStart rest).head? == some '('
    | none => false

/-- The kind of a simple statement from its masked text. `rust` says that labels carry a quote and
that a question mark is an early return. -/
def ofText (rust : Bool) (text : List Char) : SimpleKind :=
  let cs := Text.trim text
  match jumpWord? cs with
  | some (word, rest) => classifyJump rust cs word rest
  | none =>
      if (Text.wholeWord? "return" none cs).isSome then .leave .returns
      else if (Text.wholeWord? "throw" none cs).isSome || (Text.wholeWord? "raise" none cs).isSome
          || isPanic cs then .leave .raises
      else if isExitCall cs then .leave .exits
      else if rust && hasTryOperator cs then .tryOp
      else .plain

end SimpleKind

end CodeAtlas
