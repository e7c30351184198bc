import CodeAtlas.Index.Block
import CodeAtlas.Source.LogicalLine

/-!
Declarations of Python source: functions, and methods of classes, by indentation.
-/

namespace CodeAtlas.Python

def isTestPath (path : String) : Bool :=
  let parts := Text.splitBy (· == '/') path.toList
  let name := parts.getLastD []
  let directories := parts.dropLast
  Text.startsWith name "test_".toList || Text.endsWith name "_test.py".toList
    || directories.contains "tests".toList || directories.contains "test".toList
    || name == "conftest.py".toList

def decorator? (cs : List Char) : Option String := do
  let rest ← Text.after? ['@'] cs
  match Text.trimStart rest with
  | c :: tail =>
      if isNameStart c then
        let name := c :: tail.takeWhile fun d => isWordChar d || d == '.'
        some (String.ofList ((Text.splitBy (· == '.') name).getLastD []))
      else none
  | [] => none

def namedAfter? (word : String) (cs : List Char) : Option (String × List Char) := do
  let rest ← Text.after? word.toList cs >>= Text.blanks1?
  let (name, rest) ← Text.name? rest
  return (String.ofList name, rest)

def defName? (cs : List Char) : Option (String × List Char) :=
  match Text.after? "async".toList cs >>= Text.blanks1? with
  | some rest => namedAfter? "def" rest
  | none => namedAfter? "def" cs

def className? (cs : List Char) : Option String :=
  (namedAfter? "class" cs).map (·.1)

/-- An indented suite that is still open, with the indentation of its header. -/
structure Suite where
  scope : Scope
  indent : Nat

structure SuiteState where
  closed : List Declaration := []
  stack : List Suite := []
  decorators : List String := []
  lastEnd : Nat := 0

namespace SuiteState

/-- Close the suites whose header is indented at least as far as `indent`, the innermost first. -/
def closeUntil (s : SuiteState) (indent : Nat) : SuiteState :=
  let done := s.stack.takeWhile (indent ≤ ·.indent)
  let ended := done.filterMap fun suite =>
    suite.scope.declaration?.map fun d => { d with endOffset := s.lastEnd }
  { s with closed := s.closed ++ ended, stack := s.stack.dropWhile (indent ≤ ·.indent) }

def scopes (s : SuiteState) : List Scope :=
  (s.stack.map (·.scope)).reverse

def enclosingClass? (s : SuiteState) : Option (Option String) :=
  match s.stack with
  | ⟨.type name _, _⟩ :: _ => some name
  | _ => none

end SuiteState

def tagsOf (testFile : Bool) (decorators : List String) (name : String) (text : List Char) :
    List Tag :=
  (if decorators.isEmpty then [] else .decorated :: decorators.map .decorator)
    ++ (if testFile || Text.startsWith name.toList "test".toList then [.test] else [])
    ++ (if (Text.wholeWord? "async" none text).isSome then [.async] else [])

def step (testFile : Bool) (masked : List Char) (s : SuiteState) (l : LogicalLine) : SuiteState :=
  let s := s.closeUntil l.indent
  let text := (masked.take l.stop).drop l.start
  match decorator? text with
  | some name => { s with decorators := s.decorators ++ [name], lastEnd := l.stop }
  | none =>
      let next := { s with decorators := [], lastEnd := l.stop }
      match defName? text with
      | some (name, rest) =>
          let headEnd := l.start + (text.length - rest.length)
          let body := match Text.headerColon? masked headEnd l.stop with
            | some colon => colon + 1
            | none => l.stop
          let owner := s.enclosingClass?
          let d : Declaration :=
            ⟨BlockState.qualify "." s.scopes name, name,
              if owner.isSome then .method else .function, owner.join, l.start, body, l.stop,
              tagsOf testFile s.decorators name text⟩
          { next with stack := ⟨.entry d, l.indent⟩ :: s.stack }
      | none =>
          match className? text with
          | some name => { next with stack := ⟨.type (some name) [], l.indent⟩ :: s.stack }
          | none => next

def declarations (path : String) (masked : List Char) : FileScan :=
  let (lines, balance) := LogicalLine.ofText masked
  let s := lines.foldl (step (isTestPath path) masked) {}
  let s := s.closeUntil 0
  ⟨s.closed,
    if 0 < balance then [⟨.unclosedBrackets balance.toNat, none⟩]
    else if balance < 0 then [⟨.strayClosers, none⟩]
    else []⟩

end CodeAtlas.Python
