import CodeAtlas.Index.Entry
import CodeAtlas.Index.Mark

/-!
The block stack of the brace families.

A declaration head waits for its body. The next opening brace at the same bracket depth opens the
body; a semicolon at that depth, or the closing brace of an enclosing block, drops the head. Every
open brace has a frame, and a frame that belongs to a declaration closes it.
-/

namespace CodeAtlas

inductive Scope where
  | block
  | type (name : Option String) (tags : List Tag)
  | module (name : String) (declaration : Declaration)
  | entry (declaration : Declaration)
  deriving Repr

namespace Scope

def name? : Scope → Option String
  | block => none
  | type name _ => name.filter (· != "")
  | module name _ => some name
  | entry d => some d.bareName

def declaration? : Scope → Option Declaration
  | block => none
  | type _ _ => none
  | module _ d => some d
  | entry d => some d

def tags : Scope → List Tag
  | block => []
  | type _ tags => tags
  | module _ d => d.tags
  | entry d => d.tags

end Scope

/-- An open brace: its scope, and how many round and square brackets were open before it. -/
structure Frame where
  scope : Scope
  paren : Nat
  deriving Repr

inductive Head where
  | entry (name : String)
  | type (name : String)
  | implementation (start : Nat) (text : List Char)
  | module (name : String)
  deriving Repr

structure Pending where
  head : Head
  declOffset : Nat
  paren : Nat
  tags : List Tag
  braceAt : Option Nat
  deriving Repr

structure BlockState where
  closed : List Declaration := []
  stack : List Frame := []
  pending : Option Pending := none
  paren : Nat := 0
  warnings : List ScanWarning := []
  /-- Function words whose declaration is a binding: offset, name, place of the binding, tags. -/
  bound : List (Nat × String × Nat × List Tag) := []

namespace BlockState

def scopes (s : BlockState) : List Scope :=
  (s.stack.map (·.scope)).reverse

def qualify (separator : String) (scopes : List Scope) (name : String) : String :=
  separator.intercalate (scopes.filterMap Scope.name? ++ [name])

def inherited (wanted : Tag) (scopes : List Scope) : List Tag :=
  if scopes.any (·.tags.contains wanted) then [wanted] else []

def enclosingType? (s : BlockState) : Option (Option String × List Tag) :=
  match s.stack with
  | ⟨.type name tags, _⟩ :: _ => some (name, tags)
  | _ => none

def warn (s : BlockState) (cause : Imbalance) (line : Option Nat) : BlockState :=
  { s with warnings := s.warnings ++ [⟨cause, line⟩] }

def close (s : BlockState) (d : Declaration) (endOffset : Nat) : BlockState :=
  { s with closed := s.closed ++ [{ d with endOffset := endOffset }] }

def openBracket (bind : BlockState → Pending → (brace : Nat) → Scope) (s : BlockState)
    (c : Char) (start : Nat) : BlockState :=
  if c != '{' then { s with paren := s.paren + 1 }
  else
    match s.pending with
    | some p =>
        if p.paren == s.paren && p.braceAt.all (· == start) then
          { s with stack := ⟨bind s p start, p.paren⟩ :: s.stack, pending := none }
        else { s with stack := ⟨.block, s.paren⟩ :: s.stack }
    | none => { s with stack := ⟨.block, s.paren⟩ :: s.stack }

def closeBracket (lines : LineMap) (s : BlockState) (c : Char) (start : Nat) : BlockState :=
  if c != '}' then
    if s.paren == 0 then s.warn (.stray c) (some (lines.lineOf start))
    else { s with paren := s.paren - 1 }
  else
    let s := { s with pending := s.pending.filter (·.paren < s.paren) }
    match s.stack with
    | [] => s.warn (.stray '}') (some (lines.lineOf start))
    | frame :: stack =>
        let s := { s with stack := stack, paren := frame.paren }
        match frame.scope.declaration? with
        | some d => s.close d (start + 1)
        | none => s

def semicolon (s : BlockState) : BlockState :=
  { s with pending := s.pending.filter (·.paren != s.paren) }

def closeOpen (lines : LineMap) (length : Nat) (s : BlockState) : BlockState :=
  (s.stack.filterMap (·.scope.declaration?)).foldl
    (fun s d =>
      (s.warn (.unclosedBody d.qualifiedName) (some (lines.lineOf d.declOffset))).close d length) s

/-- The end of the text: what is still open is reported and closed. -/
def finish (lines : LineMap) (length : Nat) (s : BlockState) : BlockState :=
  let s := if 0 < s.paren then s.warn (.unclosedParens s.paren) none else s
  let s := if s.stack.isEmpty then s else s.warn (.unclosedBraces s.stack.length) none
  { closeOpen lines length s with stack := [] }

end BlockState

structure FileScan where
  declarations : List Declaration
  warnings : List ScanWarning

end CodeAtlas
