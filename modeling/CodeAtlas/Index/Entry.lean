import CodeAtlas.Source.File
import CodeAtlas.Text.Lines

/-!
Declarations and index entries.

A declaration is what a scan of one file finds: a function, a method or an inline module with its
extent in the text. An entry is a declaration with an identity: the file, the qualified name, and
the line where the qualified name alone is not unique in the file.
-/

namespace CodeAtlas

inductive EntryKind where
  | function
  | method
  | module
  deriving Repr, DecidableEq

namespace EntryKind

def text : EntryKind → String
  | function => "function"
  | method => "method"
  | module => "module"

end EntryKind

/-- A remark on a declaration that later analyses go by. -/
inductive Tag where
  | test
  | pub
  | async
  | traitImpl
  | trait
  | exported
  | abstract
  | classBody
  | interfaceBody
  | constructor
  | decorated
  | decorator (name : String)
  deriving Repr, DecidableEq

namespace Tag

def text : Tag → String
  | test => "test"
  | pub => "pub"
  | async => "async"
  | traitImpl => "trait-impl"
  | trait => "trait"
  | exported => "exported"
  | abstract => "abstract"
  | classBody => "class"
  | interfaceBody => "interface"
  | constructor => "constructor"
  | decorated => "decorated"
  | decorator name => "decorator:" ++ name

end Tag

/-- A declaration found in one file. The body starts just past its opening brace or colon. -/
structure Declaration where
  qualifiedName : String
  bareName : String
  kind : EntryKind
  container : Option String
  declOffset : Nat
  bodyOffset : Nat
  endOffset : Nat
  tags : List Tag
  deriving Repr, DecidableEq

structure Entry where
  id : String
  name : String
  bareName : String
  kind : EntryKind
  file : String
  startLine : Nat
  endLine : Nat
  language : Language
  container : Option String
  declOffset : Nat
  bodyOffset : Nat
  endOffset : Nat
  tags : List Tag
  deriving Repr, DecidableEq

namespace Entry

def compareKey (a b : Entry) : Ordering :=
  ((compare a.file b.file).then (compare a.startLine b.startLine)).then (compare a.name b.name)

/-- The identity of a declaration: its line is part of it where another declaration of the file has
the same qualified name. -/
def identify (file : SourceFile) (shared : Bool) (startLine : Nat) (d : Declaration) : String :=
  let id := file.path ++ "::" ++ d.qualifiedName
  if shared then id ++ "@" ++ toString startLine else id

def ofDeclaration (file : SourceFile) (lines : LineMap) (ds : List Declaration)
    (d : Declaration) : Entry :=
  let startLine := lines.lineOf d.declOffset
  let endLine := lines.lineOf (max d.declOffset (d.endOffset - 1) : Nat)
  let shared := 1 < ds.countP (·.qualifiedName == d.qualifiedName)
  { id := identify file shared startLine d
    name := d.qualifiedName
    bareName := d.bareName
    kind := d.kind
    file := file.path
    startLine := startLine
    endLine := max startLine endLine
    language := file.language
    container := d.container
    declOffset := d.declOffset
    bodyOffset := d.bodyOffset
    endOffset := d.endOffset
    tags := d.tags }

def ofDeclarations (file : SourceFile) (ds : List Declaration) : List Entry :=
  sortWith compareKey (ds.map (ofDeclaration file (LineMap.ofText file.text) ds))

def isCallable (e : Entry) : Bool :=
  e.kind != .module

end Entry

inductive Imbalance where
  | stray (closer : Char)
  | unclosedParens (count : Nat)
  | unclosedBraces (count : Nat)
  | unclosedBody (name : String)
  | unclosedBrackets (count : Nat)
  | strayClosers
  deriving Repr, DecidableEq

namespace Imbalance

def message : Imbalance → String
  | stray closer => "unbalanced '" ++ closer.toString ++ "'"
  | unclosedParens count => toString count ++ " unclosed '(' or '['"
  | unclosedBraces count => toString count ++ " unclosed '\x7b'"
  | unclosedBody name => "unclosed body for '" ++ name ++ "'"
  | unclosedBrackets count => toString count ++ " unclosed bracket(s)"
  | strayClosers => "unbalanced closing bracket"

end Imbalance

structure ScanWarning where
  cause : Imbalance
  line : Option Nat
  deriving Repr, DecidableEq

def ScanWarning.inFile (path : String) (w : ScanWarning) : FileWarning :=
  ⟨path, w.cause.message, w.line.map Int.ofNat⟩

end CodeAtlas
