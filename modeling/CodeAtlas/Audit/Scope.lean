import CodeAtlas.Calls.Build

/-!
What an audit looks at: masked files, functions in order, and the calls between them.
-/

namespace CodeAtlas

structure AuditFile where
  file : SourceFile
  family : Family
  masked : List Char

structure AuditScope where
  files : List AuditFile
  functions : List Entry
  calls : List CallLink

namespace AuditScope

def readFile (file : SourceFile) : Except UnsupportedLanguage AuditFile := do
  let family ← file.language.family
  return ⟨file, family, mask family file.text⟩

def lastByPath : List AuditFile → List AuditFile
  | [] => []
  | f :: fs =>
      if fs.any (·.file.path == f.file.path) then lastByPath fs else f :: lastByPath fs

def ofFiles (files : List SourceFile) (entries : List Entry) (calls : List CallLink) :
    Except UnsupportedLanguage AuditScope := do
  let read ← files.mapM readFile
  let files := sortWith (fun a b => compare a.file.path b.file.path) (lastByPath read)
  let functions := entries.filter fun e => e.isCallable && files.any (·.file.path == e.file)
  return ⟨files, sortWith Entry.compareKey functions, calls⟩

def fileAt? (s : AuditScope) (path : String) : Option AuditFile :=
  s.files.find? (·.file.path == path)

/-- The function with an identity; of several the last one. -/
def byId? (s : AuditScope) (id : String) : Option Entry :=
  s.functions.reverse.find? (·.id == id)

def nameOf (s : AuditScope) (id : String) : String :=
  match s.byId? id with
  | some e => e.name
  | none => id

def resolvedCallers (s : AuditScope) (e : Entry) : List String :=
  (s.calls.filter fun l => l.target == some e.id && l.source != e.id).map (·.source)

/-- The other functions with a call that did not resolve and that ends in the name of a function,
with repetitions. -/
def namedCallers (s : AuditScope) (e : Entry) : List String :=
  (s.calls.filter fun l =>
    l.target.isNone && Callee.lastSegment l.written.toList == e.bareName.toList
      && l.source != e.id).map (·.source)

def targets (s : AuditScope) (id : String) : List String :=
  (s.calls.filterMap fun l =>
    match l.target with
    | some target => if l.source == id && target != "" then some target else none
    | none => none).eraseDups

def readName (_ cs : List Char) : Option (List Char × Nat) :=
  (Text.dollarName? cs).map fun (name, _) => (name, name.length)

def occurrences (s : AuditScope) (name : String) : Nat :=
  s.files.foldl
    (fun count f => count + (Mark.scan readName f.masked).countP (·.kind == name.toList)) 0

/-- Is a function called from outside of what is scanned: by a runtime, a test runner, or users of
an export? -/
def isEntryPoint (e : Entry) : Bool :=
  let name := e.bareName.toList
  e.bareName == "main"
    || (Text.startsWith name ['_', '_'] && Text.endsWith name ['_', '_'])
    || [Tag.test, .constructor, .traitImpl, .exported, .decorated].any e.tags.contains
    || Text.endsWith e.file.toList ".pyi".toList

end AuditScope

end CodeAtlas
