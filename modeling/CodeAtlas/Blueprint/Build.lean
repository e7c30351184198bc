import CodeAtlas.Blueprint.Extract
import CodeAtlas.Source.Pool

/-!
The blueprint of a list of files: one node per file and one link per reference that a file writes
down.
-/

namespace CodeAtlas

structure FileNode where
  path : String
  language : Language
  sizeBytes : Nat
  lines : Nat
  deriving Repr, DecidableEq

/-- A reference of one file to another; without a target it did not resolve. -/
structure FileLink where
  source : String
  target : Option String
  written : String
  kind : LinkKind
  line : Nat
  deriving Repr, DecidableEq

namespace FileLink

def compareKey (a b : FileLink) : Ordering :=
  (((compare a.source b.source).then (compare a.kind.text b.kind.text)).then
    (compare a.written b.written)).then (compare a.line b.line)

end FileLink

structure Blueprint where
  nodes : List FileNode
  links : List FileLink
  errors : List FileError
  deriving Repr

namespace Blueprint

structure Extract where
  file : SourceFile
  family : Family
  references : List Reference
  deriving Repr

def extract (file : SourceFile) : Except FileError Extract :=
  match file.language.family, Reference.ofFile file with
  | .ok family, .ok references => .ok ⟨file, family, references⟩
  | .error e, _ => .error ⟨file.path, "extraction failed: " ++ e.message⟩
  | _, .error e => .error ⟨file.path, "extraction failed: " ++ e.message⟩

def extracts (parts : List (Except FileError Extract)) : List Extract :=
  parts.filterMap fun
    | .ok x => some x
    | .error _ => none

def complaints (parts : List (Except FileError Extract)) : List FileError :=
  parts.filterMap fun
    | .ok _ => none
    | .error e => some e

def node (file : SourceFile) : FileNode :=
  ⟨file.path, file.language, file.sizeBytes, file.lineCount⟩

def link (scope : FileScope) (x : Extract) (r : Reference) : FileLink :=
  ⟨x.file.path, scope.resolve x.file.path x.family r.kind r.written, r.written, r.kind, r.line⟩

/-- The blueprint over what was read from single files, given the source directories of the known
crates and the errors met in reading files. References are resolved once all paths are known. -/
def merge (parts : List (Except FileError Extract)) (crates : List (String × String))
    (readErrors : List FileError) : Blueprint :=
  let read := extracts parts
  let scope : FileScope := ⟨read.map (·.file.path), crates⟩
  { nodes := sortWith (fun a b => compare a.path b.path) (read.map fun x => node x.file)
    links := sortWith FileLink.compareKey (read.flatMap fun x => x.references.map (link scope x))
    errors := sortWith FileError.compareKey (readErrors ++ complaints parts) }

def ofFiles (files : List SourceFile) (crates : List (String × String))
    (readErrors : List FileError) : Blueprint :=
  merge (files.map extract) crates readErrors

def ofPool (pool : Pool) (files : List SourceFile) (crates : List (String × String))
    (readErrors : List FileError) : Blueprint :=
  merge (pool.mapFiles extract files) crates readErrors

/-- The pairs of files of which the first refers to the second. -/
def targets (b : Blueprint) : List (String × String) :=
  b.links.filterMap fun l =>
    match l.target with
    | some target => if target == "" then none else some (l.source, target)
    | none => none

end Blueprint

end CodeAtlas
