import CodeAtlas.Files.Disk
import CodeAtlas.Text.Glob

/-!
The source files below some paths.

Directories that hold no sources of their own, such as those of tools and of built results, are
skipped where a directory is walked. Files in other languages, files that a pattern ignores and
files above a size are left out without a word; a file that is no text is an error of its own.
-/

namespace CodeAtlas

def skippedDirectories : List String :=
  [".venv", "venv", "__pycache__", "node_modules", ".git", ".hg", ".svn", "site-packages", ".tox",
    ".pytest_cache", "build", "dist", "target", ".mypy_cache", ".ruff_cache", "htmlcov", ".eggs",
    ".next", "coverage"]

def isSkippedDirectory (name : String) : Bool :=
  skippedDirectories.contains name || Text.endsWith name.toList ".egg-info".toList

structure LocatedFile where
  file : SourceFile
  place : List String
  deriving Repr

/-- The source files below some paths, and what could not be read. -/
structure Collection where
  files : List LocatedFile := []
  errors : List FileError := []
  deriving Repr

structure CollectOptions where
  base : List String
  ignoreGlobs : List String := []
  maxFileKb : Int := 0

/-- A file that may be collected: its path as it was reached, its place, and its bytes. -/
structure Candidate where
  path : String
  place : List String
  bytes : List UInt8

namespace Candidate

/-- The path that reports show: from the base directory if the file is below it, else as it was
reached. -/
def shown (base : List String) (c : Candidate) : String :=
  if base.isPrefixOf c.place then Path.below "." (c.place.drop base.length) else c.path

def isTooLarge (maxFileKb : Int) (c : Candidate) : Bool :=
  maxFileKb != 0 && maxFileKb * 1024 < c.bytes.length

/-- The text of a file: a byte order mark at its start is dropped, and all line breaks are line
feeds. -/
def text (c : Candidate) : Except Utf8Fault (List Char) := do
  match ← Utf8.decode c.bytes with
  | '\uFEFF' :: rest => return Text.unifyNewlines rest
  | text => return Text.unifyNewlines text

def read (c : Candidate) (path : String) (language : Language) : Except Utf8Fault LocatedFile := do
  let text ← c.text
  return ⟨⟨path, language, c.bytes.length, SourceFile.countLines text, text⟩, c.place⟩

end Candidate

namespace Disk

def candidates (d : Disk) (path : String) :
    Except FileFault (Except FileError (List Candidate)) := do
  let path := Path.tidy path
  if ← d.hasPath path then
    let place ← d.locate path
    let found := ((d.root.at? place).map (·.walk isSkippedDirectory)).getD []
    return .ok (found.map fun (below, bytes) => ⟨Path.below path below, place ++ below, bytes⟩)
  else return .error ⟨path, "path does not exist"⟩

end Disk

namespace Collection

def add (options : CollectOptions) (c : Collection) (path : String) (candidate : Candidate) :
    Collection :=
  match Path.language? path with
  | none => c
  | some language =>
      if isIgnored options.ignoreGlobs path || candidate.isTooLarge options.maxFileKb then c
      else
        match candidate.read path language with
        | .ok file => { c with files := file :: c.files }
        | .error e => { c with errors := ⟨path, e.message⟩ :: c.errors }

/-- Take in files; of several that reports would show under one path only the first counts. -/
def addAll (options : CollectOptions) :
    (seen : List String) → Collection → List Candidate → Collection
  | _, c, [] => c
  | seen, c, candidate :: rest =>
      let path := candidate.shown options.base
      if seen.contains path then addAll options seen c rest
      else addAll options (path :: seen) (c.add options path candidate) rest

def sorted (c : Collection) : Collection :=
  { files := sortWith (fun a b => compare a.file.path b.file.path) c.files.reverse
    errors := sortWith FileError.compareKey c.errors.reverse }

end Collection

def Disk.collect (d : Disk) (options : CollectOptions) (paths : List String) :
    Except FileFault Collection := do
  let found ← paths.mapM d.candidates
  let missing := found.filterMap fun r => match r with
    | .error e => some e
    | .ok _ => none
  let candidates := found.flatMap fun r => r.toOption.getD []
  return (Collection.addAll options [] ⟨[], missing.reverse⟩ candidates).sorted

end CodeAtlas
