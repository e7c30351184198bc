import CodeAtlas.Index.Curly
import CodeAtlas.Index.Indented
import CodeAtlas.Index.Rust
import CodeAtlas.Source.Mask
import CodeAtlas.Source.Pool

/-!
The index of a list of files: all their declarations as entries, with what could not be read.
-/

namespace CodeAtlas

def scanFile (file : SourceFile) : Except UnsupportedLanguage FileScan := do
  let family ← file.language.family
  let masked := mask family file.text
  return match family with
    | .rust => Rust.declarations masked
    | .curly => Curly.declarations masked
    | .python => Python.declarations file.path masked

def fileEntries (file : SourceFile) : Except UnsupportedLanguage (List Entry) := do
  let found ← scanFile file
  return Entry.ofDeclarations file found.declarations

/-- The entries of a list of files, in order, with errors and warnings. -/
structure Index where
  entries : List Entry := []
  errors : List FileError := []
  warnings : List FileWarning := []

namespace Index

/-- The index of one file. A file whose language is not supported contributes one error. -/
def ofFile (file : SourceFile) : Index :=
  match scanFile file with
  | .ok found =>
      { entries := Entry.ofDeclarations file found.declarations
        warnings := found.warnings.map (·.inFile file.path) }
  | .error e => { errors := [⟨file.path, "scan failed: " ++ e.message⟩] }

def merge (parts : List Index) : Index :=
  { entries := sortWith Entry.compareKey (parts.flatMap (·.entries))
    errors := sortWith FileError.compareKey (parts.flatMap (·.errors))
    warnings := sortWith FileWarning.compareKey (parts.flatMap (·.warnings)) }

def ofFiles (files : List SourceFile) : Index :=
  merge (files.map ofFile)

def ofPool (pool : Pool) (files : List SourceFile) : Index :=
  merge (pool.mapFiles ofFile files)

def inFile (index : Index) (path : String) : List Entry :=
  index.entries.filter (·.file == path)

end Index

end CodeAtlas
