import CodeAtlas.Source.Path
import CodeAtlas.Text.Identifier

/-!
Modules by path: the module that a file is, and the directories that its submodules live in.
-/

namespace CodeAtlas

namespace Path

/-- The name of a file without its directory and extension. -/
def stem (path : String) : String :=
  (splitExtension (baseName path)).1

/-- The short name of the module that a file is. A file that stands for its directory takes the
directory's name, if there is one. -/
def moduleStem (path : String) : String :=
  let name := stem path
  if ["mod", "__init__", "index", "lib", "main"].contains name then
    let parent := baseName (directory path)
    if parent == "" then name else parent
  else name

end Path

namespace Python

def moduleName? (path : String) : Option String :=
  let (body, extension) := Path.splitExtension path
  if extension == ".py" || extension == ".pyi" then
    let parts := (Path.components body).filter (· != "")
    let parts := if parts.getLast? == some "__init__" then parts.dropLast else parts
    if parts.isEmpty || !parts.all (fun part => isIdentifier part.toList) then none
    else some (".".intercalate parts)
  else none

end Python

namespace Rust

def isDirectoryModule (stem : String) : Bool :=
  stem == "mod" || stem == "lib" || stem == "main"

def moduleDirectory (path : String) : String :=
  let head := Path.directory path
  let stem := Path.stem path
  if isDirectoryModule stem then head
  else if head == "" then stem
  else Path.join head stem

/-- The source directory of the crate that a file belongs to: up to the first component `src`, or
the file's own directory where there is none. -/
def crateSource (path : String) : String :=
  let directories := (Path.components path).dropLast
  if directories.contains "src" then
    "/".intercalate (directories.takeWhile (· != "src") ++ ["src"])
  else Path.directory path

end Rust

end CodeAtlas
