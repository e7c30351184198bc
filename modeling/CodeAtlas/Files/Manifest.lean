import CodeAtlas.Files.Collect
import CodeAtlas.Source.Module
import CodeAtlas.Toml.Document

/-!
The crates of a workspace.

A crate's manifest stands beside its source directory and gives its name, with hyphens for the
underscores of the name in sources. A manifest that is missing or malformed names no crate.
-/

namespace CodeAtlas

inductive ManifestFault where
  | notText
  | notTable
  | badToml (fault : Toml.Fault)
  | aboveRoot
  deriving Repr, DecidableEq

namespace Manifest

def slashes (path : String) : Nat :=
  path.toList.count '/'

/-- The place of the manifest beside a source directory that a file lies in, unless the directory
would stand above the root. The slashes after the directory in the file's path count how far it
stands above the file. -/
def place? (f : LocatedFile) (source : String) : Option (List String) :=
  let above := slashes f.file.path - slashes source
  if f.place.length < above then none
  else some (f.place.take (f.place.length - above - 1) ++ ["Cargo.toml"])

/-- The source directory of the crate that a file belongs to and the place of the crate's manifest,
if the directory is named like one. -/
def ofFile? (f : LocatedFile) : Option (String × Option (List String)) :=
  let source := Rust.crateSource f.file.path
  if f.file.language != .rust || !Text.endsWith source.toList "src".toList then none
  else some (source, place? f source)

def crateName (name : String) : String :=
  String.ofList (name.toList.map fun c => if c == '-' then '_' else c)

def nameIn (root : Value) (heading : String) : Except ManifestFault (Option String) :=
  match root.get? heading with
  | none => .ok none
  | some (.mapping pairs) =>
      match (Value.mapping pairs).get? "name" with
      | some (.plain (.str name)) => .ok (some (crateName name))
      | _ => .ok none
  | some _ => .error .notTable

def names (bytes : List UInt8) : Except ManifestFault (List String) := do
  let text ← (Utf8.decode bytes).mapError fun _ => .notText
  match Toml.document (Text.unifyNewlines text) with
  | .ok root => return (← ["package", "lib"].mapM (nameIn root)).filterMap id
  | .error .malformed => return []
  | .error fault => throw (.badToml fault)

def namesAt (d : Disk) (place : List String) : Except ManifestFault (List String) :=
  match d.root.at? place with
  | some (.file bytes) => names bytes
  | _ => .ok []

/-- The crates of source directories with the places of their manifests. A later crate takes a name
over from an earlier one. -/
def crates (d : Disk) : List (String × Option (List String)) →
    Except ManifestFault (List (String × String))
  | [] => .ok []
  | (_, none) :: _ => .error .aboveRoot
  | (source, some place) :: rest => do
      let here ← namesAt d place
      let later ← crates d rest
      return later ++ here.map fun name => (name, source)

end Manifest

def Manifest.firstPlaces : (seen : List String) → List (String × Option (List String)) →
    List (String × Option (List String))
  | _, [] => []
  | seen, (source, place) :: rest =>
      if seen.contains source then firstPlaces seen rest
      else (source, place) :: firstPlaces (source :: seen) rest

def Disk.crates (d : Disk) (files : List LocatedFile) :
    Except ManifestFault (List (String × String)) :=
  Manifest.crates d (Manifest.firstPlaces [] (files.filterMap Manifest.ofFile?))

end CodeAtlas
