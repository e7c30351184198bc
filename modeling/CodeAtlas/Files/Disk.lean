import CodeAtlas.Files.Tree
import CodeAtlas.Source.Path
import CodeAtlas.Text.Utf8

/-!
The files that a program sees, and the directory that it runs in.

Paths are texts: a path that does not start with a slash is seen from the working directory. A path
is followed name by name, and each name before the last has to be that of a directory, also where
the next step leads up again.
-/

namespace CodeAtlas

namespace Path

/-- The components of a path, without empty ones and those that stand for the directory itself. -/
def parts (path : String) : List String :=
  (components path).filter fun part => part != "" && part != "."

def isAbsolute (path : String) : Bool :=
  rootSlashes path != ""

/-- A path without empty components and those that stand for the directory itself; steps up are
kept. -/
def tidy (path : String) : String :=
  let text := rootSlashes path ++ "/".intercalate (parts path)
  if text == "" then "." else text

def below (path : String) (place : List String) : String :=
  let rest := "/".intercalate place
  if path == "." then rest else if rest == "" then path else join path rest

end Path

structure Disk where
  root : FileTree
  home : List String
  deriving Repr

namespace Disk

def empty (home : List String) : Disk :=
  ⟨(FileTree.directory []).makeDirectory home, home⟩

def place (d : Disk) (path : String) : List String :=
  let start := if Path.isAbsolute path then [] else d.home
  Path.normalComponents true (start ++ Path.parts path)

def maxNameBytes : Nat := 255

def pathBytes : Nat := 4096

def start (d : Disk) (path : String) : Except FileFault (List String × List String) :=
  if path.toList.contains '\x00' then .error .hasNull
  else if pathBytes ≤ (Path.tidy path).utf8ByteSize then .error .tooLong
  else .ok (if Path.isAbsolute path then [] else d.home, Path.parts path)

def childrenFor (d : Disk) (place : List String) (name : String) :
    Except FileFault (List (String × FileTree)) :=
  match d.root.at? place with
  | some (.directory children) =>
      if maxNameBytes < name.utf8ByteSize then .error .tooLong else .ok children
  | some (.file _) => .error .notDirectory
  | none => .error .missing

def step (d : Disk) (place : List String) (name : String) : Except FileFault (List String) := do
  let children ← d.childrenFor place name
  if name == ".." then return place.dropLast
  else if (children.lookup name).isSome then return place ++ [name]
  else throw .missing

def locate (d : Disk) (path : String) : Except FileFault (List String) := do
  let (home, names) ← d.start path
  names.foldlM d.step home

def locate? (d : Disk) (path : String) : Option (List String) := (d.locate path).toOption

def find? (d : Disk) (path : String) : Option FileTree :=
  (d.locate? path).bind d.root.at?

def hasPath (d : Disk) (path : String) : Except FileFault Bool :=
  match d.locate path with
  | .ok _ => .ok true
  | .error .tooLong => .error .tooLong
  | .error _ => .ok false

def read (d : Disk) (path : String) : Except FileFault (List UInt8) := do
  match d.root.at? (← d.locate path) with
  | some (.file bytes) => return bytes
  | some (.directory _) => throw .isDirectory
  | none => throw .missing

def write (d : Disk) (path : String) (bytes : List UInt8) : Except FileFault Disk := do
  let (home, names) ← d.start path
  match names.getLast? with
  | none => throw .isDirectory
  | some name =>
      let place ← names.dropLast.foldlM d.step home
      let children ← d.childrenFor place name
      if name == ".." || (children.lookup name).any (·.isDirectory) then throw .isDirectory
      return { d with root := .graft (.file bytes) d.root (place ++ [name]) }

def addDirectory (d : Disk) (place : List String) (name : String) : Except FileFault Disk := do
  let children ← d.childrenFor place name
  match if name == ".." then some d.root else children.lookup name with
  | some (.directory _) => return d
  | some (.file _) => throw .occupied
  | none => return { d with root := .graft (.directory []) d.root (place ++ [name]) }

def addDirectories (d : Disk) (home : List String) : (names : List String) → Except FileFault Disk
  | [] => .ok d
  | name :: up =>
      match up.reverse.foldlM d.step home with
      | .ok place => d.addDirectory place name
      | .error .missing => do
          let d ← d.addDirectories home up
          d.addDirectory (← up.reverse.foldlM d.step home) name
      | .error fault => .error fault

def writeDeep (d : Disk) (path : String) (bytes : List UInt8) : Except FileFault Disk := do
  let (home, names) ← d.start path
  (← d.addDirectories home names.dropLast.reverse).write path bytes

def remove (d : Disk) (path : String) : Except FileFault Disk := do
  return { d with root := ← d.root.remove (← d.locate path) }

def changesSince (before after : Disk) : List FileTree.Below :=
  after.root.files.filter fun (place, bytes) =>
    match before.root.at? place with
    | some (.file old) => old != bytes
    | _ => true

/-- The path of a place as the program's user would write it: seen from the working directory, if it
is below it. -/
def pathOf (d : Disk) (place : List String) : String :=
  if d.home.isPrefixOf place then "/".intercalate (place.drop d.home.length)
  else "/" ++ "/".intercalate place

end Disk

/-! ### Text files -/

inductive TextFault where
  | unreadable (fault : FileFault)
  | notText (fault : Utf8Fault)
  deriving Repr, DecidableEq

def Disk.readText (d : Disk) (path : String) : Except TextFault (List Char) := do
  let bytes ← (d.read path).mapError .unreadable
  let text ← (Utf8.decode bytes).mapError .notText
  return Text.unifyNewlines text

end CodeAtlas
