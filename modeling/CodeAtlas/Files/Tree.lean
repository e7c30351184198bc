import CodeAtlas.Source.File

/-!
Trees of files.

Directories hold files and other directories by name. A place in a tree is the list of names that
leads to it from the top.
-/

namespace CodeAtlas

inductive FileTree where
  | file (bytes : List UInt8)
  | directory (children : List (String × FileTree))
  deriving Repr, Inhabited

inductive FileFault where
  | missing
  | isDirectory
  | notDirectory
  | occupied
  | tooLong
  | hasNull
  deriving Repr, DecidableEq

namespace FileTree

def isDirectory : FileTree → Bool
  | directory _ => true
  | file _ => false

def child? (t : FileTree) (name : String) : Option FileTree :=
  match t with
  | directory children => children.lookup name
  | file _ => none

def at? (t : FileTree) : (place : List String) → Option FileTree
  | [] => some t
  | name :: rest => (t.child? name).bind (·.at? rest)

def setChild (name : String) (tree : FileTree) : List (String × FileTree) → List (String × FileTree)
  | [] => [(name, tree)]
  | (n, t) :: rest => if n == name then (n, tree) :: rest else (n, t) :: setChild name tree rest

def makeDirectory (t : FileTree) : (place : List String) → FileTree
  | [] => t
  | name :: rest =>
      match t with
      | file _ => t
      | directory children =>
          let inner := (children.lookup name).getD (directory [])
          directory (setChild name (inner.makeDirectory rest) children)

/-- Put a tree at a place and make the directories that lead to it; what was there is replaced. -/
def graft (tree : FileTree) (t : FileTree) : (place : List String) → FileTree
  | [] => tree
  | name :: rest =>
      match t with
      | file _ => t
      | directory children =>
          let inner := (children.lookup name).getD (directory [])
          directory (setChild name (graft tree inner rest) children)

def remove (t : FileTree) : (place : List String) → Except FileFault FileTree
  | [] => .error .isDirectory
  | [name] =>
      match t with
      | file _ => .error .notDirectory
      | directory children =>
          match children.lookup name with
          | some (file _) => .ok (directory (children.filter (·.1 != name)))
          | some (directory _) => .error .isDirectory
          | none => .error .missing
  | name :: next :: rest =>
      match t with
      | file _ => .error .notDirectory
      | directory children =>
          match children.lookup name with
          | some inner => do
              return directory (setChild name (← inner.remove (next :: rest)) children)
          | none => .error .missing

/-! ### Walking -/

/-- A file below a directory: where it is, seen from there, and its bytes. -/
abbrev Below := List String × List UInt8

mutual

/-- The files of a tree, without those in directories whose name is skipped. In each directory the
files come first, then the directories, both by name. -/
def walk (isSkipped : String → Bool) : FileTree → List Below
  | file bytes => [([], bytes)]
  | directory children =>
      let found := sortWith (fun a b => compare a.1 b.1) (walkChildren isSkipped children)
      let (inside, here) := found.partition (·.2.1)
      (here ++ inside).flatMap fun (name, _, files) =>
        files.map fun (place, bytes) => (name :: place, bytes)

def walkChildren (isSkipped : String → Bool) :
    List (String × FileTree) → List (String × Bool × List Below)
  | [] => []
  | (name, t) :: rest =>
      let files := if t.isDirectory && isSkipped name then [] else walk isSkipped t
      (name, t.isDirectory, files) :: walkChildren isSkipped rest

end

def files (t : FileTree) : List Below :=
  t.walk fun _ => false

end FileTree

end CodeAtlas
