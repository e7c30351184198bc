import CodeAtlas.Source.Language

/-!
Source files, and what can be said about a file without a result for it.
-/

namespace CodeAtlas

structure SourceFile where
  path : String
  language : Language
  sizeBytes : Nat
  lineCount : Nat
  text : List Char
  deriving Repr, DecidableEq

namespace SourceFile

def countLines (text : List Char) : Nat :=
  let feeds := text.count '\n'
  match text.getLast? with
  | none => feeds
  | some c => if c == '\n' then feeds else feeds + 1

def ofText (path : String) (language : Language) (text : String) : SourceFile :=
  ⟨path, language, text.utf8ByteSize, countLines text.toList, text.toList⟩

end SourceFile

structure FileError where
  path : String
  message : String
  deriving Repr, DecidableEq

namespace FileError

def compareKey (a b : FileError) : Ordering :=
  (compare a.path b.path).then (compare a.message b.message)

end FileError

structure FileWarning where
  path : String
  message : String
  line : Option Int
  deriving Repr, DecidableEq

namespace FileWarning

/-- Warnings are listed by path, line and message; a warning without a line comes first. -/
def compareKey (a b : FileWarning) : Ordering :=
  ((compare a.path b.path).then (compare (a.line.getD 0) (b.line.getD 0))).then
    (compare a.message b.message)

end FileWarning

def sortWith {α : Type} (cmp : α → α → Ordering) (xs : List α) : List α :=
  xs.mergeSort fun a b => (cmp a b).isLE

end CodeAtlas
