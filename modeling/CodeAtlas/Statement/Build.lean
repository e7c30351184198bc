import CodeAtlas.Index.Build
import CodeAtlas.Statement.Brace
import CodeAtlas.Statement.Indented

/-!
The statement tree of an index entry, and finding the entry of a function by its name.
-/

namespace CodeAtlas

/-- The statements of the body of an entry, read with the given fuel. The body of an arrow function
that is an expression is a single return. -/
def bodyStatementsWithin (fuel : Nat) (family : Family) (text : SourceText) (entry : Entry) :
    Reading (List Stmt) :=
  let start := entry.bodyOffset
  let stop := entry.endOffset
  match family with
  | .python => Indented.statements text fuel start stop
  | _ =>
      if start == 0 || text.code[start - 1]? != some '{' then
        return [.leave .returns ⟨start, stop⟩]
      else
        let stop := if start < stop && text.code[stop - 1]? == some '}' then stop - 1 else stop
        Brace.statements (family == .rust) fuel
          ⟨start, (text.code.take stop).drop start, text.source.drop start⟩

def bodyStatements (family : Family) (text : SourceText) (entry : Entry) :
    Reading (List Stmt) :=
  bodyStatementsWithin (8 * (text.code.length + 1)) family text entry

namespace SourceFile

def masked (file : SourceFile) : Except UnsupportedLanguage (Family × SourceText) := do
  let family ← file.language.family
  return (family, ⟨mask family file.text, file.text⟩)

end SourceFile

def parseStatements (file : SourceFile) (entry : Entry) :
    Except UnsupportedLanguage (List Stmt × Remarks) := do
  let (family, text) ← file.masked
  return (bodyStatements family text entry).run {}

structure FunctionNotFound where
  name : String
  path : String
  deriving Repr, DecidableEq

def FunctionNotFound.message (e : FunctionNotFound) : String :=
  "Function '" ++ e.name ++ "' not found in " ++ e.path

/-- The first entry of a file, by line and then by identity, that has the given identity, qualified
name or bare name, and how many there are. -/
def findFunction (path name : String) (entries : List Entry) :
    Except FunctionNotFound (Entry × Nat) :=
  let found := entries.filter fun e =>
    e.file == path && e.isCallable && (e.id == name || e.name == name || e.bareName == name)
  let order (a b : Entry) : Ordering :=
    (compare a.startLine b.startLine).then (compare a.id b.id)
  match sortWith order found with
  | [] => .error ⟨name, path⟩
  | e :: _ => .ok (e, found.length)

end CodeAtlas
