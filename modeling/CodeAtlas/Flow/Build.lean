import CodeAtlas.Flow.Diagram
import CodeAtlas.Flow.ExitPath
import CodeAtlas.Flow.Lower
import CodeAtlas.Statement.Build

/-!
The flow graph of an indexed function.
-/

namespace CodeAtlas

structure FunctionFlow where
  functionId : String
  name : String
  file : String
  language : Language
  startLine : Nat
  graph : FlowGraph
  exitPaths : List ExitPath
  exitPathsTruncated : Bool
  warnings : List FileWarning
  diagram : Option String
  stuck : Bool

namespace FunctionFlow

def compareWarnings (a b : FileWarning) : Ordering :=
  (compare (a.line.getD 0) (b.line.getD 0)).then (compare a.message b.message)

def ofEntry (file : SourceFile) (entry : Entry) (withDiagram : Bool) :
    Except UnsupportedLanguage FunctionFlow := do
  let (stmts, remarks) ← parseStatements file entry
  let lines := LineMap.ofText file.text
  let last := max entry.declOffset (entry.endOffset - 1)
  let (graph, lowered) := lowerBody ⟨file.text, lines⟩ entry.name entry.declOffset last stmts
  let (paths, truncated) := graph.exitPaths FlowGraph.maxExitPaths
  let warnings := (remarks.warnings ++ lowered).map fun (offset, w) =>
    (⟨file.path, w.message, some (lines.lineOf offset)⟩ : FileWarning)
  return {
    functionId := entry.id
    name := entry.name
    file := file.path
    language := file.language
    startLine := entry.startLine
    graph := graph
    exitPaths := paths
    exitPathsTruncated := truncated
    warnings := sortWith compareWarnings warnings
    diagram := if withDiagram then some graph.diagram else none
    stuck := remarks.stuck }

end FunctionFlow

inductive FlowError where
  | notFound (e : FunctionNotFound)
  | unsupported (e : UnsupportedLanguage)
  deriving Repr, DecidableEq

def FlowError.message : FlowError → String
  | notFound e => e.message
  | unsupported e => e.message

/-- The flow graph of the function of `file` with the given name. When several functions have it,
the first one is taken and a warning says so. -/
def FunctionFlow.ofName (file : SourceFile) (name : String) (entries : List Entry)
    (withDiagram : Bool) : Except FlowError FunctionFlow := do
  let (entry, count) ← (findFunction file.path name entries).mapError FlowError.notFound
  let flow ← (ofEntry file entry withDiagram).mapError FlowError.unsupported
  if 1 < count then
    let w := FlowWarning.severalMatches name count entry.startLine
    return { flow with
      warnings := ⟨file.path, w.message, some entry.startLine⟩ :: flow.warnings }
  else return flow

end CodeAtlas
