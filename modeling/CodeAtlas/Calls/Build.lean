import CodeAtlas.Blueprint.Build
import CodeAtlas.Calls.Degree
import CodeAtlas.Calls.Site
import CodeAtlas.Reference.CallScope

/-!
The call graph of a list of files: one node per function and one link per call site.
-/

namespace CodeAtlas

structure CallNode where
  id : String
  name : String
  kind : EntryKind
  file : String
  line : Nat
  language : Language
  deriving Repr, DecidableEq

structure CallLink where
  source : String
  target : Option String
  written : String
  line : Nat
  deriving Repr, DecidableEq

namespace CallLink

def compareKey (a b : CallLink) : Ordering :=
  (((compare a.source b.source).then (compare a.line b.line)).then
    (compare a.written b.written)).then (compare (a.target.getD "") (b.target.getD ""))

def call (l : CallLink) : Call :=
  ⟨l.source, l.target, l.target.isSome⟩

end CallLink

structure CallOptions where
  maxCallsPerFunction : Int := 200
  resolvedOnly : Bool := false
  hubCount : Int := 10
  deriving Repr, DecidableEq

structure CallGraph where
  nodes : List CallNode
  allLinks : List CallLink
  links : List CallLink
  filesScanned : Nat
  truncatedFunctions : Nat
  degrees : DegreeTable
  classes : DegreeClasses
  errors : List FileError
  warnings : List FileWarning
  deriving Repr

structure CallLimitTooLow where
  deriving Repr, DecidableEq

namespace CallLimitTooLow

def message (_ : CallLimitTooLow) : String :=
  "max_calls_per_function must be >= 1"

end CallLimitTooLow

inductive CallFault where
  | limit (fault : CallLimitTooLow)
  | language (fault : UnsupportedLanguage)
  deriving Repr, DecidableEq

namespace CallGraph

def node (e : Entry) : CallNode :=
  ⟨e.id, e.name, e.kind, e.file, e.startLine, e.language⟩

def fileSites (file : SourceFile) (entries : List Entry) :
    Except UnsupportedLanguage (List (Entry × List CallSite)) := do
  let masked := mask (← file.language.family) file.text
  let lines := LineMap.ofText file.text
  (entries.filter (·.isCallable)).mapM fun e => do
    return (e, CallSite.ofEntry (← e.language.family) e masked lines entries)

def fileAt? (files : List SourceFile) (path : String) : Option SourceFile :=
  files.reverse.find? (·.path == path)

def sitesAt (files : List SourceFile) (entries : List Entry) (path : String) :
    Except UnsupportedLanguage (List (Entry × List CallSite)) :=
  match fileAt? files path with
  | some file => fileSites file (entries.filter (·.file == path))
  | none => .ok []

def sites (files : List SourceFile) (entries : List Entry) :
    Except UnsupportedLanguage (List (Entry × List CallSite)) :=
  return (← (sortedDistinct (entries.map (·.file))).mapM (sitesAt files entries)).flatten

/-- The entries that are nodes of the graph: the callable ones whose file is there. -/
def functions (files : List SourceFile) (entries : List Entry) : List Entry :=
  entries.filter fun e => e.isCallable && (fileAt? files e.file).isSome

def scope (files : List SourceFile) (entries : List Entry) (blueprint : Blueprint) : CallScope :=
  ⟨functions files entries, blueprint.targets⟩

def linksOf (scope : CallScope) (limit : Int) (e : Entry) (found : List CallSite) :
    List CallLink :=
  (found.take limit.toNat).map fun site =>
    ⟨e.id, scope.resolve e site.written, site.written, site.line⟩

def dropRepeats {α : Type} [DecidableEq α] : List α → List α
  | a :: b :: rest => if a = b then dropRepeats (b :: rest) else a :: dropRepeats (b :: rest)
  | rest => rest

def ofSites (files : List SourceFile) (entries : List Entry) (options : CallOptions)
    (readErrors : List FileError) (warnings : List FileWarning) (blueprint : Blueprint)
    (found : List (Entry × List CallSite)) : CallGraph :=
  let scope := scope files entries blueprint
  let allLinks := sortWith CallLink.compareKey
    (found.flatMap fun (e, calls) => linksOf scope options.maxCallsPerFunction e calls)
  let nodes := sortWith (fun a b => compare a.id b.id) ((functions files entries).map node)
  let degrees := DegreeTable.ofCalls (nodes.map (·.id)) (allLinks.map (·.call))
  { nodes := nodes
    allLinks := allLinks
    links := if options.resolvedOnly then allLinks.filter (·.target.isSome) else allLinks
    filesScanned := files.length
    truncatedFunctions :=
      found.countP fun (_, calls) => options.maxCallsPerFunction < calls.length
    degrees := degrees
    classes := DegreeClasses.ofTable degrees options.hubCount
    errors := dropRepeats (sortWith FileError.compareKey (readErrors ++ blueprint.errors))
    warnings := sortWith FileWarning.compareKey warnings }

def build (files : List SourceFile) (entries : List Entry) (options : CallOptions)
    (readErrors : List FileError) (warnings : List FileWarning) (blueprint : Blueprint) :
    Except CallFault CallGraph :=
  if options.maxCallsPerFunction < 1 then .error (.limit {})
  else
    match sites files entries with
    | .ok found => .ok (ofSites files entries options readErrors warnings blueprint found)
    | .error fault => .error (.language fault)

end CallGraph

end CodeAtlas
