import CodeAtlas.Audit.AbstractType
import CodeAtlas.Audit.Body
import CodeAtlas.Audit.Chain

/-!
The audit: what stands out in the functions and calls of a set of files.
-/

namespace CodeAtlas

namespace AuditScope

def fileOf? (s : AuditScope) (e : Entry) : Option AuditFile :=
  s.fileAt? e.file

def finding (category : FindingCategory) (severity : Severity) (confidence : Confidence) (e : Entry)
    (message : String) (evidence : List String) (suggestion : String) : Finding :=
  { category := category, severity := severity, confidence := confidence, message := message
    file := e.file, line := e.startLine, symbol := e.id, language := e.language
    evidence := evidence, chain := [], suggestion := suggestion }

/-! ### Wrapper chains -/

/-- The function that a forwarded call reaches: the only one that the wrapper's calls resolve to, or
else the only other function of its file with the called name. -/
def forwardTarget? (s : AuditScope) (e : Entry) (path : String) : Option String :=
  match s.targets e.id with
  | [target] => some target
  | _ =>
      let name := Callee.lastSegment path.toList
      sole? ((s.functions.filter fun f =>
        f.file == e.file && f.bareName.toList == name && f.id != e.id).map (·.id))

def wrappers (s : AuditScope) : List Wrapper :=
  s.functions.filterMap fun e => do
    let file ← s.fileOf? e
    let path ← file.forwardedCall? e
    return ⟨e.id, path, s.forwardTarget? e path⟩

def chainFinding? (s : AuditScope) (wrappers : List Wrapper) (chain : List String) :
    Option Finding := do
  let e ← chain.head? >>= s.byId?
  let names := chain.map s.nameOf
  let isKnown := (chain.getLast? >>= s.byId?).isSome
  let evidence := (chain.filter fun id => (Wrapper.find? wrappers id).isSome).map fun id =>
    s.nameOf id ++ " forwards its parameters unchanged"
  return { finding .passThrough .info (if isKnown then .high else .medium) e
      ("Pass-through wrapper chain length " ++ toString (chain.length - 1) ++ ": "
        ++ " -> ".intercalate names)
      evidence ("Call " ++ names.getLastD "" ++ " directly and remove the wrapper") with
    chain := chain }

def passThrough (s : AuditScope) : List Finding :=
  let wrappers := s.wrappers
  (Wrapper.chains wrappers).filterMap (s.chainFinding? wrappers)

/-! ### Lonely abstractions -/

def lonelyFunction? (s : AuditScope) (e : Entry) : Option Finding := do
  let file ← s.fileOf? e
  let body := if file.family == .python then some e.bodyOffset else none
  match s.resolvedCallers e, s.namedCallers e with
  | [], [caller] =>
      if isEntryPoint e || Marker.isAllowed file.file.text e.declOffset body then none
      else
        let name := s.nameOf caller
        let isUnique := s.functions.countP (·.bareName == e.bareName) == 1
        some (finding .lonelyAbstraction .info (if isUnique then .medium else .low) e
          ("'" ++ e.name ++ "' has no resolved callers and a single call site (" ++ name ++ ")")
          ["call sites: 0 resolved, 1 unresolved by name from " ++ name]
          ("Consider inlining " ++ e.name ++ " into its only caller"))
  | _, _ => none

def lonelyType? (s : AuditScope) (t : AbstractType) : Option Finding := do
  let file ← s.fileAt? t.path
  let toColon := ((file.masked.drop t.offset).takeWhile (· != ':')).length
  let body := if file.family == .python then some (t.offset + toColon + 1) else none
  if 1 < t.implementations || Marker.isAllowed file.file.text t.offset body then none
  else
    let count := toString t.implementations
    some
      { category := .lonelyAbstraction, severity := .info
        confidence := if t.implementations == 1 then .medium else .low
        message := "Abstract type '" ++ t.name ++ "' has " ++ count ++ " implementation(s)"
        file := t.path, line := (file.masked.take t.offset).count '\n' + 1, symbol := t.name
        language := file.file.language, evidence := ["implementations found: " ++ count],
        chain := []
        suggestion := "Use the concrete type directly instead of " ++ t.name }

def abstractTypes (s : AuditScope) : List (Family × List AbstractType) :=
  [Family.curly, .python, .rust].map fun family => (family, AbstractType.ofFamily s.files family)

def lonelyAbstractions (s : AuditScope) : List Finding :=
  s.functions.filterMap s.lonelyFunction?
    ++ (s.abstractTypes.flatMap (·.2)).filterMap s.lonelyType?

/-! ### Orphans -/

def orphan? (s : AuditScope) (e : Entry) : Option Finding :=
  if isEntryPoint e || !(s.resolvedCallers e).isEmpty || !(s.namedCallers e).isEmpty then none
  else
    let count := s.occurrences e.bareName
    let confidence : Confidence :=
      if e.language == .rust && e.tags.contains .pub then .low
      else if 1 < count then .medium
      else .high
    some (finding .orphan (if confidence == .high then .warning else .info) confidence e
      ("'" ++ e.name ++ "' has no callers in the scanned files")
      ["'" ++ e.bareName ++ "' appears " ++ toString count ++ " time(s) as an identifier"]
      ("Remove " ++ e.name ++ " or wire it into a caller"))

/-! ### Placeholders -/

def bodilessDecorators : List String :=
  ["abstractmethod", "overload", "abstractproperty", "abstractclassmethod", "abstractstaticmethod"]

def isBodiless (s : AuditScope) (e : Entry) : Bool :=
  let decorated := e.tags.any fun tag =>
    match tag with
    | .decorator name =>
        bodilessDecorators.contains
          (String.ofList ((Text.splitBy (· == '.') name.toList).getLastD []))
    | _ => false
  let inAbstractType := match e.container, e.language.family? with
    | some container, some family =>
        container != "" && s.abstractTypes.any fun (f, types) =>
          f == family && types.any (·.name == container)
    | _, _ => false
  decorated || e.tags.contains .constructor || e.tags.contains .abstract
    || Text.endsWith e.file.toList ".pyi".toList || inAbstractType

def placeholder? (s : AuditScope) (e : Entry) : Option Finding := do
  let file ← s.fileOf? e
  let (evidence, confidence) ← file.placeholder? e
  if s.isBodiless e then none
  else
    some (finding .placeholder .warning confidence e ("'" ++ e.name ++ "' has a placeholder body")
      [evidence] ("Implement " ++ e.name ++ " or remove it"))

/-! ### All findings -/

def findings (s : AuditScope) : List Finding :=
  sortWith Finding.compareKey
    (s.passThrough ++ s.lonelyAbstractions ++ s.functions.filterMap s.orphan?
      ++ s.functions.filterMap s.placeholder?)

end AuditScope

structure Audit where
  filesScanned : Nat
  findings : List Finding
  deriving Repr

namespace Audit

def ofFiles (files : List SourceFile) (entries : List Entry) (graph : CallGraph) :
    Except UnsupportedLanguage Audit := do
  let scope ← AuditScope.ofFiles files entries graph.links
  return ⟨files.length, scope.findings⟩

end Audit

end CodeAtlas
