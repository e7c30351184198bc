import CodeAtlas.Index.Entry
import CodeAtlas.Reference.Callee
import CodeAtlas.Reference.FileScope

/-!
References between functions.

The candidates for a call come in tiers by what the call is made on. The first tier that holds
anything decides, and the call resolves only when that tier holds one identity.
-/

namespace CodeAtlas

inductive CallTier where
  | own
  | qualified
  | receiverLocal
  | receiverVisible
  | parent
  | bareLocal
  | bareVisible
  deriving Repr, DecidableEq

namespace CallTier

def text : CallTier → String
  | own => "self"
  | qualified => "qualified"
  | receiverLocal => "receiver-local"
  | receiverVisible => "receiver-visible"
  | parent => "super"
  | bareLocal => "bare-local"
  | bareVisible => "bare-visible"

end CallTier

/-- The entries that a call may point at, and which file sees which: pairs of a file and a file
that it refers to. -/
structure CallScope where
  entries : List Entry
  links : List (String × String)
  deriving Repr

namespace CallScope

def sees (scope : CallScope) (source target : String) : Bool :=
  source == target || scope.links.contains (source, target)

def callables (scope : CallScope) (name : String) : List Entry :=
  scope.entries.filter fun e => e.bareName == name && e.isCallable

def inModule (qualifier : String) (e : Entry) : Bool :=
  let sep := if e.language == .rust then "::" else "."
  Path.moduleStem e.file == qualifier
    || Text.startsWith e.name.toList (qualifier ++ sep).toList
    || Text.contains e.name.toList (sep ++ qualifier ++ sep).toList

def anyMethod (scope : CallScope) (caller : Entry) (name : String) : CallTier × List Entry :=
  let methods := (scope.callables name).filter fun e => e.kind == .method && e.id != caller.id
  let inFile := methods.filter (·.file == caller.file)
  if inFile.isEmpty then
    (.receiverVisible, methods.filter fun e => scope.sees caller.file e.file)
  else (.receiverLocal, inFile)

def tier (scope : CallScope) (caller : Entry) (callee : Callee) : CallTier × List Entry :=
  match callee.receiver with
  | .own =>
      let found := scope.entries.filter fun e =>
        e.file == caller.file && e.bareName == callee.name && e.container == caller.container
          && e.container.isSome && e.kind == .method
      if found.isEmpty then scope.anyMethod caller callee.name else (.own, found)
  | .qualified qualifier =>
      let found := (scope.callables callee.name).filter fun e =>
        scope.sees caller.file e.file
          && (match e.container with
              | some container => container == qualifier
              | none => inModule qualifier e)
      if found.isEmpty then scope.anyMethod caller callee.name else (.qualified, found)
  | .unknown => scope.anyMethod caller callee.name
  | .parent => (.parent, [])
  | .bare =>
      let functions := (scope.callables callee.name).filter (·.kind == .function)
      let inFile := functions.filter (·.file == caller.file)
      if inFile.isEmpty then
        (.bareVisible, functions.filter fun e => scope.sees caller.file e.file)
      else (.bareLocal, inFile)

def candidates (scope : CallScope) (caller : Entry) (written : String) :
    CallTier × List String :=
  let (tier, found) := scope.tier caller (Callee.parse written.toList)
  (tier, sortedDistinct (found.map (·.id)))

/-- The identity that a written callee resolves to: the only one of the tier that decides. -/
def resolve (scope : CallScope) (caller : Entry) (written : String) : Option String :=
  sole? (scope.candidates caller written).2

end CallScope

end CodeAtlas
