import CodeAtlas.Config.Load
import CodeAtlas.Files.Manifest
import CodeAtlas.Index.Document

/-!
Workspaces: the files below some paths with their index, and the reports on them.

A workspace keeps what was read when it was scanned; later changes to the files do not show in its
reports. Only the manifests of crates are read when a blueprint is first asked for.
-/

namespace CodeAtlas

structure Workspace where
  files : List LocatedFile
  readErrors : List FileError
  index : Index
  blueprint? : Option Blueprint := none

namespace Config

/-- The directory that the paths of reports are seen from: the one that is set, the only path if it
is a directory, or the working directory. -/
def base (c : Config) (d : Disk) (paths : List String) : Except FileFault (List String) := do
  match c.baseDir, paths with
  | some path, _ => if path.toList.contains '\x00' then throw .hasNull else return d.place path
  | none, [path] =>
      if ← d.hasPath path then
        return if (d.find? path).any (·.isDirectory) then d.place path else d.home
      else return d.home
  | none, _ => return d.home

def callOptions (c : Config) (resolvedOnly : Option Bool) : CallOptions :=
  ⟨c.maxCallsPerFunction, resolvedOnly.getD c.resolvedOnly, c.hubCount⟩

end Config

def Disk.scan (d : Disk) (c : Config) (paths : List String) : Except FileFault Workspace := do
  let found ← d.collect ⟨← c.base d paths, c.ignoreGlobs, c.maxFileKb⟩ paths
  return ⟨found.files, found.errors, Index.ofFiles (found.files.map (·.file)), none⟩

namespace Workspace

def sources (w : Workspace) : List SourceFile := w.files.map (·.file)

/-- What went wrong in reading and indexing, each once and in order. -/
def errors (w : Workspace) : List FileError :=
  sortWith FileError.compareKey (w.readErrors ++ w.index.errors).eraseDups

def indexReport (w : Workspace) : IndexReport :=
  ⟨w.index.entries, w.errors, w.index.warnings, w.files.length⟩

def blueprint (w : Workspace) (d : Disk) : Except ManifestFault (Blueprint × Workspace) :=
  match w.blueprint? with
  | some b => .ok (b, w)
  | none => do
      let crates ← d.crates w.files
      let b := Blueprint.ofFiles w.sources crates w.readErrors
      return (b, { w with blueprint? := some b })

def calls (w : Workspace) (options : CallOptions) (b : Blueprint) :
    Except CallFault CallGraph :=
  CallGraph.build w.sources w.index.entries options w.errors w.index.warnings b

inductive Fault where
  | manifest (fault : ManifestFault)
  | limit (fault : CallLimitTooLow)
  | language (fault : UnsupportedLanguage)
  deriving Repr, DecidableEq

def Fault.ofCalls : CallFault → Fault
  | .limit fault => .limit fault
  | .language fault => .language fault

def callGraph (w : Workspace) (d : Disk) (c : Config) (resolvedOnly : Option Bool) :
    Except Fault (CallGraph × Workspace) := do
  let (b, w) ← (w.blueprint d).mapError .manifest
  let graph ← (w.calls (c.callOptions resolvedOnly) b).mapError .ofCalls
  return (graph, w)

def audit (w : Workspace) (d : Disk) (c : Config) : Except Fault (Audit × Workspace) := do
  let (graph, w) ← w.callGraph d c (some false)
  let audit ← (Audit.ofFiles w.sources w.index.entries graph).mapError .language
  return (audit, w)

end Workspace

inductive FlowFault where
  | badPath (fault : FileFault)
  | noFile (path reason : String)
  | noFlow (fault : FlowError)
  deriving Repr, DecidableEq

namespace FlowFault

def message : FlowFault → String
  | badPath _ => "file cannot be looked for"
  | noFile path reason => "Cannot analyze " ++ path ++ ": " ++ reason
  | noFlow fault => fault.message

end FlowFault

def Disk.functionFlow (d : Disk) (c : Config) (path name : String) (withDiagram : Bool) :
    Except FlowFault FunctionFlow := do
  let w ← (d.scan c [path]).mapError .badPath
  match w.sources with
  | file :: _ => (FunctionFlow.ofName file name w.index.entries withDiagram).mapError .noFlow
  | [] =>
      let reason := (w.errors.head?.map (·.message)).getD "not a supported source file"
      .error (.noFile (Path.tidy path) reason)

end CodeAtlas
