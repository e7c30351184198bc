import CodeAtlas.Diff.Build
import CodeAtlas.Diff.Format
import CodeAtlas.Files.Disk
import CodeAtlas.Report.Reader

/-!
Mappings and snapshots in files, and their differences.

A mapping file is a YAML document, and so may be a JSON document: a mapping of removed nodes to what
became of them, or such a mapping under the key `mappings`.
-/

namespace CodeAtlas

inductive MappingFault where
  | unreadable (fault : TextFault)
  | badYaml (fault : Yaml.Fault) (details : String)
  | notMapping
  | noText
  deriving Repr, DecidableEq

namespace MappingFault

def message : MappingFault → String
  | unreadable _ => "unreadable"
  | badYaml _ _ => "invalid YAML"
  | notMapping => "mapping file must contain a mapping"
  | noText => "value has no text"

def fullMessage : MappingFault → String
  | badYaml fault details => (badYaml fault details).message ++ ": " ++ details
  | fault => fault.message

end MappingFault

namespace Mapping

def explanation? (d : Yaml.Document) : Yaml.Item → Option String
  | .atom (.plain .null) => some ""
  | item => d.text? item

/-- Set an entry: one of that name keeps its place, a new one goes to the end. -/
def setEntry (name text : String) : Mapping → Mapping
  | [] => [(name, text)]
  | (n, t) :: rest => if n == name then (n, text) :: rest else (n, t) :: setEntry name text rest

def ofPairs? (d : Yaml.Document) (pairs : List (Value × Yaml.Item)) : Option Mapping :=
  pairs.foldlM (fun m (k, v) => do return m.setEntry (← k.text?) (← explanation? d v)) []

def itemAt? (name : String) (pairs : List (Value × Yaml.Item)) : Option Yaml.Item :=
  (pairs.find? fun (k, _) => k.sameKey (.str name)).map (·.2)

def pairsOf (d : Yaml.Document) : Except MappingFault (List (Value × Yaml.Item)) :=
  match d.root, d.pairs? d.root with
  | .atom (.plain .null), _ => .ok []
  | _, none => .error .notMapping
  | _, some pairs =>
      match itemAt? "mappings" pairs with
      | some (.atom (.plain .null)) => .ok []
      | some inner => .ok ((d.pairs? inner).getD pairs)
      | none => .ok pairs

def parse (format : MappingFormat) (text : List Char) : Except MappingFault Mapping := do
  let d ← (format.read text).mapError fun fault => .badYaml fault (fault.message text)
  match ofPairs? d (← pairsOf d) with
  | some m => return m
  | none => throw .noText

end Mapping

def Disk.readMapping (d : Disk) (path : String) : Except MappingFault Mapping := do
  let text ← (d.readText path).mapError .unreadable
  Mapping.parse .yaml text

/-! ### Snapshot files -/

inductive SnapshotFault where
  | unreadable (fault : TextFault)
  | badReport (fault : ReportFault)
  deriving Repr

namespace SnapshotFault

def message : SnapshotFault → String
  | unreadable _ => "unreadable"
  | badReport fault => fault.message

def fullMessage : SnapshotFault → String
  | badReport fault => fault.fullMessage
  | fault => fault.message

end SnapshotFault

def Disk.readSnapshot (d : Disk) (path : String) : Except SnapshotFault Snapshot := do
  let text ← (d.readText path).mapError .unreadable
  (Snapshot.parse text).mapError .badReport

/-! ### Differences -/

inductive StoredDiffFault where
  | badSnapshot (path : String) (fault : SnapshotFault)
  | badMapping (path : String) (fault : MappingFault)
  | badDiff (fault : DiffFault)
  | unexplained (fault : MissingMapping)
  deriving Repr

namespace StoredDiffFault

def message : StoredDiffFault → String
  | badSnapshot path fault => path ++ ": " ++ fault.message
  | badMapping path fault => path ++ ": " ++ fault.message
  | badDiff fault => fault.message
  | unexplained fault => fault.message

def fullMessage : StoredDiffFault → String
  | badSnapshot path fault => path ++ ": " ++ fault.fullMessage
  | badMapping path fault => path ++ ": " ++ fault.fullMessage
  | fault => fault.message

end StoredDiffFault

namespace Disk

def diffSnapshots (d : Disk) (before after : String) : Except StoredDiffFault (Diff Json) := do
  let old ← (d.readSnapshot before).mapError (.badSnapshot (Path.tidy before))
  let new ← (d.readSnapshot after).mapError (.badSnapshot (Path.tidy after))
  (old.diff new).mapError .badDiff

def mappingAt (d : Disk) (path : Option String) : Except StoredDiffFault Mapping :=
  match path with
  | some path => (d.readMapping path).mapError (.badMapping (Path.tidy path))
  | none => .ok []

/-- The difference of the snapshots in two files with what a mapping in a third leaves unexplained.
With `require`, the mapping has to explain all removed nodes. -/
def diffFiles (d : Disk) (before after : String) (mapping : Option String) (require : Bool) :
    Except StoredDiffFault (Diff Json) := do
  let result ← d.diffSnapshots before after
  let m ← d.mappingAt mapping
  if require then (result.enforce Json.display m).mapError .unexplained
  else if mapping.isSome then return result.withMapping Json.display m
  else return result

end Disk

end CodeAtlas
