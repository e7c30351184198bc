import CodeAtlas.Config.Basic
import CodeAtlas.Files.Disk
import CodeAtlas.Toml.Document

/-!
Settings from a file and from the caller.

A file gives settings in its section; names that are not known are passed over, and a file that
cannot be read or is malformed gives none. What the caller gives wins over the file. Values are
checked for their type only; what they have to be is checked by `Config.validate`.
-/

namespace CodeAtlas

abbrev Settings := List (String × Value)

inductive ConfigFault where
  | noFile (path : String)
  | wrongType (source name expected shown : String)
  | noText
  | notSection
  | notPairs
  | mixedNames
  | notText
  | badToml (fault : Toml.Fault)
  | badPath (fault : FileFault)
  | noHome
  | unknownName (name : String)
  | notPath
  deriving Repr

namespace ConfigFault

def message : ConfigFault → String
  | noFile path => "Config file not found: " ++ path
  | wrongType source name expected shown =>
      source ++ ": '" ++ name ++ "' must be " ++ expected ++ ", got " ++ shown
  | noText => "value has no text"
  | notSection => "section is not a table"
  | notPairs => "section is not a list of pairs"
  | mixedNames => "names cannot be put in order"
  | notText => "file is not text"
  | badToml _ => "file cannot be read"
  | badPath _ => "file cannot be looked for"
  | noHome => "no home directory"
  | unknownName name => "unknown setting " ++ name
  | notPath => "base directory is not a path"

end ConfigFault

namespace Settings

def integerNames : List String := ["max_calls_per_function", "workers", "hub_count", "max_file_kb"]

def knownNames : List String :=
  integerNames ++ ["resolved_only", "output_format", "ignore_globs", "base_dir"]

def isInteger : Value → Bool
  | .plain (.int _) => true
  | _ => false

def isBoolean : Value → Bool
  | .plain (.bool _) => true
  | _ => false

def isText : Value → Bool
  | .plain (.str _) => true
  | _ => false

def isList : Value → Bool
  | .list _ => true
  | _ => false

def expectations : List (String × String × (Value → Bool)) :=
  integerNames.map (fun name => (name, "an integer", isInteger))
    ++ [("resolved_only", "true or false", isBoolean), ("output_format", "a string", isText),
      ("ignore_globs", "a list of patterns", isList)]

def check (source : String) (settings : Settings) : Except ConfigFault Unit :=
  expectations.forM fun (name, expected, isGood) =>
    match settings.lookup name with
    | some v =>
        if isGood v then .ok ()
        else
          match v.literal? with
          | some shown => .error (.wrongType source name expected shown)
          | none => .error .noText
    | none => .ok ()

def set (name : String) (value : Value) : Settings → Settings
  | [] => [(name, value)]
  | (n, v) :: rest => if n == name then (n, value) :: rest else (n, v) :: set name value rest

/-- The settings with those of the caller over them; what the caller gives as null does not
count. -/
def override (settings given : Settings) : Settings :=
  given.foldl (fun s (name, v) => match v with
    | .plain .null => s
    | v => s.set name v) settings

/-! #### From a file -/

/-- The two parts of an item of a list that stands for a section. -/
def pair? : Value → Option (Value × Value)
  | .list [k, v] => some (k, v)
  | .mapping [(k, _), (l, _)] => some (k, l)
  | .plain (.str s) =>
      match s.toList with
      | [a, b] => some (.str (String.ofList [a]), .str (String.ofList [b]))
      | _ => none
  | _ => none

def hasItems : Value → Bool
  | .list _ => true
  | .mapping _ => true
  | .plain (.str _) => true
  | _ => false

def checkKey : Value → Except ConfigFault Unit
  | .instant t => if t.text?.isSome then .ok () else .error .noText
  | v => if v.isKey then .ok () else .error .notSection

def pairsOf : List Value → Except ConfigFault (List (Value × Value))
  | [] => .ok []
  | v :: vs =>
      match pair? v with
      | some (k, w) => do
          checkKey k
          return (k, w) :: (← pairsOf vs)
      | none => .error (if hasItems v then .notPairs else .notSection)

def sectionPairs : Value → Except ConfigFault (List (Value × Value))
  | .mapping pairs => .ok pairs
  | .list items => pairsOf items
  | .plain (.str s) => pairsOf (s.toList.map fun c => .str (String.ofList [c]))
  | _ => .error .notSection

def ofPairs (pairs : List (Value × Value)) : Settings :=
  pairs.foldl (fun s (k, v) => match k with
    | .plain (.str name) => s.set name v
    | _ => s) []

def sectionName : String := "flowgraph"

inductive KeyKind where
  | text
  | number
  | date
  | clock
  | instant (hasZone : Bool)
  deriving Repr, DecidableEq

def keyKind : Value → KeyKind
  | .plain (.str _) => .text
  | .date _ => .date
  | .clock _ => .clock
  | .instant t => .instant t.offset.isSome
  | _ => .number

def isKnown : Value → Bool
  | .plain (.str name) => knownNames.contains name
  | _ => false

def checkUnknown (pairs : List (Value × Value)) : Except ConfigFault Unit :=
  match (pairs.filter fun (k, _) => !isKnown k).map fun (k, _) => keyKind k with
  | [] => .ok ()
  | kind :: kinds => if kinds.all (· == kind) then .ok () else .error .mixedNames

def ofDocument (text : List Char) : Except ConfigFault Settings := do
  match Toml.document text with
  | .ok root =>
      let pairs ← sectionPairs ((root.get? sectionName).getD (.mapping []))
      checkUnknown pairs
      return ofPairs (pairs.filter fun (k, _) => isKnown k)
  | .error .malformed => return []
  | .error fault => throw (.badToml fault)

end Settings

namespace Config

def integerOr (default : Int) : Option Value → Int
  | some (.plain (.int n)) => n
  | _ => default

def ofSettings (settings : Settings) : Except ConfigFault Config := do
  let baseDir ← match settings.lookup "base_dir" with
    | none => Except.ok none
    | some (.plain (.str path)) => .ok (some (Path.tidy path))
    | some _ => .error .notPath
  let base : Config := {}
  let ignoreGlobs ← match settings.lookup "ignore_globs" with
    | some (.list items) =>
        match items.mapM Value.text? with
        | some globs => Except.ok globs
        | none => .error .noText
    | _ => .ok base.ignoreGlobs
  if let some (name, _) := settings.find? fun (name, _) => !Settings.knownNames.contains name then
    throw (.unknownName name)
  return {
    ignoreGlobs := ignoreGlobs
    maxCallsPerFunction :=
      integerOr base.maxCallsPerFunction (settings.lookup "max_calls_per_function")
    resolvedOnly := match settings.lookup "resolved_only" with
      | some (.plain (.bool b)) => b
      | _ => base.resolvedOnly
    outputFormat := match settings.lookup "output_format" with
      | some (.plain (.str s)) => s
      | _ => base.outputFormat
    workers := integerOr base.workers (settings.lookup "workers")
    hubCount := integerOr base.hubCount (settings.lookup "hub_count")
    maxFileKb := integerOr base.maxFileKb (settings.lookup "max_file_kb")
    baseDir := baseDir }

def defaultFile : String := "flowgraph.toml"

def userHome : String := "/root"

def expandHome (path : String) : Except ConfigFault String :=
  match Path.isAbsolute path, Path.parts path with
  | false, first :: rest =>
      if first == "~" || first == "~root" then .ok (Path.below userHome rest)
      else if first.toList.head? == some '~' then .error .noHome
      else .ok (Path.tidy path)
  | _, _ => .ok (Path.tidy path)

def localFile? (d : Disk) : Option String :=
  if (d.find? defaultFile).isSome then some defaultFile else none

/-- The file that settings come from: the one that is asked for, the one that the environment names,
or the one in the working directory if there is one. -/
def file? (d : Disk) (path environment : Option String) : Except ConfigFault (Option String) := do
  match path, environment with
  | some path, _ => return some (Path.tidy path)
  | none, some path => if path == "" then return localFile? d else return some (← expandHome path)
  | none, none => return localFile? d

def readSettings (d : Disk) (path : String) : Except ConfigFault Settings := do
  if !(← (d.hasPath path).mapError .badPath) then throw (.noFile path)
  else
    match d.readText path with
    | .ok text => Settings.ofDocument text
    | .error (.unreadable _) => return []
    | .error (.notText _) => throw .notText

def load (d : Disk) (path environment : Option String) (given : Settings) :
    Except ConfigFault Config := do
  let file ← file? d path environment
  let settings ← match file with
    | some path => readSettings d path
    | none => .ok []
  settings.check (file.getD "None")
  let settings := settings.override given
  settings.check "override"
  ofSettings settings

end Config

end CodeAtlas
