import CodeAtlas.Report.Export

/-!
What an analysis can be told to do.
-/

namespace CodeAtlas

structure Config where
  ignoreGlobs : List String := []
  maxCallsPerFunction : Int := 200
  resolvedOnly : Bool := false
  outputFormat : String := "json"
  workers : Int := 4
  hubCount : Int := 10
  maxFileKb : Int := 512
  baseDir : Option String := none
  deriving Repr, DecidableEq

inductive InvalidConfig where
  | format (fault : UnsupportedFormat)
  | maxCallsPerFunction
  | workers
  | hubCount
  | maxFileKb
  deriving Repr, DecidableEq

namespace InvalidConfig

def message : InvalidConfig → String
  | format fault => fault.message
  | maxCallsPerFunction => "max_calls_per_function must be >= 1"
  | workers => "workers must be >= 1"
  | hubCount => "hub_count must be >= 0"
  | maxFileKb => "max_file_kb must be >= 0 (0 disables the limit)"

end InvalidConfig

namespace Config

def format (c : Config) : Except InvalidConfig OutputFormat :=
  (OutputFormat.ofText c.outputFormat).mapError .format

/-- Check settings in a fixed order; the first that cannot be followed is reported. -/
def validate (c : Config) : Except InvalidConfig Unit := do
  let _ ← c.format
  if c.maxCallsPerFunction < 1 then throw .maxCallsPerFunction
  if c.workers < 1 then throw .workers
  if c.hubCount < 0 then throw .hubCount
  if c.maxFileKb < 0 then throw .maxFileKb

end Config

end CodeAtlas
