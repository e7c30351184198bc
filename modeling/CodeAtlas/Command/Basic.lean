import CodeAtlas.Command.Arguments
import CodeAtlas.Report.Reader

/-!
Commands: what the program can be asked to do.
-/

namespace CodeAtlas

structure ReportRequest where
  paths : List String
  output : Option String
  format : Option String
  config : Option String
  ignore : List String
  workers : Option Int
  baseDir : Option String
  deriving Repr, DecidableEq

structure CallRequest where
  resolvedOnly : Option Bool
  maxCalls : Option Int
  hubs : Option Int
  deriving Repr, DecidableEq

structure FlowRequest where
  path : String
  function : String
  output : Option String
  config : Option String
  diagram : Bool
  drawingOnly : Bool
  deriving Repr, DecidableEq

structure DiffRequest where
  before : String
  after : String
  mapping : Option String
  requireMapping : Bool
  template : Option String
  summary : Bool
  output : Option String
  deriving Repr, DecidableEq

inductive Command where
  | index (request : ReportRequest)
  | blueprint (request : ReportRequest) (drawing : Option String)
  | calls (request : ReportRequest) (calls : CallRequest) (drawing : Option String)
  | audit (request : ReportRequest) (categories : List String)
  | cfg (request : FlowRequest)
  | diff (request : DiffRequest)
  | version
  | help
  deriving Repr, DecidableEq

namespace Command

/-! ### Options -/

def helpOption : OptionSpec := ⟨"help", ["--help"], some "true"⟩

def outputOption : OptionSpec := { key := "output", names := ["--output", "-o"] }

def configOption : OptionSpec := { key := "config", names := ["--config", "-c"] }

def drawingOption : OptionSpec := { key := "dot", names := ["--dot"] }

def reportOptions : List OptionSpec :=
  [helpOption, outputOption, configOption,
    { key := "format", names := ["--format", "-f"] },
    { key := "ignore", names := ["--ignore", "-i"] },
    { key := "workers", names := ["--workers", "-w"] },
    { key := "base-dir", names := ["--base-dir"] }]

def callOptions : List OptionSpec :=
  reportOptions ++ [drawingOption,
    ⟨"resolved-only", ["--resolved-only"], some "true"⟩,
    ⟨"resolved-only", ["--all-edges"], some "false"⟩,
    { key := "max-calls", names := ["--max-calls"] },
    { key := "hubs", names := ["--hubs"] }]

def auditOptions : List OptionSpec :=
  reportOptions ++ [{ key := "category", names := ["--category"] }]

def flowOptions : List OptionSpec :=
  [helpOption, outputOption, configOption, ⟨"diagram", ["--diagram"], some "true"⟩,
    ⟨"mermaid", ["--mermaid"], some "true"⟩]

def diffOptions : List OptionSpec :=
  [helpOption, outputOption, { key := "mapping", names := ["--mapping", "-m"] },
    ⟨"require-mapping", ["--require-mapping"], some "true"⟩,
    { key := "write-mapping", names := ["--write-mapping"] },
    ⟨"summary", ["--summary"], some "true"⟩]

def globalOptions : List OptionSpec :=
  [helpOption, ⟨"version", ["--version", "-v"], some "true"⟩,
    ⟨"verbose", ["--verbose"], some "true"⟩]

/-! ### Reading -/

def integerOption (a : Arguments) (key : String) (least : Int) : Except UsageFault (Option Int) :=
  match a.get? key with
  | none => .ok none
  | some text =>
      match Numeral.integer? (some 10) text.toList with
      | some n => if n < least then .error (.badValue key text) else .ok (some n)
      | none => .error (.badValue key text)

/-- What the commands on a workspace have in common; there has to be a path. -/
def reportRequest (a : Arguments) : Except UsageFault ReportRequest := do
  if a.others.isEmpty then throw .missingArgument
  return {
    paths := a.others
    output := a.get? "output"
    format := a.get? "format"
    config := a.get? "config"
    ignore := a.getAll "ignore"
    workers := ← integerOption a "workers" 1
    baseDir := a.get? "base-dir" }

def callRequest (a : Arguments) : Except UsageFault CallRequest := do
  return {
    resolvedOnly := (a.get? "resolved-only").map (· == "true")
    maxCalls := ← integerOption a "max-calls" 1
    hubs := ← integerOption a "hubs" 0 }

def twoArguments (a : Arguments) : Except UsageFault (String × String) :=
  match a.others with
  | [x, y] => .ok (x, y)
  | _ :: _ :: extra :: _ => .error (.extraArgument extra)
  | _ => .error .missingArgument

def flowRequest (a : Arguments) : Except UsageFault FlowRequest := do
  let (path, function) ← twoArguments a
  return ⟨path, function, a.get? "output", a.get? "config", a.has "diagram", a.has "mermaid"⟩

def diffRequest (a : Arguments) : Except UsageFault DiffRequest := do
  let (before, after) ← twoArguments a
  return ⟨before, after, a.get? "mapping", a.has "require-mapping", a.get? "write-mapping",
    a.has "summary", a.get? "output"⟩

def readWith (specs : List OptionSpec) (args : List String)
    (read : Arguments → Except UsageFault Command) : Except UsageFault Command := do
  let a ← Arguments.parse specs true args
  if a.has "help" then return .help else read a

def named (name : String) (args : List String) : Except UsageFault Command :=
  match name with
  | "index" => readWith reportOptions args fun a => do return .index (← reportRequest a)
  | "blueprint" =>
      readWith (reportOptions ++ [drawingOption]) args fun a => do
        return .blueprint (← reportRequest a) (a.get? "dot")
  | "calls" =>
      readWith callOptions args fun a => do
        return .calls (← reportRequest a) (← callRequest a) (a.get? "dot")
  | "audit" =>
      readWith auditOptions args fun a => do
        return .audit (← reportRequest a) (a.getAll "category")
  | "cfg" => readWith flowOptions args fun a => do return .cfg (← flowRequest a)
  | "diff" => readWith diffOptions args fun a => do return .diff (← diffRequest a)
  | "version" =>
      readWith [helpOption] args fun a =>
        match a.others with
        | [] => .ok .version
        | extra :: _ => .error (.extraArgument extra)
  | _ => .error (.unknownCommand name)

/-- The command that the arguments ask for. Of the options before it, the first that asks for the
version or for help counts. -/
def parse (args : List String) : Except UsageFault Command := do
  let a ← Arguments.parse globalOptions false args
  match a.options.find? fun (key, _) => key != "verbose" with
  | some ("version", _) => return .version
  | some _ => return .help
  | none =>
      match a.others with
      | [] => throw .noCommand
      | name :: rest => named name rest

end Command

end CodeAtlas
