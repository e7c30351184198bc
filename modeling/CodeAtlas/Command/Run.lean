import CodeAtlas.Command.Basic
import CodeAtlas.Command.Markup
import CodeAtlas.Diff.Stored
import CodeAtlas.Diff.Template
import CodeAtlas.Workspace.Basic

/-!
What commands do: they read files, print a result or write it to a file, and end with a code.

Code one says that the command could not do what it was asked for, and code two that the arguments
or the settings make no sense.
-/

namespace CodeAtlas

inductive Crash where
  | config (fault : ConfigFault)
  | workspace (fault : Workspace.Fault)
  | file (fault : FileFault)
  | stored (fault : StoredDiffFault)
  | drawing (fault : DrawingFault)
  | writing (fault : WriteFault)
  | message
  deriving Repr

structure Outcome where
  exitCode : Nat := 0
  output : String := ""
  disk : Disk
  complaint : Option String := none
  crash : Option Crash := none

namespace Outcome

def misused (d : Disk) (complaint : String) : Outcome :=
  { exitCode := 2, disk := d, complaint := some complaint }

def crashed (d : Disk) (crash : Crash) : Outcome :=
  { exitCode := 1, disk := d, crash := some crash }

def breakOff (o : Outcome) (crash : Crash) : Outcome :=
  { o with exitCode := 1, crash := some crash }

def andThen (o : Outcome) (next : Outcome → Outcome) : Outcome :=
  if o.crash.isSome then o else next o

/-- Say something. A message whose tags do not match breaks the command off. -/
def say (message : String) (o : Outcome) : Outcome :=
  if Markup.isShowable message then o else o.breakOff .message

def sayAll (messages : List String) (o : Outcome) : Outcome :=
  messages.foldl (fun o message => o.andThen (·.say message)) o

def fail (code : Nat) (complaint : String) (o : Outcome) : Outcome :=
  (o.say (Markup.coloured "red" complaint)).andThen fun o =>
    { o with exitCode := code, complaint := some complaint }

def refused (d : Disk) (code : Nat) (complaint : String) : Outcome :=
  fail code complaint { disk := d }

def wrote (what : String) (path : String) (o : Outcome) : Outcome :=
  o.say (Markup.coloured "green" "Wrote" ++ " " ++ what ++ Path.tidy path)

def writeFile (what path text : String) (o : Outcome) : Outcome :=
  match o.disk.write path (Utf8.encode text) with
  | .ok d => wrote what path { o with disk := d }
  | .error e => o.breakOff (.file e)

end Outcome

/-! ### Settings of requests -/

def Settings.given (name : String) (value : Option Value) : Settings :=
  (value.map fun v => (name, v)).toList

def Value.integer (n : Int) : Value := .plain (.int n)

def ReportRequest.settings (r : ReportRequest) : Settings :=
  Settings.given "output_format" (r.format.map Value.str)
    ++ Settings.given "ignore_globs"
      (if r.ignore.isEmpty then none else some (.list (r.ignore.map Value.str)))
    ++ Settings.given "workers" (r.workers.map Value.integer)
    ++ Settings.given "base_dir" (r.baseDir.map Value.str)

def CallRequest.settings (r : CallRequest) : Settings :=
  Settings.given "resolved_only" (r.resolvedOnly.map fun b => .plain (.bool b))
    ++ Settings.given "max_calls_per_function" (r.maxCalls.map Value.integer)
    ++ Settings.given "hub_count" (r.hubs.map Value.integer)

namespace Command

def closed (text : String) : String :=
  if text.toList.getLast? == some '\n' then text else text ++ "\n"

/-- Print a result, or write it to a file and make the directories for it. -/
def emit (text : String) (output : Option String) (o : Outcome) : Outcome :=
  match output with
  | none => { o with output := o.output ++ closed text }
  | some path =>
      match o.disk.writeDeep path (Utf8.encode (closed text)) with
      | .ok d => Outcome.wrote "" path { o with disk := d }
      | .error e => o.breakOff (.file e)

def emitSnapshot (s : Snapshot) (format : OutputFormat) (output : Option String) (o : Outcome) :
    Outcome :=
  match s.write format with
  | .ok text => emit text output o
  | .error e => o.breakOff (.writing e)

def draw (report : Snapshot) (drawing : Option String) (o : Outcome) : Outcome :=
  match drawing with
  | none => o
  | some path =>
      match report.draw "" true with
      | .ok text => o.writeFile "" path text
      | .error e => o.breakOff (.drawing e)

def warningMark : String := Markup.coloured "yellow" "!"

def shownErrors : Nat := 10

def showErrors (errors : List FileError) (o : Outcome) : Outcome :=
  o.sayAll ((errors.take shownErrors).map fun e =>
    warningMark ++ " " ++ e.path ++ ": " ++ e.message)

/-! ### Settings -/

def withConfig (d : Disk) (environment file : Option String) (settings : Settings)
    (next : Config → OutputFormat → Outcome) : Outcome :=
  let complain (message : String) : Outcome := .refused d 2 ("Configuration error: " ++ message)
  let load : Outcome :=
    match Config.load d file environment settings with
    | .error e =>
        match e with
        | .noFile _ => complain e.message
        | .wrongType _ _ _ _ => complain e.message
        | e => .crashed d (.config e)
    | .ok c =>
        match c.validate, c.format with
        | .ok _, .ok format => next c format
        | .error (.format e), _ => .refused d 2 e.message
        | .error e, _ => complain e.message
        | _, .error e => .refused d 2 e.message
  match settings.lookup "output_format" with
  | some (.plain (.str text)) =>
      match OutputFormat.ofText text with
      | .ok _ => load
      | .error e => .refused d 2 e.message
  | _ => load

/-! ### Commands -/

def withWorkspace (d : Disk) (c : Config) (paths : List String) (next : Workspace → Outcome) :
    Outcome :=
  match d.scan c paths with
  | .ok w => next w
  | .error e => .crashed d (.file e)

def runIndex (d : Disk) (environment : Option String) (r : ReportRequest) : Outcome :=
  withConfig d environment r.config r.settings fun c format =>
    withWorkspace d c r.paths fun w =>
      (emit (w.indexReport.write format) r.output { disk := d }).andThen (showErrors w.errors)

def runBlueprint (d : Disk) (environment : Option String) (r : ReportRequest)
    (drawing : Option String) : Outcome :=
  withConfig d environment r.config r.settings fun c format =>
    withWorkspace d c r.paths fun w =>
      match w.blueprint d with
      | .error e => .crashed d (.workspace (.manifest e))
      | .ok (b, _) =>
          (emitSnapshot b.snapshot format r.output { disk := d }).andThen fun o =>
            (draw b.snapshot drawing o).andThen (showErrors b.errors)

def showHubs (g : CallGraph) (output : Option String) (o : Outcome) : Outcome :=
  if output.isNone then o else o.sayAll (g.classes.hubs.map (·.1))

def runCalls (d : Disk) (environment : Option String) (r : ReportRequest) (calls : CallRequest)
    (drawing : Option String) : Outcome :=
  withConfig d environment r.config (r.settings ++ calls.settings) fun c format =>
    withWorkspace d c r.paths fun w =>
      match w.callGraph d c none with
      | .error e => .crashed d (.workspace e)
      | .ok (g, _) =>
          (emitSnapshot g.snapshot format r.output { disk := d }).andThen fun o =>
            (draw g.snapshot drawing o).andThen fun o =>
              (showHubs g r.output o).andThen (showErrors g.errors)

/-- The findings of some categories; all of them if none is named. -/
def ofCategories (a : Audit) (categories : List String) : Audit :=
  if categories.isEmpty then a
  else { a with findings := a.findings.filter fun f => categories.contains f.category.text }

def runAudit (d : Disk) (environment : Option String) (r : ReportRequest)
    (categories : List String) : Outcome :=
  withConfig d environment r.config r.settings fun c format =>
    withWorkspace d c r.paths fun w =>
      match w.audit d c with
      | .error e => .crashed d (.workspace e)
      | .ok (a, _) => emit ((ofCategories a categories).write format) r.output { disk := d }

def warningText (w : FileWarning) : String :=
  let line := match w.line with
    | some n => if n == 0 then "" else ":" ++ toString n
    | none => ""
  warningMark ++ " " ++ w.path ++ line ++ ": " ++ w.message

def runFlow (d : Disk) (environment : Option String) (r : FlowRequest) : Outcome :=
  withConfig d environment r.config [("workers", .integer 1)] fun c _ =>
    match d.functionFlow c r.path r.function (r.diagram || r.drawingOnly) with
    | .error (.badPath e) => .crashed d (.file e)
    | .error e => .refused d 1 e.message
    | .ok f =>
        let text := if r.drawingOnly then f.diagram.getD "" else f.toJson.pretty
        (emit text r.output { disk := d }).andThen (·.sayAll (f.warnings.map warningText))

/-- How the lack of a difference ends a command: a file that holds no report or mapping is refused,
and all else breaks off. -/
def diffFailed (d : Disk) (e : StoredDiffFault) : Outcome :=
  let refused : Outcome := .refused d 1 ("Invalid input: " ++ e.fullMessage)
  match e with
  | .badSnapshot _ (.badReport .recordNotKeyed) => .crashed d (.stored e)
  | .badSnapshot _ (.badReport .recordNotObject) => .crashed d (.stored e)
  | .badSnapshot _ (.badReport .infiniteNumber) => .crashed d (.stored e)
  | .badSnapshot _ (.badReport .longInteger) => .crashed d (.stored e)
  | .badMapping _ (.badYaml (.malformed _) _) => refused
  | .badMapping _ (.badYaml _ _) => .crashed d (.stored e)
  | .badMapping _ .noText => .crashed d (.stored e)
  | .badDiff .badNames => .crashed d (.stored e)
  | _ => refused

/-- Complain about removed nodes that are not explained, if they have to be. -/
def demandMapping (r : DiffRequest) (unmapped : List String) (o : Outcome) : Outcome :=
  if r.requireMapping && !unmapped.isEmpty then
    let lead := Markup.coloured "red" "unmapped:" ++ " "
    (o.sayAll (unmapped.map (lead ++ ·))).andThen (·.fail 1 (MissingMapping.mk unmapped).message)
  else o

/-- The difference of two reports. A lack of explanations shows in the result and in the code. -/
def runDiff (d : Disk) (r : DiffRequest) : Outcome :=
  match d.diffSnapshots r.before r.after with
  | .error e => diffFailed d e
  | .ok found =>
      match d.mappingAt r.mapping with
      | .error e => diffFailed d e
      | .ok mapping =>
          let start : Outcome := { disk := d }
          let start := match r.template with
            | some path =>
                start.writeFile "mapping template " path ((found.map Json.display).template .yaml)
            | none => start
          let explained := r.requireMapping || r.mapping.isSome
          let shown := if explained then found.withMapping Json.display mapping else found
          let text := if r.summary then (shown.map Json.display).summary else shown.toJson.pretty
          start.andThen fun o =>
            (emit text r.output o).andThen (demandMapping r (shown.unmapped.map Json.display))

def versionText : String := "FlowGraph CLI v0.4.0"

def run (d : Disk) (environment : Option String) : Command → Outcome
  | index r => runIndex d environment r
  | blueprint r drawing => runBlueprint d environment r drawing
  | calls r c drawing => runCalls d environment r c drawing
  | audit r categories => runAudit d environment r categories
  | cfg r => runFlow d environment r
  | diff r => runDiff d r
  | version => { output := closed versionText, disk := d }
  | help => { disk := d }

/-! ### Paths -/

/-- Can a path only be that of a directory: does it end in a slash, or in the component that stands
for the directory itself? -/
def namesDirectory (path : String) : Bool :=
  ["", "."].contains (Path.baseName path)

def checkPath (d : Disk) (isFile : Bool) (path : String) : Except UsageFault Unit :=
  if path == "" then .error (.noSuchPath path)
  else
    match d.find? path with
    | none => .error (.noSuchPath path)
    | some t =>
        if namesDirectory path && !t.isDirectory then .error (.noSuchPath path)
        else if isFile && t.isDirectory then .error (.notAFile path)
        else .ok ()

def checkPaths (d : Disk) : Command → Except UsageFault Unit
  | index r => r.paths.forM (checkPath d false)
  | blueprint r _ => r.paths.forM (checkPath d false)
  | calls r _ _ => r.paths.forM (checkPath d false)
  | audit r _ => r.paths.forM (checkPath d false)
  | cfg r => checkPath d true r.path
  | diff r => ([r.before, r.after] ++ r.mapping.toList).forM (checkPath d true)
  | version => .ok ()
  | help => .ok ()

def runArguments (d : Disk) (environment : Option String) (args : List String) : Outcome :=
  let checked := do
    let command ← parse args
    checkPaths d command
    return command
  match checked with
  | .ok command => command.run d environment
  | .error e => .misused d e.message

end Command

end CodeAtlas
