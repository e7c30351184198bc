import CodeAtlas.Source.File
import CodeAtlas.Source.Module

/-!
References between files.

A scope is the set of known paths. A written reference has candidates among them, and it resolves
only when there is exactly one: with none or several it stays open, and nothing is guessed.
-/

namespace CodeAtlas

/-- How one file refers to another, or one function to another. -/
inductive LinkKind where
  | module
  | use
  | imports
  | call
  deriving Repr, DecidableEq

namespace LinkKind

def text : LinkKind → String
  | module => "mod"
  | use => "use"
  | imports => "import"
  | call => "call"

/-- The kind with a written form; anything unknown counts as an import. -/
def ofText (text : String) : LinkKind :=
  if text == "mod" then module
  else if text == "use" then use
  else if text == "call" then call
  else imports

end LinkKind

def sole? {α : Type} : List α → Option α
  | [a] => some a
  | _ => none

def sortedDistinct (xs : List String) : List String :=
  sortWith compare xs.eraseDups

/-- The paths that references may point at, and the source directories of the known crates. -/
structure FileScope where
  paths : List String
  crates : List (String × String) := []
  deriving Repr

namespace FileScope

def existing (scope : FileScope) (options : List String) : List String :=
  sortedDistinct (((options.filter (· != "")).map Path.normalize).filter scope.paths.contains)

def firstFound (found : List String) (otherwise : List String) : List String :=
  if found.isEmpty then otherwise else found

/-! ### Rust -/

def moduleFiles (directory name : String) : List String :=
  [Path.join directory (name ++ ".rs"), Path.join (Path.join directory name) "mod.rs"]

def rustModule (scope : FileScope) (source name : String) : List String :=
  let head := Path.directory source
  let stem := Path.stem source
  let beside := moduleFiles head name
  if Rust.isDirectoryModule stem then scope.existing beside
  else
    let below := moduleFiles (Path.join head stem) name
    firstFound (scope.existing below) (scope.existing (below ++ beside))

def rustModuleFile (scope : FileScope) (directory crate : String) : List String :=
  if directory == crate then
    scope.existing [Path.join crate "lib.rs", Path.join crate "main.rs"]
  else scope.existing [directory ++ ".rs", Path.join directory "mod.rs"]

/-- The directory at which the path of a use starts, the source directory of its crate, and the
segments that are still to follow. -/
def rustBase? (scope : FileScope) (source : String) (segments : List String) :
    Option (String × String × List String) :=
  match segments with
  | [] => none
  | head :: rest =>
      let crate := Rust.crateSource source
      if head == "crate" then some (crate, crate, rest)
      else if head == "self" then some (Rust.moduleDirectory source, crate, rest)
      else if head == "super" then
        let climbs := segments.takeWhile (· == "super")
        let base := climbs.foldl (fun base _ => Path.directory base) (Rust.moduleDirectory source)
        let base := if Text.startsWith base.toList crate.toList then base else crate
        some (base, crate, segments.dropWhile (· == "super"))
      else
        (scope.crates.lookup head).map fun crate => (crate, crate, rest)

/-- The files of the longest start of a path that is a module below `base`; `segments` comes with
its last element first. -/
def longestModule (scope : FileScope) (base : String) : (segments : List String) → List String
  | [] => []
  | last :: initial =>
      let stem := (last :: initial).foldr (fun segment path => Path.join path segment) base
      firstFound (scope.existing [stem ++ ".rs", Path.join stem "mod.rs"])
        (longestModule scope base initial)

def rustUse (scope : FileScope) (source written : String) : List String :=
  let segments := (Text.splitOn [':', ':'] written.toList).map String.ofList
  match rustBase? scope source (segments.filter (· != "")) with
  | none => []
  | some (base, crate, rest) =>
      firstFound (longestModule scope base rest.reverse) (rustModuleFile scope base crate)

/-! ### TypeScript and JavaScript -/

def curlyExtensions : List String :=
  [".ts", ".tsx", ".mts", ".cts", ".js", ".jsx", ".mjs", ".cjs"]

def sourceExtensions (extension : String) : List String :=
  if extension == ".js" then [".ts", ".tsx"]
  else if extension == ".jsx" then [".tsx"]
  else if extension == ".mjs" then [".mts"]
  else if extension == ".cjs" then [".cts"]
  else []

/-- The candidates for an imported path. Only paths that start with a dot point at files. -/
def curlyImport (scope : FileScope) (source written : String) : List String :=
  if written.toList.head? != some '.' then []
  else
    let target := Path.normalize (Path.join (Path.directory source) written)
    if Text.startsWith target.toList ['.', '.'] then []
    else if scope.paths.contains target then [target]
    else
      let (stem, extension) := Path.splitExtension target
      firstFound (scope.existing ((sourceExtensions extension).map (stem ++ ·)))
        (firstFound (scope.existing (curlyExtensions.map (target ++ ·)))
          (scope.existing (curlyExtensions.map fun e => Path.join target ("index" ++ e))))

/-! ### Python -/

/-- The candidates for a module written with `dots` leading dots: each dot after the first climbs
one directory. -/
def pythonRelative (scope : FileScope) (source : String) (dots : Nat) (rest : List Char) :
    List String :=
  let base := (List.range (dots - 1)).foldl (fun base _ => Path.directory base)
    (Path.directory source)
  if rest.isEmpty then scope.existing [Path.join base "__init__.py"]
  else
    let parts := (Text.splitBy (· == '.') rest).map String.ofList
    let stem := parts.foldl Path.join base
    scope.existing [stem ++ ".py", stem ++ ".pyi", Path.join stem "__init__.py"]

/-- The candidates for a module by its dotted name: files whose module name it is, or else files
whose module name ends with it. -/
def pythonAbsolute (scope : FileScope) (written : String) : List String :=
  let modules := (sortedDistinct scope.paths).filterMap fun path =>
    (Python.moduleName? path).map fun name => (name, path)
  let exact := modules.filter (·.1 == written)
  let ending := modules.filter fun (name, _) => Text.endsWith name.toList ('.' :: written.toList)
  firstFound (exact.map (·.2)) (ending.map (·.2))

def pythonImport (scope : FileScope) (source written : String) : List String :=
  let dots := (written.toList.takeWhile (· == '.')).length
  if dots == 0 then pythonAbsolute scope written
  else pythonRelative scope source dots (written.toList.drop dots)

/-! ### All families -/

def candidates (scope : FileScope) (source : String) (family : Family) (kind : LinkKind)
    (written : String) : List String :=
  match family with
  | .rust =>
      if kind == .module then scope.rustModule source written else scope.rustUse source written
  | .curly => scope.curlyImport source written
  | .python => scope.pythonImport source written

/-- The file that a reference resolves to: its only candidate. A call refers to no file. -/
def resolve (scope : FileScope) (source : String) (family : Family) (kind : LinkKind)
    (written : String) : Option String :=
  if kind == .call then none else sole? (scope.candidates source family kind written)

end FileScope

end CodeAtlas
