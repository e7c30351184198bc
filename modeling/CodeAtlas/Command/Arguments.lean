import CodeAtlas.Text.Word

/-!
Arguments of a command line.

Options start with a hyphen and may stand between the other arguments. A long option starts with two
hyphens, and its value stands behind an equals sign or is the next argument; a short option is a
hyphen and one letter, and its value follows at once or is the next argument. Two hyphens alone end
the options.
-/

namespace CodeAtlas

structure OptionSpec where
  key : String
  names : List String
  fixed : Option String := none
  deriving Repr, DecidableEq

inductive UsageFault where
  | unknownOption (name : String)
  | noValue (name : String)
  | needlessValue (name : String)
  | unknownCommand (name : String)
  | noCommand
  | missingArgument
  | extraArgument (text : String)
  | badValue (name text : String)
  | noSuchPath (path : String)
  | notAFile (path : String)
  deriving Repr, DecidableEq

namespace UsageFault

def message : UsageFault → String
  | unknownOption name => "No such option: " ++ name
  | noValue name => "Option '" ++ name ++ "' requires an argument."
  | needlessValue name => "Option '" ++ name ++ "' does not take a value."
  | unknownCommand name => "No such command '" ++ name ++ "'."
  | noCommand => "Missing command."
  | missingArgument => "Missing argument."
  | extraArgument text => "Got unexpected extra argument (" ++ text ++ ")"
  | badValue name text => "Invalid value for '" ++ name ++ "': " ++ text
  | noSuchPath path => "Path '" ++ path ++ "' does not exist."
  | notAFile path => "File '" ++ path ++ "' is a directory."

end UsageFault

structure Arguments where
  options : List (String × String) := []
  others : List String := []
  deriving Repr, DecidableEq

namespace Arguments

def named? (specs : List OptionSpec) (name : String) : Option OptionSpec :=
  specs.find? (·.names.contains name)

def withOther (text : String) (a : Arguments) : Arguments :=
  { a with others := text :: a.others }

def divide (arg : String) : String × Option String :=
  let name := arg.toList.takeWhile (· != '=')
  match arg.toList.drop name.length with
  | _ :: value => (String.ofList name, some (String.ofList value))
  | [] => (arg, none)

inductive Reading where
  | whole (options : List (String × String))
  | open_ (options : List (String × String)) (key name : String)
  deriving Repr, DecidableEq

def shortOptions (specs : List OptionSpec) : List Char → Except UsageFault Reading
  | [] => .ok (.whole [])
  | c :: rest =>
      let name := String.ofList ['-', c]
      match named? specs name with
      | none => .error (.unknownOption name)
      | some ⟨key, _, some value⟩ => do
          match ← shortOptions specs rest with
          | .whole options => return .whole ((key, value) :: options)
          | .open_ options k n => return .open_ ((key, value) :: options) k n
      | some ⟨key, _, none⟩ =>
          .ok (if rest.isEmpty then .open_ [] key name else .whole [(key, String.ofList rest)])

def reading (specs : List OptionSpec) (arg : String) : Except UsageFault Reading :=
  let (name, value) := divide arg
  let isLong := Text.startsWith arg.toList ['-', '-']
  match if isLong then named? specs name else none, value with
  | some ⟨key, _, some fixed⟩, none => .ok (.whole [(key, fixed)])
  | some ⟨_, _, some _⟩, some _ => .error (.needlessValue name)
  | some ⟨key, _, none⟩, some value => .ok (.whole [(key, value)])
  | some ⟨key, _, none⟩, none => .ok (.open_ [] key name)
  | none, _ =>
      if isLong then .error (.unknownOption name) else shortOptions specs (arg.toList.drop 1)

def isOption (arg : String) : Bool :=
  Text.startsWith arg.toList ['-'] && arg != "-"

def parse (specs : List OptionSpec) (mixed : Bool) : List String → Except UsageFault Arguments
  | [] => .ok {}
  | arg :: rest =>
      if arg == "--" then .ok ⟨[], rest⟩
      else if isOption arg then do
        match ← reading specs arg, rest with
        | .whole options, rest =>
            let a ← parse specs mixed rest
            return { a with options := options ++ a.options }
        | .open_ options key _, value :: rest =>
            let a ← parse specs mixed rest
            return { a with options := options ++ (key, value) :: a.options }
        | .open_ _ _ name, [] => .error (.noValue name)
      else if mixed then do return (← parse specs mixed rest).withOther arg
      else .ok ⟨[], arg :: rest⟩

def get? (a : Arguments) (key : String) : Option String :=
  a.options.reverse.lookup key

def getAll (a : Arguments) (key : String) : List String :=
  a.options.filterMap fun (k, v) => if k == key then some v else none

def has (a : Arguments) (key : String) : Bool := (a.get? key).isSome

end Arguments

end CodeAtlas
