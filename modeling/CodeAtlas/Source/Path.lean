import CodeAtlas.Source.Language
import CodeAtlas.Text.Word

/-!
Slash-separated paths as text.

Nothing here looks at a file system: a path is a list of components between slashes, and `..` takes
away the component before it.
-/

namespace CodeAtlas.Path

def components (path : String) : List String :=
  (Text.splitBy (· == '/') path.toList).map String.ofList

/-- The text before the last slash, slash included, and the text after it. -/
def splitLast (path : String) : String × String :=
  let tail := (path.toList.reverse.takeWhile (· != '/')).reverse
  (String.ofList (path.toList.take (path.length - tail.length)), String.ofList tail)

def baseName (path : String) : String :=
  (splitLast path).2

/-- The directory part of a path, without the slashes at its end unless there is nothing else. -/
def directory (path : String) : String :=
  let head := (splitLast path).1.toList
  if head.all (· == '/') then String.ofList head
  else String.ofList (Text.dropEndWhile (· == '/') head)

/-- The path without its extension, and the extension with its dot. Dots that a name starts with
begin no extension. -/
def splitExtension (path : String) : String × String :=
  let (head, name) := splitLast path
  let dots := name.toList.takeWhile (· == '.')
  let body := name.toList.drop dots.length
  if body.contains '.' then
    let extension := (body.reverse.takeWhile (· != '.')).reverse
    let stem := body.take (body.length - extension.length - 1)
    (head ++ String.ofList (dots ++ stem), String.ofList ('.' :: extension))
  else (path, "")

def extension (path : String) : String :=
  (splitExtension path).2

/-- `b` seen from the directory `a`; an absolute `b` stands for itself. -/
def join (a b : String) : String :=
  if b.toList.head? == some '/' then b
  else if a == "" || a.toList.getLast? == some '/' then a ++ b
  else a ++ "/" ++ b

def pushComponent (rooted : Bool) (done : List String) (component : String) : List String :=
  if component == "" || component == "." then done
  else if component != ".." then component :: done
  else
    match done with
    | [] => if rooted then [] else [".."]
    | last :: rest => if last == ".." then ".." :: last :: rest else rest

def normalComponents (rooted : Bool) (parts : List String) : List String :=
  (parts.foldl (pushComponent rooted) []).reverse

/-- The slashes that an absolute path starts with: two are kept, more than two are one. -/
def rootSlashes (path : String) : String :=
  match path.toList.takeWhile (· == '/') with
  | [] => ""
  | [_, _] => "//"
  | _ => "/"

/-- The path without empty and `.` components and with `..` worked out. -/
def normalize (path : String) : String :=
  let root := rootSlashes path
  let text := root ++ "/".intercalate (normalComponents (root != "") (components path))
  if text == "" then "." else text

def lowerChar (c : Char) : Char := c.toLower

/-- The language of the file at a path, by its extension in any case. Only extensions made of ASCII
letters stand for a language, so case matters for those alone. -/
def language? (path : String) : Option Language :=
  Language.ofExtension? (String.ofList ((extension path).toList.map lowerChar))

end CodeAtlas.Path
