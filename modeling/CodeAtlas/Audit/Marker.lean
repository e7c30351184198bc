import CodeAtlas.Text.Word

/-!
The marker that lets a declaration stand although little uses it.

It is looked for on the line of the declaration, on the comment, attribute and decorator lines right
above it, and in a string that opens the body.
-/

namespace CodeAtlas.Marker

def allow : String := "flowgraph:allow-lonely"

/-- Letters in lower case. The marker and all other words looked for this way are ASCII, and no
other letter becomes one of theirs. -/
def lower (cs : List Char) : List Char :=
  cs.map Char.toLower

def isLeader (line : List Char) : Bool :=
  ["#", "//", "/*", "*", "@"].any fun lead => Text.startsWith line lead.toList

/-- The lines right above the line that starts after `above` which belong to it. -/
def leaders (above : List Char) : List (List Char) :=
  (((Text.splitBy (· == '\n') above).dropLast.reverse).map Text.trim).takeWhile isLeader

/-- The text between the given quote and its next occurrence, or the end of the text. -/
def untilQuote (quote cs : List Char) : List Char :=
  match Text.cutAt? quote cs with
  | some (inner, _) => inner
  | none => cs

/-- The contents of the string literal at the start of a text, blanks aside. -/
def opening? (cs : List Char) : Option (List Char) :=
  let cs := Text.trimStart cs
  let cs := match cs with
    | c :: rest => if ['r', 'R', 'u', 'U'].contains c then rest else cs
    | [] => []
  ["\"\"\"", "'''", "\"", "'"].findSome? fun quote =>
    (Text.after? quote.toList cs).map (untilQuote quote.toList)

def isAllowed (text : List Char) (decl : Nat) (body : Option Nat) : Bool :=
  let before := text.take decl
  let lead := (before.reverse.takeWhile (· != '\n')).reverse
  let line := lead ++ (text.drop decl).takeWhile (· != '\n')
  let above := before.take (before.length - lead.length)
  let doc := (body >>= fun start => opening? (text.drop start)).toList
  ((line :: leaders above) ++ doc).any fun part => Text.contains (lower part) allow.toList

end CodeAtlas.Marker
