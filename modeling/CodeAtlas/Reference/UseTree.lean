import CodeAtlas.Text.Preview
import CodeAtlas.Text.Word

/-!
Use trees: the nested path lists of a `use` declaration, flattened into plain paths.

`a::{b, c::d as e, self}` stands for `a::b`, `a::c::d` and `a`. A star at the end of a path stands
for the path before it. Lists may be nested to any depth: a bound on the depth of recursion is no
part of this model.
-/

namespace CodeAtlas

namespace Text

/-- The text without a renaming at its end: blanks, the word `as`, blanks and one more word. -/
def dropAlias (cs : List Char) : List Char :=
  let backwards := cs.reverse
  let word := backwards.takeWhile isWordChar
  let renamed := do
    if word.isEmpty then none
    else
      let rest ← blanks1? (backwards.drop word.length)
      let rest ← after? ['s', 'a'] rest
      blanks1? rest
  match renamed with
  | some rest => rest.reverse
  | none => cs

end Text

namespace UseTree

/-- Drop the blanks around double colons. `open_` says that a double colon was just passed. -/
def tightenColons : (open_ : Bool) → List Char → List Char
  | _, [] => []
  | _, ':' :: ':' :: cs => ':' :: ':' :: tightenColons true cs
  | _, ' ' :: ':' :: ':' :: cs => ':' :: ':' :: tightenColons true cs
  | open_, c :: cs => if open_ && c == ' ' then tightenColons true cs
      else c :: tightenColons false cs

def isSeparator (c : Char) : Bool :=
  c == '{' || c == '}' || c == ','

/-- Drop the blanks around braces and commas. `open_` says that one was just passed. -/
def tightenSeparators : (open_ : Bool) → List Char → List Char
  | _, [] => []
  | open_, ' ' :: c :: cs =>
      if isSeparator c then c :: tightenSeparators true cs
      else if open_ then tightenSeparators true (c :: cs)
      else ' ' :: tightenSeparators false (c :: cs)
  | open_, c :: cs =>
      if isSeparator c then c :: tightenSeparators true cs
      else if open_ && c == ' ' then tightenSeparators true cs
      else c :: tightenSeparators false cs

/-- One spelling per tree: single blanks, none around colons, braces and commas, and no leading
double colon. -/
def normalize (tree : List Char) : List Char :=
  let tight := Text.trim (tightenSeparators false (tightenColons false (Text.squeeze tree)))
  (Text.after? [':', ':'] tight).getD tight

/-- The text up to the brace that closes the group, or all of it. `depth` groups are open inside. -/
def groupBody : (depth : Nat) → List Char → List Char
  | _, [] => []
  | depth, c :: cs =>
      if c == '{' then c :: groupBody (depth + 1) cs
      else if c == '}' then
        match depth with
        | 0 => []
        | depth + 1 => c :: groupBody depth cs
      else c :: groupBody depth cs

/-- The members of a group: the parts between the commas outside of inner groups. -/
def members : (depth : Nat) → List Char → List (List Char)
  | _, [] => [[]]
  | depth, c :: cs =>
      if c == ',' && depth == 0 then [] :: members 0 cs
      else
        let depth := if c == '{' then depth + 1 else if c == '}' then depth - 1 else depth
        Text.consFirst c (members depth cs)

def leaf (tree : List Char) : List (List Char) :=
  let path := Text.trim (Text.dropAlias tree)
  let path :=
    if Text.endsWith path [':', ':', '*'] then path.take (path.length - 3) else path
  if path.isEmpty || path == ['*'] then [] else [path]

def under (lead path : List Char) : List Char :=
  if lead.isEmpty then path else lead ++ [':', ':'] ++ path

def pathsFuel : Nat → List Char → List (List Char)
  | 0, _ => []
  | fuel + 1, tree =>
      let tree := normalize tree
      match Text.cutAt? ['{'] tree with
      | none => leaf tree
      | some (head, rest) =>
          let lead := Text.dropEndWhile (· == ':') head
          let parts := ((members 0 (groupBody 0 rest)).map Text.trim).filter (!·.isEmpty)
          parts.flatMap fun part =>
            if Text.dropAlias part == "self".toList then (if lead.isEmpty then [] else [lead])
            else (pathsFuel fuel part).map (under lead)

def paths (tree : List Char) : List String :=
  (pathsFuel (tree.length + 1) tree).map String.ofList

end UseTree

end CodeAtlas
