import CodeAtlas.Text.Blank

/-!
Brackets: the closer of an opener, and splitting a text outside of brackets.

Only the kind of the first bracket is followed when its closer is sought; the other kinds do not
count. That is what unfinished source text needs.
-/

namespace CodeAtlas

def isOpener (c : Char) : Bool :=
  c == '(' || c == '[' || c == '{'

def isCloser (c : Char) : Bool :=
  c == ')' || c == ']' || c == '}'

def closerOf? (c : Char) : Option Char :=
  if c == '(' then some ')'
  else if c == '[' then some ']'
  else if c == '{' then some '}'
  else none

namespace Text

def closerDistance (opener closer : Char) : (depth : Nat) → List Char → Option Nat
  | _, [] => none
  | depth, c :: cs =>
      if c == opener then (closerDistance opener closer (depth + 1) cs).map (· + 1)
      else if c == closer then
        if depth ≤ 1 then some 0 else (closerDistance opener closer (depth - 1) cs).map (· + 1)
      else (closerDistance opener closer depth cs).map (· + 1)

/-- For a text that starts with an opener: how far away its closer is. -/
def matching? : List Char → Option Nat
  | [] => none
  | c :: cs => do
      let closer ← closerOf? c
      closerDistance c closer 0 (c :: cs)

/-- For a text that starts with an opener: what stands inside the brackets, and what follows the
closer. -/
def enclosed? (cs : List Char) : Option (List Char × List Char) := do
  let n ← matching? cs
  return ((cs.take n).drop 1, cs.drop (n + 1))

/-- The nesting depth after a character, with angle brackets counted too. A closing angle bracket
counts only inside some bracket, and not as the tip of an arrow or a comparison. -/
def nestingAfter (depth : Int) (prev : Option Char) (c : Char) : Int :=
  if isOpener c || c == '<' then depth + 1
  else if isCloser c then depth - 1
  else if c == '>' && prev.any (fun p => p != '-' && p != '=') && 0 < depth then depth - 1
  else depth

def splitNestedFrom (sep : Char) : (depth : Int) → (prev : Option Char) → List Char →
    List (List Char)
  | _, _, [] => [[]]
  | depth, prev, c :: cs =>
      let depth := nestingAfter depth prev c
      let parts := splitNestedFrom sep depth (some c) cs
      if c == sep && depth == 0 then [] :: parts else consFirst c parts

/-- The parts of a text between the separators outside all brackets. A blank text without such a
separator has no parts. -/
def splitTopLevel (sep : Char) (cs : List Char) : List (List Char) :=
  match splitNestedFrom sep 0 none cs with
  | [part] => if isAllBlank part then [] else [part]
  | parts => parts

end Text

end CodeAtlas
