import CodeAtlas.Toml.Scalar

/-!
The lines of a TOML document.

Before a document is read line by line, one pass over its characters blanks out comments, joins the
lines of an array, and checks that keys and quotes are closed. The pass looks only a few characters
back; before the first character it finds the last ones.
-/

namespace CodeAtlas.Toml

inductive KeyPlace where
  | outside
  | inside
  | behind
  deriving Repr, DecidableEq

structure Layout where
  text : Array Char
  depth : Int := 0
  quote : Option Char := none
  isLong : Bool := false
  inHead : Bool := false
  inListHead : Bool := false
  isLineStart : Bool := true
  key : KeyPlace := .outside
  hasDot : Bool := false

namespace Layout

def back? (s : Layout) (i count : Nat) : Option Char :=
  if count ≤ i then s.text[i - count]?
  else if count ≤ i + s.text.size then s.text[i + s.text.size - count]?
  else none

/-- The number of backslashes that end some places before a place; `fuel` bounds it. -/
def backslashes (s : Layout) (i : Nat) : (fuel : Nat) → (count : Nat) → Nat
  | 0, _ => 0
  | fuel + 1, count => if s.back? i count == some '\\'
      then backslashes s i fuel (count + 1) + 1 else 0

def isEscaped (s : Layout) (i count : Nat) : Bool :=
  s.backslashes i (i + s.text.size) count % 2 == 1

def keyPlaceAfter (s : Layout) (i : Nat) : Except Fault KeyPlace :=
  match s.text[i + 1]? with
  | none => .error .empty
  | some next => .ok (if isBlank next || next == '.' then .behind else .inside)

/-- Take in a character of a key. The answer says whether that was all; an equals sign ends the key
and is looked at once more. -/
def keyStep (s : Layout) (i : Nat) (c : Char) : Except Fault (Layout × Bool) := do
  let ended : Except Fault (Layout × Bool) :=
    if c == '=' then .ok ({ s with key := .outside, hasDot := false }, false) else .error .malformed
  if s.key == .outside then return (s, false)
  else if c == '\n' then throw .malformed
  else
    match s.quote, s.key with
    | some q, _ =>
        if c == q && !s.isEscaped i 1 then return ({ s with key := .behind, quote := none }, true)
        else return (s, true)
    | none, .behind =>
        if isBlank c then
          if s.hasDot then return ({ s with key := ← s.keyPlaceAfter i }, true)
            else return (s, true)
        else if c == '.' then return ({ s with hasDot := true, key := ← s.keyPlaceAfter i }, true)
        else ended
    | none, _ =>
        if isBlank c then return ({ s with key := .behind }, true)
        else if c == '.' then return ({ s with hasDot := true }, true)
        else if isAlnum c || c == '_' || c == '-' then return (s, true)
        else if s.hasDot && s.back? i 1 == some '.' && (c == '"' || c == '\'') then
          return ({ s with quote := some c }, true)
        else ended

/-- Take in a quote outside of a key: it opens or closes a text, and the third one in a row opens or
closes a text of many lines. -/
def quoteStep (s : Layout) (i : Nat) (c : Char) : Layout :=
  let other := if c == '"' then '\'' else '"'
  if !(c == '"' || c == '\'') || s.quote == some other then s
  else
    let run := if s.back? i 1 != some c then 1 else if s.back? i 2 != some c then 2 else 3
    if c == '"' && run != 2 && s.isEscaped i run then s
    else if run == 3 then
      { s with isLong := !s.isLong, quote := if s.isLong then none else some c }
    else { s with quote := if s.quote.isSome then none else some c }

/-- Take in a bracket outside of texts: it stands around the head of a table or around an array. -/
def bracketStep (s : Layout) (i : Nat) (c : Char) : Layout :=
  if s.quote.isSome then s
  else if c == '[' && !s.inHead && !s.inListHead then
    if !s.isLineStart then { s with depth := s.depth + 1 }
    else if s.text[i + 1]? == some '[' then { s with inListHead := true }
    else { s with inHead := true }
  else if c == ']' then
    if s.inHead then { s with inHead := false }
    else if s.inListHead then { s with inListHead := s.back? i 1 != some ']' }
    else { s with depth := s.depth - 1 }
  else s

def setBack (s : Layout) (i count : Nat) (c : Char) : Layout :=
  let place := if count ≤ i then i - count else i + s.text.size - count
  { s with text := s.text.setIfInBounds place c }

/-- Take in a line break. Inside of an array it becomes a blank. A text of many lines does not start
with one: the opening quotes move up to the next line. -/
def breakStep (s : Layout) (i : Nat) : Except Fault Layout :=
  if s.quote.isSome && !s.isLong then .error .malformed
  else if s.isLong then
    match s.back? i 1 with
    | some q =>
        if (q == '"' || q == '\'') && s.back? i 2 == some q then
          let moved := s.setBack i 0 q
          .ok (if moved.back? i 3 == some q then moved.setBack i 3 ' ' else moved)
        else .ok s
    | none => .ok s
  else if s.depth != 0 then .ok (s.setBack i 0 ' ')
  else .ok { s with isLineStart := true }

/-- Take in the first character of a line: a key starts there, unless a head does. -/
def startStep (s : Layout) (i : Nat) : Except Fault Layout :=
  match s.text[i]? with
  | some c =>
      if !s.isLineStart || c == ' ' || c == '\t' then .ok s
      else if s.inHead || s.inListHead then .ok { s with isLineStart := false }
      else if c == '=' then .error .malformed
      else .ok { s with isLineStart := false, key := .inside }
  | none => .ok s

/-- The number of characters from a place to the end of its line; `fuel` bounds it. -/
def lineLength (s : Layout) : (fuel : Nat) → (i : Nat) → Nat
  | 0, _ => 0
  | fuel + 1, i =>
      if s.text[i]?.any (· != '\n') then lineLength s fuel (i + 1) + 1 else 0

def blankComment (s : Layout) (i : Nat) : Layout :=
  let length := s.lineLength s.text.size i
  { s with text := (List.range length).foldl (fun text k => text.setIfInBounds (i + k) ' ') s.text }

/-- Take in the characters from a place on, `fuel` of them. A comment without a line break behind it
ends the pass. -/
def run : (fuel : Nat) → (i : Nat) → Layout → Except Fault Layout
  | 0, _, s => .ok s
  | fuel + 1, i, s =>
      match s.text[i]? with
      | none => .ok s
      | some c => do
          let (s, isDone) ← s.keyStep i c
          if isDone then run fuel (i + 1) s
          else
            let s := s.quoteStep i c
            if c == '#' && s.quote.isNone && !s.inHead && !s.inListHead then
              let isLast := s.lineLength s.text.size i + i == s.text.size
              let s := s.blankComment i
              if isLast then return s else run fuel (i + 1) s
            else
              let s := s.bracketStep i c
              let s ← if c == '\n' then s.breakStep i else s.startStep i
              run fuel (i + 1) s

end Layout

def lines (cs : List Char) : Except Fault (List (List Char)) := do
  let s ← Layout.run cs.length 0 { text := cs.toArray }
  if s.key != .outside || s.quote.isSome then throw .malformed
  return Text.splitBy (· == '\n') s.text.toList

end CodeAtlas.Toml
