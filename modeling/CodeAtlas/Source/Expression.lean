import CodeAtlas.Text.Place
import CodeAtlas.Text.Word

/-!
Where an expression or a statement of brace-structured source ends.

A line feed ends it unless the text before says that it goes on (an operator, an open bracket) or
the text after does (an operator, a dot).
-/

namespace CodeAtlas

def continuesAfter (c : Char) : Bool :=
  "=+-*/%&|^<>,.?:([\x7b!~".toList.contains c

def continuesBefore (c : Char) : Bool :=
  ".?:+-*/%&|^=<>,)]".toList.contains c

def firstVisible? (cs : List Char) : Option Char :=
  cs.find? (!isBlank ·)

/-- Does a line feed end an expression, given the last visible character before it and the text
after it? -/
def endsAtNewline (last : Option Char) (after : List Char) : Bool :=
  last.any (!continuesAfter ·) && !(firstVisible? after).any continuesBefore

def lastVisible (last : Option Char) (c : Char) : Option Char :=
  if isBlank c then last else some c

namespace Text

/-- The length of the expression at the start of a text: it ends before a semicolon or comma
outside of brackets, a closer of an outer bracket, or a line feed at which it does not go on.
`last` is the last visible character so far. -/
def expressionLength : (depth : Nat) → (last : Option Char) → List Char → Nat
  | _, _, [] => 0
  | depth, last, c :: cs =>
      if isOpener c then expressionLength (depth + 1) (lastVisible last c) cs + 1
      else if isCloser c then
        if depth == 0 then 0 else expressionLength (depth - 1) (lastVisible last c) cs + 1
      else if depth == 0 && (c == ';' || c == ',') then 0
      else if depth == 0 && c == '\n' && endsAtNewline last cs then 0
      else expressionLength depth (lastVisible last c) cs + 1

/-- The offset just past the expression that starts at `start`, looking no further than `limit`. -/
def expressionEnd (text : List Char) (start : Nat) (limit : Option Nat) :
    Except PlaceFault Nat :=
  let stop := limit.getD text.length
  if stop ≤ start then .ok stop
  else
    let chars := (text.take stop).drop start
    let length := expressionLength 0 none chars
    if length < chars.length then .ok (start + length)
    else if text.length < stop then .error .outside
    else .ok stop

/-- Does a statement end at a closing brace that is followed by `after`? It does at the end of the
text, and before a new line that does not continue it. -/
def endsAfterBrace (after : List Char) : Bool :=
  let rest := Text.trimStart after
  match rest with
  | [] => true
  | c :: _ =>
      if !(after.take (after.length - rest.length)).contains '\n' then false
      else if continuesBefore c || c == ';' then false
      else
        match dollarName? rest with
        | some (word, _) =>
            !(["else", "catch", "finally", "while", "as"].contains (String.ofList word))
        | none => true

/-- The length of the statement at the start of a text: up to and with a semicolon outside of
brackets or a closing brace that ends it, or before a closer of an outer bracket or a line feed. -/
def statementLength : (depth : Nat) → (last : Option Char) → List Char → Nat
  | _, _, [] => 0
  | depth, last, c :: cs =>
      if isOpener c then statementLength (depth + 1) (lastVisible last c) cs + 1
      else if isCloser c then
        if depth == 0 then 0
        else if depth == 1 && c == '}' && endsAfterBrace cs then 1
        else statementLength (depth - 1) (lastVisible last c) cs + 1
      else if depth == 0 && c == ';' then 1
      else if depth == 0 && c == '\n' && endsAtNewline last cs then 0
      else statementLength depth (lastVisible last c) cs + 1

/-- The distance to the first `mark` outside of brackets, all kinds counted together. -/
def topLevelDistance? (mark : Char) : (depth : Int) → List Char → Option Nat
  | _, [] => none
  | depth, c :: cs =>
      if isOpener c then (topLevelDistance? mark (depth + 1) cs).map (· + 1)
      else if isCloser c then (topLevelDistance? mark (depth - 1) cs).map (· + 1)
      else if c == mark && depth == 0 then some 0
      else (topLevelDistance? mark depth cs).map (· + 1)

end Text

end CodeAtlas
