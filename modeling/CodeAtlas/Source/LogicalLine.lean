import CodeAtlas.Text.Lines
import CodeAtlas.Text.Place
import CodeAtlas.Text.Word

/-!
Logical lines of masked text whose structure is its indentation.

A physical line goes on to the next one while a bracket is open, inside a triple-quoted string, and
after a backslash at its end. A logical line starts at a line that is not blank.
-/

namespace CodeAtlas

/-- A physical line: where it starts and stops, its number, and its characters. -/
structure PhysicalLine where
  start : Nat
  stop : Nat
  number : Nat
  chars : List Char
  deriving Repr, DecidableEq

namespace PhysicalLine

def ofParts (stop : Nat) : (start number : Nat) → List (List Char) → List PhysicalLine
  | _, _, [] => []
  | start, number, [part] => if start < stop then [⟨start, stop, number, part⟩] else []
  | start, number, part :: parts =>
      ⟨start, start + part.length, number, part⟩
        :: ofParts stop (start + part.length + 1) (number + 1) parts

def within (text : List Char) (start stop : Nat) : List PhysicalLine :=
  ofParts stop start ((text.take start).count '\n' + 1)
    (Text.splitBy (· == '\n') ((text.take stop).drop start))

def indent (l : PhysicalLine) : Nat :=
  (l.chars.takeWhile fun c => c == ' ' || c == '\t').length

def depthAfter (depth : Int) (chars : List Char) : Int :=
  chars.foldl (fun d c => if isOpener c then d + 1 else if isCloser c then d - 1 else d) depth

def tripleQuotes : List Char → Nat
  | '\'' :: '\'' :: '\'' :: cs => tripleQuotes cs + 1
  | '"' :: '"' :: '"' :: cs => tripleQuotes cs + 1
  | _ :: cs => tripleQuotes cs
  | [] => 0

def endsInBackslash (chars : List Char) : Bool :=
  (Text.trimEnd chars).getLast? == some '\\'

end PhysicalLine

/-- A logical line: its indentation, its extent in the text, the number of its first line, and its
text with the line breaks joined by blanks. -/
structure LogicalLine where
  indent : Nat
  start : Nat
  stop : Nat
  line : Nat
  text : List Char
  deriving Repr, DecidableEq

namespace LogicalLine

/-- A logical line that is still open, with the trimmed texts of its parts, the last one first. -/
structure Open where
  indent : Nat
  start : Nat
  stop : Nat
  line : Nat
  parts : List (List Char)

def Open.finish (o : Open) : LogicalLine :=
  ⟨o.indent, o.start, o.stop, o.line,
    Text.join [' '] (o.parts.reverse.filter (!·.isEmpty))⟩

/-- What has been seen so far: the bracket depth, the least depth that a line ended with, and
whether a triple-quoted string is open. -/
structure Nesting where
  depth : Int := 0
  least : Int := 0
  inTriple : Bool := false

/-- The nesting after one more line. A line with too many closers starts the count anew. -/
def Nesting.after (n : Nesting) (chars : List Char) : Nesting :=
  let depth := PhysicalLine.depthAfter n.depth chars
  { depth := max depth 0
    least := min n.least depth
    inTriple := n.inTriple != (PhysicalLine.tripleQuotes chars % 2 == 1) }

def Nesting.continues (n : Nesting) (chars : List Char) : Bool :=
  0 < n.depth || n.inTriple || PhysicalLine.endsInBackslash chars

def Open.extend? (current : Option Open) (l : PhysicalLine) : Option Open :=
  let text := Text.trim l.chars
  match current with
  | some o => some { o with stop := l.stop, parts := text :: o.parts }
  | none =>
      if text.isEmpty then none
      else some ⟨l.indent, l.start + l.indent, l.stop, l.number, [text]⟩

def joinLines : (current : Option Open) → Nesting → List PhysicalLine → List LogicalLine × Nesting
  | current, nesting, [] => ((current.map Open.finish).toList, nesting)
  | current, nesting, l :: ls =>
      match Open.extend? current l with
      | none => joinLines none nesting ls
      | some o =>
          let nesting := nesting.after l.chars
          if nesting.continues l.chars then joinLines (some o) nesting ls
          else
            let (rest, final) := joinLines none nesting ls
            (o.finish :: rest, final)

/-- The logical lines of the stretch of `text` from `start` up to `stop`, and the bracket balance:
the depth left open, or else the least depth reached, which is negative after a stray closer. -/
def within (text : List Char) (start stop : Nat) : List LogicalLine × Int :=
  let (lines, nesting) := joinLines none {} (PhysicalLine.within text start stop)
  (lines, if nesting.depth != 0 then nesting.depth else nesting.least)

def ofText (text : List Char) : List LogicalLine × Int :=
  within text 0 text.length

end LogicalLine

namespace Text

/-- The distance to the colon that ends a compound header, among the first `count` characters: the
first one outside of brackets that is not part of `:=`. -/
def headerColonDistance? : (count : Nat) → (depth : Int) → List Char → Option Nat
  | 0, _, _ => none
  | _, _, [] => none
  | count + 1, depth, c :: cs =>
      if isOpener c then (headerColonDistance? count (depth + 1) cs).map (· + 1)
      else if isCloser c then (headerColonDistance? count (depth - 1) cs).map (· + 1)
      else if c == ':' && depth == 0 && cs.head? != some '=' then some 0
      else (headerColonDistance? count depth cs).map (· + 1)

def headerColon? (text : List Char) (start stop : Nat) : Option Nat :=
  (headerColonDistance? (stop - start) 0 (text.drop start)).map (· + start)

def findHeaderColon (text : List Char) (start stop : Nat) : Except PlaceFault (Option Nat) :=
  match headerColon? text start stop with
  | some place => .ok (some place)
  | none => if start < stop && text.length < stop then .error .outside else .ok none

end Text

end CodeAtlas
