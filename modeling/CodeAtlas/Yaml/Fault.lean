import CodeAtlas.Text.Quoted
import CodeAtlas.Yaml.Writer

/-!
What is wrong with a YAML text, and where.

A complaint says what was being read and what was met instead. It points at one or two places of the
text and shows the piece of the line around each.
-/

namespace CodeAtlas.Yaml

/-- What is said about a text that does not follow the grammar, or means nothing. -/
structure Complaint where
  context : Option String := none
  start : Option Nat := none
  problem : String
  place : Option Nat := none
  deriving Repr, DecidableEq

inductive Fault where
  | malformed (complaint : Complaint)
  | badNumber
  | badBool
  | badTime
  | timeOfMapping
  | emptyNumber
  | largeNumber
  deriving Repr, DecidableEq

namespace Fault

def malformedAt (problem : String) (place : Nat) : Fault :=
  .malformed { problem := problem, place := some place }

def malformedIn (context : String) (start : Nat) (problem : String) (place : Nat) : Fault :=
  .malformed
    { context := some context, start := some start, problem := problem, place := some place }

def endless : Fault :=
  .malformed { problem := "the text does not end" }

end Fault

/-- A character in a complaint; the end of the text counts as a null. -/
def namedChar (c : Option Char) : String :=
  Text.quoted (String.singleton (c.getD '\x00'))

/-! ### Showing a place -/

/-- The number of characters of a line that are shown on one side of a place if the line goes on. -/
def sideLength : Nat := 32

/-- The number of further characters that are shown if the line ends with them. -/
def sideSlack : Nat := 4

def lineSide (cs : List Char) : List Char × Bool :=
  let line := cs.takeWhile fun c => !(c == '\r' || isBreakChar c)
  if sideLength + sideSlack < line.length then (line.take sideLength, true) else (line, false)

def shownLine (text : List Char) (place : Nat) : String :=
  let dots (isCut : Bool) : List Char := if isCut then " ... ".toList else []
  let (before, isCutBefore) := lineSide (text.take place).reverse
  let (after, isCutAfter) := lineSide (text.drop place)
  let lead := "    ".toList ++ dots isCutBefore ++ before.reverse
  String.ofList (lead ++ after ++ dots isCutAfter ++ '\n' ::
    List.replicate lead.length ' ' ++ ['^'])

/-- The line and the column of an offset, both from one on, and the piece of the line. -/
def shownPlace (text : List Char) (place : Nat) : String :=
  let before := text.take place
  let line := before.countP isBreakChar + 1
  let column := ((before.reverse.takeWhile fun c => !isBreakChar c).countP (· != '\ufeff')) + 1
  "  in \"<unicode string>\", line " ++ toString line ++ ", column " ++ toString column ++ ":\n"
    ++ shownLine text place

namespace Complaint

def message (text : List Char) (c : Complaint) : String :=
  let start := if c.start == c.place then none else c.start
  "\n".intercalate (c.context.toList ++ (start.map (shownPlace text)).toList ++ c.problem ::
    (c.place.map (shownPlace text)).toList)

end Complaint

def Fault.message (text : List Char) : Fault → String
  | malformed complaint => complaint.message text
  | badNumber => "a number stands for nothing"
  | badBool => "a text is no Boolean"
  | badTime => "a text is no point in time"
  | timeOfMapping => "a mapping is no point in time"
  | emptyNumber => "a number is empty"
  | largeNumber => "a number is too large"

end CodeAtlas.Yaml
