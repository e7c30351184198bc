/-!
Blanks: white space, trimming, and cutting a text into fields and lines.

All functions work on `List Char`, so that a cut is a split of the list: the parts that a function
returns, with what it says it drops, are the text again.
-/

namespace CodeAtlas

/-- White space: the ASCII blanks and separators and the space characters of other scripts. -/
def isBlank (c : Char) : Bool :=
  let n := c.val
  (9 ≤ n && n ≤ 13) || (28 ≤ n && n ≤ 32) || n == 0x85 || n == 0xA0 || n == 0x1680
    || (0x2000 ≤ n && n ≤ 0x200A) || n == 0x2028 || n == 0x2029 || n == 0x202F || n == 0x205F
    || n == 0x3000

/-- A line break of any kind; a carriage return before a line feed counts with it. -/
def isLineBreak (c : Char) : Bool :=
  let n := c.val
  (10 ≤ n && n ≤ 13) || (28 ≤ n && n ≤ 30) || n == 0x85 || n == 0x2028 || n == 0x2029

namespace Text

def dropEndWhile (p : Char → Bool) (cs : List Char) : List Char :=
  (cs.reverse.dropWhile p).reverse

def trimStart (cs : List Char) : List Char :=
  cs.dropWhile isBlank

def trimEnd (cs : List Char) : List Char :=
  dropEndWhile isBlank cs

def trim (cs : List Char) : List Char :=
  trimEnd (trimStart cs)

def isAllBlank (cs : List Char) : Bool :=
  cs.all isBlank

def consFirst (c : Char) : List (List Char) → List (List Char)
  | [] => [[c]]
  | part :: parts => (c :: part) :: parts

/-- The parts between the characters of class `p`. A text without one is a single part. -/
def splitBy (p : Char → Bool) : List Char → List (List Char)
  | [] => [[]]
  | c :: cs => if p c then [] :: splitBy p cs else consFirst c (splitBy p cs)

def fields (cs : List Char) : List (List Char) :=
  (splitBy isBlank cs).filter (!·.isEmpty)

/-- Replace every carriage return with its line feed, and every lone carriage return, by a line
feed. -/
def unifyNewlines : List Char → List Char
  | [] => []
  | '\r' :: '\n' :: cs => '\n' :: unifyNewlines cs
  | '\r' :: cs => '\n' :: unifyNewlines cs
  | c :: cs => c :: unifyNewlines cs

/-- Every carriage return followed by a line feed counts as one break. -/
def joinBreaks : List Char → List Char
  | [] => []
  | '\r' :: '\n' :: cs => '\n' :: joinBreaks cs
  | c :: cs => c :: joinBreaks cs

/-- The lines of a text, without their breaks. A break at the very end opens no further line. -/
def lines (cs : List Char) : List (List Char) :=
  let parts := splitBy isLineBreak (joinBreaks cs)
  if parts.getLast? == some [] then parts.dropLast else parts

def join (sep : List Char) (parts : List (List Char)) : List Char :=
  (parts.intersperse sep).flatten

end Text

end CodeAtlas
