import CodeAtlas.Text.Blank
import CodeAtlas.Text.Letter

/-!
Words: the lexical atoms that all the source languages share.

A word character is a letter or numeral of any script or an underscore. A name starts with an ASCII
letter or underscore (and a dollar sign where a language allows it) and goes on with word
characters. The recognisers take the text from a place on and give what they read together with
the rest.
-/

namespace CodeAtlas

def isWordChar (c : Char) : Bool :=
  isAlnum c || c == '_'

def isNameStart (c : Char) : Bool :=
  c.isAlpha || c == '_'

def isDollarNameStart (c : Char) : Bool :=
  isNameStart c || c == '$'

/-- May `c` stand in a name in a language whose names hold dollar signs? -/
def isDollarWordChar (c : Char) : Bool :=
  isWordChar c || c == '$'

def isBoundary (before after : Option Char) : Bool :=
  before.any isWordChar != after.any isWordChar

namespace Text

def after? : (lead cs : List Char) → Option (List Char)
  | [], cs => some cs
  | _ :: _, [] => none
  | a :: lead, c :: cs => if a == c then after? lead cs else none

def startsWith (cs lead : List Char) : Bool :=
  (after? lead cs).isSome

def endsWith (cs tail : List Char) : Bool :=
  startsWith cs.reverse tail.reverse

/-- The rest after the word `word`, when it stands at the start of `cs` as a whole word: the
character before is not of a word, nor is the one after. -/
def wholeWord? (word : String) (before : Option Char) (cs : List Char) : Option (List Char) := do
  let rest ← after? word.toList cs
  if before.any isWordChar || rest.head?.any isWordChar then none else some rest

/-- The rest after the word `word`, when it stands at the start of `cs` and the character before is
not of a word. The text may go on with more characters of a word. -/
def atWord? (word : String) (before : Option Char) (cs : List Char) : Option (List Char) :=
  if before.any isWordChar then none else after? word.toList cs

def blanks1? (cs : List Char) : Option (List Char) :=
  match cs with
  | c :: rest => if isBlank c then some (trimStart rest) else none
  | [] => none

def name? (cs : List Char) : Option (List Char × List Char) :=
  match cs with
  | c :: rest =>
      if isNameStart c then some (c :: rest.takeWhile isWordChar, rest.dropWhile isWordChar)
      else none
  | [] => none

def dollarName? (cs : List Char) : Option (List Char × List Char) :=
  match cs with
  | c :: rest =>
      if isDollarNameStart c then
        some (c :: rest.takeWhile isDollarWordChar, rest.dropWhile isDollarWordChar)
      else none
  | [] => none

/-- The text before the first place at which `p` holds of the character before and the text from
there on, and the text from that place. -/
def breakAt (p : Option Char → List Char → Bool) :
    Option Char → List Char → Option (List Char × List Char)
  | before, cs =>
      if p before cs then some ([], cs) else
        match cs with
        | [] => none
        | c :: rest => (breakAt p (some c) rest).map fun (pre, post) => (c :: pre, post)

/-- Does `p` hold at some place of the text, given the character before and the text from there? -/
def anyPlace (p : Option Char → List Char → Bool) (cs : List Char) : Bool :=
  (breakAt p none cs).isSome

def hasWord (word : String) (cs : List Char) : Bool :=
  anyPlace (fun before rest => (wholeWord? word before rest).isSome) cs

/-- The text before and the text after the first occurrence of `sep`. -/
def cutAt? (sep : List Char) (cs : List Char) : Option (List Char × List Char) := do
  let (pre, post) ← breakAt (fun _ rest => startsWith rest sep) none cs
  return (pre, post.drop sep.length)

def contains (cs part : List Char) : Bool :=
  (cutAt? part cs).isSome

/-- The parts between the occurrences of `sep`, taken from the left; `fuel` bounds their number. -/
def splitOnFuel (sep : List Char) : Nat → List Char → List (List Char)
  | 0, cs => [cs]
  | fuel + 1, cs =>
      match cutAt? sep cs with
      | none => [cs]
      | some (pre, post) => pre :: splitOnFuel sep fuel post

/-- The parts between the occurrences of the non-empty text `sep`, taken from the left. -/
def splitOn (sep : List Char) (cs : List Char) : List (List Char) :=
  splitOnFuel sep cs.length cs

end Text

end CodeAtlas
