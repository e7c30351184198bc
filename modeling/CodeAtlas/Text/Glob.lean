import CodeAtlas.Text.Word

/-!
Glob patterns.

A star stands for any text, slashes included, a question mark for one character, and square brackets
for one character of a class. An opening bracket that is never closed stands for itself. The whole
text has to match.
-/

namespace CodeAtlas

inductive GlobPiece where
  | literal (c : Char)
  | anyChar
  | anyText
  | charClass (negated : Bool) (ranges : List (Char × Char))
  deriving Repr, DecidableEq

namespace GlobPiece

def accepts (c : Char) : GlobPiece → Bool
  | literal d => c == d
  | anyChar => true
  | anyText => false
  | charClass negated ranges => ranges.any (fun (lo, hi) => lo ≤ c && c ≤ hi) != negated

end GlobPiece

namespace Glob

/-! ### Character classes -/

/-- The text of a class and the rest after its closing bracket. A bracket right at the start, or
right after the negation mark, belongs to the class. -/
def classText? (cs : List Char) : Option (List Char × List Char) :=
  let mark := cs.takeWhile (· == '!') |>.take 1
  let rest := cs.drop mark.length
  let first := rest.takeWhile (· == ']') |>.take 1
  let rest := rest.drop first.length
  let body := rest.takeWhile (· != ']')
  match rest.drop body.length with
  | _ :: after => some (mark ++ first ++ body, after)
  | [] => none

/-- Cut the text of a class at the hyphens that make ranges. The first `least` characters of a part
are never such a hyphen, and there are at least two characters between one and the next. -/
def rangeParts : (least : Nat) → List Char → List (List Char)
  | _, [] => [[]]
  | least + 1, c :: cs => Text.consFirst c (rangeParts least cs)
  | 0, c :: cs => if c == '-' then [] :: rangeParts 2 cs else Text.consFirst c (rangeParts 0 cs)

/-- A hyphen at the very end makes no range: it belongs to the part before it. -/
def closeParts (parts : List (List Char)) : List (List Char) :=
  match parts.reverse with
  | [] :: last :: more => (more.reverse) ++ [last ++ ['-']]
  | _ => parts

/-- Put a part before parts already cleaned. A range that runs backwards holds nothing: its two ends
go, and the parts around it become one. -/
def joinParts (part : List Char) : List (List Char) → List (List Char)
  | [] => [part]
  | next :: parts =>
      match part.getLast?, next with
      | some hi, lo :: more =>
          if lo < hi then (part.dropLast ++ more) :: parts else part :: next :: parts
      | _, _ => part :: next :: parts

/-- The ranges between one part and the next: from the last character to the first. -/
def spans : List (List Char) → List (Char × Char)
  | part :: next :: parts =>
      match part.getLast?, next.head? with
      | some lo, some hi => (lo, hi) :: spans (next :: parts)
      | _, _ => spans (next :: parts)
  | _ => []

/-- The piece that the text of a class stands for. A class without characters matches none, and
its negation matches any. -/
def classPiece (cs : List Char) : GlobPiece :=
  let least := if cs.head? == some '!' then 2 else 1
  let parts := (closeParts (rangeParts least cs)).foldr joinParts []
  let ranges (parts : List (List Char)) :=
    parts.flatten.map (fun c => (c, c)) ++ spans parts
  match parts with
  | ['!'] :: next :: parts => .charClass true (ranges (('-' :: next) :: parts))
  | ('!' :: part) :: parts => .charClass true (ranges (part :: parts))
  | parts => .charClass false (ranges parts)

/-! ### Patterns -/

def piecesFuel : Nat → List Char → List GlobPiece
  | 0, _ => []
  | _ + 1, [] => []
  | fuel + 1, '*' :: cs => .anyText :: piecesFuel fuel cs
  | fuel + 1, '?' :: cs => .anyChar :: piecesFuel fuel cs
  | fuel + 1, '[' :: cs =>
      match classText? cs with
      | some (body, rest) => classPiece body :: piecesFuel fuel rest
      | none => .literal '[' :: piecesFuel fuel cs
  | fuel + 1, c :: cs => .literal c :: piecesFuel fuel cs

def pieces (pattern : List Char) : List GlobPiece :=
  piecesFuel pattern.length pattern

def matchesPieces : List GlobPiece → List Char → Bool
  | [], cs => cs.isEmpty
  | .anyText :: ps, [] => matchesPieces ps []
  | .anyText :: ps, c :: cs => matchesPieces ps (c :: cs) || matchesPieces (.anyText :: ps) cs
  | _ :: _, [] => false
  | p :: ps, c :: cs => p.accepts c && matchesPieces ps cs
termination_by ps cs => (ps.length, cs.length)

def matchesText (pattern text : List Char) : Bool :=
  matchesPieces (pieces pattern) text

end Glob

/-- Is a path ignored? A pattern, slashes at its end aside, ignores a path that it matches, all
paths below one that it matches, and every path with a component that it matches. -/
def isIgnored (globs : List String) (path : String) : Bool :=
  let parts := Text.splitBy (· == '/') path.toList
  globs.any fun glob =>
    let pattern := Text.dropEndWhile (· == '/') glob.toList
    Glob.matchesText pattern path.toList || Glob.matchesText (pattern ++ ['/', '*']) path.toList
      || parts.any (Glob.matchesText pattern)

end CodeAtlas
