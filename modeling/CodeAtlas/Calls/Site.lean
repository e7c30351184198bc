import CodeAtlas.Index.Entry
import CodeAtlas.Index.Mark
import CodeAtlas.Reference.Callee

/-!
Call sites: the places in the body of a function at which something is called.

A call is a path of names followed by an opening bracket, with type arguments between them where the
language has them. The bodies of declarations inside the function belong to those declarations.
-/

namespace CodeAtlas

structure CallSite where
  written : String
  line : Nat
  deriving Repr, DecidableEq

namespace CallSite

/-! ### What may stand between the path and the bracket -/

def isSegmentStart (c : Char) : Bool :=
  isDollarNameStart c || c == '#'

def afterParen? (cs : List Char) : Option (List Char) :=
  Text.after? ['('] (Text.trimStart cs)

/-- The rest after the last closing angle bracket of the longest stretch of class `p`. -/
def afterAngle? (p : Char → Bool) (cs : List Char) : Option (List Char) :=
  let run := cs.takeWhile p
  let tail := run.reverse.takeWhile (· != '>')
  if run.contains '>' then some (cs.drop (run.length - tail.length)) else none

def rustOpening? (cs : List Char) : Option (List Char) :=
  let typed := do
    let rest ← Text.after? [':', ':'] (Text.trimStart cs)
    let rest ← Text.after? ['<'] (Text.trimStart rest)
    let rest ← afterAngle? (fun c => !(c == ';' || c == '{' || c == '}' || c == '(' || c == ')'))
        rest
    afterParen? rest
  typed.or (afterParen? cs)

def afterOptionalParen? (cs : List Char) : Option (List Char) :=
  let chained := Text.after? ['?', '.'] (Text.trimStart cs) >>= afterParen?
  chained.or (afterParen? cs)

def isTypeArgument (c : Char) : Bool :=
  isWordChar c || isBlank c || [',', '.', '[', ']', '|', '&', '<', '>'].contains c

/-- The rest after the type arguments and the bracket of a TypeScript or JavaScript call. -/
def curlyOpening? (cs : List Char) : Option (List Char) :=
  let typed := do
    let rest ← Text.after? ['<'] (Text.trimStart cs)
    let rest ← afterAngle? isTypeArgument rest
    afterOptionalParen? rest
  typed.or (afterOptionalParen? cs)

def opening? : Family → List Char → Option (List Char)
  | .rust => rustOpening?
  | .curly => curlyOpening?
  | .python => afterParen?

/-! ### Calls -/

/-- A path with the opening bracket of a call behind it; `before` holds the characters before the
path, the last one first and blanks aside. -/
structure Opening where
  path : List Char
  before : List Char
  deriving Repr

def read (family : Family) (before cs : List Char) : Option (Opening × Nat) := do
  let afterPath ← Callee.afterPath? isSegmentStart cs
  let rest ← opening? family afterPath
  return (⟨cs.take (cs.length - afterPath.length), Text.trimStart before⟩, cs.length - rest.length)

def keywords : List String :=
  ["if", "elif", "else", "for", "while", "switch", "catch", "return", "match", "except", "with",
    "assert", "not", "and", "or", "in", "is", "lambda", "yield", "await", "typeof",
    "sizeof", "loop",
    "fn", "def", "function", "class", "new", "super", "throw", "case", "del", "from", "import",
    "raise", "as", "where", "impl", "unsafe", "move", "async", "void", "delete", "instanceof", "do",
    "try", "finally"]

/-- Words that introduce a declaration with the name behind them. -/
def declarers : List String :=
  ["fn", "def", "function", "class", "interface", "struct", "enum"]

def endsInWord (word : String) (before : List Char) : Bool :=
  match Text.after? word.toList.reverse before with
  | some rest => !rest.head?.any isWordChar
  | none => false

/-- Is a declaration named right after this text? A star may follow the word. -/
def isDeclaring (before : List Char) : Bool :=
  let plain := match before with
    | '*' :: rest => Text.trimStart rest
    | _ => before
  declarers.any (endsInWord · plain)

def isCall (o : Opening) : Bool :=
  let first := String.ofList (Text.trim ((Callee.segments o.path).headD []))
  !(keywords.contains (String.ofList o.path) || ["fn", "def", "function"].contains first
    || isDeclaring o.before)

def endsInSeparator (before : List Char) : Bool :=
  match before with
  | '.' :: _ => true
  | ':' :: ':' :: _ => true
  | _ => false

def endsInSuperCall (before : List Char) : Bool :=
  match before with
  | ')' :: rest =>
      match rest.dropWhile (fun c => c != '(' && c != ')') with
      | '(' :: rest => endsInWord "super" (Text.trimStart rest)
      | _ => false
  | _ => false

/-- The callee of a call. A path that goes on from the value of an expression starts with a dot, and
from a call of `super` with that call. -/
def callee (o : Opening) : String :=
  let path := o.path.filter (!isBlank ·)
  if endsInSeparator o.before then
    let value := Text.trimStart (o.before.dropWhile fun c => c == '.' || c == '?' || c == ':')
    String.ofList ((if endsInSuperCall value then "super().".toList else ['.']) ++ path)
  else String.ofList path

/-! ### Bodies -/

/-- The extents of the other declarations of a file that lie in the body of an entry. -/
def nestedSpans (entry : Entry) (siblings : List Entry) : List (Nat × Nat) :=
  (siblings.filter fun other =>
    other.id != entry.id && entry.bodyOffset ≤ other.declOffset
      && other.endOffset ≤ entry.endOffset).map fun other => (other.declOffset, other.endOffset)

/-- The text from offset `pos` on with blanks in place of all that lies in the spans, line feeds
apart. -/
def blankOut (spans : List (Nat × Nat)) : (pos : Nat) → List Char → List Char
  | _, [] => []
  | pos, c :: cs =>
      let inside := spans.any fun (start, stop) => start ≤ pos && pos < stop
      (if inside && c != '\n' then ' ' else c) :: blankOut spans (pos + 1) cs

def ownBody (entry : Entry) (masked : List Char) (siblings : List Entry) : List Char :=
  blankOut (nestedSpans entry siblings) entry.bodyOffset
    ((masked.take entry.endOffset).drop entry.bodyOffset)

/-- The offsets and callees of the calls in the body of an entry, in order. -/
def located (family : Family) (entry : Entry) (masked : List Char) (siblings : List Entry) :
    List (Nat × String) :=
  ((Mark.scan (read family) (ownBody entry masked siblings)).filter (isCall ·.kind)).map fun m =>
    (entry.bodyOffset + m.start, callee m.kind)

def ofEntry (family : Family) (entry : Entry) (masked : List Char) (lines : LineMap)
    (siblings : List Entry) : List CallSite :=
  (located family entry masked siblings).map fun (offset, written) =>
    ⟨written, lines.lineOf offset⟩

end CallSite

end CodeAtlas
