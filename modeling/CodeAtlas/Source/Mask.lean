import CodeAtlas.Source.Language
import CodeAtlas.Text.Word

/-!
Masking: blanking out comments and the contents of literals.

Everything that looks for structure reads the masked text, in which the inside of comments, strings
and character literals is blank. Delimiters of literals stay, and so do line feeds, so an offset or
a line number found in the masked text is one of the source text too.

A lexeme at a place is described by three lengths: what is shown, what is hidden after it, and what
is shown again at the end. Masking walks over the text one character at a time and takes a new
lexeme whenever the last one is used up.
-/

namespace CodeAtlas

/-- How a lexeme is masked: `shown` characters stay, then `hidden` ones go blank, then `closing`
ones stay. -/
structure Lexeme where
  shown : Nat
  hidden : Nat
  closing : Nat
  deriving Repr, DecidableEq

namespace Lexeme

def code : Lexeme := ⟨1, 0, 0⟩

def comment (length : Nat) : Lexeme := ⟨0, length, 0⟩

def size (l : Lexeme) : Nat := l.shown + l.hidden + l.closing

def hidesFirst (l : Lexeme) : Bool := l.shown == 0 && l.hidden != 0

def tail : Lexeme → Lexeme
  | ⟨shown + 1, hidden, closing⟩ => ⟨shown, hidden, closing⟩
  | ⟨0, hidden + 1, closing⟩ => ⟨0, hidden, closing⟩
  | ⟨0, 0, closing⟩ => ⟨0, 0, closing - 1⟩

end Lexeme

namespace Mask

def lineCommentLength (cs : List Char) : Nat :=
  (cs.takeWhile (· != '\n')).length

/-- The length of a block comment, from its opening on, when `depth` comments are open. Where
comments do not nest, an opening inside a comment opens nothing. A comment that is never closed
takes the whole text. -/
def blockCommentLength (nested : Bool) : (depth : Nat) → List Char → Nat
  | _, [] => 0
  | depth, '/' :: '*' :: cs =>
      2 + blockCommentLength nested (if nested then depth + 1 else 1) cs
  | depth, '*' :: '/' :: cs =>
      if depth ≤ 1 then 2 else 2 + blockCommentLength nested (depth - 1) cs
  | depth, _ :: cs => 1 + blockCommentLength nested depth cs

/-- The length of a string after its opening quote, closing quote included. A backslash takes the
next character with it. A string that may not hold a line feed ends before the first bare one. -/
def stringLength (quote : Char) (multiline : Bool) : List Char → Nat
  | [] => 0
  | '\\' :: [] => 1
  | '\\' :: _ :: cs => 2 + stringLength quote multiline cs
  | c :: cs =>
      if c == quote then 1
      else if c == '\n' && !multiline then 0
      else 1 + stringLength quote multiline cs

def stringLexeme (quote : Char) (multiline : Bool) (cs : List Char) : Lexeme :=
  let length := stringLength quote multiline cs
  if (cs.take length).getLast? == some quote then ⟨1, length - 1, 1⟩ else ⟨1, length, 0⟩

def distanceTo? (mark : List Char) (cs : List Char) : Option Nat :=
  (Text.cutAt? mark cs).map (·.1.length)

/-- The lexeme of a raw string `r"…"`, `r#"…"#` and so on: it ends at the first quote with as many
hash signs after it as stand before the opening quote. -/
def rawStringLexeme? : List Char → Option Lexeme
  | 'r' :: cs =>
      let hashes := cs.takeWhile (· == '#')
      match cs.drop hashes.length with
      | '"' :: body =>
          let opening := hashes.length + 2
          match distanceTo? ('"' :: hashes) body with
          | some length => some ⟨opening, length, hashes.length + 1⟩
          | none => some ⟨opening, body.length, 0⟩
      | _ => none
  | _ => none

def isHexDigit (c : Char) : Bool :=
  c.isDigit || ('a' ≤ c && c ≤ 'f') || ('A' ≤ c && c ≤ 'F')

def bracedCodePointLength? : List Char → Option Nat
  | '{' :: cs =>
      let digits := cs.takeWhile isHexDigit
      if 1 ≤ digits.length && digits.length ≤ 6 && (cs.drop digits.length).head? == some '}' then
        some (digits.length + 2)
      else none
  | _ => none

def characterLengths : List Char → List Nat
  | '\\' :: 'u' :: cs => ((bracedCodePointLength? cs).map (· + 2)).toList ++ [2]
  | '\\' :: 'x' :: a :: b :: _ => if isHexDigit a && isHexDigit b then [4, 2] else [2]
  | '\\' :: c :: _ => if c == '\n' then [] else [2]
  | ['\\'] => []
  | c :: _ => if c == '\'' || c == '\n' then [] else [1]
  | [] => []

/-- The lexeme of a character literal whose opening quote is followed by `cs`. -/
def characterLexeme? (cs : List Char) : Option Lexeme :=
  ((characterLengths cs).find? fun n => (cs.drop n).head? == some '\'').map fun n => ⟨1, n, 1⟩

def rustLexeme (before : Option Char) (cs : List Char) : Lexeme :=
  match cs with
  | '/' :: '/' :: _ => .comment (lineCommentLength cs)
  | '/' :: '*' :: _ => .comment (blockCommentLength true 0 cs)
  | 'r' :: _ => if before.any isWordChar then .code else (rawStringLexeme? cs).getD .code
  | '"' :: rest => stringLexeme '"' true rest
  | '\'' :: rest => (characterLexeme? rest).getD .code
  | _ => .code

def curlyLexeme (cs : List Char) : Lexeme :=
  match cs with
  | '/' :: '/' :: _ => .comment (lineCommentLength cs)
  | '/' :: '*' :: _ => .comment (blockCommentLength false 0 cs)
  | '"' :: rest => stringLexeme '"' false rest
  | '\'' :: rest => stringLexeme '\'' false rest
  | '`' :: rest => stringLexeme '`' true rest
  | _ => .code

/-- The number of backslashes right before a place, counted back in what stands before it, the
latest character first. -/
def backslashesBefore (done : List Char) : Nat :=
  (done.takeWhile (· == '\\')).length

/-- How many characters stand before the triple quote that closes a string: the first one with an
even number of backslashes right before it. `done` is the part of the string that has been
searched. -/
def tripleBodyLength? (quote : Char) : (done : List Char) → List Char → Option Nat
  | _, [] => none
  | done, c :: cs =>
      if Text.startsWith (c :: cs) [quote, quote, quote] && backslashesBefore done % 2 == 0
        then some 0
      else (tripleBodyLength? quote (c :: done) cs).map (· + 1)

def tripleLexeme (quote : Char) (cs : List Char) : Lexeme :=
  match tripleBodyLength? quote [] cs with
  | some length => ⟨3, length, 3⟩
  | none => ⟨3, cs.length, 0⟩

def pythonLexeme (cs : List Char) : Lexeme :=
  match cs with
  | '#' :: _ => .comment (lineCommentLength cs)
  | '"' :: '"' :: '"' :: rest => tripleLexeme '"' rest
  | '\'' :: '\'' :: '\'' :: rest => tripleLexeme '\'' rest
  | '"' :: rest => stringLexeme '"' false rest
  | '\'' :: rest => stringLexeme '\'' false rest
  | _ => .code

def lexeme : Family → (before : Option Char) → List Char → Lexeme
  | .rust, before, cs => rustLexeme before cs
  | .curly, _, cs => curlyLexeme cs
  | .python, _, cs => pythonLexeme cs

/-- A hidden character: a line feed stays, all else becomes a space. -/
def hide (c : Char) : Char :=
  if c == '\n' then '\n' else ' '

/-- Mask the text from a place on, where `current` is what is left of the lexeme that began
earlier. -/
def maskFrom (f : Family) : (current : Lexeme) → (before : Option Char) → List Char → List Char
  | _, _, [] => []
  | current, before, c :: cs =>
      let now := if current.size == 0 then lexeme f before (c :: cs) else current
      (if now.hidesFirst then hide c else c) :: maskFrom f now.tail (some c) cs

end Mask

def mask (f : Family) (cs : List Char) : List Char :=
  Mask.maskFrom f ⟨0, 0, 0⟩ none cs

end CodeAtlas
