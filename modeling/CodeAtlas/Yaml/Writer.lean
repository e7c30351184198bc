import CodeAtlas.Json.Printer
import CodeAtlas.Yaml.Scalar

/-!
Writing texts as keys of a YAML mapping.

A text is written without quotes where it then reads back as itself, in single quotes where these
can hold it, and in double quotes with escapes otherwise. A key that is empty, that has a line break
or that is long stands on a line of its own after a question mark, and lines wider than `bestWidth`
are folded there.
-/

namespace CodeAtlas.Yaml

def bestWidth : Nat := 80

def longKey : Nat := 123

def isBreakChar (c : Char) : Bool :=
  c == '\n' || c == '\u0085' || c == '\u2028' || c == '\u2029'

def isSpaceChar (c : Char) : Bool :=
  c == ' ' || c == '\t' || c == '\r' || c == '\x00' || isBreakChar c

def isOrdinary (c : Char) : Bool :=
  c == '\n' || (' ' ≤ c && c ≤ '~')

/-! ### Which style a text allows -/

/-- Is an indicator in the way of writing a text without quotes? `before` is the character
before. -/
def hasIndicatorFrom : (before : Option Char) → List Char → Bool
  | _, [] => false
  | before, c :: cs =>
      let closed := cs.head?.all isSpaceChar
      (c == ':' && closed) || (c == '#' && before.any isSpaceChar) || hasIndicatorFrom (some c) cs

def startsWithIndicator (cs : List Char) : Bool :=
  let first := match cs with
    | c :: rest =>
        "#,[]\x7b\x7d&*!|>'\"%@`".toList.contains c
          || ((c == '?' || c == ':' || c == '-') && rest.head?.all isSpaceChar)
    | [] => false
  first || Text.startsWith cs ['-', '-', '-'] || Text.startsWith cs ['.', '.', '.']

def hasPair (p q : Char → Bool) : List Char → Bool
  | a :: b :: cs => (p a && q b) || hasPair p q (b :: cs)
  | _ => false

def allowsPlain (cs : List Char) : Bool :=
  let edge := cs.head?.any (· == ' ') || cs.getLast?.any (· == ' ')
  !cs.isEmpty && !edge && cs.all (fun c => ' ' ≤ c && c ≤ '~') && !startsWithIndicator cs
    && !hasIndicatorFrom none cs && Tag.ofPlain (String.ofList cs) == .text

def allowsSingle (cs : List Char) : Bool :=
  cs.all isOrdinary && !hasPair isBreakChar (· == ' ') cs && !hasPair (· == ' ') isBreakChar cs

/-! ### Writing -/

/-- What has been written, the last line first and each line with its last character first. -/
structure Page where
  done : List (List Char) := []
  line : List Char := []

namespace Page

def column (p : Page) : Nat := p.line.length

def put (cs : List Char) (p : Page) : Page :=
  { p with line := cs.reverse ++ p.line }

def newline (p : Page) : Page :=
  ⟨p.line :: p.done, []⟩

def indent (width : Nat) (p : Page) : Page :=
  p.newline.put (List.replicate width ' ')

def text (p : Page) : List Char :=
  Text.join ['\n'] ((p.line :: p.done).reverse.map List.reverse)

end Page

def runs (classOf : Char → Nat) : List Char → List (List Char)
  | [] => []
  | c :: cs =>
      match runs classOf cs with
      | (d :: run) :: rest =>
          if classOf c == classOf d then (c :: d :: run) :: rest else [c] :: (d :: run) :: rest
      | rest => [c] :: rest

def foldClass (c : Char) : Nat :=
  if c == ' ' then 0 else if c == '\n' then 1 else 2

/-- Write the runs of a text without escapes; a single blank past the width becomes a new line where
folding is allowed. `isInner` says whether a run has others on both sides. -/
def putRuns (quoted fold : Bool) (width : Nat) : (isFirst : Bool) → List (List Char) → Page → Page
  | _, [], p => p
  | isFirst, run :: rest, p =>
      let isInner := !quoted || (!isFirst && !rest.isEmpty)
      let next := match run with
        | [' '] =>
            if fold && isInner && bestWidth < p.column then p.indent width else p.put run
        | '\n' :: _ =>
            ((List.replicate run.length ()).foldl (fun p _ => p.newline) p).indent width
        | _ =>
          p.put (if quoted then run.flatMap fun c => if c == '\'' then ['\'', c] else [c] else run)
      putRuns quoted fold width false rest next

def escaped (c : Char) : List Char :=
  let short : List (Char × Char) := [('\x00', '0'), ('\x07', 'a'), ('\x08', 'b'), ('\t', 't'),
    ('\n', 'n'), ('\x0b', 'v'), ('\x0c', 'f'), ('\r', 'r'), ('\x1b', 'e'), ('"', '"'), ('\\', '\\'),
    ('\u0085', 'N'), ('\u00a0', '_'), ('\u2028', 'L'), ('\u2029', 'P')]
  let upper (cs : List Char) : List Char := cs.map Char.toUpper
  match short.lookup c with
  | some d => ['\\', d]
  | none =>
      if ' ' ≤ c && c ≤ '~' then [c]
      else if c.toNat < 0x100 then '\\' :: 'x' :: upper (hexText 2 c.toNat)
      else if c.toNat < 0x10000 then '\\' :: 'u' :: upper (hexText 4 c.toNat)
      else '\\' :: 'U' :: upper (hexText 8 c.toNat)

def isVerbatim (c : Char) : Bool :=
  escaped c == [c]

/-- Write a text in double quotes. `run` holds the characters since the last escape that are not
written yet, the last one first. Past the width a line ends in a backslash: at a blank, after an
escape or at the character behind one, but not at the first or the last character. A blank that
starts the next line has a backslash before it. -/
def putEscaped (fold : Bool) (width : Nat) :
    (isFirst : Bool) → (run : List Char) → List Char → Page → Page
  | _, run, [], p => p.put run.reverse
  | isFirst, run, c :: cs, p =>
      let mayFold := fold && !isFirst && !cs.isEmpty
      let broken (p : Page) (next : Option Char) : Page :=
        let p := (p.put ['\\']).indent width
        if next == some ' ' then p.put ['\\'] else p
      if isVerbatim c then
        if mayFold && (c == ' ' || run.isEmpty) && bestWidth < p.column + run.length then
          putEscaped fold width false [c] cs (broken (p.put run.reverse) (some c))
        else putEscaped fold width false (c :: run) cs p
      else
        let p := (p.put run.reverse).put (escaped c)
        putEscaped fold width false [] cs
          (if mayFold && bestWidth + 1 < p.column then broken p cs.head? else p)

/-- Write a text in the plainest style that holds it. A key on the same line as its value is not
folded and has no line breaks. -/
def putText (simple : Bool) (width : Nat) (cs : List Char) (p : Page) : Page :=
  if allowsPlain cs then putRuns false (!simple) width true (runs foldClass cs) p
  else if allowsSingle cs && !(simple && cs.any isBreakChar) then
    (putRuns true (!simple) width true (runs foldClass cs) (p.put ['\''])).put ['\'']
  else (putEscaped (!simple) width true [] cs (p.put ['"'])).put ['"']

def isSimpleKey (cs : List Char) : Bool :=
  !cs.isEmpty && !cs.any isBreakChar && cs.length < longKey

def putBlankEntry (width : Nat) (p : Page) (key : String) : Page :=
  let cs := key.toList
  let p := p.indent width
  if isSimpleKey cs then (putText true (width + 2) cs p).put ": ''".toList
  else ((putText false (width + 2) cs (p.put ['?', ' '])).indent width).put ": ''".toList

def blankMapping (name : String) (keys : List String) : String :=
  if keys.isEmpty then name ++ ": \x7b\x7d\n"
  else
    let page := keys.foldl (putBlankEntry 2) (({} : Page).put (name ++ ":").toList)
    String.ofList (page.text ++ ['\n'])

end CodeAtlas.Yaml
