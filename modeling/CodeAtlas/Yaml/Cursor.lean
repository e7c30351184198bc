import CodeAtlas.Text.CodePoint
import CodeAtlas.Yaml.Fault

/-!
A place in a YAML text, and the scalars that can be read from it.
-/

namespace CodeAtlas.Yaml

def isAllowed (c : Char) : Bool :=
  let n := c.toNat
  n == 9 || n == 10 || n == 13 || (32 ≤ n && n ≤ 126) || n == 0x85 || (0xA0 ≤ n && n ≤ 0xD7FF)
    || (0xE000 ≤ n && n ≤ 0xFFFD) || 0x10000 ≤ n

/-- Is there a blank, a tab, a line break or the end of the text? -/
def isGap (c : Option Char) : Bool :=
  c.all isSpaceChar

def isGapNoTab (c : Option Char) : Bool :=
  c.all fun c => c == ' ' || c == '\r' || isBreakChar c

structure Cursor where
  rest : List Char
  index : Nat := 0
  line : Nat := 0
  column : Nat := 0

namespace Cursor

def head? (c : Cursor) : Option Char := c.rest.head?

def second? (c : Cursor) : Option Char := (c.rest.drop 1).head?

/-- The place behind one character. A byte order mark takes no column. -/
def step (c : Cursor) : Cursor :=
  match c.rest with
  | [] => c
  | x :: rest =>
      if isBreakChar x then ⟨rest, c.index + 1, c.line + 1, 0⟩
      else ⟨rest, c.index + 1, c.line, if x == '\ufeff' then c.column else c.column + 1⟩

def skip (c : Cursor) (count : Nat) : Cursor :=
  (List.range count).foldl (fun c _ => c.step) c

def takeWhile (c : Cursor) (p : Char → Bool) : List Char × Cursor :=
  let run := c.rest.takeWhile p
  (run, c.skip run.length)

def dropWhile (c : Cursor) (p : Char → Bool) : Cursor :=
  (c.takeWhile p).2

def dropBlanks (c : Cursor) : Cursor :=
  c.dropWhile (· == ' ')

def dropLine (c : Cursor) : Cursor :=
  c.dropWhile fun x => !isBreakChar x

def lineBreak? (c : Cursor) : Option (Char × Cursor) :=
  match c.rest with
  | x :: _ =>
      if x == '\u2028' || x == '\u2029' then some (x, c.step)
      else if isBreakChar x then some ('\n', c.step)
      else none
  | [] => none

def isMark (c : Cursor) (mark : List Char) : Bool :=
  Text.startsWith c.rest mark && isGap (c.rest.drop 3).head?

def isDocumentMark (c : Cursor) : Bool :=
  c.isMark ['-', '-', '-'] || c.isMark ['.', '.', '.']

/-! ### Folding -/

/-- What line breaks become inside a scalar: one is a blank, and further ones are kept. -/
def folded (first : Char) (more : List Char) : List Char :=
  if first != '\n' then first :: more else if more.isEmpty then [' '] else more

/-! ### Plain scalars -/

/-- The characters of a plain scalar up to a gap, a colon before a gap, or a comma or bracket of a
collection. -/
def plainRun (inFlow : Bool) : List Char → List Char
  | [] => []
  | c :: cs =>
      let isColon := c == ':'
        && (isGap cs.head? || (inFlow && cs.head?.any ",[]\x7b\x7d".toList.contains))
      if isSpaceChar c || isColon || (inFlow && ",?[]\x7b\x7d".toList.contains c) then []
      else c :: plainRun inFlow cs

/-- The line breaks and blanks before the next line of a plain scalar; nothing if a document starts
or ends there. `fuel` bounds their number. -/
def plainBreaks : (fuel : Nat) → (breaks : List Char) → Cursor → Option (List Char) × Cursor
  | 0, breaks, c => (some breaks, c)
  | fuel + 1, breaks, c =>
      if c.isDocumentMark && c.column == 0 then (none, c)
      else
        let c := c.dropBlanks
        match c.lineBreak? with
        | some (x, c) => plainBreaks fuel (breaks ++ [x]) c
        | none => (some breaks, c)

/-- What stands between two runs of a plain scalar, as text, whether a line ended, and the place
behind it. The text is empty where the scalar ends. -/
def plainGap (c : Cursor) : List Char × Bool × Cursor :=
  let (blanks, c) := c.takeWhile (· == ' ')
  match c.lineBreak? with
  | none => (blanks, false, c)
  | some (first, c) =>
      match plainBreaks (c.rest.length + 1) [] c with
      | (some more, c) => (folded first more, true, c)
      | (none, c) => ([], true, c)

/-- A plain scalar whose lines are indented by at least `indent`: its text, whether a line ended
behind it, and the place behind it. `gap` is what stood before the next run; `fuel` bounds the
number of runs. -/
def plain (inFlow : Bool) (indent : Int) :
    (fuel : Nat) → (gap : List Char) → (broke : Bool) → Cursor → List Char × Bool × Cursor
  | 0, _, broke, c => ([], broke, c)
  | fuel + 1, gap, broke, c =>
      let run := plainRun inFlow c.rest
      if run.isEmpty || c.head? == some '#' then ([], broke, c)
      else
        let (next, ended, c) := (c.skip run.length).plainGap
        if next.isEmpty || c.head? == some '#' || (!inFlow && (c.column : Int) < indent) then
          (gap ++ run, ended, c)
        else
          let (text, ended, c) := plain inFlow indent fuel next ended c
          (gap ++ run ++ text, ended, c)

/-! ### Quoted scalars -/

def shortEscape? (c : Char) : Option Char :=
  [('0', '\x00'), ('a', '\x07'), ('b', '\x08'), ('t', '\t'), ('\t', '\t'),
    ('n', '\n'), ('v', '\x0b'), ('f', '\x0c'), ('r', '\r'), ('e', '\x1b'), (' ', ' '), ('"', '"'),
    ('\\', '\\'), ('/', '/'),
    ('N', '\u0085'), ('_', '\u00a0'), ('L', '\u2028'), ('P', '\u2029')].lookup c

def escapeWidth? (c : Char) : Option Nat :=
  [('x', 2), ('u', 4), ('U', 8)].lookup c

def hexNumber? (cs : List Char) : Option Nat := do
  return Numeral.ofDigits 16 (← cs.mapM (Numeral.digit? 16))

/-- The line breaks inside a quoted scalar that starts at an offset, blanks and tabs around them
aside; `fuel` bounds their number. -/
def quotedBreaks (start : Nat) :
    (fuel : Nat) → (breaks : List Char) → Cursor → Except Fault (List Char × Cursor)
  | 0, _, _ => .error .endless
  | fuel + 1, breaks, c =>
      if c.isDocumentMark then
        .error (.malformedIn "while scanning a quoted scalar" start
          "found unexpected document separator" c.index)
      else
        let c := c.dropWhile fun x => x == ' ' || x == '\t'
        match c.lineBreak? with
        | some (x, c) => quotedBreaks start fuel (breaks ++ [x]) c
        | none => .ok (breaks, c)

/-- An escape in a scalar that starts at an offset. Its backslash is passed already. -/
def escape (start : Nat) (c : Cursor) : Except Fault (List Char × Cursor) := do
  let wrong (problem : String) (place : Nat) : Fault :=
    .malformedIn "while scanning a double-quoted scalar" start problem place
  let unknown := wrong ("found unknown escape character " ++ namedChar c.head?) c.index
  let some x := c.head? | .error unknown
  if let some y := shortEscape? x then return ([y], c.step)
  if let some width := escapeWidth? x then
    let written := (c.rest.drop 1).take width
    let digits := written.takeWhile fun d => (Numeral.digit? 16 d).isSome
    let short := wrong ("expected escape sequence of " ++ toString width
      ++ " hexadecimal numbers, but found " ++ namedChar (c.rest.drop (digits.length + 1)).head?)
      (c.index + 1)
    let some n := hexNumber? digits | .error short
    if digits.length != width then .error short
    else if 0x7FFFFFFF < n then .error .largeNumber
    else if maxCode < n then .error .badNumber
    else return ([charOfCode n], c.skip (width + 1))
  else if let some (_, c) := c.lineBreak? then quotedBreaks start (c.rest.length + 1) [] c
  else .error unknown

/-- The rest of a quoted scalar that starts at an offset, up to its closing quote; `fuel` bounds the
number of its pieces. -/
def quoted (quote : Char) (start : Nat) : (fuel : Nat) → Cursor → Except Fault (List Char × Cursor)
  | 0, _ => .error .endless
  | fuel + 1, c => do
      let isDouble := quote == '"'
      let some x := c.head?
        | .error (.malformedIn "while scanning a quoted scalar" start
            "found unexpected end of stream"
            c.index)
      if x == ' ' || x == '\t' || isBreakChar x then
        let (blanks, c) := c.takeWhile fun x => x == ' ' || x == '\t'
        let (gap, c) ← match c.lineBreak? with
          | some (first, c) => do
              let (more, c) ← quotedBreaks start (c.rest.length + 1) [] c
              pure (folded first more, c)
          | none => pure (blanks, c)
        let (text, c) ← quoted quote start fuel c
        return (gap ++ text, c)
      else if x == quote then
        if !isDouble && c.second? == some '\'' then
          let (text, c) ← quoted quote start fuel (c.skip 2)
          return ('\'' :: text, c)
        else return ([], c.step)
      else if isDouble && x == '\\' then
        let (piece, c) ← escape start c.step
        let (text, c) ← quoted quote start fuel c
        return (piece ++ text, c)
      else
        let (text, c) ← quoted quote start fuel c.step
        return (x :: text, c)

/-! ### Block scalars -/

inductive Chomping where
  | clip
  | strip
  | keep
  deriving Repr, DecidableEq

def chomping? (c : Cursor) : Option (Chomping × Cursor) :=
  match c.head? with
  | some '+' => some (.keep, c.step)
  | some '-' => some (.strip, c.step)
  | _ => none

def badBlock (start : Nat) (problem : String) (place : Nat) : Fault :=
  .malformedIn "while scanning a block scalar" start problem place

/-- A digit for the indentation of a block scalar that starts at an offset; zero is none. -/
def increment? (start : Nat) (c : Cursor) : Except Fault (Option (Nat × Cursor)) :=
  match c.head? with
  | some x =>
      if x == '0' then
        .error (badBlock start "expected indentation indicator in the range 1-9, but found 0"
          c.index)
      else if x.isDigit then .ok (some (x.toNat - '0'.toNat, c.step))
      else .ok none
  | none => .ok none

def blockSigns (start : Nat) (c : Cursor) : Except Fault (Chomping × Option Nat × Cursor) := do
  match c.chomping? with
  | some (chomping, c) =>
      match ← c.increment? start with
      | some (n, c) => return (chomping, some n, c)
      | none => return (chomping, none, c)
  | none =>
      match ← c.increment? start with
      | some (n, c) =>
          match c.chomping? with
          | some (chomping, c) => return (chomping, some n, c)
          | none => return (.clip, some n, c)
      | none => return (.clip, none, c)

/-- The rest of a line that may hold blanks and a comment only, with its line break; `wrong` is the
fault of a line that holds more. -/
def emptyLine (wrong : String → Nat → Fault) (c : Cursor) : Except Fault Cursor :=
  let c := c.dropBlanks
  let c := if c.head? == some '#' then c.dropLine else c
  match c.lineBreak? with
  | some (_, c) => .ok c
  | none =>
      if c.rest.isEmpty then .ok c
      else .error (wrong ("expected a comment or a line break, but found " ++ namedChar c.head?)
        c.index)

/-- The line breaks before the first line of a block scalar, the widest indentation met, and the
place behind them; `fuel` bounds their number. -/
def leadingBreaks : (fuel : Nat) → (breaks : List Char) → (widest : Nat) → Cursor →
    List Char × Nat × Cursor
  | 0, breaks, widest, c => (breaks, widest, c)
  | fuel + 1, breaks, widest, c =>
      let c := c.dropBlanks
      let widest := max widest c.column
      match c.lineBreak? with
      | some (x, c) => leadingBreaks fuel (breaks ++ [x]) widest c
      | none => (breaks, widest, c)

/-- The place behind at most as many blanks as lead up to a column. -/
def dropIndent (c : Cursor) (indent : Nat) : Cursor :=
  c.skip ((c.rest.take (indent - c.column)).takeWhile (· == ' ')).length

def blockBreaks (indent : Nat) : (fuel : Nat) → (breaks : List Char) → Cursor → List Char × Cursor
  | 0, breaks, c => (breaks, c)
  | fuel + 1, breaks, c =>
      let c := c.dropIndent indent
      match c.lineBreak? with
      | some (x, c) => blockBreaks indent fuel (breaks ++ [x]) c
      | none => (breaks, c)

/-- The lines of a block scalar from the place on, and the line breaks behind them: the one that
ends the last line, and the others. `fuel` bounds the number of lines. -/
def blockLines (isFolded : Bool) (indent : Nat) :
    (fuel : Nat) → Cursor → List Char × List Char × List Char × Cursor
  | 0, c => ([], [], [], c)
  | fuel + 1, c =>
      let isMore (x : Option Char) : Bool := x.any fun x => x == ' ' || x == '\t'
      let starts := !isMore c.head?
      let (line, c) := c.takeWhile fun x => !isBreakChar x
      let (ending, c) := match c.lineBreak? with
        | some (x, c) => ([x], c)
        | none => ([], c)
      let (breaks, c) := blockBreaks indent (c.rest.length + 1) [] c
      if c.column == indent && !c.rest.isEmpty then
        let joint :=
          if isFolded && ending == ['\n'] && starts && !isMore c.head? then
            (if breaks.isEmpty then [' '] else [])
          else ending
        let (text, last, more, c) := blockLines isFolded indent fuel c
        (line ++ joint ++ breaks ++ text, last, more, c)
      else (line, ending, breaks, c)

/-- A block scalar that starts at an offset and whose indicator is passed already; its lines are
indented deeper than `outer`. -/
def block (isFolded : Bool) (outer : Int) (start : Nat) (c : Cursor) :
    Except Fault (List Char × Cursor) := do
  let (chomping, increment, c) ← c.blockSigns start
  if !isGapNoTab c.head? then
    .error (badBlock start
      ("expected chomping or indentation indicators, but found " ++ namedChar c.head?) c.index)
  else
    let c ← c.emptyLine (badBlock start)
    let least := max 1 (outer + 1).toNat
    let (breaks, indent, c) := match increment with
      | some n =>
          let indent := least + n - 1
          let (breaks, c) := blockBreaks indent (c.rest.length + 1) [] c
          (breaks, indent, c)
      | none =>
          let (breaks, widest, c) := leadingBreaks (c.rest.length + 1) [] 0 c
          (breaks, max least widest, c)
    let (text, last, more, c) :=
      if c.column == indent && !c.rest.isEmpty then
        let (text, last, more, c) := blockLines isFolded indent (c.rest.length + 1) c
        (breaks ++ text, last, more, c)
      else ([], [], breaks, c)
    return (match chomping with
      | .clip => text ++ last
      | .strip => text
      | .keep => text ++ last ++ more, c)

end Cursor

end CodeAtlas.Yaml
