import CodeAtlas.Text.Utf8
import CodeAtlas.Yaml.Cursor

/-!
Tokens of a YAML text.

Indentation becomes tokens that open and close block collections. A scalar may turn out to be a key
only when the colon behind it is met, so places for keys are remembered and filled in later; a key
that the indentation demands must be followed by its colon on the same line.

A text that is no YAML document still has the tokens before its first fault, as far as it is settled
which of them are keys. A fault among these comes first.
-/

namespace CodeAtlas.Yaml

inductive Directive where
  | version (major : Nat)
  | tag (handle lead : String)
  | other
  deriving Repr, DecidableEq

inductive Token where
  | directive (d : Directive)
  | documentStart
  | documentEnd
  | streamEnd
  | blockSequence
  | blockMapping
  | blockEnd
  | flowSequence
  | flowSequenceEnd
  | flowMapping
  | flowMappingEnd
  | blockEntry
  | flowEntry
  | key
  | value
  | alias_ (name : String)
  | anchor (name : String)
  | tag (handle : Option String) (suffix : String)
  | scalar (text : String) (isPlain : Bool)
  deriving Repr, DecidableEq

def Token.label : Token → String
  | directive _ => "<directive>"
  | documentStart => "<document start>"
  | documentEnd => "<document end>"
  | streamEnd => "<stream end>"
  | blockSequence => "<block sequence start>"
  | blockMapping => "<block mapping start>"
  | blockEnd => "<block end>"
  | flowSequence => "["
  | flowSequenceEnd => "]"
  | flowMapping => "\x7b"
  | flowMappingEnd => "\x7d"
  | blockEntry => "-"
  | flowEntry => ","
  | key => "?"
  | value => ":"
  | alias_ _ => "<alias>"
  | anchor _ => "<anchor>"
  | tag _ _ => "<tag>"
  | scalar _ _ => "<scalar>"

structure PlacedToken where
  token : Token
  start : Nat
  stop : Nat
  deriving Repr, DecidableEq

structure KeyPlace where
  token : Nat
  isRequired : Bool
  index : Nat
  line : Nat
  column : Nat

structure Reader where
  cursor : Cursor
  flow : Nat := 0
  indent : Int := -1
  outerIndents : List Int := []
  mayStartKey : Bool := true
  keys : List (Nat × KeyPlace) := []
  tokens : Array PlacedToken := #[]

abbrev Reading := StateT Reader (Except Fault)

namespace Reading

def head? : Reading (Option Char) := return (← get).cursor.head?

def emitFrom (start : Nat) (t : Token) : Reading Unit :=
  modify fun r => { r with tokens := r.tokens.push ⟨t, start, r.cursor.index⟩ }

def emit (t : Token) : Reading Unit := do
  emitFrom (← get).cursor.index t

def emitAt (place : KeyPlace) (t : Token) : Reading Unit :=
  modify fun r =>
    let (before, after) := r.tokens.toList.splitAt place.token
    { r with tokens := (before ++ ⟨t, place.index, place.index⟩ :: after).toArray }

def moveTo (c : Cursor) : Reading Unit :=
  modify fun r => { r with cursor := c }

def allowKey (b : Bool) : Reading Unit :=
  modify fun r => { r with mayStartKey := b }

/-! ### Places for keys -/

def maxKeyLength : Nat := 1024

def noColon (k : KeyPlace) (place : Nat) : Fault :=
  .malformedIn "while scanning a simple key" k.index "could not find expected ':'" place

/-- Forget the places on earlier lines and those that are too far away. -/
def dropStaleKeys : Reading Unit := do
  let r ← get
  let isStale (k : KeyPlace) : Bool :=
    k.line != r.cursor.line || maxKeyLength < r.cursor.index - k.index
  if let some (_, k) := r.keys.find? fun (_, k) => isStale k && k.isRequired then
    throw (noColon k r.cursor.index)
  set { r with keys := r.keys.filter fun (_, k) => !isStale k }

def dropKey : Reading Unit := do
  let r ← get
  if let some k := (r.keys.lookup r.flow).filter (·.isRequired) then
    throw (noColon k r.cursor.index)
  set { r with keys := r.keys.filter (·.1 != r.flow) }

def saveKey : Reading Unit := do
  let r ← get
  if r.mayStartKey then
    dropKey
    let c := r.cursor
    let isRequired := r.flow == 0 && r.indent == c.column
    modify fun r =>
      { r with keys := (r.flow, ⟨r.tokens.size, isRequired, c.index, c.line, c.column⟩) :: r.keys }

/-! ### Indentation -/

def closeTo (column : Int) : (indent : Int) → (outer : List Int) → Reading Unit
  | indent, outer =>
      if indent ≤ column then modify fun r => { r with indent := indent, outerIndents := outer }
      else do
        emit .blockEnd
        match outer with
        | next :: rest => closeTo column next rest
        | [] => modify fun r => { r with indent := -1, outerIndents := [] }

/-- Close the block collections that are indented deeper than a column, outside of flow
collections. -/
def unwind (column : Int) : Reading Unit := do
  let r ← get
  if r.flow == 0 then closeTo column r.indent r.outerIndents

/-- Open a block collection at a column that is deeper than the innermost one; say whether it is. -/
def deepen (column : Int) : Reading Bool := do
  let r ← get
  if r.indent < column then
    set { r with indent := column, outerIndents := r.indent :: r.outerIndents }
    return true
  else return false

def column : Reading Int := return (← get).cursor.column

/-! ### Gaps -/

/-- Skip blanks, comments and line breaks; `fuel` bounds the number of lines. -/
def skipGapFuel : (fuel : Nat) → Reading Unit
  | 0 => return
  | fuel + 1 => do
      let r ← get
      let c := r.cursor.dropBlanks
      let c := if c.head? == some '#' then c.dropLine else c
      match c.lineBreak? with
      | some (_, c) =>
          set { r with cursor := c, mayStartKey := r.mayStartKey || r.flow == 0 }
          skipGapFuel fuel
      | none => moveTo c

def skipGap : Reading Unit := do
  let c := (← get).cursor
  if c.index == 0 && c.head? == some '\uFEFF' then moveTo c.step
  skipGapFuel ((← get).cursor.rest.length + 1)

/-! ### Names -/

def isNameChar (c : Char) : Bool :=
  c.isAlphanum || c == '-' || c == '_'

/-- The fault of meeting another character than expected; `wrong` says what was being read. -/
def unexpected (wrong : String → Nat → Fault) (wanted : String) (c : Cursor) : Fault :=
  wrong ("expected " ++ wanted ++ ", but found " ++ namedChar c.head?) c.index

def name (wrong : String → Nat → Fault) (c : Cursor) : Except Fault (String × Cursor) :=
  match c.takeWhile isNameChar with
  | ([], _) => .error (unexpected wrong "alphabetic or numeric character" c)
  | (run, c) => .ok (String.ofList run, c)

def anchorName (kind : String) (c : Cursor) : Except Fault (String × Cursor) := do
  let wrong := Fault.malformedIn ("while scanning an " ++ kind) c.index
  let (text, c) ← name wrong c.step
  if isGap c.head? || c.head?.any "?:,]\x7d%@`".toList.contains then return (text, c)
  else .error (unexpected wrong "alphabetic or numeric character" c)

def badTag (kind : String) (start : Nat) : String → Nat → Fault :=
  .malformedIn ("while scanning a " ++ kind) start

def handle (kind : String) (start : Nat) (c : Cursor) : Except Fault (String × Cursor) :=
  if c.head? != some '!' then .error (unexpected (badTag kind start) "'!'" c)
  else
    let (run, after) := c.step.takeWhile isNameChar
    if after.head? == some '!' then .ok (String.ofList ('!' :: run ++ ['!']), after.step)
    else if c.second? == some ' ' then .ok ("!", c.step)
    else .error (unexpected (badTag kind start) "'!'" after)

/-- The bytes of a run of escaped characters, and the place behind it; `fuel` bounds its length. -/
def escapedBytes (kind : String) (start : Nat) :
    (fuel : Nat) → Cursor → Except Fault (List UInt8 × Cursor)
  | 0, c => .ok ([], c)
  | fuel + 1, c => do
      if c.head? != some '%' then return ([], c)
      let written := (c.rest.drop 1).take 2
      let digits := written.takeWhile fun d => (Numeral.digit? 16 d).isSome
      let short :=
        badTag kind start ("expected URI escape sequence of 2 hexadecimal numbers, but found "
        ++ namedChar (c.rest.drop (digits.length + 1)).head?) (c.index + 1)
      let some n := Cursor.hexNumber? digits | .error short
      if digits.length != 2 then .error short
      let (bytes, c) ← escapedBytes kind start fuel (c.skip 3)
      return (UInt8.ofNat n :: bytes, c)

def tagText (kind : String) (start : Nat) :
    (fuel : Nat) → Cursor → Except Fault (List Char × Cursor)
  | 0, c => .ok ([], c)
  | fuel + 1, c => do
      let some x := c.head? | return ([], c)
      if x == '%' then
        let (bytes, after) ← escapedBytes kind start fuel c
        let .ok run := Utf8.decode bytes | .error (badTag kind start "invalid UTF-8" c.index)
        let (text, after) ← tagText kind start fuel after
        return (run ++ text, after)
      else if x.isAlphanum || "-;/?:@&=+$,_.!~*'()[]".toList.contains x then
        let (text, c) ← tagText kind start fuel c.step
        return (x :: text, c)
      else return ([], c)

def tagSuffix (kind : String) (start : Nat) (c : Cursor) : Except Fault (String × Cursor) := do
  let (text, c) ← tagText kind start (c.rest.length + 1) c
  if text.isEmpty then
    .error (unexpected (.malformedIn ("while parsing a " ++ kind) start) "URI" c)
  else return (String.ofList text, c)

def tag (c : Cursor) : Except Fault (Token × Cursor) := do
  let start := c.index
  let (token, c) ←
    if c.second? == some '<' then do
      let (suffix, c) ← tagSuffix "tag" start (c.skip 2)
      if c.head? != some '>' then .error (unexpected (badTag "tag" start) "'>'" c)
      else pure (Token.tag none suffix, c.step)
    else if isGap c.second? then pure (Token.tag none "!", c.step)
    else
      let written := (c.rest.drop 1).takeWhile fun x => !(x == ' ' || isBreakChar x)
      if written.contains '!' then do
        let (handle, c) ← handle "tag" start c
        let (suffix, c) ← tagSuffix "tag" start c
        pure (Token.tag (some handle) suffix, c)
      else do
        let (suffix, c) ← tagSuffix "tag" start c.step
        pure (Token.tag (some "!") suffix, c)
  if isGapNoTab c.head? then return (token, c)
  else .error (unexpected (badTag "tag" start) "' '" c)

def number (wrong : String → Nat → Fault) (c : Cursor) : Except Fault (Nat × Cursor) :=
  match c.takeWhile Char.isDigit with
  | ([], _) => .error (unexpected wrong "a digit" c)
  | (run, c) =>
      if Numeral.maxDigits < run.length then .error .badNumber else .ok (Numeral.decimal run, c)

def directive (c : Cursor) : Except Fault (Directive × Cursor) := do
  let start := c.index
  let wrong := badTag "directive" start
  let (word, c) ← name wrong c.step
  if !isGapNoTab c.head? then .error (unexpected wrong "alphabetic or numeric character" c)
  else if word == "YAML" then
    let (major, c) ← number wrong c.dropBlanks
    if c.head? != some '.' then .error (unexpected wrong "a digit or '.'" c)
    else
      let (_, c) ← number wrong c.step
      if isGapNoTab c.head? then return (.version major, ← c.emptyLine wrong)
      else .error (unexpected wrong "a digit or ' '" c)
  else if word == "TAG" then
    let (handle, c) ← handle "directive" start c.dropBlanks
    if c.head? != some ' ' then .error (unexpected wrong "' '" c)
    else
      let (lead, c) ← tagSuffix "directive" start c.dropBlanks
      if isGapNoTab c.head? then return (.tag handle lead, ← c.emptyLine wrong)
      else .error (unexpected wrong "' '" c)
  else return (.other, ← c.dropLine.emptyLine wrong)

/-! ### Tokens -/

def endBlocks : Reading Unit := do
  unwind (-1)
  dropKey
  allowKey false

def pass (count : Nat) (t : Token) : Reading Unit := do
  let c := (← get).cursor
  moveTo (c.skip count)
  emitFrom c.index t

def single (t : Token) : Reading Unit := pass 1 t

def openFlow (t : Token) : Reading Unit := do
  saveKey
  modify fun r => { r with flow := r.flow + 1, mayStartKey := true }
  single t

def closeFlow (t : Token) : Reading Unit := do
  dropKey
  modify fun r => { r with flow := r.flow - 1, mayStartKey := false }
  single t

def misplaced (what : String) : Reading Unit := do
  throw (.malformedAt (what ++ " are not allowed here") (← get).cursor.index)

/-- A hyphen before an entry, or a question mark before a key: both open a block collection where
they stand deeper than the innermost one. -/
def blockIndicator (opening : Token) (t : Token) (what : String) (keyAfter : Bool) :
    Reading Unit := do
  let r ← get
  if r.flow == 0 then
    if !r.mayStartKey then misplaced what
    if ← deepen (← column) then emit opening
  allowKey keyAfter
  dropKey
  single t

/-- A colon before a value. It makes a key of what started at the remembered place. -/
def valueIndicator : Reading Unit := do
  let r ← get
  match r.keys.lookup r.flow with
  | some place =>
      modify fun r => { r with keys := r.keys.filter (·.1 != r.flow) }
      emitAt place .key
      if r.flow == 0 then
        if ← deepen place.column then emitAt place .blockMapping
      allowKey false
  | none =>
      if r.flow == 0 then
        if !r.mayStartKey then misplaced "mapping values"
        if ← deepen (← column) then emit .blockMapping
      allowKey (r.flow == 0)
      dropKey
  single .value

def keyed (read : Cursor → Except Fault (Token × Cursor)) : Reading Unit := do
  saveKey
  allowKey false
  let start := (← get).cursor
  let (t, c) ← read start
  moveTo c
  emitFrom start.index t

def plainScalar : Reading Unit := do
  saveKey
  let r ← get
  let (text, ended, c) :=
    Cursor.plain (r.flow != 0) (r.indent + 1) (r.cursor.rest.length + 1) [] false r.cursor
  moveTo c
  allowKey ended
  emitFrom r.cursor.index (.scalar (String.ofList text) true)

def blockScalar (isFolded : Bool) : Reading Unit := do
  allowKey true
  dropKey
  let r ← get
  let (text, c) ← r.cursor.step.block isFolded r.indent r.cursor.index
  moveTo c
  emitFrom r.cursor.index (.scalar (String.ofList text) false)

def quotedScalar (quote : Char) (c : Cursor) : Except Fault (Token × Cursor) := do
  let (text, c) ← Cursor.quoted quote c.index (c.rest.length + 1) c.step
  return (.scalar (String.ofList text) false, c)

def startsPlain (inFlow : Bool) (c : Cursor) : Bool :=
  match c.head? with
  | none => false
  | some x =>
      !(isSpaceChar x || "-?:,[]\x7b\x7d#&*!|>'\"%@`".toList.contains x)
        || (!isGap c.second? && (x == '-' || (!inFlow && (x == '?' || x == ':'))))

/-- Skip to the next token, and settle what its place says about keys and indentation. -/
def settle : Reading Unit := do
  skipGap
  dropStaleKeys
  unwind (← column)

def tokenHere : Reading Bool := do
  let r ← get
  let c := r.cursor
  let inFlow := r.flow != 0
  let some x := c.head? | do
    endBlocks
    modify fun r => { r with keys := [] }
    emit .streamEnd
    return true
  if x == '%' && c.column == 0 then
    endBlocks
    let (d, after) ← directive c
    moveTo after
    emitFrom c.index (.directive d)
  else if c.column == 0 && c.isMark ['-', '-', '-'] then
    endBlocks
    pass 3 .documentStart
  else if c.column == 0 && c.isMark ['.', '.', '.'] then
    endBlocks
    pass 3 .documentEnd
  else if x == '[' then openFlow .flowSequence
  else if x == '{' then openFlow .flowMapping
  else if x == ']' then closeFlow .flowSequenceEnd
  else if x == '}' then closeFlow .flowMappingEnd
  else if x == ',' then
    allowKey true
    dropKey
    single .flowEntry
  else if x == '-' && isGap c.second? then
    blockIndicator .blockSequence .blockEntry "sequence entries" true
  else if x == '?' && (inFlow || isGap c.second?) then
    blockIndicator .blockMapping .key "mapping keys" (!inFlow)
  else if x == ':' && (inFlow || isGap c.second?) then valueIndicator
  else if x == '*' then
    keyed fun c => do
      let (name, c) ← anchorName "alias" c
      return (.alias_ name, c)
  else if x == '&' then
    keyed fun c => do
      let (name, c) ← anchorName "anchor" c
      return (.anchor name, c)
  else if x == '!' then keyed tag
  else if x == '|' && !inFlow then blockScalar false
  else if x == '>' && !inFlow then blockScalar true
  else if x == '\'' || x == '"' then keyed (quotedScalar x)
  else if startsPlain inFlow c then plainScalar
  else
    throw (.malformed {
      context := some "while scanning for the next token"
      problem := "found character " ++ namedChar (some x) ++ " that cannot start any token"
      place := some c.index })
  return false

def next : Reading Bool := do
  settle
  tokenHere

def all : (fuel : Nat) → Reader → Reader × Option Fault
  | 0, r => (r, some .endless)
  | fuel + 1, r =>
      match next.run r with
      | .ok (true, r) => (r, none)
      | .ok (false, r) => all fuel r
      | .error fault => (r, some fault)

end Reading

def Reader.settled (r : Reader) : Nat :=
  r.keys.foldl (fun n (_, k) => min n k.token) r.tokens.size

def PlacedToken.ofText (text : List Char) : List PlacedToken × Fault :=
  if !text.all isAllowed then
    ([], .malformed { problem := "special characters are not allowed" })
  else
    match Reading.all (text.length + 2) { cursor := { rest := text } } with
    | (r, none) => (r.tokens.toList, .endless)
    | (r, some fault) => (r.tokens.toList.take r.settled, fault)

end CodeAtlas.Yaml
