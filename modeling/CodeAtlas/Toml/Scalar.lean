import CodeAtlas.Text.CodePoint
import CodeAtlas.Value.Basic

/-!
TOML scalars: texts in quotes, numbers, dates and times.
-/

namespace CodeAtlas.Toml

inductive Fault where
  | malformed
  | notTable
  | notTables
  | empty
  | largeCode
  | longFraction
  | longNumber
  | namelessText
  deriving Repr, DecidableEq

def orMalformed {α : Type} : Option α → Except Fault α
  | some a => .ok a
  | none => .error .malformed

/-! ### Texts -/

def endsEscaped (cs : List Char) : Bool :=
  (cs.reverse.takeWhile (· == '\\')).length % 2 == 1

def peel (count : Nat) (cs : List Char) : List Char :=
  (cs.drop count).take (cs.length - 2 * count)

/-- Does something follow the closing quote of a text? The pieces are what stands between the quotes
behind the first one; `run` counts the quotes just before, where three of them close the text. -/
def hasTail (isTriple : Bool) : (run : Nat) → (isClosed : Bool) → List (List Char) → Bool
  | _, _, [] => false
  | run, isClosed, [] :: pieces =>
      if isTriple then hasTail isTriple (run + 1) isClosed pieces
      else hasTail isTriple run true pieces
  | run, isClosed, piece :: pieces =>
      if endsEscaped piece then hasTail isTriple run isClosed pieces
      else if isClosed then true
      else if !isTriple || 1 < run then hasTail isTriple run true pieces
      else hasTail isTriple 0 isClosed pieces

def escapeChar? (c : Char) : Option Char :=
  [('0', '\x00'), ('b', '\x08'), ('f', '\x0c'), ('n', '\n'), ('r', '\r'), ('t', '\t'),
    ('"', '"')].lookup c

/-- Does every backslash start an escape that is known? The pieces are what stands behind each
backslash, and `isEscaped` says whether a backslash before the next piece has a backslash before
it. -/
def escapesKnown : (isEscaped : Bool) → List (List Char) → Bool
  | _, [] => true
  | isEscaped, [] :: pieces => escapesKnown (!isEscaped) pieces
  | isEscaped, (c :: _) :: pieces =>
      (isEscaped || (escapeChar? c).isSome || c == 'u' || c == 'U') && escapesKnown false pieces

/-- The character of a number in hexadecimal digits. A number that starts with thirteen is taken for
half of a surrogate pair, unless its second digit is below eight. -/
def codeChar (digits : List Char) : Except Fault Char := do
  let values ← orMalformed (digits.mapM (Numeral.digit? 16))
  let n := Numeral.ofDigits 16 values
  if values.isEmpty || values == [13] then .error .empty
  else if values.head? == some 13 && values[1]?.any (8 ≤ ·) then .error .malformed
  else if 0x7FFFFFFF < n then .error .largeCode
  else if maxCode < n then .error .malformed
  else return charOfCode n

/-- A text with its escapes by number worked out. The pieces are what stands behind each mark of
such an escape, and `before` is the text before them; a mark whose backslash is escaped stays as it
is. -/
def codesFrom (mark : List Char) (width : Nat) :
    (before : List Char) → (isEscaped : Bool) → List (List Char) → Except Fault (List Char)
  | before, _, [] => .ok before
  | before, true, piece :: pieces =>
      codesFrom mark width (before ++ mark ++ piece) (endsEscaped piece) pieces
  | before, false, piece :: pieces => do
      let c ← codeChar (piece.take width)
      codesFrom mark width (before ++ c :: piece.drop width) false pieces

def codes (mark : List Char) (width : Nat) (cs : List Char) : Except Fault (List Char) :=
  match Text.splitOn mark cs with
  | first :: rest => codesFrom mark width first (endsEscaped first) rest
  | [] => .ok []

/-- A text with its escapes of one letter worked out. Escapes by number are kept. -/
def unescape? : List Char → Option (List Char)
  | [] => some []
  | ['\\'] => some ['\\']
  | '\\' :: c :: rest =>
      if c == '\\' then (unescape? rest).map ('\\' :: ·)
      else if c == 'u' || c == 'U' then (unescape? rest).map fun more => '\\' :: c :: more
      else do return (← escapeChar? c) :: (← unescape? rest)
  | c :: rest => (unescape? rest).map (c :: ·)

/-- The text between double quotes with all escapes worked out. What an escape by number stands for
may be part of another escape. -/
def escaped (cs : List Char) : Except Fault (List Char) := do
  if !escapesKnown false ((Text.splitBy (· == '\\') cs).drop 1) then throw .malformed
  let cs ← codes ['\\', 'u'] 4 cs
  let cs ← codes ['\\', 'U'] 8 cs
  orMalformed (unescape? cs)

/-- The text that a value in quotes stands for. Escapes count between double quotes only, and three
quotes count as one. -/
def quotedText (quote : Char) (cs : List Char) : Except Fault String := do
  let pieces := Text.splitBy (· == quote) (cs.drop 1)
  let isTail := match pieces with
    | [] :: [] :: rest => hasTail true 0 false rest
    | _ => hasTail false 0 false pieces
  if isTail then throw .malformed
  let text ← if quote == '"' then escaped cs else pure cs
  let isTriple := (text.drop 1).head? == some quote
    && (text.length < 3 || (text.drop 2).head? == some quote)
  return String.ofList (peel 1 (if isTriple then peel 2 text else text))

/-! ### Dates and times -/

def stretch (start stop : Nat) (cs : List Char) : List Char :=
  (cs.take stop).drop start

def integerAt? (start stop : Nat) (cs : List Char) : Option Int :=
  Numeral.integer? (some 10) (stretch start stop cs)

def naturalAt? (start stop : Nat) (cs : List Char) : Option Nat := do
  let n ← integerAt? start stop cs
  if n < 0 then none else some n.toNat

def zone? (cs : List Char) : Option Int := do
  if cs == ['Z'] then some 0
  else
    let minutes := 60 * (← integerAt? 1 3 cs) + (← integerAt? 4 6 cs)
    return if cs.head? == some '-' then -minutes else minutes

def divideFraction (cs : List Char) : List Char × Option (List Char) :=
  let divideAt (c : Char) : List Char × Option (List Char) :=
    (cs.takeWhile (· != c), some (cs.dropWhile (· != c)))
  if cs.getLast?.any fun c => c == 'Z' || c == 'z' then (cs.dropLast, some ['Z'])
  else if cs.contains '+' then divideAt '+'
  else if cs.contains '-' then divideAt '-'
  else (cs, none)

/-- The millionths of a second of a fraction. Digits beyond the sixth are cut off. -/
def microseconds (cs : List Char) : Except Fault (Option Int) :=
  match Numeral.integer? (some 10) cs with
  | none => .ok none
  | some n =>
      if cs.length ≤ 6 then .ok (some (n * Nat.pow 10 (6 - cs.length)))
      else
        match Binary64.ofInt n with
        | .infinite _ => .error .longFraction
        | x => .ok ((x.mul (.ofDecimal false 1 (6 - (cs.length : Int)))).truncate?)

/-- The millionths and the zone behind the seconds of a point in time. What cannot be read there
does not count. -/
def afterSeconds (cs : List Char) : Except Fault (Int × Option Int) :=
  match cs with
  | [] => .ok (0, none)
  | '.' :: rest => do
      let (digits, zone) := divideFraction rest
      match zone.map zone? with
      | some none => return (0, none)
      | zone =>
          match ← microseconds digits with
          | some n => return (n, zone.bind id)
          | none => return (0, none)
  | cs => .ok (0, zone? cs)

def dateAt? (cs : List Char) : Option Date := do
  Date.of? (← naturalAt? 0 4 cs) (← naturalAt? 5 7 cs) (← naturalAt? 8 10 cs)

/-- A day, or a point in time with a day before it. Each part stands at its place, and between the
parts stands anything. -/
def date? (cs : List Char) : Except Fault (Option Value) := do
  let (micros, zone) ← afterSeconds (cs.drop 19)
  if !(cs.drop 1).contains '-' then return none
  else if cs.length == 10 then return (dateAt? cs).map .date
  else
    return do
      let clock ← Clock.of? (← naturalAt? 11 13 cs) (← naturalAt? 14 16 cs) (← naturalAt? 17 19 cs)
        (← if micros < 0 then none else some micros.toNat)
      return .instant ⟨← dateAt? cs, clock, zone⟩

def isClock (cs : List Char) : Bool :=
  match cs with
  | a :: b :: ':' :: c :: d :: ':' :: e :: f :: _ => [a, b, c, d, e, f].all Char.isDigit
  | _ => false

/-- A time of day. What stands behind the point is counted in millionths. -/
def clock? (cs : List Char) : Option Value := do
  let digits := match cs.drop 8 with
    | '.' :: rest => (rest.takeWhile Char.isDigit).take 6
    | _ => []
  let clock ← Clock.of? (← naturalAt? 0 2 cs) (← naturalAt? 3 5 cs) (← naturalAt? 6 8 cs)
    (if digits.length < 3 then 0 else Numeral.decimal digits)
  return .clock clock

/-! ### Numbers -/

/-- Has a number no leading zeros, and underscores between digits only? -/
def isStrict (cs : List Char) : Bool :=
  let cs := Text.trim cs
  let (_, digits) := Numeral.sign cs
  let isZeroLed := match cs with
    | '0' :: c :: _ => !(['.', 'o', 'b', 'x'].contains c)
    | _ => false
  let isZeroLedBySign := digits.length < cs.length && (match digits with
    | '0' :: c :: _ => c != '.'
    | _ => false)
  !cs.isEmpty && cs.head? != some '_' && cs.getLast? != some '_'
    && !Text.contains cs ['_', '.'] && !Text.contains cs ['.', '_']
    && (cs.length == 1 || !(isZeroLed || isZeroLedBySign || Text.contains digits ['_', '_']))

/-- A number with a fraction below zero: zero minus the number, so that there is no negative
zero. -/
def negated (x : Binary64) : Binary64 :=
  (Binary64.ofInt 0).add x.neg

def number? (cs : List Char) : Option Json := do
  let (isNegative, signed) := Numeral.sign cs
  let digits := signed.filter (· != '_')
  let hasPoint := digits.contains '.'
  let word := String.ofList (digits.map Char.toLower)
  if hasPoint || (!digits.contains 'x' && (digits.contains 'e' || digits.contains 'E')) then
    let isPointLast := hasPoint && (digits.dropWhile (· != '.')).length == 1
    if isPointLast || !digits.head?.any Char.isDigit then none
    else
      let x ← Numeral.float? digits
      return .float (if isNegative then negated x else x)
  else if word == "inf" || word == "nan" then
    let x ← Numeral.float? digits
    return .float (if isNegative then negated x else x)
  else
    let n ← Numeral.integer? none digits
    return .int (if isNegative then -n else n)

end CodeAtlas.Toml
