import CodeAtlas.Number.Binary64
import CodeAtlas.Text.Word

/-!
What a plain YAML scalar stands for.

A scalar without quotes and without a tag is a null, a Boolean, a number, a point in time or one of
two marks if it is written like one, and a text otherwise.
-/

namespace CodeAtlas.Yaml

inductive Tag where
  | null
  | bool
  | int
  | float
  | binary
  | timestamp
  | merge
  | default
  | text
  | sequence
  | mapping
  | set
  | pairs
  | unknown (name : String)
  deriving Repr, DecidableEq

/-! ### Pieces -/

def afterSign (cs : List Char) : List Char :=
  match cs with
  | c :: rest => if c == '-' || c == '+' then rest else cs
  | [] => []

def isSpacedDigit (c : Char) : Bool :=
  c.isDigit || c == '_'

def isRun (p : Char → Bool) (cs : List Char) : Bool :=
  !cs.isEmpty && cs.all p

def isPlaces (cs : List Char) : Bool :=
  match Text.splitBy (· == ':') cs with
  | [] :: places =>
      !places.isEmpty && places.all fun place =>
        match place with
        | [a] => a.isDigit
        | [a, b] => '0' ≤ a && a ≤ '5' && b.isDigit
        | _ => false
  | _ => false

def isExponent (cs : List Char) : Bool :=
  match cs with
  | [] => true
  | e :: sign :: digits =>
      (e == 'e' || e == 'E') && (sign == '-' || sign == '+') && isRun Char.isDigit digits
  | [_] => false

/-! ### Kinds -/

def isBool (text : String) : Bool :=
  ["yes", "Yes", "YES", "no", "No", "NO", "true", "True", "TRUE", "false", "False", "FALSE", "on",
    "On", "ON", "off", "Off", "OFF"].contains text

def isNull (text : String) : Bool :=
  ["", "~", "null", "Null", "NULL"].contains text

def isInt (cs : List Char) : Bool :=
  let digits := afterSign cs
  let head := digits.takeWhile isSpacedDigit
  match digits with
  | '0' :: 'b' :: bits => isRun (fun c => c == '0' || c == '1' || c == '_') bits
  | '0' :: 'x' :: hex =>
      isRun (fun c => c.isDigit || ('a' ≤ c && c ≤ 'f') || ('A' ≤ c && c ≤ 'F') || c == '_') hex
  | ['0'] => true
  | '0' :: octal => isRun (fun c => ('0' ≤ c && c ≤ '7') || c == '_') octal
  | c :: _ =>
      '1' ≤ c && c ≤ '9'
        && (digits.length == head.length || isPlaces (digits.drop head.length))
  | [] => false

def isFloat (cs : List Char) : Bool :=
  let digits := afterSign cs
  let head := digits.takeWhile isSpacedDigit
  let rest := digits.drop head.length
  let special := [".inf", ".Inf", ".INF"].contains (String.ofList digits)
    || [".nan", ".NaN", ".NAN"].contains (String.ofList cs)
  let plain := head.head?.any Char.isDigit
    && (match rest with
        | '.' :: more => isExponent (more.dropWhile isSpacedDigit)
        | _ => false)
  let short := match cs with
    | '.' :: c :: more => c.isDigit && isExponent (more.dropWhile isSpacedDigit)
    | _ => false
  let places := rest.takeWhile (· != '.')
  let sexagesimal := head.head?.any Char.isDigit && isPlaces places
    && (match rest.drop places.length with
        | '.' :: more => more.all isSpacedDigit
        | _ => false)
  special || plain || short || sexagesimal

/-! ### Points in time -/

def digits? (least most : Nat) (cs : List Char) : Option (List Char × List Char) :=
  let run := (cs.take most).takeWhile Char.isDigit
  if run.length < least then none else some (run, cs.drop run.length)

structure TimeParts where
  year : List Char
  month : List Char
  day : List Char
  hour : List Char
  minute : List Char
  second : List Char
  fraction : List Char := []
  offset : Option (Bool × List Char × List Char) := none
  deriving Repr

/-- A zone at the end of a point in time: the letter for no offset, or an offset. -/
def zone? (cs : List Char) : Option (Option (Bool × List Char × List Char)) :=
  match cs.dropWhile (fun c => c == ' ' || c == '\t') with
  | [] => if cs.isEmpty then some none else none
  | ['Z'] => some (some (false, ['0'], ['0']))
  | c :: rest =>
      if c == '-' || c == '+' then do
        let (hours, rest) ← digits? 1 2 rest
        match rest with
        | [] => some (some (c == '-', hours, []))
        | ':' :: rest =>
            let (minutes, rest) ← digits? 2 2 rest
            if rest.isEmpty then some (some (c == '-', hours, minutes)) else none
        | _ => none
      else none

def fraction (cs : List Char) : List Char × List Char :=
  match cs with
  | '.' :: rest => (rest.takeWhile Char.isDigit, rest.dropWhile Char.isDigit)
  | _ => ([], cs)

def afterDate? (cs : List Char) : Option (List Char) :=
  match cs with
  | c :: rest =>
      if c == 'T' || c == 't' then some rest
      else if c == ' ' || c == '\t' then some (rest.dropWhile fun c => c == ' ' || c == '\t')
      else none
  | [] => none

def date? (cs : List Char) : Option (List Char × List Char × List Char × List Char) := do
  let (year, rest) ← digits? 4 4 cs
  let (month, rest) ← Text.after? ['-'] rest >>= digits? 1 2
  let (day, rest) ← Text.after? ['-'] rest >>= digits? 1 2
  return (year, month, day, rest)

def timeParts? (cs : List Char) : Option TimeParts := do
  let (year, month, day, rest) ← date? cs
  let (hour, rest) ← afterDate? rest >>= digits? 1 2
  let (minute, rest) ← Text.after? [':'] rest >>= digits? 2 2
  let (second, rest) ← Text.after? [':'] rest >>= digits? 2 2
  let (fraction, rest) := fraction rest
  let offset ← zone? rest
  return ⟨year, month, day, hour, minute, second, fraction, offset⟩

def dateParts? (cs : List Char) : Option (List Char × List Char × List Char) := do
  let (year, month, day, rest) ← date? cs
  if rest.isEmpty && month.length == 2 && day.length == 2 then some (year, month, day) else none

def isTimestamp (cs : List Char) : Bool :=
  (dateParts? cs).isSome || (timeParts? cs).isSome

def dropFinalBreak (cs : List Char) : List Char :=
  if cs.getLast? == some '\n' then cs.dropLast else cs

def tagLead : String := "tag:yaml.org,2002:"

/-- The kind of value that a plain scalar stands for. A line feed at its end does not count, unless
it is all there is. -/
def Tag.ofPlain (text : String) : Tag :=
  let cs := dropFinalBreak text.toList
  let word := String.ofList cs
  if text.toList.head? == some '\n' then .text
  else if isBool word then .bool
  else if isFloat cs then .float
  else if isInt cs then .int
  else if word == "<<" then .merge
  else if isNull word then .null
  else if isTimestamp cs then .timestamp
  else if word == "=" then .default
  else if ["!", "&", "*"].contains word then .unknown (tagLead ++ "yaml")
  else .text

def Tag.ofName (name : String) : Tag :=
  match Text.after? tagLead.toList name.toList with
  | none => .unknown name
  | some kind =>
      ([("null", Tag.null), ("bool", .bool), ("int", .int), ("float", .float), ("binary", .binary),
        ("timestamp", .timestamp), ("merge", .merge), ("value", .default), ("str", .text),
        ("seq", .sequence), ("map", .mapping), ("set", .set), ("omap", .pairs),
        ("pairs", .pairs)].lookup (String.ofList kind)).getD (.unknown name)

end CodeAtlas.Yaml
