import CodeAtlas.Json.Basic
import CodeAtlas.Number.Numeral
import CodeAtlas.Text.CodePoint

/-!
Reading JSON text.

The reader accepts standard JSON and the words `NaN`, `Infinity` and `-Infinity`. It reports the
first fault from the left. The fuel that bounds the recursion is more than the number of characters,
and every step uses at least one. Values may be nested to any depth: a bound on the depth of
recursion is no part of this model, whereas the bound on the digits of an integer is.
-/

namespace CodeAtlas

inductive JsonFault where
  | expectingValue
  | expectingName
  | expectingColon
  | expectingComma
  | unterminatedString
  | controlCharacter
  | badEscape
  | badUnicodeEscape
  | extraData
  | byteOrderMark
  | longInteger
  deriving Repr, DecidableEq

namespace JsonFault

def message : JsonFault → String
  | expectingValue => "Expecting value"
  | expectingName => "Expecting property name enclosed in double quotes"
  | expectingColon => "Expecting ':' delimiter"
  | expectingComma => "Expecting ',' delimiter"
  | unterminatedString => "Unterminated string starting at"
  | controlCharacter => "Invalid control character at"
  | badEscape => "Invalid \\escape"
  | badUnicodeEscape => "Invalid \\uXXXX escape"
  | extraData => "Extra data"
  | byteOrderMark => "Unexpected UTF-8 BOM (decode using utf-8-sig)"
  | longInteger => "Exceeds the limit (4300 digits) for integer string conversion"

end JsonFault

namespace Json

def isSpace (c : Char) : Bool :=
  c == ' ' || c == '\t' || c == '\n' || c == '\r'

def skipSpace (cs : List Char) : List Char :=
  cs.dropWhile isSpace

def hex4? (a b c d : Char) : Option Nat := do
  let a ← Numeral.digit? 16 a
  let b ← Numeral.digit? 16 b
  let c ← Numeral.digit? 16 c
  let d ← Numeral.digit? 16 d
  return ((a * 16 + b) * 16 + c) * 16 + d

def escapeChar? (c : Char) : Option Char :=
  if c == '"' then some '"'
  else if c == '\\' then some '\\'
  else if c == '/' then some '/'
  else if c == 'b' then some '\x08'
  else if c == 'f' then some '\x0c'
  else if c == 'n' then some '\n'
  else if c == 'r' then some '\r'
  else if c == 't' then some '\t'
  else none

/-- The character that four hexadecimal digits and what follows them stand for, and the rest. At
least one more character has to follow, since the string is not closed yet. -/
def unicodeEscape (cs : List Char) : Except JsonFault (Char × List Char) :=
  match cs with
  | a :: b :: c :: d :: e :: rest =>
      match hex4? a b c d with
      | none => .error .badUnicodeEscape
      | some high =>
          match isHighHalf high, e :: rest with
          | true, '\\' :: 'u' :: a :: b :: c :: d :: f :: rest' =>
              match hex4? a b c d with
              | none => .error .badUnicodeEscape
              | some low =>
                  if isLowHalf low then
                    .ok (charOfCode (0x10000 + (high - 0xD800) * 0x400 + (low - 0xDC00)),
                      f :: rest')
                  else .ok (charOfCode high, e :: rest)
          | _, _ => .ok (charOfCode high, e :: rest)
  | _ => .error .badUnicodeEscape

/-- The contents of a string after its opening quote, and the rest after its closing quote. -/
def stringBody : (fuel : Nat) → List Char → Except JsonFault (List Char × List Char)
  | 0, _ => .error .unterminatedString
  | fuel + 1, cs =>
      match cs with
      | [] => .error .unterminatedString
      | '"' :: rest => .ok ([], rest)
      | '\\' :: [] => .error .unterminatedString
      | '\\' :: 'u' :: rest => do
          let (c, rest) ← unicodeEscape rest
          let (body, rest) ← stringBody fuel rest
          return (c :: body, rest)
      | '\\' :: c :: rest =>
          match escapeChar? c with
          | none => .error .badEscape
          | some c => do
              let (body, rest) ← stringBody fuel rest
              return (c :: body, rest)
      | c :: rest =>
          if c.val < 0x20 then .error .controlCharacter
          else do
            let (body, rest) ← stringBody fuel rest
            return (c :: body, rest)

def string (fuel : Nat) (cs : List Char) : Except JsonFault (String × List Char) := do
  let (body, rest) ← stringBody fuel cs
  return (String.ofList body, rest)

/-- The digits of the whole part: a lone zero, or digits that start with another one. -/
def wholeDigits? (cs : List Char) : Option (List Char × List Char) :=
  match cs with
  | '0' :: rest => some (['0'], rest)
  | c :: _ => if c.isDigit then some (cs.takeWhile Char.isDigit, cs.dropWhile Char.isDigit)
      else none
  | [] => none

def fractionDigits (cs : List Char) : List Char × List Char :=
  match cs with
  | '.' :: c :: rest =>
      if c.isDigit then ((c :: rest).takeWhile Char.isDigit, (c :: rest).dropWhile Char.isDigit)
      else ([], cs)
  | _ => ([], cs)

def exponentDigits? (cs : List Char) : Option (Int × List Char) :=
  let (negative, digits) := match cs with
    | '-' :: rest => (true, rest)
    | '+' :: rest => (false, rest)
    | _ => (false, cs)
  let run := digits.takeWhile Char.isDigit
  if run.isEmpty then none
  else
    let n : Int := Numeral.decimal run
    some (if negative then -n else n, digits.dropWhile Char.isDigit)

def exponent? (cs : List Char) : Option (Int × List Char) :=
  match cs with
  | c :: rest => if c == 'e' || c == 'E' then exponentDigits? rest else none
  | [] => none

/-- A number: whole unless it has a fraction or an exponent. -/
def number (cs : List Char) : Except JsonFault (Json × List Char) := do
  let (negative, body) := match cs with
    | '-' :: rest => (true, rest)
    | _ => (false, cs)
  let some (whole, rest) := wholeDigits? body | .error .expectingValue
  let (fraction, rest) := fractionDigits rest
  match fraction, exponent? rest with
  | [], none =>
      if Numeral.maxDigits < whole.length then throw .longInteger
      let n : Int := Numeral.decimal whole
      return (int (if negative then -n else n), rest)
  | _, none =>
      return (float (.ofDecimal negative (Numeral.decimal (whole ++ fraction)) (-fraction.length)),
        rest)
  | _, some (e, rest) =>
      return (float (.ofDecimal negative (Numeral.decimal (whole ++ fraction))
        (e - fraction.length)), rest)

def words : List (String × Json) :=
  [("null", null), ("true", bool true), ("false", bool false), ("NaN", float .nan),
    ("Infinity", float (.infinite false)), ("-Infinity", float (.infinite true))]

def scalar (cs : List Char) : Except JsonFault (Json × List Char) :=
  match words.findSome? fun (word, v) => (Text.after? word.toList cs).map fun rest => (v, rest) with
  | some found => .ok found
  | none => number cs

mutual

def value : (fuel : Nat) → List Char → Except JsonFault (Json × List Char)
  | 0, _ => .error .expectingValue
  | fuel + 1, cs =>
      match cs with
      | '"' :: rest => do
          let (s, rest) ← string fuel rest
          return (str s, rest)
      | '{' :: rest =>
          match skipSpace rest with
          | '}' :: rest => .ok (obj [], rest)
          | rest => do
              let (members, rest) ← fieldList fuel rest
              return (obj (collectFields members), rest)
      | '[' :: rest =>
          match skipSpace rest with
          | ']' :: rest => .ok (arr [], rest)
          | rest => do
              let (items, rest) ← itemList fuel rest
              return (arr items, rest)
      | _ => scalar cs

def itemList : (fuel : Nat) → List Char → Except JsonFault (List Json × List Char)
  | 0, _ => .error .expectingValue
  | fuel + 1, cs => do
      let (v, rest) ← value fuel cs
      match skipSpace rest with
      | ']' :: rest => return ([v], rest)
      | ',' :: rest =>
          let (vs, rest) ← itemList fuel (skipSpace rest)
          return (v :: vs, rest)
      | _ => throw .expectingComma

def fieldList : (fuel : Nat) → List Char → Except JsonFault (List (String × Json) × List Char)
  | 0, _ => .error .expectingValue
  | fuel + 1, cs =>
      match cs with
      | '"' :: rest => do
          let (name, rest) ← string fuel rest
          match skipSpace rest with
          | ':' :: rest =>
              let (v, rest) ← value fuel (skipSpace rest)
              match skipSpace rest with
              | '}' :: rest => return ([(name, v)], rest)
              | ',' :: rest =>
                  let (vs, rest) ← fieldList fuel (skipSpace rest)
                  return ((name, v) :: vs, rest)
              | _ => throw .expectingComma
          | _ => throw .expectingColon
      | _ => .error .expectingName

end

def parse (cs : List Char) : Except JsonFault Json :=
  match cs with
  | '\ufeff' :: _ => .error .byteOrderMark
  | _ => do
      let (v, rest) ← value (2 * cs.length + 2) (skipSpace cs)
      if (skipSpace rest).isEmpty then return v else throw .extraData

end Json

end CodeAtlas
