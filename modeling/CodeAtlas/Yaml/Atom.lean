import CodeAtlas.Text.Base64
import CodeAtlas.Value.Basic
import CodeAtlas.Yaml.Cursor

/-!
The values that scalars of a YAML document stand for.

A tag may call any text a number, a Boolean or a point in time, so these are read from texts that
are not written like one, too.
-/

namespace CodeAtlas.Yaml.Atom

def orBad {α : Type} : Option α → Except Fault α
  | some a => .ok a
  | none => .error .badNumber

def signed (cs : List Char) : Except Fault (Bool × List Char) :=
  match cs.filter (· != '_') with
  | [] => .error .emptyNumber
  | cs => .ok (Numeral.sign cs)

def places (digits : List Char) : List (List Char) :=
  Text.splitBy (· == ':') digits

/-- An integer. A leading zero means octal digits, unless a letter names another base, and colons
stand between sexagesimal places. -/
def integer (cs : List Char) : Except Fault Int := do
  let (isNegative, digits) ← signed cs
  let n ← match digits with
    | [] => throw .emptyNumber
    | ['0'] => pure 0
    | '0' :: 'b' :: bits => orBad (Numeral.integer? (some 2) bits)
    | '0' :: 'x' :: hex => orBad (Numeral.integer? (some 16) hex)
    | '0' :: _ => orBad (Numeral.integer? (some 8) digits)
    | _ => do
        let parts ← (places digits).mapM fun part => orBad (Numeral.integer? (some 10) part)
        pure (parts.foldl (fun n part => 60 * n + part) 0)
  return if isNegative then -n else n

def sumPlaces (base : Nat) : List Binary64 → Binary64 → Except Fault Binary64
  | [], sum => .ok sum
  | x :: rest, sum =>
      match Binary64.ofInt base with
      | .infinite _ => .error .largeNumber
      | scale => sumPlaces (60 * base) rest (sum.add (x.mul scale))

def number (cs : List Char) : Except Fault Binary64 := do
  let (isNegative, digits) ← signed (cs.map Char.toLower)
  let x ←
    if digits == ".inf".toList then pure (.infinite false)
    else if digits == ".nan".toList then pure .nan
    else if digits.contains ':' then do
      let parts ← (places digits).mapM fun part => orBad (Numeral.float? part)
      sumPlaces 1 parts.reverse (.ofInt 0)
    else orBad (Numeral.float? digits)
  return if isNegative then x.neg else x

/-- Is a text the name of the value that is not a number? Sums may come out as one, too. -/
def namesNaN (cs : List Char) : Bool :=
  match signed (cs.map Char.toLower) with
  | .ok (_, digits) => digits == ".nan".toList
  | .error _ => false

def instant? (parts : TimeParts) : Option Instant := do
  let date ← Date.of? (Numeral.decimal parts.year) (Numeral.decimal parts.month)
    (Numeral.decimal parts.day)
  let digits := parts.fraction.take 6
  let microsecond := Numeral.decimal (digits ++ List.replicate (6 - digits.length) '0')
  let clock ← Clock.of? (Numeral.decimal parts.hour) (Numeral.decimal parts.minute)
    (Numeral.decimal parts.second) microsecond
  let offset := parts.offset.map fun (isBehind, hours, minutes) =>
    let ahead : Int := 60 * Numeral.decimal hours + Numeral.decimal minutes
    if isBehind then -ahead else ahead
  if offset.all (·.natAbs < Instant.minutesPerDay) then some ⟨date, clock, offset⟩ else none

def time (cs : List Char) : Except Fault Value :=
  let cs := dropFinalBreak cs
  match date? cs with
  | some (year, month, day, []) =>
      match Date.of? (Numeral.decimal year) (Numeral.decimal month) (Numeral.decimal day) with
      | some d => .ok (.date d)
      | none => .error .badNumber
  | _ =>
      match timeParts? cs with
      | some parts =>
          match instant? parts with
          | some t => .ok (.instant t)
          | none => .error .badNumber
      | none => .error .badTime

def truth (text : String) : Except Fault Bool :=
  let word := text.map Char.toLower
  if ["yes", "true", "on"].contains word then .ok true
  else if ["no", "false", "off"].contains word then .ok false
  else .error .badBool

def binary (place : Nat) (cs : List Char) : Except Fault (List UInt8) :=
  if cs.all (·.toNat < 128) then
    match Base64.decode? cs with
    | some bytes => .ok bytes
    | none => .error (.malformedAt "failed to decode base64 data" place)
  else .error (.malformedAt "failed to convert base64 data into ascii" place)

/-- The value that a text of a kind stands for, written at an offset. Kinds of collections, the two
marks and unknown kinds have none. -/
def value (tag : Tag) (place : Nat) (text : String) : Except Fault Value :=
  let cs := text.toList
  match tag with
  | .null => .ok (.plain .null)
  | .bool => do return .plain (.bool (← truth text))
  | .int => do return .plain (.int (← integer cs))
  | .float => do return .plain (.float (← number cs))
  | .binary => do return .bytes (← binary place cs)
  | .timestamp => time cs
  | .text => .ok (.plain (.str text))
  | _ => .error (.malformedAt "no value is of this kind" place)

end CodeAtlas.Yaml.Atom
