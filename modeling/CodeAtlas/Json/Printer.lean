import CodeAtlas.Json.Basic
import CodeAtlas.Number.Numeral
import CodeAtlas.Number.Shortest

/-!
Writing JSON text.

The text is ASCII: every other character is written as one or two escapes of four hexadecimal
digits. Object fields are written in the order of their names. Integers with too many digits are not
written where a report is stored (`isWritable`).
-/

namespace CodeAtlas

def hexText (width n : Nat) : List Char :=
  let digits := Nat.toDigits 16 n
  List.replicate (width - digits.length) '0' ++ digits

namespace Json

def unitEscape (n : Nat) : List Char :=
  '\\' :: 'u' :: hexText 4 n

def escapeChar (c : Char) : List Char :=
  if c == '"' then ['\\', '"']
  else if c == '\\' then ['\\', '\\']
  else if c == '\n' then ['\\', 'n']
  else if c == '\r' then ['\\', 'r']
  else if c == '\t' then ['\\', 't']
  else if c == '\x08' then ['\\', 'b']
  else if c == '\x0c' then ['\\', 'f']
  else if 32 ≤ c.toNat && c.toNat < 127 then [c]
  else if c.toNat < 0x10000 then unitEscape c.toNat
  else
    let n := c.toNat - 0x10000
    unitEscape (0xD800 + n / 0x400) ++ unitEscape (0xDC00 + n % 0x400)

def quote (s : String) : String :=
  String.ofList ('"' :: s.toList.flatMap escapeChar ++ ['"'])

/-- Where the line breaks and blanks of a JSON text go. -/
inductive Layout where
  | inline
  | indented
  deriving Repr, DecidableEq

namespace Layout

/-- What stands between an opening bracket at `depth` and the first item, and before each item on
a line of its own. -/
def lineStart : Layout → (depth : Nat) → String
  | inline, _ => ""
  | indented, depth => "\n" ++ String.ofList (List.replicate (2 * depth) ' ')

def separator : Layout → (depth : Nat) → String
  | inline, _ => ", "
  | indented, depth => "," ++ lineStart indented depth

end Layout

def sortFields {α : Type} (members : List (String × α)) : List (String × α) :=
  members.mergeSort fun a b => (compare a.1 b.1).isLE

def bracketed (layout : Layout) (depth : Nat) (opening closing : String) (parts : List String) :
    String :=
  if parts.isEmpty then opening ++ closing
  else opening ++ layout.lineStart (depth + 1)
    ++ (layout.separator (depth + 1)).intercalate parts ++ layout.lineStart depth ++ closing

def objectText (layout : Layout) (depth : Nat) (fields : List (String × String)) : String :=
  bracketed layout depth "\x7b" "\x7d" (fields.map fun (name, text) => quote name ++ ": " ++ text)

mutual

def render (layout : Layout) (depth : Nat) : Json → String
  | null => "null"
  | bool true => "true"
  | bool false => "false"
  | int n => toString n
  | float x => x.text .json
  | str s => quote s
  | arr items => bracketed layout depth "[" "]" (renderItems layout (depth + 1) items)
  | obj members => objectText layout depth (sortFields (renderFields layout (depth + 1) members))

def renderItems (layout : Layout) (depth : Nat) : List Json → List String
  | [] => []
  | v :: vs => render layout depth v :: renderItems layout depth vs

def renderFields (layout : Layout) (depth : Nat) : List (String × Json) → List (String × String)
  | [] => []
  | (name, v) :: rest => (name, render layout depth v) :: renderFields layout depth rest

end

mutual

/-- Has every integer in a value few enough digits to be written? -/
def isWritable : Json → Bool
  | int n => (Nat.toDigits 10 n.natAbs).length ≤ Numeral.maxDigits
  | arr items => areWritable items
  | obj members => fieldsWritable members
  | _ => true

def areWritable : List Json → Bool
  | [] => true
  | v :: vs => isWritable v && areWritable vs

def fieldsWritable : List (String × Json) → Bool
  | [] => true
  | (_, v) :: rest => isWritable v && fieldsWritable rest

end

def compact (v : Json) : String := render .inline 0 v

def pretty (v : Json) : String := render .indented 0 v

end Json

end CodeAtlas
