import CodeAtlas.Json.Printer
import CodeAtlas.Text.Printable

/-!
Quoted text in messages.

A text is put in single quotes, or in double quotes if it holds a single quote and no double one.
The quote in use, the backslash and everything that cannot be printed are escaped.
-/

namespace CodeAtlas.Text

/-- The escape of a character by its number: two, four or eight hexadecimal digits. -/
def numericEscape (c : Char) : List Char :=
  let n := c.toNat
  if n < 0x100 then '\\' :: 'x' :: hexText 2 n
  else if n < 0x10000 then '\\' :: 'u' :: hexText 4 n
  else '\\' :: 'U' :: hexText 8 n

def quotedChar (quote c : Char) : List Char :=
  if c == quote || c == '\\' then ['\\', c]
  else if c == '\n' then ['\\', 'n']
  else if c == '\r' then ['\\', 'r']
  else if c == '\t' then ['\\', 't']
  else if isPrintable c then [c]
  else numericEscape c

def quoted (s : String) : String :=
  let cs := s.toList
  let quote := if cs.contains '\'' && !cs.contains '"' then '"' else '\''
  String.ofList (quote :: cs.flatMap (quotedChar quote) ++ [quote])

/-- A byte between quotes of the given kind: as the character of its number, if that one is
printed. -/
def quotedByte (quote : Char) (byte : UInt8) : List Char :=
  let c := Char.ofNat byte.toNat
  if c.toNat < 0x7F then quotedChar quote c else numericEscape c

def quotedBytes (bytes : List UInt8) : String :=
  let cs := bytes.map fun b => Char.ofNat b.toNat
  let quote := if cs.contains '\'' && !cs.contains '"' then '"' else '\''
  String.ofList ('b' :: quote :: bytes.flatMap (quotedByte quote) ++ [quote])

end CodeAtlas.Text
