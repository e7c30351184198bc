import CodeAtlas.Toml.Scalar

/-!
TOML values and the lines that give them to keys.

An array holds values of one kind, and an inline table holds fields. Both are read from their text
between the outer brackets.
-/

namespace CodeAtlas.Toml

inductive ValueKind where
  | bool
  | text
  | int
  | float
  | array
  | table
  | time
  | date
  deriving Repr, DecidableEq

def kindOf : Value → ValueKind
  | .plain (.bool _) => .bool
  | .plain (.int _) => .int
  | .plain (.float _) => .float
  | .plain _ => .text
  | .bytes _ => .text
  | .list _ => .array
  | .mapping _ => .table
  | .clock _ => .time
  | .date _ => .date
  | .instant _ => .date

/-! ### Quotes -/

/-- Join pieces between single quotes with pieces between double quotes until the single quotes are
closed. The answer holds the pieces between single quotes and the other pieces that are left. -/
def closeSingles : (singles doubles : List (List Char)) → List (List Char) × List (List Char)
  | singles, [] => (singles, [])
  | singles, piece :: doubles =>
      if singles.length % 2 == 0 then
        let last := singles.getLast?.getD [] ++ '"' :: piece
        closeSingles (singles.dropLast ++ Text.splitBy (· == '\'') last) doubles
      else (singles, piece :: doubles)

def quotePieces (cs : List Char) : List (List Char) :=
  let isSingle (c : Char) : Bool := c == '\''
  match Text.splitBy (· == '"') cs with
  | [] => []
  | [first] => Text.splitBy isSingle first
  | first :: rest =>
      let (singles, doubles) :=
        if first.contains '\'' then closeSingles (Text.splitBy isSingle first) rest
        else ([], first :: rest)
      match doubles with
      | [] => singles
      | piece :: doubles => singles ++ Text.splitBy isSingle piece ++ doubles

def occurrences (part cs : List Char) : Nat :=
  (Text.splitOn part cs).length - 1

def quotedOccurrences (part : List Char) : (isQuoted : Bool) → (pieces : List (List Char)) → Nat
  | _, [] => 0
  | isQuoted, piece :: pieces =>
      if !isQuoted && Text.contains piece part then 0
      else occurrences part piece + quotedOccurrences part (!isQuoted) pieces

def divideAt (part : List Char) (index : Nat) (cs : List Char) : List Char × List Char :=
  let parts := Text.splitOn part cs
  let index := min index (parts.length - 1)
  (Text.join part (parts.take index), Text.join part (parts.drop index))

/-! ### Keys -/

/-- Does a text that follows an equals sign start a value? After a blank anything does. -/
def startsValue (cs : List Char) : Except Fault Bool := do
  match cs with
  | [] => return true
  | c :: _ =>
      let word := Text.trim cs
      if [' ', '\t', '\'', '"', '[', '{'].contains c || word == "true".toList
          || word == "false".toList || (Numeral.float? cs).isSome then return true
      else return (← date? cs).isSome || isClock cs

/-- Move equals signs into the key until a value follows; `fuel` bounds their number. The line is
divided at the equals sign with some number, and what stands behind it is the value, perhaps without
underscores. The flag says whether all values that were tried are written like strict numbers. -/
def settle (line : List Char) :
    (fuel : Nat) → (index : Nat) → (value : List Char) → (strict : Bool) →
    Except Fault (List Char × List Char × Bool)
  | 0, _, _, _ => .error .malformed
  | fuel + 1, index, value, strict => do
      if ← startsValue value then return ((divideAt ['='] index line).1, value, strict)
      else
        let next := (divideAt ['='] (index + 1) line).2
        if next == value then throw .malformed
        else settle line fuel (index + 1) next (strict && isStrict next)

def keyAndValue (line : List Char) : Except Fault (List Char × List Char × Bool) := do
  let index := quotedOccurrences ['='] false (quotePieces line) + 1
  let value := (divideAt ['='] index line).2
  let strict := isStrict value
  let value := if value.head?.any Char.isDigit then value.filter (· != '_') else value
  let (key, value, strict) ← settle line (line.length + 2) index value strict
  return (Text.trim key, Text.trim value, strict)

def quotedKeyParts : (isQuoted : Bool) → (pieces : List (List Char)) → List (List Char)
  | _, [] => []
  | true, piece :: pieces => piece :: quotedKeyParts false pieces
  | false, piece :: pieces =>
      (Text.splitBy (· == '.') piece).map Text.trim ++ quotedKeyParts true pieces

/-- The tables that a key leads through, and the name of its value in the last of them. A key
without dots may be one text in quotes. -/
def keyNames (key : List Char) : Except Fault (List String × String) :=
  if key.contains '.' then
    let parts :=
      if key.contains '"' || key.contains '\'' then quotedKeyParts false (quotePieces key)
      else Text.splitBy (· == '.') key
    let parts := (parts.reverse.dropWhile (·.isEmpty)).reverse
    match parts.getLast? with
    | none => .error .empty
    | some name =>
        let tables := parts.dropLast.filter (!·.isEmpty)
        .ok (tables.map String.ofList, String.ofList (Text.trim name))
  else
    match key.head?, key.getLast? with
    | some q, some r =>
        if q == r && (q == '"' || q == '\'') then do
          let name ← orMalformed (unescape? (peel 1 key))
          return ([], String.ofList name)
        else .ok ([], String.ofList key)
    | _, _ => .error .empty

/-! ### Tables -/

def addField (name : String) (value : Value) : Value → Except Fault Value
  | .mapping pairs =>
      if ((Value.mapping pairs).get? name).isSome then .error .malformed
      else .ok (.mapping (pairs ++ [(.str name, value)]))
  | _ => .error .malformed

def setField (name : String) (value : Value) : Value → Value
  | .mapping pairs => .mapping (Value.setPair (.str name) value pairs)
  | v => v

def modifyTable (f : Value → Except Fault Value) :
    (names : List String) → Value → Except Fault Value
  | [], v => f v
  | name :: rest, .mapping pairs => do
      let v := Value.mapping pairs
      let inner ← modifyTable f rest ((v.get? name).getD (.mapping []))
      return setField name inner v
  | _ :: _, _ => .error .notTable

/-! ### Texts of many lines -/

structure OpenText where
  name : String
  text : List Char
  isJoined : Bool
  deriving Repr, DecidableEq

/-- The text of a value that goes on: a backslash at the end of a line joins it with the next
one. -/
def OpenText.ofValue (name : String) (cs : List Char) : OpenText :=
  if endsEscaped cs then ⟨name, cs.dropLast, true⟩ else ⟨name, cs ++ ['\n'], false⟩

def isTextArray (cs : List Char) : Bool :=
  (Text.trim (peel 1 cs)).head?.any fun c => c == '"' || c == '\''

/-- The last item of an array that is still open. Commas inside of a text do not count, as far as no
quote follows them. -/
def lastItem : (parts : List (List Char)) → Except Fault (List Char)
  | [] => .ok []
  | [part] => .ok part
  | part :: before :: rest =>
      match part with
      | [] => .error .empty
      | c :: _ =>
          if c == '"' || c == '\'' then .ok part
          else lastItem ((before ++ ',' :: part) :: rest)
termination_by parts => parts.length

/-- Does a value start a text of many lines without closing it? In an array its last item is looked
at. -/
def isOpen (cs : List Char) : Except Fault Bool := do
  if cs.length < 3 then return false
  let isOpenArray := cs.head? == some '[' && cs.getLast? != some ']' && isTextArray cs
  let item ←
    if isOpenArray then lastItem (Text.splitBy (· == ',') (Text.trim (cs.drop 1))).reverse
    else pure cs
  match item with
  | q :: rest =>
      if !(q == '"' || q == '\'') then return false
      else
        match rest with
        | [] => throw .empty
        | a :: more =>
            if a != q then return false
            else
              match more with
              | [] => throw .empty
              | b :: _ =>
                  return b == q && !(5 < item.length && Text.endsWith item [q, q, q])
  | [] => throw .empty

/-! ### Arrays -/

def splitItems (depth : Int) (part : List Char) : List Char → List (List Char)
  | [] => [part.reverse]
  | c :: rest =>
      if c == ',' && depth == 0 then part.reverse :: splitItems depth [] rest
      else
        let depth := if c == '[' then depth + 1 else if c == ']' then depth - 1 else depth
        splitItems depth (c :: part) rest

/-- Is a text in quotes closed? Of a text between three quotes, one of the last two characters
before the last quote is a quote too. -/
def isBounded (cs : List Char) : Bool :=
  match cs with
  | [] => true
  | c :: rest =>
      let isTriple := Text.startsWith rest [c, c]
      let isTripleClosed := (cs.dropLast.reverse.take 2).contains c
      cs.getLast? == some c && !endsEscaped rest.dropLast && (!isTriple || isTripleClosed)

/-- Join the parts of a list of texts that a comma inside of quotes has cut. The flag says whether
the first part was joined from others. -/
def joinTexts : (isJoined : Bool) → List (List Char) → Except Fault (List (List Char))
  | _, [] => .ok []
  | isJoined, [part] =>
      if isJoined && !isBounded (Text.trim part) then .error .empty else .ok [part]
  | _, part :: next :: rest => do
      if isBounded (Text.trim part) then return part :: (← joinTexts false (next :: rest))
      else joinTexts true ((part ++ ',' :: next) :: rest)
termination_by _ parts => parts.length

/-- The inline tables of a text, and what stands before the first one. `group` is the table so far,
its last character first; between two tables there is none, and one character behind a table is
passed over. -/
def splitTables (depth : Nat) (isQuoted : Bool) : (group : Option (List Char)) → List Char →
    List (List Char)
  | _, [] => []
  | none, c :: rest =>
      if c == '{' then splitTables depth false (some [c]) rest
        else splitTables depth false none rest
  | some group, c :: rest =>
      let isQuote := c == '"' || c == '\''
      let isQuoted := if isQuote then !isQuoted || endsEscaped group.reverse else isQuoted
      let depth := if !isQuoted && c == '{' then depth + 1 else depth
      if isQuoted || c != '}' then splitTables depth isQuoted (some (c :: group)) rest
      else if 1 < depth then splitTables (depth - 1) isQuoted (some (c :: group)) rest
      else
        let table := (c :: group).reverse
        match rest with
        | [] => [table]
        | _ :: rest => table :: splitTables depth false none rest

def itemTexts (cs : List Char) : Except Fault (List (List Char)) :=
  let inner := peel 1 cs
  let isNested := inner.contains '[' && Text.isAllBlank (inner.takeWhile (· != '['))
  if isNested then .ok (splitItems 0 [] inner)
  else if (Text.trim inner).head? == some '{' then
    .ok (splitTables (if inner.head? == some '{' then 1 else 0) false
      (some (inner.take 1)) (inner.drop 1))
  else
    let parts := Text.splitBy (· == ',') inner
    if isTextArray cs then joinTexts false parts else .ok parts

/-! ### Inline tables -/

def isWhole (cs : List Char) : Except Fault Bool :=
  match cs, cs.getLast? with
  | c :: _, some last =>
      .ok ((c == last && (c == '"' || c == '\'')) || c == '-' || c.isDigit
        || cs == "true".toList || cs == "false".toList || (c == '[' && last == ']')
        || (c == '{' && last == '}'))
  | _, _ => .error .empty

/-- Join the parts of an inline table that a comma inside of a value has cut. -/
def joinFields (held : Option (List Char)) : List (List Char) → Except Fault (List (List Char))
  | [] => if held.isSome then .error .malformed else .ok []
  | part :: rest => do
      let part := match held with
        | some h => h ++ ',' :: part
        | none => part
      match part.dropWhile (· != '=') with
      | _ :: value =>
          if ← isWhole (Text.trim value) then return part :: (← joinFields none rest)
          else joinFields (some part) rest
      | [] => .error .malformed

def fieldTexts (inner : List Char) : Except Fault (List (List Char)) :=
  if Text.isAllBlank inner then .ok [] else joinFields none (Text.splitBy (· == ',') inner)

/-! ### Values -/

def isLoudTruth (cs : List Char) : Bool :=
  let word := cs.map Char.toLower
  word == "true".toList || word == "false".toList

mutual

def value (strict : Bool) : (fuel : Nat) → List Char → Except Fault Value
  | 0, _ => .error .malformed
  | _ + 1, [] => .error .malformed
  | fuel + 1, c :: rest =>
      let cs := c :: rest
      if cs == "true".toList then .ok (.plain (.bool true))
      else if cs == "false".toList then .ok (.plain (.bool false))
      else if isLoudTruth cs then .error .malformed
      else if c == '"' || c == '\'' then do return .str (← quotedText c cs)
      else if c == '[' then do
        return .list (← items none fuel ((← itemTexts cs).map Text.trim))
      else if c == '{' then do fields fuel (← fieldTexts (peel 1 cs)) (.mapping [])
      else if isClock cs then orMalformed (clock? cs)
      else do
        match ← date? cs with
        | some v => return v
        | none =>
            if strict then return .plain (← orMalformed (number? cs)) else throw .malformed

def items (kind : Option ValueKind) : (fuel : Nat) → List (List Char) → Except Fault (List Value)
  | 0, _ => .error .malformed
  | _ + 1, [] => .ok []
  | fuel + 1, cs :: rest => do
      if cs.isEmpty then items kind fuel rest
      else
        let v ← value true fuel cs
        if kind.any (· != kindOf v) then throw .malformed
        return v :: (← items (some (kindOf v)) fuel rest)

/-- A table with the field of a line. A text that goes on in the next line is handed back
instead. -/
def line : (fuel : Nat) → List Char → Value → Except Fault (Value × Option OpenText)
  | 0, _, _ => .error .malformed
  | fuel + 1, cs, table => do
      let (key, text, strict) ← keyAndValue cs
      let (tables, name) ← keyNames key
      let table ← modifyTable .ok tables table
      if ← isOpen text then
        let _ ← modifyTable (addField name (.list [])) tables table
        if name.isEmpty then throw .namelessText
        return (table, some (.ofValue name text))
      else
        let v ← value strict fuel text
        return (← modifyTable (addField name v) tables table, none)

/-- A table with the fields of some texts. A text that does not end stops the reading. -/
def fields : (fuel : Nat) → List (List Char) → Value → Except Fault Value
  | 0, _, _ => .error .malformed
  | _ + 1, [], table => .ok table
  | fuel + 1, cs :: rest, table => do
      match ← line fuel cs table with
      | (table, none) => fields fuel rest table
      | (table, some _) => return table

end

def fuelFor (cs : List Char) : Nat := 2 * cs.length + 4

def readValue (cs : List Char) : Except Fault Value := value true (fuelFor cs) cs

def readField (cs : List Char) (table : Value) : Except Fault (Value × Option OpenText) :=
  line (fuelFor cs) cs table

def readFields (cs : List Char) (table : Value) : Except Fault Value := do
  fields (fuelFor cs) (← fieldTexts (peel 1 cs)) table

end CodeAtlas.Toml
