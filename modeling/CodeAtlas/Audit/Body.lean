import CodeAtlas.Audit.Finding
import CodeAtlas.Audit.Marker
import CodeAtlas.Audit.Scope

/-!
Function bodies as an audit sees them: their statements, their parameters, and whether they only
forward a call or only hold a place.
-/

namespace CodeAtlas.AuditFile

/-! ### Statements -/

def isBraced (f : AuditFile) (e : Entry) : Bool :=
  0 < e.bodyOffset && (f.masked.drop (e.bodyOffset - 1)).head? == some '{'

def bodyStop (f : AuditFile) (e : Entry) : Nat :=
  if f.isBraced e && e.bodyOffset < e.endOffset
      && (f.masked.drop (e.endOffset - 1)).head? == some '}' then e.endOffset - 1
  else e.endOffset

def isStringLine (line : List Char) : Bool :=
  let lead := line.takeWhile fun c => ['r', 'R', 'b', 'B', 'u', 'U', 'f', 'F'].contains c
  let rest := line.drop lead.length
  lead.length ≤ 2 && ["\"\"\"", "'''", "\"", "'"].any fun quote =>
    match Text.after? quote.toList rest with
    | some rest => Text.trimStart rest == quote.toList
    | none => false

def nonBlank (parts : List (List Char)) : List (List Char) :=
  (parts.map Text.trim).filter (!·.isEmpty)

def indentedStatements (masked : List Char) (start stop : Nat) : List (List Char) :=
  let lines := (LogicalLine.within masked start stop).1.map (·.text)
  let lines := match lines with
    | first :: rest => if isStringLine first then rest else lines
    | [] => []
  nonBlank (lines.flatMap (Text.splitBy (· == ';')))

def statements (f : AuditFile) (e : Entry) : List (List Char) :=
  let stop := f.bodyStop e
  if f.family == .python then indentedStatements f.masked e.bodyOffset stop
  else
    let body := Text.trim ((f.masked.take stop).drop e.bodyOffset)
    if f.isBraced e then nonBlank (Text.splitTopLevel ';' body)
    else if body.isEmpty then []
    else [Text.trim (Text.dropEndWhile (· == ';') body)]

/-! ### Parameters -/

def signature (f : AuditFile) (e : Entry) : List Char :=
  (f.masked.take e.bodyOffset).drop e.declOffset

def afterName? (name : String) (cs : List Char) : Option (List Char) := do
  let whole (before : Option Char) (rest : List Char) : Bool :=
    match Text.after? name.toList rest with
    | some rest => !before.any isDollarWordChar && !rest.head?.any isDollarWordChar
    | none => false
  let (_, rest) ← Text.breakAt whole none cs
  return rest.drop name.length

def arrowParameter? : List Char → Option (List Char)
  | [] => none
  | c :: cs =>
      let found := do
        let (name, rest) ← Text.dollarName? (c :: cs)
        let _ ← Text.after? ['=', '>'] (Text.trimStart rest)
        return name
      found.or (arrowParameter? cs)

def startsWithSelf (cs : List Char) : Bool :=
  (Text.wholeWord? "self" none cs).isSome

def afterLifetime? (cs : List Char) : Option (List Char) := do
  let rest ← Text.after? ['\''] cs
  let name := rest.takeWhile isWordChar
  if name.isEmpty then none else Text.blanks1? (rest.drop name.length)

def isReceiver (part : List Char) : Bool :=
  let borrowed := match part with
    | '&' :: rest =>
        let rest := Text.trimStart rest
        let rest := (afterLifetime? rest).getD rest
        startsWithSelf ((Text.after? "mut".toList rest >>= Text.blanks1?).getD rest)
    | _ => false
  ["self", "&self", "&mut self", "mut self", "cls", "this"].contains (String.ofList part)
    || startsWithSelf part || borrowed

/-- Does a parameter collect several arguments or take one apart? -/
def isCompound (part : List Char) : Bool :=
  ["*", "...", "\x7b", "[", "(", "/"].any fun lead => Text.startsWith part lead.toList

def isThisType (part : List Char) : Bool :=
  match Text.after? "this".toList part with
  | some rest => (Text.trimStart rest).head? == some ':'
  | none => false

def parameterName? (part : List Char) : Option (List Char) := do
  let head := part.takeWhile fun c => c != ':' && c != '='
  let head := Text.dropEndWhile (· == '?') (Text.trim head)
  let name ← (Text.fields head).getLast?
  match Text.dollarName? name with
  | some (_, []) => some name
  | _ => none

def parameterNames? : List (List Char) → Option (List (List Char))
  | [] => some []
  | part :: parts =>
      if part.isEmpty || isReceiver part then parameterNames? parts
      else if isCompound part then none
      else if isThisType part then parameterNames? parts
      else do
        let name ← parameterName? part
        let names ← parameterNames? parts
        return name :: names

def parameters (f : AuditFile) (e : Entry) : Option (List (List Char)) :=
  let signature := f.signature e
  let tail := (afterName? e.bareName signature).getD signature
  match tail.dropWhile (· != '(') with
  | [] => (arrowParameter? signature).map fun name => [name]
  | list => do
      let (inner, _) ← Text.enclosed? list
      parameterNames? ((Text.splitTopLevel ',' inner).map Text.trim)

/-! ### Forwarding -/

def dropReturn (cs : List Char) : List Char :=
  match (Text.wholeWord? "return" none cs).or (Text.wholeWord? "await" none cs) with
  | some rest => Text.trimStart rest
  | none => cs

/-- The text without a question mark or an `.await` at its end. -/
def dropAwait (cs : List Char) : List Char :=
  match cs.reverse with
  | '?' :: rest => rest.reverse
  | backwards =>
      match Text.after? "tiawa".toList backwards with
      | some rest =>
          match Text.trimStart rest with
          | '.' :: rest => rest.reverse
          | _ => cs
      | none => cs

/-- The expression of a statement without all that may stand around a call; `fuel` bounds the number
of rounds. -/
def innerCall : (fuel : Nat) → List Char → List Char
  | 0, cs => cs
  | fuel + 1, cs =>
      let next := Text.trim (dropAwait (dropReturn cs))
      if next == cs then cs else innerCall fuel next

/-- The path and the text from the bracket on of a call at the start of a text. -/
def callHead? (cs : List Char) : Option (List Char × List Char) := do
  let rest ← Callee.afterPath? isDollarNameStart cs
  let path := cs.take (cs.length - rest.length)
  let typed := do
    let rest ← Text.after? [':', ':'] (Text.trimStart rest)
    let rest ← Text.after? ['<'] (Text.trimStart rest)
    let rest ← CallSite.afterAngle? (fun c => c != '(' && c != ')') rest
    CallSite.afterParen? rest
  let rest ← typed.or (CallSite.afterParen? rest)
  return (path, '(' :: rest)

/-- The path of the call that a body consists of, if the call passes on all parameters as they are.
A plain function that calls its own name does not forward. -/
def forwardedCall? (f : AuditFile) (e : Entry) : Option String :=
  match f.statements e, f.parameters e with
  | [statement], some parameters => do
      let (path, list) ← callHead? (innerCall statement.length statement)
      let (inner, rest) ← Text.enclosed? list
      let path := path.filter (!isBlank ·)
      let isOwnName := Callee.lastSegment path == e.bareName.toList && e.container.getD "" == ""
      if !rest.isEmpty || nonBlank (Text.splitTopLevel ',' inner) != parameters || isOwnName
        then none
      else some (String.ofList path)
  | _, _ => none

/-! ### Placeholders -/

/-- Is a text an opening bracket, at most one string literal, and the closing bracket? -/
def isEmptyCall (cs : List Char) : Bool :=
  match Text.trimStart cs with
  | '(' :: rest =>
      let rest := Text.trimStart rest
      let literal := match rest with
        | c :: tail =>
            if c == '"' || c == '\'' then Text.after? [c] (Text.trimStart tail) else none
        | [] => none
      Text.trimStart (literal.getD rest) == [')']
  | _ => false

/-- Is a statement a placeholder in an indented body: `pass`, `...`, or raising that something is
not implemented? -/
def isIndentedPlaceholder (statement : List Char) : Bool :=
  let raised := Text.after? "raise".toList statement >>= Text.blanks1? >>=
    Text.after? "NotImplementedError".toList
  statement == "pass".toList || statement == "...".toList
    || raised.any fun rest => rest.isEmpty || isEmptyCall rest

/-- Is a statement a call of the `todo` or `unimplemented` macro, arguments on one line? -/
def isMacroPlaceholder (statement : List Char) : Bool :=
  let rest := (Text.after? "todo".toList statement).or
    (Text.after? "unimplemented".toList statement)
  let arguments := rest >>= fun rest => Text.after? ['!'] (Text.trimStart rest)
  match arguments.map Text.trimStart with
  | some (c :: rest) => isOpener c && !rest.contains '\n'
  | _ => false

/-- The offset of the opening quote and the quote, in a masked statement that throws a new error
with one string literal. -/
def thrownLiteral? (statement : List Char) : Option (Nat × Char) := do
  let rest ← Text.after? "throw".toList statement >>= Text.blanks1?
  let rest ← Text.after? "new".toList rest >>= Text.blanks1?
  let name := rest.takeWhile isWordChar
  if !Text.endsWith name "Error".toList then none
  else
    let rest ← Text.after? ['('] (Text.trimStart (rest.drop name.length))
    match Text.trimStart rest with
    | quote :: tail =>
        if !(quote == '\'' || quote == '"' || quote == '`') then none
        else
          let after ← Text.after? [quote] (Text.trimStart tail)
          let after ← Text.after? [')'] (Text.trimStart after)
          if Text.isAllBlank after then some (statement.length - tail.length - 1, quote) else none
    | [] => none

def thrownMessage? (f : AuditFile) (e : Entry) (statement : List Char) : Option (List Char) := do
  let (offset, quote) ← thrownLiteral? statement
  let body := f.masked.drop e.bodyOffset
  let (lead, _) ← Text.cutAt? statement body
  let start := e.bodyOffset + lead.length + offset + 1
  let inner := (f.masked.drop start).takeWhile (· != quote)
  return (f.file.text.drop start).take inner.length

def unfinishedWords : List String :=
  ["not implemented", "unimplemented", "todo", "not yet implemented"]

def placeholder? (f : AuditFile) (e : Entry) : Option (String × Confidence) :=
  let statements := f.statements e
  match f.family with
  | .python =>
      if !statements.isEmpty && statements.all isIndentedPlaceholder then
        some ("body is only: " ++ String.ofList (Text.join [';', ' '] statements), .high)
      else none
  | .rust =>
      match statements with
      | [statement] =>
          if isMacroPlaceholder statement then
            let name := Text.trim (statement.takeWhile (· != '!'))
            some ("body is only " ++ String.ofList name ++ "!()", .high)
          else none
      | _ => none
  | .curly =>
      if !f.isBraced e then none
      else
        match statements with
        | [] => some ("empty body", .medium)
        | [statement] => do
            let message ← f.thrownMessage? e statement
            let isUnfinished := unfinishedWords.any fun word =>
              Text.contains (Marker.lower message) word.toList
            if isUnfinished then some ("throws '" ++ String.ofList message ++ "'", .high) else none
        | _ => none

end CodeAtlas.AuditFile
