import CodeAtlas.Source.Expression
import CodeAtlas.Statement.Basic
import CodeAtlas.Statement.Warning

/-!
Statements of brace-structured source.

A recursive descent over the masked text of a body. Conditions and labels are taken from the source
text at the same offsets. Every step that goes deeper or on to the next statement takes at least one
character within a few calls; a descent whose fuel does not last for that gives up.
-/

namespace CodeAtlas

/-- The text of a body from a place on. `code` is masked and ends where the enclosing block ends;
`source` is the source text from the same offset on. -/
structure Cursor where
  offset : Nat
  code : List Char
  source : List Char

namespace Cursor

def advance (c : Cursor) (n : Nat) : Cursor :=
  ⟨c.offset + n, c.code.drop n, c.source.drop n⟩

def limit (c : Cursor) (n : Nat) : Cursor :=
  { c with code := c.code.take n }

def toEnd (c : Cursor) : Cursor :=
  c.advance c.code.length

def skipBlanks (c : Cursor) : Cursor :=
  c.advance (c.code.takeWhile isBlank).length

def head? (c : Cursor) : Option Char :=
  c.code.head?

def word (c : Cursor) : String :=
  match Text.dollarName? c.code with
  | some (name, _) => String.ofList name
  | none => ""

def sourceText (c : Cursor) (n : Nat) : List Char :=
  c.source.take n

end Cursor

def trimmedLabel (cs : List Char) : String :=
  Text.label (Text.trim cs)

namespace Brace

/-- How far the body brace of a condition is away, and whether there is one: the first brace outside
of round and square brackets, unless a semicolon or a closing brace comes first. -/
def conditionLength : (depth : Int) → List Char → Nat × Bool
  | _, [] => (0, false)
  | depth, c :: cs =>
      let next (depth : Int) : Nat × Bool :=
        let (n, found) := conditionLength depth cs
        (n + 1, found)
      if c == '(' || c == '[' then next (depth + 1)
      else if c == ')' || c == ']' then next (depth - 1)
      else if c == '{' && depth ≤ 0 then (0, true)
      else if (c == ';' || c == '}') && depth ≤ 0 then (0, false)
      else next depth

/-- The condition after a keyword, and the place where the body starts. Outside of Rust a condition
stands in round brackets. -/
def condition (rust : Bool) (c : Cursor) : Reading (List Char × Cursor) := do
  let c := c.skipBlanks
  let bracketed := !rust && c.head? == some '('
  match (if bracketed then Text.matching? c.code else none) with
  | some n => return ((c.advance 1).sourceText (n - 1), c.advance (n + 1))
  | none =>
      if bracketed then Reading.warn c.offset .unbalancedCondition
      let (n, found) := conditionLength 0 c.code
      if !found then Reading.warn c.offset .noBlockAfterCondition
      return (c.sourceText n, c.advance n)

def loopLabel? (c : Cursor) : Option (String × Cursor) := do
  let cs := match c.code with
    | '\'' :: rest => rest
    | _ => c.code
  let (name, rest) ← Text.dollarName? cs
  let rest ← Text.after? [':'] (Text.trimStart rest)
  if rest.head? == some ':' then none
  else
    let rest := Text.trimStart rest
    if ["for", "while", "do", "loop"].any fun w => (Text.wholeWord? w none rest).isSome then
      some (String.ofList name, c.advance (c.code.length - rest.length))
    else none

def declarationWords : List String :=
  ["function", "fn", "class", "struct", "enum", "impl", "trait", "interface", "type", "mod"]

def simpleStatement (rust : Bool) (c : Cursor) : Stmt × Cursor :=
  let n := Text.statementLength 0 none c.code
  let span : Span := ⟨c.offset, c.offset + n⟩
  let kind :=
    if declarationWords.contains c.word then .plain else SimpleKind.ofText rust (c.code.take n)
  (kind.toStmt span, c.advance n)

def isInfinite (rust : Bool) (word : String) (condition : List Char) : Bool :=
  if word == "while" then
    ["true", "1", "(true)"].contains (String.ofList condition)
  else if rust then false
  else
    match Text.splitTopLevel ';' condition with
    | [_, test, _] => Text.isAllBlank test
    | _ => false

mutual

def block (rust : Bool) : (fuel : Nat) → (stopWords : List String) → Cursor →
    Reading (List Stmt × Cursor)
  | 0, _, c => Reading.giveUp ([], c)
  | fuel + 1, stopWords, c => do
      let c := c.skipBlanks
      match c.head? with
      | none => return ([], c)
      | some '}' => return ([], c.advance 1)
      | some _ =>
          if stopWords.contains c.word then return ([], c)
          let (stmt, next) ← statement rust fuel c
          let next := if next.offset ≤ c.offset then c.advance 1 else next
          let (rest, last) ← block rust fuel stopWords next
          return (stmt.toList ++ rest, last)

def braced (rust : Bool) : (fuel : Nat) → (what : String) → Cursor →
    Reading (List Stmt × Cursor)
  | 0, _, c => Reading.giveUp ([], c)
  | fuel + 1, what, c => do
      let c := c.skipBlanks
      if c.head? == some '{' then
        match Text.matching? c.code with
        | some n =>
            let (body, _) ← block rust fuel [] ((c.limit n).advance 1)
            return (body, c.advance (n + 1))
        | none =>
            Reading.warn c.offset (.missingBrace what)
            let (body, _) ← block rust fuel [] (c.advance 1)
            return (body, c.toEnd)
      else
        if rust then Reading.warn c.offset (.expectedBrace what)
        let (stmt, next) ← statement rust fuel c
        return (stmt.toList, next)

def statement (rust : Bool) : (fuel : Nat) → Cursor → Reading (Option Stmt × Cursor)
  | 0, c => Reading.giveUp (none, c)
  | fuel + 1, c => do
      let c := c.skipBlanks
      match c.head? with
      | none => return (none, c)
      | some '}' => return (none, c)
      | some ';' => return (none, c.advance 1)
      | some '{' =>
          let (body, next) ← braced rust fuel "block" c
          return (some (.block ⟨c.offset, next.offset⟩ "" body), next)
      | some _ =>
          let (label, c) : Option String × Cursor := match loopLabel? c with
            | some (label, c) => (some label, c)
            | none => (none, c)
          let word := c.word
          let after := c.advance word.length
          if word == "if" then
            let (stmt, next) ← branch rust fuel c.offset after
            return (some stmt, next)
          else if word == "while" || word == "for" || (rust && word == "loop") then
            let (stmt, next) ← loop rust fuel word label c.offset after
            return (some stmt, next)
          else if word == "do" && !rust then
            let (stmt, next) ← doLoop rust fuel label c.offset after
            return (some stmt, next)
          else if word == "switch" && !rust then
            let (stmt, next) ← switch rust fuel c.offset after
            return (some stmt, next)
          else if word == "match" && rust then
            let (stmt, next) ← matching rust fuel c.offset after
            return (some stmt, next)
          else if word == "try" && !rust then
            let (stmt, next) ← guarded rust fuel c.offset after
            return (some stmt, next)
          else if word == "else" then
            Reading.warn c.offset .elseWithoutIf
            let (body, next) ← braced rust fuel "else" after
            return (some (.block ⟨c.offset, next.offset⟩ "" body), next)
          else if rust && ["unsafe", "async", "const"].contains word
              && after.skipBlanks.head? == some '{' then
            let (body, next) ← braced rust fuel word after
            return (some (.block ⟨c.offset, next.offset⟩ "" body), next)
          else
            let (stmt, next) := simpleStatement rust c
            return (some stmt, next)

/-- A conditional, from the place after its keyword on. -/
def branch (rust : Bool) : (fuel : Nat) → (start : Nat) → Cursor → Reading (Stmt × Cursor)
  | 0, start, c => Reading.giveUp (.simple ⟨start, c.offset⟩, c)
  | fuel + 1, start, c => do
      let (cond, bodyAt) ← condition rust c
      let (body, next) ← braced rust fuel "if" bodyAt
      let elseAt := next.skipBlanks
      let (orelse, next) : List Stmt × Cursor ←
        if elseAt.word == "else" then
          let c := (elseAt.advance 4).skipBlanks
          if c.word == "if" then do
            let (nested, next) ← statement rust fuel c
            pure (nested.toList, next)
          else braced rust fuel "else" c
        else pure ([], next)
      return (.branch ⟨start, next.offset⟩ (String.ofList cond) body orelse, next)

def loop (rust : Bool) : (fuel : Nat) → (word : String) → (label : Option String) →
    (start : Nat) → Cursor → Reading (Stmt × Cursor)
  | 0, _, _, start, c => Reading.giveUp (.simple ⟨start, c.offset⟩, c)
  | fuel + 1, word, label, start, c => do
      if word == "loop" then
        let (body, next) ← braced rust fuel "loop" c
        let head : LoopHead := { header := "loop", label := label, infinite := true }
        return (.loop ⟨start, next.offset⟩ head body [], next)
      else
        let c := c.skipBlanks
        let c := if c.word == "await" then c.advance 5 else c
        let (cond, bodyAt) ← condition rust c
        let (body, next) ← braced rust fuel word bodyAt
        let cond := Text.trim cond
        let head : LoopHead :=
          { header := word ++ " " ++ Text.label cond
            label := label
            infinite := isInfinite rust word cond }
        return (.loop ⟨start, next.offset⟩ head body [], next)

def doLoop (rust : Bool) : (fuel : Nat) → (label : Option String) → (start : Nat) → Cursor →
    Reading (Stmt × Cursor)
  | 0, _, start, c => Reading.giveUp (.simple ⟨start, c.offset⟩, c)
  | fuel + 1, label, start, c => do
      let (body, next) ← braced rust fuel "do" c
      let whileAt := next.skipBlanks
      let (cond, next) : List Char × Cursor ←
        if whileAt.word == "while" then do
          let (cond, next) ← condition rust (whileAt.advance 5)
          let next := next.skipBlanks
          pure (cond, if next.head? == some ';' then next.advance 1 else next)
        else do
          Reading.warn whileAt.offset .doWithoutWhile
          pure ([], whileAt)
      let head : LoopHead :=
        { header := "do ... while (" ++ String.ofList (Text.trim cond) ++ ")"
          label := label
          postTest := true }
      return (.loop ⟨start, next.offset⟩ head body [], next)

def switch (rust : Bool) : (fuel : Nat) → (start : Nat) → Cursor → Reading (Stmt × Cursor)
  | 0, start, c => Reading.giveUp (.simple ⟨start, c.offset⟩, c)
  | fuel + 1, start, c => do
      let (subject, bodyAt) ← condition rust c
      let bodyAt := bodyAt.skipBlanks
      let head : ChoiceHead :=
        { header := "switch (" ++ trimmedLabel subject ++ ")", fallthrough := true }
      match (if bodyAt.head? == some '{' then Text.matching? bodyAt.code else none) with
      | some n =>
          let arms ← switchArms rust fuel ((bodyAt.limit n).advance 1)
          let next := bodyAt.advance (n + 1)
          return (.choice ⟨start, next.offset⟩ head arms, next)
      | none =>
          Reading.warn bodyAt.offset .malformedSwitch
          let arms ← switchArms rust fuel (bodyAt.advance 1)
          let next := bodyAt.toEnd
          return (.choice ⟨start, next.offset⟩ head arms, next)

/-- The arms of a switch up to the end of its body. What stands before the first label is dropped
with a warning. -/
def switchArms (rust : Bool) : (fuel : Nat) → Cursor → Reading (List Arm)
  | 0, _ => Reading.giveUp []
  | fuel + 1, c => do
      let c := c.skipBlanks
      if c.head?.isNone then return []
      let word := c.word
      if word == "case" || word == "default" then
        let labelAt := c.advance word.length
        let (label, bodyAt) := match Text.topLevelDistance? ':' 0 labelAt.code with
          | some n => ((c.advance 4).sourceText (word.length - 4 + n), labelAt.advance (n + 1))
          | none => ((c.advance 4).sourceText (c.code.length - 4), labelAt.toEnd)
        let (body, next) ← block rust fuel ["case", "default"] bodyAt
        let arms ← switchArms rust fuel next
        let label := if word == "default" then "default" else trimmedLabel label
        return .mk label next.offset body :: arms
      else
        let (stmt, next) ← statement rust fuel c
        if let some stmt := stmt then Reading.warn stmt.span.start .statementBeforeCase
        if next.offset ≤ c.offset then
          Reading.stick
          return []
        else switchArms rust fuel next

def matching (rust : Bool) : (fuel : Nat) → (start : Nat) → Cursor → Reading (Stmt × Cursor)
  | 0, start, c => Reading.giveUp (.simple ⟨start, c.offset⟩, c)
  | fuel + 1, start, c => do
      let (subject, bodyAt) ← condition rust c
      let head : ChoiceHead := { header := "match " ++ trimmedLabel subject, exhaustive := true }
      match (if bodyAt.head? == some '{' then Text.matching? bodyAt.code else none) with
      | some n =>
          let arms ← matchArms rust fuel ((bodyAt.limit n).advance 1)
          let next := bodyAt.advance (n + 1)
          return (.choice ⟨start, next.offset⟩ head arms, next)
      | none =>
          Reading.warn bodyAt.offset .malformedMatch
          let arms ← matchArms rust fuel (bodyAt.advance 1)
          let next := bodyAt.toEnd
          return (.choice ⟨start, next.offset⟩ head arms, next)

def matchArms (rust : Bool) : (fuel : Nat) → Cursor → Reading (List Arm)
  | 0, _ => Reading.giveUp []
  | fuel + 1, c => do
      let c := c.skipBlanks
      if c.head?.isNone then return []
      match Text.cutAt? ['=', '>'] c.code with
      | none =>
          Reading.warn c.offset .armWithoutArrow
          return []
      | some (pattern, _) =>
          let label := trimmedLabel (c.sourceText pattern.length)
          let bodyAt := (c.advance (pattern.length + 2)).skipBlanks
          let (body, next) : List Stmt × Cursor ←
            if bodyAt.head? == some '{' then braced rust fuel "match arm" bodyAt
            else
              let n := (Text.topLevelDistance? ',' 0 bodyAt.code).getD bodyAt.code.length
              let kind := SimpleKind.ofText rust (bodyAt.code.take n)
              pure ([kind.toStmt ⟨bodyAt.offset, bodyAt.offset + n⟩], bodyAt.advance n)
          let next := next.skipBlanks
          let next := if next.head? == some ',' then next.advance 1 else next
          let arms ← matchArms rust fuel next
          return .mk label bodyAt.offset body :: arms

/-- A body with handlers, from the place after its keyword on. -/
def guarded (rust : Bool) : (fuel : Nat) → (start : Nat) → Cursor → Reading (Stmt × Cursor)
  | 0, start, c => Reading.giveUp (.simple ⟨start, c.offset⟩, c)
  | fuel + 1, start, c => do
      let (body, next) ← braced rust fuel "try" c
      let (handlers, final, next) ← handlers rust fuel next
      if handlers.isEmpty && final.isNone then Reading.warn start .tryAlone
      return (.guarded ⟨start, next.offset⟩ body handlers [] final, next)

/-- The handlers after a guarded body; of several final parts the last one counts. -/
def handlers (rust : Bool) : (fuel : Nat) → Cursor →
    Reading (List Arm × Option (List Stmt) × Cursor)
  | 0, c => Reading.giveUp ([], none, c)
  | fuel + 1, c => do
      let place := c.skipBlanks
      let word := place.word
      if word == "catch" then
        let paramAt := (place.advance 5).skipBlanks
        let (label, bodyAt) : String × Cursor :=
          match (if paramAt.head? == some '(' then Text.matching? paramAt.code else none) with
          | some n =>
              ("catch (" ++ Text.label ((paramAt.advance 1).sourceText (n - 1)) ++ ")",
                paramAt.advance (n + 1))
          | none => ("catch", paramAt)
        let (body, next) ← braced rust fuel "catch" bodyAt
        let (arms, final, next) ← handlers rust fuel next
        return (.mk label place.offset body :: arms, final, next)
      else if word == "finally" then
        let (body, next) ← braced rust fuel "finally" (place.advance 7)
        let (arms, final, next) ← handlers rust fuel next
        return (arms, some (final.getD body), next)
      else return ([], none, c)

end

def statements (rust : Bool) (fuel : Nat) (c : Cursor) : Reading (List Stmt) := do
  let (stmts, _) ← block rust fuel [] c
  return stmts

end Brace

end CodeAtlas
