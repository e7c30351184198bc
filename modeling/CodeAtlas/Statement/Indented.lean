import CodeAtlas.Source.LogicalLine
import CodeAtlas.Statement.Basic
import CodeAtlas.Statement.Warning

/-!
Statements of source whose structure is its indentation.

A recursive descent over the logical lines of a body. Every step that goes deeper or on to the next
statement takes at least one line within a few calls; a descent whose fuel does not last for that
gives up.
-/

namespace CodeAtlas

/-- A text in its masked and its source form; both have the same offsets. -/
structure SourceText where
  code : List Char
  source : List Char

namespace SourceText

def codeBetween (t : SourceText) (start stop : Nat) : List Char :=
  (t.code.take stop).drop start

def sourceBetween (t : SourceText) (start stop : Nat) : List Char :=
  (t.source.take stop).drop start

end SourceText

structure LineCursor where
  lastStop : Nat
  rest : List LogicalLine

namespace Indented

def firstWord (l : LogicalLine) : String :=
  match Text.name? l.text with
  | some (name, _) => String.ofList name
  | none => ""

/-- The word that says what a line is: its first name, or the one after `async`. -/
def leadingWord (l : LogicalLine) : String :=
  let afterAsync := Text.after? "async".toList l.text >>= Text.blanks1? >>= Text.name?
  match afterAsync with
  | some (name, _) => String.ofList name
  | none => firstWord l

def compoundWords : List String :=
  ["if", "elif", "else", "for", "while", "try", "except", "finally", "with", "match", "case",
    "def", "class", "async"]

structure HeaderLine where
  header : List Char
  inline : List Char
  inlineAt : Nat

def splitHeader (t : SourceText) (l : LogicalLine) : HeaderLine :=
  match Text.headerColon? t.code l.start l.stop with
  | some colon =>
      ⟨t.sourceBetween l.start colon, Text.trim (t.codeBetween (colon + 1) l.stop), colon + 1⟩
  | none => ⟨l.text, [], l.stop⟩

def inlineStatements (h : HeaderLine) (stop : Nat) : List Stmt :=
  ((Text.splitTopLevel ';' h.inline).filter (!Text.isAllBlank ·)).map fun part =>
    (SimpleKind.ofText false part).toStmt ⟨h.inlineAt, stop⟩

def continues (c : LineCursor) (indent : Nat) (words : List String) : Bool :=
  c.rest.head?.any fun l => l.indent == indent && words.contains (firstWord l)

def afterKeyword (length : Nat) (header : List Char) : List Char :=
  Text.trim ((Text.trim header).drop length)

/-- The parts of a guarded statement that have been read: handlers, what runs without an exception,
and what runs at last. -/
structure GuardParts where
  handlers : List Arm := []
  orelse : List Stmt := []
  final : Option (List Stmt) := none

def headerLabel (header : List Char) : String :=
  Text.label (Text.trim header)

mutual

def suite (t : SourceText) : (fuel : Nat) → (indent : Nat) → LineCursor →
    Reading (List Stmt × LineCursor)
  | 0, _, c => Reading.giveUp ([], c)
  | fuel + 1, indent, c => do
      match c.rest with
      | [] => return ([], c)
      | l :: _ =>
          if l.indent < indent then return ([], c)
          else if indent < l.indent then
            Reading.warn l.start .unexpectedIndent
            let (body, c) ← suite t fuel l.indent c
            let (stmts, c) ← suite t fuel indent c
            return (.block ⟨l.start, l.stop⟩ "" body :: stmts, c)
          else
            let (stmt, c) ← statement t fuel c
            let (stmts, c) ← suite t fuel indent c
            return (stmt.toList ++ stmts, c)

def body (t : SourceText) : (fuel : Nat) → LineCursor →
    Reading (List Stmt × List Char × LineCursor)
  | 0, c => Reading.giveUp ([], [], c)
  | fuel + 1, c => do
      match c.rest with
      | [] => return ([], [], c)
      | l :: rest =>
          let h := splitHeader t l
          let next : LineCursor := ⟨l.stop, rest⟩
          if !h.inline.isEmpty then return (inlineStatements h l.stop, h.header, next)
          else
            match rest.head? with
            | some first =>
                if l.indent < first.indent then
                  let (stmts, c) ← suite t fuel first.indent next
                  return (stmts, h.header, c)
                else
                  Reading.warn l.start .expectedIndentedBlock
                  return ([], h.header, next)
            | none =>
                Reading.warn l.start .expectedIndentedBlock
                return ([], h.header, next)

def statement (t : SourceText) : (fuel : Nat) → LineCursor →
    Reading (Option Stmt × LineCursor)
  | 0, c => Reading.giveUp (none, c)
  | fuel + 1, c => do
      match c.rest with
      | [] => return (none, c)
      | l :: rest =>
          let word := leadingWord l
          if !compoundWords.contains word || (Text.headerColon? t.code l.start l.stop).isNone then
            return (some ((SimpleKind.ofText false l.text).toStmt ⟨l.start, l.stop⟩),
              ⟨l.stop, rest⟩)
          else if word == "if" then
            let (stmts, header, c) ← body t fuel c
            let (orelse, c) ← alternatives t fuel l.indent c
            let cond := String.ofList (afterKeyword 2 header)
            return (some (.branch ⟨l.start, c.lastStop⟩ cond stmts orelse), c)
          else if word == "for" || word == "while" then
            let (stmts, header, c) ← body t fuel c
            let cond := String.ofList (afterKeyword word.length header)
            let (orelse, c) : List Stmt × LineCursor ←
              if continues c l.indent ["else"] then do
                let (stmts, _, c) ← body t fuel c
                pure (stmts, c)
              else pure ([], c)
            let head : LoopHead :=
              { header := headerLabel header
                infinite := word == "while" && ["True", "1", "(True)"].contains cond }
            return (some (.loop ⟨l.start, c.lastStop⟩ head stmts orelse), c)
          else if word == "try" then
            let (stmts, _, c) ← body t fuel c
            let (parts, c) ← guardParts t fuel l.indent {} c
            return (some (.guarded ⟨l.start, c.lastStop⟩ stmts parts.handlers parts.orelse
              parts.final), c)
          else if word == "with" then
            let (stmts, header, c) ← body t fuel c
            let head : Stmt := .simple ⟨l.start, l.start + header.length⟩
            return (some (.block ⟨l.start, c.lastStop⟩ (Text.label header) (head :: stmts)), c)
          else if word == "match" then
            let header := headerLabel (splitHeader t l).header
            let (arms, c) : List Arm × LineCursor ←
              match rest.head? with
              | some first =>
                  if l.indent < first.indent then cases t fuel first.indent ⟨l.stop, rest⟩
                  else do
                    Reading.warn l.start .expectedIndentedBlock
                    pure ([], ⟨l.stop, rest⟩)
              | none => do
                  Reading.warn l.start .expectedIndentedBlock
                  pure ([], ⟨l.stop, rest⟩)
            return (some (.choice ⟨l.start, c.lastStop⟩ { header := header } arms), c)
          else if word == "def" || word == "class" then
            let inner := rest.takeWhile (l.indent < ·.indent)
            let stop := (inner.getLast?.map (·.stop)).getD l.stop
            return (some (.simple ⟨l.start, stop⟩), ⟨stop, rest.drop inner.length⟩)
          else
            Reading.warn l.start (.unmatchedWord word)
            let (stmts, _, c) ← body t fuel c
            return (some (.block ⟨l.start, c.lastStop⟩ "" stmts), c)

/-- What a conditional does otherwise: the chain of its `elif` and `else` parts. -/
def alternatives (t : SourceText) : (fuel : Nat) → (indent : Nat) → LineCursor →
    Reading (List Stmt × LineCursor)
  | 0, _, c => Reading.giveUp ([], c)
  | fuel + 1, indent, c => do
      match c.rest with
      | [] => return ([], c)
      | l :: _ =>
          if continues c indent ["elif"] then
            let (stmts, header, c) ← body t fuel c
            let (orelse, c) ← alternatives t fuel indent c
            let cond := String.ofList (afterKeyword 4 header)
            return ([.branch ⟨l.start, l.stop⟩ cond stmts orelse], c)
          else if continues c indent ["else"] then
            let (stmts, _, c) ← body t fuel c
            return (stmts, c)
          else return ([], c)

/-- The parts after a guarded body. Of several `else` or `finally` parts the last one counts. -/
def guardParts (t : SourceText) : (fuel : Nat) → (indent : Nat) → GuardParts → LineCursor →
    Reading (GuardParts × LineCursor)
  | 0, _, parts, c => Reading.giveUp (parts, c)
  | fuel + 1, indent, parts, c => do
      match c.rest with
      | [] => return (parts, c)
      | l :: _ =>
          if continues c indent ["except", "else", "finally"] then
            let (stmts, header, c) ← body t fuel c
            let word := firstWord l
            let parts :=
              if word == "except" then
                { parts with
                  handlers := parts.handlers ++ [.mk (headerLabel header) l.start stmts] }
              else if word == "else" then { parts with orelse := stmts }
              else { parts with final := some stmts }
            guardParts t fuel indent parts c
          else return (parts, c)

def cases (t : SourceText) : (fuel : Nat) → (indent : Nat) → LineCursor →
    Reading (List Arm × LineCursor)
  | 0, _, c => Reading.giveUp ([], c)
  | fuel + 1, indent, c => do
      match c.rest with
      | [] => return ([], c)
      | l :: rest =>
          if l.indent != indent then return ([], c)
          else if firstWord l != "case" then
            Reading.warn l.start .expectedCase
            cases t fuel indent ⟨l.stop, rest⟩
          else
            let (stmts, header, c) ← body t fuel c
            let (arms, c) ← cases t fuel indent c
            return (.mk (Text.label (afterKeyword 4 header)) l.start stmts :: arms, c)

end

/-- The statements of all suites of a body, one after the other; `count` bounds their number. -/
def suites (t : SourceText) (fuel : Nat) : (count : Nat) → LineCursor → Reading (List Stmt)
  | 0, _ => Reading.giveUp []
  | count + 1, c => do
      match c.rest with
      | [] => return []
      | l :: _ =>
          let (stmts, c) ← suite t fuel l.indent c
          let rest ← suites t fuel count c
          return stmts ++ rest

def statements (t : SourceText) (fuel start stop : Nat) : Reading (List Stmt) := do
  let (lines, balance) := LogicalLine.within t.code start stop
  if 0 < balance then Reading.warn start (.unclosedBrackets balance)
  suites t fuel fuel ⟨start, lines⟩

end Indented

end CodeAtlas
