import CodeAtlas.Proofs.Source.Row
import CodeAtlas.Statement.Indented

/-!
Statements of indented source as they are written.

A clause is a header line and the suite below it; a compound statement is made of clauses, and a
suite of statements (`Phrase`, `Clause`). Statements give the rows they are written in
(`Phrase.rows`), the tree they stand for (`Phrase.stmt`), and the rule of indentation that they have
to keep (`Phrase.fits`): every suite has one indentation, which is deeper than that of its header.
-/

namespace CodeAtlas

open List Text

inductive Keyword where
  | branch
  | alternative
  | otherwise
  | loopOver
  | loopWhile
  | attempt
  | handler
  | finish
  | scope
  | choice
  | arm
  deriving Repr, DecidableEq

def Keyword.word : Keyword → String
  | branch => "if"
  | alternative => "elif"
  | otherwise => "else"
  | loopOver => "for"
  | loopWhile => "while"
  | attempt => "try"
  | handler => "except"
  | finish => "finally"
  | scope => "with"
  | choice => "match"
  | arm => "case"

/-- A header line without its keyword: what stands between the keyword and the colon that ends the
header. No colon stands there outside of brackets. -/
structure ClauseHead where
  margin : Margin
  rest : List Char := []
  plain : rest.all Text.isPlain = true := by decide
  balanced : Text.balanced 0 rest = true := by decide
  colons : Text.colonsInside 0 rest = true := by decide
  apart : rest.head?.all (!isWordChar ·) = true := by decide

/-- A line that holds a simple statement: its first word starts no compound one. -/
structure SimpleLine where
  margin : Margin
  code : List Char
  plain : code.all Text.isPlain = true := by decide
  balanced : Text.balanced 0 code = true := by decide
  first : code.head?.any (!isBlank ·) = true := by decide
  last : code.getLast?.any (!isBlank ·) = true := by decide
  word : (Text.name? code).all
    (fun name => !Indented.compoundWords.contains (String.ofList name.1)) = true := by
    decide

mutual

inductive Phrase where
  | simple (line : SimpleLine)
  | branch (first : Clause) (elifs : List Clause) (orelse : Option Clause)
  | loop (isWhile : Bool) (first : Clause) (orelse : Option Clause)
  | guarded (first : Clause) (handlers : List Clause) (orelse final : Option Clause)
  | scope (first : Clause)
  | choice (head : ClauseHead) (arms : List Clause)

/-- A header line and the suite below it. -/
inductive Clause where
  | mk (head : ClauseHead) (body : List Phrase)

end

/-! ### Rows -/

namespace Keyword

def ofLoop (isWhile : Bool) : Keyword :=
  if isWhile then loopWhile else loopOver

theorem isPlain_of_mem (k : Keyword) : ∀ c ∈ k.word.toList, isPlain c = true := by
  rw [← all_eq_true]
  cases k <;> decide

theorem bracketless (k : Keyword) :
    ∀ c ∈ k.word.toList, isOpener c = false ∧ isCloser c = false := by
  have all : (k.word.toList.all fun c => !isOpener c && !isCloser c) = true := by cases k <;> decide
  simpa using all

end Keyword

namespace ClauseHead

def text (k : Keyword) (h : ClauseHead) : List Char :=
  k.word.toList ++ h.rest

def expression (h : ClauseHead) : List Char :=
  Text.trim h.rest

def row (k : Keyword) (h : ClauseHead) : Row where
  margin := h.margin
  code := h.text k ++ [':']
  plain := by
    intro c member
    simp only [text, List.mem_append, List.mem_singleton] at member
    rcases member with (word | rest) | rfl
    · exact k.isPlain_of_mem c word
    · exact List.all_eq_true.mp h.plain c rest
    · decide
  level := by
    have rest : PhysicalLine.depthAfter 0 h.rest = 0 := Text.depthAfter_of_balanced h.balanced
    rw [text, PhysicalLine.depthAfter_append, PhysicalLine.depthAfter_append,
      PhysicalLine.depthAfter_of_bracketless k.bracketless, rest]
    rfl
  first := by
    cases k <;> rfl
  last := by
    rw [List.getLast?_concat]
    decide

end ClauseHead

def SimpleLine.row (l : SimpleLine) : Row where
  margin := l.margin
  code := l.code
  plain := List.all_eq_true.mp l.plain
  level := Text.depthAfter_of_balanced l.balanced
  first := l.first
  last := l.last

def Clause.head : Clause → ClauseHead
  | mk head _ => head

mutual

def Phrase.rows : Phrase → List Row
  | .simple line => [line.row]
  | .branch first elifs orelse =>
      first.rows .branch ++ (Clause.rowsAll .alternative elifs ++ Clause.rowsOpt .otherwise orelse)
  | .loop isWhile first orelse => first.rows (.ofLoop isWhile) ++ Clause.rowsOpt .otherwise orelse
  | .guarded first handlers orelse final =>
      first.rows .attempt ++ (Clause.rowsAll .handler handlers ++
        (Clause.rowsOpt .otherwise orelse ++ Clause.rowsOpt .finish final))
  | .scope first => first.rows .scope
  | .choice head arms => head.row .choice :: Clause.rowsAll .arm arms

def Phrase.rowsAll : List Phrase → List Row
  | [] => []
  | w :: ws => w.rows ++ Phrase.rowsAll ws

def Clause.rows (k : Keyword) : Clause → List Row
  | .mk head body => head.row k :: Phrase.rowsAll body

def Clause.rowsAll (k : Keyword) : List Clause → List Row
  | [] => []
  | c :: cs => c.rows k ++ Clause.rowsAll k cs

def Clause.rowsOpt (k : Keyword) : Option Clause → List Row
  | none => []
  | some c => c.rows k

end

/-! ### Indentation -/

def Phrase.indent : Phrase → Nat
  | .simple line => line.margin.pad.length
  | .branch first _ _ => first.head.margin.pad.length
  | .loop _ first _ => first.head.margin.pad.length
  | .guarded first _ _ _ => first.head.margin.pad.length
  | .scope first => first.head.margin.pad.length
  | .choice head _ => head.margin.pad.length

def Phrase.suiteIndent : List Phrase → Nat
  | [] => 0
  | w :: _ => w.indent

def Clause.armIndent : List Clause → Nat
  | [] => 0
  | c :: _ => c.head.margin.pad.length

mutual

/-- Does a statement stand at the given indentation, with each suite in it deeper than its header? A
suite that is deeper than something is not empty. -/
def Phrase.fits (indent : Nat) : Phrase → Bool
  | .simple line => line.margin.pad.length == indent
  | .branch first elifs orelse =>
      first.fits indent && Clause.fitsAll indent elifs && Clause.fitsOpt indent orelse
  | .loop _ first orelse => first.fits indent && Clause.fitsOpt indent orelse
  | .guarded first handlers orelse final =>
      first.fits indent && Clause.fitsAll indent handlers && Clause.fitsOpt indent orelse
        && Clause.fitsOpt indent final
  | .scope first => first.fits indent
  | .choice head arms =>
      head.margin.pad.length == indent && indent < Clause.armIndent arms
        && Clause.fitsAll (Clause.armIndent arms) arms

def Phrase.fitsAll (indent : Nat) : List Phrase → Bool
  | [] => true
  | w :: ws => w.fits indent && Phrase.fitsAll indent ws

def Clause.fits (indent : Nat) : Clause → Bool
  | .mk head body =>
      head.margin.pad.length == indent && indent < Phrase.suiteIndent body
        && Phrase.fitsAll (Phrase.suiteIndent body) body

def Clause.fitsAll (indent : Nat) : List Clause → Bool
  | [] => true
  | c :: cs => c.fits indent && Clause.fitsAll indent cs

def Clause.fitsOpt (indent : Nat) : Option Clause → Bool
  | none => true
  | some c => c.fits indent

end

/-! ### Trees -/

def Clause.start (offset : Nat) (c : Clause) : Nat :=
  c.head.margin.start offset

def ClauseHead.handlerLabel (h : ClauseHead) : String :=
  Text.label (Text.trim (h.text .handler))

def ClauseHead.armLabel (h : ClauseHead) : String :=
  Text.label h.expression

def ClauseHead.loopHead (isWhile : Bool) (h : ClauseHead) : LoopHead :=
  { header := Text.label (Text.trim (h.text (.ofLoop isWhile)))
    infinite := isWhile && ["True", "1", "(True)"].contains (String.ofList h.expression) }

mutual

/-- The tree of a statement whose rows start at `offset`. -/
def Phrase.stmt (offset : Nat) : Phrase → Stmt
  | .simple line =>
      (SimpleKind.ofText false line.code).toStmt ⟨line.margin.start offset, offset + line.row.size⟩
  | .branch first elifs orelse =>
      let elifsAt := offset + Row.sizeAll (first.rows .branch)
      let orelseAt := elifsAt + Row.sizeAll (Clause.rowsAll .alternative elifs)
      let stop := orelseAt + Row.sizeAll (Clause.rowsOpt .otherwise orelse)
      .branch ⟨first.start offset, stop⟩ (String.ofList first.head.expression)
        (first.stmts .branch offset)
        (Clause.chain ((Clause.stmtsOpt .otherwise orelseAt orelse).getD []) elifsAt elifs)
  | .loop isWhile first orelse =>
      let orelseAt := offset + Row.sizeAll (first.rows (.ofLoop isWhile))
      let stop := orelseAt + Row.sizeAll (Clause.rowsOpt .otherwise orelse)
      .loop ⟨first.start offset, stop⟩ (first.head.loopHead isWhile)
        (first.stmts (.ofLoop isWhile) offset)
          ((Clause.stmtsOpt .otherwise orelseAt orelse).getD [])
  | .guarded first handlers orelse final =>
      let handlersAt := offset + Row.sizeAll (first.rows .attempt)
      let orelseAt := handlersAt + Row.sizeAll (Clause.rowsAll .handler handlers)
      let finalAt := orelseAt + Row.sizeAll (Clause.rowsOpt .otherwise orelse)
      let stop := finalAt + Row.sizeAll (Clause.rowsOpt .finish final)
      .guarded ⟨first.start offset, stop⟩ (first.stmts .attempt offset)
        (Clause.arms .handler ClauseHead.handlerLabel handlersAt handlers)
        ((Clause.stmtsOpt .otherwise orelseAt orelse).getD [])
        (Clause.stmtsOpt .finish finalAt final)
  | .scope first =>
      let stop := offset + Row.sizeAll (first.rows .scope)
      let head : Span := ⟨first.start offset, first.start offset + (first.head.text .scope).length⟩
      .block ⟨first.start offset, stop⟩ (Text.label (first.head.text .scope))
        (.simple head :: first.stmts .scope offset)
  | .choice head arms =>
      let armsAt := offset + (head.row .choice).size
      let stop := armsAt + Row.sizeAll (Clause.rowsAll .arm arms)
      .choice ⟨head.margin.start offset, stop⟩
        { header := Text.label (Text.trim (head.text .choice)) }
        (Clause.arms .arm ClauseHead.armLabel armsAt arms)

/-- The trees of statements that follow one another. -/
def Phrase.stmts (offset : Nat) : List Phrase → List Stmt
  | [] => []
  | w :: ws => w.stmt offset :: Phrase.stmts (offset + Row.sizeAll w.rows) ws

def Clause.stmts (k : Keyword) (offset : Nat) : Clause → List Stmt
  | .mk head body => Phrase.stmts (offset + (head.row k).size) body

def Clause.stmtsOpt (k : Keyword) (offset : Nat) : Option Clause → Option (List Stmt)
  | none => none
  | some c => some (c.stmts k offset)

/-- A chain of alternatives: each one is what the one before does otherwise, and has the span of its
header line. -/
def Clause.chain (orelse : List Stmt) (offset : Nat) : List Clause → List Stmt
  | [] => orelse
  | c :: cs =>
      [.branch ⟨c.start offset, offset + (c.head.row .alternative).size⟩
        (String.ofList c.head.expression) (c.stmts .alternative offset)
        (Clause.chain orelse (offset + Row.sizeAll (c.rows .alternative)) cs)]

def Clause.arms (k : Keyword) (label : ClauseHead → String) (offset : Nat) : List Clause → List Arm
  | [] => []
  | c :: cs =>
      .mk (label c.head) (c.start offset) (c.stmts k offset)
        :: Clause.arms k label (offset + Row.sizeAll (c.rows k)) cs

end

/-! ### The words of rows -/

open Indented

namespace Keyword

theorem colon_not_mem (k : Keyword) : ':' ∉ k.word.toList := by
  cases k <;> decide

/-- A keyword is read as a word where no word character follows. -/
theorem name?_word (k : Keyword) {rest : List Char}
    (apart : rest.head?.all (!isWordChar ·) = true) :
    name? (k.word.toList ++ rest) = some (k.word.toList, rest) := by
  cases k
  all_goals exact name?_append (by decide) (all_eq_true.mp (by decide)) apart

theorem after?_async (k : Keyword) (rest : List Char) :
    after? "async".toList (k.word.toList ++ rest) = none := by
  cases k <;> rfl

end Keyword

namespace ClauseHead

variable (k : Keyword) (h : ClauseHead)

/-- A header closes all brackets that it opens. -/
theorem balanced_text : Text.balanced 0 (h.text k) = true := by
  rw [text, Text.balanced_append k.bracketless]
  exact h.balanced

/-- All colons in it stand inside brackets. -/
theorem colonsInside_text : colonsInside 0 (h.text k) = true := by
  rw [text, colonsInside_append k.bracketless k.colon_not_mem]
  exact h.colons

theorem row_code : (h.row k).code = h.text k ++ [':'] :=
  rfl

theorem apart_colon : (h.rest ++ [':']).head?.all (!isWordChar ·) = true := by
  cases rest : h.rest with
  | nil => decide
  | cons c cs =>
    have apart := h.apart
    rw [rest] at apart
    exact apart

/-- The first word of a header line is its keyword. -/
theorem firstWord_row (offset number : Nat) :
    firstWord ((h.row k).logical offset number) = k.word := by
  have name : name? ((h.row k).logical offset number).text =
      some (k.word.toList, h.rest ++ [':']) := by
    show name? (h.text k ++ [':']) = _
    rw [text, append_assoc]
    exact k.name?_word h.apart_colon
  rw [firstWord, name]
  exact String.ofList_toList

theorem leadingWord_row (offset number : Nat) :
    leadingWord ((h.row k).logical offset number) = k.word := by
  have async : after? "async".toList ((h.row k).logical offset number).text = none := by
    show after? "async".toList (h.text k ++ [':']) = none
    rw [text, append_assoc]
    exact k.after?_async _
  rw [leadingWord, async]
  exact h.firstWord_row k offset number

/-- What stands behind the keyword is the expression. -/
theorem afterKeyword_text : afterKeyword k.word.length (h.text k) = h.expression := by
  have first : (h.text k).head?.any (!isBlank ·) = true := by cases k <;> rfl
  have last : k.word.toList.getLast?.any (!isBlank ·) = true := by cases k <;> decide
  have start : trimStart (h.text k) = h.text k :=
    trimStart_append (a := []) (by simp) first
  have trimmed : trim (h.text k) = k.word.toList ++ trimEnd h.rest := by
    rw [trim, start, text, trimEnd_append_of_visible last]
  rw [afterKeyword, trimmed, ← String.length_toList, drop_left, trim_trimEnd]
  rfl

end ClauseHead

namespace SimpleLine

/-- The first word of a simple line starts no compound statement. -/
theorem firstWord_row (l : SimpleLine) (offset number : Nat) :
    compoundWords.contains (firstWord (l.row.logical offset number)) = false := by
  have word := l.word
  have line : (l.row.logical offset number).text = l.code := rfl
  rw [firstWord, line]
  cases name : name? l.code with
  | none => decide
  | some read =>
    rw [name] at word
    simpa using word

theorem leadingWord_row (l : SimpleLine) (offset number : Nat) :
    leadingWord (l.row.logical offset number) = firstWord (l.row.logical offset number) := by
  have single : (after? "async".toList l.code >>= blanks1? >>= name?) = none := by
    rw [Option.eq_none_iff_forall_ne_some]
    intro read found
    simp only [Option.bind_eq_bind, Option.bind_eq_some_iff] at found
    obtain ⟨_, ⟨rest, after, blanks⟩, _⟩ := found
    -- Then the first word of the line would be `async`, which is a compound word.
    have apart : rest.head?.all (!isWordChar ·) = true := by
      cases rest with
      | nil => rfl
      | cons c rest =>
        have blank : isBlank c = true := by
          by_contra visible
          simp [blanks1?, visible] at blanks
        have outside := isDollarWordChar_of_isBlank blank
        rw [isDollarWordChar, Bool.or_eq_false_iff] at outside
        simp [outside.1]
    have word := l.word
    rw [after?_eq_some_iff.mp after,
      show "async".toList = 'a' :: "sync".toList from rfl,
      name?_append (by decide) (all_eq_true.mp (by decide)) apart] at word
    have word : (!compoundWords.contains (String.ofList ('a' :: "sync".toList))) = true := word
    exact absurd word (by decide)
  have line : (l.row.logical offset number).text = l.code := rfl
  simp only [leadingWord, line, single]

end SimpleLine

end CodeAtlas
