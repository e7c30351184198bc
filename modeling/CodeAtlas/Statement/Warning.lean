/-!
What can be odd about the body of a function.
-/

namespace CodeAtlas

inductive FlowWarning where
  | missingBrace (what : String)
  | expectedBrace (what : String)
  | unbalancedCondition
  | noBlockAfterCondition
  | doWithoutWhile
  | elseWithoutIf
  | malformedSwitch
  | malformedMatch
  | statementBeforeCase
  | armWithoutArrow
  | tryAlone
  | unclosedBrackets (count : Int)
  | unexpectedIndent
  | expectedIndentedBlock
  | expectedCase
  | unmatchedWord (word : String)
  | unknownKind (kind : String)
  | jumpOutsideLoop (jump : String)
  | severalMatches (name : String) (count line : Nat)
  deriving Repr, DecidableEq

namespace FlowWarning

def message : FlowWarning → String
  | missingBrace what => "missing '\x7d' after " ++ what
  | expectedBrace what => "expected '\x7b' after " ++ what
  | unbalancedCondition => "unbalanced '(' in condition"
  | noBlockAfterCondition => "could not find block after condition"
  | doWithoutWhile => "'do' without 'while'"
  | elseWithoutIf => "'else' without matching 'if'"
  | malformedSwitch => "malformed switch body"
  | malformedMatch => "malformed match body"
  | statementBeforeCase => "statement before first case label"
  | armWithoutArrow => "match arm without '=>'"
  | tryAlone => "'try' without 'catch' or 'finally'"
  | unclosedBrackets count => toString count ++ " unclosed bracket(s) in body"
  | unexpectedIndent => "unexpected indent"
  | expectedIndentedBlock => "expected an indented block"
  | expectedCase => "expected 'case' inside match"
  | unmatchedWord word => "'" ++ word ++ "' without matching statement"
  | unknownKind kind => "unknown statement kind '" ++ kind ++ "'"
  | jumpOutsideLoop jump => "'" ++ jump ++ "' outside of a loop"
  | severalMatches name count line =>
      "'" ++ name ++ "' matches " ++ toString count ++ " functions; using the one at line "
        ++ toString line

end FlowWarning

/-- What reading a body leaves behind besides the statements. -/
structure Remarks where
  warnings : List (Nat × FlowWarning) := []
  /-- Reading did not come to an end by itself: a switch body held something that is no statement,
  or the fuel ran out. -/
  stuck : Bool := false

abbrev Reading := StateM Remarks

def Reading.warn (offset : Nat) (w : FlowWarning) : Reading Unit :=
  modify fun r => { r with warnings := r.warnings ++ [(offset, w)] }

def Reading.stick : Reading Unit :=
  modify fun r => { r with stuck := true }

def Reading.giveUp {α : Type} (a : α) : Reading α := do
  Reading.stick
  return a

end CodeAtlas
