import CodeAtlas.Text.Bracket
import CodeAtlas.Text.Word

/-!
Marks: the places of a masked text at which a declaration may start or a block opens or closes.

Each family has a recogniser that reads the mark at a place. Marks are taken from the left and do
not overlap.
-/

namespace CodeAtlas

structure Mark (κ : Type) where
  start : Nat
  stop : Nat
  before : List Char
  kind : κ
  deriving Repr

namespace Mark

def isStatementBoundary (c : Char) : Bool :=
  c == ';' || c == '{' || c == '}'

/-- The text between the last statement boundary (a semicolon or a brace) and the mark. -/
def lead {κ : Type} (m : Mark κ) : List Char :=
  (m.before.takeWhile (!isStatementBoundary ·)).reverse

/-- The marks from a place on. `read` gets the characters passed so far, the last one first, and
the text from the place on; it gives a mark and its length. `skip` characters still belong to the
mark found last. -/
def scanFrom {κ : Type} (read : List Char → List Char → Option (κ × Nat)) :
    (skip pos : Nat) → (before : List Char) → List Char → List (Mark κ)
  | _, _, _, [] => []
  | skip + 1, pos, before, c :: cs => scanFrom read skip (pos + 1) (c :: before) cs
  | 0, pos, before, c :: cs =>
      match read before (c :: cs) with
      | some (kind, length) =>
          ⟨pos, pos + length, before, kind⟩
            :: scanFrom read (length - 1) (pos + 1) (c :: before) cs
      | none => scanFrom read 0 (pos + 1) (c :: before) cs

def scan {κ : Type} (read : List Char → List Char → Option (κ × Nat)) (cs : List Char) :
    List (Mark κ) :=
  scanFrom read 0 0 [] cs

def wordAndBlanks? (word : String) (before cs : List Char) : Option (List Char) := do
  if before.head?.any isWordChar then none
  else
    let rest ← Text.after? word.toList cs
    Text.blanks1? rest

end Mark

end CodeAtlas
