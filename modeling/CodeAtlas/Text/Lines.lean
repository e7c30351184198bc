/-!
Line numbers of offsets.

Lines are counted from one, and a line starts at offset zero or just after a line feed.
-/

namespace CodeAtlas

/-- The offsets just after each line feed of `cs`, which starts at offset `pos`. -/
def lineStartsFrom : (pos : Nat) → List Char → List Nat
  | _, [] => []
  | pos, c :: cs =>
      if c == '\n' then (pos + 1) :: lineStartsFrom (pos + 1) cs else lineStartsFrom (pos + 1) cs

structure LineMap where
  starts : List Nat
  deriving Repr, DecidableEq

namespace LineMap

def ofText (cs : List Char) : LineMap :=
  ⟨0 :: lineStartsFrom 0 cs⟩

/-- The number of the line that holds `offset`: the number of lines that start at or before it.
An offset below zero is on no line, so its number is zero. -/
def lineOf (m : LineMap) (offset : Int) : Nat :=
  (m.starts.takeWhile fun (start : Nat) => (start : Int) ≤ offset).length

end LineMap

end CodeAtlas
