import CodeAtlas.Text.Bracket

/-!
Places in a text that a request names by number.

A request may name a place outside the text, so reading at a place can fail. A number below zero
counts from the end of the text.
-/

namespace CodeAtlas

inductive PlaceFault where
  | outside
  | notOpener
  deriving Repr, DecidableEq

namespace Text

def charAt? (cs : List Char) (place : Int) : Option Char :=
  if 0 ≤ place then cs[place.toNat]?
  else if (-place).toNat ≤ cs.length then cs[cs.length - (-place).toNat]? else none

/-- The places from `start` up to `stop` with their characters. Places outside the text have none;
at most one such place matters, so the list stops soon after the text does. -/
def cells (cs : List Char) (start stop : Int) : List (Int × Option Char) :=
  (List.range (min (stop - start).toNat (2 * cs.length + 1))).map fun (k : Nat) =>
    (start + k, charAt? cs (start + k))

def closerCell (opener closer : Char) :
    (depth : Nat) → List (Int × Option Char) → Except PlaceFault (Option Int)
  | _, [] => .ok none
  | _, (_, none) :: _ => .error .outside
  | depth, (place, some c) :: rest =>
      if c == opener then closerCell opener closer (depth + 1) rest
      else if c == closer then
        if depth ≤ 1 then .ok (some place) else closerCell opener closer (depth - 1) rest
      else closerCell opener closer depth rest

/-- The place of the bracket that closes the one at `openAt`, looking no further than `stop`. -/
def findMatching (cs : List Char) (openAt : Int) (stop : Option Int) :
    Except PlaceFault (Option Int) :=
  match charAt? cs openAt with
  | none => .error .outside
  | some opener =>
      match closerOf? opener with
      | none => .error .notOpener
      | some closer => closerCell opener closer 0 (cells cs openAt (stop.getD cs.length))

end Text

end CodeAtlas
