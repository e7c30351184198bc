/-!
Bytes written with sixty-four characters, four of them for three bytes.

Characters that are none of the sixty-four are passed over. Equals signs fill up the last group of
four; what stands behind a group that is filled up does not count.
-/

namespace CodeAtlas.Base64

def value? (c : Char) : Option Nat :=
  if 'A' ≤ c && c ≤ 'Z' then some (c.toNat - 'A'.toNat)
  else if 'a' ≤ c && c ≤ 'z' then some (c.toNat - 'a'.toNat + 26)
  else if c.isDigit then some (c.toNat - '0'.toNat + 52)
  else if c == '+' then some 62
  else if c == '/' then some 63
  else none

def groupBytes : List Nat → List UInt8
  | [a, b, c, d] =>
    [UInt8.ofNat (4 * a + b / 16), UInt8.ofNat (16 * b + c / 4), UInt8.ofNat (64 * c + d)]
  | [a, b, c] => [UInt8.ofNat (4 * a + b / 16), UInt8.ofNat (16 * b + c / 4)]
  | [a, b] => [UInt8.ofNat (4 * a + b / 16)]
  | _ => []

/-- The bytes from a place on; `group` holds the values of a group so far, and `pads` counts the
equals signs behind them. A group that is neither whole nor filled up is a fault. -/
def decodeFrom : (group : List Nat) → (pads : Nat) → List Char → Option (List UInt8)
  | group, _, [] => if group.isEmpty then some [] else none
  | group, pads, c :: rest =>
      if c == '=' then
        if group.length < 2 then decodeFrom group pads rest
        else if 4 ≤ group.length + pads + 1 then some (groupBytes group)
        else decodeFrom group (pads + 1) rest
      else
        match value? c with
        | none => decodeFrom group pads rest
        | some v =>
            if group.length < 3 then decodeFrom (group ++ [v]) 0 rest
            else (decodeFrom [] 0 rest).map (groupBytes (group ++ [v]) ++ ·)

def decode? (cs : List Char) : Option (List UInt8) := decodeFrom [] 0 cs

end CodeAtlas.Base64
