/-!
Text from bytes.

A character takes one to four bytes. The first byte says how many follow and, together with the
length, which values the second one may have, so that every character has one spelling and none lies
outside of the range of characters. Reading stops at the first byte sequence that is no character,
and says where that sequence starts.
-/

namespace CodeAtlas

inductive Utf8Reason where
  | badStart
  | badContinuation
  | truncated
  deriving Repr, DecidableEq

/-- Bytes that are no text: where the first sequence that is no character starts, and why it is
none. -/
structure Utf8Fault where
  offset : Nat
  reason : Utf8Reason
  deriving Repr, DecidableEq

namespace Utf8Reason

def text : Utf8Reason → String
  | badStart => "invalid start byte"
  | badContinuation => "invalid continuation byte"
  | truncated => "unexpected end of data"

end Utf8Reason

namespace Utf8Fault

def message (e : Utf8Fault) : String :=
  "invalid UTF-8 at byte " ++ toString e.offset ++ ": " ++ e.reason.text

end Utf8Fault

namespace Utf8

structure Pending where
  start : Nat
  owed : Nat
  least : Nat
  most : Nat
  value : Nat
  deriving Repr, DecidableEq

structure State where
  offset : Nat := 0
  pending : Option Pending := none
  chars : List Char := []

/-- What a first byte of a character of several bytes leads to. -/
def first? (start b : Nat) : Option Pending :=
  if b < 0xC2 then none
  else if b < 0xE0 then some ⟨start, 0, 0x80, 0xBF, b - 0xC0⟩
  else if b < 0xF0 then
    some ⟨start, 1, if b == 0xE0 then 0xA0 else 0x80, if b == 0xED then 0x9F else 0xBF, b - 0xE0⟩
  else if b < 0xF5 then
    some ⟨start, 2, if b == 0xF0 then 0x90 else 0x80, if b == 0xF4 then 0x8F else 0xBF, b - 0xF0⟩
  else none

def step (s : State) (byte : UInt8) : Except Utf8Fault State :=
  let b := byte.toNat
  match s.pending with
  | none =>
      if b < 0x80 then .ok ⟨s.offset + 1, none, Char.ofNat b :: s.chars⟩
      else
        match first? s.offset b with
        | some p => .ok ⟨s.offset + 1, some p, s.chars⟩
        | none => .error ⟨s.offset, .badStart⟩
  | some p =>
      if b < p.least || p.most < b then .error ⟨p.start, .badContinuation⟩
      else
        let value := 64 * p.value + (b - 0x80)
        match p.owed with
        | 0 => .ok ⟨s.offset + 1, none, Char.ofNat value :: s.chars⟩
        | owed + 1 => .ok ⟨s.offset + 1, some ⟨p.start, owed, 0x80, 0xBF, value⟩, s.chars⟩

def decode (bytes : List UInt8) : Except Utf8Fault (List Char) := do
  let s ← bytes.foldlM step {}
  match s.pending with
  | some p => .error ⟨p.start, .truncated⟩
  | none => .ok s.chars.reverse

def encode (text : String) : List UInt8 := text.toUTF8.toList

end Utf8

end CodeAtlas
