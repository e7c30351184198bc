import Mathlib
import CodeAtlas.Json.Printer
import CodeAtlas.Json.Reader

/-!
The text of a string is read back as that string.

Each character is written as itself or as one or two escapes, and the reader undoes one character at
a time (`stringBody_escapeChar`). A character beyond sixteen bits is written as a pair of halves,
which the reader joins again. `string_escaped` is the result for a whole string.
-/

namespace CodeAtlas.Json

open List

variable {n : Nat} {c : Char}

/-! ### Hexadecimal digits -/

theorem digit?_digitChar : ∀ k < 16, Numeral.digit? 16 (Nat.digitChar k) = some k := by
  decide

/-- The last digit of a hexadecimal number. -/
theorem hexText_succ (width n : Nat) :
    hexText (width + 2) n = hexText (width + 1) (n / 16) ++ [Nat.digitChar (n % 16)] := by
  simp only [hexText]
  rcases Nat.lt_or_ge n 16 with small | large
  · rw [Nat.toDigits_of_lt_base small, Nat.div_eq_of_lt small, Nat.mod_eq_of_lt small,
      Nat.toDigits_zero]
    simp [replicate_succ']
  · rw [Nat.toDigits_of_base_le (by decide) large, length_append, ← append_assoc]
    simp

/-- The four digits of a number of sixteen bits. -/
theorem hexText_four (bound : n < 0x10000) :
    hexText 4 n = [Nat.digitChar (n / 16 / 16 / 16), Nat.digitChar (n / 16 / 16 % 16),
      Nat.digitChar (n / 16 % 16), Nat.digitChar (n % 16)] := by
  have first : hexText 1 (n / 16 / 16 / 16) = [Nat.digitChar (n / 16 / 16 / 16)] := by
    have small : n / 16 / 16 / 16 < 16 := by omega
    simp [hexText, Nat.toDigits_of_lt_base small]
  rw [hexText_succ, hexText_succ, hexText_succ, first]
  rfl

theorem hex4?_digits (bound : n < 0x10000) :
    hex4? (Nat.digitChar (n / 16 / 16 / 16)) (Nat.digitChar (n / 16 / 16 % 16))
      (Nat.digitChar (n / 16 % 16)) (Nat.digitChar (n % 16)) = some n := by
  have whole : ((n / 16 / 16 / 16 * 16 + n / 16 / 16 % 16) * 16 + n / 16 % 16) * 16 +
      n % 16 = n := by
    omega
  simp [hex4?, digit?_digitChar _ (show n / 16 / 16 / 16 < 16 by omega),
    digit?_digitChar _ (Nat.mod_lt _ (show 0 < 16 by decide)), whole]

/-! ### Characters -/

theorem charOfCode_toNat (c : Char) : charOfCode c.toNat = c := by
  have valid : c.toNat.isValidChar := c.valid
  rw [charOfCode, dif_pos valid]
  apply Char.ext
  apply UInt32.toNat_inj.mp
  rfl

theorem not_isHighHalf_toNat (c : Char) : isHighHalf c.toNat = false := by
  have valid : c.toNat.isValidChar := c.valid
  rw [isHighHalf]
  rcases valid with low | ⟨high, -⟩
  · simp
    omega
  · simp
    omega

section Escapes

variable {a b c d a' b' c' d' : Char} {high low : Nat} (next : Char) (rest : List Char)

/-- An escape that is no half is one character. -/
theorem unicodeEscape_single (digits : hex4? a b c d = some high)
    (whole : isHighHalf high = false) :
    unicodeEscape (a :: b :: c :: d :: next :: rest) = .ok (charOfCode high, next :: rest) := by
  simp only [unicodeEscape, digits, whole]

theorem unicodeEscape_double (digits : hex4? a b c d = some high) (isHigh : isHighHalf high = true)
    (digits' : hex4? a' b' c' d' = some low) (isLow : isLowHalf low = true) :
    unicodeEscape (a :: b :: c :: d :: '\\' :: 'u' :: a' :: b' :: c' :: d' :: next :: rest) =
      .ok (charOfCode (0x10000 + (high - 0xD800) * 0x400 + (low - 0xDC00)), next :: rest) := by
  simp only [unicodeEscape, digits, isHigh, digits', isLow, if_true]

end Escapes

/-- A character of sixteen bits is read back from its escape. -/
theorem unicodeEscape_unit (bound : c.toNat < 0x10000) (next : Char) (rest : List Char) :
    unicodeEscape (hexText 4 c.toNat ++ next :: rest) = .ok (c, next :: rest) := by
  have read := unicodeEscape_single next rest (hex4?_digits bound) (not_isHighHalf_toNat c)
  rw [charOfCode_toNat] at read
  rw [hexText_four bound]
  exact read

/-- A character beyond is read back from its two halves. -/
theorem unicodeEscape_pair (beyond : 0x10000 ≤ c.toNat) (next : Char) (rest : List Char) :
    unicodeEscape (hexText 4 (0xD800 + (c.toNat - 0x10000) / 0x400) ++
      (unitEscape (0xDC00 + (c.toNat - 0x10000) % 0x400) ++ next :: rest)) =
        .ok (c, next :: rest) := by
  have top : c.toNat < 0x110000 := by
    have valid : c.toNat.isValidChar := c.valid
    rcases valid with low | ⟨-, high⟩
    · omega
    · exact high
  generalize hhigh : 0xD800 + (c.toNat - 0x10000) / 0x400 = high
  generalize hlow : 0xDC00 + (c.toNat - 0x10000) % 0x400 = low
  have isHigh : isHighHalf high = true := by
    simp [isHighHalf]
    omega
  have isLow : isLowHalf low = true := by
    simp [isLowHalf]
    omega
  have whole : 0x10000 + (high - 0xD800) * 0x400 + (low - 0xDC00) = c.toNat := by omega
  have high16 : high < 0x10000 := by omega
  have low16 : low < 0x10000 := by omega
  have read := unicodeEscape_double next rest (hex4?_digits high16) isHigh
    (hex4?_digits low16) isLow
  rw [whole, charOfCode_toNat] at read
  rw [unitEscape, hexText_four high16, hexText_four low16]
  exact read

theorem stringBody_unicode (fuel : Nat) (rest : List Char) :
    stringBody (fuel + 1) ('\\' :: 'u' :: rest) = (do
        let (c, rest) ← unicodeEscape rest
        let (body, rest) ← stringBody fuel rest
        return (c :: body, rest)) := rfl

theorem stringBody_plain (notQuote : c ≠ '"') (notEscape : c ≠ '\\') (shown : 32 ≤ c.toNat)
    (fuel : Nat) (rest : List Char) :
    stringBody (fuel + 1) (c :: rest) = (do
        let (body, rest) ← stringBody fuel rest
        return (c :: body, rest)) := by
  have notControl : ¬ c.val < 0x20 := by
    rw [UInt32.lt_iff_toNat_lt]
    exact Nat.not_lt.mpr shown
  rw [stringBody]
  · rw [if_neg notControl]
  · exact notQuote
  · exact fun same => absurd same notEscape
  · exact fun _ same => absurd same notEscape
  · exact fun _ _ same => absurd same notEscape

theorem stringBody_named {letter : Char} (notUnicode : letter ≠ 'u')
    (named : escapeChar? letter = some c) (fuel : Nat) (rest : List Char) :
    stringBody (fuel + 1) ('\\' :: letter :: rest) = (do
        let (body, rest) ← stringBody fuel rest
        return (c :: body, rest)) := by
  rw [stringBody]
  · rw [named]
  · exact notUnicode

inductive Written (c : Char) : List Char → Prop
  | named {letter} : letter ≠ 'u' → escapeChar? letter = some c → Written c ['\\', letter]
  | plain : c ≠ '"' → c ≠ '\\' → 32 ≤ c.toNat → c.toNat < 127 → Written c [c]
  | unit : c.toNat < 0x10000 → Written c (unitEscape c.toNat)
  | pair : 0x10000 ≤ c.toNat →
      Written c (unitEscape (0xD800 + (c.toNat - 0x10000) / 0x400) ++
        unitEscape (0xDC00 + (c.toNat - 0x10000) % 0x400))

/-- **How a character is written**: by a letter, as itself, or as one or two escapes. -/
theorem written_escapeChar (c : Char) : Written c (escapeChar c) := by
  rw [escapeChar]
  -- The seven characters that have an escape of their own.
  iterate 7
    split
    · rename_i same
      obtain rfl := eq_of_beq same
      exact .named (by decide) rfl
  split
  · rename_i notQuote notEscape _ _ _ _ _ shown
    rw [Bool.and_eq_true, decide_eq_true_eq, decide_eq_true_eq] at shown
    exact .plain (by simpa using notQuote) (by simpa using notEscape) shown.1 shown.2
  split
  · rename_i small
    exact .unit small
  · rename_i large
    exact .pair (Nat.le_of_not_lt large)

/-- **The reader undoes one character.** Something has to follow, which inside a string is never in
doubt. -/
theorem stringBody_escapeChar (c : Char) (fuel : Nat) (next : Char) (rest : List Char) :
    stringBody (fuel + 1) (escapeChar c ++ next :: rest) = (do
        let (body, rest) ← stringBody fuel (next :: rest)
        return (c :: body, rest)) := by
  have written := written_escapeChar c
  generalize escapeChar c = text at written
  cases written with
  | named notUnicode named => exact stringBody_named notUnicode named fuel _
  | plain notQuote notEscape shown _ => exact stringBody_plain notQuote notEscape shown fuel _
  | unit small =>
    rw [unitEscape, cons_append, cons_append, stringBody_unicode, unicodeEscape_unit small]
    rfl
  | pair large =>
    rw [unitEscape, append_assoc, cons_append, cons_append, stringBody_unicode,
      unicodeEscape_pair large]
    rfl

/-- A written string is no shorter, so there is fuel enough to read it. -/
theorem length_le_escaped (cs : List Char) : cs.length ≤ (cs.flatMap escapeChar).length := by
  induction cs with
  | nil => exact Nat.le_refl 0
  | cons c cs ih =>
    have some_char : 0 < (escapeChar c).length := by
      have written := written_escapeChar c
      generalize escapeChar c = text at written
      cases written with
      | named _ _ => exact Nat.two_pos
      | plain _ _ _ _ => exact Nat.one_pos
      | unit _ | pair _ => exact Nat.zero_lt_succ _
    rw [flatMap_cons, length_append, length_cons]
    omega

/-- **A string is read back**, whatever characters it has. -/
theorem string_escaped (s : String) {fuel : Nat} (enough : s.toList.length < fuel)
    (rest : List Char) :
    string fuel (s.toList.flatMap escapeChar ++ '"' :: rest) = .ok (s, rest) := by
  have body : ∀ (cs : List Char) (fuel : Nat), cs.length < fuel →
      stringBody fuel (cs.flatMap escapeChar ++ '"' :: rest) = .ok (cs, rest) := by
    intro cs
    induction cs with
    | nil =>
      intro fuel enough
      obtain ⟨fuel, rfl⟩ := Nat.exists_eq_add_one.mpr enough
      rfl
    | cons c cs ih =>
      intro fuel enough
      obtain ⟨fuel, rfl⟩ := Nat.exists_eq_add_one.mpr (Nat.zero_lt_of_lt enough)
      obtain ⟨next, tail, goesOn⟩ : ∃ next tail,
          cs.flatMap escapeChar ++ '"' :: rest = next :: tail :=
        exists_cons_of_ne_nil (by simp)
      have later := ih fuel (Nat.lt_of_succ_lt_succ enough)
      rw [flatMap_cons, append_assoc, goesOn, stringBody_escapeChar, ← goesOn, later]
      rfl
  rw [string, body s.toList fuel enough]
  exact congrArg (fun s => Except.ok (s, rest)) String.ofList_toList

end CodeAtlas.Json
