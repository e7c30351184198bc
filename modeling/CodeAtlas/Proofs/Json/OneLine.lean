import CodeAtlas.Proofs.Json.RoundTrip
import CodeAtlas.Proofs.Text.Reading

/-!
Values that are written one a line.

The text of a value without indentation is printable ASCII (`printable_render`): whatever a string
holds, no character of its text breaks a line. So a text of such lines is cut into the same lines
again (`lines_unlines`).
-/

namespace CodeAtlas

open List

/-! ### Cutting a text into lines -/

namespace Text

def OneLine (cs : List Char) : Prop :=
  ∀ c ∈ cs, isLineBreak c = false

def unlines (lines : List (List Char)) : List Char :=
  lines.flatMap (· ++ ['\n'])

/-- Without carriage returns no line break has two characters. -/
theorem joinBreaks_of_not_mem {cs : List Char} (noReturn : '\r' ∉ cs) : joinBreaks cs = cs := by
  induction cs with
  | nil => rfl
  | cons c cs ih =>
    rw [mem_cons, not_or] at noReturn
    rw [joinBreaks, ih noReturn.2]
    exact fun _ same => absurd same.symm noReturn.1

/-- Lines without line breaks are cut apart at the line feeds between them. -/
theorem splitBy_unlines {lines : List (List Char)} (single : ∀ line ∈ lines, OneLine line) :
    splitBy isLineBreak (unlines lines) = lines ++ [[]] := by
  induction lines with
  | nil => rfl
  | cons line lines ih =>
    obtain ⟨first, others⟩ := forall_mem_cons.mp single
    have joined : unlines (line :: lines) = line ++ '\n' :: unlines lines := by simp [unlines]
    rw [joined, splitBy_append first rfl, ih others]
    rfl

/-- **Lines are cut where they were joined.** -/
theorem lines_unlines {parts : List (List Char)} (single : ∀ line ∈ parts, OneLine line) :
    lines (unlines parts) = parts := by
  have noReturn : '\r' ∉ unlines parts := by
    intro inside
    obtain ⟨line, hline, hreturn⟩ := mem_flatMap.mp inside
    rcases mem_append.mp hreturn with old | new
    · exact absurd (single line hline _ old) (by decide)
    · exact absurd (mem_singleton.mp new) (by decide)
  rw [lines, joinBreaks_of_not_mem noReturn, splitBy_unlines single]
  simp

end Text

/-! ### The characters of a text without indentation -/

namespace Json

variable {c : Char} {ds : List Char}

def Printable (c : Char) : Prop :=
  32 ≤ c.toNat ∧ c.toNat < 127

theorem Printable.not_isLineBreak (h : Printable c) : isLineBreak c = false := by
  obtain ⟨low, high⟩ := h
  have value : c.toNat = c.val.toNat := rfl
  simp [isLineBreak, UInt32.le_iff_toNat_le, ← UInt32.toNat_inj]
  omega

theorem printable_digit (h : c.isDigit = true) : Printable c := by
  simp [Char.isDigit, UInt32.le_iff_toNat_le] at h
  have value : c.toNat = c.val.toNat := rfl
  rw [Printable]
  omega

theorem printable_digitChar {k : Nat} (h : k < 16) : Printable (Nat.digitChar k) := by
  have all : ∀ k < 16, 32 ≤ (Nat.digitChar k).toNat ∧ (Nat.digitChar k).toNat < 127 := by decide
  exact all k h

instance : DecidablePred Printable :=
  fun c => inferInstanceAs (Decidable (32 ≤ c.toNat ∧ c.toNat < 127))

theorem printable_unitEscape {n : Nat} (bound : n < 0x10000) : ∀ c ∈ unitEscape n, Printable c := by
  have fourth : n / 16 / 16 / 16 < 16 := by omega
  have others : ∀ k, Printable (Nat.digitChar (k % 16)) := fun k =>
    printable_digitChar (Nat.mod_lt k (by decide))
  rw [unitEscape, hexText_four bound]
  simp only [forall_mem_cons]
  exact ⟨by decide, by decide, printable_digitChar fourth, others _, others _, others _, by simp⟩

theorem printable_of_escapeChar? {letter : Char} (named : escapeChar? letter = some c) :
    Printable letter := by
  rw [escapeChar?] at named
  iterate 8
    split at named
    · rename_i same
      rw [eq_of_beq same]
      decide
  cases named

/-- Whatever a character is, what is written for it is printable. -/
theorem printable_escapeChar (c : Char) : ∀ d ∈ escapeChar c, Printable d := by
  have valid : c.toNat < 0x110000 := by
    rcases (show c.toNat.isValidChar from c.valid) with low | ⟨-, high⟩
    · omega
    · exact high
  have written := written_escapeChar c
  generalize escapeChar c = text at written
  cases written with
  | named _ named =>
    simp only [forall_mem_cons]
    exact ⟨by decide, printable_of_escapeChar? named, by simp⟩
  | plain _ _ low high => exact forall_mem_singleton.mpr ⟨low, high⟩
  | unit small => exact printable_unitEscape small
  | pair _ =>
    exact forall_mem_append.mpr ⟨printable_unitEscape (by omega), printable_unitEscape (by omega)⟩

theorem printable_quote (s : String) : ∀ c ∈ (quote s).toList, Printable c := by
  rw [toList_quote]
  intro c hc
  rcases mem_cons.mp hc with rfl | hc
  · decide
  rcases mem_append.mp hc with hc | hc
  · obtain ⟨d, -, hd⟩ := mem_flatMap.mp hc
    exact printable_escapeChar d c hd
  · rw [mem_singleton.mp hc]
    decide

theorem printable_of_all {cs : List Char} (each : cs.all (fun c => decide (Printable c)) = true) :
    ∀ c ∈ cs, Printable c := by
  simpa using each

theorem AllDigits.printable (digits : AllDigits ds) : ∀ c ∈ ds, Printable c :=
  fun c hc => printable_digit (digits c hc)

theorem printable_signChars (negative : Bool) : ∀ c ∈ signChars negative, Printable c := by
  cases negative <;> exact printable_of_all (by decide)

theorem printable_exponentText (e : Int) : ∀ c ∈ (exponentText e).toList, Printable c := by
  obtain ⟨k, text⟩ := exponentText_toList e
  have sign : Printable (if e < 0 then '-' else '+') := by split <;> decide
  rw [text]
  simp only [forall_mem_cons, forall_mem_append]
  exact ⟨by decide, sign, (allDigits_zeros k).printable, (allDigits_toDigits _).printable⟩

theorem printable_fractionText (digits : AllDigits ds) : ∀ c ∈ fractionText ds, Printable c := by
  rw [fractionText]
  split
  · simp
  · exact forall_mem_cons.mpr ⟨by decide, digits.printable⟩

/-- The text of a decimal is printable, whatever its layout. -/
theorem DecimalShape.printable {x : Decimal} {text : List Char} (shape : DecimalShape x text) :
    ∀ c ∈ text, Printable c := by
  have digits := allDigits_toDigits x.digits
  cases shape with
  | before k _ =>
    simp only [forall_mem_cons, forall_mem_append]
    exact ⟨by decide, by decide, (allDigits_zeros k).printable, digits.printable⟩
  | behind k _ =>
    simp only [forall_mem_append]
    exact ⟨⟨digits.printable, (allDigits_zeros k).printable⟩, printable_of_all (by decide)⟩
  | among k _ _ _ =>
    simp only [forall_mem_cons, forall_mem_append]
    exact ⟨(digits.take k).printable, by decide, (digits.drop k).printable⟩
  | scientific =>
    simp only [forall_mem_append]
    exact ⟨(digits.take 1).printable, printable_fractionText (digits.drop 1),
      printable_exponentText _⟩

/-- Printable parts are joined by a printable separator. -/
theorem printable_intercalate {separator : List Char} (between : ∀ c ∈ separator, Printable c)
    {parts : List (List Char)} (inside : ∀ part ∈ parts, ∀ c ∈ part, Printable c) :
    ∀ c ∈ separator.intercalate parts, Printable c := by
  induction parts with
  | nil => simp
  | cons part parts ih =>
    obtain ⟨first, others⟩ := forall_mem_cons.mp inside
    cases parts with
    | nil => simpa using first
    | cons next parts =>
      rw [intercalate_cons_cons]
      simp only [forall_mem_append]
      exact ⟨⟨first, between⟩, ih others⟩

/-- Printable parts between brackets on one line are printable. -/
theorem printable_bracketed (depth : Nat) {opening closing : String} {parts : List String}
    (opens : ∀ c ∈ opening.toList, Printable c) (closes : ∀ c ∈ closing.toList, Printable c)
    (inside : ∀ part ∈ parts, ∀ c ∈ part.toList, Printable c) :
    ∀ c ∈ (bracketed .inline depth opening closing parts).toList, Printable c := by
  by_cases nonempty : parts = []
  · subst nonempty
    rw [bracketed, isEmpty_nil, if_pos rfl, String.toList_append]
    exact forall_mem_append.mpr ⟨opens, closes⟩
  · rw [toList_bracketed .inline depth opening closing nonempty]
    simp only [forall_mem_append]
    refine ⟨opens, by simp [Layout.lineStart], ?_, by simp [Layout.lineStart], closes⟩
    have between : ∀ c ∈ ", ".toList, Printable c := printable_of_all (by decide)
    exact printable_intercalate between (by simpa using inside)

/-- **The text of a value without indentation is printable.** -/
theorem printable_render {v : Json} (h : Storable v) (depth : Nat) :
    ∀ c ∈ (render .inline depth v).toList, Printable c := by
  induction h generalizing depth with
  | null =>
    rw [render]
    exact printable_of_all (by decide)
  | bool b => cases b <;> (rw [render]; exact printable_of_all (by decide))
  | @int n _ =>
    rw [render, toList_toString_int]
    exact forall_mem_append.mpr ⟨printable_signChars _, (allDigits_toDigits _).printable⟩
  | @float x finite =>
    rw [render]
    cases x with
    | nan | infinite negative => exact absurd finite id
    | finite negative m e =>
      rw [toList_text_finite]
      refine forall_mem_append.mpr ⟨printable_signChars negative, ?_⟩
      split
      · exact printable_of_all (by decide)
      · exact (decimalShape_text .json _).printable
  | str s =>
    rw [render]
    exact printable_quote s
  | @arr items _ ih =>
    rw [render, renderItems_eq_map]
    refine printable_bracketed depth (printable_of_all (by decide))
      (printable_of_all (by decide)) ?_
    simpa using fun v hv => ih v hv (depth + 1)
  | @obj members _ _ ih =>
    rw [render, renderFields_eq_map, sortFields_map, objectText]
    refine printable_bracketed depth (printable_of_all (by decide))
      (printable_of_all (by decide)) ?_
    intro part hpart
    rw [map_map] at hpart
    obtain ⟨m, hm, rfl⟩ := mem_map.mp hpart
    have value := ih m ((sortFields_perm members).mem_iff.mp hm) (depth + 1)
    simp only [Function.comp_apply, String.toList_append, forall_mem_append]
    exact ⟨⟨printable_quote m.1, printable_of_all (by decide)⟩, value⟩

end Json

end CodeAtlas
