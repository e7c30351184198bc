import CodeAtlas.Proofs.Text.Reading
import CodeAtlas.Source.Mask

/-!
The end of a triple-quoted string.

A triple-quoted string ends at the first triple quote with an even number of backslashes before it
(`tripleBodyLength?_eq_find?`). That is the place where a scan stops that takes two characters at
each backslash (`triple_close_eq_scan`).
-/

namespace CodeAtlas.Mask

open List

/-- The place of the first triple quote in a scan that takes two characters at each backslash. -/
def scanTriple (quote : Char) : List Char → Option Nat
  | [] => none
  | ['\\'] => none
  | '\\' :: _ :: cs => (scanTriple quote cs).map (· + 2)
  | c :: cs =>
      if Text.startsWith (c :: cs) [quote, quote, quote] then some 0
      else (scanTriple quote cs).map (· + 1)

/-- The number of backslashes at the end of a text. -/
def backslashes (cs : List Char) : Nat :=
  (cs.reverse.takeWhile (· == '\\')).length

/-- Is there a triple quote at place `n` with an even number of backslashes right before it? -/
def closesAt (quote : Char) (cs : List Char) (n : Nat) : Bool :=
  Text.startsWith (cs.drop n) [quote, quote, quote] && backslashes (cs.take n) % 2 == 0

/-- Behind an even number of backslashes the search finds what the scan finds: two characters at a
backslash leave the number behind them even. -/
theorem tripleBodyLength?_eq_scanTriple {quote : Char} (other : quote ≠ '\\') {done : List Char}
    (even : backslashesBefore done % 2 = 0) (cs : List Char) :
    tripleBodyLength? quote done cs = scanTriple quote cs := by
  have plain (cs : List Char) : Text.startsWith ('\\' :: cs) [quote, quote, quote] = false := by
    simp [Text.startsWith, Text.after?, other]
  fun_induction scanTriple quote cs generalizing done with
  | case1 => rfl
  | case2 => simp [tripleBodyLength?, plain]
  | case3 c cs ih =>
    have odd : backslashesBefore ('\\' :: done) % 2 = 1 := by
      simp only [backslashesBefore, takeWhile_cons, BEq.rfl, if_true, length_cons] at even ⊢
      omega
    have behind : backslashesBefore (c :: '\\' :: done) % 2 = 0 := by
      by_cases same : c = '\\'
      · simp only [backslashesBefore, same, takeWhile_cons, BEq.rfl, if_true, length_cons] at even ⊢
        omega
      · simp [backslashesBefore, same]
    simp [tripleBodyLength?, plain, odd, ih behind]
  | case4 c cs _ _ starts => simp [tripleBodyLength?, starts, even]
  | case5 c cs single double starts ih =>
    have other : c ≠ '\\' := by
      rintro rfl
      cases cs with
      | nil => exact single rfl rfl
      | cons d cs => exact double d cs rfl rfl
    have behind : backslashesBefore (c :: done) % 2 = 0 := by simp [backslashesBefore, other]
    simp [tripleBodyLength?, starts, ih behind]

/-- `done` is the part of the string that has been searched, latest character first. -/
theorem tripleBodyLength?_eq_find? (quote : Char) (done cs : List Char) :
    tripleBodyLength? quote done cs =
      (range cs.length).find? fun n =>
        Text.startsWith (cs.drop n)
          [quote, quote, quote] && backslashes (done.reverse ++ cs.take n) % 2 == 0 := by
  induction cs generalizing done with
  | nil => rfl
  | cons c cs ih =>
    have here : backslashesBefore done = backslashes done.reverse := by
      rw [backslashes, reverse_reverse, backslashesBefore]
    rw [tripleBodyLength?, ih, length_cons, range_succ_eq_map, here]
    by_cases close : (Text.startsWith (c :: cs) [quote, quote, quote] &&
      backslashes done.reverse % 2 == 0) = true
    · rw [if_pos close, find?_cons_of_pos (by simpa using close)]
    · rw [if_neg close, find?_cons_of_neg (by simpa using close), find?_map]
      simp [Function.comp_def]

/-- The lexeme of a triple-quoted string hides what stands before the place where the scan stops,
and that is the first triple quote with an even number of backslashes before it. -/
theorem triple_close_eq_scan {quote : Char} (known : quote = '"' ∨ quote = '\'')
    (before : Option Char) (cs : List Char) :
    (range cs.length).find? (closesAt quote cs) = scanTriple quote cs ∧
      lexeme .python before (quote :: quote :: quote :: cs) =
        (scanTriple quote cs).elim ⟨3, cs.length, 0⟩ (⟨3, ·, 3⟩) := by
  have other : quote ≠ '\\' := by rcases known with rfl | rfl <;> decide
  have scan : tripleBodyLength? quote [] cs = scanTriple quote cs :=
    tripleBodyLength?_eq_scanTriple other rfl cs
  refine ⟨?_, ?_⟩
  · rw [← scan]
    exact (tripleBodyLength?_eq_find? quote [] cs).symm
  · have triple : lexeme .python before (quote :: quote :: quote :: cs) =
        tripleLexeme quote cs := by
      rcases known with rfl | rfl <;> rfl
    rw [triple, tripleLexeme, scan]
    cases scanTriple quote cs <;> rfl

theorem triple_close_eq_scan_escaped :
    ('"' = '"' ∨ '"' = '\'') ∧ lexeme .python none "\"\"\"a\\\"\"\"\"b".toList = ⟨3, 3, 3⟩ :=
  ⟨.inl rfl, (triple_close_eq_scan (.inl rfl) none "a\\\"\"\"\"b".toList).2.trans (by decide)⟩

end CodeAtlas.Mask
