import CodeAtlas.Proofs.Source.Masking

/-!
The end of a block comment.

A block comment is read as openings, closings and single characters, and ends with the closing of
its opening (`blockCommentLength_eq`). Where comments do not nest, an opening inside of one still
takes two characters, so that the closing of `/*/` is passed over; other comments end at their first
closing (`block_comment_ends`).
-/

namespace CodeAtlas.Mask

open List

variable {nested : Bool} {depth : Nat} {cs : List Char}

/-- Cut a text into openings and closings of comments and single characters. -/
def commentTokens : List Char → List (List Char)
  | [] => []
  | '/' :: '*' :: cs => ['/', '*'] :: commentTokens cs
  | '*' :: '/' :: cs => ['*', '/'] :: commentTokens cs
  | c :: cs => [c] :: commentTokens cs

/-- Is nothing open behind some tokens, with `depth` comments open before them? -/
def closes (nested : Bool) (depth : Nat) (tokens : List (List Char)) : Bool :=
  tokens.count ['*', '/'] == depth + if nested then tokens.count ['/', '*'] else 0

/-- The tokens up to the first place where nothing is open; all of them, where there is no such
place. -/
def uptoClosing (nested : Bool) (depth : Nat) (tokens : List (List Char)) : List (List Char) :=
  (tokens.inits.find? (closes nested depth)).getD tokens

theorem uptoClosing_zero (nested : Bool) (tokens : List (List Char)) :
    uptoClosing nested 0 tokens = [] := by
  cases tokens <;> simp [uptoClosing, closes]

/-- One token is taken, and the others with what is open then. -/
theorem length_uptoClosing_cons {t : List Char} (tokens : List (List Char))
    (inside : depth ≠ 0) (next : Nat)
    (step : ∀ later, closes nested depth (t :: later) = closes nested next later) :
    (uptoClosing nested depth (t :: tokens)).flatten.length =
      t.length + (uptoClosing nested next tokens).flatten.length := by
  have here : closes nested depth [] = false := by
    simpa [closes] using Ne.symm inside
  rw [uptoClosing, inits_cons, find?_cons_of_neg (by simp [here]), find?_map]
  simp only [Function.comp_def, step, uptoClosing]
  cases tokens.inits.find? (closes nested next) <;> simp

/-- A comment ends where nothing is open. Where comments do not nest, one is open at most. -/
theorem blockCommentLength_eq (inside : depth ≠ 0) (single : nested = false → depth = 1)
    (cs : List Char) :
    blockCommentLength nested depth cs =
      (uptoClosing nested depth (commentTokens cs)).flatten.length := by
  fun_induction blockCommentLength nested depth cs with
  | case1 depth => cases h : closes nested depth [] <;> simp [commentTokens, uptoClosing, h]
  | case2 depth cs ih =>
    rw [commentTokens, length_uptoClosing_cons _ inside (if nested then depth + 1 else 1),
      ih (by split <;> simp) (by simp +contextual)]
    · rfl
    · intro later
      cases nested with
      | true => simp [closes]; omega
      | false => simp [closes, single rfl]
  | case3 depth cs last =>
    obtain rfl : depth = 1 := by omega
    rw [commentTokens, length_uptoClosing_cons _ inside 0, uptoClosing_zero]
    · rfl
    · intro later
      cases nested <;> simp [closes]
      omega
  | case4 depth cs more ih =>
    obtain rfl : nested = true := by
      by_contra flat
      exact more (by rw [single (by simpa using flat)])
    rw [commentTokens, length_uptoClosing_cons _ inside (depth - 1), ih (by omega) (by simp)]
    · rfl
    · intro later
      simp [closes]
      omega
  | case5 depth c cs notOpening notClosing ih =>
    rw [commentTokens, length_uptoClosing_cons _ inside depth, ih inside single]
    · rfl
    · intro later
      simp [closes]
    · exact notOpening
    · exact notClosing

/-- A text without a closing is passed, unless its last character makes an opening or a closing with
what follows. -/
theorem blockCommentLength_append {rest : List Char}
    (unclosed : ¬ ['*', '/'] <:+: cs ++ rest.take 1)
    (apart : cs.getLast? = some '/' → rest.head? ≠ some '*') :
    blockCommentLength false 1 (cs ++ rest) = cs.length + blockCommentLength false 1 rest := by
  induction cs using commentTokens.induct with
  | case1 => simp
  | case2 cs ih =>
    have later := ih (fun inside => unclosed (inside.trans ⟨['/', '*'], [], by simp⟩)) fun last =>
      apart (by
        rw [getLast?_cons, getLast?_cons, last]
        rfl)
    simp only [cons_append, blockCommentLength, Bool.false_eq_true, if_false, later, length_cons]
    omega
  | case3 cs => exact absurd ⟨[], cs ++ rest.take 1, rfl⟩ unclosed
  | case4 c cs notOpening notClosing ih =>
    have later := ih (fun inside => unclosed (infix_cons inside)) fun last => apart (by
      rw [getLast?_cons, last]
      rfl)
    rw [cons_append, blockCommentLength, later, length_cons]
    · omega
    · rintro more rfl whole
      cases cs with
      | nil => exact apart rfl (by simp_all)
      | cons d cs => exact notOpening cs rfl (by rw [(cons.inj whole).1])
    · rintro more rfl whole
      cases cs with
      | nil => exact unclosed ⟨[], [], by simp_all⟩
      | cons d cs => exact notClosing cs rfl (by rw [(cons.inj whole).1])

/-- Where a comment ends. Nested comments end at the closing of the first opening, and so do others,
with openings that count for nothing: at the first closing, unless a slash before its star makes an
opening of the two. -/
theorem block_comment_ends (cs : List Char) :
    (commentTokens cs).flatten = cs ∧ (∀ nested, blockCommentLength nested 0 ('/' :: '*' :: cs) =
      2 + (uptoClosing nested 1 (commentTokens cs)).flatten.length) ∧
    (¬ ['*', '/'] <:+: cs → blockCommentLength false 0 ('/' :: '*' :: cs) = 2 + cs.length) ∧
    ∀ pre post, cs = pre ++ '*' :: '/' :: post → ¬ ['*', '/'] <:+: pre ++ ['*'] →
      pre.getLast? ≠ some '/' →
      blockCommentLength false 0 ('/' :: '*' :: cs) = 2 + (pre.length + 2) := by
  refine ⟨?_, fun nested => ?_, fun unclosed => ?_, ?_⟩
  · fun_induction commentTokens cs <;> simp_all
  · rw [← blockCommentLength_eq (by decide) fun _ => rfl]
    cases nested <;> rfl
  · have passed := @blockCommentLength_append cs [] (by simpa using unclosed) (by simp)
    simpa [blockCommentLength] using passed
  · rintro pre post rfl first apart
    rw [blockCommentLength, if_neg (by decide), blockCommentLength_append first fun last =>
      absurd last apart]
    simp [blockCommentLength]

/-- The closing right behind an opening is passed over. -/
theorem slash_reopens_comment : ∃ pre post, ¬ ['*', '/'] <:+: pre ++ ['*'] ∧
    blockCommentLength false 0 ('/' :: '*' :: (pre ++ '*' :: '/' :: post)) ≠ 2 + (pre.length + 2) :=
  ⟨['/'], ['x'], by decide, by decide⟩

end CodeAtlas.Mask
