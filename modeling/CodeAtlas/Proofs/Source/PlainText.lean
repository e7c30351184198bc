import CodeAtlas.Proofs.Source.LineExtent
import CodeAtlas.Proofs.Source.Masking

/-!
Plain text: code and comments without literals.

Masking shows plain code as it is (`mask_code_append`) and a comment as spaces
(`mask_filler_append`). Behind a character that the masked text shows and that is no quote, masking
starts anew (`mask_resumes`), so what a masked text shows of a stretch can be told from the stretch
alone. A line of plain code is a logical line of its own (`joinLines_quiet`).
-/

namespace CodeAtlas

open Mask List Text

variable {cs piece rest veil text : List Char} {c quote : Char} {i : Nat}

/-! ### Plain pieces of text -/

namespace Text

variable {cs word : List Char} {depth : Nat}

/-- Do the brackets pair up, when `depth` of them are open before the text? -/
def balanced : (depth : Nat) → List Char → Bool
  | depth, [] => depth == 0
  | depth, c :: cs =>
      if isOpener c then balanced (depth + 1) cs
      else if isCloser c then 0 < depth && balanced (depth - 1) cs
      else balanced depth cs

/-- Does every colon stand inside brackets, when `depth` of them are open before the text? -/
def colonsInside : (depth : Nat) → List Char → Bool
  | _, [] => true
  | depth, c :: cs =>
      if isOpener c then colonsInside (depth + 1) cs
      else if isCloser c then colonsInside (depth - 1) cs
      else (c != ':' || 0 < depth) && colonsInside depth cs

/-- May `c` stand in code of one line that holds no literal and no comment? -/
def isPlain (c : Char) : Bool :=
  c != '\n' && c != '\'' && c != '"' && c != '#' && c != '\\'

/-- What may stand on a line without code, or behind the code of a line: blanks, and a comment. -/
def isFiller (cs : List Char) : Bool :=
  !cs.contains '\n' && (trimStart cs).head?.all (· == '#')

def shownFiller (cs : List Char) : List Char :=
  cs.takeWhile isBlank ++ (trimStart cs).map fun _ => ' '

@[simp] theorem length_shownFiller (cs : List Char) : (shownFiller cs).length = cs.length := by
  rw [shownFiller, length_append, length_map, ← length_append]
  exact congrArg length takeWhile_append_dropWhile

/-- What is shown of blanks and a comment is blank. -/
theorem isBlank_of_mem_shownFiller : ∀ c ∈ shownFiller cs, isBlank c = true := by
  intro c mem
  rcases mem_append.mp mem with blank | veiled
  · exact mem_takeWhile_imp blank
  · obtain ⟨_, _, rfl⟩ := mem_map.mp veiled
    decide

theorem newline_not_mem_shownFiller (filler : isFiller cs = true) : '\n' ∉ shownFiller cs := by
  intro mem
  rcases mem_append.mp mem with blank | veiled
  · have front : cs.takeWhile isBlank <+: cs := takeWhile_prefix _
    have inside := front.subset blank
    simp [isFiller, inside] at filler
  · obtain ⟨_, _, same⟩ := mem_map.mp veiled
    exact absurd same (by decide)

theorem isPlain_iff {c : Char} :
    isPlain c = true ↔ c ≠ '\n' ∧ c ≠ '\'' ∧ c ≠ '"' ∧ c ≠ '#' ∧ c ≠ '\\' := by
  simp [isPlain, and_assoc]

/-- A text whose brackets pair up closes those that were open. -/
theorem depthAfter_of_balanced (h : balanced depth cs = true) :
    PhysicalLine.depthAfter depth cs = 0 := by
  unfold PhysicalLine.depthAfter
  fun_induction balanced depth cs with
  | case1 depth =>
    have zero : depth = 0 := by simpa using h
    simp [zero]
  | case2 depth c cs opener ih =>
    rw [foldl_cons, if_pos opener]
    simpa using ih h
  | case3 depth c cs opener closer ih =>
    simp only [Bool.and_eq_true, decide_eq_true_eq] at h
    have down : ((depth - 1 : Nat) : Int) = (depth : Int) - 1 := by omega
    rw [foldl_cons, if_neg opener, if_pos closer, ← down]
    exact ih h.2
  | case4 depth c cs opener closer ih =>
    rw [foldl_cons, if_neg opener, if_neg closer]
    exact ih h

/-- A word without brackets changes no depth. -/
theorem balanced_append (none : ∀ c ∈ word, isOpener c = false ∧ isCloser c = false)
    (depth : Nat) (cs : List Char) : balanced depth (word ++ cs) = balanced depth cs := by
  induction word with
  | nil => rfl
  | cons c word ih =>
    obtain ⟨⟨opener, closer⟩, later⟩ := forall_mem_cons.mp none
    rw [cons_append, balanced, if_neg (by simp [opener]), if_neg (by simp [closer]), ih later]

/-- A word without brackets and colons keeps all colons inside. -/
theorem colonsInside_append (none : ∀ c ∈ word, isOpener c = false ∧ isCloser c = false)
    (plain : ':' ∉ word) (depth : Nat) (cs : List Char) :
    colonsInside depth (word ++ cs) = colonsInside depth cs := by
  induction word with
  | nil => rfl
  | cons c word ih =>
    obtain ⟨⟨opener, closer⟩, later⟩ := forall_mem_cons.mp none
    rw [mem_cons, not_or] at plain
    rw [cons_append, colonsInside, if_neg (by simp [opener]), if_neg (by simp [closer]),
      ih later plain.2]
    simp [Ne.symm plain.1]

/-- The colon of a header is the first one outside of brackets. -/
theorem headerColonDistance?_header {count : Nat} {header more : List Char}
    (level : balanced depth header = true) (colons : colonsInside depth header = true)
    (room : header.length < count) (ends : more.head? ≠ some '=') :
    headerColonDistance? count depth (header ++ ':' :: more) = some header.length := by
  induction header generalizing count depth with
  | nil =>
    obtain ⟨count, rfl⟩ : ∃ n, count = n + 1 := ⟨count - 1, by simp at room; omega⟩
    obtain rfl : depth = 0 := by simpa [balanced] using level
    simp [headerColonDistance?, isOpener, isCloser, ends]
  | cons c header ih =>
    obtain ⟨count, rfl⟩ : ∃ n, count = n + 1 := ⟨count - 1, by omega⟩
    rw [length_cons] at room
    unfold balanced at level
    unfold colonsInside at colons
    rw [cons_append, headerColonDistance?, length_cons]
    by_cases opener : isOpener c = true
    · rw [if_pos opener] at level colons ⊢
      have up : ((depth + 1 : Nat) : Int) = (depth : Int) + 1 := rfl
      rw [← up, ih level colons (by omega)]
      rfl
    · rw [if_neg opener] at level colons ⊢
      by_cases closer : isCloser c = true
      · rw [if_pos closer] at level colons ⊢
        simp only [Bool.and_eq_true, decide_eq_true_eq] at level
        have down : ((depth - 1 : Nat) : Int) = (depth : Int) - 1 := by omega
        rw [← down, ih level.2 colons (by omega)]
        rfl
      · rw [if_neg closer] at level colons ⊢
        simp only [Bool.and_eq_true, Bool.or_eq_true, bne_iff_ne, decide_eq_true_eq] at colons
        have inner : (c == ':' && (depth : Int) == 0) = false := by
          rw [Bool.and_eq_false_iff, beq_eq_false_iff_ne, beq_eq_false_iff_ne]
          rcases colons.1 with other | deep
          · exact .inl other
          · exact .inr (by omega)
        rw [inner, Bool.false_and, if_neg (by simp), ih level colons.2 (by omega)]
        rfl

end Text

/-! ### Masking plain pieces -/

/-- In Python source a lexeme does not depend on what stands before. -/
theorem maskFrom_before (l : Lexeme) (before before' : Option Char) (cs : List Char) :
    maskFrom .python l before cs = maskFrom .python l before' cs := by
  cases cs with
  | nil | cons c cs => rfl

theorem mask_lexeme (some : cs ≠ []) :
    mask .python cs = (pythonLexeme cs).render (cs.take (pythonLexeme cs).size) ++
      mask .python (cs.drop (pythonLexeme cs).size) := by
  have step := maskFrom_lexeme .python none some
  simp only [lexeme] at step
  rw [mask, step, maskFrom_before _ _ none]
  rfl

/-- A character that starts no literal and no comment is shown. -/
theorem mask_code_cons (plain : c ≠ '\'' ∧ c ≠ '"' ∧ c ≠ '#') (cs : List Char) :
    mask .python (c :: cs) = c :: mask .python cs := by
  have code : pythonLexeme (c :: cs) = .code := by
    obtain ⟨single, double, hash⟩ := plain
    unfold pythonLexeme
    split <;> simp_all
  rw [mask_lexeme (by simp), code]
  simp [Lexeme.code, Lexeme.size, Lexeme.render]

theorem mask_code_append (plain : ∀ c ∈ piece, c ≠ '\'' ∧ c ≠ '"' ∧ c ≠ '#')
    (cs : List Char) : mask .python (piece ++ cs) = piece ++ mask .python cs := by
  induction piece with
  | nil => rfl
  | cons c piece ih =>
    rw [cons_append, mask_code_cons (plain c (by simp)),
      ih fun c' mem => plain c' (mem_cons_of_mem c mem), cons_append]

theorem mask_plain_append (plain : ∀ c ∈ piece, isPlain c = true)
    (cs : List Char) : mask .python (piece ++ cs) = piece ++ mask .python cs := by
  refine mask_code_append (fun c mem => ?_) cs
  obtain ⟨_, single, double, hash, _⟩ := isPlain_iff.mp (plain c mem)
  exact ⟨single, double, hash⟩

def EndsLine (cs : List Char) : Prop :=
  ∀ c ∈ cs.head?, c = '\n'

theorem mask_comment_append {note : List Char} (line : '\n' ∉ note) (ends : EndsLine rest) :
    mask .python ('#' :: note ++ rest) = (('#' :: note).map fun _ => ' ') ++ mask .python rest := by
  have line : ∀ c ∈ '#' :: note, c ≠ '\n' := by
    intro c mem
    rcases mem_cons.mp mem with rfl | inside
    · decide
    · rintro rfl
      exact line inside
  have reach : lineCommentLength ('#' :: note ++ rest) = ('#' :: note).length := by
    have stop : rest.takeWhile (· != '\n') = [] := by
      cases rest with
      | nil => rfl
      | cons c rest => simp [ends c (by simp)]
    have all : ∀ c ∈ '#' :: note, (c != '\n') = true := fun c mem => by simpa using line c mem
    rw [lineCommentLength, takeWhile_append_of_pos all, stop, append_nil]
  have lexeme : pythonLexeme ('#' :: note ++ rest) = .comment ('#' :: note).length := by
    rw [← reach]
    rfl
  have veiled : ('#' :: note).map hide = ('#' :: note).map fun _ => ' ' :=
    map_congr_left fun c mem => by simp [hide, line c mem]
  have size : (Lexeme.comment ('#' :: note).length).size = ('#' :: note).length := by
    simp [Lexeme.comment, Lexeme.size]
  rw [mask_lexeme (by simp), lexeme, size, take_left, drop_left, ← veiled]
  simp [Lexeme.comment, Lexeme.render]

/-- Blanks and a comment are shown as blanks. -/
theorem mask_filler_append (filler : isFiller cs = true) (ends : EndsLine rest) :
    mask .python (cs ++ rest) = shownFiller cs ++ mask .python rest := by
  simp only [isFiller, Bool.and_eq_true, Bool.not_eq_true', Option.all_eq_true, beq_iff_eq]
    at filler
  obtain ⟨line, comment⟩ := filler
  have parts : cs = cs.takeWhile isBlank ++ trimStart cs := takeWhile_append_dropWhile.symm
  have blanks : ∀ c ∈ cs.takeWhile isBlank, c ≠ '\'' ∧ c ≠ '"' ∧ c ≠ '#' := by
    intro c mem
    have blank : isBlank c = true := mem_takeWhile_imp mem
    refine ⟨?_, ?_, ?_⟩ <;> rintro rfl <;> exact absurd blank (by decide)
  have behind : mask .python (trimStart cs ++ rest) =
      ((trimStart cs).map fun _ => ' ') ++ mask .python rest := by
    cases note : trimStart cs with
    | nil => rfl
    | cons c note' =>
      obtain rfl : c = '#' := comment c (by rw [note]; rfl)
      apply mask_comment_append _ ends
      intro mem
      have inside : '\n' ∈ cs := by
        rw [parts, note]
        exact mem_append_right _ (mem_cons_of_mem _ mem)
      rw [contains_iff_mem.mpr inside] at line
      cases line
  conv_lhs => rw [parts, append_assoc, mask_code_append blanks, behind]
  rw [shownFiller, append_assoc]

/-! ### Masking starts anew -/

/-- What the masked form of a literal or a comment holds: blanks and quotes. -/
def veilChars : List Char := [' ', '\n', '\'', '"']

theorem hide_mem_veilChars (c : Char) : hide c ∈ veilChars := by
  unfold hide
  split <;> decide

/-- The masked form of a lexeme holds what its ends and hidden characters show. -/
theorem render_subset (hides : ∀ c, hide c ∈ veil) {l : Lexeme}
    (opening : ∀ c ∈ piece.take l.shown, c ∈ veil) (closing : ∀ c ∈ piece.drop (l.shown + l.hidden),
      c ∈ veil) : ∀ c ∈ l.render piece, c ∈ veil := by
  intro c mem
  rw [Lexeme.render, mem_append, mem_append] at mem
  rcases mem with (first | inner) | last
  · exact opening c first
  · obtain ⟨c', _, rfl⟩ := mem_map.mp inner
    exact hides c'
  · exact closing c last

theorem drop_unclosed (shown hidden : Nat) (cs : List Char) :
    (cs.take (Lexeme.size ⟨shown, hidden, 0⟩)).drop (shown + hidden) = [] := by
  apply drop_eq_nil_of_le
  rw [length_take, Lexeme.size]
  exact Nat.min_le_left _ _

/-- The masked form of a triple-quoted string holds blanks and quotes. -/
theorem tripleLexeme_render (kind : quote ∈ veilChars) (cs : List Char) :
    let text := quote :: quote :: quote :: cs
    ∀ c ∈ (tripleLexeme quote cs).render (text.take (tripleLexeme quote cs).size),
      c ∈ veilChars := by
  intro text
  have quotes : ∀ c ∈ [quote, quote, quote], c ∈ veilChars := by
    intro c mem
    obtain rfl : c = quote := by simpa using mem
    exact kind
  unfold tripleLexeme
  split
  · rename_i n found
    refine render_subset hide_mem_veilChars ?_ ?_
    · simpa [text, Lexeme.size, take_take] using kind
    · have shown : (text.take (Lexeme.size ⟨3, n, 3⟩)).drop (3 + n) = [quote, quote, quote] := by
        have three : 3 + n + 3 - (3 + n) = 3 := by omega
        rw [prefix_iff_eq_take.mp (tripleBodyLength?_closed found), Lexeme.size, drop_take, three,
          Nat.add_comm 3 n]
        rfl
      intro c mem
      rw [shown] at mem
      exact quotes c mem
  · refine render_subset hide_mem_veilChars ?_ ?_
    · simpa [text, Lexeme.size, take_take] using kind
    · intro c mem
      rw [drop_unclosed] at mem
      cases mem

theorem stringLexeme_render (hides : ∀ c, hide c ∈ veil) (kind : quote ∈ veil) (multiline : Bool)
    (cs : List Char) :
    ∀ c ∈ (stringLexeme quote multiline cs).render
      ((quote :: cs).take (stringLexeme quote multiline cs).size), c ∈ veil := by
  have short := stringLength_le quote multiline cs
  unfold stringLexeme
  simp only
  split
  · rename_i closed
    -- Only the last character is shown behind the hidden ones, and it is the quote.
    generalize stringLength quote multiline cs = n at closed short
    have some : n ≠ 0 := by
      rintro rfl
      simp at closed
    refine render_subset hides ?_ ?_
    · simpa [Lexeme.size, take_take] using kind
    · have shown : ((quote :: cs).take (Lexeme.size ⟨1, n - 1, 1⟩)).drop
          (1 + (n - 1)) = [quote] := by
        have size : Lexeme.size ⟨1, n - 1, 1⟩ = n + 1 := by simp only [Lexeme.size]; omega
        have past : 1 + (n - 1) = (n - 1) + 1 := by omega
        have last : (cs.take n).getLast? = .some quote := by simpa using closed
        obtain ⟨init, ends⟩ := getLast?_eq_some_iff.mp last
        have length : init.length = n - 1 := by
          have := congrArg length ends
          rw [length_take, length_append, length_singleton] at this
          omega
        rw [size, past, take_succ_cons, drop_succ_cons, ends, ← length, drop_left]
      intro c mem
      rw [shown, mem_singleton] at mem
      exact mem ▸ kind
  · refine render_subset hides ?_ ?_
    · simpa [Lexeme.size, take_take] using kind
    · intro c mem
      rw [drop_unclosed] at mem
      cases mem

/-- The masked form of a comment holds blanks. -/
theorem comment_render (hides : ∀ c, hide c ∈ veil) (length : Nat) (cs : List Char) :
    ∀ c ∈ (Lexeme.comment length).render (cs.take (Lexeme.comment length).size), c ∈ veil := by
  refine render_subset hides (by simp [Lexeme.comment]) ?_
  intro c mem
  rw [Lexeme.comment, drop_unclosed] at mem
  cases mem

/-- A lexeme is code, or its masked form holds blanks and quotes only. -/
theorem pythonLexeme_render (cs : List Char) : pythonLexeme cs = .code ∨
      ∀ c ∈ (pythonLexeme cs).render (cs.take (pythonLexeme cs).size), c ∈ veilChars := by
  unfold pythonLexeme
  split
  · exact .inr (comment_render hide_mem_veilChars _ _)
  · exact .inr (tripleLexeme_render (by decide) _)
  · exact .inr (tripleLexeme_render (by decide) _)
  · exact .inr (stringLexeme_render hide_mem_veilChars (by decide) _ _)
  · exact .inr (stringLexeme_render hide_mem_veilChars (by decide) _ _)
  · exact .inl rfl

/-- If the masked forms of literals and comments hold certain characters only, then behind any other
character that is shown the text is masked as if it began there. -/
theorem maskFrom_resumes {f : Family} (veils : ∀ before cs, lexeme f before cs = .code ∨
      ∀ c ∈ (lexeme f before cs).render (cs.take (lexeme f before cs).size), c ∈ veil)
        {before : Option Char}
    (shown : (maskFrom f ⟨0, 0, 0⟩ before text)[i]? = some c) (code : c ∉ veil) :
    maskFrom f ⟨0, 0, 0⟩ before text = (maskFrom f ⟨0, 0, 0⟩ before text).take (i + 1) ++
      maskFrom f ⟨0, 0, 0⟩ text[i]? (text.drop (i + 1)) := by
  -- By induction on the length of the text: the character lies in the first lexeme or behind it.
  induction h : text.length using Nat.strong_induction_on generalizing before text i with
  | _ n ih =>
    have some : text ≠ [] := by
      rintro rfl
      simp [maskFrom] at shown
    obtain ⟨pos, inside⟩ : (lexeme f before text).Fits text := lexeme_fits f before some
    have split := maskFrom_lexeme f before some
    simp only at split
    set l := lexeme f before text with lexed
    have size : (l.render (text.take l.size)).length = l.size := by
      rw [(l.render_veils _).length_eq, length_take, Nat.min_eq_left inside]
    by_cases first : i < l.size
    · rw [split, getElem?_append_left (by omega)] at shown
      rcases veils before text with single | veiled
      · have one : l.size = 1 := by
          rw [lexed, single]
          rfl
        obtain rfl : i = 0 := by omega
        rw [split, take_left' (by omega), one, getLast?_take, if_neg Nat.one_ne_zero]
        cases text with
        | nil => exact absurd rfl some
        | cons d text => rfl
      · exact absurd (veiled c (mem_of_getElem? shown)) code
    · rw [split, getElem?_append_right (by omega), size] at shown
      have later := ih _ (by rw [length_drop]; omega) shown rfl
      have past : l.size + (i - l.size + 1) = i + 1 := by omega
      have here : l.size + (i - l.size) = i := by omega
      rw [drop_drop, past, getElem?_drop, here] at later
      have reach : i + 1 - l.size = i - l.size + 1 := by omega
      have cut : (maskFrom f ⟨0, 0, 0⟩ before text).take (i + 1) = l.render (text.take l.size) ++
          (maskFrom f ⟨0, 0, 0⟩ (text.take l.size).getLast? (text.drop l.size)).take
            (i - l.size + 1) := by
        rw [split, take_append, size, reach, take_of_length_le (by omega)]
      rw [cut, append_assoc, ← later, ← split]

/-- **Behind a character of code masking starts anew.** -/
theorem mask_resumes (shown : (mask .python text)[i]? = some c) (code : c ∉ veilChars) :
    mask .python text = (mask .python text).take (i + 1) ++ mask .python (text.drop (i + 1)) := by
  have resumed := maskFrom_resumes (f := .python) (fun _ cs => pythonLexeme_render cs) shown code
  rwa [maskFrom_before _ text[i]? none] at resumed

/-! ### Lines of plain text -/

namespace PhysicalLine

variable {cs chars : List Char}

/-- Depths are counted one after the other. -/
theorem depthAfter_append (depth : Int) (a b : List Char) :
    depthAfter depth (a ++ b) = depthAfter (depthAfter depth a) b :=
  foldl_append

theorem depthAfter_of_bracketless (none : ∀ c ∈ cs, isOpener c = false ∧ isCloser c = false)
    (depth : Int) :
    depthAfter depth cs = depth := by
  induction cs with
  | nil => rfl
  | cons c cs ih =>
    obtain ⟨⟨opener, closer⟩, later⟩ := forall_mem_cons.mp none
    rw [depthAfter, foldl_cons, if_neg (by simp [opener]), if_neg (by simp [closer])]
    exact ih later

theorem depthAfter_of_blank (blank : ∀ c ∈ cs, isBlank c = true)
    (depth : Int) : depthAfter depth cs = depth := by
  apply depthAfter_of_bracketless
  intro c mem
  have here := blank c mem
  constructor
  · rw [Bool.eq_false_iff]
    intro opener
    simp only [isOpener, Bool.or_eq_true, beq_iff_eq] at opener
    rcases opener with (rfl | rfl) | rfl <;> exact absurd here (by decide)
  · rw [Bool.eq_false_iff]
    intro closer
    simp only [isCloser, Bool.or_eq_true, beq_iff_eq] at closer
    rcases closer with (rfl | rfl) | rfl <;> exact absurd here (by decide)

/-- A line that leaves no bracket open, holds no quote, and does not end in a backslash. -/
structure Quiet (chars : List Char) : Prop where
  level : depthAfter 0 chars = 0
  plain : ∀ c ∈ chars, c ≠ '\'' ∧ c ≠ '"' ∧ c ≠ '\\'

/-- Without quotes there are no triple quotes. -/
theorem tripleQuotes_eq_zero
    (plain : ∀ c ∈ chars, c ≠ '\'' ∧ c ≠ '"') : tripleQuotes chars = 0 := by
  fun_induction tripleQuotes chars with
  | case1 cs ih => exact absurd rfl (plain '\'' (by simp)).1
  | case2 cs ih => exact absurd rfl (plain '"' (by simp)).2
  | case3 c cs _ _ ih => exact ih fun c' mem => plain c' (mem_cons_of_mem c mem)
  | case4 => rfl

theorem endsInBackslash_eq_false
    (plain : ∀ c ∈ chars, c ≠ '\\') : endsInBackslash chars = false := by
  rw [endsInBackslash, beq_eq_false_iff_ne]
  intro last
  have mem : '\\' ∈ trimEnd chars := mem_of_getLast? last
  rw [trimEnd, dropEndWhile, mem_reverse] at mem
  exact plain '\\' (mem_reverse.mp ((dropWhile_suffix _).subset mem)) rfl

end PhysicalLine

namespace LogicalLine

variable {chars : List Char}

def ofLine? (l : PhysicalLine) : Option LogicalLine :=
  if (Text.trim l.chars).isEmpty then none
  else some ⟨l.indent, l.start + l.indent, l.stop, l.number, Text.trim l.chars⟩

theorem Nesting.after_quiet (quiet : PhysicalLine.Quiet chars) : Nesting.after {} chars = {} := by
  have none := PhysicalLine.tripleQuotes_eq_zero fun c mem =>
    ⟨(quiet.plain c mem).1, (quiet.plain c mem).2.1⟩
  simp [Nesting.after, quiet.level, none]

theorem Nesting.continues_quiet (quiet : PhysicalLine.Quiet chars) :
    Nesting.continues {} chars = false := by
  have ends := PhysicalLine.endsInBackslash_eq_false fun c mem => (quiet.plain c mem).2.2
  simp [Nesting.continues, ends]

/-- **Quiet lines are logical lines of their own**, if they are not blank. -/
theorem joinLines_quiet {ls : List PhysicalLine} (quiet : ∀ l ∈ ls, PhysicalLine.Quiet l.chars) :
    joinLines none {} ls = (ls.filterMap ofLine?, {}) := by
  induction ls with
  | nil => rfl
  | cons l ls ih =>
    have here := quiet l (by simp)
    have later := ih fun l' mem => quiet l' (mem_cons_of_mem l mem)
    unfold joinLines
    by_cases blank : (trim l.chars).isEmpty = true
    · simp [Open.extend?, ofLine?, blank, later]
    · simp [Open.extend?, ofLine?, blank, later, Nesting.after_quiet here,
        Nesting.continues_quiet here, Open.finish, join]

end LogicalLine

end CodeAtlas
