import CodeAtlas.Reference.UseTree
import CodeAtlas.Proofs.Source.Row

/-!
Use trees as they are written.

A tree is written as a run of tokens with any blanks between them (`Spread`). Normalising leaves one
spelling, with a blank only between two words (`normalize_spread`). The spelling of a tree shows its
group and the members again (`members_memberTokens`), so that the paths of a written tree are those
of the tree (`paths_of_spread`).
-/

namespace CodeAtlas

open List Text

structure Word where
  text : List Char
  some : text ≠ []
  inside : ∀ c ∈ text, isWordChar c = true

/-- How a path of a use tree ends: as it is, with a star, or with a new name. -/
inductive UseEnding where
  | plain
  | star
  | renamed (name : Word)

/-- A use tree: a path, or a group of trees behind a path that may be empty, perhaps with a comma at
its end. -/
inductive UseTree where
  | path (first : Word) (more : List Word) (ending : UseEnding)
  | group (lead : List Word) (members : List UseTree) (comma : Bool)

namespace UseTree

def isSelf : UseTree → Bool
  | .path first [] .plain => first.text == "self".toList
  | .path first [] (.renamed _) => first.text == "self".toList
  | _ => false

mutual

def flatten : UseTree → List (List Word)
  | .path first more _ => [first :: more]
  | .group lead members _ => flattenAll lead members

/-- The paths of the members of a group. The member `self` stands for the path of the group, if it
has one. -/
def flattenAll (lead : List Word) : List UseTree → List (List Word)
  | [] => []
  | member :: members =>
      (if member.isSelf then (if lead.isEmpty then [] else [lead])
        else (flatten member).map (lead ++ ·)) ++
        flattenAll lead members

end

def pathText (path : List Word) : List Char :=
  [':', ':'].intercalate (path.map (·.text))

end UseTree

/-! ### Tokens -/

namespace UseToken

def isSolid (c : Char) : Bool :=
  !isBlank c && c != ':' && !UseTree.isSeparator c

structure Piece where
  text : List Char
  some : text ≠ []
  solid : ∀ c ∈ text, isSolid c = true

end UseToken

theorem Word.solid (w : Word) : ∀ c ∈ w.text, UseToken.isSolid c = true := by
  intro c mem
  have word := w.inside c mem
  simp only [UseToken.isSolid, Bool.and_eq_true, Bool.not_eq_true', bne_iff_ne]
  refine ⟨⟨?_, ?_⟩, ?_⟩
  · by_contra blank
    simpa [isDollarWordChar, word]
      using isDollarWordChar_of_isBlank ((Bool.not_eq_false _).mp blank)
  · rintro rfl
    exact absurd word (by decide)
  · by_contra sep
    simp only [UseTree.isSeparator, Bool.not_eq_false, Bool.or_eq_true, beq_iff_eq] at sep
    rcases sep with (rfl | rfl) | rfl <;> exact absurd word (by decide)

/-- What a tree is written with. A word is a name, a keyword or a star; a mark is a brace or a
comma. -/
inductive UseToken where
  | word (piece : UseToken.Piece)
  | colons
  | mark (c : Char) (isSeparator : UseTree.isSeparator c = true)

namespace UseToken

def ofWord (w : Word) : UseToken :=
  .word ⟨w.text, w.some, w.solid⟩

def text : UseToken → List Char
  | word piece => piece.text
  | colons => [':', ':']
  | mark c _ => [c]

def isWord : UseToken → Bool
  | word _ => true
  | _ => false

/-- The text of a token run with blanks around the tokens: any, but at least one between two
words. -/
inductive Spread : List UseToken → List Char → Prop
  | nil {gap : List Char} : (∀ c ∈ gap, isBlank c = true) → Spread [] gap
  | cons {gap text : List Char} {token : UseToken} {tokens : List UseToken} : (∀ c ∈ gap,
      isBlank c = true) →
      Spread tokens text → (token.isWord = true → tokens.head?.any isWord = true →
        text.head?.any isBlank = true) →
        Spread (token :: tokens) (gap ++ token.text ++ text)

end UseToken

namespace UseTree

def pathTokens : List Word → List UseToken
  | [] => []
  | [w] => [.ofWord w]
  | w :: v :: ws => .ofWord w :: .colons :: pathTokens (v :: ws)

def endingTokens : UseEnding → List UseToken
  | .plain => []
  | .star => [.colons, .word ⟨['*'], by simp, List.all_eq_true.mp (by decide)⟩]
  | .renamed name => [.word ⟨['a', 's'], by simp, List.all_eq_true.mp (by decide)⟩, .ofWord name]

mutual

def tokens : UseTree → List UseToken
  | .path first more ending => pathTokens (first :: more) ++ endingTokens ending
  | .group lead members comma =>
      pathTokens lead ++ (if lead.isEmpty then [] else [.colons]) ++
        .mark '{' rfl :: (memberTokens comma members ++ [.mark '}' rfl])

def memberTokens (comma : Bool) : List UseTree → List UseToken
  | [] => []
  | [member] => tokens member ++ (if comma then [.mark ',' rfl] else [])
  | member :: next :: members =>
    tokens member ++ .mark ',' rfl :: memberTokens comma (next :: members)

end

end UseTree

/-! ### Single blanks -/

namespace Text

variable {c : Char}

/-- A text without blanks is trimmed already. -/
theorem trim_of_solid {cs : List Char} (solid : ∀ c ∈ cs, isBlank c = false) : trim cs = cs := by
  have stays {cs : List Char} (solid : ∀ c ∈ cs, isBlank c = false) :
      cs.dropWhile isBlank = cs := by
    cases cs with
    | nil => rfl
    | cons c cs => simp [solid c (by simp)]
  rw [trim, trimStart, stays solid, trimEnd, dropEndWhile, stays (by simpa using solid),
    reverse_reverse]

theorem squeeze_blanks {gap : List Char} (blanks : ∀ c ∈ gap, isBlank c = true) (cs : List Char) :
    squeeze (gap ++ cs) = squeeze cs := by
  induction gap with
  | nil => rfl
  | cons c gap ih =>
    obtain ⟨blank, blanks⟩ := forall_mem_cons.mp blanks
    have dropped : fields (c :: (gap ++ cs)) = fields (gap ++ cs) := by
      simp [fields, splitBy, blank]
    rw [cons_append, squeeze, dropped, ← squeeze, ih blanks]

/-- A character starts a field of its own before a blank, and else goes on with the next one. -/
theorem fields_cons (solid : isBlank c = false) (cs : List Char) : fields (c :: cs) =
      if cs.head?.all isBlank then [c] :: fields cs else consFirst c (fields cs) := by
  cases cs with
  | nil => simp [fields, splitBy, solid, consFirst]
  | cons d ds =>
    by_cases blank : isBlank d = true
    · simp [fields, splitBy, solid, blank, consFirst]
    · cases parts : splitBy isBlank ds with
      | nil | cons part parts => simp_all [fields, splitBy, consFirst]

/-- Behind a character one blank is left where there were some. -/
theorem squeeze_cons (solid : isBlank c = false) (cs : List Char) : squeeze (c :: cs) =
      c :: (if cs.head?.any isBlank && !(squeeze cs).isEmpty then ' ' ::
        squeeze cs else squeeze cs) := by
  have later (parts : List (List Char)) : join [' '] (consFirst c parts) =
      c :: join [' '] parts := by
    rcases parts with - | ⟨part, - | ⟨next, parts⟩⟩ <;> rfl
  have first (parts : List (List Char)) (some : ∀ part ∈ parts, part ≠ []) :
      join [' '] ([c] :: parts) =
      c :: (if (join [' '] parts).isEmpty then [] else ' ' :: join [' '] parts) := by
    rcases parts with - | ⟨part, parts⟩
    · rfl
    · have text : join [' '] (part :: parts) ≠ [] := by
        rcases parts with - | ⟨next, parts⟩ <;> simp [join, intersperse, some part (by simp)]
      rw [if_neg (by simpa using text)]
      rfl
  have some : ∀ part ∈ fields cs, part ≠ [] := fun part mem => by simpa using (mem_filter.mp mem).2
  rw [squeeze, fields_cons solid]
  cases cs with
  | nil => rfl
  | cons d ds =>
    split
    · rename_i blank
      have blank : isBlank d = true := by simpa using blank
      rw [first _ some, ← squeeze]
      cases squeeze (d :: ds) <;> simp [blank]
    · rename_i other
      rw [later, ← squeeze]
      simp_all

theorem squeeze_append {word : List Char} (some : word ≠ []) (solid : ∀ c ∈ word, isBlank c = false)
    (cs : List Char) : squeeze (word ++ cs) =
      word ++ (if cs.head?.any isBlank && !(squeeze cs).isEmpty then ' ' ::
        squeeze cs else squeeze cs) := by
  induction word with
  | nil => exact absurd rfl some
  | cons c word ih =>
    obtain ⟨here, later⟩ := forall_mem_cons.mp solid
    rw [cons_append, squeeze_cons here]
    cases word with
    | nil => rfl
    | cons d word =>
      have inside : ((d :: word) ++ cs).head?.any isBlank = false := by
        simpa using later d (by simp)
      rw [inside, ih (by simp) later]
      rfl

end Text

namespace UseToken

variable {c : Char} {free : UseToken → Bool} {tokens : List UseToken} {text : List Char}

theorem isBlank_of_isSolid (solid : isSolid c = true) : isBlank c = false := by
  simp_all [isSolid]

theorem ne_space_of_isSeparator (sep : UseTree.isSeparator c = true) :
    c ≠ ' ' ∧ c ≠ ':' ∧ isBlank c = false := by
  simp only [UseTree.isSeparator, Bool.or_eq_true, beq_iff_eq] at sep
  rcases sep with (rfl | rfl) | rfl <;> decide

theorem text_ne_nil (token : UseToken) : token.text ≠ [] := by
  cases token with
  | word piece => exact piece.some
  | colons | mark => simp [text]

theorem isBlank_text (token : UseToken) : ∀ c ∈ token.text, isBlank c = false := by
  cases token with
  | word piece => exact fun c mem => isBlank_of_isSolid (piece.solid c mem)
  | colons => simp [text, isBlank]
  | mark c sep => simpa [text] using (ne_space_of_isSeparator sep).2.2

/-- The text of a token run where every gap is one blank or none, and none is next to a token of the
class `free`. -/
inductive Spaced (free : UseToken → Bool) : List UseToken → List Char → Prop
  | nil : Spaced free [] []
  | one (token : UseToken) : Spaced free [token] token.text
  | touching {token next : UseToken} {tokens : List UseToken} {text : List Char} :
      Spaced free (next :: tokens) text → (token.isWord && next.isWord) = false →
        Spaced free (token :: next :: tokens) (token.text ++ text)
  | parted {token next : UseToken} {tokens : List UseToken} {text : List Char} :
      Spaced free (next :: tokens) text → free token = false → free next = false →
        Spaced free (token :: next :: tokens) (token.text ++ ' ' :: text)

/-- A text of tokens starts with the first one. -/
theorem Spaced.starts {token : UseToken}
    (h : Spaced free (token :: tokens) text) : ∃ more, text = token.text ++ more := by
  cases h with
  | one => exact ⟨[], by simp⟩
  | touching | parted => exact ⟨_, rfl⟩

/-- Squeezing leaves one blank or none between two tokens, and one between two words. -/
theorem spaced_squeeze (h : Spread tokens text) :
    Spaced (fun _ => false) tokens (squeeze text) := by
  induction h with
  | @nil gap blanks =>
    rw [← append_nil gap, squeeze_blanks blanks]
    exact .nil
  | @cons gap text token tokens blanks _ apart rest =>
    rw [append_assoc, squeeze_blanks blanks, squeeze_append token.text_ne_nil token.isBlank_text]
    generalize squeeze text = squeezed at rest
    cases tokens with
    | nil =>
      cases rest
      simpa using Spaced.one token
    | cons next tokens =>
      obtain ⟨more, rfl⟩ := rest.starts
      split
      · exact .parted rest rfl rfl
      · rename_i together
        have nonempty : (next.text ++ more).isEmpty = false := by simp [next.text_ne_nil]
        rw [nonempty, Bool.not_false, Bool.and_true] at together
        refine .touching rest ?_
        rw [Bool.and_eq_false_imp]
        exact fun first => Bool.eq_false_iff.mpr fun second =>
          together (apart first (by simpa using second))

/-! ### Dropping blanks beside tokens -/

/-- A pass over a text that drops the blanks beside the tokens of a class. -/
structure Tightens (pass : (open_ : Bool) → List Char → List Char) (near : UseToken → Bool) :
    Prop where
  nil : ∀ open_, pass open_ [] = []
  token : ∀ (t : UseToken) open_ rest, pass open_ (t.text ++ rest) = t.text ++ pass (near t) rest
  blank : ∀ (t : UseToken) open_ rest, pass open_ (' ' :: (t.text ++ rest)) =
    if open_ || near t then pass true (t.text ++ rest) else ' ' :: pass false (t.text ++ rest)
  word : ∀ t : UseToken, t.isWord = true → near t = false

/-- **A pass frees the tokens of its class from blanks** and keeps the others as they are. -/
theorem Tightens.spaced {pass : (open_ : Bool) → List Char → List Char} {near : UseToken → Bool}
    (h : Tightens pass near) (spaced : Spaced free tokens text)
    (open_ : Bool) : Spaced (fun t => free t || near t) tokens (pass open_ text) := by
  induction spaced generalizing open_ with
  | nil =>
    rw [h.nil]
    exact .nil
  | one token =>
    have alone := h.token token open_ []
    rw [append_nil, h.nil, append_nil] at alone
    rw [alone]
    exact .one token
  | touching _ apart ih =>
    rw [h.token]
    exact .touching (ih _) apart
  | @parted token next tokens text rest first second ih =>
    obtain ⟨more, rfl⟩ := rest.starts
    rw [h.token, h.blank]
    split
    · rename_i beside
      refine .touching (ih true) ?_
      have one := h.word token
      have other := h.word next
      grind
    · rename_i beside
      rw [Bool.or_eq_true, not_or, Bool.not_eq_true, Bool.not_eq_true] at beside
      exact .parted (ih false) (by simp [first, beside.1]) (by simp [second, beside.2])

theorem pass_piece {pass : (open_ : Bool) → List Char → List Char}
    (step : ∀ c cs open_, isSolid c = true → pass open_ (c :: cs) = c :: pass false cs)
    (piece : Piece) (open_ : Bool) (rest : List Char) :
    pass open_ (piece.text ++ rest) = piece.text ++ pass false rest := by
  obtain ⟨text, some, solid⟩ := piece
  dsimp only
  induction text generalizing open_ with
  | nil => exact absurd rfl some
  | cons c cs ih =>
    obtain ⟨here, later⟩ := forall_mem_cons.mp solid
    rw [cons_append, step c _ _ here]
    cases cs with
    | nil => rfl
    | cons d cs =>
      rw [ih false (by simp) later]
      rfl

def isColons : UseToken → Bool
  | colons => true
  | _ => false

def isMark : UseToken → Bool
  | mark _ _ => true
  | _ => false

theorem solid_cases (solid : isSolid c = true) :
    c ≠ ' ' ∧ c ≠ ':' ∧ UseTree.isSeparator c = false := by
  refine ⟨?_, by simp_all [isSolid], by simp_all [isSolid]⟩
  rintro rfl
  exact absurd solid (by decide)

theorem tightens_colons : Tightens UseTree.tightenColons isColons := by
  have step (c : Char) (cs : List Char) (open_ : Bool) (space : c ≠ ' ') (colon : c ≠ ':') :
      UseTree.tightenColons open_ (c :: cs) = c :: UseTree.tightenColons false cs := by
    rw [UseTree.tightenColons] <;> simp_all
  have blank (c : Char) (cs : List Char) (open_ : Bool) (colon : c ≠ ':') :
      UseTree.tightenColons open_ (' ' :: c :: cs) =
        if open_ then UseTree.tightenColons true (c :: cs)
          else ' ' :: UseTree.tightenColons false (c :: cs) := by
    cases open_ <;> simp_all [UseTree.tightenColons]
  constructor
  · exact fun _ => rfl
  · rintro (piece | - | ⟨c, sep⟩) open_ rest
    · exact pass_piece (fun c cs open_ solid =>
        step c cs open_ (solid_cases solid).1 (solid_cases solid).2.1) ..
    · rfl
    · exact step c rest open_ (ne_space_of_isSeparator sep).1 (ne_space_of_isSeparator sep).2.1
  · rintro (⟨text, some, solid⟩ | - | ⟨c, sep⟩) open_ rest
    · obtain ⟨c, cs, rfl⟩ := exists_cons_of_ne_nil some
      simpa [isColons, text] using blank c (cs ++ rest) open_ (solid_cases (solid c (by simp))).2.1
    · cases open_ <;> rfl
    · simpa [isColons, text] using blank c rest open_ (ne_space_of_isSeparator sep).2.1
  · intro t word
    cases t with
    | word => rfl
    | _ => cases word

theorem tightens_separators : Tightens UseTree.tightenSeparators isMark := by
  have step (c : Char) (cs : List Char) (open_ : Bool) (space : c ≠ ' ') :
      UseTree.tightenSeparators open_ (c :: cs) =
        c :: UseTree.tightenSeparators (UseTree.isSeparator c) cs := by
    rw [UseTree.tightenSeparators]
    · split <;> simp_all
    · simp_all
  have plain (c : Char) (cs : List Char) (open_ : Bool) (space : c ≠ ' ')
      (sep : UseTree.isSeparator c = false) :
      UseTree.tightenSeparators open_ (c :: cs) = c :: UseTree.tightenSeparators false cs :=
        sep ▸ step c cs open_ space
  have blank (c : Char) (cs : List Char) (open_ : Bool) (space : c ≠ ' ') :
      UseTree.tightenSeparators open_ (' ' :: c :: cs) =
        if open_ || UseTree.isSeparator c then UseTree.tightenSeparators true (c :: cs)
        else ' ' :: UseTree.tightenSeparators false (c :: cs) := by
    rw [UseTree.tightenSeparators, step c cs true space]
    cases open_ <;> cases sep : UseTree.isSeparator c <;> simp [sep, step c cs _ space]
  constructor
  · exact fun _ => rfl
  · rintro (piece | - | ⟨c, sep⟩) open_ rest
    · exact pass_piece (fun c cs open_ solid =>
        plain c cs open_ (solid_cases solid).1 (solid_cases solid).2.2) ..
    · rw [text, cons_append, plain _ _ _ (by decide) (by decide), singleton_append,
        plain _ _ _ (by decide) (by decide)]
      rfl
    · simpa [text, isMark, sep] using step c rest open_ (ne_space_of_isSeparator sep).1
  · rintro (⟨text, some, solid⟩ | - | ⟨c, sep⟩) open_ rest
    · obtain ⟨c, cs, rfl⟩ := exists_cons_of_ne_nil some
      obtain ⟨space, -, sep⟩ := solid_cases (solid c (by simp))
      simpa [isMark, text, sep] using blank c (cs ++ rest) open_ space
    · cases open_ <;> rfl
    · simpa [isMark, text, sep] using blank c rest open_ (ne_space_of_isSeparator sep).1
  · intro t word
    cases t with
    | word => rfl
    | _ => cases word

/-! ### The one spelling -/

/-- The text of a token run with a blank only between two words. -/
def tight : List UseToken → List Char
  | [] => []
  | [token] => token.text
  | token :: next :: tokens =>
      token.text ++ ((if token.isWord && next.isWord then [' '] else []) ++ tight (next :: tokens))

/-- Where only words have blanks beside them there is one spelling. -/
theorem eq_tight (h : Spaced (!·.isWord) tokens text) : text = tight tokens := by
  induction h with
  | nil | one => rfl
  | touching _ apart ih =>
    rw [tight, apart, ih]
    rfl
  | @parted token next _ _ _ first second ih =>
    have words : (token.isWord && next.isWord) = true := by simp_all
    rw [tight, words, ih]
    rfl

theorem tight_cons (token : UseToken) (tokens : List UseToken) :
    ∃ more, tight (token :: tokens) = token.text ++ more := by
  cases tokens with
  | nil => exact ⟨[], by simp [tight]⟩
  | cons next tokens => exact ⟨_, rfl⟩

theorem tight_concat (tokens : List UseToken) (token : UseToken) :
    ∃ front, tight (tokens ++ [token]) = front ++ token.text := by
  induction tokens with
  | nil => exact ⟨[], rfl⟩
  | cons first tokens ih =>
    obtain ⟨front, same⟩ := ih
    cases tokens with
    | nil =>
      exact ⟨first.text ++ (if first.isWord && token.isWord then [' '] else []), by simp [tight]⟩
    | cons next tokens =>
      rw [cons_append, cons_append, tight, ← cons_append, same]
      exact ⟨_, by rw [← append_assoc, ← append_assoc]⟩

/-- A token that is no word parts the text around it. -/
theorem tight_append (token : UseToken) (free : token.isWord = false) (front back : List UseToken) :
    tight (front ++ token :: back) = tight front ++ token.text ++ tight back := by
  induction front with
  | nil => cases back <;> simp [tight, free]
  | cons first front ih =>
    cases front with
    | nil => simpa [tight, free] using ih
    | cons next front => simpa [tight] using ih

/-- The one spelling has no blanks at its ends. -/
theorem trim_tight (tokens : List UseToken) : trim (tight tokens) = tight tokens := by
  rcases eq_nil_or_concat tokens with rfl | ⟨front, last, rfl⟩
  · rfl
  · obtain ⟨before, shape⟩ := tight_concat front last
    have ends : (tight (front ++ [last])).getLast?.any (!isBlank ·) = true := by
      rw [shape, getLast?_append_of_ne_nil _ last.text_ne_nil,
        getLast?_eq_some_getLast last.text_ne_nil]
      simpa using last.isBlank_text _ (getLast_mem last.text_ne_nil)
    have starts : (tight (front ++ [last])).head?.any (!isBlank ·) = true := by
      obtain ⟨first, tokens, same⟩ := exists_cons_of_ne_nil (show front ++ [last] ≠ [] by simp)
      obtain ⟨more, text⟩ := tight_cons first tokens
      obtain ⟨c, cs, chars⟩ := exists_cons_of_ne_nil first.text_ne_nil
      rw [same, text, chars]
      simpa using first.isBlank_text c (by simp [chars])
    simpa using trim_append (a := []) (b := []) (by simp) (by simp) starts ends

/-- **One spelling.** However a token run is spread, normalising leaves a blank only between two
words. -/
theorem normalize_spread (h : Spread tokens text)
    (first : tokens.head?.any isColons = false) : UseTree.normalize text = tight tokens := by
  have classes : (fun t : UseToken => (false || isColons t) || isMark t) = (!·.isWord) := by
    funext t
    cases t <;> rfl
  have spaced := tightens_separators.spaced (tightens_colons.spaced (spaced_squeeze h) false) false
  rw [classes] at spaced
  rw [UseTree.normalize, eq_tight spaced, trim_tight]
  have plain : after? [':', ':'] (tight tokens) = none := by
    cases tokens with
    | nil => rfl
    | cons token tokens =>
      obtain ⟨more, shape⟩ := tight_cons token tokens
      rw [shape]
      cases token with
      | word piece =>
        obtain ⟨c, cs, chars⟩ := exists_cons_of_ne_nil piece.some
        have other := (solid_cases (piece.solid c (by simp [chars]))).2.1
        simp [UseToken.text, chars, after?, other.symm]
      | colons => simp [isColons] at first
      | mark c sep => simp [UseToken.text, after?, (ne_space_of_isSeparator sep).2.1.symm]
  simp [plain]

/-- It is one of the ways to spread the tokens. -/
theorem spread_tight (tokens : List UseToken) : Spread tokens (tight tokens) := by
  have none : ∀ c ∈ ([] : List Char), isBlank c = true := by simp
  have one : ∀ c ∈ [' '], isBlank c = true := by simp [show isBlank ' ' = true from rfl]
  have blank {tokens : List UseToken} {text : List Char} (h : Spread tokens text) :
      Spread tokens ([' '] ++ text) := by
    cases h with
    | nil blanks => exact .nil (forall_mem_append.mpr ⟨one, blanks⟩)
    | cons blanks later apart =>
      rw [← append_assoc, ← append_assoc]
      exact .cons (forall_mem_append.mpr ⟨one, blanks⟩) later apart
  induction tokens with
  | nil => exact .nil none
  | cons token tokens ih =>
    cases tokens with
    | nil =>
      have alone : Spread [token] ([] ++ token.text ++ tight []) := .cons none ih (by simp)
      simpa [tight] using alone
    | cons next tokens =>
      rw [tight]
      split
      · exact .cons none (blank ih) fun _ _ => rfl
      · rename_i apart
        exact .cons none ih fun first second => absurd (by simpa [first] using second) apart

/-- There are no more tokens than characters. -/
theorem Spread.length_le (h : Spread tokens text) : tokens.length ≤ text.length := by
  induction h with
  | nil => simp
  | @cons gap text token tokens _ _ _ ih =>
    have some := length_pos_iff.mpr token.text_ne_nil
    simp only [length_cons, length_append]
    omega

end UseToken

namespace UseTree

open UseToken

variable {path : List Word} {c : Char} {cs : List Char} {tree : UseTree}

/-! ### Paths -/

theorem pathText_cons (w v : Word) (ws : List Word) :
    pathText (w :: v :: ws) = w.text ++ ':' :: ':' :: pathText (v :: ws) := by
  simp [pathText, intercalate_cons_cons]

theorem tight_pathTokens (path : List Word) : tight (pathTokens path) = pathText path := by
  induction path with
  | nil => rfl
  | cons w ws ih =>
    cases ws with
    | nil => simp [pathTokens, tight, pathText, ofWord, UseToken.text]
    | cons v ws =>
      have cut := tight_append .colons rfl [.ofWord w] (pathTokens (v :: ws))
      rw [pathTokens, pathText_cons, ← ih]
      simpa [tight, ofWord, UseToken.text] using cut

theorem mem_pathText (mem : c ∈ pathText path) : isBlank c = false ∧ isSeparator c = false := by
  induction path with
  | nil => simp [pathText] at mem
  | cons w ws ih =>
    have here (inside : c ∈ w.text) : isBlank c = false ∧ isSeparator c = false :=
      ⟨isBlank_of_isSolid (w.solid c inside), (solid_cases (w.solid c inside)).2.2⟩
    cases ws with
    | nil => exact here (by simpa [pathText] using mem)
    | cons v ws =>
      simp only [pathText_cons, mem_append, mem_cons] at mem
      rcases mem with inside | rfl | rfl | later
      · exact here inside
      · decide
      · decide
      · exact ih later

theorem pathText_concat (w : Word) (ws : List Word) :
    ∃ front c, pathText (w :: ws) = front ++ [c] ∧ isWordChar c = true := by
  induction ws generalizing w with
  | nil =>
    refine ⟨w.text.dropLast, w.text.getLast w.some, ?_, w.inside _ (getLast_mem _)⟩
    simp [pathText, dropLast_append_getLast]
  | cons v ws ih =>
    obtain ⟨front, c, same, word⟩ := ih v
    exact ⟨w.text ++ ':' :: ':' :: front, c, by simp [pathText_cons, same], word⟩

theorem isEmpty_pathText (path : List Word) : (pathText path).isEmpty = path.isEmpty := by
  cases path with
  | nil => rfl
  | cons w ws =>
    obtain ⟨front, c, ends, -⟩ := pathText_concat w ws
    simp [ends]

/-- A path below a lead is the two of them joined. -/
theorem under_pathText {lead : List Word} (some : path ≠ []) :
    under (pathText lead) (pathText path) = pathText (lead ++ path) := by
  rw [under, isEmpty_pathText]
  induction lead with
  | nil => rfl
  | cons w ws ih =>
    cases ws with
    | nil =>
      obtain ⟨v, vs, rfl⟩ := exists_cons_of_ne_nil some
      simp [pathText, intercalate_cons_cons]
    | cons v ws =>
      rw [cons_append, cons_append, pathText_cons, pathText_cons, ← cons_append, ← ih]
      simp

/-! ### The spelling of a tree -/

def endingText : UseEnding → List Char
  | .plain => []
  | .star => [':', ':', '*']
  | .renamed name => ' ' :: 'a' :: 's' :: ' ' :: name.text

def leadText (lead : List Word) : List Char :=
  if lead.isEmpty then [] else pathText lead ++ [':', ':']

/-- The spelling of a path with its ending. -/
theorem tight_path (first : Word) (more : List Word) (ending : UseEnding) :
    tight (UseTree.path first more ending).tokens = pathText (first :: more) ++
      endingText ending := by
  rw [tokens]
  cases ending with
  | plain => simp [endingTokens, tight_pathTokens, endingText]
  | star =>
    rw [endingTokens, tight_append .colons rfl, tight_pathTokens, append_assoc]
    rfl
  | renamed name =>
    induction more generalizing first with
    | nil =>
      simp [endingTokens, pathTokens, tight, isWord, ofWord, UseToken.text, pathText, endingText]
    | cons v ws ih =>
      have cut := tight_append .colons rfl [.ofWord first]
        (pathTokens (v :: ws) ++ endingTokens (.renamed name))
      rw [ih v] at cut
      simpa [pathTokens, pathText_cons, tight, ofWord, UseToken.text] using cut

theorem tight_group (lead : List Word) (members : List UseTree) (comma : Bool) :
    tight (UseTree.group lead members comma).tokens =
      leadText lead ++ '{' :: (tight (memberTokens comma members) ++ ['}']) := by
  have front : tight (pathTokens lead ++ if lead.isEmpty then [] else [.colons]) =
      leadText lead := by
    unfold leadText
    split
    · rename_i empty
      rw [append_nil, tight_pathTokens, isEmpty_iff.mp empty]
      rfl
    · rw [tight_append .colons rfl, tight_pathTokens]
      exact append_nil _
  rw [tokens, tight_append (.mark '{' rfl) rfl, tight_append (.mark '}' rfl) rfl, front]
  simp [UseToken.text, tight]

theorem tight_member (comma : Bool) (mem : UseTree) :
    tight (memberTokens comma [mem]) = tight mem.tokens ++ if comma then [','] else [] := by
  rw [memberTokens]
  split
  · rw [tight_append (.mark ',' rfl) rfl]
    exact append_nil _
  · simp

theorem tight_members (comma : Bool) (mem next : UseTree) (members : List UseTree) :
    tight (memberTokens comma (mem :: next :: members)) =
      tight mem.tokens ++ ([','] ++ tight (memberTokens comma (next :: members))) := by
  rw [memberTokens, tight_append (.mark ',' rfl) rfl, append_assoc]
  rfl

/-- No mark stands in a path with its ending. -/
theorem isSeparator_path (path : List Word) (ending : UseEnding) :
    ∀ c ∈ pathText path ++ endingText ending, isSeparator c = false := by
  refine forall_mem_append.mpr ⟨fun c inside => (mem_pathText inside).2, ?_⟩
  cases ending with
  | plain => simp [endingText]
  | star => simp [endingText, isSeparator]
  | renamed name =>
    have letters : ∀ c ∈ [' ', 'a', 's', ' '], isSeparator c = false := by simp [isSeparator]
    exact forall_mem_append.mpr ⟨letters, fun c inside => (solid_cases (name.solid c inside)).2.2⟩

theorem isSeparator_leadText (lead : List Word) : ∀ c ∈ leadText lead, isSeparator c = false := by
  unfold leadText
  split
  · simp
  · exact forall_mem_append.mpr ⟨fun c inside => (mem_pathText inside).2, by simp [isSeparator]⟩

theorem tight_tokens_ne_nil (tree : UseTree) : tight tree.tokens ≠ [] := by
  cases tree with
  | path first more ending =>
    obtain ⟨front, c, same, -⟩ := pathText_concat first more
    simp [tight_path, same]
  | group lead members comma => simp [tight_group]

/-! ### Groups and members -/

/-- A text that does not end the group around it, nor divides its member from `least` groups inside
on. -/
def Passes (least : Nat) (cs : List Char) : Prop :=
  ∀ depth rest, groupBody depth (cs ++ rest) = cs ++ groupBody depth rest ∧
    (least ≤ depth → members depth (cs ++ rest) = cs.foldr Text.consFirst (members depth rest))

theorem passes_nil (least : Nat) : Passes least [] :=
  fun _ _ => ⟨rfl, fun _ => rfl⟩

theorem Passes.inside (h : Passes 0 cs) (least : Nat) : Passes least cs :=
  fun depth rest => ⟨(h depth rest).1, fun _ => (h depth rest).2 (Nat.zero_le _)⟩

theorem Passes.append {least : Nat} {ds : List Char} (first : Passes least cs)
    (second : Passes least ds) :
    Passes least (cs ++ ds) := by
  intro depth rest
  obtain ⟨body, parts⟩ := first depth (ds ++ rest)
  obtain ⟨body', parts'⟩ := second depth rest
  rw [append_assoc, body, body', append_assoc]
  exact ⟨rfl, fun deep => by rw [parts deep, parts' deep, foldr_append]⟩

/-- A text without marks passes at any depth. -/
theorem passes_plain (plain : ∀ c ∈ cs, isSeparator c = false) : Passes 0 cs := by
  induction cs with
  | nil => exact passes_nil 0
  | cons c cs ih =>
    obtain ⟨here, later⟩ := forall_mem_cons.mp plain
    simp only [isSeparator, Bool.or_eq_false_iff] at here
    obtain ⟨⟨opens, closes⟩, comma⟩ := here
    have one : Passes 0 [c] := by
      intro depth rest
      simp [groupBody, members, opens, closes, comma]
    exact one.append (ih later)

theorem passes_comma : Passes 1 [','] := by
  intro depth rest
  refine ⟨by simp [groupBody], fun deep => ?_⟩
  have inside : depth ≠ 0 := by omega
  simp [members, inside]

/-- What passes inside of a group passes with braces around it. -/
theorem Passes.braced (h : Passes 1 cs) : Passes 0 ('{' :: (cs ++ ['}'])) := by
  intro depth rest
  obtain ⟨body, parts⟩ := h (depth + 1) ('}' :: rest)
  have parts := parts (by omega)
  simp_all [groupBody, members]

mutual

/-- **The spelling of a tree passes as a whole.** -/
theorem passes_tokens : (tree : UseTree) → Passes 0 (tight tree.tokens)
  | .path first more ending => by
    rw [tight_path]
    exact passes_plain (isSeparator_path _ ending)
  | .group lead members comma => by
    have inner := (passes_memberTokens comma members).braced
    rw [tight_group]
    exact (passes_plain (isSeparator_leadText lead)).append inner

theorem passes_memberTokens (comma : Bool) :
    (trees : List UseTree) → Passes 1 (tight (memberTokens comma trees))
  | [] => passes_nil 1
  | [tree] => by
    have here := (passes_tokens tree).inside 1
    rw [tight_member]
    split
    · exact here.append passes_comma
    · simpa using here
  | tree :: next :: trees => by
    have here := (passes_tokens tree).inside 1
    have later := passes_memberTokens comma (next :: trees)
    rw [tight_members]
    exact here.append (passes_comma.append later)

end

theorem foldr_consFirst (cs part : List Char) (parts : List (List Char)) :
    cs.foldr consFirst (part :: parts) = (cs ++ part) :: parts := by
  induction cs with
  | nil => rfl
  | cons c cs ih =>
    rw [foldr_cons, ih]
    rfl

/-- **The members of a group are cut apart again**, with or without a comma at the end. -/
theorem members_memberTokens (comma : Bool) (trees : List UseTree) :
    ((members 0 (tight (memberTokens comma trees))).map trim).filter (!·.isEmpty) =
      trees.map fun tree => tight tree.tokens := by
  -- A member is the text up to the next comma, and is kept.
  have split (tree : UseTree) (rest first : List Char) (others : List (List Char))
      (h : members 0 rest = first :: others) :
      members 0 (tight tree.tokens ++ rest) = (tight tree.tokens ++ first) :: others := by
    rw [(passes_tokens tree 0 rest).2 (Nat.le_refl 0), h, foldr_consFirst]
  have kept (tree : UseTree) (parts : List (List Char)) :
      (((tight tree.tokens ++ []) :: parts).map trim).filter (!·.isEmpty) =
        tight tree.tokens :: (parts.map trim).filter (!·.isEmpty) := by
    rw [append_nil, map_cons, trim_tight, filter_cons_of_pos]
    simpa using tight_tokens_ne_nil tree
  induction trees with
  | nil => rfl
  | cons tree trees ih =>
    cases trees with
    | nil =>
      rw [tight_member]
      cases comma with
      | false => rw [split tree _ [] [] rfl, kept]; rfl
      | true => rw [split tree _ [] [[]] rfl, kept]; rfl
    | cons next trees =>
      rw [tight_members, split tree _ [] (members 0 (tight (memberTokens comma (next :: trees))))
        rfl, kept, ih]
      rfl

/-! ### Endings -/

/-- A text that does not end in a word has no new name. -/
theorem dropAlias_of_last (cs : List Char) (plain : isWordChar c = false) :
    dropAlias (cs ++ [c]) = cs ++ [c] := by
  simp [dropAlias, plain]

theorem dropAlias_of_solid (solid : ∀ c ∈ cs, isBlank c = false) : dropAlias cs = cs := by
  have none : Text.blanks1? (cs.reverse.drop (cs.reverse.takeWhile isWordChar).length) = none := by
    cases shape : cs.reverse.drop (cs.reverse.takeWhile isWordChar).length with
    | nil => rfl
    | cons c rest =>
      have mem : c ∈ cs := mem_reverse.mp (mem_of_mem_drop (by rw [shape]; simp))
      simp [Text.blanks1?, solid c mem]
  simp only [dropAlias, none, Option.bind_eq_bind, Option.bind_none]
  split <;> rename_i h <;> split at h <;> simp_all

theorem dropAlias_renamed (solid : ∀ c ∈ cs, isBlank c = false) (name : Word) :
    Text.dropAlias (cs ++ endingText (.renamed name)) = cs := by
  have backwards : (cs ++ endingText (.renamed name)).reverse =
      name.text.reverse ++ ' ' :: 's' :: 'a' :: ' ' :: cs.reverse := by simp [endingText]
  have word : (name.text.reverse ++ ' ' :: 's' :: 'a' :: ' ' :: cs.reverse).takeWhile isWordChar =
      name.text.reverse := by
    rw [takeWhile_append_of_pos (by simpa using name.inside)]
    simp [show isWordChar ' ' = false from by decide]
  have rest : trimStart cs.reverse = cs.reverse := by
    rw [trimStart]
    cases shape : cs.reverse with
    | nil => rfl
    | cons c ds => simp [solid c (mem_reverse.mp (by rw [shape]; simp))]
  have letter : trimStart ('s' :: 'a' :: ' ' :: cs.reverse) = 's' :: 'a' :: ' ' :: cs.reverse := rfl
  rw [dropAlias, backwards]
  simp only [word, List.isEmpty_reverse, List.isEmpty_iff, name.some, if_false, List.drop_left,
    Text.blanks1?, letter]
  simp [after?, rest, show isBlank ' ' = true from rfl]

def bareText (path : List Word) : UseEnding → List Char
  | .star => pathText path ++ [':', ':', '*']
  | _ => pathText path

theorem isBlank_bareText (path : List Word) (ending : UseEnding) :
    ∀ c ∈ bareText path ending, isBlank c = false := by
  have solid : ∀ c ∈ pathText path, isBlank c = false := fun _ inside => (mem_pathText inside).1
  cases ending with
  | star => exact forall_mem_append.mpr ⟨solid, by simp [isBlank]⟩
  | plain | renamed => exact solid

/-- What is left of a path without its new name. -/
theorem dropAlias_path (first : Word) (more : List Word) (ending : UseEnding) :
    dropAlias (tight (UseTree.path first more ending).tokens) =
      bareText (first :: more) ending := by
  have solid := isBlank_bareText (first :: more) ending
  rw [tight_path]
  cases ending with
  | renamed name => exact dropAlias_renamed solid name
  | plain => simpa [endingText, bareText] using dropAlias_of_solid solid
  | star => exact dropAlias_of_solid solid

/-- A path is one leaf, whatever its ending. -/
theorem leaf_path (first : Word) (more : List Word) (ending : UseEnding) :
    leaf (tight (UseTree.path first more ending).tokens) = [pathText (first :: more)] := by
  obtain ⟨front, c, ends, word⟩ := pathText_concat first more
  have star : c ≠ '*' := by
    rintro rfl
    exact absurd word (by decide)
  have path : pathText (first :: more) ≠ [] ∧ pathText (first :: more) ≠ ['*'] := by
    rw [ends]
    exact ⟨by simp, fun same => star (by simpa using congrArg getLast? same)⟩
  have plain : endsWith (pathText (first :: more)) [':', ':', '*'] = false := by
    rw [ends, endsWith, reverse_append]
    simp [startsWith, after?, star.symm]
  rw [leaf, dropAlias_path, trim_of_solid (isBlank_bareText _ ending)]
  cases ending with
  | star =>
    have tail : endsWith (pathText (first :: more) ++ [':', ':', '*']) [':', ':', '*'] = true := by
      simp [endsWith, startsWith, after?]
    simp [bareText, tail, path]
  | plain | renamed name => simp [bareText, plain, path]

/-- A member is `self` when it is written so, renamed or not. -/
theorem dropAlias_eq_self (tree : UseTree) :
    (dropAlias (tight tree.tokens) == "self".toList) = tree.isSelf := by
  -- Only one name alone has none of the characters `:` and `{`.
  have other {c : Char} {cs : List Char} (inside : c ∈ cs) (none : c ∉ "self".toList) :
      (cs == "self".toList) = false := by
    rw [beq_eq_false_iff_ne]
    rintro rfl
    exact none inside
  cases tree with
  | path first more ending =>
    rw [dropAlias_path]
    rcases more with - | ⟨v, ws⟩
    · cases ending with
      | star => exact other (c := '*') (by simp [bareText]) (by decide)
      | plain | renamed => simp [isSelf, bareText, pathText]
    · have colon : (bareText (first :: v :: ws) ending == "self".toList) = false :=
        other (c := ':') (by cases ending <;> simp [bareText, pathText_cons]) (by decide)
      rw [colon]
      cases ending <;> rfl
  | group lead members comma =>
    have text : tight (UseTree.group lead members comma).tokens =
        leadText lead ++ '{' :: tight (memberTokens comma members) ++ ['}'] := by simp [tight_group]
    rw [text, dropAlias_of_last _ (by decide)]
    exact other (c := '{') (by simp) (by decide)

/-! ### Paths of a tree -/

theorem cutAt?_brace (plain : ∀ c ∈ cs, isSeparator c = false) (rest : List Char) :
    cutAt? ['{'] (cs ++ '{' :: rest) = some (cs, rest) := by
  induction cs with
  | nil => simp [cutAt?_cons, startsWith, after?]
  | cons c cs ih =>
    obtain ⟨here, later⟩ := forall_mem_cons.mp plain
    have brace : '{' ≠ c := by
      rintro rfl
      exact absurd here (by decide)
    simp [cutAt?_cons, startsWith, after?, brace, ih later]

theorem cutAt?_plain (plain : ∀ c ∈ cs, isSeparator c = false) : cutAt? ['{'] cs = none := by
  cases cut : cutAt? ['{'] cs with
  | none => rfl
  | some parts => exact absurd (plain '{' (by rw [cutAt?_eq_some cut]; simp)) (by decide)

/-- The lead of a group, without the colons behind it. -/
theorem dropEndWhile_leadText (lead : List Word) :
    dropEndWhile (· == ':') (leadText lead) = pathText lead := by
  cases lead with
  | nil => rfl
  | cons w ws =>
    obtain ⟨front, c, ends, word⟩ := pathText_concat w ws
    have colon : c ≠ ':' := by
      rintro rfl
      exact absurd word (by decide)
    simp [leadText, ends, dropEndWhile, colon]

mutual

theorem flatten_ne_nil : (tree : UseTree) → ∀ path ∈ tree.flatten, path ≠ []
  | .path first more ending => by simp [flatten]
  | .group lead members comma => by
    rw [flatten]
    exact flattenAll_ne_nil lead members

theorem flattenAll_ne_nil (lead : List Word) :
    (trees : List UseTree) → ∀ path ∈ flattenAll lead trees, path ≠ []
  | [] => by simp [flattenAll]
  | tree :: trees => by
    have here := flatten_ne_nil tree
    have later := flattenAll_ne_nil lead trees
    rw [flattenAll]
    refine forall_mem_append.mpr ⟨?_, later⟩
    split
    · split <;> simp_all
    · simp_all

end

/-- Normalising gives the spelling of the tree. -/
theorem normalize_tokens {text : List Char} (h : Spread tree.tokens text) :
    normalize text = tight tree.tokens := by
  refine normalize_spread h ?_
  cases tree with
  | path first more ending => cases more <;> rfl
  | group lead members comma => rcases lead with - | ⟨w, - | ⟨v, ws⟩⟩ <;> rfl

theorem length_tokens_pos (tree : UseTree) : 0 < tree.tokens.length := by
  cases tree with
  | path first more ending => cases more <;> simp [tokens, pathTokens]
  | group lead members comma =>
    simp only [tokens, length_append, length_cons]
    omega

/-- A member has no more tokens than the group. -/
theorem length_tokens_le (comma : Bool) {trees : List UseTree} (mem : tree ∈ trees) :
    tree.tokens.length ≤ (memberTokens comma trees).length := by
  induction trees with
  | nil => simp at mem
  | cons first trees ih =>
    cases trees with
    | nil =>
      rw [mem_singleton.mp mem, memberTokens]
      simp
    | cons next trees =>
      rw [memberTokens, length_append, length_cons]
      rcases mem_cons.mp mem with rfl | later
      · omega
      · have := ih later
        omega

mutual

/-- **The paths of a spelling are those of its tree**, by induction on the tree. -/
theorem pathsFuel_tokens : (tree : UseTree) → ∀ fuel, tree.tokens.length ≤ fuel →
    pathsFuel fuel (tight tree.tokens) = tree.flatten.map pathText
  | tree, 0, enough => absurd (length_tokens_pos tree) (by omega)
  | .path first more ending, fuel + 1, _ => by
    have none := tight_path first more ending ▸ cutAt?_plain
      (isSeparator_path (first :: more) ending)
    rw [pathsFuel, normalize_tokens (spread_tight _), none]
    exact leaf_path first more ending
  | .group lead trees comma, fuel + 1, enough => by
    have inner := pathsFuel_members lead trees fuel fun tree mem => by
      have := length_tokens_le comma mem
      simp [tokens] at enough
      omega
    have body : groupBody 0 (tight (memberTokens comma trees) ++ ['}']) =
        tight (memberTokens comma trees) := by
      rw [(passes_memberTokens comma trees 0 ['}']).1]
      exact append_nil _
    rw [pathsFuel, normalize_tokens (spread_tight _), tight_group,
      cutAt?_brace (isSeparator_leadText lead)]
    dsimp only
    rw [body, dropEndWhile_leadText, members_memberTokens, inner, flatten]

theorem pathsFuel_members (lead : List Word) : (trees : List UseTree) → ∀ fuel,
    (∀ tree ∈ trees, tree.tokens.length ≤ fuel) →
    ((trees.map fun tree => tight tree.tokens).flatMap fun part =>
      if dropAlias part == "self".toList
        then (if (pathText lead).isEmpty then [] else [pathText lead])
      else (pathsFuel fuel part).map (under (pathText lead))) = (flattenAll lead trees).map pathText
  | [], _, _ => rfl
  | tree :: trees, fuel, enough => by
    obtain ⟨here, later⟩ := forall_mem_cons.mp enough
    have first := pathsFuel_tokens tree fuel here
    have others := pathsFuel_members lead trees fuel later
    rw [map_cons, flatMap_cons, others, dropAlias_eq_self, flattenAll, map_append, isEmpty_pathText]
    congr 1
    split
    · split <;> rfl
    · rw [first, map_map, map_map]
      exact map_congr_left fun path mem => under_pathText (flatten_ne_nil tree path mem)

end

end UseTree

/-- **The paths of a written tree.** However the tokens of a tree are spread, the paths are those of
the tree, from left to right: each behind the paths of the groups around it, without a star or a new
name at its end. -/
theorem paths_of_spread {tree : UseTree} {text : List Char}
    (written : UseToken.Spread tree.tokens text) :
    UseTree.paths text = tree.flatten.map fun path => String.ofList (UseTree.pathText path) := by
  have long := written.length_le
  have spelled : UseTree.pathsFuel (text.length + 1) text =
      UseTree.pathsFuel (text.length + 1) (UseToken.tight tree.tokens) := by
    rw [UseTree.pathsFuel, UseTree.pathsFuel, UseTree.normalize_tokens written,
      UseTree.normalize_tokens (UseToken.spread_tight _)]
  rw [UseTree.paths, spelled, UseTree.pathsFuel_tokens tree _ (by omega), List.map_map]
  rfl

/-- A group in a group, with a renamed `self`, a star, a comma at the end and blanks of each
kind. -/
theorem paths_of_spread_nested :
    UseTree.paths " a ::\x7bself\tas b,c::\x7b d::* , \x7d\x7d\n".toList = ["a", "a::c::d"] := by
  let name (c : Char) (word : isWordChar c = true) : Word := ⟨[c], by simp, by simpa using word⟩
  let self : Word := ⟨['s', 'e', 'l', 'f'], by simp, List.all_eq_true.mp (by decide)⟩
  let tree : UseTree :=
    .group [name 'a' (by decide)] [.path self [] (.renamed (name 'b' (by decide))),
    .group [name 'c' (by decide)] [.path (name 'd' (by decide)) [] .star] true] false
  have written : UseToken.Spread tree.tokens
      " a ::\x7bself\tas b,c::\x7b d::* , \x7d\x7d\n".toList := by
    rw [String.toList_ofList]
    iterate 16 first
      | refine @UseToken.Spread.cons [] _ _ _ (by simp) ?_ (by decide)
      | refine @UseToken.Spread.cons [' '] _ _ _ (by simp [isBlank]) ?_ (by decide)
      | refine @UseToken.Spread.cons ['\t'] _ _ _ (by simp [isBlank]) ?_ (by decide)
    exact .nil (by simp [isBlank])
  exact paths_of_spread written

end CodeAtlas
