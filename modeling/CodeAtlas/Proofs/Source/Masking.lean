import CodeAtlas.Proofs.Text.Reading
import CodeAtlas.Source.Mask

/-!
What masking keeps of a text.

Masking reads a text lexeme by lexeme. Every lexeme takes at least one character and ends inside the
text, also where the text ends in the middle of a comment or a literal (`lexeme_fits`). The masked
text is the text with each lexeme shown in its masked form (`maskFrom_lexeme`), which has the length
of the lexeme and differs from it by spaces only (`Lexeme.render_veils`). So an offset into the
masked text is an offset into the text, on the same line (`mask_keeps_offsets`).
-/

namespace CodeAtlas

open Mask List

/-! ### Hidden characters -/

/-- A character as masked text may show it: itself, or a space in place of anything but a line
feed. -/
def Veils (shown c : Char) : Prop :=
  shown = c ∨ shown = ' ' ∧ c ≠ '\n'

theorem Veils.newline_iff {shown c : Char} (h : Veils shown c) : shown = '\n' ↔ c = '\n' := by
  rcases h with rfl | ⟨rfl, ne⟩
  · exact Iff.rfl
  · exact ⟨fun space => absurd space (by decide), fun same => absurd same ne⟩

theorem veils_hide (c : Char) : Veils (hide c) c := by
  unfold hide
  by_cases feed : c = '\n'
  · left
    simp [feed]
  · right
    simp [feed]

theorem forall₂_veils_refl (cs : List Char) : List.Forall₂ Veils cs cs := by
  induction cs with
  | nil => exact .nil
  | cons c cs ih => exact .cons (.inl rfl) ih

theorem forall₂_veils_hide (cs : List Char) : List.Forall₂ Veils (cs.map hide) cs := by
  induction cs with
  | nil => exact .nil
  | cons c cs ih => exact .cons (veils_hide c) ih

/-! ### A lexeme in its masked form -/

namespace Lexeme

variable {l : Lexeme}

def render (l : Lexeme) (cs : List Char) : List Char :=
  cs.take l.shown ++ ((cs.drop l.shown).take l.hidden).map hide ++ cs.drop (l.shown + l.hidden)

/-- A lexeme in its masked form differs by spaces only. -/
theorem render_veils (l : Lexeme) (cs : List Char) : List.Forall₂ Veils (l.render cs) cs := by
  have parts : cs.take l.shown ++ (cs.drop l.shown).take l.hidden ++
      cs.drop (l.shown + l.hidden) = cs := by
    rw [append_assoc, ← drop_drop, take_append_drop, take_append_drop]
  have veiled := rel_append (rel_append (forall₂_veils_refl (cs.take l.shown))
      (forall₂_veils_hide ((cs.drop l.shown).take l.hidden)))
    (forall₂_veils_refl (cs.drop (l.shown + l.hidden)))
  simpa only [render, parts] using veiled

/-- The masked form starts with the first character, hidden or not. -/
theorem render_cons (some : l.size ≠ 0) (c : Char) (cs : List Char) :
    l.render (c :: cs) = (if l.hidesFirst then hide c else c) :: l.tail.render cs := by
  obtain ⟨shown, hidden, closing⟩ := l
  cases shown with
  | succ shown => simp [render, hidesFirst, tail, Nat.add_right_comm shown 1 hidden]
  | zero =>
    cases hidden with
    | succ hidden | zero => simp [render, hidesFirst, tail]

/-- One character less is left of a lexeme. -/
theorem size_tail (some : l.size ≠ 0) : l.tail.size + 1 = l.size := by
  obtain ⟨shown, hidden, closing⟩ := l
  cases shown with
  | succ shown => simp only [size, tail]; omega
  | zero =>
    cases hidden with
    | succ hidden => simp only [size, tail]; omega
    | zero =>
      simp only [size] at some
      simp only [size, tail]
      omega

def Fits (l : Lexeme) (cs : List Char) : Prop :=
  0 < l.size ∧ l.size ≤ cs.length

end Lexeme

namespace Mask

variable {l : Lexeme} {cs : List Char} {n : Nat}

/-- While a lexeme lasts its characters are shown in its masked form. -/
theorem maskFrom_append (f : Family) {piece : List Char} (whole : piece.length = l.size)
    (before : Option Char) (rest : List Char) :
    maskFrom f l before (piece ++ rest) = l.render piece ++
      maskFrom f ⟨0, 0, 0⟩ (piece.getLast?.or before) rest := by
  induction piece generalizing l before with
  | nil =>
    obtain ⟨shown, hidden, closing⟩ := l
    have zeros : shown = 0 ∧ hidden = 0 ∧ closing = 0 := by
      simp only [length_nil, Lexeme.size] at whole
      omega
    obtain ⟨rfl, rfl, rfl⟩ := zeros
    simp [Lexeme.render]
  | cons c piece ih =>
    have some : l.size ≠ 0 := by
      rw [← whole]
      simp
    have tail : piece.length = l.tail.size := by
      have := Lexeme.size_tail some
      rw [length_cons] at whole
      omega
    have last : piece.getLast?.or (.some c) = (c :: piece).getLast?.or before := by
      rw [getLast?_cons]
      cases piece.getLast? <;> rfl
    rw [cons_append, maskFrom, Lexeme.render_cons some]
    simp only [beq_iff_eq, some, if_false]
    rw [ih tail, last, cons_append]

/-! ### Lexemes stay inside the text -/

theorem blockCommentLength_le (nested : Bool) (depth : Nat) (cs : List Char) :
    blockCommentLength nested depth cs ≤ cs.length := by
  fun_induction blockCommentLength nested depth cs with
  | case1 => simp
  | case2 depth cs ih => simp only [length_cons]; omega
  | case3 => simp
  | case4 depth cs _ ih | case5 depth c cs _ _ ih => simp only [length_cons]; omega

theorem stringLength_le (quote : Char) (multiline : Bool) (cs : List Char) :
    stringLength quote multiline cs ≤ cs.length := by
  fun_induction stringLength quote multiline cs with
  | case1 | case2 => simp
  | case3 _ cs ih => simp only [length_cons]; omega
  | case4 c cs _ _ same | case5 c cs _ _ ne feed => simp
  | case6 c cs _ _ ne more ih => simp only [length_cons]; omega

theorem stringLexeme_size (quote : Char) (multiline : Bool) (cs : List Char) :
    (stringLexeme quote multiline cs).size = 1 + stringLength quote multiline cs := by
  unfold stringLexeme
  simp only
  split
  · rename_i closed
    -- A text without characters has no last one, so the closing quote is one of those counted.
    have some : stringLength quote multiline cs ≠ 0 := by
      intro none
      simp [none] at closed
    simp only [Lexeme.size]
    omega
  · simp [Lexeme.size]

theorem distanceTo?_le {mark : List Char} (h : distanceTo? mark cs = some n) :
    n + mark.length ≤ cs.length := by
  obtain ⟨⟨pre, post⟩, found, rfl⟩ := Option.map_eq_some_iff.mp h
  rw [Text.cutAt?_eq_some found]
  simp

theorem rawStringLexeme?_fits (h : rawStringLexeme? cs = some l) : l.Fits cs := by
  unfold rawStringLexeme? at h
  split at h
  case h_2 => cases h
  rename_i cs
  simp only at h
  split at h
  case h_2 => cases h
  rename_i body opened
  have opening : (cs.takeWhile (· == '#')).length + 1 + body.length = cs.length := by
    have split := congrArg length (take_append_drop (cs.takeWhile (· == '#')).length cs)
    rw [opened] at split
    have front : cs.takeWhile (· == '#') <+: cs := takeWhile_prefix _
    have short := front.length_le
    simp only [length_append, length_take, length_cons] at split
    omega
  split at h
  · rename_i n found
    cases h
    have close := distanceTo?_le found
    simp only [length_cons] at close
    constructor <;> simp only [Lexeme.size, length_cons] <;> omega
  · cases h
    constructor <;> simp only [Lexeme.size, length_cons] <;> omega

theorem characterLexeme?_fits (h : characterLexeme? cs = some l) : l.Fits ('\'' :: cs) := by
  obtain ⟨n, found, rfl⟩ := Option.map_eq_some_iff.mp h
  have closed : (cs.drop n).head? = some '\'' := by simpa using find?_some found
  have inside : n < cs.length := by
    by_contra beyond
    rw [drop_eq_nil_of_le (by omega)] at closed
    cases closed
  constructor <;> simp only [Lexeme.size, length_cons] <;> omega

/-- Where a triple quote is found there is one. -/
theorem tripleBodyLength?_closed {quote : Char} {done : List Char}
    (h : tripleBodyLength? quote done cs = some n) : [quote, quote, quote] <+: cs.drop n := by
  induction cs generalizing done n with
  | nil => simp [tripleBodyLength?] at h
  | cons c cs ih =>
    unfold tripleBodyLength? at h
    split at h
    · rename_i closes
      cases h
      simp only [Bool.and_eq_true] at closes
      exact Text.startsWith_iff.mp closes.1
    · obtain ⟨m, found, rfl⟩ := Option.map_eq_some_iff.mp h
      exact ih found

/-- A triple-quoted string ends inside the text. -/
theorem tripleLexeme_fits (quote : Char) (cs : List Char) :
    (tripleLexeme quote cs).Fits (quote :: quote :: quote :: cs) := by
  unfold tripleLexeme
  split
  · rename_i n found
    have := (tripleBodyLength?_closed found).length_le
    simp only [length_drop, length_cons, length_nil] at this
    constructor <;> simp only [Lexeme.size, length_cons] <;> omega
  · constructor <;> simp only [Lexeme.size, length_cons] <;> omega

theorem stringLexeme_fits (quote : Char) (multiline : Bool) (cs : List Char) :
    (stringLexeme quote multiline cs).Fits (quote :: cs) := by
  have short := stringLength_le quote multiline cs
  rw [Lexeme.Fits, stringLexeme_size, length_cons]
  omega

theorem code_fits (some : cs ≠ []) : Lexeme.code.Fits cs :=
  ⟨by decide, length_pos_iff.mpr some⟩

theorem lineComment_fits {c : Char} (ne : c ≠ '\n') (cs : List Char) :
    (Lexeme.comment (lineCommentLength (c :: cs))).Fits (c :: cs) := by
  constructor
  · simp [Lexeme.size, Lexeme.comment, lineCommentLength, ne]
  · have front : (c :: cs).takeWhile (· != '\n') <+: c :: cs := takeWhile_prefix _
    simpa [Lexeme.size, Lexeme.comment, lineCommentLength] using front.length_le

/-- A block comment takes its opening at least. -/
theorem blockComment_fits (nested : Bool) (cs : List Char) :
    (Lexeme.comment (blockCommentLength nested 0 ('/' :: '*' :: cs))).Fits ('/' :: '*' :: cs) := by
  have short := blockCommentLength_le nested 0 ('/' :: '*' :: cs)
  constructor
  · simp only [Lexeme.size, Lexeme.comment, blockCommentLength]
    omega
  · simpa [Lexeme.size, Lexeme.comment] using short

theorem getD_code_fits {l? : Option Lexeme} (some : cs ≠ [])
    (h : ∀ l, l? = .some l → l.Fits cs) : (l?.getD .code).Fits cs := by
  cases l? with
  | none => exact code_fits some
  | some l => exact h l rfl

/-- Every lexeme takes at least one character and ends inside the text. -/
theorem lexeme_fits (f : Family) (before : Option Char) (some : cs ≠ []) :
    (lexeme f before cs).Fits cs := by
  cases f with
  | rust =>
    show (rustLexeme before cs).Fits cs
    unfold rustLexeme
    split
    · exact lineComment_fits (by decide) _
    · exact blockComment_fits true _
    · split
      · exact code_fits some
      · exact getD_code_fits some fun l found => rawStringLexeme?_fits found
    · exact stringLexeme_fits _ _ _
    · exact getD_code_fits some fun l found => characterLexeme?_fits found
    · exact code_fits some
  | curly =>
    show (curlyLexeme cs).Fits cs
    unfold curlyLexeme
    split
    · exact lineComment_fits (by decide) _
    · exact blockComment_fits false _
    · exact stringLexeme_fits _ _ _
    · exact stringLexeme_fits _ _ _
    · exact stringLexeme_fits _ _ _
    · exact code_fits some
  | python =>
    show (pythonLexeme cs).Fits cs
    unfold pythonLexeme
    split
    · exact lineComment_fits (by decide) _
    · exact tripleLexeme_fits _ _
    · exact tripleLexeme_fits _ _
    · exact stringLexeme_fits _ _ _
    · exact stringLexeme_fits _ _ _
    · exact code_fits some

/-- **Masking shows the first lexeme in its masked form and goes on behind it.** -/
theorem maskFrom_lexeme (f : Family) (before : Option Char) (some : cs ≠ []) :
    let l := lexeme f before cs
    let piece := cs.take l.size
    maskFrom f ⟨0, 0, 0⟩ before cs =
      l.render piece ++ maskFrom f ⟨0, 0, 0⟩ piece.getLast? (cs.drop l.size) := by
  intro l piece
  obtain ⟨pos, inside⟩ : l.Fits cs := lexeme_fits f before some
  have whole : piece.length = l.size := by
    rw [length_take]
    exact Nat.min_eq_left inside
  have start : maskFrom f ⟨0, 0, 0⟩ before cs = maskFrom f l before cs := by
    cases cs with
    | nil => rfl
    | cons c cs =>
      have pending : (l.size == 0) = false := by simpa using Nat.pos_iff_ne_zero.mp pos
      unfold maskFrom
      simp only [pending, Bool.false_eq_true, if_false]
      rfl
  have last : piece.getLast?.or before = piece.getLast? := by
    have nonempty : piece ≠ [] := ne_nil_of_length_pos (by omega)
    rw [getLast?_eq_some_getLast nonempty]
    rfl
  rw [start, ← last, ← maskFrom_append f whole before, take_append_drop]

/-- Masking puts spaces in place of some characters and changes nothing else. -/
theorem maskFrom_veils (f : Family) (before : Option Char) (cs : List Char) :
    List.Forall₂ Veils (maskFrom f ⟨0, 0, 0⟩ before cs) cs := by
  -- By induction on the length of what is left: every lexeme makes it shorter.
  induction h : cs.length using Nat.strong_induction_on generalizing before cs with
  | _ n ih =>
    by_cases some : cs = []
    · rw [some]
      exact .nil
    · obtain ⟨pos, inside⟩ := lexeme_fits f before some
      have shorter : (cs.drop (lexeme f before cs).size).length < n := by
        rw [length_drop]
        omega
      rw [maskFrom_lexeme f before some]
      have veiled :=
        rel_append ((lexeme f before cs).render_veils (cs.take (lexeme f before cs).size))
        (ih _ shorter (cs.take (lexeme f before cs).size).getLast? _ rfl)
      simpa only [take_append_drop] using veiled

end Mask

/-- Masking moves no offset. The masked text is as long as the text, has its line feeds at the same
places, and holds at every place the character of the text or a space. What is blanked out never
reaches beyond the text: each lexeme takes at least one character and at most those that are left,
and the masked text is made of the lexemes in their masked form, one after the other. -/
theorem mask_keeps_offsets (f : Family) (text : List Char) :
    (mask f text).length = text.length ∧
    (∀ i : Nat, (mask f text)[i]? = some '\n' ↔ text[i]? = some '\n') ∧
    (∀ (i : Nat) (c : Char), text[i]? = some c →
      (mask f text)[i]? = some c ∨ (mask f text)[i]? = some ' ') ∧
    (∀ (before : Option Char) (cs : List Char), cs ≠ [] →
      let l := Mask.lexeme f before cs
      let piece := cs.take l.size
      0 < l.size ∧ l.size ≤ cs.length ∧
        Mask.maskFrom f ⟨0, 0, 0⟩ before cs =
          l.render piece ++ Mask.maskFrom f ⟨0, 0, 0⟩ piece.getLast? (cs.drop l.size)) := by
  have veils : List.Forall₂ Veils (mask f text) text := Mask.maskFrom_veils f none text
  have lengths := veils.length_eq
  have places (i : Nat) (c : Char) (here : text[i]? = some c) :
      ∃ shown, (mask f text)[i]? = some shown ∧ Veils shown c := by
    obtain ⟨inside, rfl⟩ := List.getElem?_eq_some_iff.mp here
    exact ⟨_, List.getElem?_eq_getElem (by omega), veils.get (by omega) inside⟩
  refine ⟨lengths, ?_, ?_, ?_⟩
  · intro i
    cases here : text[i]? with
    | none =>
      rw [List.getElem?_eq_none_iff] at here
      rw [List.getElem?_eq_none (by omega)]
    | some c =>
      obtain ⟨shown, there, veil⟩ := places i c here
      rw [there, Option.some.injEq, Option.some.injEq]
      exact veil.newline_iff
  · intro i c here
    obtain ⟨shown, there, rfl | ⟨rfl, _⟩⟩ := places i c here
    · exact .inl there
    · exact .inr there
  · intro before cs some
    obtain ⟨pos, inside⟩ := Mask.lexeme_fits f before some
    exact ⟨pos, inside, Mask.maskFrom_lexeme f before some⟩

end CodeAtlas
