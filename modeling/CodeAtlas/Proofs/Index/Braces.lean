import CodeAtlas.Index.Build
import CodeAtlas.Proofs.Source.Order
import CodeAtlas.Proofs.Text.Reading

/-!
No brace is missed by a scan.

A mark of the brace families is a bracket, or it is read over characters that are no braces
(`Passes`), and a place without a mark does not hold a brace (`Mark.Sees`). So the braces of a text
are exactly the bracket marks of its scan that are braces, in order: the marks tile the text, and
there are no braces in the gaps (`Mark.scan_tiles`). The heads of one family hold no brackets at
all, so its recognisers are read for any kind of brackets (`PicksBrackets`). The names in marks hold
none of the characters that an identity is made with (`IsName`).
-/

namespace CodeAtlas

open List Text

def isBrace (c : Char) : Bool :=
  c == '{' || c == '}'

def isBracket (c : Char) : Bool :=
  isOpener c || isCloser c

/-- A kind of brackets. -/
class PicksBrackets (kind : Char → Bool) : Prop where
  isBracket_of : ∀ c, kind c = true → isBracket c = true

instance : PicksBrackets isBracket :=
  ⟨fun _ => id⟩

instance : PicksBrackets isBrace where
  isBracket_of := by
    intro c brace
    simp only [isBrace, Bool.or_eq_true, beq_iff_eq] at brace
    rcases brace with rfl | rfl <;> rfl

variable {kind : Char → Bool}

section Plain

variable [PicksBrackets kind] {c : Char}

/-- What is no bracket at all is none of a kind. -/
theorem plain_of_no_bracket (none : isBracket c = false) : kind c = false := by
  by_contra bracket
  rw [PicksBrackets.isBracket_of c (by simpa using bracket)] at none
  cases none

/-- A word without brackets has none of a kind. -/
theorem plain_word {word : List Char} (all : word.all (!isBracket ·) = true) :
    ∀ c ∈ word, kind c = false := by
  intro c mem
  exact plain_of_no_bracket (by simpa using all_eq_true.mp all c mem)

theorem plain_of_isDollarWordChar (word : isDollarWordChar c = true) : kind c = false := by
  refine plain_of_no_bracket ?_
  by_contra bracket
  rcases Bool.or_eq_true_iff.mp (Bool.not_eq_false _ ▸ bracket) with opener | closer
  · rw [isDollarWordChar_of_isOpener opener] at word
    cases word
  · rw [isDollarWordChar_of_isCloser closer] at word
    cases word

theorem plain_of_isBlank (blank : isBlank c = true) : kind c = false := by
  refine plain_of_no_bracket ?_
  by_contra bracket
  simp only [isBracket, isOpener, isCloser, Bool.not_eq_false, Bool.or_eq_true, beq_iff_eq,
    or_assoc] at bracket
  rcases bracket with rfl | rfl | rfl | rfl | rfl | rfl <;> revert blank <;> decide

end Plain

/-- A text that is not empty and holds none of some characters. -/
def Avoids (marks : List Char) (text : String) : Prop :=
  text.toList ≠ [] ∧ ∀ c ∈ text.toList, c ∉ marks

/-- The characters that tell the parts of an identity apart. -/
def idMarks : List Char := [':', '@']

def IsName : String → Prop :=
  Avoids ('.' :: idMarks)

/-- Behind some characters that are not of the kind, `rest` is left of a text. -/
def Passes (kind : Char → Bool) (cs rest : List Char) : Prop :=
  ∃ lead, cs = lead ++ rest ∧ ∀ c ∈ lead, kind c = false

namespace Passes

variable {cs mid rest : List Char}

theorem refl (cs : List Char) : Passes kind cs cs :=
  ⟨[], rfl, nofun⟩

theorem trans (first : Passes kind cs mid) (second : Passes kind mid rest) :
    Passes kind cs rest := by
  obtain ⟨lead, rfl, plain⟩ := first
  obtain ⟨lead', rfl, plain'⟩ := second
  refine ⟨lead ++ lead', (append_assoc _ _ _).symm, fun c mem => ?_⟩
  rcases mem_append.mp mem with early | late
  · exact plain c early
  · exact plain' c late

theorem length_le (h : Passes kind cs rest) : rest.length ≤ cs.length := by
  obtain ⟨lead, rfl, -⟩ := h
  simp

/-- A passage takes nothing of the kind away. -/
theorem filter_eq (h : Passes kind cs rest) : cs.filter kind = rest.filter kind := by
  obtain ⟨lead, rfl, plain⟩ := h
  rw [filter_append, filter_eq_nil_iff.mpr (by simpa using plain), nil_append]

/-- What is of the kind and not before the start of a passage is not before its end. -/
theorem le_of_getElem? {text : List Char} {start stop i : Nat} {c : Char}
    (h : Passes kind (text.drop start) (text.drop stop)) (inside : stop ≤ text.length)
    (there : text[i]? = some c) (is : kind c = true) (behind : start ≤ i) : stop ≤ i := by
  by_contra before
  obtain ⟨lead, split, plain⟩ := h
  have size := congrArg length split
  rw [length_append, length_drop, length_drop] at size
  have here : (text.drop start)[i - start]? = some c := by
    rwa [getElem?_drop, Nat.add_sub_cancel' behind]
  rw [split, getElem?_append_left (by omega)] at here
  rw [plain c (mem_of_getElem? here)] at is
  cases is

theorem suffix (h : Passes kind cs rest) : rest <:+ cs := by
  obtain ⟨lead, rfl, -⟩ := h
  exact ⟨lead, rfl⟩

theorem drop_eq (h : Passes kind cs rest) : cs.drop (cs.length - rest.length) = rest := by
  obtain ⟨lead, rfl, -⟩ := h
  simp

theorem cons {c : Char} (plain : kind c = false) (h : Passes kind cs rest) :
    Passes kind (c :: cs) rest := by
  obtain ⟨lead, rfl, plains⟩ := h
  refine ⟨c :: lead, rfl, fun d mem => ?_⟩
  rcases mem_cons.mp mem with rfl | later
  · exact plain
  · exact plains d later

/-- A part without anything of the kind can be passed. -/
theorem of_append {lead : List Char} (plain : ∀ c ∈ lead, kind c = false) (rest : List Char) :
    Passes kind (lead ++ rest) rest :=
  ⟨lead, rfl, plain⟩

theorem dropWhile {p : Char → Bool} (plain : ∀ c, p c = true → kind c = false) (cs : List Char) :
    Passes kind cs (cs.dropWhile p) :=
  ⟨cs.takeWhile p, takeWhile_append_dropWhile.symm, fun c mem => plain c (mem_takeWhile_imp mem)⟩

end Passes

/-! ### Recognisers -/

section Recognisers

variable [PicksBrackets kind]

namespace Text

variable {cs rest name : List Char}

theorem trimStart_passes (cs : List Char) : Passes kind cs (trimStart cs) :=
  .dropWhile (fun _ => plain_of_isBlank) cs

omit [PicksBrackets kind] in
theorem after?_passes {lead : List Char} (plain : ∀ c ∈ lead, kind c = false)
    (h : after? lead cs = some rest) : Passes kind cs rest := by
  rw [after?_eq_some_iff.mp h]
  exact .of_append plain rest

omit [PicksBrackets kind] in
/-- A word is read over its characters, at least one of them, and it is a text without the given
marks. -/
theorem passes_word {isPart : Char → Bool} {marks : List Char} {c : Char}
    (first : kind c = false ∧ c ∉ marks) (part : ∀ d, isPart d = true → kind d = false ∧ d ∉ marks)
    (cs : List Char) :
    Passes kind (c :: cs) (cs.dropWhile isPart) ∧ (cs.dropWhile isPart).length < (c :: cs).length ∧
      Avoids marks (String.ofList (c :: cs.takeWhile isPart)) := by
  have rest : Passes kind cs _ := .dropWhile (fun d is => (part d is).1) cs
  refine ⟨rest.cons first.1, Nat.lt_succ_of_le rest.length_le, by simp, ?_⟩
  intro d mem
  rw [String.toList_ofList] at mem
  rcases mem_cons.mp mem with rfl | later
  · exact first.2
  · exact (part d (mem_takeWhile_imp later)).2

/-- Word characters are no brackets, and no characters that identities are made with. -/
theorem plain_part {c : Char} (word : isDollarWordChar c = true) :
    kind c = false ∧ c ∉ '.' :: idMarks := by
  refine ⟨plain_of_isDollarWordChar word, fun mem => ?_⟩
  simp only [idMarks, mem_cons, not_mem_nil, or_false] at mem
  rcases mem with rfl | rfl | rfl <;> revert word <;> decide

theorem blanks1?_passes (h : blanks1? cs = some rest) : Passes kind cs rest := by
  unfold blanks1? at h
  split at h
  · rename_i c tail
    split at h
    · rename_i blank
      cases h
      exact (trimStart_passes tail).cons (plain_of_isBlank blank)
    · cases h
  · cases h

/-- A name is read over no brackets, and is a name. -/
theorem name?_passes (h : name? cs = some (name, rest)) :
    Passes kind cs rest ∧ rest.length < cs.length ∧ IsName (String.ofList name) := by
  unfold name? at h
  split at h
  · split at h
    · rename_i start
      cases h
      exact passes_word
        (plain_part (isDollarWordChar_of_isDollarNameStart (by simp [isDollarNameStart, start])))
        (fun _ word => plain_part (by simp [isDollarWordChar, word])) _
    · cases h
  · cases h

omit [PicksBrackets kind] in
/-- What is read as a name is one, for any kind of brackets. -/
theorem name?_isName (h : name? cs = some (name, rest)) : IsName (String.ofList name) :=
  (show Passes isBrace cs rest ∧ _ from name?_passes h).2.2

theorem dollarName?_passes (h : dollarName? cs = some (name, rest)) :
    Passes kind cs rest ∧ rest.length < cs.length ∧ IsName (String.ofList name) := by
  unfold dollarName? at h
  split at h
  · split at h
    · rename_i start
      cases h
      exact passes_word (plain_part (isDollarWordChar_of_isDollarNameStart start))
        (fun _ => plain_part) _
    · cases h
  · cases h

/-- A whole word stands at the start of the text. -/
theorem wholeWord?_eq_some {word : String} {before : Option Char}
    (h : wholeWord? word before cs = some rest) : cs = word.toList ++ rest := by
  obtain ⟨tail, read, same⟩ := Option.bind_eq_some_iff.mp h
  split at same
  · cases same
  · cases same
    exact after?_eq_some_iff.mp read

end Text

/-- A keyword and the blanks behind it hold no brackets. -/
theorem Mark.wordAndBlanks?_passes {word : String} {before cs rest : List Char}
    (plain : ∀ c ∈ word.toList, kind c = false) (h : wordAndBlanks? word before cs = some rest) :
    Passes kind cs rest := by
  unfold wordAndBlanks? at h
  split at h
  · cases h
  · obtain ⟨tail, read, blanks⟩ := Option.bind_eq_some_iff.mp h
    exact (after?_passes plain read).trans (blanks1?_passes blanks)

end Recognisers

/-! ### Marks -/

def Covers (kind : Char → Bool) (cs : List Char) (length : Nat) : Prop :=
  0 < length ∧ length ≤ cs.length ∧ Passes kind cs (cs.drop length)

/-- What is read to a shorter rest is covered. -/
theorem Passes.covers {cs rest : List Char} (h : Passes kind cs rest)
    (short : rest.length < cs.length) :
    Covers kind cs (cs.length - rest.length) := by
  refine ⟨Nat.sub_pos_of_lt short, Nat.sub_le _ _, ?_⟩
  rw [h.drop_eq]
  exact h

/-- A keyword, blanks and a name are covered together. -/
theorem Mark.covers_named [PicksBrackets kind] {word : String} {before cs tail rest : List Char}
    (plain : ∀ c ∈ word.toList, kind c = false) (blanks : wordAndBlanks? word before cs = some tail)
    (named : Passes kind tail rest) (shorter : rest.length < tail.length) :
    Covers kind cs (cs.length - rest.length) := by
  have front := wordAndBlanks?_passes plain blanks
  exact (front.trans named).covers (Nat.lt_of_lt_of_le shorter front.length_le)

namespace Mark

variable {text : List Char}

/-- What a mark is for the braces of a text. -/
inductive Role where
  | opener (c : Char)
  | closer (c : Char)
  | other

variable {κ : Type} {read : List Char → List Char → Option (κ × Nat)} {role : κ → Role}

def Role.bracket? : Role → Option Char
  | opener c => some c
  | closer c => some c
  | other => none

/-- What is read at the start of a text shows the brackets of a kind there: a bracket is a mark of
its own, every other mark covers none, and where there is no mark there is none. -/
def Sees (kind : Char → Bool) (role : κ → Role) (cs : List Char) : Option (κ × Nat) → Prop
  | none => ∀ c ∈ cs.head?, kind c = false
  | some (mark, length) =>
      match role mark with
      | .opener c => isOpener c = true ∧ length = 1 ∧ cs.head? = some c
      | .closer c => isCloser c = true ∧ length = 1 ∧ cs.head? = some c
      | .other => Covers kind cs length

/-- A mark has at least one character and stays inside the text. -/
theorem Sees.bounds {cs : List Char} {mark : κ} {length : Nat}
    (h : Sees kind role cs (some (mark, length))) :
    0 < length ∧ length ≤ cs.length := by
  have single {c : Char} (one : length = 1) (head : cs.head? = some c) : 0 < length ∧
      length ≤ cs.length := by
    cases cs with
    | nil => cases head
    | cons d cs => exact one ▸ ⟨Nat.one_pos, Nat.succ_le_succ (Nat.zero_le _)⟩
  unfold Sees at h
  dsimp only at h
  split at h
  · exact single h.2.1 h.2.2
  · exact single h.2.1 h.2.2
  · exact ⟨h.1, h.2.1⟩

/-- Where no mark is read there is nothing of the kind. -/
theorem Sees.unmarked (sees : ∀ before cs, Sees kind role cs (read before cs))
    {before cs : List Char} (none : read before cs = none) : ∀ c ∈ cs.head?, kind c = false := by
  have seen := sees before cs
  rwa [none] at seen

/-- The marks tile a text from an offset on. Each is read where it starts and stops before the next
one starts, and between them there is nothing of the kind `gap`. -/
def Tiles (gap : Char → Bool) (read : List Char → List Char → Option (κ × Nat)) (text : List Char) :
    Nat → List (Mark κ) → Prop
  | pos, [] => Passes gap (text.drop pos) []
  | pos, m :: ms => pos ≤ m.start ∧ m.start < m.stop ∧ m.stop ≤ text.length ∧
      Passes gap (text.drop pos) (text.drop m.start) ∧
      read m.before (text.drop m.start) = some (m.kind, m.stop - m.start) ∧
        Tiles gap read text m.stop ms

variable {gap : Char → Bool} {pos : Nat} {ms : List (Mark κ)}

/-- A tiling may start earlier, over a gap. -/
theorem Tiles.earlier (between : Passes gap (text.drop pos) (text.drop (pos + 1)))
    (h : Tiles gap read text (pos + 1) ms) : Tiles gap read text pos ms := by
  cases ms with
  | nil => exact between.trans h
  | cons m ms =>
    obtain ⟨later, positive, inside, passed, rest⟩ := h
    exact ⟨Nat.le_of_succ_le later, positive, inside, between.trans passed, rest⟩

section

variable (sees : ∀ before cs, Sees kind role cs (read before cs))
  (unmarked : ∀ {before cs}, read before cs = none → ∀ c ∈ cs.head?, gap c = false)
include sees unmarked

/-- While `skip` characters still belong to a mark, the next marks tile the text behind them. -/
theorem scanFrom_tiles (cs : List Char) :
    ∀ (skip pos : Nat) (before : List Char), text.drop pos = cs → skip ≤ cs.length →
      Tiles gap read text (pos + skip) (scanFrom read skip pos before cs) := by
  induction cs with
  | nil =>
    intro skip pos before here short
    obtain rfl := Nat.le_zero.mp short
    rw [scanFrom, Tiles, Nat.add_zero, here]
    exact .refl []
  | cons c cs ih =>
    intro skip pos before here short
    have next : text.drop (pos + 1) = cs := by rw [← drop_drop, here, drop_one, tail_cons]
    cases skip with
    | succ skip =>
      rw [scanFrom, ← Nat.succ_add_eq_add_succ]
      exact ih skip (pos + 1) (c :: before) next (Nat.le_of_succ_le_succ short)
    | zero =>
      rw [scanFrom, Nat.add_zero]
      cases found : read before (c :: cs) with
      | none =>
        have between : Passes gap (text.drop pos) (text.drop (pos + 1)) := by
          rw [here, next]
          exact (Passes.refl cs).cons (unmarked found c rfl)
        exact Tiles.earlier between (ih 0 (pos + 1) (c :: before) next (Nat.zero_le _))
      | some mark =>
        obtain ⟨kind, length⟩ := mark
        obtain ⟨positive, le⟩ := Sees.bounds (found ▸ sees before (c :: cs))
        have size : text.length - pos = cs.length + 1 := by rw [← length_drop, here, length_cons]
        have tail := ih (length - 1) (pos + 1) (c :: before) next (Nat.sub_le_of_le_add le)
        have stop : pos + 1 + (length - 1) = pos + length := by omega
        rw [stop] at tail
        refine ⟨Nat.le_refl pos, Nat.lt_add_of_pos_right positive, ?_, .refl _, ?_, tail⟩
        · have : length ≤ cs.length + 1 := le
          change pos + length ≤ text.length
          omega
        · change read before (text.drop pos) = some (kind, pos + length - pos)
          rw [here, Nat.add_sub_cancel_left]
          exact found

/-- **The marks of a text tile it.** -/
theorem scan_tiles (text : List Char) :
    Tiles gap read text 0 (scan read text) :=
  scanFrom_tiles sees unmarked text 0 0 [] rfl (Nat.zero_le _)

end

/-- Each mark of a tiling was read where it starts. -/
theorem Tiles.of_mem (tiles : Tiles gap read text pos ms) {m : Mark κ} (mem : m ∈ ms) :
    m.start < m.stop ∧
    m.stop ≤ text.length ∧ read m.before (text.drop m.start) = some (m.kind, m.stop - m.start) := by
  induction ms generalizing pos with
  | nil => cases mem
  | cons first ms ih =>
    obtain ⟨-, positive, inside, -, found, tiles⟩ := tiles
    rcases mem_cons.mp mem with rfl | later
    · exact ⟨positive, inside, found⟩
    · exact ih tiles later

/-- What the gaps between marks and the marks themselves keep, holds behind the text. -/
theorem Tiles.foldl {σ : Type} {P : Nat → σ → Prop} {step : σ → Mark κ → σ}
    (pass : ∀ {pos s}, P pos s → ∀ {pos'}, pos ≤ pos' → pos' ≤ text.length →
      Passes gap (text.drop pos) (text.drop pos') → P pos' s)
    (keeps : ∀ (s : σ) (m : Mark κ), m.start < m.stop → m.stop ≤ text.length →
      read m.before (text.drop m.start) = some (m.kind, m.stop - m.start) → P m.start s →
        P m.stop (step s m))
    (tiles : Tiles gap read text pos ms) (inside : pos ≤ text.length) {s : σ} (h : P pos s) :
    P text.length (ms.foldl step s) := by
  induction ms generalizing pos s with
  | nil =>
    refine pass h inside (Nat.le_refl _) ?_
    rw [drop_length]
    exact tiles
  | cons m ms ih =>
    obtain ⟨later, positive, stop, between, found, tiles⟩ := tiles
    have start : m.start ≤ text.length := (Nat.le_of_lt positive).trans stop
    exact ih tiles stop (keeps s m positive stop found (pass h later start between))

end Mark

theorem covers_semicolon [PicksBrackets kind] (cs : List Char) : Covers kind (';' :: cs) 1 :=
  ⟨Nat.one_pos, Nat.succ_le_succ (Nat.zero_le _), (Passes.refl cs).cons (plain_of_no_bracket rfl)⟩

namespace Rust

variable [PicksBrackets kind]

def MarkKind.role : MarkKind → Mark.Role
  | opener c => .opener c
  | closer c => .closer c
  | _ => .other

theorem named?_covers {word name : String} {before cs : List Char} {length : Nat}
    (plain : ∀ c ∈ word.toList, kind c = false) (h : named? word before cs = some (name, length)) :
    Covers kind cs length := by
  simp only [named?, Option.bind_eq_bind, Option.bind_eq_some_iff, Option.pure_def] at h
  obtain ⟨tail, blanks, ⟨name', rest⟩, named, same⟩ := h
  cases same
  obtain ⟨passes, shorter, _⟩ : Passes kind tail rest ∧ _ := name?_passes named
  exact Mark.covers_named plain blanks passes shorter

/-- **What is read at a place of a Rust text shows its brackets.** -/
theorem readMark_sees (before cs : List Char) :
    Mark.Sees kind MarkKind.role cs (readMark before cs) := by
  unfold readMark
  split
  · rename_i found
    exact named?_covers (plain_word (by decide)) found
  split
  · rename_i rest found
    have text := wholeWord?_eq_some found
    have left : Passes kind cs rest := text ▸ .of_append (plain_word (by decide)) rest
    have size : cs.length = 4 + rest.length := by
      rw [text, length_append]
      rfl
    have covers := left.covers (by omega)
    rw [size, Nat.add_sub_cancel] at covers
    exact covers
  split
  · rename_i found
    exact named?_covers (plain_word (by decide)) found
  split
  · rename_i found
    exact named?_covers (plain_word (by decide)) found
  split
  · split
    · exact ⟨‹_›, rfl, rfl⟩
    split
    · exact ⟨‹_›, rfl, rfl⟩
    split
    · rename_i semicolon
      obtain rfl := beq_iff_eq.mp semicolon
      exact covers_semicolon _
    · rintro d ⟨⟩
      exact plain_of_no_bracket (by simp [isBracket, *])
  · nofun

end Rust

namespace Curly

variable {before cs name rest start : List Char} {mark : MarkKind × Nat}

def MarkKind.role : MarkKind → Mark.Role
  | opener c => .opener c
  | closer c => .closer c
  | _ => .other

/-- What a mark of the given length says about the text that it starts: names are names, the name of
a member is part of the mark, and a value is read behind it. -/
def MarkKind.Placed (cs : List Char) (length : Nat) : MarkKind → Prop
  | function name => ∀ n ∈ name, IsName n
  | classHead name | interfaceHead name => IsName name
  | module name => Avoids idMarks name
  | member name nameOffset _ => IsName name ∧ nameOffset < length
  | field name nameOffset _ value =>
    IsName name ∧ nameOffset < length ∧ value = boundValue (cs.drop length)
  | binding name value => IsName name ∧ value = boundValue (cs.drop length)
  | _ => True

/-- What a recogniser reads shows the braces, and says what stands in the text. -/
def Reads (cs : List Char) (mark : MarkKind × Nat) : Prop :=
  Mark.Sees isBrace MarkKind.role cs (some mark) ∧ mark.1.Placed cs mark.2

/-- The star of a generator and the blanks around it hold no braces. -/
theorem star_passes (tail : List Char) : Passes isBrace tail (match trimStart tail with
    | '*' :: rest => trimStart rest
    | _ => trimStart tail) := by
  refine (trimStart_passes tail).trans ?_
  split
  · rename_i rest starred
    rw [starred]
    exact (trimStart_passes rest).cons rfl
  · exact .refl _

theorem readFunction?_reads (h : readFunction? before cs = some mark) : Reads cs mark := by
  simp only [readFunction?, Option.bind_eq_bind, Option.bind_eq_some_iff] at h
  obtain ⟨tail, word, h⟩ := h
  have text := wholeWord?_eq_some word
  have front : Passes isBrace cs tail := text ▸ .of_append (plain_word (by decide)) tail
  have shorter : tail.length < cs.length := by
    rw [text, length_append]
    exact Nat.lt_add_of_pos_left (by decide)
  have star := star_passes tail
  have left {rest : List Char} (back : Passes isBrace tail rest) :
      Covers isBrace cs (cs.length - rest.length) :=
    (front.trans back).covers (Nat.lt_of_le_of_lt back.length_le shorter)
  split at h
  · rename_i name rest named
    cases h
    obtain ⟨passes, -, isName⟩ : Passes isBrace _ rest ∧ _ := dollarName?_passes named
    exact ⟨left (star.trans passes), fun n same => Option.some.inj same ▸ isName⟩
  · cases h
    exact ⟨left star, nofun⟩

/-- A keyword with a name covers no braces, and the name is one. -/
theorem named?_covers {word name : String} {length : Nat}
    (plain : ∀ c ∈ word.toList, isBrace c = false)
    (h : named? word before cs = some (name, length)) :
    Covers isBrace cs length ∧ IsName name := by
  simp only [named?, Option.bind_eq_bind, Option.bind_eq_some_iff, Option.pure_def] at h
  obtain ⟨tail, blanks, ⟨name', rest⟩, named, same⟩ := h
  cases same
  obtain ⟨passes, shorter, isName⟩ : Passes isBrace tail rest ∧ _ := dollarName?_passes named
  exact ⟨Mark.covers_named plain blanks passes shorter, isName⟩

/-- The head of a namespace or module, whose name may have dots. -/
theorem readModule?_reads (h : readModule? before cs = some mark) : Reads cs mark := by
  obtain ⟨rest, word, named⟩ := Option.bind_eq_some_iff.mp h
  have front : Passes isBrace cs rest := by
    rcases Option.or_eq_some_iff.mp word with declared | ⟨_, declared⟩ <;>
      exact Mark.wordAndBlanks?_passes (plain_word (by decide)) declared
  split at named
  · rename_i c tail
    split at named
    · rename_i start
      dsimp only at named
      split at named
      · cases named
        have part (d : Char) (is : (isDollarWordChar d || d == '.') = true) : isBrace d = false ∧
            d ∉ idMarks := by
          rcases Bool.or_eq_true_iff.mp is with word | dot
          · exact (plain_part word).imp_right fun free mem => free (mem_cons_of_mem _ mem)
          · obtain rfl := beq_iff_eq.mp dot
            decide
        obtain ⟨back, shorter, free⟩ := passes_word
          (part c (by rw [isDollarWordChar_of_isDollarNameStart start]; rfl)) part tail
        exact ⟨(front.trans back).covers (Nat.lt_of_lt_of_le shorter front.length_le), free⟩
      · cases named
    · cases named
  · cases named

/-- An equals sign is looked for over characters that stop at braces. -/
theorem afterEquals?_passes {stops : Char → Bool} (brace : ∀ c, isBrace c = true → stops c = true)
    (h : afterEquals? stops cs = some rest) : Passes isBrace cs rest := by
  unfold afterEquals? at h
  dsimp only at h
  split at h
  · rename_i tail equals
    have annotated : Passes isBrace cs ('=' :: tail) := by
      rw [← equals]
      refine (trimStart_passes cs).trans ?_
      split
      · rename_i value colon
        rw [colon]
        refine (Passes.dropWhile (fun c inside => ?_) value).cons rfl
        by_contra isBrace
        rw [brace c (by simpa using isBrace)] at inside
        simp at inside
      · exact .refl _
    split at h
    · cases h
    · cases h
      exact annotated.trans ((trimStart_passes tail).cons rfl)
  · cases h

/-- A variable with its value: the mark ends behind the equals sign. -/
theorem readBinding?_reads (h : readBinding? before cs = some mark) : Reads cs mark := by
  simp only [readBinding?, Option.bind_eq_bind, Option.bind_eq_some_iff, Option.pure_def] at h
  obtain ⟨tail, word, ⟨name, rest⟩, named, value, equals, same⟩ := h
  cases same
  have front : Passes isBrace cs tail := by
    simp only [Option.or_eq_some_iff] at word
    rcases word with (declared | ⟨_, declared⟩) | ⟨_, declared⟩ <;>
      exact Mark.wordAndBlanks?_passes (plain_word (by decide)) declared
  obtain ⟨back, shorter, isName⟩ : Passes isBrace tail rest ∧ _ := dollarName?_passes named
  have last : Passes isBrace rest value :=
    afterEquals?_passes (fun c => by simp [isBrace]; tauto) equals
  have whole := (front.trans back).trans last
  have size := front.length_le
  have size' := last.length_le
  refine ⟨whole.covers (by omega), isName, ?_⟩
  change boundValue value = boundValue (cs.drop (cs.length - value.length))
  rw [whole.drop_eq]

/-- The name of a member is read where it starts. -/
theorem memberName?_passes (h : memberName? cs = some (name, start, rest)) :
    start = cs ∧ Passes isBrace cs rest ∧ rest.length < cs.length ∧
      IsName (String.ofList name) := by
  unfold memberName? at h
  split at h
  · rename_i tail
    obtain ⟨⟨name', rest'⟩, named, same⟩ := Option.map_eq_some_iff.mp h
    cases same
    obtain ⟨passes, shorter, isName⟩ : Passes isBrace tail rest ∧ _ := dollarName?_passes named
    refine ⟨rfl, passes.cons rfl, Nat.lt_succ_of_lt shorter, by simp, ?_⟩
    rw [String.toList_ofList]
    exact forall_mem_cons.mpr ⟨by decide, by simpa using isName.2⟩
  · obtain ⟨⟨name', rest'⟩, named, same⟩ := Option.map_eq_some_iff.mp h
    cases same
    exact ⟨rfl, dollarName?_passes named⟩

theorem afterTypeParameters_passes (h : afterTypeParameters cs = some rest) :
    Passes isBrace cs rest := by
  unfold afterTypeParameters at h
  split at h
  · rename_i tail
    dsimp only at h
    split at h
    · rename_i rest closed
      cases h
      have inside : Passes isBrace tail ('>' :: rest) := by
        rw [← closed]
        refine Passes.dropWhile (fun c inside => ?_) tail
        simp only [isBrace]
        simp at inside
        simp [inside]
      exact (inside.trans ((Passes.refl rest).cons rfl)).cons rfl
    · cases h
  · cases h
    exact .refl _

/-- The head of a member: where its name starts, and what is left behind it. -/
def HeadPasses (cs name start rest : List Char) : Prop :=
  Passes isBrace cs start ∧ Passes isBrace start rest ∧ rest.length < start.length ∧
    IsName (String.ofList name)

theorem afterStar_passes (cs : List Char) : Passes isBrace cs (match cs with
    | '*' :: rest => rest
    | _ => cs) := by
  split
  · exact (Passes.refl _).cons rfl
  · exact .refl _

theorem questionMark_passes (tail : List Char) : Passes isBrace tail (match trimStart tail with
    | '?' :: rest => trimStart rest
    | _ => trimStart tail) := by
  refine (trimStart_passes tail).trans ?_
  split
  · rename_i rest marked
    rw [marked]
    exact (trimStart_passes rest).cons rfl
  · exact .refl _

/-- The head of a method: a star, its name, a question mark and type parameters. -/
theorem methodHead?_passes (h : methodHead? cs = some (name, start, rest)) :
    HeadPasses cs name start rest := by
  simp only [methodHead?, Option.bind_eq_bind, Option.bind_eq_some_iff] at h
  obtain ⟨⟨name', start', tail⟩, named, rest', parameters, last⟩ := h
  split at last
  · cases last
    obtain ⟨rfl, passes, shorter, isName⟩ := memberName?_passes named
    have last := (questionMark_passes tail).trans
      ((afterTypeParameters_passes parameters).trans (trimStart_passes rest'))
    exact ⟨(afterStar_passes cs).trans (trimStart_passes _), passes.trans last,
      Nat.lt_of_le_of_lt last.length_le shorter, isName⟩
  · cases last

/-- The head of a field: its name and all up to the equals sign. -/
theorem fieldHead?_passes (h : fieldHead? cs = some (name, start, rest)) :
    HeadPasses cs name start rest := by
  simp only [fieldHead?, Option.bind_eq_bind, Option.bind_eq_some_iff, Option.pure_def] at h
  obtain ⟨⟨name', start', tail⟩, named, value, equals, same⟩ := h
  cases same
  obtain ⟨rfl, passes, shorter, isName⟩ := memberName?_passes named
  have last : Passes isBrace tail rest :=
    afterEquals?_passes (fun c => by simp [isBrace]; tauto) equals
  exact ⟨.refl _, passes.trans last, Nat.lt_of_le_of_lt last.length_le shorter, isName⟩

theorem afterModifier?_passes (h : afterModifier? cs = some rest) : Passes isBrace cs rest := by
  obtain ⟨word, listed, read⟩ := exists_of_findSome?_eq_some h
  obtain ⟨tail, modifier, blanks⟩ := Option.bind_eq_some_iff.mp read
  have plain : ∀ word ∈ modifiers, ∀ c ∈ word.toList, isBrace c = false := by
    have all : modifiers.all (fun word => word.toList.all (!isBracket ·)) = true := by decide
    exact fun word mem => plain_word (all_eq_true.mp all word mem)
  exact (after?_passes (plain word listed) modifier).trans (blanks1?_passes blanks)

/-- Modifiers before a head hold no braces. By induction on the fuel. -/
theorem afterModifiers_passes {α : Type} {p : List Char → Option α} {fuel : Nat}
    {a : α} (h : afterModifiers p fuel cs = some a) :
    ∃ rest, Passes isBrace cs rest ∧ p rest = some a := by
  induction fuel generalizing cs with
  | zero => exact ⟨cs, .refl cs, h⟩
  | succ fuel ih =>
    simp only [afterModifiers] at h
    split at h
    · rename_i tail modifier
      rcases Option.or_eq_some_iff.mp h with later | ⟨_, here⟩
      · obtain ⟨rest, passes, read⟩ := ih later
        exact ⟨rest, (afterModifier?_passes modifier).trans passes, read⟩
      · exact ⟨cs, .refl cs, here⟩
    · exact ⟨cs, .refl cs, h⟩

/-- A head behind modifiers as a mark: it covers no braces, and its name stands in it. -/
theorem HeadPasses.placed {body : List Char} (front : Passes isBrace cs body)
    (h : HeadPasses body name start rest) :
    Covers isBrace cs (cs.length - rest.length) ∧ IsName (String.ofList name) ∧
      cs.length - start.length < cs.length - rest.length ∧
        cs.drop (cs.length - rest.length) = rest := by
  obtain ⟨before, behind, shorter, isName⟩ := h
  have whole := (front.trans before).trans behind
  have size := (front.trans before).length_le
  exact ⟨whole.covers (by omega), isName, by omega, whole.drop_eq⟩

/-- A member of a class, as a method or as a field. -/
theorem readMember?_reads (h : readMember? before cs = some mark) : Reads cs mark := by
  simp only [readMember?] at h
  split at h
  · cases h
  have indent : Passes isBrace cs (cs.dropWhile fun c => c == ' ' || c == '\t') := by
    refine .dropWhile (fun c blank => ?_) cs
    rcases Bool.or_eq_true_iff.mp blank with space | tab
    · obtain rfl := beq_iff_eq.mp space
      rfl
    · obtain rfl := beq_iff_eq.mp tab
      rfl
  split at h
  · rename_i name start rest found
    cases h
    obtain ⟨head, passes, read⟩ := afterModifiers_passes found
    obtain ⟨covers, isName, inside, -⟩ := (methodHead?_passes read).placed (indent.trans passes)
    exact ⟨covers, isName, inside⟩
  split at h
  · rename_i name start rest found
    cases h
    obtain ⟨head, passes, read⟩ := afterModifiers_passes found
    obtain ⟨covers, isName, inside, left⟩ := (fieldHead?_passes read).placed (indent.trans passes)
    exact ⟨covers, isName, inside, by rw [left]⟩
  · cases h

/-- **What is read at a place shows the braces**, and says what stands in the text. -/
theorem readMark_reads (before cs : List Char) :
    match readMark before cs with
    | none => ∀ c ∈ cs.head?, isBrace c = false
    | some mark => Reads cs mark := by
  unfold readMark
  cases function : readFunction? before cs with
  | some mark => exact readFunction?_reads function
  | none =>
  cases cls : named? "class" before cs with
  | some mark => exact named?_covers (plain_word (by decide)) cls
  | none =>
  cases face : named? "interface" before cs with
  | some mark => exact named?_covers (plain_word (by decide)) face
  | none =>
  cases declared : (readModule? before cs).or (readBinding? before cs) with
  | some mark =>
    rcases Option.or_eq_some_iff.mp declared with module | ⟨_, binding⟩
    · exact readModule?_reads module
    · exact readBinding?_reads binding
  | none =>
  cases mem : readMember? before cs with
  | some mark => exact readMember?_reads mem
  | none =>
  cases cs with
  | nil => exact nofun
  | cons c cs =>
  by_cases opener : isOpener c
  · simp only [opener, if_true]
    exact ⟨⟨opener, rfl, rfl⟩, trivial⟩
  by_cases closer : isCloser c
  · simp only [opener, closer, if_true]
    exact ⟨⟨closer, rfl, rfl⟩, trivial⟩
  by_cases semicolon : c == ';'
  · simp only [opener, closer, semicolon, if_true]
    obtain rfl := beq_iff_eq.mp semicolon
    exact ⟨covers_semicolon cs, trivial⟩
  · simp only [opener, closer, semicolon]
    rintro d ⟨⟩
    exact plain_of_no_bracket (by simp [isBracket, opener, closer])

theorem readMark_sees (before cs : List Char) :
    Mark.Sees isBrace MarkKind.role cs (readMark before cs) := by
  have reads := readMark_reads before cs
  cases found : readMark before cs with
  | none =>
    rw [found] at reads
    exact reads
  | some mark =>
    rw [found] at reads
    exact reads.1

end Curly

/-! ### What marks do -/

/-- The characters that the name of a module does not hold. -/
def Family.moduleMarks : Family → List Char
  | .rust => '.' :: idMarks
  | _ => idMarks

def Head.Named (family : Family) : Head → Prop
  | .entry name | .type name => IsName name
  | .implementation _ _ => True
  | .module name => Avoids family.moduleMarks name

namespace BlockState

variable {family : Family} {text : List Char} {lines : LineMap}
  {bind : BlockState → Pending → Nat → Scope}

/-- What a mark that is no bracket does to a state: nothing, or what a semicolon does, or a head
waits, a function word gets the name of a binding or takes it up, or an arrow function is closed. -/
inductive Notes (family : Family) (text : List Char) (s : BlockState) (start stop : Nat) :
    BlockState → Prop
  | pass : Notes family text s start stop s
  | semicolon : Notes family text s start stop s.semicolon
  | wait {p : Pending} : p.head.Named family → p.declOffset < stop →
      Notes family text s start stop { s with pending := some p }
  | bind {b : Nat × String × Nat × List Tag} : IsName b.2.1 → b.2.2.1 < stop →
      Notes family text s start stop { s with bound := b :: s.bound }
  | resume {name : String} {declAt : Nat} {tags : List Tag} :
      (start, name, declAt, tags) ∈ s.bound →
      Notes family text s start stop { s with
        pending := some ⟨.entry name, declAt, s.paren, tags, none⟩
        bound := s.bound.filter (·.1 != start) }
  | arrow {d : Declaration} {body last : Nat} : family = .curly → IsName d.bareName →
      d.qualifiedName = qualify "." s.scopes d.bareName →
      d.declOffset < stop → d.bodyOffset = stop + body →
      Curly.boundValue (text.drop stop) = .arrowExpression body last →
        Notes family text s start stop (s.close d (stop + last))

/-- What a mark does to a state. A bracket is a mark of its own, and other marks cover no brace. -/
inductive Takes (family : Family) (text : List Char) (bind : BlockState → Pending → Nat → Scope)
    (lines : LineMap) (s : BlockState) (start : Nat) : Option Char → Nat → BlockState → Prop
  | opener {c : Char} : isOpener c = true → text.drop start = c :: text.drop (start + 1) →
      Takes family text bind lines s start (some c) (start + 1) (s.openBracket bind c start)
  | closer {c : Char} : isCloser c = true → text.drop start = c :: text.drop (start + 1) →
      Takes family text bind lines s start (some c) (start + 1) (s.closeBracket lines c start)
  | other {stop : Nat} {s' : BlockState} : start ≤ stop → stop ≤ text.length →
      Passes isBrace (text.drop start) (text.drop stop) → Notes family text s start stop s' →
      Takes family text bind lines s start none stop s'

/-- A scanner of a brace family: it sees the braces of a text and takes marks one after the
other. -/
structure Scans {κ : Type} (family : Family) (bind : BlockState → Pending → Nat → Scope)
    (lines : LineMap) (role : κ → Mark.Role) (read : List Char → List Char → Option (κ × Nat))
    (step : BlockState → Mark κ → BlockState) :
    Prop where
  sees : ∀ before cs, Mark.Sees isBrace role cs (read before cs)
  steps : ∀ (text : List Char) (s : BlockState) (m : Mark κ), m.start < m.stop →
    read m.before (text.drop m.start) = some (m.kind, m.stop - m.start) →
    match role m.kind with
    | .opener c => step s m = s.openBracket bind c m.start
    | .closer c => step s m = s.closeBracket lines c m.start
    | .other => Notes family text s m.start m.stop (step s m)

section

variable {κ : Type} {role : κ → Mark.Role} {read : List Char → List Char → Option (κ × Nat)}
  {step : BlockState → Mark κ → BlockState} (h : Scans family bind lines role read step)
include h

theorem Scans.takes {m : Mark κ} (here : m.start < m.stop ∧ m.stop ≤ text.length ∧
      read m.before (text.drop m.start) = some (m.kind, m.stop - m.start)) (s : BlockState) :
    Takes family text bind lines s m.start (role m.kind).bracket? m.stop (step s m) := by
  obtain ⟨positive, inside, found⟩ := here
  have seen := h.sees m.before (text.drop m.start)
  have stepped := h.steps text s m positive found
  have single {c : Char} (one : m.stop - m.start = 1) (head : (text.drop m.start).head? = some c) :
      m.stop = m.start + 1 ∧ text.drop m.start = c :: text.drop (m.start + 1) := by
    obtain ⟨rest, here⟩ := head?_eq_some_iff.mp head
    rw [← drop_drop, here]
    exact ⟨by omega, rfl⟩
  rw [found] at seen
  dsimp only [Mark.Sees] at seen
  cases is : role m.kind with
  | opener c =>
    rw [is] at seen stepped
    obtain ⟨stop, here⟩ := single seen.2.1 seen.2.2
    rw [stop, stepped]
    exact .opener seen.1 here
  | closer c =>
    rw [is] at seen stepped
    obtain ⟨stop, here⟩ := single seen.2.1 seen.2.2
    rw [stop, stepped]
    exact .closer seen.1 here
  | other =>
    rw [is] at seen stepped
    have passes := seen.2.2
    rw [drop_drop, Nat.add_sub_cancel' positive.le] at passes
    exact .other positive.le inside passes stepped

/-- The marks of a scanner tile the text with no braces in the gaps. -/
theorem Scans.tiles (text : List Char) : Mark.Tiles isBrace read text 0 (Mark.scan read text) :=
  Mark.scan_tiles h.sees (Mark.Sees.unmarked h.sees) text

/-- **What gaps keep and marks keep holds at the end of the text**, for any scanner of a brace
family. -/
theorem Scans.foldl {P : Nat → BlockState → Prop}
    (pass : ∀ {pos s}, P pos s → ∀ {pos'}, pos ≤ pos' → pos' ≤ text.length →
      Passes isBrace (text.drop pos) (text.drop pos') → P pos' s)
    (keeps : ∀ {s start bracket stop s'},
      P start s → Takes family text bind lines s start bracket stop s' → P stop s')
    (init : P 0 {}) : P text.length ((Mark.scan read text).foldl step {}) := by
  refine (h.tiles text).foldl (P := P) pass (fun s m positive inside found before => ?_)
    (Nat.zero_le _) init
  exact keeps before (h.takes ⟨positive, inside, found⟩ s)

end

end BlockState

namespace Rust

variable {before cs : List Char} {name : String} {n : Nat}

def MarkKind.Named : MarkKind → Prop
  | .function name | .trait name | .module name => IsName name
  | _ => True

theorem named?_isName {word : String} (h : named? word before cs = some (name, n)) :
    IsName name := by
  simp only [named?, Option.bind_eq_bind, Option.bind_eq_some_iff, Option.pure_def] at h
  obtain ⟨_, _, ⟨_, _⟩, named, same⟩ := h
  cases same
  exact name?_isName named

/-- The names in the marks of a Rust text are names. -/
theorem readMark_named {kind : MarkKind} (h : readMark before cs = some (kind, n)) :
    kind.Named := by
  unfold readMark at h
  repeat' split at h
  all_goals cases h
  all_goals first
    | exact trivial
    | exact named?_isName (by assumption)

theorem scans (lines : LineMap) :
    BlockState.Scans .rust bind lines MarkKind.role readMark (step lines) := by
  refine ⟨readMark_sees, fun text s m positive found => ?_⟩
  have named := readMark_named found
  unfold step
  generalize m.kind = kind at named
  cases kind with
  | function name | implementation isItem rest =>
    dsimp only [MarkKind.role]
    split
    · exact .wait named positive
    · exact .pass
  | trait name | module name => exact .wait named positive
  | opener c | closer c => rfl
  | semicolon => exact .semicolon

end Rust

namespace Curly

variable {text : List Char} {name : String} {declAt start stop : Nat}

/-- What the value of a binding does: a function waits, an arrow function with an expression is
closed, and anything else is passed. -/
theorem bindValue_notes (s : BlockState) (isName : IsName name) (before : declAt < stop)
    (tags : List Tag) :
    BlockState.Notes .curly text s start stop
      (bindValue s name declAt stop tags (boundValue (text.drop stop))) := by
  cases value : boundValue (text.drop stop) with
  | other => exact .pass
  | function offset => exact .bind isName before
  | arrowBlock brace => exact .wait isName before
  | arrowExpression body last => exact .arrow rfl isName rfl before rfl value

/-- The scanner of TypeScript and JavaScript source. -/
theorem scans (lines : LineMap) :
    BlockState.Scans .curly bind lines MarkKind.role readMark (step lines) := by
  refine ⟨readMark_sees, fun text s m positive found => ?_⟩
  have reads := readMark_reads m.before (text.drop m.start)
  rw [found] at reads
  have placed : m.kind.Placed (text.drop m.start) (m.stop - m.start) := reads.2
  have behind : (text.drop m.start).drop (m.stop - m.start) = text.drop m.stop := by
    rw [drop_drop, Nat.add_sub_cancel' positive.le]
  unfold step
  generalize m.kind = kind at placed
  cases kind with
  | function name =>
    dsimp only [MarkKind.role]
    split
    · rename_i known
      obtain ⟨front, back, split, -⟩ := lookup_eq_some_iff.mp known
      exact .resume (by simp [split])
    · split
      · exact .wait (placed _ rfl) positive
      · exact .pass
  | classHead name | interfaceHead name | module name => exact .wait placed positive
  | binding name value =>
    obtain ⟨isName, rfl⟩ := placed
    rw [behind]
    exact bindValue_notes s isName positive _
  | member name nameOffset tags =>
    obtain ⟨isName, before⟩ := placed
    dsimp only [MarkKind.role]
    split
    · exact .wait isName (Nat.add_lt_of_lt_sub' before)
    · exact .pass
  | field name nameOffset tags value =>
    obtain ⟨isName, before, rfl⟩ := placed
    rw [behind]
    dsimp only [MarkKind.role]
    split
    · exact bindValue_notes s isName (Nat.add_lt_of_lt_sub' before) _
    · exact .pass
  | opener c | closer c => rfl
  | semicolon => exact .semicolon

end Curly

end CodeAtlas
