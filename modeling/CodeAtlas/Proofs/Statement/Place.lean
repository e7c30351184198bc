import CodeAtlas.Proofs.Text.Reading
import CodeAtlas.Statement.Brace

/-!
Places in a body in braces.

A reader of a body goes from place to place (`Cursor.Leads`), and never stops inside of a word:
every length that it goes on by ends at an edge (`statementLength_edge`, `conditionLength_edge`,
`matching?_eq_some`). So where a body does not hold the identifier `switch`, the word at no place
that can be reached is `switch` (`Cursor.Plain`), also in the blocks of the body
(`Cursor.Plain.limit`).
-/

namespace CodeAtlas

open List Text

/-! ### Lengths -/

namespace Text

variable {cs : List Char} {n : Nat}

/-- A mark that is found behind a character is found in the whole text. -/
theorem mark_cons {distance : Option Nat} {mark : Char}
    (later : ∀ {n}, distance = some n → ∃ pre post, cs = pre ++ mark :: post ∧ pre.length = n)
    {c : Char} (h : distance.map (· + 1) = some n) :
    ∃ pre post, c :: cs = pre ++ mark :: post ∧ pre.length = n := by
  obtain ⟨m, found, rfl⟩ := Option.map_eq_some_iff.mp h
  obtain ⟨pre, post, rfl, rfl⟩ := later found
  exact ⟨c :: pre, post, rfl, rfl⟩

theorem closerDistance_eq_some {opener closer : Char} {depth : Nat}
    (h : closerDistance opener closer depth cs = some n) :
    ∃ pre post, cs = pre ++ closer :: post ∧ pre.length = n := by
  induction cs generalizing depth n with
  | nil => cases h
  | cons c cs ih =>
    unfold closerDistance at h
    split at h
    · exact mark_cons ih h
    · split at h
      · rename_i here
        split at h
        · cases h
          exact ⟨[], cs, by simpa using here, rfl⟩
        · exact mark_cons ih h
      · exact mark_cons ih h

/-- An opener and its closer, with what stands between them. -/
theorem matching?_eq_some (h : matching? cs = some n) :
    ∃ opener closer pre post, isOpener opener = true ∧ isCloser closer = true ∧
      cs = opener :: pre ++ closer :: post ∧ n = pre.length + 1 := by
  cases cs with
  | nil => cases h
  | cons c cs =>
    obtain ⟨closer, kind, found⟩ := Option.bind_eq_some_iff.mp h
    have kinds : isOpener c = true ∧ isCloser closer = true := by
      unfold closerOf? at kind
      split at kind
      · cases kind
        simp_all [isOpener, isCloser]
      · split at kind
        · cases kind
          simp_all [isOpener, isCloser]
        · split at kind
          · cases kind
            simp_all [isOpener, isCloser]
          · cases kind
    simp only [closerDistance, beq_self_eq_true, if_true] at found
    obtain ⟨m, inside, rfl⟩ := Option.map_eq_some_iff.mp found
    obtain ⟨pre, post, rfl, rfl⟩ := closerDistance_eq_some inside
    exact ⟨c, closer, pre, post, kinds.1, kinds.2, rfl, rfl⟩

theorem matching?_edge (h : matching? cs = some n) : Edge cs (n + 1) := by
  obtain ⟨opener, closer, pre, post, _, closes, rfl, rfl⟩ := matching?_eq_some h
  exact edge_after (opener :: pre) post (isDollarWordChar_of_isCloser closes)

/-- A mark outside of brackets stands where it is found. -/
theorem topLevelDistance?_eq_some {mark : Char} {depth : Int}
    (h : topLevelDistance? mark depth cs = some n) :
    ∃ pre post, cs = pre ++ mark :: post ∧ pre.length = n := by
  induction cs generalizing depth n with
  | nil => cases h
  | cons c cs ih =>
    unfold topLevelDistance? at h
    split at h
    · exact mark_cons ih h
    · split at h
      · exact mark_cons ih h
      · split at h
        · rename_i here
          cases h
          simp only [Bool.and_eq_true, beq_iff_eq] at here
          exact ⟨[], cs, by simp [here.1], rfl⟩
        · exact mark_cons ih h

theorem statementLength_edge (depth : Nat) (last : Option Char) (cs : List Char) :
    Edge cs (statementLength depth last cs) := by
  induction cs generalizing depth last with
  | nil => exact edge_length []
  | cons c cs ih =>
    unfold statementLength
    split
    · exact (ih _ _).succ
    · split
      · rename_i closer
        have plain := isDollarWordChar_of_isCloser closer
        split
        · exact edge_zero (by simpa using plain)
        · split
          · exact edge_after [] cs plain
          · exact (ih _ _).succ
      · split
        · rename_i semicolon
          have here : c = ';' := by
            simp only [Bool.and_eq_true, beq_iff_eq] at semicolon
            exact semicolon.2
          exact edge_after [] cs (by rw [here]; decide)
        · split
          · rename_i feed
            have here : c = '\n' := by
              simp only [Bool.and_eq_true, beq_iff_eq] at feed
              exact feed.1.2
            refine edge_zero ?_
            rw [here]
            simp only [head?_cons, Option.mem_some_iff, forall_eq']
            decide
          · exact (ih _ _).succ

/-- A statement that does not start at a closer is not empty. -/
theorem statementLength_pos {c : Char} (cs : List Char) (notCloser : isCloser c = false) :
    0 < statementLength 0 none (c :: cs) := by
  unfold statementLength
  split
  · exact Nat.succ_pos _
  · rw [if_neg (by simp [notCloser])]
    split
    · exact Nat.one_pos
    · rw [if_neg (by simp [endsAtNewline])]
      exact Nat.succ_pos _

end Text

namespace Brace

theorem conditionLength_edge (depth : Int) (cs : List Char) :
    Text.Edge cs (conditionLength depth cs).1 := by
  induction cs generalizing depth with
  | nil => exact edge_length []
  | cons c cs ih =>
    unfold conditionLength
    split
    · exact (ih _).succ
    · split
      · exact (ih _).succ
      · split
        · rename_i brace
          have here : c = '{' := by
            simp only [Bool.and_eq_true, beq_iff_eq] at brace
            exact brace.1
          refine edge_zero ?_
          rw [here]
          simp only [head?_cons, Option.mem_some_iff, forall_eq']
          decide
        · split
          · rename_i stop
            simp only [Bool.and_eq_true, Bool.or_eq_true, beq_iff_eq] at stop
            refine edge_zero ?_
            simp only [head?_cons, Option.mem_some_iff, forall_eq']
            rcases stop.1 with rfl | rfl <;> decide
          · exact (ih _).succ

end Brace

/-! ### From place to place -/

namespace Cursor

variable {c next : Cursor} {d : Char}

/-- The place `next` is `c` or a later place of the same block that is not inside of a word. -/
def Leads (c next : Cursor) : Prop :=
  ∃ taken, c.code = taken ++ next.code ∧ next.offset = c.offset + taken.length ∧
    (taken = [] ∨ Text.Apart taken next.code)

theorem Leads.refl (c : Cursor) : c.Leads c :=
  ⟨[], rfl, rfl, .inl rfl⟩

theorem Leads.trans {a b : Cursor} (first : a.Leads b) (second : b.Leads c) : a.Leads c := by
  obtain ⟨taken, code, offset, apart⟩ := first
  obtain ⟨taken', code', offset', apart'⟩ := second
  refine ⟨taken ++ taken', by rw [code, code', append_assoc], ?_, ?_⟩
  · rw [offset', offset, length_append, Nat.add_assoc]
  · rcases apart' with rfl | apart'
    · rw [append_nil]
      rw [nil_append] at code'
      rwa [← code']
    · exact .inr (apart'.append_left taken)

theorem Leads.offset_le (h : c.Leads next) : c.offset ≤ next.offset := by
  obtain ⟨taken, _, offset, _⟩ := h
  omega

/-- All places of a block have the same end. -/
theorem Leads.stop_eq (h : c.Leads next) :
    next.offset + next.code.length = c.offset + c.code.length := by
  obtain ⟨taken, code, offset, _⟩ := h
  rw [code, offset, length_append, Nat.add_assoc]

theorem advance_leads {n : Nat} (edge : Text.Edge c.code n) : c.Leads (c.advance n) := by
  obtain ⟨pre, post, code, rfl, apart⟩ := edge
  have rest : (c.advance pre.length).code = post := by simp [advance, code]
  refine ⟨pre, by rw [rest, code], rfl, ?_⟩
  rw [rest]
  exact .inr apart

@[simp] theorem advance_offset (c : Cursor) (n : Nat) : (c.advance n).offset = c.offset + n := rfl

@[simp] theorem advance_code (c : Cursor) (n : Nat) : (c.advance n).code = c.code.drop n := rfl

theorem toEnd_leads (c : Cursor) : c.Leads c.toEnd :=
  advance_leads (edge_length c.code)

theorem skipBlanks_code (c : Cursor) : c.skipBlanks.code = trimStart c.code := by
  have parts := takeWhile_append_dropWhile (p := isBlank) (l := c.code)
  calc c.code.drop (c.code.takeWhile isBlank).length =
    (c.code.takeWhile isBlank ++ c.code.dropWhile isBlank).drop
          (c.code.takeWhile isBlank).length := by rw [parts]
    _ = trimStart c.code := drop_left

theorem skipBlanks_leads (c : Cursor) : c.Leads c.skipBlanks := by
  refine ⟨c.code.takeWhile isBlank, ?_, rfl, ?_⟩
  · rw [skipBlanks_code]
    exact takeWhile_append_dropWhile.symm
  · cases last : (c.code.takeWhile isBlank).getLast? with
    | none => exact .inl (getLast?_eq_none_iff.mp last)
    | some d =>
      have blank := mem_takeWhile_imp (mem_of_getLast? last)
      exact .inr (.inl ⟨d, last, isDollarWordChar_of_isBlank blank⟩)

theorem skipBlanks_skipBlanks (c : Cursor) : c.skipBlanks.skipBlanks = c.skipBlanks := by
  have none : c.skipBlanks.code.takeWhile isBlank = [] := by
    rw [skipBlanks_code]
    cases rest : trimStart c.code with
    | nil => rfl
    | cons d cs =>
      have first := head?_dropWhile_not isBlank c.code
      unfold trimStart at rest
      rw [rest] at first
      simpa using first
  conv_lhs => rw [skipBlanks, none]
  rfl

theorem code_of_head? (h : c.head? = some d) : ∃ cs, c.code = d :: cs :=
  head?_eq_some_iff.mp h

theorem length_pos_of_head? (h : c.head? = some d) : 0 < c.code.length := by
  obtain ⟨cs, code⟩ := code_of_head? h
  simp [code]

/-- A word at a place ends at an edge, and the place behind it is one to go to. -/
theorem word_leads (some : c.word ≠ "") : c.Leads (c.advance c.word.length) := by
  refine advance_leads ?_
  unfold word at some ⊢
  cases read : dollarName? c.code with
  | none =>
    rw [read] at some
    exact absurd rfl some
  | some found =>
    simpa [String.length_ofList] using edge_name read

/-- Behind a character that is no part of a word one may go on. -/
theorem advance_one_leads (here : c.head? = some d) (plain : isDollarWordChar d = false) :
    c.Leads (c.advance 1) := by
  obtain ⟨cs, code⟩ := code_of_head? here
  refine advance_leads ?_
  rw [code]
  exact edge_after [] cs plain

/-! ### Bodies without a switch -/

/-- The word `switch` stands at no place that can be reached. -/
def Plain (c : Cursor) : Prop :=
  ∀ next, c.Leads next → next.word ≠ "switch"

/-- Later places have no switch behind them either. -/
theorem Plain.of_leads (h : c.Plain) (leads : c.Leads next) : next.Plain :=
  fun last later => h last (leads.trans later)

/-- A block that ends before a closer has no more places than the text around it. -/
theorem Plain.limit (h : c.Plain) {pre post : List Char}
    (code : c.code = pre ++ d :: post) (plain : isDollarWordChar d = false) :
    (c.limit pre.length).Plain := by
  intro next leads same
  have inner : (c.limit pre.length).code = pre := by simp [Cursor.limit, code]
  obtain ⟨taken, cut, offset, apart⟩ := leads
  rw [inner] at cut
  have ends : ∀ e ∈ (d :: post).head?, isDollarWordChar e = false := by simpa using plain
  cases read : dollarName? next.code with
  | none =>
    simp only [word, read] at same
    exact absurd same (by decide)
  | some found =>
    obtain ⟨name, rest⟩ := found
    have around : c.Leads { next with code := next.code ++ d :: post } := by
      refine ⟨taken, by simp [code, cut], offset, ?_⟩
      rcases apart with none | last | plain'
      · exact .inl none
      · exact .inr (.inl last)
      · obtain ⟨whole, some, _⟩ := dollarName?_eq_some read
        refine .inr (.inr ?_)
        cases name with
        | nil => exact absurd rfl some
        | cons e name => simpa [whole] using plain'
    apply h _ around
    simp only [word, dollarName?_append read ends]
    simpa only [word, read] using same

end Cursor

def hasIdentifier (name : String) (cs : List Char) : Bool :=
  Text.anyPlace (fun before rest => !before.any isDollarWordChar &&
    (Text.dollarName? rest).any (·.1 == name.toList)) cs

/-- A text without the identifier `switch` has the word at no place. -/
theorem Cursor.plain_of_hasIdentifier {c : Cursor} (h : hasIdentifier "switch" c.code = false) :
    c.Plain := by
  rintro next ⟨taken, code, _, apart⟩ same
  cases read : dollarName? next.code with
  | none =>
    simp only [Cursor.word, read] at same
    exact absurd same (by decide)
  | some found =>
    obtain ⟨name, rest⟩ := found
    have spelled : name = "switch".toList := by
      simp only [Cursor.word, read] at same
      rw [← same, String.toList_ofList]
    obtain ⟨whole, some, letters, _⟩ := dollarName?_eq_some read
    have before : taken.getLast?.any isDollarWordChar = false := by
      rcases apart with rfl | ⟨d, last, plain⟩ | plain
      · rfl
      · simp [Option.mem_def.mp last, plain]
      · subst spelled
        exact absurd (plain 's' (by rw [whole]; rfl)) (by decide)
    have none := anyPlace_eq_false h taken next.code code
    simp [before, read, spelled] at none

end CodeAtlas
