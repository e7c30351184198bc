import CodeAtlas.Proofs.Statement.Place
import CodeAtlas.Proofs.Statement.Reading

/-!
Where the statements of a body in braces lie.

With enough fuel for the characters that are left, every function of the descent ends by itself and
reads statements in the block (`Brace.Enough`), and with more fuel it reads the same
(`Brace.Refined`). Both are kept from one unit of fuel to the next, so they hold for a whole body
(`Brace.statements_agree`). Bodies with a `switch` are left out: a switch can get stuck.
-/

set_option mvcgen.warning false

namespace CodeAtlas.Brace

open Std.Do Reading List Text

variable {rust : Bool} {n n' lo hi : Nat} {c next : Cursor} {m : Nat} {d : Char}
  {pattern rest : List Char}

/-! ### Places -/

attribute [grind →] Cursor.Leads.offset_le Cursor.Leads.stop_eq Cursor.Leads.trans
  Cursor.length_pos_of_head?
attribute [grind .] Cursor.Leads.refl
attribute [grind! .] Cursor.skipBlanks_leads Cursor.toEnd_leads
attribute [grind =] Cursor.advance_offset

/-- A place from which no switch is read: Rust has none, and elsewhere there is none. -/
def Calm (rust : Bool) (c : Cursor) : Prop :=
  rust = true ∨ c.Plain

theorem Calm.of_leads (h : Calm rust c) (leads : c.Leads next) : Calm rust next :=
  h.imp id fun plain => plain.of_leads leads

/-- The word `switch` stands at a calm place only in Rust. -/
theorem Calm.word (h : Calm rust c) (here : c.word = "switch") : rust = true :=
  h.resolve_right fun plain => plain c (.refl c) here

/-- A place from which no switch is read, in a block between two offsets. -/
structure Lies (rust : Bool) (lo hi : Nat) (c : Cursor) : Prop where
  calm : Calm rust c
  lo_le : lo ≤ c.offset
  le_hi : c.offset + c.code.length ≤ hi

attribute [grind →] Lies.lo_le Lies.le_hi

@[grind →] theorem Lies.of_leads (h : Lies rust lo hi c) (leads : c.Leads next) :
    Lies rust lo hi next := by
  obtain ⟨calm, below, above⟩ := h
  have later := leads.offset_le
  have size := leads.stop_eq
  exact ⟨calm.of_leads leads, by omega, by omega⟩

/-- The block behind an opener, up to its closer. -/
theorem Calm.inside (h : Calm rust c) (found : matching? c.code = some m) :
    Calm rust ((c.limit m).advance 1) ∧ ((c.limit m).advance 1).code.length + 2 ≤
      c.code.length := by
  obtain ⟨opener, closer, pre, post, opens, closes, code, rfl⟩ := matching?_eq_some found
  have limited : (c.limit (pre.length + 1)).code = opener :: pre := by
    simp [Cursor.limit, code]
  refine ⟨h.imp id fun plain => ?_, by simp [limited, code]⟩
  have inner := plain.limit code (isDollarWordChar_of_isCloser closes)
  exact inner.of_leads (Cursor.advance_one_leads (by rw [Cursor.head?, length_cons, limited]; rfl)
    (isDollarWordChar_of_isOpener opens))

/-- The block behind an opener lies between the same offsets, and is two characters shorter. -/
theorem Lies.inside (h : Lies rust lo hi c) (found : matching? c.code = some m) :
    Lies rust lo hi ((c.limit m).advance 1) ∧ ((c.limit m).advance 1).code.length + 2 ≤
      c.code.length := by
  obtain ⟨calm, smaller⟩ := h.calm.inside found
  obtain ⟨_, below, above⟩ := h
  refine ⟨⟨calm, Nat.le_succ_of_le below, ?_⟩, smaller⟩
  rw [Cursor.advance_offset, show (c.limit m).offset = c.offset from rfl]
  omega

/-- In Rust any place that is not at the end may be gone to. -/
theorem Lies.advance (h : Lies rust lo hi c) (isRust : rust = true) {k : Nat}
    (some : (c.advance k).code ≠ []) :
    Lies rust lo hi (c.advance k) := by
  obtain ⟨_, below, above⟩ := h
  have inside : k < c.code.length := by simpa using some
  refine ⟨.inl isRust, ?_, ?_⟩ <;>
    simp only [Cursor.advance_offset, Cursor.advance_code, length_drop] <;> omega

@[grind →] theorem closer_leads (found : matching? c.code = some m) : c.Leads (c.advance (m + 1)) :=
  Cursor.advance_leads (matching?_edge found)

/-- Reading may go on behind a character that is no part of a word. -/
theorem mark_leads (plain : isDollarWordChar d = false) (here : c.head? = some d) :
    c.Leads (c.advance 1) :=
  Cursor.advance_one_leads here plain

theorem keyword_leads {word : String} (some : word ≠ "") (here : c.word = word) :
    c.Leads (c.advance word.length) :=
  here ▸ Cursor.word_leads (here ▸ some)

/-- Behind a keyword fewer characters are left. -/
theorem behind_keyword {place : Cursor} (leads : c.Leads place) (some : place.word ≠ "") :
    c.Leads (place.advance place.word.length) ∧ place.offset <
      (place.advance place.word.length).offset ∧
      (place.advance place.word.length).code.length < c.code.length := by
  have onward := leads.trans (Cursor.word_leads some)
  have size := onward.stop_eq
  have later := leads.offset_le
  have pos : place.word.length ≠ 0 := by simpa [String.length_eq_zero_iff] using some
  rw [Cursor.advance_offset] at size ⊢
  exact ⟨onward, by omega, by omega⟩

theorem skipBlanks_of_brace (here : c.head? = some '{') : c.skipBlanks = c := by
  obtain ⟨cs, code⟩ := Cursor.code_of_head? here
  have none : c.code.takeWhile isBlank = [] := by
    rw [code]
    exact takeWhile_cons_of_neg (by decide)
  rw [Cursor.skipBlanks, none]
  rfl

theorem arrow_leads (cut : cutAt? ['=', '>'] c.code = some (pattern, rest)) :
    c.Leads (c.advance (pattern.length + 2)) := by
  refine Cursor.advance_leads ?_
  have code := cutAt?_eq_some cut
  have edge := edge_after (c := '>') (pattern ++ ['=']) rest (by decide)
  rw [code]
  simpa using edge

/-- An arm takes two characters at least, those of its arrow. -/
theorem arm_leads (cut : cutAt? ['=', '>'] c.skipBlanks.code = some (pattern, rest)) :
    c.code ≠ [] ∧ c.Leads (c.skipBlanks.advance (pattern.length + 2)).skipBlanks ∧
      c.offset + 2 ≤ (c.skipBlanks.advance (pattern.length + 2)).skipBlanks.offset := by
  have skip := c.skipBlanks_leads
  have leads := skip.trans (arrow_leads cut)
  have later := (c.skipBlanks.advance (pattern.length + 2)).skipBlanks_leads
  have first := skip.offset_le
  have second := later.offset_le
  rw [Cursor.advance_offset] at second
  refine ⟨?_, leads.trans later, by omega⟩
  intro none
  have size := (leads.trans later).stop_eq
  rw [none] at size
  simp at size
  omega

/-- Reading may go on at the next comma outside of brackets, or at the end. -/
theorem comma_leads (c : Cursor) :
    c.Leads (c.advance ((topLevelDistance? ',' 0 c.code).getD c.code.length)) := by
  refine Cursor.advance_leads ?_
  cases found : topLevelDistance? ',' 0 c.code with
  | none => exact edge_length _
  | some m =>
    obtain ⟨pre, post, code, rfl⟩ := topLevelDistance?_eq_some found
    rw [code]
    refine edge_before pre ?_
    simp only [head?_cons, Option.mem_some_iff, forall_eq']
    decide

/-! ### Parts of statements -/

/-- A condition is read without getting stuck. -/
theorem condition_ends (rust : Bool) (c : Cursor) :
    Ends (condition rust c) True fun r => c.Leads r.2 := by
  have short := Cursor.advance_leads (conditionLength_edge 0 c.skipBlanks.code)
  unfold condition
  mvcgen [warn] <;> grind -linarith

theorem loopLabel?_eq_some {label : String} (h : loopLabel? c = some (label, next)) :
    c.Leads next ∧ c.offset < next.offset := by
  simp only [loopLabel?, Option.bind_eq_bind, Option.bind_eq_some_iff] at h
  obtain ⟨⟨name, rest⟩, named, rest', colon, h⟩ := h
  split at h
  · cases h
  · split at h
    · cases h
      have front : ∃ front, c.code = front ++ (name ++ rest) := by
        obtain ⟨cut, _⟩ := dollarName?_eq_some named
        rw [← cut]
        split
        · rename_i tail quoted
          exact ⟨['\''], quoted⟩
        · exact ⟨[], rfl⟩
      obtain ⟨front, code⟩ := front
      have before := takeWhile_append_dropWhile (p := isBlank) (l := rest)
      have after := takeWhile_append_dropWhile (p := isBlank) (l := rest')
      have mark : rest.dropWhile isBlank = ':' :: rest' := after?_eq_some_iff.mp colon
      have whole :
          c.code = (front ++ name ++ rest.takeWhile isBlank ++ ':' :: rest'.takeWhile isBlank)
          ++ trimStart rest' := by
        rw [code]
        conv_lhs => rw [← before, mark, ← after]
        simp [trimStart]
      have distance : c.code.length - (trimStart rest').length =
          (front ++ name ++ rest.takeWhile isBlank ++ ':' :: rest'.takeWhile isBlank).length := by
        rw [whole, length_append]
        omega
      rw [distance]
      have some : c.offset < c.offset +
          (front ++ name ++ rest.takeWhile isBlank ++ ':' :: rest'.takeWhile isBlank).length := by
        rw [length_append, length_cons]
        omega
      refine ⟨Cursor.advance_leads ⟨_, _, whole, rfl, ?_⟩, some⟩
      left
      cases last : (rest'.takeWhile isBlank).getLast? with
      | none =>
        rw [getLast?_eq_none_iff.mp last]
        exact ⟨':', by simp, by decide⟩
      | some d =>
        have blank := mem_takeWhile_imp (mem_of_getLast? last)
        refine ⟨d, ?_, isDollarWordChar_of_isBlank blank⟩
        rw [getLast?_append, getLast?_cons, last]
        rfl
    · cases h

/-- Where a label may stand, it is read or nothing is. -/
theorem label_leads (c : Cursor) {label : Option String} (h : (match loopLabel? c with
      | some (label, c) => (some label, c)
      | none => (none, c)) = (label, next)) :
    c.Leads next ∧ (next = c ∨ c.offset < next.offset) := by
  cases found : loopLabel? c with
  | none =>
    rw [found] at h
    cases h
    exact ⟨.refl _, .inl rfl⟩
  | some pair =>
    rw [found] at h
    cases h
    exact ⟨(loopLabel?_eq_some found).1, .inr (loopLabel?_eq_some found).2⟩

/-- A statement that is not compound takes a character, unless a closer stands at its start. -/
theorem simpleStatement_reads (h : Lies rust lo hi c) : c.Leads (simpleStatement rust c).2 ∧
    Stmt.InBounds lo hi [(simpleStatement rust c).1] ∧
    ∀ d, c.head? = some d → isCloser d = false → c.offset < (simpleStatement rust c).2.offset := by
  have leads := Cursor.advance_leads (statementLength_edge 0 none c.code)
  refine ⟨leads, ?_, fun d here notCloser => ?_⟩
  · have := h.lo_le
    have := (h.of_leads leads).le_hi
    simp only [simpleStatement, Stmt.every_toStmt, Stmt.inside_iff, SimpleKind.span_toStmt]
    simp only [Cursor.advance_offset] at this
    omega
  · obtain ⟨cs, code⟩ := Cursor.code_of_head? here
    have pos := statementLength_pos cs notCloser
    simp only [simpleStatement, Cursor.advance_offset, code]
    omega

/-- Reading goes on behind a place, unless a closer stands there. -/
def Proceeds (c next : Cursor) : Prop :=
  ∀ d, c.skipBlanks.head? = some d → isCloser d = false → c.skipBlanks.offset < next.offset

/-- A statement that takes nothing stands at a closer, which is passed over. -/
theorem Proceeds.on (here : c.skipBlanks.head? = some d) (leads : c.skipBlanks.Leads next)
    (proceeds : Proceeds c.skipBlanks next) :
    c.skipBlanks.Leads (if next.offset ≤ c.skipBlanks.offset
      then c.skipBlanks.advance 1 else next) ∧
      c.skipBlanks.offset <
        (if next.offset ≤ c.skipBlanks.offset then c.skipBlanks.advance 1 else next).offset := by
  split
  · rename_i none
    have closer : isCloser d = true := by
      by_contra notCloser
      have := proceeds d (by rw [Cursor.skipBlanks_skipBlanks]; exact here)
        (by simpa using notCloser)
      rw [Cursor.skipBlanks_skipBlanks] at this
      omega
    exact ⟨mark_leads (isDollarWordChar_of_isCloser closer) here, by simp⟩
  · exact ⟨leads, by omega⟩

/-! ### Enough fuel -/

abbrev Compound (rust : Bool) (lo hi n start : Nat) (c : Cursor)
    (m : Reading (Stmt × Cursor)) : Prop :=
  Ends m (Lies rust lo hi c ∧ lo ≤ start ∧ start ≤ c.offset ∧ 8 * c.code.length + 8 ≤ n) fun r =>
    c.Leads r.2 ∧ Stmt.InBounds lo hi [r.1]

/-- With fuel `n` everything is read to its end, and in the block. Each function needs eight units
for each character that is left, and some more to reach the next function that takes a character. -/
structure Enough (rust : Bool) (lo hi n : Nat) : Prop where
  block : ∀ stopWords c, Ends (block rust n stopWords c)
    (Lies rust lo hi c ∧ 8 * c.code.length + 4 ≤ n) fun r =>
    c.Leads r.2 ∧ Stmt.InBounds lo hi r.1
  braced : ∀ what c, Ends (braced rust n what c)
    (Lies rust lo hi c ∧ 8 * c.code.length + (if c.head? = some '{' then 1 else 3) ≤ n) fun r =>
      c.Leads r.2 ∧ Stmt.InBounds lo hi r.1 ∧ (c.head? = some '{' → c.offset < r.2.offset)
  statement : ∀ c, Ends (statement rust n c) (Lies rust lo hi c ∧ 8 * c.code.length + 2 ≤ n)
    fun r =>
    c.Leads r.2 ∧ Stmt.InBounds lo hi r.1.toList ∧ Proceeds c r.2
  branch : ∀ start c, Compound rust lo hi n start c (branch rust n start c)
  loop : ∀ word label start c, Compound rust lo hi n start c (loop rust n word label start c)
  doLoop : ∀ label start c, Compound rust lo hi n start c (doLoop rust n label start c)
  matching : ∀ start c, rust = true → Compound rust lo hi n start c (matching rust n start c)
  matchArms : ∀ c, rust = true → Ends (matchArms rust n c)
    ((c.code ≠ [] → Lies rust lo hi c) ∧ 8 * c.code.length + 7 ≤ n) (Arm.InBounds lo hi)
  guarded : ∀ start c, Compound rust lo hi n start c (guarded rust n start c)
  handlers : ∀ c, Ends (handlers rust n c) (Lies rust lo hi c ∧ 8 * c.code.length + 7 ≤ n) fun r =>
    c.Leads r.2.2 ∧ Arm.InBounds lo hi r.1 ∧ ∀ ss ∈ r.2.1, Stmt.InBounds lo hi ss

/-- **One more unit of fuel is enough**, where what is left is enough for the calls. One case for
each function. -/
theorem enough_succ (h : Enough rust lo hi n) : Enough rust lo hi (n + 1) where
  block stopWords c := by
    obtain ⟨blocks, -, statements, -⟩ := h
    have brace {c : Cursor} : c.head? = some '}' → c.Leads (c.advance 1) := mark_leads (by decide)
    unfold block
    mvcgen [blocks, statements]
    all_goals clear blocks statements
    all_goals grind -linarith [Proceeds.on]
  braced what c := by
    obtain ⟨blocks, -, statements, -, -, -, -, -, -, -⟩ := h
    have brace {c : Cursor} : c.head? = some '{' → c.Leads (c.advance 1) := mark_leads (by decide)
    unfold braced
    mvcgen [blocks, statements, warn]
    all_goals clear blocks statements
    all_goals grind -linarith [Lies.inside, skipBlanks_of_brace, Cursor.toEnd]
  statement c := by
    obtain ⟨-, braces, -, branches, loops, doLoops, matches', -, guards, -⟩ := h
    have semicolon {c : Cursor} : c.head? = some ';' → c.Leads (c.advance 1) :=
      mark_leads (by decide)
    rw [statement]
    intro
    split
    · mvcgen
      grind -linarith [Proceeds]
    · mvcgen
      grind -linarith [Proceeds, isCloser]
    · mvcgen
      grind -linarith [Proceeds]
    · mvcgen [braces] <;> grind -linarith [Proceeds]
    · split
      rename_i label place found
      obtain ⟨leads, there⟩ := label_leads c.skipBlanks found
      have toPlace := c.skipBlanks_leads.trans leads
      have onward := or_iff_not_imp_left.mpr (@behind_keyword c place toPlace)
      have noSwitch (h : Lies rust lo hi c) := (h.of_leads toPlace).calm.word
      clear found
      mvcgen [braces, branches, loops, doLoops, matches', guards, warn]
      all_goals try clear braces branches loops doLoops matches' guards
      all_goals grind -linarith [Proceeds, simpleStatement_reads]
  branch start c := by
    obtain ⟨-, braces, statements, -, -, -, -, -, -, -⟩ := h
    have four {c : Cursor} : c.word = "else" → c.Leads (c.advance 4) := keyword_leads (by decide)
    unfold branch
    mvcgen [condition_ends, braces, statements]
    all_goals clear braces statements
    all_goals grind -linarith
  loop word label start c := by
    obtain ⟨-, braces, -, -, -, -, -, -, -, -⟩ := h
    have five {c : Cursor} : c.word = "await" → c.Leads (c.advance 5) := keyword_leads (by decide)
    unfold loop
    mvcgen [condition_ends, braces]
    all_goals clear braces
    all_goals grind -linarith
  doLoop label start c := by
    obtain ⟨-, braces, -, -, -, -, -, -, -, -⟩ := h
    have five {c : Cursor} : c.word = "while" → c.Leads (c.advance 5) := keyword_leads (by decide)
    have semicolon {c : Cursor} : c.head? = some ';' → c.Leads (c.advance 1) :=
      mark_leads (by decide)
    unfold doLoop
    mvcgen [condition_ends, braces, warn]
    all_goals clear braces
    all_goals grind -linarith
  matching start c isRust := by
    obtain ⟨-, -, -, -, -, -, -, arms, -, -⟩ := h
    replace arms := fun c => arms c isRust
    unfold matching
    mvcgen [condition_ends, arms, warn]
    all_goals clear arms
    all_goals grind -linarith [Lies.inside, Lies.advance, Cursor.advance_code]
  matchArms c isRust := by
    obtain ⟨-, braces, -, -, -, -, -, arms, -, -⟩ := h
    replace arms := fun c => arms c isRust
    have comma {c : Cursor} : c.head? = some ',' → c.Leads (c.advance 1) := mark_leads (by decide)
    simp only [matchArms]
    split
    · mvcgen
      grind -linarith
    · split
      · mvcgen [warn]
        grind -linarith
      · rename_i pattern rest cut
        obtain ⟨some, leads, behind⟩ := arm_leads cut
        have short := comma_leads (c.skipBlanks.advance (pattern.length + 2)).skipBlanks
        generalize (c.skipBlanks.advance (pattern.length + 2)).skipBlanks = bodyAt
          at leads behind short ⊢
        mvcgen [braces, arms]
        all_goals clear braces arms
        all_goals grind -linarith
  guarded start c := by
    obtain ⟨-, braces, -, -, -, -, -, -, -, handlers'⟩ := h
    unfold guarded
    mvcgen [braces, handlers', warn]
    all_goals clear braces handlers'
    all_goals grind -linarith
  handlers c := by
    obtain ⟨-, braces, -, -, -, -, -, -, -, handlers'⟩ := h
    have five {c : Cursor} : c.word = "catch" → c.Leads (c.advance 5) := keyword_leads (by decide)
    have seven {c : Cursor} : c.word = "finally" → c.Leads (c.advance 7) :=
      keyword_leads (by decide)
    unfold handlers
    mvcgen [braces, handlers']
    all_goals clear braces handlers'
    all_goals grind -linarith [Stmt.every_getD]

/-- By induction every amount of fuel is enough for what needs no more. -/
theorem enough (n : Nat) : Enough rust lo hi n := by
  induction n with
  | zero =>
    constructor <;> intros <;> apply ends_of_not
    all_goals grind -linarith
  | succ n ih => exact enough_succ ih

/-! ### More fuel -/

/-- With fuel `n'` all functions of the descent give what they give with fuel `n`, unless that gets
stuck. -/
structure Refined (rust : Bool) (n n' : Nat) : Prop where
  block : ∀ stopWords c, Refines (block rust n stopWords c) (block rust n' stopWords c)
  braced : ∀ what c, Refines (braced rust n what c) (braced rust n' what c)
  statement : ∀ c, Refines (statement rust n c) (statement rust n' c)
  branch : ∀ start c, Refines (branch rust n start c) (branch rust n' start c)
  loop : ∀ word label start c,
    Refines (loop rust n word label start c) (loop rust n' word label start c)
  doLoop : ∀ label start c, Refines (doLoop rust n label start c) (doLoop rust n' label start c)
  switch : ∀ start c, Refines (switch rust n start c) (switch rust n' start c)
  switchArms : ∀ c, Refines (switchArms rust n c) (switchArms rust n' c)
  matching : ∀ start c, Refines (matching rust n start c) (matching rust n' start c)
  matchArms : ∀ c, Refines (matchArms rust n c) (matchArms rust n' c)
  guarded : ∀ start c, Refines (guarded rust n start c) (guarded rust n' start c)
  handlers : ∀ c, Refines (handlers rust n c) (handlers rust n' c)

theorem condition_refines (rust : Bool) (c : Cursor) :
    Refines (condition rust c) (condition rust c) := by
  simp only [condition]
  repeat' with_reducible first
    | apply refines_pure
    | apply refines_warn
    | refine Refines.bind ?_ fun _ => ?_
    | apply refines_ite
    | split

/-- The fuel only goes to the next calls, so both readings take the same branches. -/
theorem refined_succ (h : Refined rust n n') : Refined rust (n + 1) (n' + 1) := by
  obtain ⟨blocks, braces, statements, branches, loops, doLoops, switches, cases, matches', arms,
      guards, handlers'⟩ := h
  constructor <;> intros <;>
    simp only [block, braced, statement, branch, loop, doLoop, switch, switchArms, matching,
    matchArms, guarded, handlers]
  all_goals repeat' with_reducible first
    | apply blocks
    | apply braces
    | apply statements
    | apply branches
    | apply loops
    | apply doLoops
    | apply switches
    | apply cases
    | apply matches'
    | apply arms
    | apply guards
    | apply handlers'
    | apply condition_refines
    | apply refines_pure
    | apply refines_warn
    | apply refines_stick
    | refine Refines.bind ?_ fun _ => ?_
    | apply refines_ite
    | split

/-- By induction on the fuel that is there. -/
theorem refined_of_le (le : n ≤ n') : Refined rust n n' := by
  induction n generalizing n' with
  | zero =>
    constructor <;> intros <;>
      simp only [block, braced, statement, branch, loop, doLoop, switch, switchArms, matching,
      matchArms, guarded, handlers, refines_giveUp]
  | succ n ih =>
    obtain ⟨m, rfl⟩ : ∃ m, n' = m + 1 := ⟨n' - 1, by omega⟩
    exact refined_succ (ih (by omega))

/-! ### Bodies -/

/-- A body is read in the same way with any fuel that is enough, and its statements lie in it. -/
theorem statements_agree (calm : Calm rust c) (fuel : 8 * (c.code.length + 1) ≤ n) (le : n ≤ n') :
    Agree (statements rust n c) (statements rust n' c)
      (Stmt.InBounds c.offset (c.offset + c.code.length)) := by
  have lies : Lies rust c.offset (c.offset + c.code.length) c :=
    ⟨calm, Nat.le_refl _, Nat.le_refl _⟩
  obtain ⟨blocks, -⟩ := @enough rust c.offset (c.offset + c.code.length) n
  have ends : Ends (statements rust n c) True
      (Stmt.InBounds c.offset (c.offset + c.code.length)) := by
    unfold statements
    mvcgen [blocks]
    all_goals clear blocks
    all_goals grind -linarith
  exact ends.agree trivial (((refined_of_le le).block _ _).bind fun _ => refines_pure _)

end CodeAtlas.Brace
