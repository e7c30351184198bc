import CodeAtlas.Flow.Build
import CodeAtlas.Proofs.Index.Braces
import CodeAtlas.Proofs.Source.LineExtent
import CodeAtlas.Proofs.Statement.Reading

/-!
Kinds of statements.

Lowering knows the kinds of `knownKinds`. The readers of both kinds of bodies give a statement of
another kind only where a text that they classify starts with a jump word that something is glued to
(`Glued`, `ofText_unknown`). What a reader may give is said once for all its functions
(`Indented.Classes`, `Brace.Classes`) and kept from one unit of fuel to the next. Lowering warns of
no other unknown kinds than those of its statements (`lowerStmts_keeps`).
-/

set_option mvcgen.warning false

namespace CodeAtlas

open Std.Do List Text

def knownKinds : List String :=
  ["simple", "return", "raise", "exit", "try-op", "break", "continue", "if", "loop",
    "switch", "try", "block"]

/-! ### Jumps that something is glued to -/

/-- A jump word with something glued to it that is no part of a word, no blank, and more than
semicolons. -/
def Glued (kind : List Char) : Prop :=
  ∃ (word : JumpKind) (c : Char) (tail : List Char), kind = word.text.toList ++ c :: tail ∧
    isWordChar c = false ∧
    (∀ d ∈ c :: tail, isBlank d = false) ∧ (c :: tail).getLast? ≠ some ';'

namespace Text

/-- The first part ends at the first character that cuts. -/
theorem splitBy_head? (p : Char → Bool) (cs : List Char) :
    (splitBy p cs).head? = some (cs.takeWhile (!p ·)) := by
  induction cs with
  | nil => rfl
  | cons c cs ih =>
    rw [splitBy]
    split
    · simp_all
    · obtain ⟨parts, split⟩ := head?_eq_some_iff.mp ih
      simp_all [consFirst]

/-- What is dropped at the end is dropped of the last part, where some of it stays. -/
theorem dropEndWhile_append {p : Char → Bool} {front back : List Char}
    (h : dropEndWhile p back ≠ []) :
    dropEndWhile p (front ++ back) = front ++ dropEndWhile p back := by
  have some : back.reverse.dropWhile p ≠ [] := by simpa [dropEndWhile] using h
  simp [dropEndWhile, dropWhile_append, some]

theorem dropEndWhile_starts (p : Char → Bool) (cs : List Char) : dropEndWhile p cs <+: cs := by
  rw [dropEndWhile, ← reverse_suffix, reverse_reverse]
  exact dropWhile_suffix p

theorem isInfix_take (k : Nat) (cs : List Char) : cs.take k <:+: cs :=
  List.IsPrefix.isInfix <| take_prefix k cs

/-- A text without the blanks around it stands in it. -/
theorem isInfix_trim (cs : List Char) : trim cs <:+: cs :=
  (dropEndWhile_starts _ _).isInfix.trans (dropWhile_suffix _).isInfix

end Text

namespace SimpleKind

variable {cs rest text : List Char} {word : JumpKind} {rust : Bool}

theorem jumpWord?_eq_some (h : jumpWord? cs = some (word, rest)) :
    wholeWord? word.text none cs = some rest := by
  unfold jumpWord? at h
  split at h
  · rename_i found
    cases h
    exact found
  · obtain ⟨_, found, same⟩ := Option.map_eq_some_iff.mp h
    cases same
    exact found

/-- The first field of a text that starts with a jump word is that word, or something is glued to
it. -/
theorem firstField_of_wholeWord (h : wholeWord? word.text none cs = some rest) :
    firstField cs = word.text ∨ Glued (firstField cs).toList ∧ (firstField cs).toList <+: cs := by
  have edge : rest.head?.any isWordChar = false := by
    obtain ⟨_, _, unbroken⟩ := Option.bind_eq_some_iff.mp h
    split at unbroken
    · cases unbroken
    · cases unbroken
      simp_all
  obtain rfl := wholeWord?_eq_some h
  obtain ⟨some, solid, last⟩ : word.text.toList ≠ [] ∧
      (∀ c ∈ word.text.toList, (!isBlank c) = true) ∧
      dropEndWhile (· == ';') word.text.toList = word.text.toList := by
    cases word <;> exact ⟨by simp [JumpKind.text], by simp [JumpKind.text]; decide, by
      simp [JumpKind.text, dropEndWhile]⟩
  obtain ⟨parts, split⟩ := head?_eq_some_iff.mp (splitBy_head? isBlank (word.text.toList ++ rest))
  rw [takeWhile_append_of_pos solid] at split
  have field : firstField (word.text.toList ++ rest) =
      String.ofList
        (dropEndWhile (· == ';') (word.text.toList ++ rest.takeWhile (!isBlank ·))) := by
    rw [firstField, fields, split, filter_cons_of_pos (by simp [some]), headD_cons]
  rw [field, String.toList_ofList]
  cases glue : dropEndWhile (· == ';') (rest.takeWhile (!isBlank ·)) with
  | nil =>
    left
    have only : ∀ c ∈ rest.takeWhile (!isBlank ·), (c == ';') = true := by
      simpa [dropEndWhile] using glue
    rw [dropEndWhile, reverse_append, dropWhile_append_of_pos (by simpa using only)]
    rw [dropEndWhile] at last
    rw [last, String.ofList_toList]
  | cons c tail =>
    right
    rw [dropEndWhile_append (by simp [glue]), glue]
    have front : c :: tail <+: rest.takeWhile (!isBlank ·) := glue ▸ dropEndWhile_starts ..
    have whole := front.trans <| takeWhile_prefix _
    refine ⟨⟨word, c, tail, rfl, ?_, fun d mem => ?_, ?_⟩, (prefix_append_right_inj _).mpr whole⟩
    · obtain ⟨more, rfl⟩ := whole
      simpa using edge
    · simpa using mem_takeWhile_imp (front.subset mem)
    · rw [← glue, dropEndWhile, getLast?_reverse]
      intro semicolon
      have stop := head?_dropWhile_not (· == ';') (rest.takeWhile (!isBlank ·)).reverse
      simp [semicolon] at stop

/-- A text is of no known kind only if something is glued to the jump word that it starts with. -/
theorem ofText_unknown {kind : String} (h : ofText rust text = .unknown kind) :
    Glued kind.toList ∧ kind.toList <:+: text := by
  unfold ofText at h
  dsimp only at h
  split at h
  · rename_i word rest found
    unfold classifyJump at h
    split at h
    · cases h
    · dsimp only at h
      split at h
      · cases h
      · split at h
        · cases h
        · cases h
          rcases firstField_of_wholeWord (jumpWord?_eq_some found) with bare | ⟨glued, front⟩
          · cases word <;> simp_all [JumpKind.text]
          · exact ⟨glued, front.isInfix.trans (isInfix_trim text)⟩
  · repeat' split at h
    all_goals cases h

/-- A plain text starts with no word that jumps or leaves. -/
theorem ofText_plain (h : ofText rust text = .plain) :
    ∀ word ∈ ["break", "continue", "return", "throw", "raise"],
      wholeWord? word none (trim text) = none := by
  unfold ofText at h
  dsimp only at h
  split at h
  · unfold classifyJump at h
    grind
  · rename_i noJump
    unfold jumpWord? at noJump
    split at noJump
    · cases noJump
    · have noContinue := Option.map_eq_none_iff.mp noJump
      split at h
      · cases h
      · split at h
        · cases h
        · simp_all

end SimpleKind

/-! ### Where classified texts come from -/

namespace Text

variable {cs k : List Char} {parts : List (List Char)}

def Cuts (cs : List Char) (parts : List (List Char)) : Prop :=
  (∀ part ∈ parts.head?, part <+: cs) ∧ ∀ part ∈ parts, part <:+: cs

theorem Cuts.fresh (h : Cuts cs parts) (c : Char) : Cuts (c :: cs) ([] :: parts) := by
  refine ⟨by simp, fun part mem => ?_⟩
  rcases mem_cons.mp mem with rfl | later
  · exact nil_infix
  · exact infix_cons (h.2 part later)

theorem Cuts.consFirst (h : Cuts cs parts) (c : Char) : Cuts (c :: cs) (consFirst c parts) := by
  cases parts with
  | nil => exact ⟨by simp [consFirst], by simp [consFirst, infix_cons_iff]⟩
  | cons first parts =>
    have front : c :: first <+: c :: cs := (prefix_cons_inj c).mpr (h.1 first rfl)
    refine ⟨by simpa [consFirst] using h.1 first rfl, fun part mem => ?_⟩
    rcases mem_cons.mp mem with rfl | later
    · exact front.isInfix
    · exact infix_cons (h.2 part (mem_cons_of_mem _ later))

theorem cuts_splitBy (p : Char → Bool) (cs : List Char) : Cuts cs (splitBy p cs) := by
  induction cs with
  | nil => simp [Cuts, splitBy]
  | cons c cs ih =>
    rw [splitBy]
    split
    · exact ih.fresh c
    · exact ih.consFirst c

theorem cuts_splitNestedFrom (sep : Char) (depth : Int) (prev : Option Char) (cs : List Char) :
    Cuts cs (splitNestedFrom sep depth prev cs) := by
  induction cs generalizing depth prev with
  | nil => simp [Cuts, splitNestedFrom]
  | cons c cs ih =>
    rw [splitNestedFrom]
    split
    · exact (ih _ _).fresh c
    · exact (ih _ _).consFirst c

theorem infix_of_mem_splitTopLevel {sep : Char} {part : List Char}
    (mem : part ∈ splitTopLevel sep cs) :
    part <:+: cs := by
  have cuts := cuts_splitNestedFrom sep 0 none cs
  unfold splitTopLevel at mem
  split at mem
  · rename_i single
    split at mem
    · cases mem
    · exact cuts.2 part (single ▸ mem)
  · exact cuts.2 part mem

/-- A text without a character that stands between two others stands in one of them. -/
theorem infix_append_cons {front back : List Char} {c : Char} (free : c ∉ k)
    (h : k <:+: front ++ c :: back) :
    k <:+: front ∨ k <:+: back := by
  obtain ⟨before, behind, whole⟩ := h
  rcases append_eq_append_iff.mp whole with ⟨more, same, _⟩ | ⟨more, same, rest⟩
  · exact .inl ⟨before, more, same.symm⟩
  · rcases more with _ | ⟨_, more⟩
    · exact .inl ⟨before, [], by simpa using same⟩
    · cases rest
      rcases append_eq_append_iff.mp same with ⟨_, _, inside⟩ | ⟨gap, _, inside⟩
      · exact absurd (inside ▸ by simp) free
      · rcases gap with _ | ⟨_, gap⟩
        · cases inside
          exact absurd mem_cons_self free
        · cases inside
          exact .inr ⟨gap, behind, rfl⟩

/-- A text without blanks that stands in joined parts stands in one of them. -/
theorem infix_join (free : ' ' ∉ k) (some : k ≠ []) (h : k <:+: join [' '] parts) :
    ∃ part ∈ parts, k <:+: part := by
  induction parts with
  | nil => exact absurd (infix_nil.mp h) some
  | cons part parts ih =>
    cases parts with
    | nil => exact ⟨part, mem_cons_self, by simpa [join] using h⟩
    | cons next parts =>
      have split : join [' '] (part :: next :: parts) =
          part ++ ' ' :: join [' '] (next :: parts) := by simp [join]
      rcases infix_append_cons free (split ▸ h) with here | later
      · exact ⟨part, mem_cons_self, here⟩
      · obtain ⟨part', mem, inside⟩ := ih later
        exact ⟨part', mem_cons_of_mem _ mem, inside⟩

end Text

/-- The characters of a physical line are one of the parts. -/
theorem PhysicalLine.chars_mem_of_mem_ofParts {stop start number : Nat} {parts : List (List Char)}
    {l : PhysicalLine} (mem : l ∈ ofParts stop start number parts) : l.chars ∈ parts := by
  fun_induction ofParts stop start number parts with
  | case1 => cases mem
  | case2 => simp_all
  | case3 => cases mem
  | case4 start number part parts _ ih =>
    rcases mem_cons.mp mem with rfl | later
    · exact mem_cons_self
    · exact mem_cons_of_mem _ (ih later)

namespace LogicalLine

/-- A logical line is made of the trimmed texts of physical lines. -/
theorem joinLines_parts (p : List Char → Prop) {ls : List PhysicalLine}
    (all : ∀ l ∈ ls, p (trim l.chars)) (nesting : Nesting) (current : Option Open)
    (opened : ∀ o ∈ current, ∀ part ∈ o.parts, p part) :
    ∀ l ∈ (joinLines current nesting ls).1, ∃ parts, l.text = join [' '] parts ∧
      ∀ part ∈ parts, p part := by
  have finished (o : Open) (h : ∀ part ∈ o.parts, p part) :
      ∃ parts, o.finish.text = join [' '] parts ∧ ∀ part ∈ parts, p part :=
    ⟨_, rfl, fun part mem => h part (mem_reverse.mp (mem_filter.mp mem).1)⟩
  induction ls generalizing nesting current with
  | nil =>
    cases current with
    | none => simp [joinLines]
    | some o => simpa [joinLines] using finished o (opened o rfl)
  | cons l ls ih =>
    obtain ⟨here, later⟩ := forall_mem_cons.mp all
    have extended (o : Open) (h : Open.extend? current l = some o) : ∀ part ∈ o.parts, p part := by
      unfold Open.extend? at h
      dsimp only at h
      split at h
      · cases h
        exact forall_mem_cons.mpr ⟨here, opened _ rfl⟩
      · split at h
        · cases h
        · cases h
          simpa using here
    unfold joinLines
    split
    · exact ih later nesting none (by simp)
    · rename_i o found
      dsimp only
      split
      · exact ih later _ _ (by simpa using extended o found)
      · exact forall_mem_cons.mpr ⟨finished o (extended o found), ih later _ none (by simp)⟩

/-- What stands in a logical line and has no blanks stands in the text. -/
theorem infix_of_mem_within {text k : List Char} {start stop : Nat} {l : LogicalLine}
    (mem : l ∈ (within text start stop).1) (solid : ' ' ∉ k) (some : k ≠ [])
    (inside : k <:+: l.text) :
    k <:+: text := by
  have physical : ∀ l ∈ PhysicalLine.within text start stop, trim l.chars <:+: text := by
    intro l listed
    have part := PhysicalLine.chars_mem_of_mem_ofParts listed
    exact (isInfix_trim _).trans (((cuts_splitBy _ _).2 _ part).trans
      ((drop_suffix _ _).isInfix.trans (isInfix_take _ _)))
  obtain ⟨parts, joined, all⟩ := joinLines_parts (· <:+: text) physical {} none (by simp) l mem
  obtain ⟨part, listed, here⟩ := infix_join solid some (joined ▸ inside)
  exact here.trans (all part listed)

end LogicalLine

/-! ### Classed statements -/

variable {odd : String → Prop}

/-- The kind of a statement is known, or else it is one that `odd` tells. -/
def Stmt.Classed (odd : String → Prop) : Stmt → Prop
  | .unknown kind _ => odd kind
  | _ => True

/-- A simple statement is classed where its kind is known or told. -/
theorem SimpleKind.toStmt_classed {kind : SimpleKind} {span : Span}
    (h : ∀ k, kind = .unknown k → odd k) :
    Stmt.Every (Stmt.Classed odd) [kind.toStmt span] :=
  Stmt.every_toStmt.mpr (by cases kind <;> simp_all [toStmt, Stmt.Classed])

theorem Stmt.simple_classed {span : Span} : Stmt.Every (Stmt.Classed odd) [.simple span] :=
  @SimpleKind.toStmt_classed _ .plain span (by simp)

/-! ### Indented bodies -/

namespace Indented

/-- The texts that are classified on the lines from a place on give only kinds that are known or
that `odd` tells. -/
def Classed (t : SourceText) (odd : String → Prop) (c : LineCursor) : Prop :=
  ∀ l ∈ c.rest, (∀ kind, SimpleKind.ofText false l.text = .unknown kind → odd kind) ∧
    Stmt.Every (Stmt.Classed odd) (inlineStatements (splitHeader t l) l.stop)

/-- From a classed place, classed statements are read up to a classed place. -/
abbrev Gives {α : Type} (t : SourceText) (odd : String → Prop) (c : LineCursor) (m : Reading α)
    (stmts : α → List Stmt) (next : α → LineCursor) : Prop :=
  ⦃⌜Classed t odd c⌝⦄ m ⦃⇓ r => ⌜Stmt.Every (Stmt.Classed odd) (stmts r) ∧ Classed t odd (next r)⌝⦄

structure GuardParts.Classed (odd : String → Prop) (parts : GuardParts) : Prop where
  handlers : Arm.Every (Stmt.Classed odd) parts.handlers
  orelse : Stmt.Every (Stmt.Classed odd) parts.orelse
  final : ∀ ss ∈ parts.final, Stmt.Every (Stmt.Classed odd) ss

/-- With fuel `n`, all functions of the reader keep to classed statements. -/
structure Classes (t : SourceText) (odd : String → Prop) (n : Nat) : Prop where
  suite : ∀ indent c, Gives t odd c (suite t n indent c) (·.1) (·.2)
  body : ∀ c, Gives t odd c (body t n c) (·.1) (·.2.2)
  statement : ∀ c, Gives t odd c (statement t n c) (·.1.toList) (·.2)
  alternatives : ∀ indent c, Gives t odd c (alternatives t n indent c) (·.1) (·.2)
  guardParts : ∀ indent parts c,
    ⦃⌜Classed t odd c ∧ parts.Classed odd⌝⦄ guardParts t n indent parts c
    ⦃⇓ r => ⌜r.1.Classed odd ∧ Classed t odd r.2⌝⦄
  cases : ∀ indent c, ⦃⌜Classed t odd c⌝⦄ cases t n indent c
    ⦃⇓ r => ⌜Arm.Every (Stmt.Classed odd) r.1 ∧ Classed t odd r.2⌝⦄

variable {t : SourceText} {n : Nat}

/-- **One more unit of fuel gives classed statements too.** One case for each function. -/
theorem classes_succ (h : Classes t odd n) : Classes t odd (n + 1) where
  suite indent c := by
    obtain ⟨suites, -, statements, -, -, -⟩ := h
    unfold suite
    mvcgen [suites, statements, Reading.warn] <;> grind -linarith [Stmt.Classed]
  body c := by
    obtain ⟨suites, -, -, -, -, -⟩ := h
    unfold body
    mvcgen [suites, Reading.warn]
    all_goals grind -linarith [Stmt.Classed, Classed]
  statement c := by
    obtain ⟨-, bodies, -, alternatives, guards, arms⟩ := h
    unfold statement
    mvcgen [bodies, alternatives, arms, guards, Reading.warn]
    all_goals grind -linarith [Stmt.Classed, Classed, GuardParts.Classed, SimpleKind.toStmt_classed,
      Stmt.simple_classed, mem_of_mem_drop]
  alternatives indent c := by
    obtain ⟨-, bodies, -, alternatives', -, -⟩ := h
    unfold alternatives
    mvcgen [bodies, alternatives'] <;> grind -linarith [Stmt.Classed]
  guardParts indent parts c := by
    obtain ⟨-, bodies, -, -, guards, -⟩ := h
    unfold guardParts
    mvcgen [bodies, guards] <;> grind -linarith [Stmt.Classed, GuardParts.Classed]
  cases indent c := by
    obtain ⟨-, bodies, -, -, -, arms⟩ := h
    unfold cases
    mvcgen [bodies, arms, Reading.warn] <;> grind -linarith [Stmt.Classed, Classed]

theorem classes (n : Nat) : Classes t odd n := by
  induction n with
  | zero =>
    constructor <;> intros
    all_goals mvcgen [suite, body, statement, alternatives, guardParts, cases,
      Reading.giveUp, Reading.stick]
    all_goals grind -linarith
  | succ n ih => exact classes_succ ih

end Indented

/-! ### Bodies in braces -/

namespace Brace

variable {rust : Bool} {n : Nat}

/-- The texts in a block from a place on give only kinds that are known or that `odd` tells. -/
def Classed (rust : Bool) (odd : String → Prop) (c : Cursor) : Prop :=
  ∀ text, text <:+: c.code → ∀ kind, SimpleKind.ofText rust text = .unknown kind → odd kind

section Places

variable {c : Cursor} (h : Classed rust odd c) (k : Nat)
include h

@[grind ←] theorem Classed.advance : Classed rust odd (c.advance k) :=
  fun text inside => h text (inside.trans (drop_suffix k c.code).isInfix)

@[grind ←] theorem Classed.limit : Classed rust odd (c.limit k) :=
  fun text inside => h text (inside.trans (isInfix_take k c.code))

@[grind ←] theorem Classed.skipBlanks : Classed rust odd c.skipBlanks :=
  h.advance _

@[grind ←] theorem Classed.toEnd : Classed rust odd c.toEnd :=
  h.advance _

theorem Classed.label {label : Option String} {next : Cursor} (found : (match loopLabel? c with
      | some (label, c) => (some label, c)
      | none => (none, c)) = (label, next)) : Classed rust odd next := by
  split at found
  · rename_i name place labelled
    cases found
    simp only [loopLabel?, Option.bind_eq_bind, Option.bind_eq_some_iff] at labelled
    obtain ⟨_, _, _, _, labelled⟩ := labelled
    split at labelled
    · cases labelled
    · split at labelled
      · cases labelled
        exact h.advance _
      · cases labelled
  · cases found
    exact h

theorem Classed.onward : Classed rust odd (c.skipBlanks.advance k) :=
  h.skipBlanks.advance k

/-- A text that is cut off at a classed place gives a classed statement. -/
theorem Classed.taken {span : Span} :
    Stmt.Every (Stmt.Classed odd) [(SimpleKind.ofText rust (c.code.take k)).toStmt span] :=
  SimpleKind.toStmt_classed (h _ (isInfix_take k c.code))

theorem Classed.simpleStatement : Stmt.Every (Stmt.Classed odd) [(simpleStatement rust c).1] ∧
    Classed rust odd (simpleStatement rust c).2 := by
  refine ⟨?_, h.advance _⟩
  unfold Brace.simpleStatement
  dsimp only
  split
  · exact Stmt.simple_classed
  · exact h.taken _

end Places

/-- Behind a condition a place is as classed. -/
theorem condition_classes (c : Cursor) :
    ⦃⌜Classed rust odd c⌝⦄ condition rust c ⦃⇓ r => ⌜Classed rust odd r.2⌝⦄ := by
  unfold condition
  mvcgen [Reading.warn] <;> grind -linarith

/-- From a classed place, classed statements are read up to a classed place. -/
abbrev Gives {α : Type} (rust : Bool) (odd : String → Prop) (c : Cursor) (m : Reading α)
    (stmts : α → List Stmt) (next : α → Cursor) : Prop :=
  ⦃⌜Classed rust odd c⌝⦄ m ⦃⇓ r => ⌜Stmt.Every (Stmt.Classed odd) (stmts r) ∧
    Classed rust odd (next r)⌝⦄

/-- With fuel `n`, all functions of the descent keep to classed statements. -/
structure Classes (rust : Bool) (odd : String → Prop) (n : Nat) : Prop where
  block : ∀ stopWords c, Gives rust odd c (block rust n stopWords c) (·.1) (·.2)
  braced : ∀ what c, Gives rust odd c (braced rust n what c) (·.1) (·.2)
  statement : ∀ c, Gives rust odd c (statement rust n c) (·.1.toList) (·.2)
  branch : ∀ start c, Gives rust odd c (branch rust n start c) ([·.1]) (·.2)
  loop : ∀ word label start c, Gives rust odd c (loop rust n word label start c) ([·.1]) (·.2)
  doLoop : ∀ label start c, Gives rust odd c (doLoop rust n label start c) ([·.1]) (·.2)
  switch : ∀ start c, Gives rust odd c (switch rust n start c) ([·.1]) (·.2)
  switchArms : ∀ c, ⦃⌜Classed rust odd c⌝⦄ switchArms rust n c ⦃⇓ arms =>
    ⌜Arm.Every (Stmt.Classed odd) arms⌝⦄
  matching : ∀ start c, Gives rust odd c (matching rust n start c) ([·.1]) (·.2)
  matchArms : ∀ c, ⦃⌜Classed rust odd c⌝⦄ matchArms rust n c ⦃⇓ arms =>
    ⌜Arm.Every (Stmt.Classed odd) arms⌝⦄
  guarded : ∀ start c, Gives rust odd c (guarded rust n start c) ([·.1]) (·.2)
  handlers : ∀ c, ⦃⌜Classed rust odd c⌝⦄ handlers rust n c
    ⦃⇓ r => ⌜Arm.Every (Stmt.Classed odd) r.1 ∧ (∀ ss ∈ r.2.1, Stmt.Every (Stmt.Classed odd) ss) ∧
      Classed rust odd r.2.2⌝⦄

/-- **One more unit of fuel gives classed statements too.** One case for each function. -/
theorem classes_succ (h : Classes rust odd n) : Classes rust odd (n + 1) where
  block stopWords c := by
    obtain ⟨blocks, -, statements, -⟩ := h
    unfold block
    mvcgen [blocks, statements, Reading.warn] <;> grind -linarith
  braced what c := by
    obtain ⟨blocks, -, statements, -⟩ := h
    unfold braced
    mvcgen [blocks, statements, Reading.warn] <;> grind -linarith
  statement c := by
    obtain ⟨-, braces, -, branches, loops, doLoops, switches, -, matches', -, guards, -⟩ := h
    rw [statement]
    intro
    split
    iterate 3
      · mvcgen
        grind -linarith
    · mvcgen [braces, Reading.warn] <;> grind -linarith [Stmt.Classed]
    · split
      rename_i label place found
      have placed (h : Classed rust odd c) : Classed rust odd place := h.skipBlanks.label found
      clear found
      mvcgen [braces, branches, loops, doLoops, switches, matches', guards, Reading.warn]
      all_goals grind -linarith [Stmt.Classed, Classed.simpleStatement]
  branch start c := by
    obtain ⟨-, braces, statements, -⟩ := h
    unfold branch
    mvcgen [condition_classes, braces, statements, Reading.warn] <;> grind -linarith [Stmt.Classed]
  loop word label start c := by
    obtain ⟨-, braces, -⟩ := h
    unfold loop
    mvcgen [condition_classes, braces, Reading.warn] <;> grind -linarith [Stmt.Classed]
  doLoop label start c := by
    obtain ⟨-, braces, -⟩ := h
    unfold doLoop
    mvcgen [condition_classes, braces, Reading.warn] <;> grind -linarith [Stmt.Classed]
  switch start c := by
    obtain ⟨-, -, -, -, -, -, -, arms, -⟩ := h
    unfold switch
    mvcgen [condition_classes, arms, Reading.warn] <;> grind -linarith [Stmt.Classed]
  switchArms c := by
    obtain ⟨blocks, -, statements, -, -, -, -, arms, -⟩ := h
    unfold switchArms
    mvcgen [blocks, statements, arms, Reading.warn, Reading.stick] <;> grind -linarith
  matching start c := by
    obtain ⟨-, -, -, -, -, -, -, -, -, arms, -⟩ := h
    unfold matching
    mvcgen [condition_classes, arms, Reading.warn] <;> grind -linarith [Stmt.Classed]
  matchArms c := by
    obtain ⟨-, braces, -, -, -, -, -, -, -, arms, -⟩ := h
    unfold matchArms
    mvcgen [braces, arms, Reading.warn]
    all_goals clear braces arms
    all_goals grind -linarith [Classed.taken, Classed.onward]
  guarded start c := by
    obtain ⟨-, braces, -, -, -, -, -, -, -, -, -, handlers'⟩ := h
    unfold guarded
    mvcgen [braces, handlers', Reading.warn] <;> grind -linarith [Stmt.Classed]
  handlers c := by
    obtain ⟨-, braces, -, -, -, -, -, -, -, -, -, handlers'⟩ := h
    unfold handlers
    mvcgen [braces, handlers', Reading.warn]
    all_goals grind -linarith [Stmt.every_getD]

theorem classes (n : Nat) : Classes rust odd n := by
  induction n with
  | zero =>
    constructor <;> intros
    all_goals mvcgen [block, braced, statement, branch, loop, doLoop, switch, switchArms, matching,
      matchArms, guarded, handlers, Reading.giveUp, Reading.stick]
    all_goals grind -linarith [Stmt.Classed]
  | succ n ih => exact classes_succ ih

end Brace

/-! ### Lowering -/

namespace Lower

def Told (odd : String → Prop) (warnings : List (Nat × FlowWarning)) : Prop :=
  ∀ w ∈ warnings, ∀ kind, w.2 = .unknownKind kind → odd kind

/-- A step that warns of no unknown kind but those that are told. -/
abbrev Keeps {α : Type} (odd : String → Prop) (m : Lower α) : Prop :=
  ⦃fun s => ⌜Told odd s.warnings⌝⦄ m ⦃⇓ _ s => ⌜Told odd s.warnings⌝⦄

variable (env : LowerEnv) (frames : List JumpFrame) (kind : NodeKind) (span : Span) (label : String)
  (pending : List PendingEdge) (exitKind : Option ExitKind)

@[spec] theorem node_keeps : Keeps odd (node env kind span label exitKind) := by
  mvcgen [node]

@[spec] theorem edge_keeps (source target : Nat) (kind : EdgeKind) (condition : Option String) :
    Keeps odd (edge source target kind condition) := by
  mvcgen [edge, LowerState.addEdges]

@[spec] theorem connect_keeps (target : Nat) : Keeps odd (connect pending target) := by
  mvcgen [connect, LowerState.addEdges]

@[spec] theorem closeBlock_keeps : Keeps odd closeBlock := by
  mvcgen [closeBlock]

@[spec] theorem takeBreaks_keeps (depth : Nat) : Keeps odd (takeBreaks depth) := by
  mvcgen [takeBreaks]

@[spec] theorem join_keeps : Keeps odd (join env kind span label pending exitKind) := by
  mvcgen [join]

@[spec] theorem simple_keeps : Keeps odd (simple env span pending) := by
  mvcgen [simple]

/-- A jump may warn, but of no unknown kind. -/
@[spec] theorem jump_keeps (kind : JumpKind) (label : Option String) :
    Keeps odd (jump env frames kind label span pending) := by
  unfold jump
  split
  · mvcgen [warn]
    grind [Told]
  · cases kind with
    | breaks => mvcgen
    | continues =>
      rename_i frame _
      cases frame.head <;> mvcgen

end Lower

open Lower in
mutual

/-- **Lowering warns of no unknown kinds but those of its statements.** By induction on the tree. -/
theorem lowerStmt_keeps : (s : Stmt) → Stmt.Every (Stmt.Classed odd) [s] →
    ∀ env frames pending, Keeps odd (lowerStmt env frames s pending)
  | .simple span, _, _, _, _ => by mvcgen [lowerStmt]
  | .leave kind span, _, _, _, _ => by mvcgen [lowerStmt]
  | .tryOp span, _, _, _, _ => by mvcgen [lowerStmt]
  | .jump kind label span, _, _, _, _ => by mvcgen [lowerStmt]
  | .unknown kind span, h, _, _, _ => by
    have told : odd kind := h (.unknown kind span) (by simp)
    mvcgen [lowerStmt, warn]
    grind [Told]
  | .branch span condition body orelse, h, _, _, _ => by
    obtain ⟨_, first, second⟩ := Stmt.every_branch.mp h
    have bodies := lowerStmts_keeps body first
    have others := lowerStmts_keeps orelse second
    mvcgen [lowerStmt, bodies, others]
  | .loop span head body orelse, h, _, _, _ => by
    obtain ⟨_, first, second⟩ := Stmt.every_loop.mp h
    have bodies := lowerStmts_keeps body first
    have others := lowerStmts_keeps orelse second
    mvcgen [lowerStmt, bodies, others]
  | .choice span head arms, h, _, _, _ => by
    have cases := lowerArms_keeps arms (Stmt.every_choice.mp h).2
    mvcgen [lowerStmt, cases]
  | .guarded span body handlers orelse final, h, _, _, _ => by
    obtain ⟨_, first, second, third, last⟩ := Stmt.every_guarded.mp h
    have bodies := lowerStmts_keeps body first
    have cases := lowerHandlers_keeps handlers second
    have others := lowerStmts_keeps orelse third
    cases final with
    | none => mvcgen [lowerStmt, bodies, cases, others]
    | some ss =>
      have finals := lowerStmts_keeps ss (last ss rfl)
      mvcgen [lowerStmt, bodies, cases, others, finals]
  | .block span header body, h, _, _, _ => by
    have bodies := lowerStmts_keeps body (Stmt.every_block.mp h).2
    mvcgen [lowerStmt, bodies]

theorem lowerStmts_keeps : (ss : List Stmt) → Stmt.Every (Stmt.Classed odd) ss →
    ∀ env frames pending, Keeps odd (lowerStmts env frames ss pending)
  | [], _, _, _, _ => by mvcgen [lowerStmts]
  | s :: ss, h, _, _, _ => by
    have first := lowerStmt_keeps s (Stmt.every_cons.mp h).1
    have rest := lowerStmts_keeps ss (Stmt.every_cons.mp h).2
    mvcgen [lowerStmts, first, rest]

theorem lowerArms_keeps : (arms : List Arm) → Arm.Every (Stmt.Classed odd) arms →
    ∀ env frames id fallthrough carry, Keeps odd (lowerArms env frames id fallthrough arms carry)
  | [], _, _, _, _, _, _ => by mvcgen [lowerArms]
  | .mk label start body :: arms, h, _, _, _, _, _ => by
    have first := lowerStmts_keeps body (Arm.every_cons.mp h).1
    have rest := lowerArms_keeps arms (Arm.every_cons.mp h).2
    mvcgen [lowerArms, first, rest]

theorem lowerHandlers_keeps : (arms : List Arm) → Arm.Every (Stmt.Classed odd) arms →
    ∀ env frames id, Keeps odd (lowerHandlers env frames id arms)
  | [], _, _, _, _ => by mvcgen [lowerHandlers]
  | .mk label start body :: arms, h, _, _, _ => by
    have first := lowerStmts_keeps body (Arm.every_cons.mp h).1
    have rest := lowerHandlers_keeps arms (Arm.every_cons.mp h).2
    mvcgen [lowerHandlers, first, rest]

end

theorem lowerBody_told {stmts : List Stmt} (h : Stmt.Every (Stmt.Classed odd) stmts)
    (env : LowerEnv) (name : String) (head last : Nat) :
    Lower.Told odd (lowerBody env name head last stmts).2 := by
  have body := lowerStmts_keeps stmts h
  have built : Lower.Keeps odd (do
      let entry ← Lower.node env .entry ⟨head, head + 1⟩ name none
      let pending ← lowerStmts env [] stmts [⟨entry, .fallthrough, none⟩]
      if !pending.isEmpty then
        let _ ← Lower.join env (.exit .returns) ⟨last, last + 1⟩ "end" pending
            (some .returns)) := by
    mvcgen [body]
  exact built {} (by simp [Lower.Told])

/-! ### Bodies -/

/-- A kind that is glued to a jump word has no blanks and is not empty. -/
theorem Glued.solid {kind : List Char} (h : Glued kind) : ' ' ∉ kind ∧ kind ≠ [] := by
  obtain ⟨word, c, tail, rfl, _, solid, _⟩ := h
  refine ⟨fun blank => ?_, by simp⟩
  rcases mem_append.mp blank with inWord | glued
  · revert inWord
    cases word <;> decide
  · exact absurd (solid ' ' glued) (by decide)

def GluedIn (text : List Char) (kind : String) : Prop :=
  Glued kind.toList ∧ kind.toList <:+: text

namespace Indented

/-- The statements behind a header are classed by the text. -/
theorem inlineStatements_classed {t : SourceText} {l : LogicalLine} :
    Stmt.Every (Stmt.Classed (GluedIn t.code)) (inlineStatements (splitHeader t l) l.stop) := by
  have inline : (splitHeader t l).inline <:+: t.code := by
    unfold splitHeader
    split
    · exact (isInfix_trim _).trans ((drop_suffix _ _).isInfix.trans (isInfix_take _ _))
    · exact nil_infix
  have parts (part : List Char) (mem : part ∈ (splitTopLevel ';' (splitHeader t l).inline).filter
      (!isAllBlank ·)) : part <:+: t.code :=
    (infix_of_mem_splitTopLevel (mem_filter.mp mem).1).trans inline
  unfold inlineStatements
  generalize (splitTopLevel ';' (splitHeader t l).inline).filter (!isAllBlank ·) = texts at parts
  induction texts with
  | nil => exact Stmt.every_nil.mpr trivial
  | cons text texts ih =>
    obtain ⟨here, later⟩ := forall_mem_cons.mp parts
    refine Stmt.every_cons.mpr ⟨SimpleKind.toStmt_classed fun kind unknown => ?_, ih later⟩
    obtain ⟨glued, inside⟩ := SimpleKind.ofText_unknown unknown
    exact ⟨glued, inside.trans here⟩

theorem classed_within (t : SourceText) (start stop : Nat) :
    Classed t (GluedIn t.code) ⟨start, (LogicalLine.within t.code start stop).1⟩ := by
  refine fun l mem => ⟨fun kind unknown => ?_, inlineStatements_classed⟩
  obtain ⟨glued, inside⟩ := SimpleKind.ofText_unknown unknown
  obtain ⟨solid, some⟩ := glued.solid
  exact ⟨glued, LogicalLine.infix_of_mem_within mem solid some inside⟩

/-- All suites of a body give classed statements. -/
theorem suites_classed (t : SourceText) (fuel count : Nat) (c : LineCursor) :
    ⦃⌜Classed t odd c⌝⦄ suites t fuel count c ⦃⇓ ss => ⌜Stmt.Every (Stmt.Classed odd) ss⌝⦄ := by
  obtain ⟨suite, -⟩ := @classes odd t fuel
  induction count generalizing c with
  | zero =>
    mvcgen [suites, Reading.giveUp, Reading.stick]
    grind
  | succ count ih =>
    unfold suites
    mvcgen [suite, ih] <;> grind -linarith

end Indented

/-- All bodies give statements of known kinds and of kinds that are glued to a jump word in the
text. -/
theorem bodyStatements_classed (family : Family) (text : SourceText) (entry : Entry) :
    ⦃⌜True⌝⦄ bodyStatements family text entry ⦃⇓ ss =>
      ⌜Stmt.Every (Stmt.Classed (GluedIn text.code)) ss⌝⦄ := by
  have braces (rust : Bool) (fuel stop : Nat) :
      ⦃⌜True⌝⦄ Brace.statements rust fuel ⟨entry.bodyOffset,
        (text.code.take stop).drop entry.bodyOffset, text.source.drop entry.bodyOffset⟩ ⦃⇓ ss =>
          ⌜Stmt.Every (Stmt.Classed (GluedIn text.code)) ss⌝⦄ := by
    have classed : Brace.Classed rust (GluedIn text.code) ⟨entry.bodyOffset,
        (text.code.take stop).drop entry.bodyOffset, text.source.drop entry.bodyOffset⟩ := by
      intro part within kind unknown
      obtain ⟨glued, here⟩ := SimpleKind.ofText_unknown unknown
      exact ⟨glued, here.trans (within.trans ((drop_suffix _ _).isInfix.trans (isInfix_take _ _)))⟩
    obtain ⟨blocks, -⟩ := @Brace.classes (GluedIn text.code) rust fuel
    mvcgen [Brace.statements, blocks]
    grind
  have leaves (span : Span) :
      Stmt.Every (Stmt.Classed (GluedIn text.code)) [.leave .returns span] :=
    @SimpleKind.toStmt_classed _ (.leave .returns) span (by simp)
  unfold bodyStatements bodyStatementsWithin
  cases family with
  | python =>
    have suites := @Indented.suites_classed (GluedIn text.code) text
    have lines := Indented.classed_within text entry.bodyOffset entry.endOffset
    mvcgen [Indented.statements, suites, Reading.warn]
  | rust | curly =>
    mvcgen [braces]
    exact leaves _

/-- **What kinds statements have.** Whatever the text of a file is, every statement of a body has a
kind that lowering knows, or else one that starts with `break` or `continue` and goes on with
something glued to that word, as it stands in the masked text. Lowering warns of no unknown kinds
but those. No text that is classified as simple starts with a word that jumps or leaves. -/
theorem kinds_known_or_glued (file : SourceFile) (entry : Entry) :
    (match parseStatements file entry with
      | .error e => file.language.family = .error e
      | .ok (stmts, _) => ∃ family, file.language.family = .ok family ∧
          (∀ s ∈ Stmt.deep stmts, s.kind ∈ knownKinds ∨ GluedIn (mask family file.text) s.kind) ∧
          ∀ env name head last, ∀ w ∈ (lowerBody env name head last stmts).2, ∀ kind,
            w.2 = .unknownKind kind →
            GluedIn (mask family file.text) kind) ∧
    ∀ rust text, SimpleKind.ofText rust text = .plain →
      ∀ word ∈ ["break", "continue", "return", "throw", "raise"],
        Text.wholeWord? word none (Text.trim text) = none := by
  refine ⟨?_, fun rust text plain => SimpleKind.ofText_plain plain⟩
  cases found : file.language.family with
  | error e => simp [parseStatements, SourceFile.masked, found, bind, Except.bind]
  | ok family =>
    have classed := bodyStatements_classed family ⟨mask family file.text, file.text⟩
      entry {} trivial
    simp only [parseStatements, SourceFile.masked, found, bind, Except.bind, pure, Except.pure]
    refine ⟨family, rfl, fun s member => ?_, lowerBody_told classed⟩
    have told := classed s member
    cases s with
    | unknown kind span => exact .inr told
    | leave kind span => cases kind <;> simp [Stmt.kind, ExitKind.text, knownKinds]
    | jump kind label span => cases kind <;> simp [Stmt.kind, JumpKind.text, knownKinds]
    | _ => simp [Stmt.kind, knownKinds]

def breakWithValue : SourceFile :=
  SourceFile.ofText "a.rs" .rust "fn f() \x7b loop \x7b break(5); \x7d \x7d"

/-- The jump out of that loop has no kind that lowering knows, and lowering only warns of it. -/
theorem break_with_value_unknown :
    (match fileEntries breakWithValue with
      | .ok [e] => (parseStatements breakWithValue e).toOption.map fun parsed =>
          ((Stmt.deep parsed.1).map Stmt.kind,
            (lowerBody ⟨breakWithValue.text, LineMap.ofText breakWithValue.text⟩ e.name 0 0
              parsed.1).2.map (·.2))
      | _ => none) = some (["loop", "break(5)"], [.unknownKind "break(5)"]) ∧
          "break(5)" ∉ knownKinds := by
  decide +kernel

end CodeAtlas
