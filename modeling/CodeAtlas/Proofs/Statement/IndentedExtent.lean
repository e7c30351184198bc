import CodeAtlas.Proofs.Source.LineExtent
import CodeAtlas.Proofs.Statement.Reading
import CodeAtlas.Statement.Indented

/-!
Where the statements of an indented body lie.

A reader of an indented body goes from line to line (`LineCursor.Leads`). With enough fuel for the
lines that are left, every function of the reader ends by itself and reads statements in the body
(`Indented.Enough`), and with more fuel it reads the same (`Indented.Refined`). Both are kept from
one unit of fuel to the next, so they hold for whole bodies (`Indented.statements_agree`).
-/

set_option mvcgen.warning false

namespace CodeAtlas

open Std.Do Reading

/-! ### From line to line -/

/-- Lines in order are in order behind those that are dropped. -/
theorem LogicalLine.InOrder.drop {stop start : Nat} {front back : List LogicalLine}
    (le : start ≤ stop) (h : InOrder stop start (front ++ back)) :
    start ≤ (front.getLast?.map (·.stop)).getD start ∧
      (front.getLast?.map (·.stop)).getD start ≤ stop ∧
      InOrder stop ((front.getLast?.map (·.stop)).getD start) back := by
  induction front generalizing start with
  | nil => exact ⟨Nat.le_refl _, le, h⟩
  | cons l front ih =>
    obtain ⟨first, some, last, rest⟩ := h
    have tail := ih last rest
    rw [List.getLast?_cons]
    cases ended : front.getLast? with
    | none =>
      simp only [ended, Option.map_none, Option.getD_none] at tail
      exact ⟨by simp; omega, last, tail.2.2⟩
    | some l' =>
      simp only [ended, Option.map_some, Option.getD_some] at tail ⊢
      exact ⟨by omega, tail.2.1, tail.2.2⟩

namespace LineCursor

variable {lo hi : Nat} {c next : LineCursor}

/-- The lines that are left follow one another, behind the last one read, between two offsets. -/
structure Valid (lo hi : Nat) (c : LineCursor) : Prop where
  lo_le : lo ≤ c.lastStop
  le_hi : c.lastStop ≤ hi
  inOrder : LogicalLine.InOrder hi c.lastStop c.rest

structure Leads (lo hi : Nat) (c next : LineCursor) : Prop where
  valid : next.Valid lo hi
  lastStop_le : c.lastStop ≤ next.lastStop
  rest_le : next.rest.length ≤ c.rest.length

def Passed (c next : LineCursor) : Prop :=
  ∀ l rest, c.rest = l :: rest → l.stop ≤ next.lastStop ∧ next.rest.length ≤ rest.length

attribute [grind →] Valid.le_hi Leads.valid Leads.lastStop_le Leads.rest_le

@[grind →] theorem Valid.leads (h : c.Valid lo hi) : c.Leads lo hi c :=
  ⟨h, Nat.le_refl _, Nat.le_refl _⟩

@[grind →] theorem Leads.trans {last : LineCursor} (first : c.Leads lo hi next)
    (second : next.Leads lo hi last) :
    c.Leads lo hi last :=
  ⟨second.valid, Nat.le_trans first.lastStop_le second.lastStop_le,
    Nat.le_trans second.rest_le first.rest_le⟩

/-- The next line lies between the offsets, and its end is the next place. -/
@[grind →] theorem Valid.cons {l : LogicalLine} {rest : List LogicalLine} (h : c.Valid lo hi)
    (lines : c.rest = l :: rest) :
    lo ≤ l.start ∧ l.start < l.stop ∧ l.stop ≤ hi ∧ c.Leads lo hi ⟨l.stop, rest⟩ := by
  obtain ⟨begins, _, order⟩ := h
  rw [lines] at order
  obtain ⟨first, some, last, order⟩ := order
  exact ⟨by omega, some, last,
    ⟨by simp only; omega, last, order⟩, by simp only; omega, by simp [lines]⟩

end LineCursor

namespace Indented

variable {t : SourceText} {lo hi n n' : Nat} {c : LineCursor} {l : LogicalLine}

/-! ### Parts of statements -/

/-- All that has been read of a guarded statement lies between two offsets. -/
structure GuardParts.InBounds (lo hi : Nat) (parts : GuardParts) : Prop where
  handlers : Arm.InBounds lo hi parts.handlers
  orelse : Stmt.InBounds lo hi parts.orelse
  final : ∀ ss ∈ parts.final, Stmt.InBounds lo hi ss

theorem splitHeader_fits (colon : (Text.headerColon? t.code l.start l.stop).isNone = false) :
    l.start + (splitHeader t l).header.length ≤ l.stop := by
  obtain ⟨place, found⟩ := Option.isSome_iff_exists.mp (Option.isNone_eq_false_iff.mp colon)
  have bounds := Text.headerColon?_bounds found
  simp only [splitHeader, found, SourceText.sourceBetween, List.length_drop, List.length_take]
  omega

def HeaderFits (t : SourceText) (c : LineCursor) (header : List Char) : Prop :=
  ∀ l rest, c.rest = l :: rest → (Text.headerColon? t.code l.start l.stop).isNone = false →
    l.start + header.length ≤ l.stop

/-- The statements behind a header lie in its line. -/
theorem inlineStatements_inBounds (here : lo ≤ l.start) (some : l.start < l.stop)
    (inside : l.stop ≤ hi) :
    Stmt.InBounds lo hi (inlineStatements (splitHeader t l) l.stop) := by
  have at' : l.start ≤ (splitHeader t l).inlineAt ∧ (splitHeader t l).inlineAt ≤ l.stop := by
    unfold splitHeader
    split
    · rename_i colon found
      have bounds := Text.headerColon?_bounds found
      exact ⟨by simp only; omega, by simp only; omega⟩
    · exact ⟨Nat.le_of_lt some, Nat.le_refl _⟩
  unfold inlineStatements
  generalize (Text.splitTopLevel ';' (splitHeader t l).inline).filter (!Text.isAllBlank ·) = parts
  induction parts with
  | nil => exact Stmt.every_nil.mpr trivial
  | cons part parts ih =>
    refine Stmt.every_cons.mpr ⟨Stmt.every_toStmt.mpr (Stmt.inside_iff.mpr ?_), ih⟩
    rw [SimpleKind.span_toStmt]
    exact ⟨by simp only; omega, at'.2, inside⟩

/-- A definition inside a body is passed over with all lines that are deeper. -/
theorem definition_leads {rest inner : List LogicalLine} {next : LineCursor}
    (valid : c.Valid lo hi) (lines : c.rest = l :: rest)
    (deeper : inner = rest.takeWhile (l.indent < ·.indent))
    (ends : next = ⟨(inner.getLast?.map (·.stop)).getD l.stop, rest.drop inner.length⟩) :
    c.Leads lo hi next ∧ c.Passed next := by
  obtain ⟨begins, _, order⟩ := valid
  rw [lines] at order
  obtain ⟨first, some, last, order⟩ := order
  obtain ⟨back, parts⟩ := List.takeWhile_prefix (l := rest) fun l' => decide (l.indent < l'.indent)
  rw [← deeper] at parts
  subst parts ends
  obtain ⟨onward, ends, order⟩ := LogicalLine.InOrder.drop last order
  rw [List.drop_left]
  refine ⟨⟨⟨by simp only; omega, ends, order⟩, by simp only; omega, by simp [lines]; omega⟩, ?_⟩
  intro l' rest' lines'
  cases lines.symm.trans lines'
  exact ⟨onward, by simp⟩

/-! ### Enough fuel -/

/-- How much fuel a suite needs: one unit more where its first line is deeper than the suite. -/
def suiteNeeds (indent : Nat) (c : LineCursor) : Nat :=
  4 * c.rest.length + if c.rest.head?.any (indent < ·.indent) then 4 else 3

/-- With fuel `n` everything is read to its end, and in the body. Each function needs four units for
each line that is left, and some more to reach the next function that takes a line. -/
structure Enough (t : SourceText) (lo hi n : Nat) : Prop where
  suite : ∀ indent c, Ends (suite t n indent c) (c.Valid lo hi ∧ suiteNeeds indent c ≤ n) fun r =>
    c.Leads lo hi r.2 ∧ Stmt.InBounds lo hi r.1 ∧
      (c.rest.head?.any (indent ≤ ·.indent) → c.Passed r.2)
  body : ∀ c, Ends (body t n c) (c.Valid lo hi ∧ 4 * c.rest.length + 1 ≤ n) fun r =>
    c.Leads lo hi r.2.2 ∧ Stmt.InBounds lo hi r.1 ∧ c.Passed r.2.2 ∧ HeaderFits t c r.2.1
  statement : ∀ c, Ends (statement t n c) (c.Valid lo hi ∧ 4 * c.rest.length + 2 ≤ n) fun r =>
    c.Leads lo hi r.2 ∧ Stmt.InBounds lo hi r.1.toList ∧ c.Passed r.2
  alternatives : ∀ indent c,
    Ends (alternatives t n indent c) (c.Valid lo hi ∧ 4 * c.rest.length + 2 ≤ n) fun r =>
    c.Leads lo hi r.2 ∧ Stmt.InBounds lo hi r.1
  guardParts : ∀ indent parts c, Ends (guardParts t n indent parts c)
    (c.Valid lo hi ∧ parts.InBounds lo hi ∧ 4 * c.rest.length + 2 ≤ n) fun r =>
      c.Leads lo hi r.2 ∧ r.1.InBounds lo hi
  cases : ∀ indent c, Ends (cases t n indent c) (c.Valid lo hi ∧ 4 * c.rest.length + 2 ≤ n) fun r =>
    c.Leads lo hi r.2 ∧ Arm.InBounds lo hi r.1

/-- **One more unit of fuel is enough**, where what is left is enough for the calls. One case for
each function. -/
theorem enough_succ (h : Enough t lo hi n) : Enough t lo hi (n + 1) where
  suite indent c := by
    obtain ⟨suites, -, statements, -, -, -⟩ := h
    unfold suite
    mvcgen [suites, statements, warn]
    all_goals clear suites statements
    all_goals grind -linarith [LineCursor.Passed, suiteNeeds]
  body c := by
    obtain ⟨suites, -, -, -, -, -⟩ := h
    unfold body
    mvcgen [suites, warn]
    all_goals clear suites
    all_goals grind -linarith [LineCursor.Passed, HeaderFits, splitHeader_fits,
      inlineStatements_inBounds, suiteNeeds]
  statement c := by
    obtain ⟨-, bodies, -, others, guards, arms⟩ := h
    unfold statement
    mvcgen [bodies, others, guards, arms, warn]
    all_goals clear bodies others guards arms
    all_goals grind -linarith [LineCursor.Passed, GuardParts.InBounds, HeaderFits, definition_leads]
  alternatives indent c := by
    obtain ⟨-, bodies, -, others, -, -⟩ := h
    unfold alternatives
    mvcgen [bodies, others]
    all_goals clear bodies others
    all_goals grind -linarith [LineCursor.Passed]
  guardParts indent parts c := by
    obtain ⟨-, bodies, -, -, guards, -⟩ := h
    unfold guardParts
    mvcgen [bodies, guards]
    all_goals clear bodies guards
    all_goals grind -linarith [LineCursor.Passed, GuardParts.InBounds]
  cases indent c := by
    obtain ⟨-, bodies, -, -, -, arms⟩ := h
    unfold cases
    mvcgen [bodies, arms, warn]
    all_goals clear bodies arms
    all_goals grind -linarith [LineCursor.Passed]

/-- By induction every amount of fuel is enough for what needs no more. -/
theorem enough (n : Nat) : Enough t lo hi n := by
  induction n with
  | zero =>
    constructor <;> intros <;> apply ends_of_not
    all_goals grind -linarith [suiteNeeds]
  | succ n ih => exact enough_succ ih

/-! ### More fuel -/

/-- With fuel `n'` all functions of the reader give what they give with fuel `n`, unless that gets
stuck. -/
structure Refined (t : SourceText) (n n' : Nat) : Prop where
  suite : ∀ indent c, Refines (suite t n indent c) (suite t n' indent c)
  body : ∀ c, Refines (body t n c) (body t n' c)
  statement : ∀ c, Refines (statement t n c) (statement t n' c)
  alternatives : ∀ indent c, Refines (alternatives t n indent c) (alternatives t n' indent c)
  guardParts : ∀ indent parts c,
    Refines (guardParts t n indent parts c) (guardParts t n' indent parts c)
  cases : ∀ indent c, Refines (cases t n indent c) (cases t n' indent c)

/-- The fuel only goes to the next calls, so both readings take the same branches. -/
theorem refined_succ (h : Refined t n n') : Refined t (n + 1) (n' + 1) := by
  obtain ⟨suites, bodies, statements, others, guards, arms⟩ := h
  constructor <;> intros <;> simp only [suite, body, statement, alternatives, guardParts, cases]
  all_goals repeat' with_reducible first
    | apply suites
    | apply bodies
    | apply statements
    | apply others
    | apply guards
    | apply arms
    | apply refines_pure
    | apply refines_warn
    | refine Refines.bind ?_ fun _ => ?_
    | apply refines_ite
    | split

/-- By induction on the fuel that is there. -/
theorem refined_of_le (le : n ≤ n') : Refined t n n' := by
  induction n generalizing n' with
  | zero =>
    constructor <;> intros <;>
      simp only [suite, body, statement, alternatives, guardParts, cases, refines_giveUp]
  | succ n ih =>
    obtain ⟨m, rfl⟩ : ∃ m, n' = m + 1 := ⟨n' - 1, by omega⟩
    exact refined_succ (ih (by omega))

/-! ### Bodies -/

/-- All suites of a body are read to their end. -/
theorem suites_ends (k : Nat) (c : LineCursor) :
    Ends (suites t n k c) (c.Valid lo hi ∧ 4 * c.rest.length + 3 ≤ n ∧ c.rest.length < k)
      (Stmt.InBounds lo hi) := by
  obtain ⟨suiteEnds, -⟩ := @enough t lo hi n
  induction k generalizing c with
  | zero => exact ends_of_not (by omega)
  | succ k ih =>
    unfold suites
    mvcgen [suiteEnds, ih]
    all_goals clear suiteEnds ih
    all_goals grind -linarith [LineCursor.Passed, suiteNeeds]

/-- With more fuel, and with more suites allowed, they are read alike. -/
theorem suites_refines (le : n ≤ n') {k k' : Nat} (count : k ≤ k') (c : LineCursor) :
    Refines (suites t n k c) (suites t n' k' c) := by
  induction k generalizing k' c with
  | zero => exact refines_giveUp _ _
  | succ k ih =>
    obtain ⟨k', rfl⟩ : ∃ m, k' = m + 1 := ⟨k' - 1, by omega⟩
    rw [suites, suites]
    split
    · exact refines_pure _
    · exact ((refined_of_le le).suite _ _).bind fun _ =>
        (ih (by omega) _).bind fun _ => refines_pure _

/-- A body is read in the same way with any fuel that is enough, and its statements lie in it. -/
theorem statements_agree {start stop : Nat} (le : start ≤ stop) (fuel : 4 * (stop - start + 1) ≤ n)
    (more : n ≤ n') :
    Agree (statements t n start stop) (statements t n' start stop) (Stmt.InBounds start stop) := by
  have order := LogicalLine.within_inOrder t.code start stop
  have short := order.length_le
  have read := @suites_ends t start stop n
  have ends : Ends (statements t n start stop) True (Stmt.InBounds start stop) := by
    unfold statements
    mvcgen [read, warn]
    all_goals clear read
    all_goals grind -linarith [LineCursor.Valid]
  refine ends.agree trivial ?_
  simp only [statements]
  split
  · exact (refines_warn _ _).bind fun _ => suites_refines more more _
  · exact suites_refines more more _

end Indented

end CodeAtlas
