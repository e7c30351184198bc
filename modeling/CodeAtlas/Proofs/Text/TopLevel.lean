import Mathlib
import CodeAtlas.Text.Bracket

/-!
Splitting outside of brackets.

What a text is cut into is the text again with the separators between the parts, and no part can be
cut further: each of its separators stands inside some bracket (`splitTopLevel_lossless_stable`).
-/

namespace CodeAtlas.Text

open List

variable {sep c : Char} {cs : List Char} {depth : Int} {prev : Option Char}

/-- The nesting depth behind a text. -/
def nestingFrom : (depth : Int) → (prev : Option Char) → List Char → Int
  | depth, _, [] => depth
  | depth, prev, c :: cs => nestingFrom (nestingAfter depth prev c) (some c) cs

theorem nestingAfter_blank (blank : isBlank c = true) : nestingAfter depth prev c = depth := by
  have visible : ['(', '[', '{', ')', ']', '}', '<', '>'].all (!isBlank ·) = true := by decide
  have plain : c ∉ ['(', '[', '{', ')', ']', '}', '<', '>'] := fun mem => by
    simpa [blank] using all_eq_true.mp visible c mem
  simp only [mem_cons, not_mem_nil, or_false, not_or] at plain
  simp [nestingAfter, isOpener, isCloser, plain]

theorem nestingFrom_blank (blank : isAllBlank cs = true) : nestingFrom depth prev cs = depth := by
  induction cs generalizing prev with
  | nil => rfl
  | cons c cs ih =>
    simp only [isAllBlank, all_cons, Bool.and_eq_true] at blank
    rw [nestingFrom, nestingAfter_blank blank.1, ih blank.2]

/-- What stands before a text matters only where some bracket is open. -/
theorem splitNestedFrom_zero (prev prev' : Option Char) (cs : List Char) :
    splitNestedFrom sep 0 prev cs = splitNestedFrom sep 0 prev' cs := by
  cases cs with
  | nil => rfl
  | cons c cs => simp [splitNestedFrom, nestingAfter]

/-- The first part is one part from the depth at which the text starts, the others from depth
zero. -/
theorem splitNestedFrom_parts (sep : Char) (depth : Int) (prev : Option Char) (cs : List Char) :
    ∃ first parts, splitNestedFrom sep depth prev cs = first :: parts ∧
      join [sep] (first :: parts) = cs ∧
      splitNestedFrom sep depth prev first = [first] ∧
      ∀ part ∈ parts, splitNestedFrom sep 0 none part = [part] := by
  induction cs generalizing depth prev with
  | nil => exact ⟨[], [], rfl, rfl, rfl, by simp⟩
  | cons c cs ih =>
    obtain ⟨first, parts, split, joined, here, later⟩ := ih (nestingAfter depth prev c) (some c)
    rw [splitNestedFrom, split]
    split
    · rename_i cut
      simp only [Bool.and_eq_true, beq_iff_eq] at cut
      obtain ⟨rfl, level⟩ := cut
      rw [level, splitNestedFrom_zero _ none] at here
      refine ⟨[], first :: parts, rfl, ?_, rfl, forall_mem_cons.mpr ⟨here, later⟩⟩
      rw [← joined]
      rfl
    · rename_i stays
      refine ⟨c :: first, parts, rfl, ?_, ?_, later⟩
      · rw [← joined]
        cases parts <;> rfl
      · rw [splitNestedFrom, here, if_neg stays]
        rfl

/-- A text of one part is inside some bracket at each separator. -/
theorem nestingFrom_ne_zero (alone : splitNestedFrom sep depth prev cs = [cs])
    {pre post : List Char} (whole : cs = pre ++ sep :: post) :
    nestingFrom depth prev (pre ++ [sep]) ≠ 0 := by
  induction pre generalizing cs depth prev with
  | nil =>
    subst whole
    intro level
    simp [splitNestedFrom, show nestingAfter depth prev sep = 0 from level] at alone
  | cons c pre ih =>
    subst whole
    obtain ⟨first, parts, split, -⟩ :=
      splitNestedFrom_parts sep (nestingAfter depth prev c) (some c) (pre ++ sep :: post)
    rw [cons_append, splitNestedFrom, split] at alone
    split at alone
    · simp at alone
    · obtain ⟨same, rfl⟩ := cons.inj alone
      rw [(cons.inj same).2] at split
      exact ih split rfl

/-- Cutting a text loses nothing, and its parts cannot be cut again. The depth is that behind a
separator; one that is no bracket leaves it as it is. -/
theorem splitTopLevel_lossless_stable (sep : Char) (cs : List Char) :
    (splitTopLevel sep cs = [] ↔ isAllBlank cs = true ∧ sep ∉ cs) ∧
      (splitTopLevel sep cs ≠ [] → join [sep] (splitTopLevel sep cs) = cs) ∧
      ∀ part ∈ splitTopLevel sep cs,
        splitTopLevel sep part = (if isAllBlank part then [] else [part]) ∧
          ∀ pre post, part = pre ++ sep :: post → nestingFrom 0 none (pre ++ [sep]) ≠ 0 := by
  obtain ⟨first, parts, split, joined, here, later⟩ := splitNestedFrom_parts sep 0 none cs
  have again {part : List Char} (alone : splitNestedFrom sep 0 none part = [part]) :
      splitTopLevel sep part = (if isAllBlank part then [] else [part]) ∧
        ∀ pre post, part = pre ++ sep :: post → nestingFrom 0 none (pre ++ [sep]) ≠ 0 :=
    ⟨by rw [splitTopLevel, alone], fun pre post => nestingFrom_ne_zero alone⟩
  cases parts with
  | nil =>
    -- One part is the whole text, and a blank text is at depth zero everywhere.
    obtain rfl : first = cs := by simpa [join] using joined
    have blank (all : isAllBlank first = true) : sep ∉ first := by
      intro mem
      obtain ⟨pre, post, rfl⟩ := append_of_mem mem
      refine nestingFrom_ne_zero here rfl (nestingFrom_blank ?_)
      simp_all [isAllBlank]
    rw [(again here).1]
    by_cases all : isAllBlank first = true
    · simp [all, blank all]
    · simpa [all, join] using again here
  | cons second parts =>
    have separated : sep ∈ cs := by
      rw [← joined]
      simp [join]
    rw [splitTopLevel, split]
    refine ⟨by simp [separated], fun _ => joined,
      forall_mem_cons.mpr ⟨again here, fun part mem => again (later part mem)⟩⟩

end CodeAtlas.Text
