import Mathlib
import CodeAtlas.Text.Bracket
import CodeAtlas.Text.Word

/-!
What the recognisers of words leave of a text.

A recogniser cuts a text: what it reads and the rest are the text again (`after?_eq_some_iff`,
`breakAt_eq_some`, `cutAt?_eq_some`, `dollarName?_eq_some`). A place is an edge (`Edge`) when no
word goes on across it.
-/

namespace CodeAtlas

open List

variable {c : Char}

theorem isDollarWordChar_of_isBlank (blank : isBlank c = true) : isDollarWordChar c = false := by
  have code : c.toNat ∈ [9, 10, 11, 12, 13, 28, 29, 30, 31, 32, 0x85, 0xA0, 0x1680, 0x2000, 0x2001,
      0x2002, 0x2003, 0x2004, 0x2005, 0x2006, 0x2007, 0x2008, 0x2009, 0x200A,
      0x2028, 0x2029, 0x202F,
      0x205F, 0x3000] := by
    simp only [isBlank, Bool.or_eq_true, Bool.and_eq_true, decide_eq_true_eq, beq_iff_eq,
      UInt32.le_iff_toNat_le, ← UInt32.toNat_inj, Char.toNat_val] at blank
    simp only [mem_cons, not_mem_nil, or_false]
    simp only [UInt32.reduceToNat] at blank
    omega
  rw [← Char.ofNat_toNat c]
  generalize c.toNat = k at code
  revert k
  decide +kernel

theorem isDollarWordChar_of_isOpener (opener : isOpener c = true) : isDollarWordChar c = false := by
  simp only [isOpener, Bool.or_eq_true, beq_iff_eq] at opener
  rcases opener with (rfl | rfl) | rfl <;> decide

theorem isDollarWordChar_of_isCloser (closer : isCloser c = true) : isDollarWordChar c = false := by
  simp only [isCloser, Bool.or_eq_true, beq_iff_eq] at closer
  rcases closer with (rfl | rfl) | rfl <;> decide

theorem isDollarWordChar_of_isDollarNameStart (start : isDollarNameStart c = true) :
    isDollarWordChar c = true := by
  simp only [isDollarNameStart, isNameStart, Bool.or_eq_true, beq_iff_eq] at start
  simp only [isDollarWordChar, isWordChar, isAlnum, Bool.or_eq_true, beq_iff_eq]
  rcases start with (letter | rfl) | rfl
  · have ascii : c.val < 128 := by
      simp only [Char.isAlpha, Char.isUpper, Char.isLower, Bool.or_eq_true, Bool.and_eq_true,
        decide_eq_true_eq, UInt32.le_iff_toNat_le, ge_iff_le] at letter
      rw [UInt32.lt_iff_toNat_lt]
      rcases letter with ⟨_, high⟩ | ⟨_, high⟩
      · exact Nat.lt_of_le_of_lt high (by decide)
      · exact Nat.lt_of_le_of_lt high (by decide)
    simp [ascii, Char.isAlphanum, letter]
  · simp
  · simp

namespace Text

variable {lead cs rest pre post name : List Char} {p : Option Char → List Char → Bool} {c : Char}

/-- A text goes on behind a lead exactly if it starts with it. -/
theorem after?_eq_some_iff : after? lead cs = some rest ↔ cs = lead ++ rest := by
  induction lead generalizing cs with
  | nil => simp [after?]
  | cons a lead ih =>
    cases cs with
    | nil => simp [after?]
    | cons c cs =>
      by_cases same : a = c
      · simp [after?, same, ih]
      · simp [after?, same, Ne.symm same]

theorem startsWith_iff : startsWith cs lead = true ↔ lead <+: cs := by
  unfold startsWith
  rw [Option.isSome_iff_exists]
  constructor
  · rintro ⟨rest, read⟩
    exact ⟨rest, (after?_eq_some_iff.mp read).symm⟩
  · rintro ⟨rest, whole⟩
    exact ⟨rest, after?_eq_some_iff.mpr whole.symm⟩

/-- The place that is found cuts the text in two. -/
theorem breakAt_eq_some {before : Option Char} (h : breakAt p before cs = some (pre, post)) :
    cs = pre ++ post ∧ p (pre.getLast?.or before) post = true := by
  induction cs generalizing before pre with
  | nil =>
    unfold breakAt at h
    split at h
    · cases h
      exact ⟨rfl, by simpa using ‹_›⟩
    · cases h
  | cons c cs ih =>
    unfold breakAt at h
    split at h
    · cases h
      exact ⟨rfl, by simpa using ‹_›⟩
    · obtain ⟨⟨pre', post'⟩, found, same⟩ := Option.map_eq_some_iff.mp h
      cases same
      obtain ⟨rfl, holds⟩ := ih found
      refine ⟨rfl, ?_⟩
      rw [getLast?_cons]
      cases last : pre'.getLast? <;> simpa [last] using holds

/-- A text that is cut is its two parts with the separator between them. -/
theorem cutAt?_eq_some {sep : List Char} (h : cutAt? sep cs = some (pre, post)) :
    cs = pre ++ sep ++ post := by
  simp only [cutAt?, Option.bind_eq_bind, Option.bind_eq_some_iff, Option.pure_def] at h
  obtain ⟨⟨pre', rest⟩, found, same⟩ := h
  cases same
  obtain ⟨rfl, starts⟩ := breakAt_eq_some found
  obtain ⟨post, rfl⟩ := startsWith_iff.mp starts
  simp

/-- A text is cut at once, or behind its first character. -/
theorem cutAt?_cons (sep : List Char) (c : Char) (cs : List Char) : cutAt? sep (c :: cs) =
    if startsWith (c :: cs) sep then some ([], (c :: cs).drop sep.length)
    else (cutAt? sep cs).map (Prod.map (c :: ·) id) := by
  have blind : breakAt (fun _ rest => startsWith rest sep) (some c) cs =
      breakAt (fun _ rest => startsWith rest sep) none cs := by
    unfold breakAt
    rfl
  rw [cutAt?, breakAt]
  split
  · rfl
  · rw [cutAt?, blind]
    cases breakAt (fun _ rest => startsWith rest sep) none cs <;> rfl

theorem splitBy_eq_splitOnP (p : Char → Bool) (cs : List Char) : splitBy p cs = cs.splitOnP p := by
  induction cs with
  | nil => rfl
  | cons c cs ih =>
    rw [splitBy, ih, splitOnP_cons_eq_if_modifyHead]
    cases parts : cs.splitOnP p with
    | nil => exact absurd parts (splitOnP_ne_nil p cs)
    | cons part parts => rfl

theorem splitBy_ne_nil (p : Char → Bool) (cs : List Char) : splitBy p cs ≠ [] :=
  splitBy_eq_splitOnP p cs ▸ splitOnP_ne_nil p cs

/-- A part ends where the first character cuts. -/
theorem splitBy_append {p : Char → Bool} {part : List Char} (inside : ∀ c ∈ part, p c = false)
    (breaks : p c = true) (cs : List Char) :
    splitBy p (part ++ c :: cs) = part :: splitBy p cs := by
  simp only [splitBy_eq_splitOnP, splitOnP_append_cons_of_forall_mem inside c breaks]

/-- A property that holds at no place holds nowhere that the text is cut. -/
theorem anyPlace_eq_false (h : anyPlace p cs = false) (pre post : List Char)
    (cut : cs = pre ++ post) :
    p pre.getLast? post = false := by
  have search (before : Option Char) (none : breakAt p before cs = none) :
      p (pre.getLast?.or before) post = false := by
    clear h
    subst cut
    induction pre generalizing before with
    | nil =>
      unfold breakAt at none
      split at none
      · cases none
      · rename_i here
        simpa using here
    | cons c pre ih =>
      unfold breakAt at none
      split at none
      · cases none
      · have later := ih (some c) (by simpa using none)
        rw [getLast?_cons]
        cases last : pre.getLast? <;> simpa [last] using later
  have none : breakAt p none cs = none := by simpa [anyPlace] using h
  simpa using search Option.none none

theorem name?_append {word : List Char} (start : isNameStart c = true)
    (inside : ∀ c ∈ word, isWordChar c = true) (apart : rest.head?.all (!isWordChar ·) = true) :
    name? (c :: word ++ rest) = some (c :: word, rest) := by
  have stop : rest.takeWhile isWordChar = [] ∧ rest.dropWhile isWordChar = rest := by
    cases rest with
    | nil => exact ⟨rfl, rfl⟩
    | cons d rest =>
      have outside : isWordChar d = false := by simpa using apart
      simp [outside]
  rw [cons_append, name?, if_pos start, takeWhile_append_of_pos inside,
    dropWhile_append_of_pos inside, stop.1, stop.2, append_nil]

/-- A name is cut off in full: it is not empty, and the rest does not go on with it. -/
theorem dollarName?_eq_some (h : dollarName? cs = some (name, rest)) :
    cs = name ++ rest ∧ name ≠ [] ∧ (∀ c ∈ name, isDollarWordChar c = true) ∧
      ∀ c ∈ rest.head?, isDollarWordChar c = false := by
  unfold dollarName? at h
  split at h
  · rename_i c tail
    split at h
    · rename_i start
      cases h
      refine ⟨by simp, by simp, ?_, ?_⟩
      · intro d mem
        rcases mem_cons.mp mem with rfl | later
        · exact isDollarWordChar_of_isDollarNameStart start
        · exact mem_takeWhile_imp later
      · intro d first
        have := head?_dropWhile_not isDollarWordChar tail
        rw [Option.mem_def.mp first] at this
        simpa using this
    · cases h
  · cases h

/-- A name is read in the same way when the text goes on behind it with something else. -/
theorem dollarName?_append {more : List Char} (h : dollarName? cs = some (name, rest))
    (ends : ∀ c ∈ more.head?, isDollarWordChar c = false) :
    dollarName? (cs ++ more) = some (name, rest ++ more) := by
  unfold dollarName? at h
  split at h
  · rename_i c tail
    split at h
    · rename_i start
      cases h
      have stop : more.takeWhile isDollarWordChar = [] ∧
          more.dropWhile isDollarWordChar = more := by
        cases more with
        | nil => simp
        | cons d more => simp [ends d rfl]
      simp only [dollarName?, cons_append, start, if_true, Option.some.injEq, Prod.mk.injEq,
        cons.injEq, true_and]
      by_cases all : ∀ d ∈ tail, isDollarWordChar d = true
      · rw [takeWhile_append_of_pos all, dropWhile_append_of_pos all, stop.1, stop.2,
          takeWhile_eq_self_iff.mpr all, dropWhile_eq_nil_iff.mpr all]
        simp
      · have some : tail.dropWhile isDollarWordChar ≠ [] := by
          rwa [Ne, dropWhile_eq_nil_iff]
        have short : (tail.takeWhile isDollarWordChar).length ≠ tail.length := by
          intro long
          apply all
          have front : tail.takeWhile isDollarWordChar <+: tail := takeWhile_prefix _
          exact takeWhile_eq_self_iff.mp (front.eq_of_length long)
        rw [takeWhile_append, if_neg short, dropWhile_append]
        simp [some]
    · cases h
  · cases h

/-! ### Edges of words -/

/-- The last character of the first text belongs to no word, or the second text starts with no
word. -/
def Apart (pre post : List Char) : Prop :=
  (∃ c ∈ pre.getLast?, isDollarWordChar c = false) ∨ ∀ c ∈ post.head?, isDollarWordChar c = false

theorem Apart.append_left (h : Apart pre post) (front : List Char) : Apart (front ++ pre) post := by
  rcases h with ⟨c, last, plain⟩ | plain
  · left
    refine ⟨c, ?_, plain⟩
    rw [getLast?_append, Option.mem_def.mp last]
    rfl
  · exact .inr plain

/-- No word goes on across the place behind the first `n` characters. -/
def Edge (cs : List Char) (n : Nat) : Prop :=
  ∃ pre post, cs = pre ++ post ∧ pre.length = n ∧ Apart pre post

theorem Edge.succ {n : Nat} (h : Edge cs n) : Edge (c :: cs) (n + 1) := by
  obtain ⟨pre, post, rfl, rfl, apart⟩ := h
  exact ⟨c :: pre, post, rfl, rfl, apart.append_left [c]⟩

/-- There is an edge before a text that starts with no word. -/
theorem edge_before (pre : List Char)
    (plain : ∀ c ∈ post.head?, isDollarWordChar c = false) : Edge (pre ++ post) pre.length :=
  ⟨pre, post, rfl, rfl, .inr plain⟩

theorem edge_after (pre : List Char) (post : List Char)
    (plain : isDollarWordChar c = false) : Edge (pre ++ c :: post) (pre.length + 1) :=
  ⟨pre ++ [c], post, by simp, by simp, .inl ⟨c, by simp, plain⟩⟩

theorem edge_zero (plain : ∀ c ∈ cs.head?, isDollarWordChar c = false) : Edge cs 0 :=
  edge_before [] plain

theorem edge_length (cs : List Char) : Edge cs cs.length :=
  ⟨cs, [], by simp, rfl, .inr (by simp)⟩

theorem edge_name (h : dollarName? cs = some (name, rest)) : Edge cs name.length := by
  obtain ⟨rfl, _, _, ends⟩ := dollarName?_eq_some h
  exact edge_before name ends

end Text

end CodeAtlas
