import CodeAtlas.Proofs.Text.Reading
import CodeAtlas.Source.LogicalLine

/-!
Where logical lines lie.

The logical lines of a stretch of text follow one another inside the stretch, and none of them is
empty (`LogicalLine.within_inOrder`). The colon of a header lies inside its line
(`headerColon?_bounds`).
-/

namespace CodeAtlas

open List Text

namespace PhysicalLine

variable {stop : Nat}

/-- The lines follow one another between two offsets, each with room for its characters. -/
def InOrder (stop : Nat) : (start : Nat) → List PhysicalLine → Prop
  | _, [] => True
  | start, l :: ls =>
      start ≤ l.start ∧ l.start + l.chars.length ≤ l.stop ∧ l.stop ≤ stop ∧ InOrder stop l.stop ls

theorem InOrder.mono {start start' : Nat} {ls : List PhysicalLine} (le : start' ≤ start)
    (h : InOrder stop start ls) : InOrder stop start' ls := by
  cases ls with
  | nil => trivial
  | cons l ls => exact ⟨Nat.le_trans le h.1, h.2⟩

/-- The space that the parts of a text take, with a line feed behind each. -/
def spaceOf (parts : List (List Char)) : Nat :=
  (parts.map (·.length + 1)).sum

/-- The parts of a text take its length, and one for the end. -/
theorem spaceOf_splitBy (p : Char → Bool) (cs : List Char) :
    spaceOf (Text.splitBy p cs) = cs.length + 1 := by
  induction cs with
  | nil => simp [Text.splitBy, spaceOf]
  | cons c cs ih =>
    obtain ⟨part, parts, shape⟩ := exists_cons_of_ne_nil (Text.splitBy_ne_nil p cs)
    unfold Text.splitBy
    split
    · simp only [spaceOf, map_cons, sum_cons, length_nil, length_cons] at ih ⊢
      omega
    · simp only [shape, Text.consFirst, spaceOf, map_cons, sum_cons, length_cons] at ih ⊢
      omega

theorem ofParts_inOrder (start number : Nat) (parts : List (List Char))
    (room : start + spaceOf parts ≤ stop + 1) :
    InOrder stop start (ofParts stop start number parts) := by
  fun_induction ofParts stop start number parts with
  | case1 => trivial
  | case2 start number part lt =>
    simp only [spaceOf, map_cons, map_nil, sum_cons, sum_nil] at room
    exact ⟨Nat.le_refl _, by simp only; omega, Nat.le_refl _, trivial⟩
  | case3 => trivial
  | case4 start number part parts some ih =>
    simp only [spaceOf, map_cons, sum_cons] at room ih
    refine ⟨Nat.le_refl _, Nat.le_refl _, by simp only; omega, ?_⟩
    exact (ih (by omega)).mono (by simp)

theorem within_inOrder (text : List Char) (start stop : Nat) :
    InOrder stop start (within text start stop) := by
  unfold within
  by_cases empty : stop ≤ start
  · have none : (text.take stop).drop start = [] := by
      apply drop_eq_nil_of_le
      rw [length_take]
      omega
    simp [none, Text.splitBy, ofParts, Nat.not_lt.mpr empty, InOrder]
  · apply ofParts_inOrder
    rw [spaceOf_splitBy, length_drop, length_take]
    omega

/-- The indentation of a line that is not blank is shorter than the line. -/
theorem indent_lt {l : PhysicalLine} (some : trim l.chars ≠ []) : l.indent < l.chars.length := by
  by_contra all
  apply some
  have front : (l.chars.takeWhile fun c => c == ' ' || c == '\t') <+: l.chars := takeWhile_prefix _
  have short := front.length_le
  have whole := front.eq_of_length (by unfold indent at all; omega)
  have blank : ∀ c ∈ l.chars, isBlank c = true := by
    intro c mem
    rw [← whole] at mem
    have kind : c = ' ' ∨ c = '\t' := by simpa using mem_takeWhile_imp mem
    rcases kind with rfl | rfl <;> decide
  have none : trimStart l.chars = [] := dropWhile_eq_nil_iff.mpr blank
  simp [trim, trimEnd, dropEndWhile, none]

end PhysicalLine

namespace LogicalLine

variable {stop start : Nat}

/-- The lines follow one another between two offsets, and none is empty. -/
def InOrder (stop : Nat) : (start : Nat) → List LogicalLine → Prop
  | _, [] => True
  | start, l :: ls => start ≤ l.start ∧ l.start < l.stop ∧ l.stop ≤ stop ∧ InOrder stop l.stop ls

/-- Lines that are not empty are no more than the characters they lie in. -/
theorem InOrder.length_le {ls : List LogicalLine} (h : InOrder stop start ls) :
    ls.length ≤ stop - start := by
  induction ls generalizing start with
  | nil => simp
  | cons l ls ih =>
    obtain ⟨first, some, last, rest⟩ := h
    have short := ih rest
    rw [length_cons]
    omega

/-- Joining lines keeps them in order; the one that is open starts before all that follow. By
induction on the physical lines. -/
theorem joinLines_inOrder {ls : List PhysicalLine}
    (order : PhysicalLine.InOrder stop start ls) (nesting : Nesting)
    (current : Option Open) (first : Nat)
    (opened : ∀ o ∈ current, first ≤ o.start ∧ o.start < o.stop ∧ o.stop ≤ start ∧ o.stop ≤ stop)
    (closed : current = none → first ≤ start) :
    InOrder stop first (joinLines current nesting ls).1 := by
  induction ls generalizing start nesting current first with
  | nil =>
    cases current with
    | none => trivial
    | some o =>
      obtain ⟨begins, some, _, ends⟩ := opened o rfl
      exact ⟨begins, some, ends, trivial⟩
  | cons l ls ih =>
    obtain ⟨after, room, inside, order⟩ := order
    unfold joinLines
    cases extended : Open.extend? current l with
    | none =>
      -- Only a blank line after a finished one is passed over.
      have finished : current = none := by
        cases current with
        | none => rfl
        | some o => simp [Open.extend?] at extended
      refine ih order nesting none first (by simp) fun _ => ?_
      have := closed finished
      omega
    | some o =>
      have extent : first ≤ o.start ∧ o.start < o.stop ∧ o.stop = l.stop := by
        cases current with
        | some o' =>
          cases extended
          obtain ⟨begins, some, before, _⟩ := opened o' rfl
          exact ⟨begins, by simp only; omega, rfl⟩
        | none =>
          simp only [Open.extend?] at extended
          split at extended
          · cases extended
          · rename_i some
            cases extended
            have := PhysicalLine.indent_lt (l := l) (by simpa using some)
            have := closed rfl
            exact ⟨by simp only; omega, by simp only; omega, rfl⟩
      simp only
      split
      · refine ih order _ (some o) first ?_ (by simp)
        intro o' same
        cases Option.mem_def.mp same
        exact ⟨extent.1, extent.2.1, by omega, by omega⟩
      · refine ⟨extent.1, extent.2.1, by simp only [Open.finish]; omega, ?_⟩
        exact ih order _ none _ (by simp) fun _ => by simp only [Open.finish]; omega

/-- The logical lines of a stretch of text lie in the stretch, one after the other, and none is
empty. -/
theorem within_inOrder (text : List Char) (start stop : Nat) :
    InOrder stop start (within text start stop).1 :=
  joinLines_inOrder (PhysicalLine.within_inOrder text start stop) {} none start (by simp) fun _ =>
    Nat.le_refl _

end LogicalLine

namespace Text

/-- A colon is found within the characters that are looked at. -/
theorem headerColonDistance?_lt {count : Nat} {depth : Int} {cs : List Char} {n : Nat}
    (h : headerColonDistance? count depth cs = some n) : n < count := by
  fun_induction headerColonDistance? count depth cs generalizing n with
  | case1 | case2 => cases h
  | case3 count depth c cs opener ih | case4 count depth c cs opener closer ih =>
    obtain ⟨m, found, rfl⟩ := Option.map_eq_some_iff.mp h
    have := ih found
    omega
  | case5 =>
    cases h
    omega
  | case6 count depth c cs opener closer colon ih =>
    obtain ⟨m, found, rfl⟩ := Option.map_eq_some_iff.mp h
    have := ih found
    omega

/-- The colon of a header lies in its line. -/
theorem headerColon?_bounds {text : List Char} {start stop colon : Nat}
    (h : headerColon? text start stop = some colon) : start ≤ colon ∧ colon < stop := by
  obtain ⟨n, found, rfl⟩ := Option.map_eq_some_iff.mp h
  have := headerColonDistance?_lt found
  omega

end Text

end CodeAtlas
