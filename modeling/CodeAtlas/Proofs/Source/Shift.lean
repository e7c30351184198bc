import CodeAtlas.Index.Mark
import CodeAtlas.Proofs.Source.Order
import CodeAtlas.Proofs.Text.Reading
import CodeAtlas.Source.LogicalLine
import CodeAtlas.Source.Mask

/-!
Blank lines above a text move what is found in it and change nothing else.

Each lemma says of one way to look at a text what it gives for the text with some line feeds before
it: the mask keeps them (`mask_newlines`), an offset that has moved along is on a line that has
moved as far (`LineMap.lineOf_newlines`), marks move (`Mark.scan_newlines`) provided that the
recogniser reads nothing at a line feed and does not tell line feeds at the start of a text from
that start (`Mark.Unmoved`), and logical lines move (`LogicalLine.ofText_newlines`).
-/

namespace CodeAtlas

open List Text

variable {p : Char → Bool}

def newlines (k : Nat) : List Char :=
  List.replicate k '\n'

@[simp]
theorem length_newlines (k : Nat) : (newlines k).length = k := by
  simp [newlines]

theorem newlines_succ (k : Nat) : newlines (k + 1) = '\n' :: newlines k :=
  rfl

theorem newlines_succ' (k : Nat) : newlines (k + 1) = newlines k ++ ['\n'] :=
  replicate_succ'

@[simp]
theorem drop_newlines_append (k n : Nat) (cs : List Char) :
    (newlines k ++ cs).drop (n + k) = cs.drop n := by
  rw [Nat.add_comm, ← drop_drop]
  simp

@[simp]
theorem take_newlines_append (k n : Nat) (cs : List Char) :
    (newlines k ++ cs).take (n + k) = newlines k ++ cs.take n := by
  rw [Nat.add_comm]
  simp [take_append, take_of_length_le]

/-- A stretch of a text that has moved is the same stretch. -/
theorem slice_newlines (k start stop : Nat) (cs : List Char) :
    ((newlines k ++ cs).take (stop + k)).drop (start + k) = (cs.take stop).drop start := by
  simp

/-- A test that stops at line feeds does not see those at the end. -/
theorem takeWhile_append_newlines (stops : p '\n' = false) (cs : List Char) (k : Nat) :
    (cs ++ newlines k).takeWhile p = cs.takeWhile p := by
  have none : (newlines k).takeWhile p = [] := by
    rw [newlines, takeWhile_replicate, stops]
    rfl
  rw [takeWhile_append, none, append_nil]
  split
  · next all =>
    have front : cs.takeWhile p <+: cs := takeWhile_prefix _
    exact (front.eq_of_length all).symm
  · rfl

theorem any_head?_append_newlines (stops : p '\n' = false) (cs : List Char) (k : Nat) :
    (cs ++ newlines k).head?.any p = cs.head?.any p := by
  cases cs with
  | nil =>
    cases k with
    | zero => rfl
    | succ k => simp [newlines_succ, stops]
  | cons c cs => rfl

/-- Numbers that move together keep their order. -/
theorem compare_add_right (a b k : Nat) : compare (a + k) (b + k) = compare a b := by
  simp [Nat.compare_eq_ite_lt]

/-- A second comparison matters only between equals. -/
theorem compare_then_congr {a b : String} {o o' : Ordering} (same : a = b → o = o') :
    (compare a b).then o = (compare a b).then o' := by
  cases order : compare a b with
  | eq => exact same (Std.LawfulEqOrd.eq_of_compare order)
  | lt | gt => rfl

/-- A map that keeps comparisons may be made before or after sorting. -/
theorem sortWith_map {α β : Type} {cmp : α → α → Ordering} {cmp' : β → β → Ordering} {f : α → β}
    (same : ∀ a b, cmp' (f a) (f b) = cmp a b) (xs : List α) :
    sortWith cmp' (xs.map f) = (sortWith cmp xs).map f := by
  unfold sortWith
  rw [map_mergeSort]
  simp [same]

/-! ### The mask -/

namespace Mask

/-- A line feed before a text says no more about its first lexeme than that nothing stands there. -/
theorem maskFrom_newline (f : Family) (cs : List Char) :
    maskFrom f ⟨0, 0, 0⟩ (some '\n') cs = maskFrom f ⟨0, 0, 0⟩ none cs := by
  cases cs with
  | nil => rfl
  | cons c cs =>
    have same : lexeme f (some '\n') (c :: cs) = lexeme f none (c :: cs) := by
      cases f with
      | rust =>
        change rustLexeme _ _ = rustLexeme _ _
        unfold rustLexeme
        split <;> rfl
      | curly | python => rfl
    simp only [maskFrom, same]

end Mask

/-- Masking keeps the line feeds above and goes on below. -/
theorem mask_newlines (f : Family) (k : Nat) (cs : List Char) :
    mask f (newlines k ++ cs) = newlines k ++ mask f cs := by
  induction k with
  | zero => rfl
  | succ k ih =>
    have code : Mask.lexeme f none ('\n' :: (newlines k ++ cs)) = .code := by cases f <;> rfl
    rw [newlines_succ, List.cons_append, mask, Mask.maskFrom]
    simp only [Lexeme.size, code]
    rw [List.cons_append, ← ih, mask, ← Mask.maskFrom_newline]
    rfl

/-! ### Line numbers -/

theorem lineStartsFrom_add (pos k : Nat) (cs : List Char) :
    lineStartsFrom (pos + k) cs = (lineStartsFrom pos cs).map (· + k) := by
  induction cs generalizing pos with
  | nil => rfl
  | cons c cs ih =>
    have next := ih (pos + 1)
    rw [Nat.add_right_comm] at next
    unfold lineStartsFrom
    split
    · rw [next, map_cons, Nat.add_right_comm]
    · exact next

namespace LineMap

/-- Below one line feed every line has the next number. -/
theorem lineOf_newline (cs : List Char) (offset : Nat) :
    (ofText ('\n' :: cs)).lineOf (offset + 1 : Nat) = (ofText cs).lineOf offset + 1 := by
  have starts : lineStartsFrom 0 ('\n' :: cs) = (0 :: lineStartsFrom 0 cs).map (· + 1) := by
    rw [lineStartsFrom, if_pos (by rfl), map_cons, ← lineStartsFrom_add]
  unfold lineOf ofText
  rw [starts, takeWhile_cons_of_pos (by simp; omega), takeWhile_map, length_cons, length_map]
  congr 3
  funext start
  simp

/-- **An offset that has moved is on a line that has moved as far.** -/
theorem lineOf_newlines (k : Nat) (cs : List Char) (offset : Nat) :
    (ofText (newlines k ++ cs)).lineOf (offset + k : Nat) = (ofText cs).lineOf offset + k := by
  induction k with
  | zero => rfl
  | succ k ih =>
    rw [newlines_succ, List.cons_append, ← Nat.add_assoc, lineOf_newline, ih, Nat.add_assoc]

end LineMap

/-! ### Marks -/

namespace Mark

variable {κ : Type} {read : List Char → List Char → Option (κ × Nat)}

/-- A mark that has moved, with line feeds before all that stands before it. -/
def shift (k : Nat) (m : Mark κ) : Mark κ :=
  ⟨m.start + k, m.stop + k, m.before ++ newlines k, m.kind⟩

/-- A recogniser reads nothing at a line feed, and does not tell line feeds at the start of a text
from that start. -/
structure Unmoved (read : List Char → List Char → Option (κ × Nat)) : Prop where
  passes : ∀ before cs, read before ('\n' :: cs) = none
  blind : ∀ before k cs, read (before ++ newlines k) cs = read before cs

/-- A scan from a later place finds the marks moved. -/
theorem scanFrom_shift (unmoved : Unmoved read) (k skip pos : Nat) (before cs : List Char) :
    scanFrom read skip (pos + k) (before ++ newlines k) cs =
      (scanFrom read skip pos before cs).map (shift k) := by
  induction cs generalizing skip pos before with
  | nil => simp [scanFrom]
  | cons c cs ih =>
    have next := fun skip => ih skip (pos + 1) (c :: before)
    simp only [Nat.add_right_comm pos 1 k, List.cons_append] at next
    cases skip with
    | succ skip => simp only [scanFrom, next]
    | zero =>
      simp only [scanFrom, unmoved.blind]
      split
      · simp only [next, map_cons, shift, Nat.add_right_comm]
      · exact next 0

/-- A scan passes line feeds above the text. -/
theorem scanFrom_newlines (unmoved : Unmoved read) (k pos : Nat) (before cs : List Char) :
    scanFrom read 0 pos before (newlines k ++ cs) =
      scanFrom read 0 (pos + k) (newlines k ++ before) cs := by
  induction k generalizing pos before with
  | zero => rfl
  | succ k ih =>
    rw [newlines_succ, List.cons_append, scanFrom, unmoved.passes]
    simp only [ih]
    rw [Nat.add_assoc, Nat.add_comm 1 k, ← newlines_succ, newlines_succ', append_assoc]
    rfl

/-- **Marks move by the lines above.** -/
theorem scan_newlines (unmoved : Unmoved read) (k : Nat) (cs : List Char) :
    scan read (newlines k ++ cs) = (scan read cs).map (shift k) := by
  rw [scan, scanFrom_newlines unmoved, scan, ← scanFrom_shift unmoved]
  simp

/-- The text before a mark may begin with line feeds that were not there. -/
theorem lead_shift (k : Nat) (m : Mark κ) : ∃ j, (m.shift k).lead = newlines j ++ m.lead := by
  have whole : (newlines k).takeWhile (!isStatementBoundary ·) = newlines k := by
    rw [newlines, takeWhile_replicate]
    rfl
  unfold lead shift
  dsimp only
  rw [takeWhile_append]
  split
  · next all =>
    refine ⟨k, ?_⟩
    have front : m.before.takeWhile (!isStatementBoundary ·) <+: m.before := takeWhile_prefix _
    rw [whole, reverse_append, front.eq_of_length all]
    simp [newlines]
  · exact ⟨0, rfl⟩

end Mark

/-! ### Places in a text -/

namespace Text

variable {p : Option Char → List Char → Bool}

/-- A place is looked for alike behind a line feed. -/
theorem breakAt_newline (blind : ∀ cs, p (some '\n') cs = p none cs)
    (cs : List Char) : breakAt p (some '\n') cs = breakAt p none cs := by
  unfold breakAt
  rw [blind]

theorem after?_newline {first : Char} (other : first ≠ '\n') (lead cs : List Char) :
    after? (first :: lead) ('\n' :: cs) = none := by
  simp [after?, other]

/-- A whole word is read alike behind line feeds. -/
theorem wholeWord?_append_newlines (word : String) (before : List Char) (k : Nat) (cs : List Char) :
    wholeWord? word (before ++ newlines k).head? cs = wholeWord? word before.head? cs := by
  simp only [wholeWord?, any_head?_append_newlines (show isWordChar '\n' = false by decide)]

/-- A place that no line feed is and that none announces is found alike. -/
theorem anyPlace_newlines (passes : ∀ before cs, p before ('\n' :: cs) = false)
    (blind : ∀ cs, p (some '\n') cs = p none cs) (j : Nat) (cs : List Char) :
    anyPlace p (newlines j ++ cs) = anyPlace p cs := by
  induction j with
  | zero => rfl
  | succ j ih =>
    rw [← ih, newlines_succ, List.cons_append]
    unfold anyPlace
    rw [breakAt, passes, breakAt_newline blind]
    simp

end Text

/-! ### Physical lines -/

/-- Line feeds above a text are empty lines. -/
theorem splitBy_newlines (k : Nat) (cs : List Char) :
    Text.splitBy (· == '\n') (newlines k ++ cs) = replicate k [] ++
      Text.splitBy (· == '\n') cs := by
  induction k with
  | zero => rfl
  | succ k ih =>
    rw [newlines_succ, List.cons_append, Text.splitBy, ih]
    rfl

namespace PhysicalLine

variable {parts : List (List Char)}

def shift (k : Nat) (l : PhysicalLine) : PhysicalLine :=
  ⟨l.start + k, l.stop + k, l.number + k, l.chars⟩

/-- A line that is not the last ends before its line feed. -/
theorem ofParts_cons (some_ : parts ≠ []) (stop start number : Nat) (part : List Char) :
    ofParts stop start number (part :: parts) =
      ⟨start, start + part.length, number, part⟩ :: ofParts stop (start + part.length + 1)
        (number + 1) parts := by
  obtain ⟨next, rest, rfl⟩ := exists_cons_of_ne_nil some_
  rfl

theorem ofParts_shift (k stop start number : Nat) (parts : List (List Char)) :
    ofParts (stop + k) (start + k) (number + k) parts =
      (ofParts stop start number parts).map (shift k) := by
  induction parts generalizing start number with
  | nil => rfl
  | cons part parts ih =>
    by_cases last : parts = []
    · subst last
      by_cases inside : start < stop <;> simp [ofParts, inside, shift]
    · have later := ih (start + part.length + 1) (number + 1)
      rw [ofParts_cons last, ofParts_cons last, map_cons, ← later]
      simp only [shift, Nat.add_right_comm _ k]

theorem ofParts_blank (some_ : parts ≠ []) (k stop start number : Nat) :
    ∃ blank : List PhysicalLine, (∀ l ∈ blank, l.chars = []) ∧
      ofParts stop start number (replicate k [] ++ parts) =
        blank ++ ofParts stop (start + k) (number + k) parts := by
  induction k generalizing start number with
  | zero => exact ⟨[], by simp, rfl⟩
  | succ k ih =>
    obtain ⟨blank, empty, later⟩ := ih (start + 1) (number + 1)
    refine ⟨⟨start, start, number, []⟩ :: blank, by simpa using empty, ?_⟩
    rw [replicate_succ, List.cons_append, ofParts_cons (by simp [some_]), length_nil,
      Nat.add_zero, later, Nat.add_right_comm start, Nat.add_right_comm number]
    rfl

/-- The lines of a text with line feeds above: blank ones, and its own moved. -/
theorem within_newlines (k : Nat) (cs : List Char) :
    ∃ blank : List PhysicalLine, (∀ l ∈ blank, l.chars = []) ∧
      within (newlines k ++ cs) 0 (newlines k ++ cs).length =
        blank ++ (within cs 0 cs.length).map (shift k) := by
  obtain ⟨blank, empty, split⟩ :=
    ofParts_blank (splitBy_ne_nil (· == '\n') cs) k (cs.length + k) 0 1
  refine ⟨blank, empty, ?_⟩
  have length : (newlines k ++ cs).length = cs.length + k := by
    rw [length_append, length_newlines, Nat.add_comm]
  unfold within
  rw [← ofParts_shift, take_length, take_length, drop_zero, drop_zero, splitBy_newlines, length]
  simpa using split

end PhysicalLine

/-! ### Logical lines -/

namespace LogicalLine

def shift (k : Nat) (l : LogicalLine) : LogicalLine :=
  ⟨l.indent, l.start + k, l.stop + k, l.line + k, l.text⟩

def Open.shift (k : Nat) (o : Open) : Open :=
  ⟨o.indent, o.start + k, o.stop + k, o.line + k, o.parts⟩

theorem Open.extend?_shift (k : Nat) (current : Option Open) (l : PhysicalLine) :
    extend? (current.map (shift k)) (l.shift k) = (extend? current l).map (shift k) := by
  cases current with
  | some o => rfl
  | none =>
    by_cases blank : (trim l.chars).isEmpty = true
    · simp [extend?, PhysicalLine.shift, blank]
    · simp [extend?, PhysicalLine.shift, PhysicalLine.indent, shift, blank, Nat.add_right_comm]

/-- Joining lines that have moved gives logical lines that have moved. -/
theorem joinLines_shift (k : Nat) (current : Option Open) (nesting : Nesting)
    (ls : List PhysicalLine) :
    joinLines (current.map (Open.shift k)) nesting (ls.map (PhysicalLine.shift k)) =
      ((joinLines current nesting ls).1.map (shift k), (joinLines current nesting ls).2) := by
  induction ls generalizing current nesting with
  | nil => cases current <;> rfl
  | cons l ls ih =>
    rw [map_cons, joinLines, joinLines, Open.extend?_shift]
    cases found : Open.extend? current l with
    | none => exact ih none nesting
    | some o =>
      by_cases more : (nesting.after l.chars).continues l.chars = true
      · have later := ih (some o) (nesting.after l.chars)
        simpa [PhysicalLine.shift, more] using later
      · have later := ih none (nesting.after l.chars)
        simp only [Option.map_none] at later
        simp [PhysicalLine.shift, more, later]
        rfl

/-- Blank lines above are no logical lines. -/
theorem joinLines_blank {blank : List PhysicalLine} (empty : ∀ l ∈ blank, l.chars = [])
    (nesting : Nesting) (ls : List PhysicalLine) :
    joinLines none nesting (blank ++ ls) = joinLines none nesting ls := by
  induction blank with
  | nil => rfl
  | cons l blank ih =>
    have none_ : Open.extend? none l = none := by
      simp [Open.extend?, empty l mem_cons_self, trim, trimStart, trimEnd, dropEndWhile]
    rw [List.cons_append, joinLines, none_]
    exact ih fun l mem => empty l (mem_cons_of_mem _ mem)

/-- **Logical lines move by the lines above.** -/
theorem ofText_newlines (k : Nat) (cs : List Char) :
    ofText (newlines k ++ cs) = ((ofText cs).1.map (shift k), (ofText cs).2) := by
  obtain ⟨blank, empty, lines⟩ := PhysicalLine.within_newlines k cs
  have moved := joinLines_shift k none {} (PhysicalLine.within cs 0 cs.length)
  rw [Option.map_none] at moved
  simp only [ofText, within, lines, joinLines_blank empty, moved]

end LogicalLine

theorem headerColon?_newlines (k start stop : Nat) (cs : List Char) :
    headerColon? (newlines k ++ cs) (start + k) (stop + k) =
      (headerColon? cs start stop).map (· + k) := by
  unfold headerColon?
  rw [drop_newlines_append, Nat.add_sub_add_right]
  cases headerColonDistance? (stop - start) 0 (cs.drop start) with
  | none => rfl
  | some distance => simp [Nat.add_assoc]

end CodeAtlas
