import CodeAtlas.Proofs.Source.PlainText

/-!
Rows: lines of plain code as they are written.

A row is one line of plain code with what surrounds it: lines without code before it, its
indentation, and blanks and a comment behind it. The masked text shows a row with its comments
blanked out (`Row.mask_renderAll`), and rows that follow a header line are read as one logical line
each, whatever stands between them (`Row.logical_renderAll`).
-/

namespace CodeAtlas

open List Text

/-! ### Blank edges -/

namespace Text

variable {a m b : List Char}

theorem trimStart_append (blank : ∀ c ∈ a, isBlank c = true)
    (first : m.head?.any (!isBlank ·) = true) : trimStart (a ++ m) = m := by
  obtain ⟨c, m', rfl⟩ : ∃ c m', m = c :: m' := by
    cases m with
    | nil => cases first
    | cons c m' => exact ⟨c, m', rfl⟩
  have visible : isBlank c = false := by simpa using first
  rw [trimStart, dropWhile_append_of_pos blank, dropWhile_cons_of_neg (by simp [visible])]

theorem trimEnd_append (blank : ∀ c ∈ b, isBlank c = true)
    (last : m.getLast?.any (!isBlank ·) = true) : trimEnd (m ++ b) = m := by
  have reversed : trimStart (b.reverse ++ m.reverse) = m.reverse :=
    trimStart_append (fun c mem => blank c (mem_reverse.mp mem)) (by simpa using last)
  rw [trimEnd, dropEndWhile, reverse_append]
  exact (congrArg reverse reversed).trans (reverse_reverse m)

/-- Blanks at both ends are cut off, up to the first and the last character that is none. -/
theorem trim_append (blankBefore : ∀ c ∈ a, isBlank c = true)
    (blankAfter : ∀ c ∈ b, isBlank c = true) (first : m.head?.any (!isBlank ·) = true)
    (last : m.getLast?.any (!isBlank ·) = true) : trim (a ++ m ++ b) = m := by
  have first' : (m ++ b).head?.any (!isBlank ·) = true := by
    cases m with
    | nil => cases first
    | cons c m => exact first
  rw [trim, append_assoc, trimStart_append blankBefore first', trimEnd_append blankAfter last]

/-- A character is cut off with all behind it, if all are blank. -/
theorem trimEnd_cons (c : Char) (cs : List Char) :
    trimEnd (c :: cs) = if (trimEnd cs).isEmpty && isBlank c then [] else c :: trimEnd cs := by
  rw [trimEnd, dropEndWhile, reverse_cons, dropWhile_append]
  unfold trimEnd dropEndWhile
  by_cases none : (cs.reverse.dropWhile isBlank).isEmpty = true
  · have empty : cs.reverse.dropWhile isBlank = [] := isEmpty_iff.mp none
    by_cases blank : isBlank c = true
    · simp [empty, blank]
    · simp [empty, blank]
  · simp [none]

theorem trim_trimEnd (cs : List Char) : trim (trimEnd cs) = trim cs := by
  induction cs with
  | nil => rfl
  | cons c cs ih =>
    have again (cs : List Char) : trimEnd (trimEnd cs) = trimEnd cs := by
      induction cs with
      | nil => rfl
      | cons c cs ih =>
        rw [trimEnd_cons]
        split
        · rfl
        · rename_i some
          rw [trimEnd_cons, ih, if_neg some]
    by_cases blank : isBlank c = true
    · have start (cs : List Char) : trim (c :: cs) = trim cs := by
        rw [trim, trim, trimStart, dropWhile_cons_of_pos blank]
        rfl
      rw [start, ← ih, trimEnd_cons]
      split
      · rename_i none
        have empty : trimEnd cs = [] := by simpa [blank] using none
        rw [empty]
      · exact start _
    · have start (cs : List Char) : trim (c :: cs) = trimEnd (c :: cs) := by
        rw [trim, trimStart, dropWhile_cons_of_neg blank]
      have here (cs : List Char) : trimEnd (c :: cs) = c :: trimEnd cs := by
        rw [trimEnd_cons, if_neg (by simp [blank])]
      rw [here, start, start, here, here, again]

theorem trimEnd_append_of_visible {word : List Char} (last : word.getLast?.any (!isBlank ·) = true)
    (cs : List Char) : trimEnd (word ++ cs) = word ++ trimEnd cs := by
  have whole : trimEnd word = word := by simpa using trimEnd_append (b := []) (by simp) last
  rw [trimEnd, dropEndWhile, reverse_append, dropWhile_append]
  split
  · rename_i none
    have empty : trimEnd cs = [] := by simpa [trimEnd, dropEndWhile] using none
    rw [empty, append_nil]
    exact whole
  · rw [reverse_append, reverse_reverse]
    rfl

theorem trim_eq_nil {cs : List Char} (blank : ∀ c ∈ cs, isBlank c = true) : trim cs = [] := by
  have none : trimStart cs = [] := dropWhile_eq_nil_iff.mpr blank
  rw [trim, none]
  rfl

/-- Parts with a separator before each but the first are cut apart again. -/
theorem splitBy_newline {first : List Char} {parts : List (List Char)}
    (single : ∀ part ∈ first :: parts, '\n' ∉ part) :
    splitBy (· == '\n') (first ++ parts.flatMap ('\n' :: ·)) = first :: parts := by
  have inside (part : List Char) (line : '\n' ∉ part) : ∀ c ∈ part, (c == '\n') = false := by
    intro c mem
    rw [beq_eq_false_iff_ne]
    rintro rfl
    exact line mem
  induction parts generalizing first with
  | nil =>
    rw [flatMap_nil, append_nil, splitBy_eq_splitOnP,
      splitOnP_eq_singleton (inside first (single first (by simp)))]
  | cons part parts ih =>
    obtain ⟨here, later⟩ := forall_mem_cons.mp single
    rw [flatMap_cons, cons_append, splitBy_append (inside first here) rfl, ih later]

end Text

/-! ### Physical lines at their places -/

namespace PhysicalLine

def placed : (start number : Nat) → List (List Char) → List PhysicalLine
  | _, _, [] => []
  | start, number, part :: parts =>
      ⟨start, start + part.length, number, part⟩ :: placed (start + part.length + 1)
        (number + 1) parts

theorem spaceOf_cons (part : List Char) (parts : List (List Char)) :
    spaceOf (part :: parts) = part.length + 1 + spaceOf parts := by
  simp [spaceOf]

theorem spaceOf_append (a b : List (List Char)) : spaceOf (a ++ b) = spaceOf a + spaceOf b := by
  simp [spaceOf]

theorem length_flatMap_newline (parts : List (List Char)) :
    (parts.flatMap ('\n' :: ·)).length = spaceOf parts := by
  simp [spaceOf, length_flatMap]

/-- Lines of two lists, one behind the other. -/
theorem placed_append (start number : Nat) (a b : List (List Char)) : placed start number (a ++ b) =
      placed start number a ++ placed (start + spaceOf a) (number + a.length) b := by
  induction a generalizing start number with
  | nil => rfl
  | cons part a ih =>
    have offset : start + part.length + 1 + spaceOf a = start + spaceOf (part :: a) := by
      rw [spaceOf_cons]
      omega
    have line : number + 1 + a.length = number + (part :: a).length := by
      rw [length_cons]
      omega
    rw [cons_append, placed, ih, offset, line, placed, cons_append]

theorem chars_mem_of_mem_placed {start number : Nat} {parts : List (List Char)} {l : PhysicalLine}
    (mem : l ∈ placed start number parts) : l.chars ∈ parts := by
  induction parts generalizing start number with
  | nil => cases mem
  | cons part parts ih =>
    rcases mem_cons.mp mem with rfl | later
    · exact mem_cons_self
    · exact mem_cons_of_mem part (ih later)

/-- The lines of a stretch that ends with its last part, when that part is not empty. -/
theorem ofParts_eq_placed {stop : Nat} (start number : Nat) (parts : List (List Char))
    (whole : stop + 1 = start + spaceOf parts) (last : parts.getLast? ≠ some []) :
    ofParts stop start number parts = placed start number parts := by
  fun_induction ofParts stop start number parts with
  | case1 => rfl
  | case2 start number part lt =>
    have stops : stop = start + part.length := by
      simp only [spaceOf, map_cons, map_nil, sum_cons, sum_nil] at whole
      omega
    rw [placed, placed, stops]
  | case3 start number part lt =>
    have none : part.length = 0 := by
      simp only [spaceOf, map_cons, map_nil, sum_cons, sum_nil] at whole
      omega
    rw [eq_nil_of_length_eq_zero none] at last
    exact absurd rfl last
  | case4 start number part parts some ih =>
    rw [spaceOf_cons] at whole
    rw [placed, ih (by omega) ?_]
    cases parts with
    | nil => exact absurd rfl some
    | cons next parts => simpa [getLast?_cons_cons] using last

end PhysicalLine

open PhysicalLine (spaceOf placed)

/-! ### Rows -/

/-- What surrounds the code of a line: the lines without code before it, its indentation, and what
stands behind its code. -/
structure Margin where
  before : List (List Char) := []
  pad : List Char
  tail : List Char := []
  fillers : before.all Text.isFiller = true := by decide
  blanks : (pad.all fun c => c == ' ' || c == '\t') = true := by decide
  tail_filler : Text.isFiller tail = true := by decide

namespace Margin

/-- How many characters stand before the code of a line. -/
def lead (m : Margin) : Nat :=
  spaceOf m.before + 1 + m.pad.length

def start (offset : Nat) (m : Margin) : Nat :=
  offset + m.lead

theorem before_filler (m : Margin) : ∀ f ∈ m.before, isFiller f = true :=
  all_eq_true.mp m.fillers

theorem pad_blank (m : Margin) : ∀ c ∈ m.pad, c = ' ' ∨ c = '\t' := by
  simpa using m.blanks

end Margin

/-- A line of plain code with its margin. -/
structure Row where
  margin : Margin
  code : List Char
  plain : ∀ c ∈ code, Text.isPlain c = true
  level : PhysicalLine.depthAfter 0 code = 0
  first : code.head?.any (!isBlank ·) = true
  last : code.getLast?.any (!isBlank ·) = true

namespace Row

variable {rest filler : List Char} {rows : List Row}

def indent (r : Row) : Nat :=
  r.margin.pad.length

/-- The text of a row, from the line feed before its first line on. -/
def render (r : Row) : List Char :=
  r.margin.before.flatMap ('\n' :: ·) ++ '\n' :: (r.margin.pad ++ r.code ++ r.margin.tail)

def line (r : Row) : List Char :=
  r.margin.pad ++ r.code ++ Text.shownFiller r.margin.tail

def parts (r : Row) : List (List Char) :=
  r.margin.before.map Text.shownFiller ++ [r.line]

def shown (r : Row) : List Char :=
  r.parts.flatMap ('\n' :: ·)

def size (r : Row) : Nat :=
  r.render.length

def logical (offset number : Nat) (r : Row) : LogicalLine :=
  ⟨r.indent, r.margin.start offset, offset + r.size, number + r.margin.before.length + 1, r.code⟩

def renderAll (rows : List Row) : List Char :=
  rows.flatMap render

def sizeAll (rows : List Row) : Nat :=
  (renderAll rows).length

def shownAll (rows : List Row) : List Char :=
  rows.flatMap shown

def logicals : (offset number : Nat) → List Row → List LogicalLine
  | _, _, [] => []
  | offset, number, r :: rows =>
      r.logical offset number :: logicals (offset + r.size)
        (number + r.margin.before.length + 1) rows

theorem spaceOf_shown (fs : List (List Char)) : spaceOf (fs.map shownFiller) = spaceOf fs := by
  simp [spaceOf, Function.comp_def]

theorem size_eq (r : Row) : r.size =
    spaceOf r.margin.before + 1 + (r.indent + r.code.length + r.margin.tail.length) := by
  simp only [size, render, indent, length_append, length_cons, PhysicalLine.length_flatMap_newline]
  omega

theorem spaceOf_parts (r : Row) : spaceOf r.parts = r.size := by
  rw [size_eq, parts, PhysicalLine.spaceOf_append, spaceOf_shown, PhysicalLine.spaceOf_cons]
  simp only [spaceOf, line, indent, length_append, length_shownFiller, map_nil, sum_nil]
  omega

theorem length_shown (r : Row) : r.shown.length = r.size := by
  rw [shown, PhysicalLine.length_flatMap_newline, spaceOf_parts]

/-- Behind its margin stands its code, in the masked text. -/
theorem drop_shown (r : Row) (more : List Char) :
    (r.shown ++ more).drop r.margin.lead = r.code ++ (shownFiller r.margin.tail ++ more) := by
  have front : r.shown ++ more = ((r.margin.before.map shownFiller).flatMap ('\n' :: ·) ++
      '\n' :: r.margin.pad) ++ (r.code ++ (shownFiller r.margin.tail ++ more)) := by
    simp [shown, parts, line]
  rw [front, drop_left']
  rw [length_append, PhysicalLine.length_flatMap_newline, spaceOf_shown, length_cons, Margin.lead]
  omega

theorem drop_render (r : Row) (more : List Char) :
    (r.render ++ more).drop r.margin.lead = r.code ++ (r.margin.tail ++ more) := by
  have front : r.render ++ more = (r.margin.before.flatMap ('\n' :: ·) ++ '\n' :: r.margin.pad) ++
      (r.code ++ (r.margin.tail ++ more)) := by
    simp [render]
  rw [front, drop_left']
  rw [length_append, PhysicalLine.length_flatMap_newline, length_cons, Margin.lead]
  omega

theorem length_shownAll (rows : List Row) : (shownAll rows).length = sizeAll rows := by
  simp only [shownAll, sizeAll, renderAll, length_flatMap, length_shown, size]

theorem shownAll_eq (rows : List Row) :
    shownAll rows = (rows.flatMap parts).flatMap ('\n' :: ·) := by
  rw [flatMap_assoc]
  rfl

theorem renderAll_cons (r : Row) (rows : List Row) :
    renderAll (r :: rows) = r.render ++ renderAll rows :=
  flatMap_cons

theorem renderAll_append (a b : List Row) : renderAll (a ++ b) = renderAll a ++ renderAll b :=
  flatMap_append

@[simp] theorem sizeAll_nil : sizeAll [] = 0 :=
  rfl

@[simp] theorem sizeAll_cons (r : Row) (rows : List Row) :
    sizeAll (r :: rows) = r.size + sizeAll rows := by
  rw [sizeAll, renderAll_cons, length_append, size, sizeAll]

@[simp] theorem sizeAll_append (a b : List Row) : sizeAll (a ++ b) = sizeAll a + sizeAll b := by
  rw [sizeAll, renderAll_append, length_append, sizeAll, sizeAll]

theorem shownAll_append (a b : List Row) : shownAll (a ++ b) = shownAll a ++ shownAll b :=
  flatMap_append

/-- A row starts with a line feed, in the text and in the masked text. -/
theorem head?_render (r : Row) : r.render.head? = some '\n' := by
  unfold render
  cases r.margin.before with
  | nil | cons f fs => rfl

theorem head?_shown (r : Row) : r.shown.head? = some '\n' := by
  unfold shown parts
  cases r.margin.before with
  | nil | cons f fs => rfl

theorem endsLine_renderAll (rows : List Row) (ends : EndsLine rest) :
    EndsLine (renderAll rows ++ rest) := by
  cases rows with
  | nil => exact ends
  | cons r rows =>
    intro c mem
    rw [renderAll_cons, append_assoc, head?_append, head?_render] at mem
    exact (Option.some.inj mem).symm

/-- The logical lines of rows, one list behind the other. -/
theorem logicals_append (offset number : Nat) (a b : List Row) :
    ∃ number', logicals offset number (a ++ b) =
      logicals offset number a ++ logicals (offset + sizeAll a) number' b := by
  induction a generalizing offset number with
  | nil => exact ⟨number, rfl⟩
  | cons r a ih =>
    obtain ⟨number', later⟩ := ih (offset + r.size) (number + r.margin.before.length + 1)
    refine ⟨number', ?_⟩
    rw [cons_append, logicals, later, logicals, sizeAll_cons, ← Nat.add_assoc offset, cons_append]

/-! ### Rows in the masked text -/

/-- Lines without code are shown as blanks. -/
theorem mask_fillers {fs : List (List Char)} (filler : ∀ f ∈ fs, isFiller f = true)
    (ends : EndsLine rest) :
    mask .python (fs.flatMap ('\n' :: ·) ++ rest) = (fs.map shownFiller).flatMap ('\n' :: ·) ++
      mask .python rest := by
  induction fs with
  | nil => rfl
  | cons f fs ih =>
    obtain ⟨here, later⟩ := forall_mem_cons.mp filler
    have next : EndsLine (fs.flatMap ('\n' :: ·) ++ rest) := by
      cases fs with
      | nil => exact ends
      | cons f' fs =>
        intro c mem
        exact (Option.some.inj mem).symm
    rw [flatMap_cons, cons_append, cons_append, mask_code_cons (by decide),
      append_assoc, mask_filler_append here next, ih later]
    simp

/-- A row is shown with its comments blanked out. -/
theorem mask_render (r : Row) (ends : EndsLine rest) :
    mask .python (r.render ++ rest) = r.shown ++ mask .python rest := by
  have pad : ∀ c ∈ r.margin.pad, c ≠ '\'' ∧ c ≠ '"' ∧ c ≠ '#' := by
    intro c mem
    rcases r.margin.pad_blank c mem with rfl | rfl <;> decide
  have feed : EndsLine ('\n' :: (r.margin.pad ++ r.code ++ r.margin.tail) ++ rest) := by
    intro c mem
    exact (Option.some.inj mem).symm
  rw [render, append_assoc, mask_fillers r.margin.before_filler feed, cons_append,
    mask_code_cons (by decide), append_assoc, append_assoc, mask_code_append pad,
    mask_plain_append r.plain, mask_filler_append r.margin.tail_filler ends]
  simp [shown, parts, line]

theorem mask_renderAll (rows : List Row) (ends : EndsLine rest) :
    mask .python (renderAll rows ++ rest) = shownAll rows ++ mask .python rest := by
  induction rows with
  | nil => rfl
  | cons r rows ih =>
    rw [renderAll_cons, append_assoc, mask_render r (endsLine_renderAll rows ends), ih]
    simp [shownAll]

/-! ### Rows as logical lines -/

theorem quiet_filler (f : List Char) : PhysicalLine.Quiet (shownFiller f) where
  level := PhysicalLine.depthAfter_of_blank isBlank_of_mem_shownFiller 0
  plain := by
    intro c mem
    have blank := isBlank_of_mem_shownFiller c mem
    refine ⟨?_, ?_, ?_⟩ <;> rintro rfl <;> exact absurd blank (by decide)

theorem pad_isBlank (r : Row) : ∀ c ∈ r.margin.pad, isBlank c = true := by
  intro c mem
  rcases r.margin.pad_blank c mem with rfl | rfl <;> decide

theorem quiet_line (r : Row) : PhysicalLine.Quiet r.line where
  level := by
    rw [line, PhysicalLine.depthAfter_append, PhysicalLine.depthAfter_append,
      PhysicalLine.depthAfter_of_blank r.pad_isBlank, r.level]
    exact (quiet_filler r.margin.tail).level
  plain := by
    intro c mem
    rcases mem_append.mp mem with inner | tail
    · rcases mem_append.mp inner with pad | code
      · rcases r.margin.pad_blank c pad with rfl | rfl <;> decide
      · obtain ⟨_, single, double, _, backslash⟩ := isPlain_iff.mp (r.plain c code)
        exact ⟨single, double, backslash⟩
    · exact (quiet_filler r.margin.tail).plain c tail

theorem newline_not_mem_line (r : Row) : '\n' ∉ r.line := by
  intro mem
  rcases mem_append.mp mem with inner | tail
  · rcases mem_append.mp inner with pad | code
    · exact absurd (r.margin.pad_blank _ pad) (by decide)
    · exact absurd (r.plain _ code) (by decide)
  · exact newline_not_mem_shownFiller r.margin.tail_filler tail

theorem length_code_pos (r : Row) : 0 < r.code.length := by
  have first := r.first
  cases code : r.code with
  | nil => rw [code] at first; cases first
  | cons c cs => simp

/-- The line of the code of a row is a logical line; the indentation and the comment leave no trace
in its text. -/
theorem ofLine?_line (r : Row) (start number : Nat) :
    LogicalLine.ofLine? ⟨start, start + r.line.length, number, r.line⟩ =
      some ⟨r.indent, start + r.indent, start + r.line.length, number, r.code⟩ := by
  have text : trim r.line = r.code :=
    trim_append r.pad_isBlank isBlank_of_mem_shownFiller r.first r.last
  have some : r.code.isEmpty = false := by
    rw [isEmpty_eq_false_iff_exists_mem]
    exact exists_mem_of_length_pos r.length_code_pos
  have indent : PhysicalLine.indent ⟨start, start + r.line.length, number, r.line⟩ = r.indent := by
    have first := r.first
    obtain ⟨c, cs, code⟩ : ∃ c cs, r.code = c :: cs := by
      cases code : r.code with
      | nil => rw [code] at first; cases first
      | cons c cs => exact ⟨c, cs, rfl⟩
    have visible : (c == ' ' || c == '\t') = false := by
      rw [Bool.or_eq_false_iff, beq_eq_false_iff_ne, beq_eq_false_iff_ne]
      have shown : isBlank c = false := by simpa [code] using first
      refine ⟨?_, ?_⟩ <;> rintro rfl <;> exact absurd shown (by decide)
    have pad : ∀ c ∈ r.margin.pad, (c == ' ' || c == '\t') = true := by
      intro c mem
      simpa using r.margin.pad_blank c mem
    simp only [PhysicalLine.indent, line, code, append_assoc, cons_append]
    rw [takeWhile_append_of_pos pad, takeWhile_cons_of_neg (by simp [visible]), append_nil]
    rfl
  simp only [LogicalLine.ofLine?, text, some, indent, Bool.false_eq_true, if_false]

/-- Lines without code are no logical lines. -/
theorem filterMap_fillers (start number : Nat) (fs : List (List Char)) :
    (placed start number (fs.map shownFiller)).filterMap LogicalLine.ofLine? = [] := by
  induction fs generalizing start number with
  | nil => rfl
  | cons f fs ih =>
    have blank : trim (shownFiller f) = [] := trim_eq_nil isBlank_of_mem_shownFiller
    rw [map_cons, placed, filterMap_cons, LogicalLine.ofLine?]
    simpa [blank] using ih _ _

theorem filterMap_parts (offset number : Nat) (r : Row) :
    (placed (offset + 1) (number + 1) r.parts).filterMap LogicalLine.ofLine? =
      [r.logical offset number] := by
  have first : offset + 1 + spaceOf r.margin.before + r.indent = r.margin.start offset := by
    rw [Margin.start, Margin.lead, indent]
    omega
  have last : offset + 1 + spaceOf r.margin.before + r.line.length = offset + r.size := by
    rw [size_eq, line, indent]
    simp only [length_append, length_shownFiller]
    omega
  rw [parts, PhysicalLine.placed_append, filterMap_append, filterMap_fillers, spaceOf_shown,
    length_map, nil_append, placed, placed, filterMap_cons, ofLine?_line, first, last,
    logical, Nat.add_right_comm number 1]
  rfl

theorem filterMap_rows (offset number : Nat) (rows : List Row) :
    (placed (offset + 1) (number + 1) (rows.flatMap parts)).filterMap LogicalLine.ofLine? =
      logicals offset number rows := by
  induction rows generalizing offset number with
  | nil => rfl
  | cons r rows ih =>
    have lines : r.parts.length = r.margin.before.length + 1 := by simp [parts]
    rw [flatMap_cons, PhysicalLine.placed_append, filterMap_append, filterMap_parts,
      spaceOf_parts, lines, Nat.add_right_comm offset 1, Nat.add_right_comm number 1, ih, logicals,
      ← Nat.add_assoc]
    rfl

/-- What holds of lines without code and of the lines of rows holds of all lines. -/
theorem forall_mem_lines {P : List Char → Prop} (plain : isFiller filler = true) (rows : List Row)
    (fillers : ∀ f, isFiller f = true → P (shownFiller f)) (codes : ∀ r : Row, P r.line) :
    ∀ part ∈ shownFiller filler :: rows.flatMap parts, P part := by
  intro part mem
  rcases mem_cons.mp mem with rfl | inside
  · exact fillers filler plain
  · obtain ⟨r, _, here⟩ := mem_flatMap.mp inside
    rcases mem_append.mp here with before | code
    · obtain ⟨f, written, rfl⟩ := mem_map.mp before
      exact fillers f (r.margin.before_filler f written)
    · rw [mem_singleton.mp code]
      exact codes r

theorem getLast?_lines (filler : List Char) (some : rows ≠ []) :
    (filler :: rows.flatMap parts).getLast? ≠ .some [] := by
  obtain ⟨init, r, rfl⟩ : ∃ init r, rows = init ++ [r] :=
    ⟨rows.dropLast, rows.getLast some, (dropLast_append_getLast some).symm⟩
  have code := r.length_code_pos
  have last : (filler :: (init ++ [r]).flatMap parts).getLast? = .some r.line := by
    rw [flatMap_append, flatMap_singleton, parts, ← append_assoc, ← cons_append, getLast?_concat]
  rw [last]
  intro empty
  have none := congrArg length (Option.some.inj empty)
  simp only [line, length_append, length_nil] at none
  omega

/-- Rows behind a line without code are read as one logical line each, and no bracket is left
open. -/
theorem logical_renderAll (plain : isFiller filler = true) (some : rows ≠ [])
    (before after : List Char) :
    ∃ number, LogicalLine.within (before ++ (shownFiller filler ++ shownAll rows) ++ after)
        before.length (before.length + (filler.length + sizeAll rows)) =
      (logicals (before.length + filler.length) number rows, 0) := by
  set region := shownFiller filler ++ shownAll rows with region_eq
  set lines := shownFiller filler :: rows.flatMap parts with lines_eq
  have length : region.length = filler.length + sizeAll rows := by
    rw [region_eq, length_append, length_shownFiller, length_shownAll]
  have stretch : ((before ++ region ++ after).take
      (before.length + (filler.length + sizeAll rows))).drop before.length = region := by
    rw [← length, ← length_append, take_left, drop_left]
  have cut : splitBy (· == '\n') region = lines := by
    rw [region_eq, shownAll_eq]
    exact splitBy_newline (forall_mem_lines plain rows
      (fun f filler => newline_not_mem_shownFiller filler) newline_not_mem_line)
  have space : spaceOf lines = region.length + 1 := by
    rw [← cut]
    exact PhysicalLine.spaceOf_splitBy _ _
  generalize number_eq : ((before ++ region ++ after).take before.length).count '\n' + 1 = number
  have physical : PhysicalLine.within (before ++ region ++ after) before.length
      (before.length + (filler.length + sizeAll rows)) = placed before.length number lines := by
    rw [PhysicalLine.within, stretch, cut, number_eq]
    exact PhysicalLine.ofParts_eq_placed _ _ _ (by omega) (getLast?_lines _ some)
  have quiet : ∀ l ∈ placed before.length number lines, PhysicalLine.Quiet l.chars := fun l mem =>
    forall_mem_lines plain rows (fun f _ => quiet_filler f) quiet_line l.chars
      (PhysicalLine.chars_mem_of_mem_placed mem)
  have blank : trim (shownFiller filler) = [] :=
    trim_eq_nil isBlank_of_mem_shownFiller
  refine ⟨number, ?_⟩
  rw [LogicalLine.within, physical, LogicalLine.joinLines_quiet quiet, lines_eq, placed,
    filterMap_cons, LogicalLine.ofLine?, length_shownFiller]
  simp only [blank, isEmpty_nil, if_true]
  rw [filterMap_rows]
  rfl

end Row

end CodeAtlas
