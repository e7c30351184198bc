import CodeAtlas.Proofs.Statement.Phrase

/-!
Rows where they stand in a text.

`Stands` says that rows stand in a text at an offset, and which logical lines they are. The line of
a header with lines below it is read for what it is (`ClauseHead.opens`): its word, its indentation,
the colon that ends it, and nothing behind the colon. What follows a suite or a statement is told by
its first line: `Below` ends a suite, and `Closed` a statement.
-/

namespace CodeAtlas

open Indented List Text

/-! ### Rows in a text -/

structure Stands (t : SourceText) (offset : Nat) (rows : List Row) (lines : List LogicalLine) :
    Prop where
  code : Row.shownAll rows <+: t.code.drop offset
  source : Row.renderAll rows <+: t.source.drop offset
  lines : ∃ number, lines = Row.logicals offset number rows

namespace Stands

variable {t : SourceText} {offset : Nat} {lines : List LogicalLine} {r : Row} {rows : List Row}

/-- Rows that stand somewhere stand there one list behind the other. -/
theorem append {a b : List Row} (h : Stands t offset (a ++ b) lines) :
    ∃ la lb, lines = la ++ lb ∧ Stands t offset a la ∧ Stands t (offset + Row.sizeAll a) b lb := by
  obtain ⟨⟨more, code⟩, ⟨more', source⟩, number, rfl⟩ := h
  obtain ⟨number', split⟩ := Row.logicals_append offset number a b
  rw [Row.shownAll_append, append_assoc] at code
  rw [Row.renderAll_append, append_assoc] at source
  refine ⟨_, _, split, ⟨⟨_, code⟩, ⟨_, source⟩, number, rfl⟩, ⟨?_, ?_, number', rfl⟩⟩
  · rw [← drop_drop, ← code, ← Row.length_shownAll, drop_left]
    exact prefix_append _ _
  · rw [← drop_drop, ← source, Row.sizeAll, drop_left]
    exact prefix_append _ _

theorem nil (h : Stands t offset [] lines) : lines = [] := by
  obtain ⟨number, rfl⟩ := h.lines
  rfl

/-- The first row is the first line, and the others stand behind it. -/
theorem cons (h : Stands t offset (r :: rows) lines) :
    ∃ number tail, lines = r.logical offset number :: tail ∧
      Stands t (offset + r.size) rows tail := by
  obtain ⟨la, lb, rfl, first, others⟩ := append (a := [r]) h
  obtain ⟨number, rfl⟩ := first.lines
  rw [Row.sizeAll_cons, Row.sizeAll_nil, Nat.add_zero] at others
  exact ⟨number, lb, rfl, others⟩

/-- The masked text from the code of a row on. -/
theorem code_drop {next : Row} (h : Stands t offset (r :: next :: rows) lines) :
    ∃ more, t.code.drop (r.margin.start offset) = r.code ++
      (shownFiller r.margin.tail ++ '\n' :: more) := by
  obtain ⟨more, code⟩ := h.code
  obtain ⟨body, shown⟩ : ∃ body, next.shown = '\n' :: body := by
    have feed := next.head?_shown
    cases shown : next.shown with
    | nil => rw [shown] at feed; cases feed
    | cons c body =>
      rw [shown] at feed
      exact ⟨body, by rw [Option.some.inj feed]⟩
  refine ⟨body ++ Row.shownAll rows ++ more, ?_⟩
  have front : t.code.drop offset = r.shown ++ ('\n' :: (body ++ Row.shownAll rows ++ more)) := by
    rw [← code, Row.shownAll, flatMap_cons, flatMap_cons, shown]
    simp [Row.shownAll]
  rw [Margin.start, ← drop_drop, front, r.drop_shown]

theorem source_drop (h : Stands t offset (r :: rows) lines) :
    ∃ more, t.source.drop (r.margin.start offset) = r.code ++ more := by
  obtain ⟨more, source⟩ := h.source
  refine ⟨r.margin.tail ++ (Row.renderAll rows ++ more), ?_⟩
  rw [Margin.start, ← drop_drop, ← source, Row.renderAll_cons, append_assoc, r.drop_render]

end Stands

variable {t : SourceText}

/-! ### Header lines -/

namespace ClauseHead

variable {offset : Nat} {k : Keyword} {h : ClauseHead} {next : Row} {rows : List Row}
  {lines : List LogicalLine}

/-- A line whose code is a header, its colon and something behind it splits there. -/
theorem splitHeader_code {l : LogicalLine} {after more more' : List Char}
    (code : t.code.drop l.start = h.text k ++ ':' :: (after ++ more))
    (source : t.source.drop l.start = h.text k ++ more')
    (stop : l.stop = l.start + (h.text k).length + 1 + after.length)
    (ends : (after ++ more).head? ≠ some '=') :
    headerColon? t.code l.start l.stop = some (l.start + (h.text k).length) ∧
      splitHeader t l = ⟨h.text k, trim after, l.start + (h.text k).length + 1⟩ := by
  have colon : headerColon? t.code l.start l.stop = some (l.start + (h.text k).length) := by
    have room : (h.text k).length < l.stop - l.start := by omega
    have found := headerColonDistance?_header (h.balanced_text k) (h.colonsInside_text k) room ends
    have zero : ((0 : Nat) : Int) = 0 := rfl
    rw [headerColon?, code, ← zero, found, Option.map_some, Nat.add_comm]
  have header : t.sourceBetween l.start (l.start + (h.text k).length) = h.text k := by
    rw [SourceText.sourceBetween, drop_take, Nat.add_sub_cancel_left, source, take_left]
  have behind : t.code.drop (l.start + (h.text k).length + 1) = after ++ more := by
    rw [Nat.add_assoc, ← drop_drop, code, ← drop_drop, drop_left]
    rfl
  have inline : t.codeBetween (l.start + (h.text k).length + 1) l.stop = after := by
    rw [SourceText.codeBetween, drop_take, stop, Nat.add_sub_cancel_left, behind, take_left]
  refine ⟨colon, ?_⟩
  rw [splitHeader, colon]
  simp only [header, inline]

/-- A header line is split at its colon, with nothing behind it. -/
theorem splitHeader_row (stands : Stands t offset (h.row k :: next :: rows) lines) (number : Nat) :
    headerColon? t.code (h.margin.start offset) (offset + (h.row k).size) =
        some (h.margin.start offset + (h.text k).length) ∧
      splitHeader t ((h.row k).logical offset number) =
        ⟨h.text k, [], h.margin.start offset + (h.text k).length + 1⟩ := by
  obtain ⟨more, code⟩ := stands.code_drop
  obtain ⟨more', source⟩ := stands.source_drop
  have ends : (shownFiller h.margin.tail ++ '\n' :: more).head? ≠ some '=' := by
    cases tail : shownFiller h.margin.tail with
    | nil => exact fun same => absurd (Option.some.inj same) (by decide)
    | cons c cs =>
      have inside : c ∈ shownFiller h.margin.tail := by simp [tail]
      have blank := isBlank_of_mem_shownFiller c inside
      intro same
      rw [Option.some.inj same] at blank
      exact absurd blank (by decide)
  have stop : offset + (h.row k).size =
      h.margin.start offset + (h.text k).length + 1 + (shownFiller h.margin.tail).length := by
    rw [Row.size_eq, row_code, Margin.start, Margin.lead, length_append, length_singleton,
      length_shownFiller]
    simp only [row, Row.indent]
    omega
  rw [row_code, append_assoc] at code source
  have split := @splitHeader_code t k h ((h.row k).logical offset number)
    (shownFiller h.margin.tail) _ _
    code source stop ends
  rwa [trim_eq_nil isBlank_of_mem_shownFiller] at split

structure Opens (t : SourceText) (k : Keyword) (h : ClauseHead) (offset : Nat) (l : LogicalLine) :
    Prop where
  leading : leadingWord l = k.word
  first : firstWord l = k.word
  indent : l.indent = h.margin.pad.length
  start : l.start = h.margin.start offset
  stop : l.stop = offset + (h.row k).size
  compound : (!compoundWords.contains k.word || (Text.headerColon? t.code l.start l.stop).isNone) =
    false
  header : (splitHeader t l).header = h.text k
  inline : (splitHeader t l).inline = []

/-- **A header line with lines below it is read for what it is.** -/
theorem opens (stands : Stands t offset (h.row k :: next :: rows) lines) :
    ∃ l tail, lines = l :: tail ∧ h.Opens t k offset l ∧
      Stands t (offset + (h.row k).size) (next :: rows) tail := by
  obtain ⟨number, tail, rfl, below⟩ := stands.cons
  have known : compoundWords.contains k.word = true := by cases k <;> decide
  obtain ⟨colon, split⟩ := splitHeader_row stands number
  refine ⟨_, tail, rfl, ⟨h.leadingWord_row k offset number,
    h.firstWord_row k offset number, rfl, rfl, rfl, ?_, by rw [split], by rw [split]⟩, below⟩
  show (_ || (headerColon? t.code (h.margin.start offset) (offset + (h.row k).size)).isNone) = _
  rw [known, colon]
  rfl

end ClauseHead

/-! ### What follows -/

namespace Indented

variable {indent : Nat} {rest : List LogicalLine}

def partWords : List String := ["elif", "else", "except", "finally"]

def Below (indent : Nat) (rest : List LogicalLine) : Prop :=
  ∀ l ∈ rest.head?, l.indent < indent

def Closed (indent : Nat) (rest : List LogicalLine) : Prop :=
  ∀ l ∈ rest.head?, l.indent ≤ indent ∧ (l.indent = indent → firstWord l ∉ partWords)

theorem Closed.below (h : Closed indent rest) :
    Below (indent + 1) rest := fun l next => Nat.lt_succ_of_le (h l next).1

/-- What ends a suite ends the statement before it. -/
theorem Below.closed (h : Below indent rest) : Closed indent rest := by
  intro l next
  have less := h l next
  exact ⟨by omega, fun same => by omega⟩

theorem Below.mono {indent' : Nat} (le : indent ≤ indent')
    (h : Below indent rest) : Below indent' rest := fun l next => Nat.lt_of_lt_of_le (h l next) le

/-- What closes a statement goes on with none of its parts. -/
theorem Closed.continues (h : Closed indent rest) (words : List String)
    (parts : words ⊆ partWords) (last : Nat) :
    continues ⟨last, rest⟩ indent words = false := by
  unfold Indented.continues
  cases next : rest.head? with
  | none => rfl
  | some l =>
    have other := (h l next).2
    rw [Option.any_some, Bool.and_eq_false_iff, beq_eq_false_iff_ne]
    by_cases same : l.indent = indent
    · right
      rw [← Bool.not_eq_true, contains_iff_mem]
      exact fun mem => other same (parts mem)
    · exact .inl same

end Indented

/-- A statement starts with a row of its indentation that does not go on with another statement. -/
theorem Phrase.rows_cons (w : Phrase) : ∃ r rows, w.rows = r :: rows ∧ r.indent = w.indent ∧
    ∀ offset number, firstWord (r.logical offset number) ∉ partWords := by
  have clause (k : Keyword) (plain : k.word ∉ partWords) (head : ClauseHead) (offset number : Nat) :
      firstWord ((head.row k).logical offset number) ∉ partWords := by
    rw [head.firstWord_row]
    exact plain
  cases w with
  | simple line =>
    refine ⟨line.row, [], rfl, rfl, ?_⟩
    intro offset number mem
    have word := line.firstWord_row offset number
    rw [← Bool.not_eq_true, contains_iff_mem] at word
    exact word ((by decide : partWords ⊆ compoundWords) mem)
  | branch first elifs orelse =>
    obtain ⟨head, body⟩ := first
    exact ⟨_, _, rfl, rfl, clause _ (by decide) head⟩
  | loop isWhile first orelse =>
    obtain ⟨head, body⟩ := first
    refine ⟨_, _, rfl, rfl, clause _ ?_ head⟩
    cases isWhile <;> decide
  | guarded first handlers orelse final | scope first =>
    obtain ⟨head, body⟩ := first
    exact ⟨_, _, rfl, rfl, clause _ (by decide) head⟩
  | choice head arms => exact ⟨_, _, rfl, rfl, clause _ (by decide) head⟩

namespace Clause

variable {k : Keyword} {indent offset : Nat} {lines rest : List LogicalLine} {c : Clause}

/-- What the rule of indentation says of a clause. -/
theorem fits_mk {head : ClauseHead} {body : List Phrase}
    (h : (Clause.mk head body).fits indent = true) :
    head.margin.pad.length = indent ∧ indent < Phrase.suiteIndent body ∧
      Phrase.fitsAll (Phrase.suiteIndent body) body = true := by
  simpa [Clause.fits, and_assoc] using h

theorem indent_of_fits (h : c.fits indent = true) : c.head.margin.pad.length = indent := by
  obtain ⟨head, body⟩ := c
  exact (fits_mk h).1

section

variable (fits : c.fits indent = true)
include fits

/-- A clause that fits has a header row and a row below it. -/
theorem rows_cons (k : Keyword) :
    ∃ next rows, c.rows k = c.head.row k :: next :: rows := by
  obtain ⟨head, ws⟩ := c
  obtain ⟨_, deeper, _⟩ := fits_mk fits
  cases ws with
  | nil => cases deeper
  | cons w ws =>
    obtain ⟨r, rows, first, _⟩ := w.rows_cons
    exact ⟨r, rows ++ Phrase.rowsAll ws, by rw [Clause.rows, Phrase.rowsAll, first]; rfl⟩

theorem two_le_length (k : Keyword) : 2 ≤ (c.rows k).length := by
  obtain ⟨next, rows, rows_eq⟩ := rows_cons fits k
  simp [rows_eq]

theorem opens (stands : Stands t offset (c.rows k) lines) :
    ∃ l tail, lines = l :: tail ∧ c.head.Opens t k offset l ∧ l.indent = indent := by
  obtain ⟨next, rows, rows_eq⟩ := rows_cons fits k
  rw [rows_eq] at stands
  obtain ⟨l, tail, rfl, opens, _⟩ := ClauseHead.opens stands
  exact ⟨l, tail, rfl, opens, opens.indent.trans (indent_of_fits fits)⟩

/-- A clause at some indentation ends deeper suites. -/
theorem below_rows (stands : Stands t offset (c.rows k) lines) :
    Below (indent + 1) (lines ++ rest) := by
  obtain ⟨l, tail, rfl, _, same⟩ := opens fits stands
  intro l' next
  cases next
  exact Nat.lt_succ_of_le (Nat.le_of_eq same)

end

theorem below_rowsAll {cs : List Clause} (fits : fitsAll indent cs = true)
    (stands : Stands t offset (rowsAll k cs) lines) (below : Below (indent + 1) rest) :
    Below (indent + 1) (lines ++ rest) := by
  cases cs with
  | nil => rwa [stands.nil]
  | cons c cs =>
    simp only [fitsAll, Bool.and_eq_true] at fits
    obtain ⟨la, lb, rfl, first, _⟩ := stands.append
    rw [append_assoc]
    exact below_rows fits.1 first

theorem below_rowsOpt {o : Option Clause} (fits : fitsOpt indent o = true)
    (stands : Stands t offset (rowsOpt k o) lines) (below : Below (indent + 1) rest) :
    Below (indent + 1) (lines ++ rest) := by
  cases o with
  | none => rwa [stands.nil]
  | some c => exact below_rows fits stands

/-- A clause goes on with a statement by its keyword. -/
theorem continues_rows (fits : c.fits indent = true)
    (stands : Stands t offset (c.rows k) lines) (words : List String) (last : Nat) :
    continues ⟨last, lines ++ rest⟩ indent words = words.contains k.word := by
  obtain ⟨l, tail, rfl, opens, same⟩ := opens fits stands
  rw [Indented.continues, cons_append, head?_cons, Option.any_some, same, opens.first,
    beq_self_eq_true, Bool.true_and]

end Clause

namespace Phrase

variable {indent offset : Nat} {lines rest : List LogicalLine} {w : Phrase}

theorem indent_of_fits (h : w.fits indent = true) : w.indent = indent := by
  cases w with
  | simple line => exact eq_of_beq h
  | branch first elifs orelse =>
    simp only [fits, Bool.and_eq_true] at h
    exact Clause.indent_of_fits h.1.1
  | loop isWhile first orelse =>
    simp only [fits, Bool.and_eq_true] at h
    exact Clause.indent_of_fits h.1
  | guarded first handlers orelse final =>
    simp only [fits, Bool.and_eq_true] at h
    exact Clause.indent_of_fits h.1.1.1
  | scope first => exact Clause.indent_of_fits h
  | choice head arms =>
    simp only [fits, Bool.and_eq_true, beq_iff_eq] at h
    exact h.1.1

/-- The first line of a statement has its indentation and starts no part of another. -/
theorem lines_rows (stands : Stands t offset w.rows lines) :
    ∃ l tail, lines = l :: tail ∧ l.indent = w.indent ∧ firstWord l ∉ partWords := by
  obtain ⟨r, rows, first, same, plain⟩ := w.rows_cons
  rw [first] at stands
  obtain ⟨number, tail, rfl, _⟩ := stands.cons
  exact ⟨_, tail, rfl, same, plain offset number⟩

/-- The statements behind a statement close it. -/
theorem closed_rowsAll {ws : List Phrase} (fits : fitsAll indent ws = true)
    (stands : Stands t offset (rowsAll ws) lines) (below : Below indent rest) :
    Closed indent (lines ++ rest) := by
  cases ws with
  | nil =>
    rw [stands.nil]
    exact below.closed
  | cons w ws =>
    simp only [fitsAll, Bool.and_eq_true] at fits
    obtain ⟨la, lb, rfl, first, _⟩ := stands.append
    obtain ⟨l, tail, rfl, same, plain⟩ := lines_rows first
    intro l' next
    cases next
    exact ⟨Nat.le_of_eq (same.trans (indent_of_fits fits.1)), fun _ => plain⟩

end Phrase

end CodeAtlas
