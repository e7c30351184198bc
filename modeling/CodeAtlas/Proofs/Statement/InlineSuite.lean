import CodeAtlas.Proofs.Statement.Recovery

/-!
Suites on the line of their header.

A suite behind the colon of a header is cut into statements at its semicolons
(`splitTopLevel_statements`), and a line of its own is one statement. So both forms of a suite are
read alike only where it has one statement (`inline_suite_kinds_iff`).
-/

namespace CodeAtlas

open Indented List Text

/-! ### Statements between semicolons -/

namespace Text

variable {cs first : List Char} {others : List (List Char)}

/-- Do the semicolons all stand inside brackets, and are there no angle brackets? -/
def isJoined : (depth : Nat) → List Char → Bool
  | _, [] => true
  | depth, c :: cs =>
      if isOpener c then isJoined (depth + 1) cs
      else if isCloser c then isJoined (depth - 1) cs
      else c != '<' && c != '>' && (c != ';' || 0 < depth) && isJoined depth cs

/-- A text without a cut is the first part of what it starts. -/
theorem splitNestedFrom_append {rest : List Char} {parts : List (List Char)}
    (tail : ∀ prev, splitNestedFrom ';' 0 prev rest = [] :: parts) {depth : Nat}
    (level : balanced depth cs = true) (whole : isJoined depth cs = true) (prev : Option Char) :
    splitNestedFrom ';' depth prev (cs ++ rest) = cs :: parts := by
  induction cs generalizing depth prev with
  | nil =>
    obtain rfl : depth = 0 := by simpa [balanced] using level
    exact tail prev
  | cons c cs ih =>
    -- The depth after a character is that of the bracket count, and no character is a cut.
    have step {next : Nat} (after : nestingAfter depth prev c = (next : Int))
        (stays : (c == ';' && (next : Int) == 0) = false) (level : balanced next cs = true)
        (whole : isJoined next cs = true) : splitNestedFrom ';' depth prev (c :: cs ++ rest) =
          (c :: cs) :: parts := by
      simp only [cons_append, splitNestedFrom, after, stays, ih level whole]
      rfl
    unfold balanced at level
    unfold isJoined at whole
    split at level
    · rename_i opens
      have other : c ≠ ';' := by
        rintro rfl
        exact absurd opens (by decide)
      rw [if_pos opens] at whole
      exact step (by simp [nestingAfter, opens]) (by simp [other]) level whole
    · rename_i plain
      rw [if_neg plain] at whole
      split at level
      · rename_i closes
        have other : c ≠ ';' ∧ c ≠ '<' := by
          constructor <;> rintro rfl <;> exact absurd closes (by decide)
        rw [if_pos closes] at whole
        simp only [Bool.and_eq_true, decide_eq_true_eq] at level
        have above : ((depth - 1 : Nat) : Int) = depth - 1 := by omega
        exact step (by simp [nestingAfter, plain, closes, other.2, above])
          (by simp [other.1]) level.2 whole
      · rename_i inert
        rw [if_neg inert] at whole
        simp only [Bool.and_eq_true, bne_iff_ne, Bool.or_eq_true, decide_eq_true_eq] at whole
        obtain ⟨⟨⟨less, greater⟩, cut⟩, whole⟩ := whole
        refine step (by simp [nestingAfter, plain, inert, less, greater]) ?_ level whole
        rcases cut with other | inside
        · simp [other]
        · have : depth ≠ 0 := by omega
          simp [this]

/-- A statement that can be told from its neighbours. -/
structure IsStatement (cs : List Char) : Prop where
  level : balanced 0 cs = true
  whole : isJoined 0 cs = true
  visible : isAllBlank cs = false

/-- A blank before a statement changes nothing. -/
theorem IsStatement.blank (h : IsStatement cs) : IsStatement (' ' :: cs) :=
  ⟨by simpa [balanced, isOpener, isCloser] using h.level, by simpa [isJoined, isOpener,
    isCloser] using h.whole, by
      simpa [isAllBlank] using fun _ => by simpa [isAllBlank] using h.visible⟩

/-- Statements with semicolons between them. -/
def statements (first : List Char) (others : List (List Char)) : List Char :=
  first ++ others.flatMap fun s => ';' :: ' ' :: s

/-- Statements between semicolons are cut apart, after whatever comes before. -/
theorem splitNestedFrom_statements (here : IsStatement first)
    (later : ∀ s ∈ others, IsStatement s) (prev : Option Char) :
    splitNestedFrom ';' 0 prev (statements first others) = first :: others.map (' ' :: ·) := by
  induction others generalizing first prev with
  | nil => exact splitNestedFrom_append (fun _ => rfl) here.level here.whole prev
  | cons s others ih =>
    obtain ⟨next, later⟩ := forall_mem_cons.mp later
    refine splitNestedFrom_append (fun prev => ?_) here.level here.whole prev
    have rest := ih next.blank later (some ';')
    have cut : nestingAfter 0 prev ';' = 0 := by simp [nestingAfter, isOpener, isCloser]
    rw [flatMap_cons, cons_append, splitNestedFrom, cut]
    simpa [statements] using rest

/-- **Statements between semicolons are cut apart**, and none of them is blank. -/
theorem splitTopLevel_statements (here : IsStatement first) (later : ∀ s ∈ others, IsStatement s) :
    (splitTopLevel ';' (statements first others)).filter (!isAllBlank ·) =
      first :: others.map (' ' :: ·) := by
  have parts := splitNestedFrom_statements here later none
  have kept : (first :: others.map (' ' :: ·)).filter (!isAllBlank ·) =
      first :: others.map (' ' :: ·) := by
    rw [filter_eq_self]
    intro part mem
    rcases mem_cons.mp mem with rfl | inside
    · simp [here.visible]
    · obtain ⟨s, known, rfl⟩ := mem_map.mp inside
      simp [(later s known).blank.visible]
  rw [splitTopLevel, parts]
  cases others with
  | nil => simp [here.visible]
  | cons s others => exact kept

end Text

/-! ### Both forms of a suite -/

def Stmt.simpleKind? : Stmt → Option SimpleKind
  | .simple _ => some .plain
  | .leave kind _ => some (.leave kind)
  | .tryOp _ => some .tryOp
  | .jump kind label _ => some (.jump kind label)
  | .unknown kind _ => some (.unknown kind)
  | _ => none

/-- The kind of a simple statement is read off its tree. -/
theorem SimpleKind.simpleKind?_toStmt (kind : SimpleKind) (span : Span) :
    (kind.toStmt span).simpleKind? = some kind := by
  cases kind <;> rfl

namespace ClauseHead

/-- A header with a suite behind its colon. -/
def inlineRow (k : Keyword) (h : ClauseHead) (line : SimpleLine) : Row where
  margin := h.margin
  code := h.text k ++ [':'] ++ ' ' :: line.code
  plain := by
    intro c member
    rcases List.mem_append.mp member with head | suite
    · exact (h.row k).plain c head
    · rcases List.mem_cons.mp suite with rfl | inside
      · decide
      · exact line.row.plain c inside
  level := by
    have head : PhysicalLine.depthAfter 0 (h.text k ++ [':']) = 0 := (h.row k).level
    rw [PhysicalLine.depthAfter_append, head]
    exact line.row.level
  first := by
    cases k <;> rfl
  last := by
    have some : line.code ≠ [] := by
      have := line.first
      rintro empty
      simp [empty] at this
    rw [List.getLast?_append_of_ne_nil _ (by simp), List.getLast?_cons_of_ne_nil some]
    exact line.last

variable {t : SourceText} {offset : Nat} {k : Keyword} {h : ClauseHead} {line : SimpleLine}
  {rows : List Row} {lines : List LogicalLine}

/-- A header with a suite behind it splits at its colon. -/
theorem splitHeader_inlineRow (stands : Stands t offset (h.inlineRow k line :: rows) lines)
    (number : Nat) :
    splitHeader t ((h.inlineRow k line).logical offset number) =
      ⟨h.text k, line.code, h.margin.start offset + (h.text k).length + 1⟩ := by
  obtain ⟨more, code⟩ := stands.code
  obtain ⟨more', source⟩ := stands.source_drop
  have code : t.code.drop (h.margin.start offset) =
      h.text k ++ ':' :: ([' '] ++ line.code ++ shownFiller h.margin.tail ++
        (Row.shownAll rows ++ more)) := by
    have drop := (h.inlineRow k line).drop_shown (Row.shownAll rows ++ more)
    rw [Margin.start, ← drop_drop, ← code]
    simpa [Row.shownAll, inlineRow] using drop
  have stop : offset + (h.inlineRow k line).size = h.margin.start offset + (h.text k).length + 1 +
      ([' '] ++ line.code ++ shownFiller h.margin.tail).length := by
    rw [Row.size_eq, Margin.start, Margin.lead]
    simp [inlineRow, Row.indent]
    omega
  have source : t.source.drop (h.margin.start offset) =
      h.text k ++ ([':'] ++ ' ' :: line.code ++ more') := by
    simpa [inlineRow] using source
  have split :=
    (@splitHeader_code t k h ((h.inlineRow k line).logical offset number) _ _ _ code source stop
    (by simp)).2
  rwa [trim_append (by simp [isBlank]) isBlank_of_mem_shownFiller line.first line.last] at split

end ClauseHead

namespace Row

/-- The text of some rows. -/
def text (rows : List Row) : SourceText :=
  ⟨shownAll rows, renderAll rows⟩

/-- The kinds of the statements in the body of the clause on the first of some rows. -/
def bodyKinds (fuel : Nat) (rows : List Row) : List (Option SimpleKind) :=
  ((body (text rows) fuel ⟨0, (LogicalLine.ofText (text rows).code).1⟩).run {}).1.1.map
    Stmt.simpleKind?

/-- Rows stand in their text from its start on. -/
theorem stands_text {rows : List Row} (some : rows ≠ []) :
    Stands (text rows) 0 rows (LogicalLine.ofText (text rows).code).1 := by
  obtain ⟨number, within⟩ := logical_renderAll (show isFiller [] = true from rfl) some [] []
  have lines : LogicalLine.ofText (text rows).code = (logicals 0 number rows, 0) := by
    rw [LogicalLine.ofText, text, length_shownAll]
    simpa [shownFiller, trimStart] using within
  exact ⟨prefix_rfl, prefix_rfl, number, by rw [lines]⟩

end Row

/-- Behind a header each piece between semicolons is a statement. -/
theorem bodyKinds_inline (k : Keyword) (h : ClauseHead) (line : SimpleLine)
    (rows : List Row) (fuel : Nat) :
    Row.bodyKinds (fuel + 1) (h.inlineRow k line :: rows) =
      (((splitTopLevel ';' line.code).filter (!isAllBlank ·)).map (SimpleKind.ofText false)).map
        some := by
  have stands := Row.stands_text (cons_ne_nil (h.inlineRow k line) rows)
  obtain ⟨number, tail, lines, -⟩ := stands.cons
  have split := ClauseHead.splitHeader_inlineRow stands number
  have some : line.code.isEmpty = false := by
    have := line.first
    cases code : line.code <;> simp_all
  rw [Row.bodyKinds, lines, body]
  simp only [split, some, Bool.not_false, if_true]
  simp [inlineStatements, SimpleKind.simpleKind?_toStmt, Function.comp_def, StateT.run,
    pure, StateT.pure]

/-- On its own line a suite is one statement. -/
theorem bodyKinds_indented (k : Keyword) (h : ClauseHead) (line : SimpleLine)
    (rows : List Row) {fuel : Nat} (deeper : h.margin.pad.length < line.margin.pad.length)
    (below : ∀ r ∈ rows.head?, r.indent ≤ h.margin.pad.length) (enough : 6 ≤ fuel) :
    Row.bodyKinds fuel (h.row k :: line.row :: rows) =
      [some (SimpleKind.ofText false line.code)] := by
  have stands := Row.stands_text (cons_ne_nil (h.row k) (line.row :: rows))
  obtain ⟨la, lb, lines, here, later⟩ := @Stands.append _ _ _ [h.row k, line.row] rows stands
  have fits : (Clause.mk h [.simple line]).fits h.margin.pad.length = true := by
    simp [Clause.fits, Phrase.suiteIndent, Phrase.fitsAll, Phrase.fits, Phrase.indent, deeper]
  have after : Below (h.margin.pad.length + 1) lb := by
    intro l first
    cases rows with
    | nil => simp [later.nil] at first
    | cons r rows =>
      obtain ⟨number, tail, rfl, -⟩ := later.cons
      obtain rfl : _ = l := by simpa using first
      exact Nat.lt_succ_of_le (below r rfl)
  have room : 4 * ((Clause.mk h [.simple line]).rows k).length ≤ fuel + 2 := by
    simp only [Clause.rows, Phrase.rowsAll, Phrase.rows, length_cons, length_append, length_nil]
    omega
  have read : body _ fuel ⟨0, la ++ lb⟩ = _ :=
    (Clause.mk h [.simple line]).reads fits here after room
  rw [Row.bodyKinds, lines, read]
  simp [Clause.stmts, Phrase.stmts, Phrase.stmt, SimpleKind.simpleKind?_toStmt, StateT.run,
    pure, StateT.pure]

/-- **When a suite means the same on its own line.** The statements of a suite are cut apart behind
the colon of its header and not on a line of their own. So the two bodies have the same kinds and
labels where the parts between its semicolons are one statement of the kind of the whole line, and
where statements are written without angle brackets, if there is one of them. -/
theorem inline_suite_kinds_iff (k : Keyword) (h : ClauseHead) (line : SimpleLine)
    (rows below : List Row) {fuel : Nat} (deeper : h.margin.pad.length < line.margin.pad.length)
    (ends : ∀ r ∈ below.head?, r.indent ≤ h.margin.pad.length) (enough : 6 ≤ fuel) :
    (Row.bodyKinds fuel (h.inlineRow k line :: rows) =
      Row.bodyKinds fuel (h.row k :: line.row :: below) ↔
      ((Text.splitTopLevel ';' line.code).filter (!Text.isAllBlank ·)).map
        (SimpleKind.ofText false) =
        [SimpleKind.ofText false line.code]) ∧
    ∀ first others, line.code = Text.statements first others → Text.IsStatement first →
      (∀ s ∈ others, Text.IsStatement s) →
      (Row.bodyKinds fuel (h.inlineRow k line :: rows) =
        Row.bodyKinds fuel (h.row k :: line.row :: below) ↔
        others = []) := by
  obtain ⟨fuel, rfl⟩ : ∃ n, fuel = n + 1 := ⟨fuel - 1, by omega⟩
  have same : Row.bodyKinds (fuel + 1) (h.inlineRow k line :: rows) =
      Row.bodyKinds (fuel + 1) (h.row k :: line.row :: below) ↔
        ((Text.splitTopLevel ';' line.code).filter (!Text.isAllBlank ·)).map
          (SimpleKind.ofText false) =
          [SimpleKind.ofText false line.code] := by
    rw [bodyKinds_inline, bodyKinds_indented k h line below deeper ends enough]
    show List.map some _ = List.map some [_] ↔ _
    exact List.map_inj_right fun _ _ => Option.some.inj
  refine ⟨same, fun first others written here later => same.trans ?_⟩
  rw [written, Text.splitTopLevel_statements here later]
  constructor
  · intro kinds
    simpa using congrArg List.length kinds
  · rintro rfl
    simp [Text.statements]

/-- One statement behind a header with brackets and with a remark behind it, and the same on a line
of its own. -/
theorem inline_suite_kinds_oneStatement :
    let head : ClauseHead :=
      { margin := { pad := [' '], tail := " # so".toList }, rest := " x[1:] in (y, z)".toList }
    let line : SimpleLine := { margin := { pad := [' ', '\t'] }, code := "break".toList }
    Row.bodyKinds 6 [head.inlineRow .loopOver line] =
      Row.bodyKinds 6 [head.row .loopOver, line.row] :=
  ((inline_suite_kinds_iff .loopOver _ _ [] [] (by decide) (by simp) (Nat.le_refl 6)).2
    "break".toList [] rfl
    ⟨by decide, by decide, by decide⟩ (by simp)).mpr rfl

/-- A return behind a semicolon is seen behind a header and not on a line of its own. -/
theorem return_on_line_unseen :
    let head : ClauseHead := { margin := { pad := [] }, rest := " x".toList }
    let line : SimpleLine := { margin := { pad := [' '] }, code := "a(); return".toList }
    Row.bodyKinds 6 [head.inlineRow .branch line] = [some .plain, some (.leave .returns)] ∧
      Row.bodyKinds 6 [head.row .branch, line.row] = [some .plain] := by
  refine ⟨(bodyKinds_inline ..).trans ?_,
    (bodyKinds_indented _ _ _ _ (by decide) (by simp) (Nat.le_refl 6)).trans ?_⟩
  · decide +kernel
  · decide +kernel

end CodeAtlas
