import CodeAtlas.Proofs.Statement.Standing
import CodeAtlas.Statement.Build

/-!
Statements are read as they were written.

`Phrase.Reads`, `Phrase.ReadsAll` and `Clause.Reads` say what is read of a statement, a suite and a
clause wherever they stand. There is one rule for each kind of statement, and by induction on how
statements are made of clauses every statement is read as its tree (`Phrase.reads`). So the body of
a function is read back as it was written, without a warning (`parseStatements_phrases`).
-/

namespace CodeAtlas

open Indented List Text

variable {t : SourceText} {first : Clause} {orelse : Option Clause} {fuel : Nat}
  {filler before after : List Char}

/-! ### Suites and clauses -/

/-- Fuel that is more than something is not out. -/
theorem exists_pred {n : Nat} (enough : n < fuel) : ∃ left, fuel = left + 1 :=
  Nat.exists_eq_add_one.mpr (Nat.zero_lt_of_lt enough)

section Reads

variable (t)

/-- A statement is read as its tree, wherever it stands, when what follows does not go on with it.
Each row takes at most four calls. -/
def Phrase.Reads (w : Phrase) : Prop :=
  ∀ {indent offset last fuel : Nat} {lines rest : List LogicalLine}, w.fits indent = true →
    Stands t offset w.rows lines → Closed indent rest → 4 * w.rows.length ≤ fuel →
    statement t fuel ⟨last, lines ++ rest⟩ =
      pure (some (w.stmt offset), ⟨offset + Row.sizeAll w.rows, rest⟩)

/-- The statements of a suite are read as their trees, up to the first line that is less deep. -/
def Phrase.ReadsAll (ws : List Phrase) : Prop :=
  ∀ {indent offset last fuel : Nat} {lines rest : List LogicalLine},
    Phrase.fitsAll indent ws = true →
    Stands t offset (Phrase.rowsAll ws) lines → Below indent rest → (ws = [] → last = offset) →
    4 * (Phrase.rowsAll ws).length < fuel →
    suite t fuel indent ⟨last, lines ++ rest⟩ =
      pure (Phrase.stmts offset ws, ⟨offset + Row.sizeAll (Phrase.rowsAll ws), rest⟩)

def Clause.Reads (c : Clause) : Prop :=
  ∀ {k : Keyword} {indent offset last fuel : Nat} {lines rest : List LogicalLine},
    c.fits indent = true → Stands t offset (c.rows k) lines → Below (indent + 1) rest →
    4 * (c.rows k).length ≤ fuel + 2 →
    body t fuel ⟨last, lines ++ rest⟩ =
      pure (c.stmts k offset, c.head.text k, ⟨offset + Row.sizeAll (c.rows k), rest⟩)

end Reads

namespace Phrase

/-- A suite without statements reads nothing. -/
theorem readsAll_nil : ReadsAll t [] := by
  intro indent offset last fuel lines rest _ stands below start enough
  obtain ⟨fuel, rfl⟩ := exists_pred enough
  obtain rfl := start rfl
  obtain rfl := stands.nil
  show suite t (fuel + 1) indent ⟨last, rest⟩ = pure ([], ⟨last, rest⟩)
  rw [suite]
  cases rest with
  | nil => rfl
  | cons l rest =>
    have less : l.indent < indent := below l rfl
    simp only [less, if_true]

/-- A suite is read statement by statement. -/
theorem readsAll_cons {w : Phrase} {ws : List Phrase} (first : w.Reads t) (others : ReadsAll t ws) :
    ReadsAll t (w :: ws) := by
  intro indent offset last fuel lines rest fits stands below _ enough
  simp only [fitsAll, Bool.and_eq_true] at fits
  obtain ⟨la, lb, rfl, here, later⟩ := stands.append
  rw [rowsAll, length_append] at enough
  have some : 0 < w.rows.length := by
    obtain ⟨r, rows, rows_eq, _⟩ := w.rows_cons
    simp [rows_eq]
  obtain ⟨fuel, rfl⟩ := exists_pred enough
  have one : statement t fuel ⟨last, la ++ (lb ++ rest)⟩ =
      pure (.some (w.stmt offset), ⟨offset + Row.sizeAll w.rows, lb ++ rest⟩) :=
    first fits.1 here (closed_rowsAll fits.2 later below) (by omega)
  have more : suite t fuel indent ⟨offset + Row.sizeAll w.rows, lb ++ rest⟩ =
      pure (stmts (offset + Row.sizeAll w.rows) ws,
        ⟨offset + Row.sizeAll w.rows + Row.sizeAll (rowsAll ws), rest⟩) :=
    others fits.2 later below (fun _ => rfl) (by omega)
  obtain ⟨l, tail, rfl, same, _⟩ := lines_rows here
  rw [append_assoc, rowsAll, Row.sizeAll_append, ← Nat.add_assoc]
  rw [cons_append] at one ⊢
  rw [suite]
  simp only [same, indent_of_fits fits.1, Nat.lt_irrefl, if_false, one, more, pure_bind]
  rfl

end Phrase

namespace Clause

/-- A clause is read when its suite is: the suite starts on the next line, deeper than the
header. -/
theorem reads_mk {head : ClauseHead} {ws : List Phrase} (reads : Phrase.ReadsAll t ws) :
    (Clause.mk head ws).Reads t := by
  intro k indent offset last fuel lines rest fits stands below enough
  obtain ⟨same, deeper, inner⟩ := fits_mk fits
  obtain ⟨w, ws, rfl⟩ : ∃ w ws', ws = w :: ws' := by
    cases ws with
    | nil => cases deeper
    | cons w ws => exact ⟨w, ws, rfl⟩
  rw [rows, length_cons] at enough
  obtain ⟨fuel, rfl⟩ := exists_pred (show 0 < fuel by omega)
  obtain ⟨next, rows', rows_eq⟩ := rows_cons fits k
  have rows_eq' : Phrase.rowsAll (w :: ws) = next :: rows' := (cons.inj rows_eq).2
  rw [rows_eq] at stands
  obtain ⟨l, tail, rfl, opens, standsTail⟩ := ClauseHead.opens stands
  rw [← rows_eq'] at standsTail
  have read : suite t fuel w.indent ⟨offset + (head.row k).size, tail ++ rest⟩ =
      pure (Phrase.stmts (offset + (head.row k).size) (w :: ws),
        ⟨offset + (head.row k).size + Row.sizeAll (Phrase.rowsAll (w :: ws)), rest⟩) :=
    reads inner standsTail (below.mono deeper) (by simp) (by omega)
  obtain ⟨la, lb, rfl, standsFirst, _⟩ := standsTail.append
  obtain ⟨first, tail, rfl, deep, _⟩ := Phrase.lines_rows standsFirst
  have deeper' : head.margin.pad.length < w.indent := same ▸ deeper
  have level : l.indent = head.margin.pad.length := opens.indent
  have stop : l.stop = offset + (head.row k).size := opens.stop
  have header : (splitHeader t l).header = head.text k := opens.header
  rw [cons_append, body]
  simp only [cons_append, head?_cons] at read ⊢
  simp only [header, opens.inline, stop, level, deep, deeper', read, isEmpty_nil, Bool.not_true,
    Bool.false_eq_true, if_false, if_true, pure_bind, rows, stmts, Clause.head, Row.sizeAll_cons,
    Nat.add_assoc]

/-- What reading a clause gives where it stands, with the line that opens it. -/
theorem Reads.here {c : Clause} {k : Keyword} {indent offset : Nat} {lines rest : List LogicalLine}
    (reads : c.Reads t) (fits : c.fits indent = true) (stands : Stands t offset (c.rows k) lines)
    (below : Below (indent + 1) rest) (fuel last : Nat)
    (enough : 4 * (c.rows k).length ≤ fuel + 2) :
    ∃ l tail, lines = l :: tail ∧ c.head.Opens t k offset l ∧ l.indent = indent ∧
      body t fuel ⟨last, l :: (tail ++ rest)⟩ =
        pure (c.stmts k offset, c.head.text k, ⟨offset + Row.sizeAll (c.rows k), rest⟩) := by
  have read : body t fuel ⟨last, lines ++ rest⟩ = _ := reads fits stands below enough
  obtain ⟨l, tail, rfl, opens, level⟩ := Clause.opens fits stands
  exact ⟨l, tail, rfl, opens, level, read⟩

end Clause

/-! ### Simple statements -/

/-- A simple line is read as its statement. -/
theorem Phrase.reads_simple (line : SimpleLine) : (Phrase.simple line).Reads t := by
  intro indent offset last fuel lines rest _ stands _ enough
  rw [rows, length_singleton] at enough
  obtain ⟨fuel, rfl⟩ := exists_pred enough
  obtain ⟨number, tail, rfl, standsTail⟩ := stands.cons
  obtain rfl := standsTail.nil
  have word : compoundWords.contains (leadingWord (line.row.logical offset number)) = false := by
    rw [line.leadingWord_row]
    exact line.firstWord_row offset number
  rw [singleton_append, statement, rows, Row.sizeAll_cons, Row.sizeAll_nil]
  simp only [word, Bool.not_false, Bool.true_or, if_true]
  rfl

/-! ### Conditionals -/

section Parts

variable {indent offset : Nat} {lines rest : List LogicalLine}

/-- What stands behind a conditional without `elif` parts: an `else` part or nothing. -/
theorem alternatives_opt {o : Option Clause} (reads : ∀ c ∈ o, c.Reads t)
    (fits : Clause.fitsOpt indent o = true)
    (stands : Stands t offset (Clause.rowsOpt .otherwise o) lines)
    (closed : Closed indent rest) {fuel : Nat}
    (enough : 4 * (Clause.rowsOpt .otherwise o).length < fuel) :
    alternatives t fuel indent ⟨offset, lines ++ rest⟩ =
      pure ((Clause.stmtsOpt .otherwise offset o).getD [],
        ⟨offset + Row.sizeAll (Clause.rowsOpt .otherwise o), rest⟩) := by
  obtain ⟨fuel, rfl⟩ := exists_pred enough
  cases o with
  | none =>
    obtain rfl := stands.nil
    have elifs := closed.continues ["elif"] (by decide) offset
    have elses := closed.continues ["else"] (by decide) offset
    show alternatives t (fuel + 1) indent ⟨offset, rest⟩ = pure ([], ⟨offset, rest⟩)
    rw [alternatives]
    cases rest with
    | nil => rfl
    | cons l rest => simp only [elifs, elses, Bool.false_eq_true, if_false]
  | some c =>
    rw [Clause.rowsOpt] at stands enough ⊢
    have elifs : continues ⟨offset, lines ++ rest⟩ indent ["elif"] = false :=
      Clause.continues_rows fits stands ["elif"] offset
    have elses : continues ⟨offset, lines ++ rest⟩ indent ["else"] = true :=
      Clause.continues_rows fits stands ["else"] offset
    obtain ⟨l, tail, rfl, -, -, read⟩ :=
      Clause.Reads.here (reads c rfl) fits stands closed.below fuel offset (by omega)
    rw [cons_append] at elifs elses ⊢
    rw [alternatives]
    simp only [elifs, elses, read, pure_bind, Bool.false_eq_true, if_false, if_true]
    rfl

/-- A chain of `elif` parts is read, and what stands behind it. By induction on the parts. -/
theorem alternatives_chain {cs : List Clause} (reads : ∀ c ∈ cs, c.Reads t)
    (fits : Clause.fitsAll indent cs = true)
    (stands : Stands t offset (Clause.rowsAll .alternative cs) lines)
    (below : Below (indent + 1) rest) {need : Nat} {orelse : List Stmt} {after : LineCursor}
    (behind : ∀ fuel, need < fuel → alternatives t fuel indent
      ⟨offset + Row.sizeAll (Clause.rowsAll .alternative cs), rest⟩ = pure (orelse, after))
    (fuel : Nat) (enough : 4 * (Clause.rowsAll .alternative cs).length + need < fuel) :
    alternatives t fuel indent ⟨offset, lines ++ rest⟩ =
      pure (Clause.chain orelse offset cs, after) := by
  induction cs generalizing offset lines fuel with
  | nil =>
    obtain rfl := stands.nil
    exact behind fuel (by simpa [Clause.rowsAll] using enough)
  | cons c cs ih =>
    simp only [Clause.fitsAll, Bool.and_eq_true] at fits
    simp only [Clause.rowsAll, Row.sizeAll_append, ← Nat.add_assoc] at behind
    rw [Clause.rowsAll, length_append] at enough
    obtain ⟨la, lb, rfl, here, later⟩ := stands.append
    have some := Clause.two_le_length fits.1 .alternative
    obtain ⟨fuel, rfl⟩ := exists_pred enough
    have others : alternatives t fuel indent
        ⟨offset + Row.sizeAll (c.rows .alternative), lb ++ rest⟩ =
          pure (Clause.chain orelse _ cs, after) :=
      ih (fun c' mem => reads c' (mem_cons_of_mem c mem)) fits.2 later behind fuel (by omega)
    have elifs : continues ⟨offset, la ++ (lb ++ rest)⟩ indent ["elif"] = true :=
      Clause.continues_rows fits.1 here ["elif"] offset
    have cond : afterKeyword 4 (c.head.text .alternative) = c.head.expression :=
      c.head.afterKeyword_text .alternative
    obtain ⟨l, tail, rfl, opens, -, read⟩ := Clause.Reads.here (reads c mem_cons_self) fits.1 here
      (Clause.below_rowsAll fits.2 later below) fuel offset (by omega)
    rw [append_assoc]
    rw [cons_append] at elifs ⊢
    rw [alternatives]
    simp only [elifs, read, others, pure_bind, cond, if_true, opens.start, opens.stop]
    rfl

end Parts

/-- **A conditional is read** where its clauses are. -/
theorem Phrase.reads_branch {elifs : List Clause} (readsFirst : first.Reads t)
    (readsElifs : ∀ c ∈ elifs, c.Reads t)
    (readsOrelse : ∀ c ∈ orelse, c.Reads t) : (Phrase.branch first elifs orelse).Reads t := by
  intro indent offset last fuel lines rest fits stands closed enough
  simp only [Phrase.fits, Bool.and_eq_true] at fits
  obtain ⟨⟨fitsFirst, fitsElifs⟩, fitsOrelse⟩ := fits
  rw [rows, length_append, length_append] at enough
  obtain ⟨la, lines, rfl, here, later⟩ := stands.append
  obtain ⟨lb, lc, rfl, standsElifs, standsOrelse⟩ := later.append
  have some := Clause.two_le_length fitsFirst .branch
  obtain ⟨fuel, rfl⟩ := exists_pred (show 0 < fuel by omega)
  have below : Below (indent + 1) (lc ++ rest) :=
    Clause.below_rowsOpt fitsOrelse standsOrelse closed.below
  have chain := alternatives_chain readsElifs fitsElifs standsElifs below
    (fun fuel enough => alternatives_opt readsOrelse fitsOrelse standsOrelse closed enough) fuel
      (by omega)
  have cond : afterKeyword 2 (first.head.text .branch) = first.head.expression :=
    first.head.afterKeyword_text .branch
  obtain ⟨l, tail, rfl, opens, level, read⟩ := readsFirst.here fitsFirst here
    (Clause.below_rowsAll fitsElifs standsElifs below) fuel last (by omega)
  simp only [append_assoc, cons_append]
  rw [statement]
  simp only [opens.leading, opens.compound, Bool.false_eq_true, if_false]
  simp only [Keyword.word, beq_self_eq_true, if_true, read, level, chain, cond,
    pure_bind, opens.start, rows, Row.sizeAll_append, ← Nat.add_assoc]
  rfl

/-! ### Loops -/

/-- **A loop is read** where its clauses are. -/
theorem Phrase.reads_loop {isWhile : Bool} (readsFirst : first.Reads t)
    (readsOrelse : ∀ c ∈ orelse, c.Reads t) :
    (Phrase.loop isWhile first orelse).Reads t := by
  intro indent offset last fuel lines rest fits stands closed enough
  simp only [Phrase.fits, Bool.and_eq_true] at fits
  obtain ⟨fitsFirst, fitsOrelse⟩ := fits
  rw [rows, length_append] at enough
  obtain ⟨la, lb, rfl, here, later⟩ := stands.append
  have some := Clause.two_le_length fitsFirst (.ofLoop isWhile)
  obtain ⟨fuel, rfl⟩ := exists_pred (show 0 < fuel by omega)
  obtain ⟨l, tail, rfl, opens, level, read⟩ := readsFirst.here fitsFirst here
    (Clause.below_rowsOpt fitsOrelse later closed.below) fuel last (by omega)
  have cond := first.head.afterKeyword_text (.ofLoop isWhile)
  have other : ((Keyword.ofLoop isWhile).word == "if") = false := by cases isWhile <;> decide
  have loops : ((Keyword.ofLoop isWhile).word == "for" || (Keyword.ofLoop isWhile).word ==
      "while") = true := by
    cases isWhile <;> decide
  have kind : ((Keyword.ofLoop isWhile).word == "while") = isWhile := by cases isWhile <;> decide
  simp only [append_assoc, cons_append]
  rw [statement]
  simp only [opens.leading, opens.compound, other, loops, Bool.false_eq_true, if_false, if_true]
  simp only [read, level, pure_bind, cond, kind, opens.start, rows, Row.sizeAll_append,
    ← Nat.add_assoc]
  cases orelse with
  | none =>
    obtain rfl := later.nil
    simp only [nil_append, closed.continues ["else"] (by decide), Bool.false_eq_true, if_false]
    rfl
  | some c =>
    rw [Clause.rowsOpt] at enough
    have part : body t fuel ⟨offset + Row.sizeAll (first.rows (.ofLoop isWhile)), lb ++ rest⟩ = _ :=
      readsOrelse c rfl fitsOrelse later closed.below (by omega)
    have elses : continues ⟨offset + Row.sizeAll (first.rows (.ofLoop isWhile)), lb ++ rest⟩ indent
        ["else"] = true := Clause.continues_rows fitsOrelse later ["else"] _
    simp only [elses, part, pure_bind, if_true]
    rfl

/-! ### Scopes -/

/-- **A scope is read** where its clause is. -/
theorem Phrase.reads_scope (readsFirst : first.Reads t) : (Phrase.scope first).Reads t := by
  intro indent offset last fuel lines rest fits stands closed enough
  have some := Clause.two_le_length fits .scope
  rw [rows] at enough
  obtain ⟨fuel, rfl⟩ := exists_pred (show 0 < fuel by omega)
  obtain ⟨l, tail, rfl, opens, -, read⟩ :=
    readsFirst.here fits stands closed.below fuel last (by omega)
  rw [cons_append]
  rw [statement]
  simp only [opens.leading, opens.compound, Bool.false_eq_true, if_false]
  simp only [Keyword.word, String.reduceBEq, Bool.false_eq_true, if_false, if_true,
    Bool.or_false, read, pure_bind, opens.start, rows]
  rfl

/-! ### Guarded statements -/

section Parts

variable {indent offset : Nat} {lines rest : List LogicalLine} {k : Keyword} {fuel : Nat}

def GuardParts.add (parts : GuardParts) (k : Keyword) (offset : Nat) (c : Clause) : GuardParts :=
  match k with
  | .handler =>
      { parts with
        handlers := parts.handlers ++
          [.mk c.head.handlerLabel (c.start offset) (c.stmts k offset)] }
  | .otherwise => { parts with orelse := c.stmts k offset }
  | _ => { parts with final := some (c.stmts k offset) }

/-- One more part of a guarded statement is read and added. -/
theorem guardParts_clause (kind : k = .handler ∨ k = .otherwise ∨ k = .finish)
    {c : Clause} (reads : c.Reads t) (fits : c.fits indent = true)
    (stands : Stands t offset (c.rows k) lines) (below : Below (indent + 1) rest)
    (parts : GuardParts) (enough : 4 * (c.rows k).length ≤ fuel + 2) :
    guardParts t (fuel + 1) indent parts ⟨offset, lines ++ rest⟩ =
      guardParts t fuel indent (GuardParts.add parts k offset c)
        ⟨offset + Row.sizeAll (c.rows k), rest⟩ := by
  have goes : continues ⟨offset, lines ++ rest⟩ indent ["except", "else", "finally"] = true := by
    rw [Clause.continues_rows fits stands]
    rcases kind with rfl | rfl | rfl <;> decide
  obtain ⟨l, tail, rfl, opens, -, read⟩ := reads.here fits stands below fuel offset enough
  rw [cons_append] at goes ⊢
  rw [guardParts]
  simp only [goes, read, pure_bind, if_true, opens.first, opens.start]
  rcases kind with rfl | rfl | rfl <;> rfl

/-- Where no part follows the statement is complete. -/
theorem guardParts_closed (closed : Closed indent rest) (parts : GuardParts) (last : Nat)
    (some : 0 < fuel) : guardParts t fuel indent parts ⟨last, rest⟩ =
      pure (parts, ⟨last, rest⟩) := by
  obtain ⟨fuel, rfl⟩ := exists_pred (show 0 < fuel by omega)
  have stops := closed.continues ["except", "else", "finally"] (by decide) last
  rw [guardParts]
  cases rest with
  | nil => rfl
  | cons l rest => simp only [stops, Bool.false_eq_true, if_false]

variable {need : Nat} {result : GuardParts → GuardParts} {after : LineCursor}

theorem guardParts_opt (kind : k = .handler ∨ k = .otherwise ∨ k = .finish)
    {o : Option Clause} (reads : ∀ c ∈ o, c.Reads t) (fits : Clause.fitsOpt indent o = true)
    (stands : Stands t offset (Clause.rowsOpt k o) lines) (below : Below (indent + 1) rest)
    (behind : ∀ parts fuel, need < fuel → guardParts t fuel indent parts
      ⟨offset + Row.sizeAll (Clause.rowsOpt k o), rest⟩ = pure (result parts, after))
    (parts : GuardParts) (enough : 4 * (Clause.rowsOpt k o).length + need < fuel) :
    guardParts t fuel indent parts ⟨offset, lines ++ rest⟩ =
      pure (result (o.elim parts (GuardParts.add parts k offset)), after) := by
  cases o with
  | none =>
    obtain rfl := stands.nil
    exact behind parts fuel (by simpa [Clause.rowsOpt] using enough)
  | some c =>
    rw [Clause.rowsOpt] at stands enough
    have some := Clause.two_le_length fits k
    obtain ⟨fuel, rfl⟩ := exists_pred enough
    rw [guardParts_clause kind (reads c rfl) fits stands below parts (by omega)]
    exact behind _ fuel (by omega)

/-- The handlers of a guarded statement. By induction on the handlers. -/
theorem guardParts_handlers {cs : List Clause} (reads : ∀ c ∈ cs, c.Reads t)
    (fits : Clause.fitsAll indent cs = true)
    (stands : Stands t offset (Clause.rowsAll .handler cs) lines) (below : Below (indent + 1) rest)
    (behind : ∀ parts fuel, need < fuel → guardParts t fuel indent parts
      ⟨offset + Row.sizeAll (Clause.rowsAll .handler cs), rest⟩ = pure (result parts, after))
    (parts : GuardParts) (fuel : Nat)
    (enough : 4 * (Clause.rowsAll .handler cs).length + need < fuel) :
    guardParts t fuel indent parts ⟨offset, lines ++ rest⟩ = pure (result { parts with
        handlers := parts.handlers ++ Clause.arms .handler ClauseHead.handlerLabel offset cs },
          after) := by
  induction cs generalizing offset lines parts fuel with
  | nil =>
    obtain rfl := stands.nil
    rw [Clause.arms, append_nil]
    exact behind parts fuel (by simpa [Clause.rowsAll] using enough)
  | cons c cs ih =>
    simp only [Clause.fitsAll, Bool.and_eq_true] at fits
    simp only [Clause.rowsAll, Row.sizeAll_append, ← Nat.add_assoc] at behind
    rw [Clause.rowsAll, length_append] at enough
    obtain ⟨la, lb, rfl, here, later⟩ := stands.append
    have some := Clause.two_le_length fits.1 .handler
    obtain ⟨fuel, rfl⟩ := exists_pred enough
    rw [append_assoc, guardParts_clause (.inl rfl) (reads c mem_cons_self) fits.1 here
      (Clause.below_rowsAll fits.2 later below) parts (by omega),
      ih (fun c' mem => reads c' (mem_cons_of_mem c mem)) fits.2 later behind _ fuel (by omega)]
    simp only [GuardParts.add, Clause.arms, append_assoc, singleton_append]

end Parts

/-- **A guarded statement is read** where its clauses are. -/
theorem Phrase.reads_guarded {handlers : List Clause} {final : Option Clause}
    (readsFirst : first.Reads t) (readsHandlers : ∀ c ∈ handlers, c.Reads t)
    (readsOrelse : ∀ c ∈ orelse, c.Reads t) (readsFinal : ∀ c ∈ final, c.Reads t) :
    (Phrase.guarded first handlers orelse final).Reads t := by
  intro indent offset last fuel lines rest fits stands closed enough
  simp only [Phrase.fits, Bool.and_eq_true] at fits
  obtain ⟨⟨⟨fitsFirst, fitsHandlers⟩, fitsOrelse⟩, fitsFinal⟩ := fits
  simp only [rows, length_append] at enough
  obtain ⟨la, lines, rfl, here, later⟩ := stands.append
  obtain ⟨lb, lines, rfl, standsHandlers, later⟩ := later.append
  obtain ⟨lc, ld, rfl, standsOrelse, standsFinal⟩ := later.append
  have some := Clause.two_le_length fitsFirst .attempt
  obtain ⟨fuel, rfl⟩ := exists_pred (show 0 < fuel by omega)
  have belowFinal : Below (indent + 1) (ld ++ rest) :=
    Clause.below_rowsOpt fitsFinal standsFinal closed.below
  have belowOrelse : Below (indent + 1) (lc ++ (ld ++ rest)) :=
    Clause.below_rowsOpt fitsOrelse standsOrelse belowFinal
  obtain ⟨l, tail, rfl, opens, level, read⟩ := readsFirst.here fitsFirst here
    (Clause.below_rowsAll fitsHandlers standsHandlers belowOrelse) fuel last (by omega)
  set handlersAt := offset + Row.sizeAll (first.rows .attempt)
  set orelseAt := handlersAt + Row.sizeAll (Clause.rowsAll .handler handlers)
  set finalAt := orelseAt + Row.sizeAll (Clause.rowsOpt .otherwise orelse)
  -- From the last part back to the first one, each with what is read behind it.
  have readFinal (parts : GuardParts) (fuel : Nat)
      (enough : 4 * (Clause.rowsOpt .finish final).length < fuel) :
      guardParts t fuel indent parts ⟨finalAt, ld ++ rest⟩ =
        pure (final.elim parts (GuardParts.add parts .finish finalAt), ⟨_, rest⟩) :=
    guardParts_opt (.inr (.inr rfl)) readsFinal fitsFinal standsFinal closed.below
      (fun parts fuel some => guardParts_closed closed parts _ some) parts enough
  have readOrelse (parts : GuardParts) (fuel : Nat)
      (enough : 4 * (Clause.rowsOpt .otherwise orelse).length +
        4 * (Clause.rowsOpt .finish final).length < fuel) :=
    guardParts_opt (.inr (.inl rfl)) readsOrelse fitsOrelse standsOrelse belowFinal
      readFinal parts enough
  have parts := guardParts_handlers readsHandlers fitsHandlers standsHandlers belowOrelse readOrelse
    {} fuel (by omega)
  simp only [append_assoc, cons_append]
  rw [statement]
  simp only [opens.leading, opens.compound, Bool.false_eq_true, if_false]
  simp only [Keyword.word, String.reduceBEq, Bool.false_eq_true, if_false, if_true,
    Bool.or_false, read, level, parts, pure_bind, opens.start, rows, Row.sizeAll_append,
    ← Nat.add_assoc]
  cases orelse <;> cases final <;> rfl

/-! ### Choices -/

/-- The arms of a choice. By induction on the arms. -/
theorem cases_arms {indent offset : Nat} {lines rest : List LogicalLine} {cs : List Clause}
    (reads : ∀ c ∈ cs, c.Reads t) (fits : Clause.fitsAll indent cs = true)
    (stands : Stands t offset (Clause.rowsAll .arm cs) lines) (below : Below indent rest)
    (enough : 4 * (Clause.rowsAll .arm cs).length < fuel) :
    Indented.cases t fuel indent ⟨offset, lines ++ rest⟩ =
      pure (Clause.arms .arm ClauseHead.armLabel offset cs,
        ⟨offset + Row.sizeAll (Clause.rowsAll .arm cs), rest⟩) := by
  induction cs generalizing offset lines fuel with
  | nil =>
    obtain rfl := stands.nil
    obtain ⟨fuel, rfl⟩ := exists_pred enough
    show Indented.cases t (fuel + 1) indent ⟨offset, rest⟩ = pure ([], ⟨offset, rest⟩)
    rw [Indented.cases]
    cases rest with
    | nil => rfl
    | cons l rest =>
      have less : l.indent < indent := below l rfl
      have other : (l.indent != indent) = true := by simpa using Nat.ne_of_lt less
      simp only [other, if_true]
  | cons c cs ih =>
    simp only [Clause.fitsAll, Bool.and_eq_true] at fits
    rw [Clause.rowsAll, length_append] at enough
    obtain ⟨la, lb, rfl, here, later⟩ := stands.append
    have some := Clause.two_le_length fits.1 .arm
    obtain ⟨fuel, rfl⟩ := exists_pred enough
    have others : Indented.cases t fuel indent ⟨offset + Row.sizeAll (c.rows .arm), lb ++ rest⟩ =
        pure (Clause.arms .arm ClauseHead.armLabel _ cs, ⟨_, rest⟩) :=
      ih (fun c' mem => reads c' (mem_cons_of_mem c mem)) fits.2 later (by omega)
    have pattern : afterKeyword 4 (c.head.text .arm) = c.head.expression :=
      c.head.afterKeyword_text .arm
    obtain ⟨l, tail, rfl, opens, level, read⟩ :=
      Clause.Reads.here (reads c mem_cons_self) fits.1 here
      (Clause.below_rowsAll fits.2 later (below.mono (Nat.le_succ indent))) fuel offset (by omega)
    rw [append_assoc, Clause.rowsAll, Row.sizeAll_append, ← Nat.add_assoc]
    rw [cons_append]
    rw [Indented.cases]
    simp only [level, opens.first, Keyword.word, bne_self_eq_false,
      Bool.false_eq_true, if_false, read, others, pure_bind, pattern, opens.start]
    rfl

/-- **A choice is read** where its arms are. -/
theorem Phrase.reads_choice {head : ClauseHead} {arms : List Clause}
    (readsArms : ∀ c ∈ arms, c.Reads t) :
    (Phrase.choice head arms).Reads t := by
  intro indent offset last fuel lines rest fits stands closed enough
  simp only [Phrase.fits, Bool.and_eq_true, beq_iff_eq, decide_eq_true_eq] at fits
  obtain ⟨⟨same, deeper⟩, fitsArms⟩ := fits
  rw [rows, length_cons] at enough
  obtain ⟨fuel, rfl⟩ := exists_pred enough
  obtain ⟨arm, arms, rfl⟩ : ∃ c cs, arms = c :: cs := by
    cases arms with
    | nil => cases deeper
    | cons c cs => exact ⟨c, cs, rfl⟩
  have fitsArm : arm.fits (Clause.armIndent (arm :: arms)) = true := by
    simp only [Clause.fitsAll, Bool.and_eq_true] at fitsArms
    exact fitsArms.1
  obtain ⟨next, rows', rows_eq⟩ : ∃ next rows',
      Clause.rowsAll .arm (arm :: arms) = next :: rows' := by
    obtain ⟨next, rows', rows_eq⟩ := Clause.rows_cons fitsArm .arm
    exact ⟨_, _, by rw [Clause.rowsAll, rows_eq]; rfl⟩
  rw [rows, rows_eq] at stands
  obtain ⟨l, tail, rfl, opens, standsArms⟩ := ClauseHead.opens stands
  rw [← rows_eq] at standsArms
  have read : Indented.cases t fuel (Clause.armIndent (arm :: arms))
      ⟨offset + (head.row .choice).size, tail ++ rest⟩ = _ :=
    cases_arms readsArms fitsArms standsArms (closed.below.mono deeper) (by omega)
  obtain ⟨la, lb, rfl, standsArm, _⟩ := standsArms.append
  obtain ⟨first, tail, rfl, _, level⟩ := Clause.opens fitsArm standsArm
  have deeper' : l.indent < Clause.armIndent (arm :: arms) := by
    rw [opens.indent, same]
    exact deeper
  simp only [append_assoc, cons_append] at read ⊢
  rw [statement]
  simp only [opens.leading, opens.compound, Bool.false_eq_true, if_false]
  simp only [Keyword.word, String.reduceBEq, Bool.false_eq_true, if_false, if_true, Bool.or_false,
    head?_cons, level, deeper', opens.stop, opens.start, opens.header, read, pure_bind, rows,
    Row.sizeAll_cons, ← Nat.add_assoc]
  rfl

/-! ### Every statement -/

mutual

/-- **Every statement is read as its tree.** By induction on how it is made of clauses. -/
theorem Phrase.reads : ∀ w : Phrase, w.Reads t
  | .simple line => Phrase.reads_simple line
  | .branch first elifs orelse =>
    Phrase.reads_branch first.reads (Clause.readsAll elifs) (Clause.readsOpt orelse)
  | .loop _ first orelse => Phrase.reads_loop first.reads (Clause.readsOpt orelse)
  | .guarded first handlers orelse final =>
    Phrase.reads_guarded first.reads (Clause.readsAll handlers) (Clause.readsOpt orelse)
      (Clause.readsOpt final)
  | .scope first => Phrase.reads_scope first.reads
  | .choice _ arms => Phrase.reads_choice (Clause.readsAll arms)

theorem Phrase.readsAll : ∀ ws : List Phrase, Phrase.ReadsAll t ws
  | [] => Phrase.readsAll_nil
  | w :: ws => Phrase.readsAll_cons w.reads (Phrase.readsAll ws)

theorem Clause.reads : ∀ c : Clause, c.Reads t
  | .mk _ body => Clause.reads_mk (Phrase.readsAll body)

theorem Clause.readsAll : ∀ cs : List Clause, ∀ c ∈ cs, c.Reads t
  | [] => fun _ none => nomatch none
  | c :: cs => forall_mem_cons.mpr ⟨c.reads, Clause.readsAll cs⟩

theorem Clause.readsOpt : ∀ o : Option Clause, ∀ c ∈ o, c.Reads t
  | none => fun _ none => nomatch none
  | some c => fun _ same => Option.some.inj same ▸ c.reads

end

/-! ### Bodies -/

/-- There are no more rows than characters. -/
theorem Row.length_le_sizeAll (rows : List Row) : rows.length ≤ Row.sizeAll rows := by
  induction rows with
  | nil => simp
  | cons r rows ih =>
    rw [length_cons, Row.sizeAll_cons, Row.size_eq]
    omega

/-- The statements of a body that starts with the rest of its header line are read as their
trees. -/
theorem statements_phrases {source : List Char} {ws : List Phrase} (plain : isFiller filler = true)
    (some : ws ≠ []) (fits : Phrase.fitsAll (Phrase.suiteIndent ws) ws = true)
    (enough : 4 * Row.sizeAll (Phrase.rowsAll ws) + 1 < fuel)
    (written : Row.renderAll (Phrase.rowsAll ws) <+: source.drop (before.length + filler.length)) :
    Indented.statements ⟨before ++ (shownFiller filler ++ Row.shownAll (Phrase.rowsAll ws)) ++
      after, source⟩ fuel
        before.length (before.length + (filler.length + Row.sizeAll (Phrase.rowsAll ws))) =
      pure (Phrase.stmts (before.length + filler.length) ws) := by
  obtain ⟨w, ws, rfl⟩ : ∃ w ws', ws = w :: ws' := by
    cases ws with
    | nil => exact absurd rfl some
    | cons w ws => exact ⟨w, ws, rfl⟩
  set rows := Phrase.rowsAll (w :: ws) with rows_eq
  have nonempty : rows ≠ [] := by
    obtain ⟨r, rows', first, _⟩ := w.rows_cons
    rw [rows_eq, Phrase.rowsAll, first]
    simp
  obtain ⟨number, within⟩ := Row.logical_renderAll plain nonempty before after
  set code := before ++ (shownFiller filler ++ Row.shownAll rows) ++ after with code_eq
  have stands : Stands ⟨code, source⟩ (before.length + filler.length) rows
      (Row.logicals (before.length + filler.length) number rows) := by
    refine ⟨?_, written, number, rfl⟩
    show _ <+: code.drop _
    rw [code_eq, append_assoc, append_assoc, ← drop_drop, drop_left,
      ← length_shownFiller filler, drop_left]
    exact prefix_append _ _
  have short := Row.length_le_sizeAll rows
  have read : suite ⟨code, source⟩ fuel w.indent
      ⟨before.length, Row.logicals (before.length + filler.length) number rows ++ []⟩ =
        pure (Phrase.stmts (before.length + filler.length) (w :: ws), ⟨_, []⟩) :=
    Phrase.readsAll (w :: ws) fits stands (by simp [Below]) (by simp) (by rw [← rows_eq]; omega)
  obtain ⟨fuel, rfl⟩ : ∃ n, fuel = n + 2 := ⟨fuel - 2, by omega⟩
  obtain ⟨la, lb, lines, standsFirst, _⟩ := stands.append
  obtain ⟨l, tail, rfl, level, _⟩ := Phrase.lines_rows standsFirst
  rw [append_nil, lines, cons_append] at read
  rw [Indented.statements]
  simp only [within, lines, cons_append]
  rw [if_neg (by decide), suites]
  simp only [level, read, pure_bind, suites, append_nil]

/-- The masked text of a file around a body. Masking starts anew behind the colon. -/
theorem mask_body {rows : List Row}
    (colon : ((mask .python (before ++ (filler ++ Row.renderAll rows) ++ after)).take
      before.length).getLast? = some ':') (plain : isFiller filler = true) (ends : EndsLine after) :
    ∃ front, front.length = before.length ∧
      mask .python (before ++ (filler ++ Row.renderAll rows) ++ after) =
        front ++ (shownFiller filler ++ Row.shownAll rows) ++ mask .python after := by
  set text := before ++ (filler ++ Row.renderAll rows) ++ after with text_eq
  have length : (mask .python text).length = text.length :=
    (Mask.maskFrom_veils .python none text).length_eq
  have inside : before.length ≤ text.length := by simp [text_eq]
  have front : ((mask .python text).take before.length).length = before.length := by
    rw [length_take, length]
    exact Nat.min_eq_left inside
  have some : before.length ≠ 0 := by
    intro none
    rw [none] at colon
    cases colon
  have shown : (mask .python text)[before.length - 1]? = .some ':' := by
    rwa [getLast?_eq_getElem?, front, getElem?_take, if_pos (by omega)] at colon
  have resumed := mask_resumes shown (by decide)
  have rest : text.drop before.length = filler ++ (Row.renderAll rows ++ after) := by
    rw [text_eq, append_assoc, append_assoc, drop_left]
  rw [Nat.sub_add_cancel (Nat.pos_of_ne_zero some), rest,
    mask_filler_append plain (Row.endsLine_renderAll rows ends), Row.mask_renderAll rows ends]
      at resumed
  exact ⟨_, front, by rw [append_assoc, append_assoc]; exact resumed⟩

/-- The statements of a body are read as they were written. The body starts right behind a colon
that the masked text shows, with blanks or a comment on the rest of that line, and ends with a line.
Below stand statements that keep the rule of indentation, with blank lines and comments between
them. Then the trees of the statements are read, in their order and nesting and with their places in
the text, and there is no warning. -/
theorem parseStatements_phrases {file : SourceFile} {e : Entry} {before filler after : List Char}
    {ws : List Phrase} (family : file.language.family = .ok .python)
    (text : file.text = before ++ (filler ++ Row.renderAll (Phrase.rowsAll ws)) ++ after)
    (starts : e.bodyOffset = before.length)
    (stops : e.endOffset = before.length + (filler ++ Row.renderAll (Phrase.rowsAll ws)).length)
    (colon : ((mask .python file.text).take e.bodyOffset).getLast? = some ':')
    (plain : Text.isFiller filler = true) (ends : EndsLine after) (some : ws ≠ [])
    (fits : Phrase.fitsAll (Phrase.suiteIndent ws) ws = true) :
    parseStatements file e = .ok (Phrase.stmts (before.length + filler.length) ws, {}) := by
  rw [text, starts] at colon
  obtain ⟨front, length, masked⟩ := mask_body colon plain ends
  rw [← text] at masked
  have written : Row.renderAll (Phrase.rowsAll ws) <+:
      file.text.drop (front.length + filler.length) := by
    rw [text, length, List.append_assoc, List.append_assoc, ← List.drop_drop,
      List.drop_left, List.drop_left]
    exact List.prefix_append _ _
  have enough : 4 * Row.sizeAll (Phrase.rowsAll ws) + 1 <
      8 * ((mask .python file.text).length + 1) := by
    rw [masked]
    simp only [List.length_append, Row.length_shownAll]
    omega
  have read : bodyStatements .python ⟨mask .python file.text, file.text⟩ e =
      pure (Phrase.stmts (before.length + filler.length) ws) := by
    rw [bodyStatements, bodyStatementsWithin]
    simp only [starts, stops, List.length_append]
    rw [← length]
    rw [masked] at enough ⊢
    exact statements_phrases plain some fits enough written
  rw [parseStatements, SourceFile.masked, family]
  show Except.ok ((bodyStatements .python ⟨mask .python file.text, file.text⟩ e).run {}) = _
  rw [read]
  rfl

def Margin.spaces (n : Nat) : Margin where
  pad := List.replicate n ' '
  blanks := by simp

/-- A body with a loop, a guarded scope and a choice, and with comments, a blank line, a tab and
suites of several widths. -/
def nestedBody : List Phrase :=
  [.loop false
    (.mk { margin := { before := ["    # start".toList, []], pad := "    ".toList }
           rest := " x in xs".toList }
      [.branch
        (.mk { margin := .spaces 6, rest := " x[0:2]".toList }
          [.simple { margin := .spaces 8, code := "h(x)".toList }])
        [.mk { margin := { pad := "      ".toList, tail := "  # no".toList }, rest := " y ".toList }
          [.simple { margin := { pad := "      \t".toList }, code := "continue".toList }]]
        (some (.mk { margin := .spaces 6 }
          [.simple { margin := .spaces 7, code := "break".toList }]))])
    none,
   .guarded
    (.mk { margin := .spaces 4 }
      [.scope (.mk { margin := .spaces 5, rest := " s".toList }
        [.simple { margin := .spaces 6, code := "g()".toList }])])
    [.mk { margin := .spaces 4, rest := " E".toList }
      [.simple { margin := .spaces 5, code := "raise".toList }]]
    none none,
   .choice { margin := .spaces 4, rest := " t".toList }
    [.mk { margin := .spaces 6, rest := " 0".toList }
      [.simple { margin := .spaces 8, code := "pass".toList }]]]

/-- A function with that body, and a line behind it. -/
def nestedFile : SourceFile :=
  let text :=
    "def f(xs):".toList ++ ("  # walk".toList ++ Row.renderAll (Phrase.rowsAll nestedBody)) ++
    "\n\ng()\n".toList
  { path := "a.py", language := .python, sizeBytes := text.length, lineCount := 21, text := text }

/-- The function is found, and its body is read back. -/
theorem parseStatements_phrases_nested :
    Phrase.fitsAll (Phrase.suiteIndent nestedBody) nestedBody = true ∧
    ∃ e, fileEntries nestedFile = .ok [e] ∧
      parseStatements nestedFile e = .ok (Phrase.stmts 18 nestedBody, {}) := by
  have fits : Phrase.fitsAll (Phrase.suiteIndent nestedBody) nestedBody = true := by decide +kernel
  have length : "def f(xs):".toList.length = 10 := rfl
  have colon : ((mask .python nestedFile.text).take 10).getLast? = some ':' := by
    have text : nestedFile.text = "def f(xs):".toList ++ ("  # walk".toList ++
        Row.renderAll (Phrase.rowsAll nestedBody) ++ "\n\ng()\n".toList) := List.append_assoc _ _ _
    have plain : ∀ c ∈ "def f(xs):".toList, Text.isPlain c = true := List.all_eq_true.mp (by decide)
    have shown : (mask .python nestedFile.text).take 10 = "def f(xs):".toList := by
      rw [text, mask_plain_append plain, List.take_left' length]
    rw [shown]
    decide
  have facts : (fileEntries nestedFile).toOption.map (·.map fun e => (e.bodyOffset, e.endOffset)) =
      some
        [(10, 10 + ("  # walk".toList ++ Row.renderAll (Phrase.rowsAll nestedBody)).length)] := by
          decide +kernel
  refine ⟨fits, ?_⟩
  cases found : fileEntries nestedFile with
  | error _ =>
    rw [found] at facts
    cases facts
  | ok entries =>
    rw [found] at facts
    obtain ⟨e, rfl, fact⟩ := List.map_eq_singleton_iff.mp (Option.some.inj facts)
    obtain ⟨start, stop⟩ := Prod.mk.inj fact
    have starts : e.bodyOffset = "def f(xs):".toList.length := length ▸ start
    have stops : e.endOffset = "def f(xs):".toList.length + ("  # walk".toList ++
        Row.renderAll (Phrase.rowsAll nestedBody)).length := length ▸ stop
    exact ⟨e, rfl, parseStatements_phrases rfl rfl starts stops (start ▸ colon) (by decide)
      (fun _ same => (Option.some.inj same).symm) (by decide) fits⟩

end CodeAtlas
