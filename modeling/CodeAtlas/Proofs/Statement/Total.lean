import CodeAtlas.Proofs.Index.Bodies
import CodeAtlas.Proofs.Statement.BraceExtent
import CodeAtlas.Proofs.Statement.IndentedExtent
import CodeAtlas.Statement.Build

/-!
Reading the body of a function.

Whatever the text of a file is, the body of every declaration that a scan of it finds can be read:
the descent comes to an end by itself, and every statement of the tree lies in the body
(`bodies_read_inside`). The one exception is a body in TypeScript or JavaScript that holds a
`switch`.
-/

namespace CodeAtlas

open Reading

variable {family : Family} {e : Entry}

/-- Where a switch is a statement, the masked body does not hold the identifier `switch`. -/
def SwitchFree (family : Family) (masked : List Char) (e : Entry) : Prop :=
  family = .curly → hasIdentifier "switch" ((masked.take e.endOffset).drop e.bodyOffset) = false

/-- What is read of a body ends with it, or right before its closing brace. -/
def EndsAt (masked : List Char) (e : Entry) (stop : Nat) : Prop :=
  stop = e.endOffset ∨ e.bodyOffset ≤ stop ∧ e.endOffset = stop + 1 ∧ masked[stop]? = some '}'

/-- A body ends before its closing brace, if it has one. -/
theorem endsAt_brace (masked : List Char) (e : Entry) :
    EndsAt masked e (if (e.bodyOffset < e.endOffset && masked[e.endOffset - 1]? == some '}') = true
      then e.endOffset - 1 else e.endOffset) := by
  split
  · rename_i brace
    simp only [Bool.and_eq_true, decide_eq_true_eq, beq_iff_eq] at brace
    exact .inr ⟨by omega, by omega, brace.2⟩
  · exact .inl rfl

/-- A body without a switch is calm from its start on. -/
theorem calm_of_switchFree {masked source : List Char} {stop : Nat}
    (python : family ≠ .python) (free : SwitchFree family masked e) (ends : EndsAt masked e stop) :
    Brace.Calm (family == .rust) ⟨e.bodyOffset, (masked.take stop).drop e.bodyOffset, source⟩ := by
  cases family with
  | rust => exact .inl rfl
  | python => exact absurd rfl python
  | curly =>
    right
    have plain : Cursor.Plain ⟨e.bodyOffset, (masked.take e.endOffset).drop e.bodyOffset, source⟩ :=
      Cursor.plain_of_hasIdentifier (free rfl)
    rcases ends with rfl | ⟨order, last, brace⟩
    · exact plain
    · have split : (masked.take e.endOffset).drop e.bodyOffset =
          (masked.take stop).drop e.bodyOffset ++ ['}'] := by
        obtain ⟨inside, here⟩ := List.getElem?_eq_some_iff.mp brace
        rw [last, List.take_succ_eq_append_getElem inside, here, List.drop_append_of_le_length]
        rw [List.length_take]
        omega
      have limited := plain.limit split (by decide)
      rwa [Cursor.limit, split, List.take_left] at limited

/-- **All fuel that is enough reads a body alike**, in all families. -/
theorem bodyStatementsWithin_agree {text : SourceText} {n n' : Nat}
    (order : e.bodyOffset ≤ e.endOffset) (inside : e.endOffset ≤ text.code.length)
    (free : SwitchFree family text.code e) (fuel : 8 * (text.code.length + 1) ≤ n) (le : n ≤ n') :
    Agree (bodyStatementsWithin n family text e) (bodyStatementsWithin n' family text e)
      (Stmt.InBounds e.bodyOffset e.endOffset) := by
  have expression : Agree (pure [.leave .returns ⟨e.bodyOffset, e.endOffset⟩])
      (pure [.leave .returns ⟨e.bodyOffset, e.endOffset⟩])
      (Stmt.InBounds e.bodyOffset e.endOffset) :=
    agree_pure (@Stmt.every_toStmt _ _ (.leave .returns) |>.mpr
      ⟨Nat.le_refl _, order, Nat.le_refl _⟩)
  have inBraces (python : family ≠ .python) {stop : Nat} (ends : EndsAt text.code e stop) : Agree
        (Brace.statements (family == .rust) n
          ⟨e.bodyOffset, (text.code.take stop).drop e.bodyOffset, text.source.drop e.bodyOffset⟩)
        (Brace.statements (family == .rust) n'
          ⟨e.bodyOffset, (text.code.take stop).drop e.bodyOffset, text.source.drop e.bodyOffset⟩)
        (Stmt.InBounds e.bodyOffset e.endOffset) := by
    have stop_le : stop ≤ e.endOffset := by
      rcases ends with rfl | ⟨_, last, _⟩ <;> omega
    have stop_ge : e.bodyOffset ≤ stop := by
      rcases ends with rfl | ⟨first, _, _⟩ <;> omega
    have length : ((text.code.take stop).drop e.bodyOffset).length = stop - e.bodyOffset := by
      rw [List.length_drop, List.length_take]
      omega
    refine (Brace.statements_agree (calm_of_switchFree python free ends)
      (by simp only [length]; omega) le).mono ?_
    intro stmts bounded
    simp only [length] at bounded
    exact bounded.mono (by omega)
  unfold bodyStatementsWithin
  cases family with
  | python => exact Indented.statements_agree order (by omega) le
  | rust | curly =>
    exact agree_ite (fun _ => expression) fun _ =>
      inBraces (by decide) (endsAt_brace text.code e)

/-- **Every body can be read, and its statements lie in it.** For any text, the descent over the
body of any declaration found in it ends by itself: it does not get stuck, and more fuel than it has
changes nothing. The spans of all statements of the tree are in order and lie in the body. -/
theorem bodies_read_inside (file : SourceFile) (family : Family)
    (known : file.language.family = .ok family) :
    ∃ entries, fileEntries file = .ok entries ∧
      ∀ e ∈ entries, SwitchFree family (mask family file.text) e →
        ∃ stmts remarks, parseStatements file e = .ok (stmts, remarks) ∧ remarks.stuck = false ∧
          (∀ s ∈ Stmt.deep stmts, e.bodyOffset ≤ s.span.start ∧ s.span.start ≤ s.span.stop ∧
            s.span.stop ≤ e.endOffset) ∧
          ∀ fuel, 8 * (file.text.length + 1) ≤ fuel →
            (bodyStatementsWithin fuel family ⟨mask family file.text, file.text⟩ e).run {} =
              (stmts, remarks) := by
  have masked : (mask family file.text).length = file.text.length :=
    (Mask.maskFrom_veils family none file.text).length_eq
  have scanned : ∃ entries, fileEntries file = .ok entries := by
    rw [fileEntries, scanFile, known]
    exact ⟨_, rfl⟩
  obtain ⟨entries, found⟩ := scanned
  refine ⟨entries, found, ?_⟩
  intro e member free
  obtain ⟨order, inside⟩ := fileEntries_extent found member
  rw [← masked] at inside
  have agree (fuel : Nat) (enough : 8 * ((mask family file.text).length + 1) ≤ fuel) :
      Agree (bodyStatements family ⟨mask family file.text, file.text⟩ e)
        (bodyStatementsWithin fuel family ⟨mask family file.text, file.text⟩ e)
        (Stmt.InBounds e.bodyOffset e.endOffset) :=
    bodyStatementsWithin_agree order inside free (Nat.le_refl _) enough
  obtain ⟨_, bounded, calm⟩ := agree _ (Nat.le_refl _) []
  rcases result : (bodyStatements family ⟨mask family file.text, file.text⟩ e).run {} with
    ⟨stmts, remarks⟩
  rw [result] at bounded calm
  refine ⟨stmts, remarks, ?_, calm, ?_, ?_⟩
  · rw [parseStatements, SourceFile.masked, known, ← result]
    rfl
  · intro s part
    have between := bounded s part
    exact ⟨between.lo_le, between.start_le, between.le_hi⟩
  · intro fuel enough
    rw [← masked] at enough
    rw [← result]
    exact (agree fuel enough []).1.symm

/-- A body with a condition that is not closed, two stray closers and no end. -/
def unclosedBody : SourceFile :=
  SourceFile.ofText "a.ts" .typescript "function f() \x7b if (a \x7b ) ] b"

/-- What there is of that body is read. -/
theorem bodies_read_inside_unclosed :
    unclosedBody.language.family = .ok .curly ∧ ∃ e, fileEntries unclosedBody = .ok [e] ∧
      SwitchFree .curly (mask .curly unclosedBody.text) e ∧
      ∃ stmts remarks, parseStatements unclosedBody e = .ok (stmts, remarks) ∧
        remarks.stuck = false ∧
        ∀ s ∈ Stmt.deep stmts, e.bodyOffset ≤ s.span.start ∧ s.span.start ≤ s.span.stop ∧
          s.span.stop ≤ e.endOffset := by
  have known : unclosedBody.language.family = .ok .curly := rfl
  obtain ⟨entries, found, read⟩ := bodies_read_inside unclosedBody .curly known
  have facts : (fileEntries unclosedBody).toOption.map (·.map fun e => hasIdentifier "switch"
      (((mask .curly unclosedBody.text).take e.endOffset).drop e.bodyOffset)) =
        some [false] := by decide +kernel
  rw [found] at facts
  obtain ⟨e, rfl, fact⟩ := List.map_eq_singleton_iff.mp (Option.some.inj facts)
  have free : SwitchFree .curly (mask .curly unclosedBody.text) e := fun _ => fact
  obtain ⟨stmts, remarks, parsed, calm, inside, _⟩ := read e List.mem_cons_self free
  exact ⟨known, e, found, free, stmts, remarks, parsed, calm, inside⟩

end CodeAtlas
