import CodeAtlas.Proofs.Source.Arrangement
import CodeAtlas.Proofs.Source.Shift

/-!
Blank lines above a file move its declarations and change nothing else about them.

A scan is a fold over marks or lines, so it is enough that one step moves with its mark
(`Rust.step_shift`, `Python.step_shift`). What a step reads of the text before a mark is blind to
line feeds at the start of the text, which is all that is new there. `scanFile_prepend` puts the
families together, and `Index.entries_prepend` follows the declarations into the index, where
sorting by line keeps the order of entries that have moved together. Only an identity with a line in
it would change, so no file may declare one qualified name twice.
-/

namespace CodeAtlas

open List Text

/-! ### Declarations and scopes -/

namespace Declaration

def shift (k : Nat) (d : Declaration) : Declaration :=
  { d with
    declOffset := d.declOffset + k, bodyOffset := d.bodyOffset + k, endOffset := d.endOffset + k }

def shiftOpen (k : Nat) (d : Declaration) : Declaration :=
  { d with declOffset := d.declOffset + k, bodyOffset := d.bodyOffset + k }

end Declaration

namespace Scope

def map (f : Declaration → Declaration) : Scope → Scope
  | block => block
  | type name tags => type name tags
  | module name d => module name (f d)
  | entry d => entry (f d)

variable {f : Declaration → Declaration}

/-- A scope keeps its name when its declaration moves. -/
@[simp]
theorem name?_map (names : ∀ d, (f d).bareName = d.bareName)
    (s : Scope) : (s.map f).name? = s.name? := by
  cases s <;> simp [map, name?, names]

@[simp]
theorem tags_map (tags : ∀ d, (f d).tags = d.tags) (s : Scope) : (s.map f).tags = s.tags := by
  cases s <;> simp [map, Scope.tags, tags]

/-- The declaration of a scope moves with it. -/
@[simp]
theorem declaration?_map (s : Scope) : (s.map f).declaration? = s.declaration?.map f := by
  cases s <;> rfl

end Scope

namespace BlockState

variable {f : Declaration → Declaration}

/-- Qualified names do not depend on offsets. -/
theorem qualify_map (names : ∀ d, (f d).bareName = d.bareName) (separator : String)
    (scopes : List Scope) (name : String) :
    qualify separator (scopes.map (Scope.map f)) name = qualify separator scopes name := by
  simp only [qualify, filterMap_map, Function.comp_def, Scope.name?_map names]

theorem inherited_map (tags : ∀ d, (f d).tags = d.tags) (wanted : Tag)
    (scopes : List Scope) : inherited wanted (scopes.map (Scope.map f)) =
      inherited wanted scopes := by
  simp only [inherited, any_map, Function.comp_def, Scope.tags_map tags]

end BlockState

/-! ### The block stack -/

def Frame.shift (k : Nat) (f : Frame) : Frame :=
  ⟨f.scope.map (Declaration.shiftOpen k), f.paren⟩

def Head.shift (k : Nat) : Head → Head
  | implementation start text => implementation (start + k) text
  | head => head

def Pending.shift (k : Nat) (p : Pending) : Pending :=
  ⟨p.head.shift k, p.declOffset + k, p.paren, p.tags, p.braceAt.map (· + k)⟩

def ScanWarning.shift (k : Nat) (w : ScanWarning) : ScanWarning :=
  ⟨w.cause, w.line.map (· + k)⟩

def FileScan.shift (k : Nat) (found : FileScan) : FileScan :=
  ⟨found.declarations.map (Declaration.shift k), found.warnings.map (ScanWarning.shift k)⟩

namespace BlockState

def shift (k : Nat) (s : BlockState) : BlockState :=
  { closed := s.closed.map (Declaration.shift k)
    stack := s.stack.map (Frame.shift k)
    pending := s.pending.map (Pending.shift k)
    paren := s.paren
    warnings := s.warnings.map (ScanWarning.shift k)
    bound := s.bound.map fun (offset, name, place, tags) => (offset + k, name, place + k, tags) }

variable {k : Nat} {lines lines' : LineMap}

@[simp]
theorem scopes_shift (s : BlockState) :
    (s.shift k).scopes = s.scopes.map (Scope.map (Declaration.shiftOpen k)) := by
  simp [scopes, shift, Frame.shift, Function.comp_def]

@[simp]
theorem enclosingType?_shift (s : BlockState) : (s.shift k).enclosingType? = s.enclosingType? := by
  unfold enclosingType? shift
  cases s.stack with
  | nil => rfl
  | cons frame stack =>
    obtain ⟨scope, paren⟩ := frame
    cases scope <;> rfl

theorem warn_shift (s : BlockState) (cause : Imbalance) (line : Option Nat) :
    (s.shift k).warn cause (line.map (· + k)) = (s.warn cause line).shift k := by
  simp [warn, shift, ScanWarning.shift]

/-- A declaration that is closed further down is the closed one moved. -/
theorem close_shift (s : BlockState) (d : Declaration) (stop : Nat) :
    (s.shift k).close (d.shiftOpen k) (stop + k) = (s.close d stop).shift k := by
  simp [close, shift, Declaration.shift, Declaration.shiftOpen]

/-- Opening a bracket commutes with the shift, if binding a head does. -/
theorem openBracket_shift {bind : BlockState → Pending → Nat → Scope}
    (moves : ∀ s p brace, bind (s.shift k) (p.shift k) (brace + k) =
      (bind s p brace).map (Declaration.shiftOpen k))
    (s : BlockState) (c : Char) (start : Nat) :
    (s.shift k).openBracket bind c (start + k) = (s.openBracket bind c start).shift k := by
  unfold openBracket
  by_cases brace : (c != '{') = true
  · rw [if_pos brace, if_pos brace]
    rfl
  · rw [if_neg brace, if_neg brace]
    cases waiting : s.pending with
    | none =>
      simp [shift, waiting, Frame.shift, Scope.map]
    | some p =>
      have place : (p.braceAt.map (· + k)).all (· == start + k) = p.braceAt.all (· == start) := by
        cases p.braceAt <;> simp
      have test :
          ((p.shift k).paren == (s.shift k).paren && (p.shift k).braceAt.all (· == start + k)) =
          (p.paren == s.paren && p.braceAt.all (· == start)) := congrArg _ place
      have pending : (s.shift k).pending = some (p.shift k) := by simp [shift, waiting]
      rw [pending]
      simp only [test]
      by_cases here : (p.paren == s.paren && p.braceAt.all (· == start)) = true
      · rw [if_pos here, if_pos here, moves]
        rfl
      · rw [if_neg here, if_neg here]
        simp [shift, waiting, Frame.shift, Scope.map]

def keepPending (keep : Pending → Bool) (s : BlockState) : BlockState :=
  { s with pending := s.pending.filter keep }

/-- A test that does not see offsets keeps the same head. -/
theorem keepPending_shift {keep : Pending → Bool} (same : ∀ p, keep (p.shift k) = keep p)
    (s : BlockState) :
    (s.shift k).keepPending keep = (s.keepPending keep).shift k := by
  have pending : (s.pending.map (Pending.shift k)).filter keep =
      (s.pending.filter keep).map (Pending.shift k) := by
    cases s.pending with
    | none => rfl
    | some p => simp [Option.filter, same, apply_ite]
  simp [keepPending, shift, pending]

/-- Leave the innermost open brace, if there is one, at the closing brace at `start`. -/
def leave (lines : LineMap) (s : BlockState) (start : Nat) : BlockState :=
  match s.stack with
  | [] => s.warn (.stray '}') (some (lines.lineOf start))
  | frame :: stack =>
      let s := { s with stack := stack, paren := frame.paren }
      match frame.scope.declaration? with
      | some d => s.close d (start + 1)
      | none => s

theorem semicolon_shift (s : BlockState) : (s.shift k).semicolon = s.semicolon.shift k :=
  keepPending_shift (fun _ => rfl) s

section Moved

variable (moved : ∀ offset : Nat, lines'.lineOf (offset + k : Nat) = lines.lineOf offset + k)

include moved

/-- Leaving a brace commutes with the shift. -/
theorem leave_shift (s : BlockState) (start : Nat) :
    (s.shift k).leave lines' (start + k) = (s.leave lines start).shift k := by
  unfold leave
  cases stack : s.stack with
  | nil =>
    have empty : (s.shift k).stack = [] := by simp [shift, stack]
    rw [empty]
    simp only [moved]
    exact warn_shift s _ (some _)
  | cons frame rest =>
    have more : (s.shift k).stack = frame.shift k :: rest.map (Frame.shift k) := by
      simp [shift, stack]
    have popped :
        { s.shift k with stack := rest.map (Frame.shift k), paren := (frame.shift k).paren } =
          shift k { s with stack := rest, paren := frame.paren } := rfl
    rw [more]
    simp only [popped]
    rw [Frame.shift, Scope.declaration?_map]
    cases frame.scope.declaration? with
    | none => rfl
    | some d =>
      have closed := close_shift (k := k) { s with stack := rest, paren := frame.paren } d
        (start + 1)
      rw [Nat.add_right_comm] at closed
      exact closed

/-- Closing a bracket commutes with the shift. -/
theorem closeBracket_shift (s : BlockState) (c : Char) (start : Nat) :
    (s.shift k).closeBracket lines' c (start + k) = (s.closeBracket lines c start).shift k := by
  by_cases brace : c = '}'
  · subst brace
    change ((s.shift k).keepPending (·.paren < s.paren)).leave lines' (start + k) =
      ((s.keepPending (·.paren < s.paren)).leave lines start).shift k
    rw [keepPending_shift (fun _ => rfl), leave_shift moved]
  · have other : (c != '}') = true := by simpa using brace
    unfold closeBracket
    rw [if_pos other, if_pos other]
    by_cases stray : (s.paren == 0) = true
    · rw [if_pos stray, if_pos (by exact stray), moved]
      exact warn_shift s _ (some _)
    · rw [if_neg stray, if_neg (by exact stray)]
      rfl

/-- Closing what is open at the end commutes with the shift. -/
theorem closeOpen_shift (length : Nat) (s : BlockState) :
    (s.shift k).closeOpen lines' (length + k) = (s.closeOpen lines length).shift k := by
  have open_ : (s.shift k).stack.filterMap (·.scope.declaration?) =
      (s.stack.filterMap (·.scope.declaration?)).map (Declaration.shiftOpen k) := by
    simp [shift, filterMap_map, map_filterMap, Function.comp_def, Frame.shift]
  unfold closeOpen
  rw [open_]
  clear open_
  generalize s.stack.filterMap (·.scope.declaration?) = ds
  induction ds generalizing s with
  | nil => rfl
  | cons d ds ih =>
    have warned := warn_shift (k := k) s (.unclosedBody d.qualifiedName)
      (some (lines.lineOf d.declOffset))
    rw [Option.map_some, ← moved] at warned
    rw [map_cons, foldl_cons, foldl_cons, ← ih, ← close_shift, ← warned]
    rfl

/-- The end of a scan commutes with the shift. -/
theorem finish_shift (length : Nat) (s : BlockState) :
    (s.shift k).finish lines' (length + k) = (s.finish lines length).shift k := by
  have parens : (if 0 < (s.shift k).paren then (s.shift k).warn (.unclosedParens (s.shift k).paren)
      none else s.shift k) =
      (if 0 < s.paren then s.warn (.unclosedParens s.paren) none else s).shift k := by
    rw [apply_ite (shift k), ← warn_shift]
    rfl
  unfold finish
  simp only [parens]
  generalize (if 0 < s.paren then s.warn (.unclosedParens s.paren) none else s) = t
  have braces : (if (t.shift k).stack.isEmpty then t.shift k
      else (t.shift k).warn (.unclosedBraces (t.shift k).stack.length) none) =
      (if t.stack.isEmpty then t else t.warn (.unclosedBraces t.stack.length) none).shift k := by
    have empty : (t.shift k).stack.isEmpty = t.stack.isEmpty := by simp [shift]
    have length : (t.shift k).stack.length = t.stack.length := by simp [shift]
    rw [empty, length, apply_ite (shift k), ← warn_shift]
    rfl
  simp only [braces, closeOpen_shift moved]
  rfl

end Moved

end BlockState

/-! ### Rust -/

namespace Rust

variable {word : String} {first : Char} {rest : List Char}

/-- An item may start behind line feeds as at the start of the text. -/
theorem isItemStart_newlines (before : List Char) (k : Nat) :
    isItemStart (before ++ newlines k) = isItemStart before := by
  have blank : (newlines k).dropWhile isBlank = [] := by
    rw [newlines, dropWhile_replicate]
    rfl
  unfold isItemStart
  rw [dropWhile_append, blank]
  cases before.dropWhile isBlank with
  | nil => rfl
  | cons c cs =>
    have word := takeWhile_append_newlines (show isWordChar '\n' = false by decide) (c :: cs) k
    rw [cons_append] at word
    simp only [isEmpty_cons, Bool.false_eq_true, if_false, cons_append, word]

/-- A word with a name is read alike behind line feeds. -/
theorem named?_append_newlines (word : String) (before : List Char) (k : Nat) (cs : List Char) :
    named? word (before ++ newlines k) cs = named? word before cs := by
  simp only [named?, Mark.wordAndBlanks?,
    any_head?_append_newlines (show isWordChar '\n' = false by decide)]

theorem named?_newline (shape : word.toList = first :: rest)
    (other : first ≠ '\n') (before cs : List Char) : named? word before ('\n' :: cs) = none := by
  by_cases inside : before.head?.any isWordChar = true
  · simp [named?, Mark.wordAndBlanks?, inside]
  · simp [named?, Mark.wordAndBlanks?, inside, shape, after?_newline other]

/-- **Reading a mark does not see line feeds at the start of the text**, and none starts at one. -/
theorem unmoved_readMark : Mark.Unmoved readMark where
  passes before cs := by
    have word : wholeWord? "impl" before.head? ('\n' :: cs) = none := rfl
    rw [readMark, named?_newline (show "fn".toList = ['f', 'n'] by decide) (by decide), word,
      named?_newline (show "trait".toList = ['t', 'r', 'a', 'i', 't'] by decide) (by decide),
      named?_newline (show "mod".toList = ['m', 'o', 'd'] by decide) (by decide)]
    rfl
  blind before k cs := by
    simp only [readMark, named?_append_newlines, wholeWord?_append_newlines, isItemStart_newlines]

/-- A word is found behind line feeds as without them. -/
theorem hasWord_newlines (shape : word.toList = first :: rest) (other : first ≠ '\n') (j : Nat)
    (lead : List Char) :
    hasWord word (newlines j ++ lead) = hasWord word lead := by
  refine anyPlace_newlines ?_ ?_ j lead
  · intro before cs
    simp [wholeWord?, shape, after?_newline other]
  · intro cs
    rfl

theorem attribute?_newline (cs : List Char) : attribute? ('\n' :: cs) = none :=
  rfl

/-- The tags of a head are those without the line feeds before it. -/
theorem tagsOf_newlines (scopes : List Scope) (j : Nat) (lead : List Char) :
    tagsOf scopes (newlines j ++ lead) = tagsOf scopes lead := by
  have test : hasTestAttribute (newlines j ++ lead) = hasTestAttribute lead :=
    anyPlace_newlines (fun _ cs => by rw [attribute?_newline]) (fun _ => rfl) j lead
  simp only [tagsOf, test,
    hasWord_newlines (show "pub".toList = ['p', 'u', 'b'] by decide) (by decide),
    hasWord_newlines (show "async".toList = ['a', 's', 'y', 'n', 'c'] by decide) (by decide)]

/-- The tags of a head do not depend on where the scopes around stand. -/
theorem tagsOf_map {f : Declaration → Declaration} (tags : ∀ d, (f d).tags = d.tags)
    (scopes : List Scope) (lead : List Char) :
    tagsOf (scopes.map (Scope.map f)) lead = tagsOf scopes lead := by
  simp only [tagsOf, BlockState.inherited_map tags]

/-- A test attribute is found behind line feeds as without them. -/
theorem cfgTest_newlines (j : Nat) (lead : List Char) :
    anyPlace (fun _ rest => isCfgTest rest) (newlines j ++ lead) =
      anyPlace (fun _ rest => isCfgTest rest) lead :=
  anyPlace_newlines (fun _ _ => rfl) (fun _ => rfl) j lead

variable {k : Nat}

theorem bind_shift (s : BlockState) (p : Pending) (brace : Nat) :
    bind (s.shift k) (p.shift k) (brace + k) = (bind s p brace).map (Declaration.shiftOpen k) := by
  have qualified (name : String) : BlockState.qualify "::" (s.shift k).scopes name =
      BlockState.qualify "::" s.scopes name := by
    rw [BlockState.scopes_shift, BlockState.qualify_map (f := Declaration.shiftOpen k) fun _ => rfl]
  have tested : BlockState.inherited .test (s.shift k).scopes =
      BlockState.inherited .test s.scopes := by
    rw [BlockState.scopes_shift,
      BlockState.inherited_map (f := Declaration.shiftOpen k) fun _ => rfl]
  obtain ⟨head, offset, paren, tags, braceAt⟩ := p
  cases head with
  | implementation start text =>
    simp only [bind, Pending.shift, Head.shift, tested, Nat.add_sub_add_right]
    rfl
  | type name => rfl
  | module name =>
    simp only [bind, Pending.shift, Head.shift, qualified]
    simp [Scope.map, Declaration.shiftOpen, Nat.add_right_comm]
  | entry name =>
    simp only [bind, Pending.shift, Head.shift, qualified, BlockState.enclosingType?_shift]
    cases s.enclosingType? with
    | none | some owner => simp [Scope.map, Declaration.shiftOpen, Nat.add_right_comm]

/-- **One step of a Rust scan moves with its mark.** -/
theorem step_shift {lines lines' : LineMap}
    (moved : ∀ offset : Nat, lines'.lineOf (offset + k : Nat) = lines.lineOf offset + k)
    (s : BlockState) (m : Mark MarkKind) :
    step lines' (s.shift k) (m.shift k) = (step lines s m).shift k := by
  obtain ⟨j, lead⟩ := m.lead_shift k
  have tags : tagsOf (s.shift k).scopes (m.shift k).lead = tagsOf s.scopes m.lead := by
    rw [lead, tagsOf_newlines, BlockState.scopes_shift,
      tagsOf_map (f := Declaration.shiftOpen k) fun _ => rfl]
  have cfgTest : anyPlace (fun _ rest => isCfgTest rest) (m.shift k).lead =
      anyPlace (fun _ rest => isCfgTest rest) m.lead := by
    rw [lead, cfgTest_newlines]
  have wait (head : Head) (tags : List Tag) :
      { s.shift k with pending := some ⟨head.shift k, (m.shift k).start,
        (s.shift k).paren, tags, none⟩ } =
        BlockState.shift k { s with pending := some ⟨head, m.start, s.paren, tags, none⟩ } := rfl
  have kind : (m.shift k).kind = m.kind := rfl
  unfold step
  simp only [kind, tags, cfgTest]
  cases m.kind with
  | function name =>
    have may : (s.shift k).pending.all ((s.shift k).paren ≤ ·.paren) =
        s.pending.all (s.paren ≤ ·.paren) := by
      unfold BlockState.shift
      cases s.pending <;> rfl
    simp only [may]
    split
    · exact wait (.entry name) _
    · rfl
  | implementation isItem rest =>
    dsimp only
    split
    · exact wait (.implementation m.stop rest) _
    · rfl
  | trait name => exact wait (.type name) _
  | module name => exact wait (.module name) _
  | opener c => exact BlockState.openBracket_shift bind_shift s c m.start
  | closer c => exact BlockState.closeBracket_shift moved s c m.start
  | semicolon => exact BlockState.semicolon_shift s

/-- The declarations of Rust source move by the lines above. -/
theorem declarations_newlines (k : Nat) (masked : List Char) :
    declarations (newlines k ++ masked) = (declarations masked).shift k := by
  have moved := LineMap.lineOf_newlines k masked
  have length : (newlines k ++ masked).length = masked.length + k := by
    rw [length_append, length_newlines, Nat.add_comm]
  have folded (ms : List (Mark MarkKind)) (s : BlockState) :
      (ms.map (Mark.shift k)).foldl (step (LineMap.ofText (newlines k ++ masked))) (s.shift k) =
        (ms.foldl (step (LineMap.ofText masked)) s).shift k := by
    rw [foldl_map]
    exact foldl_hom (BlockState.shift k) (step_shift moved)
  have start : ({} : BlockState) = BlockState.shift k {} := rfl
  unfold declarations
  simp only [Mark.scan_newlines unmoved_readMark, length]
  rw [start, folded, BlockState.finish_shift moved, ← start]
  rfl

end Rust

/-! ### Python -/

namespace Python

namespace SuiteState

def shift (k : Nat) (s : SuiteState) : SuiteState :=
  { closed := s.closed.map (Declaration.shift k)
    stack := s.stack.map fun suite => ⟨suite.scope.map (Declaration.shift k), suite.indent⟩
    decorators := s.decorators
    lastEnd := s.lastEnd + k }

variable {k : Nat}

/-- Closing suites commutes with the shift. -/
theorem closeUntil_shift (s : SuiteState) (indent : Nat) :
    (s.shift k).closeUntil indent = (s.closeUntil indent).shift k := by
  simp only [closeUntil, shift, takeWhile_map, dropWhile_map, filterMap_map, map_append,
    map_filterMap, Function.comp_def, Scope.declaration?_map, Option.map_map]
  rfl

@[simp]
theorem scopes_shift (s : SuiteState) :
    (s.shift k).scopes = s.scopes.map (Scope.map (Declaration.shift k)) := by
  simp [scopes, shift, Function.comp_def]

@[simp]
theorem enclosingClass?_shift (s : SuiteState) :
    (s.shift k).enclosingClass? = s.enclosingClass? := by
  unfold enclosingClass? shift
  cases s.stack with
  | nil => rfl
  | cons suite stack =>
    obtain ⟨scope, indent⟩ := suite
    cases scope <;> rfl

end SuiteState

/-- **One step of a Python scan moves with its line.** -/
theorem step_shift (testFile : Bool) (k : Nat) (masked : List Char) (s : SuiteState)
    (l : LogicalLine) :
    step testFile (newlines k ++ masked) (s.shift k) (l.shift k) =
      (step testFile masked s l).shift k := by
  have text : ((newlines k ++ masked).take (l.shift k).stop).drop (l.shift k).start =
      (masked.take l.stop).drop l.start := slice_newlines k l.start l.stop masked
  have indent : (l.shift k).indent = l.indent := rfl
  have stop : (l.shift k).stop = l.stop + k := rfl
  have start : (l.shift k).start = l.start + k := rfl
  unfold step
  simp only [text, indent, SuiteState.closeUntil_shift]
  generalize s.closeUntil l.indent = t
  generalize (masked.take l.stop).drop l.start = line
  cases decorator? line with
  | some name => rfl
  | none =>
    cases defined : defName? line with
    | none =>
      cases className? line with
      | none | some name => rfl
    | some found =>
      obtain ⟨name, rest⟩ := found
      have qualified : BlockState.qualify "." (t.shift k).scopes name =
          BlockState.qualify "." t.scopes name := by
        rw [SuiteState.scopes_shift, BlockState.qualify_map (f := Declaration.shift k) fun _ => rfl]
      have colon := headerColon?_newlines k (l.start + (line.length - rest.length)) l.stop masked
      rw [Nat.add_right_comm] at colon
      simp only [start, stop, colon, qualified, SuiteState.enclosingClass?_shift]
      cases headerColon? masked (l.start + (line.length - rest.length)) l.stop with
      | none => rfl
      | some place =>
        simp only [Option.map_some, Nat.add_right_comm place k]
        rfl

/-- The first line does not see where the lines before it ended. -/
theorem step_first (testFile : Bool) (masked : List Char) (lastEnd : Nat) (l : LogicalLine) :
    step testFile masked { lastEnd := lastEnd } l = step testFile masked {} l := by
  unfold step
  generalize (masked.take l.stop).drop l.start = line
  cases decorator? line with
  | some name => rfl
  | none =>
    cases defName? line with
    | some found => rfl
    | none => cases className? line <;> rfl

/-- The declarations of Python source move by the lines above. -/
theorem declarations_newlines (path : String) (k : Nat) (masked : List Char) :
    declarations path (newlines k ++ masked) = (declarations path masked).shift k := by
  have folded (ls : List LogicalLine) (s : SuiteState) :
      (ls.map (LogicalLine.shift k)).foldl (step (isTestPath path) (newlines k ++ masked))
          (s.shift k) =
        (ls.foldl (step (isTestPath path) masked) s).shift k := by
    rw [foldl_map]
    exact foldl_hom (SuiteState.shift k) (step_shift (isTestPath path) k masked)
  have closed : ∀ ls : List LogicalLine,
      (((ls.map (LogicalLine.shift k)).foldl (step (isTestPath path) (newlines k ++ masked))
        {}).closeUntil 0).closed =
        ((ls.foldl (step (isTestPath path) masked) {}).closeUntil 0).closed.map
          (Declaration.shift k) := by
    intro ls
    cases ls with
    | nil => rfl
    | cons l ls =>
      rw [map_cons, foldl_cons, ← step_first _ _ (0 + k)]
      have whole := folded (l :: ls) {}
      rw [map_cons, foldl_cons] at whole
      exact congrArg (fun s => (SuiteState.closeUntil s 0).closed) whole |>.trans
        (congrArg SuiteState.closed (SuiteState.closeUntil_shift _ 0))
  unfold declarations
  rw [LogicalLine.ofText_newlines]
  simp only [closed, FileScan.shift, apply_ite (map (ScanWarning.shift k))]
  rfl

end Python

/-! ### Files -/

namespace SourceFile

def prepend (k : Nat) (file : SourceFile) : SourceFile :=
  { file with
    sizeBytes := file.sizeBytes + k
    lineCount := file.lineCount + k
    text := newlines k ++ file.text }

/-- Every line feed above is one line more. -/
theorem countLines_newlines (k : Nat) (cs : List Char) :
    countLines (newlines k ++ cs) = countLines cs + k := by
  have feeds : (newlines k ++ cs).count '\n' = cs.count '\n' + k := by
    rw [count_append, newlines, count_replicate_self, Nat.add_comm]
  unfold countLines
  rw [feeds]
  cases last : cs.getLast? with
  | none =>
    obtain rfl := getLast?_eq_none_iff.mp last
    cases k with
    | zero => rfl
    | succ k =>
      rw [append_nil, newlines_succ', getLast?_concat]
      rfl
  | some c =>
    rw [getLast?_append, last]
    dsimp only [Option.or]
    split <;> omega

/-- Lines above a file are lines above its text. -/
theorem prepend_ofText (k : Nat) (path : String) (language : Language) (text : String) :
    (ofText path language text).prepend k =
      ofText path language (String.ofList (newlines k) ++ text) := by
  have size : (String.ofList (newlines k)).utf8ByteSize = k := by
    induction k with
    | zero => rfl
    | succ k ih =>
      rw [newlines_succ', String.ofList_append, String.utf8ByteSize_append, ih]
      rfl
  simp only [ofText, prepend, String.utf8ByteSize_append, size, String.toList_append,
    String.toList_ofList, countLines_newlines, Nat.add_comm k]

def IsRustOrPython (file : SourceFile) : Prop :=
  file.language = .rust ∨ file.language = .python

theorem IsRustOrPython.family {file : SourceFile} (h : file.IsRustOrPython) :
    ∃ family, file.language.family = .ok family := by
  rcases h with rust | python
  · exact ⟨.rust, by rw [rust]; rfl⟩
  · exact ⟨.python, by rw [python]; rfl⟩

end SourceFile

/-- A Rust or Python file can be scanned, and what is found moves by the lines above. -/
theorem scanFile_prepend {file : SourceFile} (supported : file.IsRustOrPython) (k : Nat) :
    ∃ found, scanFile file = .ok found ∧ scanFile (file.prepend k) = .ok (found.shift k) := by
  obtain ⟨path, language, sizeBytes, lineCount, text⟩ := file
  rcases supported with rfl | rfl
  · refine ⟨_, rfl, ?_⟩
    rw [← Rust.declarations_newlines, ← mask_newlines]
    rfl
  · refine ⟨_, rfl, ?_⟩
    rw [← Python.declarations_newlines, ← mask_newlines]
    rfl

/-! ### Entries -/

namespace Entry

variable {ds : List Declaration}

def shift (k : Nat) (e : Entry) : Entry :=
  { e with
    startLine := e.startLine + k
    endLine := e.endLine + k
    declOffset := e.declOffset + k
    bodyOffset := e.bodyOffset + k
    endOffset := e.endOffset + k }

@[simp]
theorem id_shift (k : Nat) (e : Entry) : (e.shift k).id = e.id :=
  rfl

@[simp]
theorem file_shift (k : Nat) (e : Entry) : (e.shift k).file = e.file :=
  rfl

@[simp]
theorem container_shift (k : Nat) (e : Entry) : (e.shift k).container = e.container :=
  rfl

/-- The entry of a declaration moves with it. Its identity has no line in it, as the name is not
shared. -/
theorem ofDeclaration_shift (file : SourceFile) (distinct : (ds.map (·.qualifiedName)).Nodup)
    (k : Nat) (d : Declaration) :
    ofDeclaration (file.prepend k) (LineMap.ofText (file.prepend k).text)
      (ds.map (Declaration.shift k)) (d.shift k) =
      (ofDeclaration file (LineMap.ofText file.text) ds d).shift k := by
  have alone : decide (1 < ds.countP (·.qualifiedName == d.qualifiedName)) = false := by
    have once := nodup_iff_count_le_one.mp distinct d.qualifiedName
    rw [count, countP_map] at once
    exact decide_eq_false (Nat.not_lt.mpr once)
  have alone' : decide (1 < (ds.map (Declaration.shift k)).countP
      (·.qualifiedName == (d.shift k).qualifiedName)) =
      false := by
    rw [countP_map]
    exact alone
  have first : (LineMap.ofText (file.prepend k).text).lineOf ((d.shift k).declOffset : Nat) =
      (LineMap.ofText file.text).lineOf d.declOffset + k :=
        LineMap.lineOf_newlines k file.text d.declOffset
  have offset : max (d.shift k).declOffset ((d.shift k).endOffset - 1) =
      max d.declOffset (d.endOffset - 1) + k := by
    simp only [Declaration.shift]
    omega
  have last : (LineMap.ofText (file.prepend k).text).lineOf
      (max (d.shift k).declOffset ((d.shift k).endOffset - 1) : Nat) =
      (LineMap.ofText file.text).lineOf (max d.declOffset (d.endOffset - 1) : Nat) + k := by
    rw [offset]
    exact LineMap.lineOf_newlines k file.text _
  unfold ofDeclaration
  simp only [alone, alone', first, last, Nat.add_max_add_right]
  rfl

/-- Entries keep their order: those of one file move together, and paths are compared first. -/
theorem compareKey_shift (shiftOf : String → Nat) (a b : Entry) :
    compareKey (a.shift (shiftOf a.file)) (b.shift (shiftOf b.file)) = compareKey a b := by
  simp only [compareKey, shift, Ordering.then_assoc]
  refine compare_then_congr fun same => ?_
  rw [same, compare_add_right]

theorem ofDeclarations_shift (file : SourceFile) (distinct : (ds.map (·.qualifiedName)).Nodup)
    (k : Nat) :
    ofDeclarations (file.prepend k) (ds.map (Declaration.shift k)) =
      (ofDeclarations file ds).map (shift k) := by
  unfold ofDeclarations
  rw [map_map, ← sortWith_map (compareKey_shift fun _ => k), map_map]
  congr 1
  refine map_congr_left fun d _ => ?_
  exact ofDeclaration_shift file distinct k d

end Entry

def SourceFile.DeclaresOnce (file : SourceFile) : Prop :=
  ∀ found, scanFile file = .ok found → (found.declarations.map (·.qualifiedName)).Nodup

instance (file : SourceFile) : Decidable file.DeclaresOnce :=
  match scanned : scanFile file with
  | .ok found =>
    decidable_of_iff (found.declarations.map (·.qualifiedName)).Nodup
      ⟨fun distinct _ same => Except.ok.inj (scanned.symm.trans same) ▸ distinct,
        fun once => once found scanned⟩
  | .error _ => .isTrue fun _ same => nomatch scanned.symm.trans same

namespace Index

/-- The index of one file moves by the lines above it. -/
theorem entries_ofFile_prepend {file : SourceFile} (supported : file.IsRustOrPython)
    (once : file.DeclaresOnce) (k : Nat) :
    (ofFile (file.prepend k)).entries = (ofFile file).entries.map (Entry.shift k) := by
  obtain ⟨found, scanned, moved⟩ := scanFile_prepend supported k
  simp only [ofFile, scanned, moved]
  exact Entry.ofDeclarations_shift file (once found scanned) k

/-- **The index of files moves**, each entry by the lines above its own file. -/
theorem entries_prepend {files : List SourceFile} (shiftOf : String → Nat)
    (supported : ∀ file ∈ files, file.IsRustOrPython) (once : ∀ file ∈ files, file.DeclaresOnce) :
    (ofFiles (files.map fun file => file.prepend (shiftOf file.path))).entries =
      (ofFiles files).entries.map fun e => e.shift (shiftOf e.file) := by
  have each : ∀ file ∈ files, (ofFile (file.prepend (shiftOf file.path))).entries =
      (ofFile file).entries.map fun e => e.shift (shiftOf e.file) := by
    intro file mem
    rw [entries_ofFile_prepend (supported file mem) (once file mem)]
    refine map_congr_left fun e inFile => ?_
    rw [entries_file file e inFile]
  simp only [ofFiles, merge, flatMap_map]
  rw [← sortWith_map (Entry.compareKey_shift shiftOf), map_flatMap, flatMap_congr each]

end Index

end CodeAtlas
