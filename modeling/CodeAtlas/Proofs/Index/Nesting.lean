import CodeAtlas.Proofs.Index.Braces
import CodeAtlas.Proofs.Source.LineExtent
import CodeAtlas.Proofs.Source.Masking

/-!
How the declarations of a file lie in one another.

The scans of Rust and Python source keep a stack of open scopes, one by braces and the other by
indentation. What both stacks have in common is a `ScopeLayout`: open bodies lie in one another,
closed ones lie before or in the open ones, and a declaration in the body of another one has the
longer name. Every step of a scan keeps the layout (`Rust.step_settled`, `Python.step_layout`), on
any text. So no two declarations of a file cross (`declarations_uncrossed`).
-/

namespace CodeAtlas

open List

namespace Declaration

def endedAt (d : Declaration) (endOffset : Nat) : Declaration :=
  { d with endOffset := endOffset }

structure Proper (d : Declaration) : Prop where
  declOffset_lt : d.declOffset < d.bodyOffset
  bodyOffset_le : d.bodyOffset ≤ d.endOffset

/-- The whole of `a` lies in the body of `b`, whose name is the shorter one. -/
structure Inside (a b : Declaration) : Prop where
  starts : b.bodyOffset ≤ a.declOffset
  ends : a.endOffset ≤ b.endOffset
  name : b.qualifiedName.length < a.qualifiedName.length

/-- One declaration ends before the body of the other one, or lies in it. -/
inductive Uncrossed (a b : Declaration) : Prop where
  | before (h : a.endOffset < b.bodyOffset)
  | after (h : b.endOffset < a.bodyOffset)
  | inside (h : a.Inside b)
  | around (h : b.Inside a)

end Declaration

/-! ### Names in scopes -/

/-- One more name is joined at the end by one more separator. -/
theorem intercalate_snoc (separator : List Char) (names : List (List Char)) (m n : List Char) :
    separator.intercalate (names ++ [m] ++ [n]) = separator.intercalate (names ++ [m]) ++
      separator ++ n := by
  induction names with
  | nil => simp
  | cons name names ih =>
    cases names with
    | nil => simp
    | cons next names =>
      simp only [cons_append, intercalate_cons_cons] at ih ⊢
      rw [ih]
      simp

namespace BlockState

variable {separator : String} {scopes : List Scope} {scope : Scope}

/-- A scope without a name adds nothing to qualified names. -/
theorem qualify_unnamed (unnamed : scope.name? = none) (n : String) :
    qualify separator (scopes ++ [scope]) n = qualify separator scopes n := by
  simp [qualify, unnamed]

/-- A scope with a name makes qualified names longer by that name and a separator. -/
theorem length_qualify_named {m : String} (named : scope.name? = some m) (n : String) :
    (qualify separator (scopes ++ [scope]) n).length =
      (qualify separator scopes m).length + separator.length + n.length := by
  have texts : (qualify separator (scopes ++ [scope]) n).toList =
      (qualify separator scopes m).toList ++ separator.toList ++ n.toList := by
    simp only [qualify, String.toList_intercalate, filterMap_append, filterMap_cons, named,
      filterMap_nil, map_append, map_cons, map_nil]
    exact intercalate_snoc _ _ _ _
  have lengths := congrArg length texts
  simpa only [length_append, String.length_toList] using lengths

end BlockState

namespace Scope

variable {scope : Scope}

def opened (scopes : List Scope) : List Declaration :=
  scopes.filterMap declaration?

theorem opened_cons_some {d : Declaration} (h : scope.declaration? = some d)
    (scopes : List Scope) : opened (scope :: scopes) = d :: opened scopes := by
  simp [opened, h]

theorem opened_cons_none (h : scope.declaration? = none) (scopes : List Scope) :
    opened (scope :: scopes) = opened scopes := by
  simp [opened, h]

/-- A declaration that a scope may hold inside the scopes `outer`: its name goes on from theirs, and
it starts in all their bodies. -/
structure Holds (separator : String) (outer : List Scope) (scope : Scope) (d : Declaration) :
    Prop where
  declared : scope.declaration? = some d
  proper : d.declOffset < d.bodyOffset
  name : ∃ n, scope.name? = some n ∧
    d.qualifiedName = BlockState.qualify separator outer.reverse n
  starts : ∀ o ∈ opened outer, o.bodyOffset ≤ d.declOffset

def Stacked (separator : String) : List Scope → Prop
  | [] => True
  | scope :: outer =>
      (∀ d, scope.declaration? = some d → Holds separator outer scope d) ∧ Stacked separator outer

/-- **Names grow inwards**: what is qualified by all open scopes is longer than the name of any
declaration that is open. -/
theorem Stacked.length_lt {separator : String} (some : 0 < separator.length) {scopes : List Scope}
    (h : Stacked separator scopes) {o : Declaration} (mem : o ∈ opened scopes) (n : String) :
    o.qualifiedName.length < (BlockState.qualify separator scopes.reverse n).length := by
  induction scopes generalizing n with
  | nil => simp [opened] at mem
  | cons scope outer ih =>
    obtain ⟨holds, stacked⟩ := h
    rw [reverse_cons]
    cases declared : scope.declaration? with
    | some d =>
      obtain ⟨m, named, full⟩ := (holds d declared).name
      rw [BlockState.length_qualify_named named]
      rw [opened_cons_some declared] at mem
      rcases mem_cons.mp mem with rfl | older
      · rw [full]
        omega
      · have := ih stacked older m
        omega
    | none =>
      rw [opened_cons_none declared] at mem
      cases named : scope.name? with
      | none =>
        rw [BlockState.qualify_unnamed named]
        exact ih stacked mem n
      | some m =>
        rw [BlockState.length_qualify_named named]
        have := ih stacked mem m
        omega

end Scope

/-! ### Layouts -/

/-- What has been found of a text up to the offset `pos`: the closed declarations and the open
scopes, the innermost first. -/
structure ScopeLayout (separator : String) (pos : Nat) (closed : List Declaration)
    (scopes : List Scope) :
    Prop where
  stacked : Scope.Stacked separator scopes
  opened_le : ∀ o ∈ Scope.opened scopes, o.bodyOffset ≤ pos
  proper : ∀ c ∈ closed, c.Proper
  closed_le : ∀ c ∈ closed, c.endOffset ≤ pos
  uncrossed : closed.Pairwise Declaration.Uncrossed
  around : ∀ c ∈ closed, ∀ o ∈ Scope.opened scopes, c.endOffset < o.bodyOffset ∨
    o.bodyOffset ≤ c.declOffset ∧ o.qualifiedName.length < c.qualifiedName.length

namespace ScopeLayout

variable {separator : String} {pos : Nat} {closed : List Declaration}
  {scopes : List Scope} {scope : Scope} {d : Declaration}

theorem empty (separator : String) (pos : Nat) : ScopeLayout separator pos [] [] := by
  constructor <;> simp [Scope.Stacked, Scope.opened]

section

variable (h : ScopeLayout separator pos closed scopes)
include h

/-- Nothing changes while the scan goes on over text. -/
theorem advance {pos' : Nat} (le : pos ≤ pos') :
    ScopeLayout separator pos' closed scopes :=
  { h with
    opened_le := fun o mem => Nat.le_trans (h.opened_le o mem) le
    closed_le := fun c mem => Nat.le_trans (h.closed_le c mem) le }

/-- A scope without a declaration is opened. -/
theorem enter (plain : scope.declaration? = none) :
    ScopeLayout separator pos closed (scope :: scopes) := by
  refine ⟨⟨by simp [plain], h.stacked⟩, ?_, h.proper, h.closed_le, h.uncrossed, ?_⟩
  · rw [Scope.opened_cons_none plain]
    exact h.opened_le
  · rw [Scope.opened_cons_none plain]
    exact h.around

/-- A scope with a declaration is opened: its body lies behind all that is closed. -/
theorem declare (holds : Scope.Holds separator scopes scope d) (later : pos < d.bodyOffset) :
    ScopeLayout separator d.bodyOffset closed (scope :: scopes) := by
  have h' := h.advance (Nat.le_of_lt later)
  refine ⟨⟨?_, h.stacked⟩, ?_, h.proper, h'.closed_le, h.uncrossed, ?_⟩
  · intro d' declared
    cases holds.declared.symm.trans declared
    exact holds
  · rw [Scope.opened_cons_some holds.declared]
    intro o mem
    rcases mem_cons.mp mem with rfl | older
    · exact Nat.le_refl _
    · exact h'.opened_le o older
  · rw [Scope.opened_cons_some holds.declared]
    intro c mem o member'
    rcases mem_cons.mp member' with rfl | older
    · exact .inl (Nat.lt_of_le_of_lt (h.closed_le c mem) later)
    · exact h.around c mem o older

end

theorem leave (h : ScopeLayout separator pos closed (scope :: scopes))
    (plain : scope.declaration? = none) : ScopeLayout separator pos closed scopes := by
  have opened := h.opened_le
  have around := h.around
  rw [Scope.opened_cons_none plain] at opened around
  exact ⟨h.stacked.2, opened, h.proper, h.closed_le, h.uncrossed, around⟩

/-- The innermost declaration is closed. It lies in those that are still open, and around or behind
the ones that were closed before. -/
theorem close (some : 0 < separator.length)
    (h : ScopeLayout separator pos closed (scope :: scopes))
    (declared : scope.declaration? = .some d) :
    ScopeLayout separator pos (closed ++ [d.endedAt pos]) scopes := by
  have holds := h.stacked.1 d declared
  have opened := h.opened_le
  have around := h.around
  rw [Scope.opened_cons_some declared] at opened around
  have proper : (d.endedAt pos).Proper := ⟨holds.proper, opened d mem_cons_self⟩
  refine ⟨h.stacked.2, fun o mem => opened o (.tail _ mem), ?_, ?_, ?_, ?_⟩
  · intro c mem
    rcases mem_append.mp mem with old | new
    · exact h.proper c old
    · rw [mem_singleton.mp new]
      exact proper
  · intro c mem
    rcases mem_append.mp mem with old | new
    · exact h.closed_le c old
    · rw [mem_singleton.mp new]
      exact Nat.le_refl _
  · refine pairwise_append.mpr ⟨h.uncrossed, pairwise_singleton _ _, ?_⟩
    intro c mem e new
    rw [mem_singleton.mp new]
    rcases around c mem d mem_cons_self with before | ⟨starts, longer⟩
    · exact .before before
    · exact .inside ⟨starts, h.closed_le c mem, longer⟩
  · intro c mem o open_
    rcases mem_append.mp mem with old | new
    · exact around c old o (.tail _ open_)
    · rw [mem_singleton.mp new]
      obtain ⟨n, _, name⟩ := holds.name
      refine .inr ⟨holds.starts o open_, ?_⟩
      show o.qualifiedName.length < d.qualifiedName.length
      rw [name]
      exact h.stacked.2.length_lt some open_ n

/-- Several scopes are closed from the inside out, all at one offset. -/
theorem closeAll (some : 0 < separator.length) {inner : List Scope}
    (h : ScopeLayout separator pos closed (inner ++ scopes)) :
    ScopeLayout separator pos (closed ++ (Scope.opened inner).map (·.endedAt pos)) scopes := by
  induction inner generalizing closed with
  | nil => simpa [Scope.opened] using h
  | cons scope inner ih =>
    cases declared : scope.declaration? with
    | none =>
      rw [Scope.opened_cons_none declared]
      exact ih (h.leave declared)
    | some d =>
      rw [Scope.opened_cons_some declared]
      simpa using ih (h.close some declared)

end ScopeLayout

/-! ### Braces -/

namespace BlockState

variable {p : Pending}

/-- The state of a scan over the text up to the offset `pos`. The head that waits for its body
starts inside all bodies that are still open: they were open when it was read. -/
structure Settled (separator : String) (pos : Nat) (s : BlockState) : Prop where
  layout : ScopeLayout separator pos s.closed (s.stack.map (·.scope))
  waits : ∀ p ∈ s.pending, p.declOffset < pos ∧
    ∀ o ∈ Scope.opened (s.stack.map (·.scope)), o.bodyOffset ≤ p.declOffset

variable {separator : String} {pos : Nat} {s : BlockState}

section

variable (h : Settled separator pos s)
include h

theorem Settled.advance {pos' : Nat} (le : pos ≤ pos') : Settled separator pos' s :=
  ⟨h.layout.advance le, fun p waiting =>
    ⟨by have := (h.waits p waiting).1; omega, (h.waits p waiting).2⟩⟩

theorem Settled.warn (cause : Imbalance) (line : Option Nat) :
    Settled separator pos (s.warn cause line) :=
  ⟨h.layout, h.waits⟩

/-- A head at the offset of the scan starts inside all open bodies. -/
theorem Settled.wait (now : p.declOffset = pos) :
    Settled separator (pos + 1) { s with pending := some p } := by
  refine ⟨h.layout.advance (Nat.le_succ pos), ?_⟩
  intro q waiting
  cases Option.mem_def.mp waiting
  exact ⟨by omega, fun o open_ => now ▸ h.layout.opened_le o open_⟩

theorem Settled.dropPending (keep : Pending → Bool) :
    Settled separator pos { s with pending := s.pending.filter keep } :=
  ⟨h.layout, fun p waiting => h.waits p (Option.filter_eq_some_iff.mp waiting).1⟩

theorem Settled.pushBlock (paren : Nat) :
    Settled separator pos { s with stack := ⟨.block, paren⟩ :: s.stack } := by
  refine ⟨h.layout.enter rfl, ?_⟩
  intro p waiting
  rw [map_cons, Scope.opened_cons_none rfl]
  exact h.waits p waiting

end

/-- What the brace at offset `brace` may open for the head `p`: a scope without a declaration, or
one whose declaration starts at the head and has its body behind the brace. -/
def Binds (separator : String) (s : BlockState) (p : Pending) (brace : Nat)
    (scope : Scope) : Prop :=
  ∀ d, scope.declaration? = some d → d.declOffset = p.declOffset ∧ d.bodyOffset = brace + 1 ∧
    ∃ n, scope.name? = some n ∧ d.qualifiedName = qualify separator s.scopes n

/-- A brace opens the body of the head that waits. -/
theorem Settled.pushBound (h : Settled separator pos s) (waiting : p ∈ s.pending) {scope : Scope}
    (binds : Binds separator s p pos scope) (paren : Nat) :
    Settled separator (pos + 1) { s with stack := ⟨scope, paren⟩ :: s.stack, pending := none } := by
  obtain ⟨before, starts⟩ := h.waits p waiting
  refine ⟨?_, by simp⟩
  cases declared : scope.declaration? with
  | none => exact (h.layout.enter declared).advance (by omega)
  | some d =>
    obtain ⟨decl, body, named⟩ := binds d declared
    have holds : Scope.Holds separator (s.stack.map (·.scope)) scope d := by
      refine ⟨declared, by omega, named, ?_⟩
      rw [decl]
      exact starts
    rw [← body]
    exact h.layout.declare holds (by omega)

/-- An opening bracket, whether or not a head waits for it. -/
theorem Settled.openBracket (h : Settled separator pos s)
    {bind : BlockState → Pending → Nat → Scope}
    (binds : ∀ p, Binds separator s p pos (bind s p pos)) (c : Char) :
    Settled separator (pos + 1) (s.openBracket bind c pos) := by
  have h' := h.advance (Nat.le_succ pos)
  unfold BlockState.openBracket
  split
  · exact ⟨h'.layout, h'.waits⟩
  · split
    · rename_i p waiting
      split
      · exact h.pushBound waiting (binds p) p.paren
      · exact h'.pushBlock s.paren
    · exact h'.pushBlock s.paren

/-- A closing bracket: a brace leaves the innermost scope, and closes its declaration if it has
one. -/
theorem Settled.closeBracket (some : 0 < separator.length) (h : Settled separator pos s)
    (lines : LineMap) (c : Char) : Settled separator (pos + 1) (s.closeBracket lines c pos) := by
  have h' := h.advance (Nat.le_succ pos)
  unfold BlockState.closeBracket
  split
  · split
    · exact h'.warn _ _
    · exact ⟨h'.layout, h'.waits⟩
  · have dropped := h'.dropPending (·.paren < s.paren)
    simp only
    split
    · exact dropped.warn _ _
    · rename_i frame stack frames
      have layout := dropped.layout
      have waits := dropped.waits
      simp only [frames, map_cons] at layout waits
      split
      · rename_i d declared
        refine ⟨layout.close some declared, ?_⟩
        intro p waiting
        obtain ⟨before, starts⟩ := waits p waiting
        rw [Scope.opened_cons_some declared] at starts
        exact ⟨before, fun o open_ => starts o (.tail _ open_)⟩
      · rename_i plain
        refine ⟨layout.leave plain, ?_⟩
        intro p waiting
        obtain ⟨before, starts⟩ := waits p waiting
        rw [Scope.opened_cons_none plain] at starts
        exact ⟨before, starts⟩

theorem Settled.semicolon (h : Settled separator pos s) : Settled separator pos s.semicolon :=
  h.dropPending _

/-- What is open at the end of a text is closed there, from the inside out. -/
theorem closed_closeOpen (lines : LineMap) (length : Nat) (s : BlockState) :
    (closeOpen lines length s).closed =
      s.closed ++ (Scope.opened (s.stack.map (·.scope))).map (·.endedAt length) := by
  have fold (ds : List Declaration) (s : BlockState) :
      (ds.foldl (fun s d => (s.warn (.unclosedBody d.qualifiedName)
        (some (lines.lineOf d.declOffset))).close d length) s).closed =
        s.closed ++ ds.map (·.endedAt length) := by
    induction ds generalizing s with
    | nil => simp
    | cons d ds ih =>
      rw [foldl_cons, ih]
      simp [BlockState.close, BlockState.warn, Declaration.endedAt]
  have opened : s.stack.filterMap (·.scope.declaration?) =
      Scope.opened (s.stack.map (·.scope)) := by
    simp [Scope.opened, filterMap_map]
  rw [closeOpen, fold, opened]

theorem closed_finish (lines : LineMap) (length : Nat) (s : BlockState) :
    (s.finish lines length).closed =
      s.closed ++ (Scope.opened (s.stack.map (·.scope))).map (·.endedAt length) := by
  unfold finish
  dsimp only
  rw [closed_closeOpen]
  split <;> split <;> rfl

theorem Settled.finish (some : 0 < separator.length) (h : Settled separator pos s)
    (lines : LineMap) :
    ScopeLayout separator pos (s.finish lines pos).closed [] := by
  have layout := h.layout
  rw [← append_nil (map _ _)] at layout
  rw [closed_finish]
  exact layout.closeAll some

end BlockState

namespace Rust

/-- What a Rust head becomes starts at the head, and its name goes on from the scopes around. -/
theorem bind_binds (s : BlockState) (p : Pending) (brace : Nat) :
    BlockState.Binds "::" s p brace (bind s p brace) := by
  intro d declared
  unfold bind at declared ⊢
  cases waiting : p.head with
  | implementation start text | type name =>
    rw [waiting] at declared
    cases declared
  | module name =>
    rw [waiting] at declared
    cases declared
    exact ⟨rfl, rfl, name, rfl, rfl⟩
  | entry name =>
    rw [waiting] at declared
    simp only at declared ⊢
    cases owner : s.enclosingType? with
    | none | some type =>
      rw [owner] at declared
      cases declared
      exact ⟨rfl, rfl, name, rfl, rfl⟩

/-- **One mark of a Rust text keeps the layout.** -/
theorem step_settled (lines : LineMap) (s : BlockState) (m : Mark MarkKind)
    (h : s.Settled "::" m.start) :
    (step lines s m).Settled "::" (m.start + 1) := by
  have h' := h.advance (Nat.le_succ m.start)
  unfold step
  cases m.kind with
  | function name | implementation isItem rest =>
    simp only
    split
    · exact h.wait rfl
    · exact h'
  | trait name | module name => exact h.wait rfl
  | opener c => exact h.openBracket (fun p => bind_binds s p m.start) c
  | closer c => exact h.closeBracket (by decide) lines c
  | semicolon => exact h'.semicolon

/-- The declarations of Rust source have a layout. By induction on the marks of the scan. -/
theorem declarations_layout (masked : List Char) :
    ScopeLayout "::" masked.length (declarations masked).declarations [] := by
  have sees : ∀ before cs, Mark.Sees isBrace MarkKind.role cs (readMark before cs) := readMark_sees
  have scanned : ((Mark.scan readMark masked).foldl (step (LineMap.ofText masked)) {}).Settled "::"
      masked.length :=
    (Mark.scan_tiles sees (Mark.Sees.unmarked sees) masked).foldl (fun h _ le _ _ => h.advance le)
      (fun s m positive _ _ h => (step_settled _ s m h).advance positive) (Nat.zero_le _)
      ⟨ScopeLayout.empty _ _, by simp⟩
  exact scanned.finish (by decide) _

end Rust

/-! ### Indentation -/

namespace Python

variable {s : SuiteState} {l : LogicalLine}

/-- The layout of what a scan over logical lines has found. -/
def SuiteState.Laid (s : SuiteState) : Prop :=
  ScopeLayout "." s.lastEnd s.closed (s.stack.map (·.scope))

/-- Suites end where the last line ended, so they can be closed one after the other. -/
theorem SuiteState.Laid.closeUntil (h : s.Laid) (indent : Nat) : (s.closeUntil indent).Laid := by
  have parts : s.stack.map (·.scope) = (s.stack.takeWhile (indent ≤ ·.indent)).map (·.scope) ++
        (s.stack.dropWhile (indent ≤ ·.indent)).map (·.scope) := by
    rw [← map_append, takeWhile_append_dropWhile]
  have ended : ((s.stack.takeWhile (indent ≤ ·.indent)).filterMap fun suite =>
      suite.scope.declaration?.map fun d => { d with endOffset := s.lastEnd }) =
      (Scope.opened ((s.stack.takeWhile (indent ≤ ·.indent)).map (·.scope))).map
        (·.endedAt s.lastEnd) := by
    rw [Scope.opened, filterMap_map, map_filterMap]
    rfl
  unfold Laid at h ⊢
  rw [parts] at h
  simp only [SuiteState.closeUntil, ended]
  exact h.closeAll (by decide)

/-- The body of a function starts behind the start of its head, and not behind its line. -/
theorem body_bounds (masked : List Char) (some : l.start < l.stop) {headEnd : Nat}
    (after : l.start ≤ headEnd) :
    let body : Nat := match Text.headerColon? masked headEnd l.stop with
      | .some colon => colon + 1
      | none => l.stop
    l.start < body ∧ body ≤ l.stop := by
  intro body
  cases found : Text.headerColon? masked headEnd l.stop with
  | none =>
    have here : body = l.stop := by simp only [body, found]
    omega
  | some colon =>
    have here : body = colon + 1 := by simp only [body, found]
    have := Text.headerColon?_bounds found
    omega

/-- **One line of a Python text keeps the layout.** -/
theorem step_layout (testFile : Bool) (masked : List Char) (h : s.Laid)
    (later : s.lastEnd ≤ l.start) (some : l.start < l.stop) :
    (step testFile masked s l).Laid ∧ (step testFile masked s l).lastEnd = l.stop := by
  have h' : (s.closeUntil l.indent).Laid := h.closeUntil l.indent
  have last : (s.closeUntil l.indent).lastEnd = s.lastEnd := rfl
  unfold step
  generalize s.closeUntil l.indent = t at h' last
  have passed : ScopeLayout "." l.stop t.closed (t.stack.map (·.scope)) := h'.advance (by omega)
  simp only
  split
  · exact ⟨passed, rfl⟩
  · split
    · rename_i name rest defines
      obtain ⟨after, inside⟩ := body_bounds masked some (Nat.le_add_right l.start _)
      have starts : ∀ o ∈ Scope.opened (t.stack.map (·.scope)), o.bodyOffset ≤ l.start := by
        intro o open_
        have := h'.opened_le o open_
        omega
      have behind := Nat.lt_of_le_of_lt (show t.lastEnd ≤ l.start by omega) after
      exact ⟨(ScopeLayout.declare h' ⟨rfl, after, ⟨name, rfl, rfl⟩, starts⟩ behind).advance inside,
        rfl⟩
    · split
      · exact ⟨passed.enter rfl, rfl⟩
      · exact ⟨passed, rfl⟩

theorem foldl_layout (testFile : Bool) (masked : List Char) {stop : Nat} {ls : List LogicalLine}
    (order : LogicalLine.InOrder stop s.lastEnd ls) (le : s.lastEnd ≤ stop) (h : s.Laid) :
    (ls.foldl (step testFile masked) s).Laid ∧
      (ls.foldl (step testFile masked) s).lastEnd ≤ stop := by
  induction ls generalizing s with
  | nil => exact ⟨h, le⟩
  | cons l ls ih =>
    obtain ⟨later, some, inside, order⟩ := order
    obtain ⟨laid, last⟩ := step_layout testFile masked h later some
    exact ih (by rwa [last]) (by rwa [last]) laid

/-- The declarations of Python source have a layout. -/
theorem declarations_layout (path : String) (masked : List Char) :
    ScopeLayout "." masked.length (declarations path masked).declarations [] := by
  obtain ⟨laid, le⟩ := foldl_layout (isTestPath path) masked (s := {})
    (LogicalLine.within_inOrder masked 0 masked.length) (Nat.zero_le _) (ScopeLayout.empty _ _)
  have closed := (laid.closeUntil 0).advance le
  have stack : ((LogicalLine.within masked 0 masked.length).1.foldl (step (isTestPath path) masked)
      {}).stack.dropWhile (0 ≤ ·.indent) = [] := by
    simp
  simp only [SuiteState.closeUntil, stack] at closed
  exact closed

end Python

/-- **No two declarations of a file cross**, in Rust and in Python. -/
theorem declarations_uncrossed {file : SourceFile} {family : Family} {found : FileScan}
    (known : file.language.family = .ok family) (nests : family = .rust ∨ family = .python)
    (scanned : scanFile file = .ok found) :
    found.declarations.Pairwise Declaration.Uncrossed ∧
      ∀ d ∈ found.declarations, d.Proper ∧ d.endOffset ≤ file.text.length := by
  have masked : (mask family file.text).length = file.text.length :=
    (Mask.maskFrom_veils family none file.text).length_eq
  have conclude {separator : String} {ds : List Declaration}
      (layout : ScopeLayout separator (mask family file.text).length ds []) :
      ds.Pairwise Declaration.Uncrossed ∧ ∀ d ∈ ds, d.Proper ∧ d.endOffset ≤ file.text.length := by
    rw [masked] at layout
    exact ⟨layout.uncrossed, fun d mem => ⟨layout.proper d mem, layout.closed_le d mem⟩⟩
  rw [scanFile, known] at scanned
  rcases nests with rfl | rfl
  · cases scanned
    exact conclude (Rust.declarations_layout _)
  · cases scanned
    exact conclude (Python.declarations_layout file.path _)

end CodeAtlas
