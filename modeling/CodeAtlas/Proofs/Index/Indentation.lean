import CodeAtlas.Proofs.Index.Names

/-!
Scopes by indentation.

What indentation says about a function is read off the lines of a text alone: the lines that enclose
its head give its name, the innermost of them its container, and the lines that it encloses its end
(`outlines`). A scan keeps a stack of open suites instead. Its stack shows the lines that are still
open (`Shows`), whatever the indentation is, so that the functions of a file are exactly those that
indentation says (`entries_follow_indentation`).
-/

namespace CodeAtlas

open List

/-! ### What indentation says -/

/-- What is said about a function: where it is declared, its name, what it is part of, and where it
ends. -/
structure Outline where
  declOffset : Nat
  name : String
  kind : EntryKind
  container : Option String
  endOffset : Nat
  deriving DecidableEq

def Entry.outline (e : Entry) : Outline :=
  ⟨e.declOffset, e.name, e.kind, e.container, e.endOffset⟩

namespace Python

structure Header where
  isClass : Bool
  name : String
  deriving DecidableEq

def header? (masked : List Char) (l : LogicalLine) : Option Header :=
  let text := (masked.take l.stop).drop l.start
  match defName? text with
  | some (name, _) => some ⟨false, name⟩
  | none => (className? text).map (⟨true, ·⟩)

def enclosing (l : LogicalLine) : List LogicalLine → List LogicalLine
  | [] => []
  | h :: between =>
      if (between ++ [l]).all (h.indent < ·.indent) then h :: enclosing l between
        else enclosing l between

def runEnd (indent own : Nat) (after : List LogicalLine) : Nat :=
  ((after.takeWhile (indent < ·.indent)).map (·.stop)).getLastD own

/-- The outline of the function `name` on the line `l` inside the suites of some heads, the
innermost one last. -/
def outline (around : List Header) (name : String) (l : LogicalLine) (after : List LogicalLine) :
    Outline :=
  { declOffset := l.start
    name := ".".intercalate (around.map (·.name) ++ [name])
    kind := if around.getLast?.any (·.isClass) then .method else .function
    container := (around.getLast?.filter (·.isClass)).map (·.name)
    endOffset := runEnd l.indent l.stop after }

def outlines (masked : List Char) (before : List LogicalLine) : List LogicalLine → List Outline
  | [] => []
  | l :: after =>
      (match header? masked l with
        | some ⟨false, name⟩ =>
          [outline ((enclosing l before).filterMap (header? masked)) name l after]
        | _ => []) ++ outlines masked (before ++ [l]) after

/-! ### Lines that are still open -/

def live : List LogicalLine → List LogicalLine
  | [] => []
  | h :: after => if after.all (h.indent < ·.indent) then h :: live after else live after

theorem live_subset (lines : List LogicalLine) : live lines ⊆ lines := by
  induction lines with
  | nil => simp [live]
  | cons h after ih =>
    rw [live]
    split
    · exact cons_subset_cons h ih
    · exact subset_cons_of_subset h ih

/-- Open lines are indented deeper and deeper. -/
theorem live_sorted (lines : List LogicalLine) : (live lines).Pairwise (·.indent < ·.indent) := by
  induction lines with
  | nil => simp [live]
  | cons h after ih =>
    rw [live]
    split
    · rename_i deeper
      refine pairwise_cons.mpr ⟨fun k inside => ?_, ih⟩
      simpa using all_eq_true.mp deeper k (live_subset after inside)
    · exact ih

/-- A new line is open, with those that enclose it. -/
theorem live_snoc (before : List LogicalLine) (l : LogicalLine) :
    live (before ++ [l]) = enclosing l before ++ [l] := by
  induction before with
  | nil => simp [live, enclosing]
  | cons h between ih =>
    rw [cons_append, live, enclosing, ih]
    split <;> rfl

/-- The lines that enclose a line are the open ones with less indentation. -/
theorem enclosing_eq_filter (before : List LogicalLine) (l : LogicalLine) :
    enclosing l before = (live before).filter (·.indent < l.indent) := by
  induction before with
  | nil => rfl
  | cons h between ih =>
    rw [enclosing, live, ih, all_append]
    by_cases open_ : between.all (h.indent < ·.indent) = true <;>
      by_cases deeper : h.indent < l.indent <;> simp [open_, deeper]

def opened (masked : List Char) (before : List LogicalLine) : List (Option Header × Nat) :=
  ((live before).map fun h => (header? masked h, h.indent)).filter (·.1.isSome)

/-- A new line closes the suites that are not less indented, and opens its own if it is a head. -/
theorem opened_snoc (masked : List Char) (before : List LogicalLine) (l : LogicalLine) :
    opened masked (before ++ [l]) =
      (opened masked before).filter (·.2 < l.indent) ++
        [(header? masked l, l.indent)].filter (·.1.isSome) := by
  rw [opened, live_snoc, enclosing_eq_filter, map_append, filter_append, opened, filter_filter]
  simp [filter_map, Function.comp_def, Bool.and_comm]

/-- The heads around a line are those of the suites that it leaves open. -/
theorem headers_enclosing (masked : List Char) (before : List LogicalLine) (l : LogicalLine) :
    (enclosing l before).filterMap (header? masked) =
      ((opened masked before).filter (·.2 < l.indent)).filterMap (·.1) := by
  rw [enclosing_eq_filter, opened]
  induction live before with
  | nil => rfl
  | cons h lines ih =>
    cases found : header? masked h <;> by_cases deeper : h.indent < l.indent <;> simp_all

/-! ### The stack of a scan -/

def scopeHeader? : Scope → Option Header
  | .type name tags => (Scope.type name tags).name?.map (⟨true, ·⟩)
  | scope => scope.name?.map (⟨false, ·⟩)

def Shows (masked : List Char) (before : List LogicalLine) (s : SuiteState) : Prop :=
  s.stack.map (fun suite => (scopeHeader? suite.scope, suite.indent)) =
    (opened masked before).reverse

/-- In a list that gets smaller, what comes after the large ones is small. -/
theorem dropWhile_eq_filter {α : Type} {f : α → Nat} {xs : List α}
    (sorted : xs.Pairwise (f · > f ·)) (n : Nat) :
    xs.dropWhile (n ≤ f ·) = xs.filter (f · < n) := by
  induction sorted with
  | nil => rfl
  | @cons x xs smaller _ ih =>
    by_cases large : n ≤ f x
    · simp [large, ih, Nat.not_lt.mpr large]
    · have rest : xs.filter (f · < n) = xs := by
        rw [filter_eq_self]
        intro y inside
        have := smaller y inside
        simp only [decide_eq_true_eq]
        omega
      simp [large, Nat.lt_of_not_le large, rest]

variable {masked : List Char} {before : List LogicalLine} {s : SuiteState}

section

variable (h : Shows masked before s)
include h

/-- The suites of a stack are less and less indented, from the innermost one out. -/
theorem Shows.sorted : s.stack.Pairwise (·.indent > ·.indent) := by
  have ordered : (s.stack.map fun suite => (scopeHeader? suite.scope, suite.indent)).Pairwise
      (·.2 > ·.2) := by
    rw [h, pairwise_reverse, opened]
    refine List.Pairwise.filter _ ?_
    rw [pairwise_map]
    exact live_sorted before
  rwa [pairwise_map] at ordered

/-- Every suite of a stack has a head with a name. -/
theorem Shows.isSome {suite : Suite} (inside : suite ∈ s.stack) :
    (scopeHeader? suite.scope).isSome := by
  have shown :=
    mem_map_of_mem (f := fun suite : Suite => (scopeHeader? suite.scope, suite.indent)) inside
  rw [h, mem_reverse] at shown
  exact (mem_filter.mp shown).2

/-- Closing from the inside out stops at the first suite with less indentation, and all further out
have less. -/
theorem Shows.stack_closeUntil (indent : Nat) :
    (s.closeUntil indent).stack = s.stack.filter (·.indent < indent) :=
  dropWhile_eq_filter h.sorted indent

/-- What is left open shows the suites that a line leaves open. -/
theorem Shows.closeUntil (indent : Nat) :
    (s.closeUntil indent).stack.map (fun suite => (scopeHeader? suite.scope, suite.indent)) =
      ((opened masked before).filter (·.2 < indent)).reverse := by
  rw [h.stack_closeUntil, ← filter_reverse, ← h, filter_map]
  rfl

end

/-- The names of scopes are those of their heads. -/
theorem filterMap_name? (scopes : List Scope) :
    scopes.filterMap Scope.name? = (scopes.filterMap scopeHeader?).map (·.name) := by
  rw [map_filterMap]
  congr 1
  funext scope
  cases scope <;> simp [scopeHeader?, Function.comp_def]

/-- The heads around a line can be read off the stack. -/
theorem Shows.headers (h : Shows masked before s) (l : LogicalLine) :
    (enclosing l before).filterMap (header? masked) =
      (s.closeUntil l.indent).scopes.filterMap scopeHeader? := by
  have shown := congrArg reverse (h.closeUntil l.indent)
  rw [reverse_reverse] at shown
  rw [headers_enclosing, ← shown, SuiteState.scopes, filterMap_reverse, filterMap_reverse,
    filterMap_map, filterMap_map]
  rfl

/-- The class around a line is the innermost of the suites that it leaves open, if that is a
class. -/
theorem enclosingClass?_eq (s : SuiteState)
    (all : ∀ suite ∈ s.stack, (scopeHeader? suite.scope).isSome) :
    s.enclosingClass? = ((s.scopes.filterMap scopeHeader?).getLast?.filter (·.isClass)).map
      (some ·.name) := by
  unfold SuiteState.enclosingClass? SuiteState.scopes
  rw [filterMap_reverse, getLast?_reverse]
  split
  · rename_i name tags indent rest stack
    have shown := all _ (stack ▸ mem_cons_self)
    rw [stack]
    cases name with
    | none => simp [scopeHeader?, Scope.name?] at shown
    | some name =>
      by_cases empty : name = ""
      · simp [scopeHeader?, Scope.name?, empty] at shown
      · simp [scopeHeader?, Scope.name?, empty, Option.filter_some]
  · rename_i other
    cases stack : s.stack with
    | nil => rfl
    | cons suite rest =>
      have shown := all suite (stack ▸ mem_cons_self)
      obtain ⟨scope, indent⟩ := suite
      cases scope with
      | type name tags => exact absurd stack (other name tags indent rest)
      | block => simp [scopeHeader?, Scope.name?] at shown
      | module name d | entry d => simp [scopeHeader?, Scope.name?, Option.filter_some]

/-! ### Taking a line -/

theorem header?_of_decorator {cs : List Char} {name : String} (h : decorator? cs = some name) :
    defName? cs = none ∧ className? cs = none := by
  obtain ⟨rest, at_, -⟩ := Option.bind_eq_some_iff.mp h
  rw [Text.after?_eq_some_iff.mp at_]
  exact ⟨rfl, rfl⟩

def outlineOf (d : Declaration) (stop : Nat) : Outline :=
  ⟨d.declOffset, d.qualifiedName, d.kind, d.container, stop⟩

inductive Opens (masked : List Char) (l : LogicalLine) (s : SuiteState) : List Suite → Prop
  | nothing (none : header? masked l = none) : Opens masked l s []
  | class_ {name : String} (head : header? masked l = some ⟨true, name⟩) :
      Opens masked l s [⟨.type (some name) [], l.indent⟩]
  | function {d : Declaration} (head : header? masked l = some ⟨false, d.bareName⟩)
      (fits : ∀ stop, outlineOf d stop = ⟨l.start, BlockState.qualify "." s.scopes d.bareName,
        if s.enclosingClass?.isSome then .method else .function, s.enclosingClass?.join, stop⟩) :
      Opens masked l s [⟨.entry d, l.indent⟩]

/-- What one line does: it closes suites, opens one if it is a head, and ends last. -/
theorem step_opens (testFile : Bool) (masked : List Char) (s : SuiteState) (l : LogicalLine) :
    ∃ new, Opens masked l (s.closeUntil l.indent) new ∧
      (step testFile masked s l).stack = new ++ (s.closeUntil l.indent).stack ∧
      (step testFile masked s l).closed = (s.closeUntil l.indent).closed ∧
      (step testFile masked s l).lastEnd = l.stop := by
  unfold step
  dsimp only
  split
  · rename_i decorated
    obtain ⟨noDef, noClass⟩ := header?_of_decorator decorated
    exact ⟨[], .nothing (by simp [header?, noDef, noClass]), rfl, rfl, rfl⟩
  split
  · rename_i name rest defined
    exact ⟨[⟨.entry _, _⟩], .function (by simp only [header?, defined]) fun _ => rfl, rfl, rfl, rfl⟩
  rename_i noDef
  split
  · rename_i name defined
    exact ⟨[_], .class_ (by simp [header?, noDef, defined]), rfl, rfl, rfl⟩
  · rename_i noClass
    exact ⟨[], .nothing (by simp [header?, noDef, noClass]), rfl, rfl, rfl⟩

theorem header?_name_ne {l : LogicalLine} {head : Header} (h : header? masked l = some head) :
    head.name ≠ "" := by
  have isName : IsName head.name := by
    unfold header? at h
    dsimp only at h
    split at h
    · rename_i defined
      cases h
      exact defName?_isName defined
    · obtain ⟨name, defined, rfl⟩ := Option.map_eq_some_iff.mp h
      exact className?_isName defined
  intro empty
  exact isName.1 (by simp [empty])

/-- **One line keeps the stack in step with the indentation.** -/
theorem Shows.step (h : Shows masked before s) (testFile : Bool) (l : LogicalLine) :
    Shows masked (before ++ [l]) (step testFile masked s l) := by
  obtain ⟨new, opens, stack, -, -⟩ := step_opens testFile masked s l
  have own : new.map (fun suite => (scopeHeader? suite.scope, suite.indent)) =
      [(header? masked l, l.indent)].filter (·.1.isSome) := by
    cases opens with
    | nothing none => simp [none]
    | class_ head =>
      simp [head, scopeHeader?, Scope.name?, Option.filter_some, header?_name_ne head]
    | function head _ => simp [head, scopeHeader?, Scope.name?]
  rw [Shows, stack, map_append, h.closeUntil, own, opened_snoc, reverse_append]
  congr 1
  cases header? masked l <;> rfl

/-- The outline of the function of an open suite, if its last line ends at `own` and `after`
follows. -/
def Suite.outline? (own : Nat) (after : List LogicalLine) (suite : Suite) : Option Outline :=
  suite.scope.declaration?.map (outlineOf · (runEnd suite.indent own after))

/-- A suite ends behind the last line that is indented deeper. -/
theorem runEnd_cons (indent own : Nat) (l : LogicalLine) (after : List LogicalLine) :
    runEnd indent own (l :: after) = if indent < l.indent
      then runEnd indent l.stop after else own := by
  unfold runEnd
  split
  · rename_i deeper
    rw [takeWhile_cons_of_pos (by simpa using deeper), map_cons, getLastD_cons]
  · rename_i deeper
    rw [takeWhile_cons_of_neg (by simpa using deeper)]
    rfl

/-- Closing suites before a line changes no outline: they end where the lines before ended. -/
theorem outlines_closeUntil (h : Shows masked before s) (l : LogicalLine)
    (after : List LogicalLine) :
    (s.closeUntil l.indent).closed.map (fun d => outlineOf d d.endOffset) ++
        (s.closeUntil l.indent).stack.filterMap (Suite.outline? l.stop after) =
      s.closed.map (fun d => outlineOf d d.endOffset) ++
        s.stack.filterMap (Suite.outline? s.lastEnd (l :: after)) := by
  have ended (suite : Suite) (done : suite ∈ s.stack.takeWhile (l.indent ≤ ·.indent)) :
      suite.outline? s.lastEnd (l :: after) = suite.scope.declaration?.map
        (outlineOf · s.lastEnd) := by
    have closes : l.indent ≤ suite.indent := by simpa using mem_takeWhile_imp done
    rw [Suite.outline?, runEnd_cons, if_neg (Nat.not_lt.mpr closes)]
  have kept (suite : Suite) (inside : suite ∈ s.stack.dropWhile (l.indent ≤ ·.indent)) :
      suite.outline? s.lastEnd (l :: after) = suite.outline? l.stop after := by
    have deeper : suite.indent < l.indent := by
      rw [dropWhile_eq_filter h.sorted] at inside
      simpa using (mem_filter.mp inside).2
    rw [Suite.outline?, runEnd_cons, if_pos deeper]
    rfl
  conv_rhs => rw [← takeWhile_append_dropWhile (p := (l.indent ≤ ·.indent)) (l := s.stack)]
  rw [filterMap_append, filterMap_congr ended, filterMap_congr kept, SuiteState.closeUntil]
  simp [map_filterMap, Function.comp_def, outlineOf]

/-- The functions that a scan finds from a state on: those that it has found, those whose suites are
open, and those that indentation says about the lines to come. -/
theorem foldl_outlines (testFile : Bool) (lines : List LogicalLine) (h : Shows masked before s) :
    (((lines.foldl (Python.step testFile masked) s).closeUntil 0).closed.map fun d =>
      outlineOf d d.endOffset).Perm
      (s.closed.map (fun d => outlineOf d d.endOffset) ++
        s.stack.filterMap (Suite.outline? s.lastEnd lines) ++
        outlines masked before lines) := by
  induction lines generalizing before s with
  | nil =>
    have all : s.stack.takeWhile (0 ≤ ·.indent) = s.stack := by simp
    simp only [foldl_nil, SuiteState.closeUntil, all, outlines, append_nil,
      map_append, map_filterMap]
    exact .of_eq (by congr 2; funext suite; simp [Suite.outline?, runEnd, outlineOf,
      Function.comp_def])
  | cons l lines ih =>
    obtain ⟨new, opens, stack, closed, last⟩ := step_opens testFile masked s l
    refine (ih (h.step testFile l)).trans ?_
    have own : new.filterMap (Suite.outline? l.stop lines) = match header? masked l with
        | some ⟨false, name⟩ =>
          [outline ((enclosing l before).filterMap (header? masked)) name l lines]
        | _ => [] := by
      cases opens with
      | nothing none => simp [none]
      | class_ head => simp [head, Suite.outline?, Scope.declaration?]
      | @function d head fits =>
        have class_ := enclosingClass?_eq (s.closeUntil l.indent) fun _ inside =>
          h.isSome (dropWhile_subset _ inside)
        simp only [head, Suite.outline?, Scope.declaration?, Option.map_some,
          filterMap_cons, filterMap_nil, fits, outline, h.headers, BlockState.qualify,
          filterMap_name?, class_]
        generalize (s.closeUntil l.indent).scopes.filterMap scopeHeader? = around
        cases around.getLast? with
        | none => rfl
        | some last => cases isClass : last.isClass <;> simp [Option.filter_some, isClass]
    rw [stack, closed, last, filterMap_append, own, outlines, ← outlines_closeUntil h]
    simp only [append_assoc]
    refine List.Perm.append_left _ ?_
    rw [← append_assoc, ← append_assoc]
    exact perm_append_comm.append_right _

/-- The functions of a scan, in whatever order it closes them, are those that indentation says. -/
theorem declarations_outlines (path : String) (masked : List Char) :
    ((declarations path masked).declarations.map fun d => outlineOf d d.endOffset).Perm
      (outlines masked [] (LogicalLine.ofText masked).1) :=
  foldl_outlines (isTestPath path) (LogicalLine.ofText masked).1 (show Shows masked [] {} from rfl)

end Python

/-- **Functions are scoped by indentation.** Take any text, however its lines are indented, and the
logical lines of it. There is exactly one entry for each line that is the head of a function. Its
name is made of the names on the heads that enclose the line and its own. It is a method, and its
container a class, if the innermost of these heads is that of the class. It ends with the last of
the lines that its head encloses. -/
theorem entries_follow_indentation (file : SourceFile)
    (python : file.language.family = .ok .python) :
    let masked := mask .python file.text
    ∃ entries, fileEntries file = .ok entries ∧
      (entries.map Entry.outline).Perm
        (Python.outlines masked [] (LogicalLine.ofText masked).1) := by
  intro masked
  have scanned : scanFile file = .ok (Python.declarations file.path masked) := by
    rw [scanFile, python]
    rfl
  refine ⟨Entry.ofDeclarations file (Python.declarations file.path masked).declarations, ?_, ?_⟩
  · rw [fileEntries, scanned]
    rfl
  · refine ((sortWith_perm _ _).map _).trans ?_
    rw [List.map_map]
    exact Python.declarations_outlines file.path masked

/-- Lines that go back to an indentation that no line before them has, and functions in classes in
functions. -/
def unevenText : SourceFile :=
  .ofText "a.py" .python
    "class A:\n     def f(x):\n         def k(): 1\n   def g(): pass\n  class B:\n      async def h(): 1\n"

/-- What the indentation says about that text. -/
theorem entries_follow_indentation_uneven :
    unevenText.language.family = .ok .python ∧ ∃ entries, fileEntries unevenText = .ok entries ∧
      (entries.map Entry.outline).Perm
        [⟨14, "A.f", .method, some "A", 43⟩, ⟨33, "A.f.k", .function, none, 43⟩,
          ⟨47, "A.g", .method, some "A", 60⟩, ⟨78, "A.B.h", .method, some "B", 94⟩] := by
  have outlines : Python.outlines (mask .python unevenText.text) []
      (LogicalLine.ofText (mask .python unevenText.text)).1 =
        [⟨14, "A.f", .method, some "A", 43⟩, ⟨33, "A.f.k", .function, none, 43⟩,
          ⟨47, "A.g", .method, some "A", 60⟩, ⟨78, "A.B.h", .method, some "B", 94⟩] := by
            decide +kernel
  exact ⟨rfl, outlines ▸ entries_follow_indentation unevenText rfl⟩

end CodeAtlas
