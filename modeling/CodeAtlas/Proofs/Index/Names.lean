import CodeAtlas.Diff.Basic
import CodeAtlas.Proofs.Index.Nesting

/-!
What the qualified names of declarations look like.

A qualified name never starts with a colon and never holds an at sign, and its last segment is the
bare name (`qualifiedName_named`), whatever the text of a file is. So the path, the name and the
line can be told apart in an identity that is built from them. The proof follows the scanners: the
readers of marks give names, and taking a mark or a line keeps all names of the state
(`BlockState.Named.takes`, `Python.step_named`).
-/

namespace CodeAtlas

open List Text

variable {front cs : List Char} {c : Char} {name : String} {d : Declaration}

/-! ### Plain texts -/

def NoColon (cs : List Char) : Prop :=
  ∃ c ∈ cs.head?, c ≠ ':'

theorem NoColon.append (h : NoColon front) (back : List Char) : NoColon (front ++ back) := by
  obtain ⟨c, head, ne⟩ := h
  refine ⟨c, ?_, ne⟩
  rw [head?_append, Option.mem_def.mp head]
  rfl

/-- A text that starts with something other than a colon and holds no at sign. -/
structure PlainText (cs : List Char) : Prop where
  start : NoColon cs
  free : '@' ∉ cs

/-- A text without the marks of identities is plain. -/
theorem Avoids.plain (h : Avoids idMarks name) : PlainText name.toList := by
  obtain ⟨c, cs, shape⟩ := exists_cons_of_ne_nil h.1
  refine ⟨⟨c, by rw [shape]; rfl, ?_⟩, fun mem => h.2 _ mem (by decide)⟩
  rintro rfl
  exact h.2 ':' (by rw [shape]; exact mem_cons_self) (by decide)

theorem IsName.avoids (h : IsName name) : Avoids idMarks name :=
  ⟨h.1, fun c mem inside => h.2 c mem (mem_cons_of_mem _ inside)⟩

/-! ### Segments of names -/

/-- The number of colons at the end of a text. -/
def colonsAtEnd (cs : List Char) : Nat :=
  (cs.reverse.takeWhile (· == ':')).length

theorem colonsAtEnd_le (cs : List Char) : colonsAtEnd cs ≤ cs.length := by
  simpa [colonsAtEnd] using (takeWhile_sublist (l := cs.reverse) (· == ':')).length_le

/-- A character in front counts only before nothing but colons. -/
theorem colonsAtEnd_cons (c : Char) (cs : List Char) :
    colonsAtEnd (c :: cs) = if c = ':' ∧ colonsAtEnd cs = cs.length then cs.length + 1
      else colonsAtEnd cs := by
  unfold colonsAtEnd
  rw [reverse_cons, takeWhile_append, length_reverse]
  by_cases all : (cs.reverse.takeWhile (· == ':')).length = cs.length
  · by_cases colon : c = ':' <;> simp [all, colon]
  · simp [all]

theorem colonsAtEnd_eq_zero (free : ':' ∉ cs) : colonsAtEnd cs = 0 := by
  induction cs with
  | nil => rfl
  | cons c cs ih => simp_all [colonsAtEnd_cons, eq_comm]

/-- A pair of colons in front keeps the number at the end even. -/
theorem even_of_colons (even : colonsAtEnd (':' :: ':' :: cs) % 2 = 0) :
    colonsAtEnd cs % 2 = 0 := by
  grind [colonsAtEnd_cons, colonsAtEnd_le]

/-- A colon that is not one of a pair is not at the end of the text. -/
theorem even_of_colon (alone : c = ':' → cs.head? ≠ some ':')
    (even : colonsAtEnd (c :: cs) % 2 = 0) :
    (c = ':' → cs ≠ []) ∧ colonsAtEnd cs % 2 = 0 := by
  cases cs with
  | nil => by_cases colon : c = ':' <;> simp_all [colonsAtEnd]
  | cons d cs => grind [colonsAtEnd_cons, colonsAtEnd_le]

theorem nameSegments_ne_nil (cs : List Char) : nameSegments cs ≠ [] := by
  fun_cases nameSegments cs <;> simp [consFirst]
  split <;> simp

/-- A name is cut at a separator, if colons before it come in pairs. -/
theorem nameSegments_append {separator : List Char} (front back : List Char)
    (splits : separator = ['.'] ∨ separator = [':', ':'] ∧ colonsAtEnd front % 2 = 0) :
    nameSegments (front ++ (separator ++ back)) = nameSegments front ++ nameSegments back := by
  fun_induction nameSegments front with
  | case1 => rcases splits with rfl | ⟨rfl, -⟩ <;> simp [nameSegments]
  | case2 cs ih =>
    rw [cons_append, nameSegments, ih (by simpa [colonsAtEnd_cons] using splits), cons_append]
  | case3 cs ih =>
    rw [cons_append, cons_append, nameSegments,
      ih (splits.imp_right (And.imp_right even_of_colons)), cons_append]
  | case4 c cs dot colons ih =>
    have alone : c = ':' → cs.head? ≠ some ':' := fun colon first =>
      have ⟨cs', shape⟩ := head?_eq_some_iff.mp first
      colons cs' colon shape
    rw [cons_append, nameSegments,
      ih (splits.imp_right (And.imp_right fun even => (even_of_colon alone even).2))]
    · obtain ⟨first, rest, shape⟩ := exists_cons_of_ne_nil (nameSegments_ne_nil cs)
      simp [shape, consFirst]
    · exact dot
    · rintro later rfl whole
      rcases splits with rfl | ⟨rfl, h⟩
      · cases cs <;> simp_all
      · cases cs with
        | nil => exact absurd rfl ((even_of_colon alone h).1 rfl)
        | cons d cs => simp_all

/-- Without colons a name is cut at its dots. -/
theorem nameSegments_eq_splitBy (free : ':' ∉ cs) :
    nameSegments cs = Text.splitBy (· == '.') cs := by
  fun_induction nameSegments cs with
  | case1 => rfl
  | case2 cs ih => simp_all [Text.splitBy]
  | case3 cs ih => simp at free
  | case4 c cs dot colons ih => simp_all [Text.splitBy]

/-- A name without separators is one segment. -/
theorem nameSegments_name (dots : '.' ∉ cs) (colons : ':' ∉ cs) : nameSegments cs = [cs] := by
  fun_induction nameSegments cs <;> simp_all [consFirst]

def lastSegment (cs : List Char) : List Char :=
  (nameSegments cs).getLastD []

/-- The last segment stands behind the last separator. -/
theorem lastSegment_append {separator : List Char} (front back : List Char)
    (splits : separator = ['.'] ∨ separator = [':', ':'] ∧ colonsAtEnd front % 2 = 0) :
    lastSegment (front ++ (separator ++ back)) = lastSegment back := by
  rw [lastSegment, nameSegments_append front back splits, getLastD_eq_getLast?,
    getLast?_append_of_ne_nil _ (nameSegments_ne_nil back), ← getLastD_eq_getLast?]
  rfl

theorem IsName.lastSegment (h : IsName name) : lastSegment name.toList = name.toList := by
  have free (c : Char) (mark : c ∈ '.' :: idMarks) : c ∉ name.toList := fun mem => h.2 c mem mark
  rw [CodeAtlas.lastSegment, nameSegments_name (free '.' (by decide)) (free ':' (by decide))]
  rfl

/-! ### Qualified names -/

/-- Names joined by a separator are plain, and end with the last one. -/
theorem plainText_intercalate {separator : List Char}
    (known : separator = ['.'] ∨ separator = [':', ':']) (names : List String)
    (around : ∀ n ∈ names, Avoids idMarks n) (free : Avoids idMarks name) :
    PlainText (separator.intercalate ((names ++ [name]).map String.toList)) ∧
      lastSegment (separator.intercalate ((names ++ [name]).map String.toList)) =
        lastSegment name.toList := by
  induction names with
  | nil => exact ⟨by simpa using free.plain, by simp⟩
  | cons n names ih =>
    obtain ⟨first, others⟩ := forall_mem_cons.mp around
    obtain ⟨plain, last⟩ := ih others
    have some : (names ++ [name]).map String.toList ≠ [] := by simp
    rw [cons_append, map_cons, intercalate_cons_of_ne_nil some, append_assoc]
    have noColon : colonsAtEnd n.toList = 0 := colonsAtEnd_eq_zero fun mem =>
      first.2 _ mem (by decide)
    generalize separator.intercalate ((names ++ [name]).map String.toList) = later at plain last ⊢
    have splits := known.imp_right (And.intro · (show colonsAtEnd n.toList % 2 = 0 by rw [noColon]))
    refine ⟨⟨first.plain.start.append _, ?_⟩, (lastSegment_append _ _ splits).trans last⟩
    rcases known with rfl | rfl <;> simp [first.plain.free, plain.free]

structure Declaration.Named (d : Declaration) : Prop where
  plain : PlainText d.qualifiedName.toList
  bare : lastSegment d.qualifiedName.toList = d.bareName.toList

structure Scope.Named (scope : Scope) : Prop where
  name : ∀ n, scope.name? = some n → Avoids idMarks n
  declaration : ∀ d, scope.declaration? = some d → d.Named

theorem Scope.named_block : Scope.Named .block := ⟨by simp [name?], by simp [declaration?]⟩

theorem Scope.named_type {name : Option String} {tags : List Tag}
    (free : ∀ n, name = some n → Avoids idMarks n) : Scope.Named (.type name tags) := by
  refine ⟨?_, by simp [declaration?]⟩
  intro n h
  exact free n (Option.filter_eq_some_iff.mp h).1

theorem Scope.named_module (free : Avoids idMarks name) (named : d.Named) :
    Scope.Named (.module name d) :=
  ⟨fun _ same => Option.some.inj same ▸ free, fun _ same => Option.some.inj same ▸ named⟩

theorem Scope.named_entry (isName : IsName d.bareName) (named : d.Named) : Scope.Named (.entry d) :=
  ⟨fun _ same => Option.some.inj same ▸ isName.avoids, fun _ same => Option.some.inj same ▸ named⟩

/-- A name qualified by the scopes around it is plain, and its bare name is its last segment. -/
theorem BlockState.qualify_named {separator : String} {scopes : List Scope}
    (known : separator = "." ∨ separator = "::") (around : ∀ scope ∈ scopes, scope.Named)
    (free : Avoids idMarks name) (qualified : d.qualifiedName = qualify separator scopes name)
    (bare : lastSegment name.toList = d.bareName.toList) : d.Named := by
  have names : ∀ n ∈ scopes.filterMap Scope.name?, Avoids idMarks n := by
    intro n mem
    obtain ⟨scope, inScopes, named⟩ := mem_filterMap.mp mem
    exact (around scope inScopes).name n named
  have known : separator.toList = ['.'] ∨ separator.toList = [':', ':'] := by
    rcases known with rfl | rfl <;> simp
  obtain ⟨plain, last⟩ := plainText_intercalate known _ names free
  rw [← String.toList_intercalate, ← qualify, ← qualified] at plain last
  exact ⟨plain, last.trans bare⟩

/-! ### The block stack -/

/-- The names of declarations and scopes are names, as far as a family has them be. -/
structure BlockState.Named (family : Family) (s : BlockState) : Prop where
  closed : ∀ d ∈ s.closed, d.Named
  stack : ∀ frame ∈ s.stack, frame.scope.Named
  pending : ∀ p ∈ s.pending, p.head.Named family
  bound : ∀ b ∈ s.bound, IsName b.2.1

namespace BlockState

variable {s : BlockState} {family : Family}

theorem named_empty : Named family {} := by
  constructor <;> simp

section

variable (h : s.Named family)
include h

theorem Named.scopes : ∀ scope ∈ s.scopes, scope.Named := by
  intro scope mem
  obtain ⟨frame, inStack, rfl⟩ := mem_map.mp (mem_reverse.mp mem)
  exact h.stack frame inStack

theorem Named.warn (cause : Imbalance) (line : Option Nat) : (s.warn cause line).Named family :=
  ⟨h.closed, h.stack, h.pending, h.bound⟩

theorem Named.close {d : Declaration} (named : d.Named)
    (endOffset : Nat) : (s.close d endOffset).Named family := by
  refine ⟨?_, h.stack, h.pending, h.bound⟩
  intro d' mem
  rcases mem_append.mp mem with old | new
  · exact h.closed d' old
  · rw [mem_singleton.mp new]
    exact ⟨named.plain, named.bare⟩

theorem Named.wait {p : Pending} (plain : p.head.Named family) :
    Named family { s with pending := some p } := by
  refine ⟨h.closed, h.stack, ?_, h.bound⟩
  intro q mem
  cases Option.mem_def.mp mem
  exact plain

theorem Named.push {scope : Scope} (named : scope.Named) (paren : Nat)
    {pending : Option Pending} (waits : ∀ p ∈ pending, p.head.Named family) :
    Named family { s with stack := ⟨scope, paren⟩ :: s.stack, pending := pending } := by
  exact ⟨h.closed, forall_mem_cons.mpr ⟨named, h.stack⟩, waits, h.bound⟩

/-- An opening bracket binds what waits, and that has a name. -/
theorem Named.openBracket {bind : BlockState → Pending → Nat → Scope}
    (binds : ∀ p brace, p.head.Named family → (bind s p brace).Named) (c : Char) (start : Nat) :
    (s.openBracket bind c start).Named family := by
  unfold BlockState.openBracket
  split
  · exact ⟨h.closed, h.stack, h.pending, h.bound⟩
  split
  case h_1 p waiting =>
    split
    · exact h.push (binds p start (h.pending p waiting)) p.paren (by simp)
    · exact h.push Scope.named_block s.paren h.pending
  case h_2 => exact h.push Scope.named_block s.paren h.pending

theorem Named.dropPending (keep : Pending → Bool) :
    Named family { s with pending := s.pending.filter keep } :=
  ⟨h.closed, h.stack, fun p mem => h.pending p (Option.filter_eq_some_iff.mp mem).1, h.bound⟩

/-- A closing bracket closes a declaration that has a name. -/
theorem Named.closeBracket (lines : LineMap) (c : Char) (start : Nat) :
    (s.closeBracket lines c start).Named family := by
  unfold BlockState.closeBracket
  split
  · split
    · exact h.warn _ _
    · exact ⟨h.closed, h.stack, h.pending, h.bound⟩
  · have dropped := h.dropPending (·.paren < s.paren)
    simp only
    split
    · exact dropped.warn _ _
    · rename_i frame stack frames
      have inner : frame.scope.Named := h.stack frame (by rw [frames]; exact mem_cons_self)
      have popped (t : BlockState) (tNamed : t.Named family) (tStack : t.stack = frame :: stack) :
          Named family { t with stack := stack, paren := frame.paren } :=
        ⟨tNamed.closed, fun f mem => tNamed.stack f (by rw [tStack]; exact .tail _ mem),
          tNamed.pending, tNamed.bound⟩
      split
      · rename_i d declared
        exact (popped _ dropped frames).close (inner.declaration d declared) _
      · exact popped _ dropped frames

theorem Named.semicolon : s.semicolon.Named family :=
  h.dropPending _

/-- Whatever is still open at the end of a text has names too. -/
theorem Named.finish (lines : LineMap) (length : Nat) :
    ∀ d ∈ (s.finish lines length).closed, d.Named := by
  rw [closed_finish]
  intro d mem
  rcases mem_append.mp mem with old | ended
  · exact h.closed d old
  · obtain ⟨found, inScopes, rfl⟩ := mem_map.mp ended
    obtain ⟨scope, mem, declared⟩ := mem_filterMap.mp inScopes
    obtain ⟨frame, inStack, rfl⟩ := mem_map.mp mem
    have named := (h.stack frame inStack).declaration found declared
    exact ⟨named.plain, named.bare⟩

end

/-- **One mark keeps all names**, whatever it is. -/
theorem Named.takes (h : s.Named family) {bind : BlockState → Pending → Nat → Scope}
    (binds : ∀ s, s.Named family → ∀ p brace, p.head.Named family → (bind s p brace).Named)
    {text : List Char} {lines : LineMap} {start stop : Nat} {bracket : Option Char}
    {s' : BlockState} (takes : Takes family text bind lines s start bracket stop s') :
    s'.Named family := by
  cases takes with
  | opener => exact h.openBracket (binds s h) _ _
  | closer => exact h.closeBracket lines _ _
  | other _ _ _ notes =>
    cases notes with
    | pass => exact h
    | semicolon => exact h.semicolon
    | wait named => exact h.wait named
    | bind isName => exact ⟨h.closed, h.stack, h.pending, forall_mem_cons.mpr ⟨isName, h.bound⟩⟩
    | @resume name _ _ known =>
      have named : Head.Named family (.entry name) := h.bound _ known
      exact ⟨h.closed, h.stack, (h.wait named).pending,
        fun b mem => h.bound b (mem_of_mem_filter mem)⟩
    | arrow _ isName qualified =>
      exact h.close (qualify_named (.inl rfl) h.scopes isName.avoids qualified isName.lastSegment) _

theorem Scans.named {κ : Type} {role : κ → Mark.Role}
    {read : List Char → List Char → Option (κ × Nat)} {step : BlockState → Mark κ → BlockState}
    {bind : BlockState → Pending → Nat → Scope} {lines : LineMap}
    (scans : Scans family bind lines role read step) (binds : ∀ s, s.Named family → ∀ p brace,
      p.head.Named family → (bind s p brace).Named) (text : List Char)
    (length : Nat) : ∀ d ∈ (((Mark.scan read text).foldl step {}).finish lines length).closed,
      d.Named :=
  (scans.foldl (P := fun _ => Named family) (fun h _ _ _ _ => h) (fun h => h.takes binds)
    named_empty).finish lines length

end BlockState

/-! ### Rust -/

namespace Rust

variable {cs : List Char} {name : String}

theorem lastPathName?_isName {fuel : Nat} {name : List Char}
    (h : lastPathName? fuel cs = some name) : IsName (String.ofList name) := by
  induction fuel generalizing cs name with
  | zero => simp [lastPathName?] at h
  | succ fuel ih =>
    simp only [lastPathName?, Option.bind_eq_bind, Option.bind_eq_some_iff] at h
    obtain ⟨⟨first, rest⟩, read, h⟩ := h
    split at h
    · rename_i more _
      cases further : lastPathName? fuel (trimStart more) with
      | none =>
        rw [further] at h
        cases h
        exact name?_isName read
      | some last =>
        rw [further] at h
        cases h
        exact ih further
    · cases h
      exact name?_isName read

/-- What an implementation is of has a name, if it is known. -/
theorem implTarget_isName {header : List Char} (h : (implTarget header).1 = some name) :
    IsName name := by
  simp only [implTarget, Option.map_eq_some_iff] at h
  obtain ⟨cs, found, rfl⟩ := h
  exact lastPathName?_isName found

/-- What a head becomes in Rust source has a name. -/
theorem bind_named (s : BlockState) (h : s.Named .rust) (p : Pending) (brace : Nat)
    (head : p.head.Named .rust) :
    (bind s p brace).Named := by
  have named {name : String} (isName : IsName name) {d : Declaration}
      (qualified : d.qualifiedName = BlockState.qualify "::" s.scopes name)
        (bare : d.bareName = name) : d.Named :=
    BlockState.qualify_named (.inr rfl) h.scopes isName.avoids qualified
      (by rw [isName.lastSegment, bare])
  unfold bind
  generalize p.head = waiting at head ⊢
  cases waiting with
  | implementation start text =>
    have target (n : String) := @implTarget_isName n (text.take (brace - start))
    simp only
    generalize implTarget (text.take (brace - start)) = found at target ⊢
    exact Scope.named_type fun n same => (target n same).avoids
  | type name => exact Scope.named_type fun n same => Option.some.inj same ▸ IsName.avoids head
  | module name => exact Scope.named_module (IsName.avoids head) (named head rfl rfl)
  | entry name =>
    simp only
    split <;> exact Scope.named_entry head (named head rfl rfl)

/-- All declarations of Rust source have names. -/
theorem declarations_named (masked : List Char) :
    ∀ d ∈ (declarations masked).declarations, d.Named :=
  (scans _).named bind_named masked _

end Rust

/-! ### TypeScript and JavaScript -/

namespace Curly

/-- What a head becomes in TypeScript and JavaScript source has a name. -/
theorem bind_named (s : BlockState) (h : s.Named .curly) (p : Pending) (brace : Nat)
    (head : p.head.Named .curly) :
    (bind s p brace).Named := by
  unfold bind
  generalize p.head = waiting at head ⊢
  cases waiting with
  | implementation start text => exact Scope.named_block
  | type name => exact Scope.named_type fun n same => Option.some.inj same ▸ IsName.avoids head
  | module name =>
    have noColon : ':' ∉ name.toList := fun mem => head.2 _ mem (by decide)
    refine Scope.named_module head (BlockState.qualify_named (.inl rfl) h.scopes head rfl ?_)
    simp [lastDotted, lastSegment, nameSegments_eq_splitBy noColon]
  | entry name =>
    exact Scope.named_entry head
      (BlockState.qualify_named (.inl rfl) h.scopes (IsName.avoids head) rfl
        (IsName.lastSegment head))

/-- All declarations of TypeScript and JavaScript source have names. -/
theorem declarations_named (masked : List Char) :
    ∀ d ∈ (declarations masked).declarations, d.Named := by
  intro d h
  obtain ⟨found, mem, rfl⟩ := mem_map.mp h
  have named := (scans _).named bind_named masked _ found mem
  unfold markExported
  split <;> exact ⟨named.plain, named.bare⟩

end Curly

/-! ### Python -/

namespace Python

variable {s : SuiteState} {name : String} {cs rest : List Char}

structure SuiteState.Named (s : SuiteState) : Prop where
  closed : ∀ d ∈ s.closed, d.Named
  stack : ∀ suite ∈ s.stack, suite.scope.Named

theorem SuiteState.Named.closeUntil (h : s.Named) (indent : Nat) : (s.closeUntil indent).Named := by
  constructor
  · intro d mem
    rcases mem_append.mp mem with old | ended
    · exact h.closed d old
    · obtain ⟨suite, done, declared⟩ := mem_filterMap.mp ended
      obtain ⟨found, inScope, rfl⟩ := Option.map_eq_some_iff.mp declared
      have named := (h.stack suite (takeWhile_subset _ done)).declaration found inScope
      exact ⟨named.plain, named.bare⟩
  · intro suite mem
    exact h.stack suite (dropWhile_subset _ mem)

theorem SuiteState.Named.scopes (h : s.Named) : ∀ scope ∈ s.scopes, scope.Named := by
  intro scope mem
  obtain ⟨suite, inStack, rfl⟩ := mem_map.mp (mem_reverse.mp mem)
  exact h.stack suite inStack

theorem SuiteState.Named.push (h : s.Named) {scope : Scope} (named : scope.Named)
    (indent : Nat) (decorators : List String) (lastEnd : Nat) :
    Named ⟨s.closed, ⟨scope, indent⟩ :: s.stack, decorators, lastEnd⟩ := by
  exact ⟨h.closed, forall_mem_cons.mpr ⟨named, h.stack⟩⟩

/-- What is read behind a keyword is a name. -/
theorem namedAfter?_isName {word : String} (h : namedAfter? word cs = some (name, rest)) :
    IsName name := by
  simp only [namedAfter?, Option.bind_eq_bind, Option.bind_eq_some_iff, Option.pure_def,
    Option.some.injEq, Prod.mk.injEq] at h
  obtain ⟨_, _, ⟨read, _⟩, found, rfl, _⟩ := h
  exact name?_isName found

theorem defName?_isName (h : defName? cs = some (name, rest)) : IsName name := by
  unfold defName? at h
  split at h <;> exact namedAfter?_isName h

theorem className?_isName (h : className? cs = some name) : IsName name := by
  obtain ⟨⟨_, _⟩, found, rfl⟩ := Option.map_eq_some_iff.mp h
  exact namedAfter?_isName found

/-- **One line keeps all names.** -/
theorem step_named {testFile : Bool} {masked : List Char} (h : s.Named)
    (l : LogicalLine) : (step testFile masked s l).Named := by
  have before := h.closeUntil l.indent
  unfold step
  generalize s.closeUntil l.indent = t at before
  simp only
  split
  · exact ⟨before.closed, before.stack⟩
  split
  · rename_i name rest defined
    have isName : IsName name := defName?_isName defined
    refine before.push (Scope.named_entry ?_ ?_) _ _ _
    · exact isName
    · exact BlockState.qualify_named (.inl rfl) before.scopes isName.avoids rfl isName.lastSegment
  split
  · rename_i name defined
    exact before.push (Scope.named_type fun n same =>
      Option.some.inj same ▸ (className?_isName defined).avoids)
      _ _ _
  · exact ⟨before.closed, before.stack⟩

/-- All declarations of Python source have names. -/
theorem declarations_named (path : String) (masked : List Char) :
    ∀ d ∈ (declarations path masked).declarations, d.Named := by
  have scanned : ((LogicalLine.ofText masked).1.foldl (step (isTestPath path) masked) {}).Named :=
    foldlRecOn _ _ ⟨by simp, by simp⟩ fun _ named l _ => step_named named l
  exact (scanned.closeUntil 0).closed

end Python

/-- **The declarations of a file have plain names**, in every language. -/
theorem qualifiedName_named {file : SourceFile} {found : FileScan} (h : scanFile file = .ok found) :
    ∀ d ∈ found.declarations, d.Named := by
  cases family : file.language.family with
  | error e => simp [scanFile, family, bind, Except.bind] at h
  | ok family' =>
    simp only [scanFile, family, bind, Except.bind, pure, Except.pure, Except.ok.injEq] at h
    subst h
    cases family' with
    | rust => exact Rust.declarations_named _
    | curly => exact Curly.declarations_named _
    | python => exact Python.declarations_named _ _

end CodeAtlas
