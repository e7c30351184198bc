import CodeAtlas.Proofs.Index.Nesting

/-!
Where bodies end.

A scan of a brace family keeps a stack of open braces; a reader of one body counts braces from its
opening one. Both find the same end, in texts that are balanced and in texts that are not: along a
scan the closer of an open brace is as far away as the depth of its frame says (`Awaits`), since the
scan misses no brace (`Mark.Tiles`). The other bodies are the expressions of arrow functions, which
end where the expression does (`ArrowBody`).
-/

namespace CodeAtlas

open List Text

variable {text : List Char} {stop : Nat} {file : SourceFile}

/-- A body in braces: it starts behind an opening brace, and ends behind the closer of that brace,
or at the end of the text if there is none. -/
structure BracedBody (text : List Char) (decl body stop : Nat) : Prop where
  declared : decl < body
  le : body ≤ stop
  brace : text[body - 1]? = some '{'
  ends : stop = match Text.matching? (text.drop (body - 1)) with
    | some distance => body - 1 + distance + 1
    | none => text.length

/-- A body that is an expression: it starts behind an arrow and blanks, with no brace, and ends
where the expression ends. -/
structure ArrowBody (text : List Char) (decl body stop : Nat) : Prop where
  declared : decl < body
  arrow : ∃ front blanks, text.take body = front ++ "=>".toList ++ blanks ∧ ∀ c ∈ blanks,
    isBlank c = true
  unbraced : text[body]? ≠ some '{'
  ends : Text.expressionEnd text body none = .ok stop

/-- Before the body of an arrow function stands no brace. -/
theorem ArrowBody.not_brace {decl body : Nat} (h : ArrowBody text decl body stop) :
    text[body - 1]? ≠ some '{' := by
  intro brace
  obtain ⟨front, blanks, split, blank⟩ := h.arrow
  have positive : body ≠ 0 := Nat.ne_of_gt (Nat.zero_lt_of_lt h.declared)
  have last := congrArg getLast? split
  rw [getLast?_take, if_neg positive, brace, getLast?_append, getLast?_append] at last
  cases behind : blanks.getLast? with
  | none =>
    rw [behind] at last
    cases last
  | some c =>
    rw [behind] at last
    cases last
    exact absurd (blank '{' (mem_of_getLast? behind)) (by decide)

/-! ### The distance to a closer -/

namespace Text

/-- Characters that are no braces only add to the distance of a closer. -/
theorem closerDistance_passes {cs rest : List Char} (h : Passes isBrace cs rest) (depth : Nat) :
    closerDistance '{' '}' depth cs =
      (closerDistance '{' '}' depth rest).map (· + (cs.length - rest.length)) := by
  obtain ⟨lead, rfl, plain⟩ := h
  rw [length_append, Nat.add_sub_cancel]
  induction lead with
  | nil => simp
  | cons c lead ih =>
    have other := plain c mem_cons_self
    simp only [isBrace, Bool.or_eq_false_iff] at other
    rw [cons_append, closerDistance, other.1, other.2, if_neg Bool.false_ne_true,
      if_neg Bool.false_ne_true, ih fun d mem => plain d (.tail c mem), Option.map_map]
    rfl

/-- Behind an opening brace there is one more closer to find. -/
theorem closerDistance_opener (depth : Nat) (cs : List Char) :
    closerDistance '{' '}' depth ('{' :: cs) =
      (closerDistance '{' '}' (depth + 1) cs).map (· + 1) :=
  rfl

/-- Behind an inner closing brace there is one closer less to find. -/
theorem closerDistance_closer (depth : Nat) (cs : List Char) :
    closerDistance '{' '}' (depth + 2) ('}' :: cs) =
      (closerDistance '{' '}' (depth + 1) cs).map (· + 1) :=
  rfl

/-- The brace that matches an opening one is the closer at depth one. -/
theorem matching?_brace (cs : List Char) :
    matching? ('{' :: cs) = (closerDistance '{' '}' 1 cs).map (· + 1) :=
  rfl

theorem expressionLength_le (depth : Nat) (last : Option Char) (cs : List Char) :
    expressionLength depth last cs ≤ cs.length := by
  fun_induction expressionLength depth last cs <;> simp <;> omega

end Text

/-- At an offset of the text the body of `d` is open, and `inner` braces inside of it are open too.
Its closer is the one that closes them all. -/
structure Awaits (text : List Char) (pos inner : Nat) (d : Declaration) : Prop where
  declared : d.declOffset < d.bodyOffset
  le : d.bodyOffset ≤ pos
  brace : text[d.bodyOffset - 1]? = some '{'
  closes : Text.matching? (text.drop (d.bodyOffset - 1)) =
    (Text.closerDistance '{' '}' (inner + 1) (text.drop pos)).map (· + (pos + 1 - d.bodyOffset))

namespace Awaits

variable {text : List Char} {pos inner : Nat} {d : Declaration}

/-- Nothing changes for an open body over characters that are no braces. -/
theorem pass (h : Awaits text pos inner d) {pos' : Nat} (later : pos ≤ pos')
    (inside : pos' ≤ text.length) (gap : Passes isBrace (text.drop pos) (text.drop pos')) :
    Awaits text pos' inner d := by
  refine ⟨h.declared, h.le.trans later, h.brace, ?_⟩
  have le := h.le
  rw [h.closes, closerDistance_passes gap, Option.map_map, length_drop, length_drop]
  congr 1
  funext n
  simp only [Function.comp_apply]
  omega

theorem enter (h : Awaits text pos inner d) (here : text.drop pos = '{' :: text.drop (pos + 1)) :
    Awaits text (pos + 1) (inner + 1) d := by
  refine ⟨h.declared, Nat.le_succ_of_le h.le, h.brace, ?_⟩
  have le := h.le
  rw [h.closes, here, closerDistance_opener, Option.map_map]
  congr 1
  funext n
  simp only [Function.comp_apply]
  omega

theorem leave (h : Awaits text pos (inner + 1) d)
    (here : text.drop pos = '}' :: text.drop (pos + 1)) :
    Awaits text (pos + 1) inner d := by
  refine ⟨h.declared, Nat.le_succ_of_le h.le, h.brace, ?_⟩
  have le := h.le
  rw [h.closes, here, closerDistance_closer, Option.map_map]
  congr 1
  funext n
  simp only [Function.comp_apply]
  omega

theorem first (here : text.drop pos = '{' :: text.drop (pos + 1)) (declared : d.declOffset < pos)
    (body : d.bodyOffset = pos + 1) : Awaits text (pos + 1) 0 d := by
  refine ⟨by omega, Nat.le_of_eq body, ?_, ?_⟩
  · rw [body, Nat.add_sub_cancel, ← head?_drop, here]
    rfl
  · rw [body, Nat.add_sub_cancel, here, matching?_brace, Nat.zero_add]
    congr 1
    funext n
    omega

/-- At the closer that a body awaits it ends. -/
theorem ended (h : Awaits text pos 0 d) (here : text.drop pos = '}' :: text.drop (pos + 1)) :
    BracedBody text d.declOffset d.bodyOffset (pos + 1) := by
  have le := h.le
  have declared := h.declared
  refine ⟨declared, Nat.le_succ_of_le le, h.brace, ?_⟩
  have distance : closerDistance '{' '}' (0 + 1) ('}' :: text.drop (pos + 1)) = some 0 := rfl
  rw [h.closes, here, distance]
  change pos + 1 = d.bodyOffset - 1 + (0 + (pos + 1 - d.bodyOffset)) + 1
  omega

/-- A body that is open at the end of the text has no closer. -/
theorem unended (h : Awaits text text.length inner d) :
    BracedBody text d.declOffset d.bodyOffset text.length := by
  refine ⟨h.declared, h.le, h.brace, ?_⟩
  rw [h.closes, drop_length]
  rfl

end Awaits

/-! ### Scans -/

/-- The body of a declaration is a stretch of the text that ends where it should: it is in braces,
or an expression in a family that has arrow functions. -/
structure BodyEnds (family : Family) (text : List Char) (d : Declaration) : Prop where
  ends : BracedBody text d.declOffset d.bodyOffset d.endOffset ∨
    family = .curly ∧ ArrowBody text d.declOffset d.bodyOffset d.endOffset
  le : d.bodyOffset ≤ d.endOffset
  inside : d.endOffset ≤ text.length

theorem BracedBody.bodyEnds {d : Declaration}
    (h : BracedBody text d.declOffset d.bodyOffset stop) (inside : stop ≤ text.length)
    (family : Family) :
    BodyEnds family text (d.endedAt stop) :=
  ⟨.inl h, h.le, inside⟩

namespace BlockState

variable {c : Char}

/-- The state of a scan at an offset of the text: the open bodies await their closers, the closed
ones end where they should, and what waits for a body was declared before. -/
structure Tracks (family : Family) (text : List Char) (pos : Nat) (s : BlockState) : Prop where
  opened : ∀ (i : Nat) (frame : Frame) (d : Declaration), s.stack[i]? = some frame →
    frame.scope.declaration? = some d → Awaits text pos i d
  closed : ∀ d ∈ s.closed, BodyEnds family text d
  waits : ∀ p ∈ s.pending, p.declOffset < pos
  bound : ∀ b ∈ s.bound, b.2.2.1 < pos

variable {family : Family} {text : List Char} {pos : Nat} {s : BlockState}

section

variable (h : Tracks family text pos s)
include h

/-- Over characters that are no braces a scan stays where it is. -/
theorem Tracks.pass {pos' : Nat} (later : pos ≤ pos') (inside : pos' ≤ text.length)
    (gap : Passes isBrace (text.drop pos) (text.drop pos')) : Tracks family text pos' s :=
  ⟨fun i frame d found declared => (h.opened i frame d found declared).pass later inside gap,
    h.closed, fun p waiting => Nat.lt_of_lt_of_le (h.waits p waiting) later,
    fun b mem => Nat.lt_of_lt_of_le (h.bound b mem) later⟩

theorem Tracks.passOne (here : text.drop pos = c :: text.drop (pos + 1))
    (plain : isBrace c = false) : Tracks family text (pos + 1) s := by
  have size := congrArg length here
  rw [length_cons, length_drop, length_drop] at size
  refine h.pass (Nat.le_succ pos) (by omega) ?_
  rw [here]
  exact (Passes.refl _).cons plain

/-- A head that was declared before waits for its body. -/
theorem Tracks.wait {p : Pending} (declared : p.declOffset < pos) :
    Tracks family text pos { s with pending := some p } :=
  ⟨h.opened, h.closed, fun q waiting => by cases waiting; exact declared, h.bound⟩

/-- A body is closed that ends where it should. -/
theorem Tracks.close {d : Declaration} {stop : Nat}
    (ends : BodyEnds family text (d.endedAt stop)) : Tracks family text pos (s.close d stop) := by
  refine ⟨h.opened, fun c mem => ?_, h.waits, h.bound⟩
  rcases mem_append.mp mem with old | new
  · exact h.closed c old
  · rw [mem_singleton.mp new]
    exact ends

theorem Tracks.dropPending (keep : Pending → Bool) :
    Tracks family text pos { s with pending := s.pending.filter keep } :=
  ⟨h.opened, h.closed, fun p waiting => h.waits p (Option.filter_eq_some_iff.mp waiting).1, h.bound⟩

/-- An opening brace opens a body, and those around it await one closer more. -/
theorem Tracks.push (here : text.drop pos = '{' :: text.drop (pos + 1))
    {frame : Frame} {pending : Option Pending} (waits : ∀ p ∈ pending, p ∈ s.pending)
    (fits : ∀ d, frame.scope.declaration? = some d → d.declOffset < pos ∧ d.bodyOffset = pos + 1) :
    Tracks family text (pos + 1) { s with stack := frame :: s.stack, pending := pending } := by
  refine ⟨fun i frame' d found declared => ?_, h.closed,
    fun p waiting => Nat.lt_succ_of_lt (h.waits p (waits p waiting)),
    fun b mem => Nat.lt_succ_of_lt (h.bound b mem)⟩
  cases i with
  | zero =>
    cases found
    obtain ⟨before, body⟩ := fits d declared
    exact .first here before body
  | succ i => exact (h.opened i frame' d found declared).enter here

/-- An opening bracket: a brace opens the body of what waits, any other changes a depth only. -/
theorem Tracks.openBracket (here : text.drop pos = c :: text.drop (pos + 1))
    (opener : isOpener c = true) {bind : BlockState → Pending → Nat → Scope}
    (binds : ∀ p d, (bind s p pos).declaration? = some d → d.declOffset = p.declOffset ∧
      d.bodyOffset = pos + 1) :
    Tracks family text (pos + 1) (s.openBracket bind c pos) := by
  unfold BlockState.openBracket
  split
  · rename_i other
    have plain : isBrace c = false := by
      simp only [isOpener, Bool.or_eq_true, beq_iff_eq] at opener
      rcases opener with (rfl | rfl) | rfl
      · rfl
      · rfl
      · cases other
    have h' := h.passOne here plain
    exact ⟨h'.opened, h'.closed, h'.waits, h'.bound⟩
  · rename_i brace
    obtain rfl : c = '{' := by simpa using brace
    split
    · rename_i p waiting
      split
      · refine h.push here (by simp) fun d declared => ?_
        obtain ⟨decl, body⟩ := binds p d declared
        exact ⟨decl ▸ h.waits p waiting, body⟩
      · exact h.push here (fun _ => id) (by simp [Scope.declaration?])
    · exact h.push here (fun _ => id) (by simp [Scope.declaration?])

/-- A closing bracket: a brace ends the innermost body, and those around it await one closer
less. -/
theorem Tracks.closeBracket (here : text.drop pos = c :: text.drop (pos + 1))
    (closer : isCloser c = true) (lines : LineMap) :
    Tracks family text (pos + 1) (s.closeBracket lines c pos) := by
  unfold BlockState.closeBracket
  split
  · rename_i other
    have plain : isBrace c = false := by
      simp only [isCloser, Bool.or_eq_true, beq_iff_eq] at closer
      rcases closer with (rfl | rfl) | rfl
      · rfl
      · rfl
      · cases other
    have h' := h.passOne here plain
    split <;> exact ⟨h'.opened, h'.closed, h'.waits, h'.bound⟩
  · rename_i brace
    obtain rfl : c = '}' := by simpa using brace
    have inside : pos + 1 ≤ text.length := by
      have size := congrArg length here
      rw [length_cons, length_drop] at size
      omega
    have waits : ∀ p ∈ s.pending.filter (·.paren < s.paren), p.declOffset < pos + 1 :=
      fun p waiting =>
      Nat.lt_succ_of_lt ((h.dropPending _).waits p waiting)
    have bound : ∀ b ∈ s.bound, b.2.2.1 < pos + 1 := fun b mem => Nat.lt_succ_of_lt (h.bound b mem)
    dsimp only
    split
    · rename_i empty
      refine ⟨fun i frame d found => ?_, h.closed, waits, bound⟩
      change s.stack[i]? = some frame at found
      rw [empty] at found
      cases found
    · rename_i frame stack frames
      have rest : Tracks family text (pos + 1) { s with
            pending := s.pending.filter (·.paren < s.paren), stack := stack,
            paren := frame.paren } := by
        refine ⟨fun i frame' d found declared => ?_, h.closed, waits, bound⟩
        exact (h.opened (i + 1) frame' d (frames ▸ found) declared).leave here
      split
      · rename_i d declared
        exact rest.close (((h.opened 0 frame d (frames ▸ rfl) declared).ended here).bodyEnds
          inside family)
      · exact rest

theorem Tracks.semicolon : Tracks family text pos s.semicolon :=
  h.dropPending _

end

/-- At the end of a text the bodies that are open end with it. -/
theorem Tracks.finish (h : Tracks family text text.length s) (lines : LineMap) :
    ∀ d ∈ (s.finish lines text.length).closed, BodyEnds family text d := by
  rw [closed_finish]
  intro d mem
  rcases mem_append.mp mem with old | new
  · exact h.closed d old
  · obtain ⟨o, open_, rfl⟩ := mem_map.mp new
    obtain ⟨scope, around, declared⟩ := mem_filterMap.mp open_
    obtain ⟨frame, framed, rfl⟩ := mem_map.mp around
    obtain ⟨i, found⟩ := mem_iff_getElem?.mp framed
    exact (h.opened i frame o found declared).unended.bodyEnds (Nat.le_refl _) family

end BlockState

namespace Curly

variable {cs mid rest text : List Char} {head : ValueHead} {start declAt valueAt : Nat}

/-! ### Arrow functions -/

def BehindArrow (cs rest : List Char) : Prop :=
  ∃ front, cs = front ++ "=>".toList ++ rest

/-- Behind an arrow of a later part is behind an arrow. -/
theorem BehindArrow.of_suffix (h : BehindArrow mid rest) (suffix : mid <:+ cs) :
    BehindArrow cs rest := by
  obtain ⟨lead, rfl⟩ := suffix
  obtain ⟨front, rfl⟩ := h
  exact ⟨lead ++ front, by simp⟩

theorem behindArrow_of_after? (h : after? ['=', '>'] cs = some rest) : BehindArrow cs rest :=
  ⟨[], after?_eq_some_iff.mp h⟩

/-- What the head of a value leaves of the text: all from its parameters on, or what is behind an
arrow. -/
def ValueHead.Leaves (cs : List Char) : ValueHead → Prop
  | params rest => rest <:+ cs
  | arrow rest => BehindArrow cs rest
  | function _ => True

/-- What a head leaves of a later part it leaves of the text. -/
theorem ValueHead.Leaves.of_suffix (h : head.Leaves mid) (suffix : mid <:+ cs) :
    head.Leaves cs := by
  cases head with
  | params rest => exact List.IsSuffix.trans h suffix
  | arrow rest => exact BehindArrow.of_suffix h suffix
  | function rest => trivial

theorem plainHead?_leaves (h : plainHead? cs = some head) : head.Leaves cs := by
  unfold plainHead? at h
  split at h
  · cases h
    exact suffix_rfl
  · dsimp only at h
    split at h
    · rename_i tail found
      cases h
      obtain ⟨⟨name, tail⟩, named, arrow⟩ := Option.bind_eq_some_iff.mp found
      have front : Passes isBrace cs _ := (dollarName?_passes named).1.trans (trimStart_passes tail)
      exact (behindArrow_of_after? arrow).of_suffix front.suffix
    · obtain ⟨_, _, rfl⟩ := Option.map_eq_some_iff.mp h
      trivial

/-- The head of a value leaves what it says, with or without a word before it. -/
theorem valueHead?_leaves (h : valueHead? cs = some head) : head.Leaves cs := by
  unfold valueHead? at h
  split at h
  · rename_i found
    cases h
    obtain ⟨tail, async, read⟩ := Option.bind_eq_some_iff.mp found
    obtain ⟨tail', word, blanks⟩ := Option.bind_eq_some_iff.mp async
    have front : Passes isBrace cs tail :=
      (after?_passes (plain_word (by decide)) word).trans (blanks1?_passes blanks)
    exact (plainHead?_leaves read).of_suffix front.suffix
  · exact plainHead?_leaves h

/-- Also behind a type annotation the arrow is read. -/
theorem afterAnnotatedArrow?_arrow (h : afterAnnotatedArrow? cs = some rest) :
    BehindArrow cs rest := by
  fun_induction afterAnnotatedArrow? cs with
  | case1 => cases h
  | case2 cs =>
    cases h
    exact ⟨[], rfl⟩
  | case3 => cases h
  | case4 c cs _ _ ih => exact (ih h).of_suffix (suffix_cons c cs)

theorem afterArrow?_arrow (h : afterArrow? cs = some rest) : BehindArrow cs rest := by
  unfold afterArrow? at h
  split at h
  · rename_i tail annotated
    have colon : tail <:+ trimStart cs := by
      rw [annotated]
      exact suffix_cons _ _
    exact (afterAnnotatedArrow?_arrow h).of_suffix (colon.trans (dropWhile_suffix _))
  · exact (behindArrow_of_after? h).of_suffix (dropWhile_suffix _)

/-- A value with an expression as its body: the expression starts behind an arrow and blanks, with
no brace. -/
def BoundValue.Arrow (cs : List Char) : BoundValue → Prop
  | arrowExpression start stop => ∃ front blanks body, cs = front ++ "=>".toList ++ blanks ++ body ∧
      (∀ c ∈ blanks, isBlank c = true) ∧ body.head? ≠ some '{' ∧
      start = (front ++ "=>".toList ++ blanks).length ∧
        stop = start + Text.expressionLength 0 none body
  | _ => True

/-- Behind an arrow starts a braced body or an expression, and the expression as `Arrow` says. -/
theorem arrowValue_arrow (h : BehindArrow cs rest) : (arrowValue cs.length rest).Arrow cs := by
  unfold arrowValue
  dsimp only
  split
  · trivial
  · rename_i unbraced
    obtain ⟨front, rfl⟩ := h
    have split : rest = rest.takeWhile isBlank ++ trimStart rest := takeWhile_append_dropWhile.symm
    refine ⟨front, rest.takeWhile isBlank, trimStart rest, ?_,
      fun c => mem_takeWhile_imp, ?_, ?_, rfl⟩
    · conv_lhs => rw [split]
      simp
    · simpa using unbraced
    · have size := congrArg length split
      rw [length_append] at size
      simp only [length_append]
      omega

/-- **Expression bodies stand behind an arrow**, whatever the value is. -/
theorem boundValue_arrow (cs : List Char) : (boundValue cs).Arrow cs := by
  unfold boundValue
  split
  · trivial
  · trivial
  · rename_i rest head
    exact arrowValue_arrow (valueHead?_leaves head)
  · rename_i rest head
    split
    · rename_i tail found
      obtain ⟨⟨inner, after⟩, enclosed, arrow⟩ := Option.bind_eq_some_iff.mp found
      obtain ⟨n, _, same⟩ := Option.bind_eq_some_iff.mp enclosed
      cases same
      exact arrowValue_arrow ((afterArrow?_arrow arrow).of_suffix
        ((drop_suffix (n + 1) rest).trans (valueHead?_leaves head)))
    · trivial

/-- The end of an expression is its length behind its start. -/
theorem expressionEnd_none (inside : start ≤ text.length) :
    expressionEnd text start none = .ok (start + expressionLength 0 none (text.drop start)) := by
  have short := expressionLength_le 0 none (text.drop start)
  rw [length_drop] at short
  simp only [expressionEnd, Option.getD_none, take_length, length_drop]
  split
  · congr 1
    omega
  split
  · rfl
  split
  · omega
  · congr 1
    omega

/-- The body of an arrow function without braces, as offsets of the whole text. -/
theorem arrowBody {stop : Nat} (inside : valueAt ≤ text.length)
    (before : declAt < valueAt)
    (value : boundValue (text.drop valueAt) = .arrowExpression start stop) :
    ArrowBody text declAt (valueAt + start) (valueAt + stop) ∧ start ≤ stop ∧
      valueAt + stop ≤ text.length := by
  have arrow := boundValue_arrow (text.drop valueAt)
  rw [value] at arrow
  obtain ⟨front, blanks, body, split, blank, unbraced, rfl, rfl⟩ := arrow
  generalize size : (front ++ "=>".toList ++ blanks).length = start at *
  have taken : (text.drop valueAt).take start = front ++ "=>".toList ++ blanks := by
    rw [split, ← size, take_left]
  have left : text.drop (valueAt + start) = body := by
    rw [← drop_drop, split, ← size, drop_left]
  have le : valueAt + start ≤ text.length := by
    have := congrArg length split
    rw [length_drop, length_append, size] at this
    omega
  refine ⟨⟨by omega, ⟨text.take valueAt ++ front, blanks, ?_, blank⟩, ?_, ?_⟩,
    Nat.le_add_right _ _, ?_⟩
  · rw [take_add, taken]
    simp
  · rwa [← head?_drop, left]
  · rw [expressionEnd_none le, left, Nat.add_assoc]
  · have short := expressionLength_le 0 none body
    have size := congrArg length left
    rw [length_drop] at size
    omega

end Curly

/-! ### Whole scans -/

namespace BlockState

variable {family : Family} {bind : BlockState → Pending → Nat → Scope} {lines : LineMap}

/-- One mark: whatever a scan takes, its open bodies still await their closers. -/
theorem Tracks.takes {s s' : BlockState} {start : Nat} {bracket : Option Char}
    (h : Tracks family text start s)
    (binds : ∀ s p brace d, (bind s p brace).declaration? = some d → d.declOffset = p.declOffset ∧
      d.bodyOffset = brace + 1)
    (takes : Takes family text bind lines s start bracket stop s') :
    Tracks family text stop s' := by
  cases takes with
  | opener opener here => exact h.openBracket here opener fun p => binds s p start
  | closer closer here => exact h.closeBracket here closer lines
  | other later inside gap notes =>
    have h' := h.pass later inside gap
    cases notes with
    | pass => exact h'
    | semicolon => exact h'.semicolon
    | wait _ before => exact h'.wait before
    | bind _ before =>
      exact ⟨h'.opened, h'.closed, h'.waits, forall_mem_cons.mpr ⟨before, h'.bound⟩⟩
    | resume known =>
      exact ⟨h'.opened, h'.closed, (h'.wait (h'.bound _ known)).waits,
        fun b kept => h'.bound b (mem_of_mem_filter kept)⟩
    | arrow curly _ _ before body value =>
      obtain ⟨arrow, order, last⟩ := Curly.arrowBody inside before value
      rw [← body] at arrow
      exact h'.close ⟨.inr ⟨curly, arrow⟩, by simpa [Declaration.endedAt, body] using order, last⟩

/-- **Every body that a scan finds ends where it should.** The marks tile the text, so `Tracks`
holds behind all of them. -/
theorem Scans.bodyEnds {κ : Type} {role : κ → Mark.Role}
    {read : List Char → List Char → Option (κ × Nat)} {step : BlockState → Mark κ → BlockState}
    (scans : Scans family bind lines role read step)
    (binds : ∀ s p brace d, (bind s p brace).declaration? = some d → d.declOffset = p.declOffset ∧
      d.bodyOffset = brace + 1)
    (text : List Char) :
    ∀ d ∈ (((Mark.scan read text).foldl step {}).finish lines text.length).closed,
      BodyEnds family text d :=
  (scans.foldl (P := Tracks family text) Tracks.pass (fun h => h.takes binds)
    ⟨by simp, by simp, by simp, by simp⟩).finish
    lines

end BlockState

theorem Rust.declarations_end (masked : List Char) :
    ∀ d ∈ (declarations masked).declarations, BodyEnds .rust masked d :=
  (scans _).bodyEnds (fun s p brace d declared =>
    ((bind_binds s p brace d declared).imp_right And.left)) masked

theorem Curly.declarations_end (masked : List Char) :
    ∀ d ∈ (declarations masked).declarations, BodyEnds .curly masked d := by
  intro d mem
  obtain ⟨d', declared, rfl⟩ := mem_map.mp mem
  have ends := (scans _).bodyEnds (fun s p brace d declared => by
    unfold bind at declared
    dsimp only at declared
    split at declared <;> cases declared <;> exact ⟨rfl, rfl⟩) masked d' declared
  unfold markExported
  split <;> exact ⟨ends.ends, ends.le, ends.inside⟩

/-! ### Entries -/

/-- A file of a brace family can be scanned, and its bodies end where they should. -/
theorem scanFile_bodyEnds {family : Family} (known : file.language.family = .ok family)
    (braces : family = .rust ∨ family = .curly) : ∃ scan, scanFile file = .ok scan ∧
      ∀ d ∈ scan.declarations, BodyEnds family (mask family file.text) d := by
  rw [scanFile, known]
  rcases braces with rfl | rfl
  · exact ⟨_, rfl, Rust.declarations_end _⟩
  · exact ⟨_, rfl, Curly.declarations_end _⟩

/-- The body of an entry is a stretch of the text of its file. -/
theorem fileEntries_extent {entries : List Entry} (found : fileEntries file = .ok entries)
    {e : Entry} (mem : e ∈ entries) :
    e.bodyOffset ≤ e.endOffset ∧ e.endOffset ≤ file.text.length := by
  cases known : file.language.family with
  | error fault => simp [fileEntries, scanFile, known, bind, Except.bind] at found
  | ok family =>
    have extent : ∃ scan, scanFile file = .ok scan ∧
        ∀ d ∈ scan.declarations, d.bodyOffset ≤ d.endOffset ∧ d.endOffset ≤ file.text.length := by
      by_cases braces : family = .rust ∨ family = .curly
      · obtain ⟨scan, scanned, ends⟩ := scanFile_bodyEnds known braces
        rw [(Mask.maskFrom_veils family none file.text).length_eq.symm]
        exact ⟨scan, scanned, fun d declared => ⟨(ends d declared).le, (ends d declared).inside⟩⟩
      · have python : family = .python := by cases family <;> simp_all
        subst python
        have scanned : scanFile file =
            .ok (Python.declarations file.path (mask .python file.text)) := by
          rw [scanFile, known]
          rfl
        have bounds := (declarations_uncrossed known (.inr rfl) scanned).2
        exact ⟨_, scanned, fun d declared =>
          ⟨(bounds d declared).1.bodyOffset_le, (bounds d declared).2⟩⟩
    obtain ⟨scan, scanned, bounds⟩ := extent
    rw [fileEntries, scanned] at found
    cases found
    obtain ⟨d, declared, rfl⟩ := mem_map.mp (mem_sortWith.mp mem)
    exact bounds d declared

/-- **Scanners and bracket matching agree on where bodies end.** Take any text of a brace family,
balanced or not. Its entries are found. A body that starts behind an opening brace of the masked
text ends behind the closer that bracket matching finds for this brace, or at the end of the text if
there is none. Every other body is the expression of an arrow function, and ends where the
expression ends. -/
theorem bodies_end_at_closer (file : SourceFile) (family : Family)
    (known : file.language.family = .ok family) (braces : family = .rust ∨ family = .curly) :
    let masked := mask family file.text
    masked.length = file.text.length ∧ ∃ entries, fileEntries file = .ok entries ∧ ∀ e ∈ entries,
      (masked[e.bodyOffset - 1]? = some '{' →
        BracedBody masked e.declOffset e.bodyOffset e.endOffset) ∧
      (masked[e.bodyOffset - 1]? ≠ some '{' →
        family = .curly ∧ ArrowBody masked e.declOffset e.bodyOffset e.endOffset) := by
  intro masked
  obtain ⟨scan, scanned, ends⟩ := scanFile_bodyEnds known braces
  refine ⟨(Mask.maskFrom_veils family none file.text).length_eq,
    Entry.ofDeclarations file scan.declarations, ?_, fun e member => ?_⟩
  · rw [fileEntries, scanned]
    rfl
  obtain ⟨d, declared, rfl⟩ := List.mem_map.mp (mem_sortWith.mp member)
  rcases (ends d declared).ends with braced | ⟨curly, arrow⟩
  · exact ⟨fun _ => braced, fun other => absurd braced.brace other⟩
  · exact ⟨fun brace => absurd brace arrow.not_brace, fun _ => ⟨curly, arrow⟩⟩

/-- A stray closing brace, and a body with brackets of other kinds that do not match. -/
def tangledBody : SourceFile :=
  .ofText "a.ts" .typescript "\x7d const f = (a): A => \x7b if (x \x7b ) ] \x7d return \x7d ; ["

/-- The body of the function ends behind its own closer. -/
theorem bodies_end_at_closer_tangled :
    tangledBody.language.family = .ok .curly ∧
      ∃ e, fileEntries tangledBody = .ok [e] ∧
        (mask .curly tangledBody.text)[e.bodyOffset - 1]? = some '{' ∧
        e.endOffset = 46 ∧ BracedBody (mask .curly tangledBody.text) e.declOffset e.bodyOffset
          e.endOffset := by
  have known : tangledBody.language.family = .ok .curly := rfl
  obtain ⟨-, entries, found, ends⟩ := bodies_end_at_closer tangledBody .curly known (.inr rfl)
  have facts : (fileEntries tangledBody).toOption.map (·.map fun e =>
      ((mask .curly tangledBody.text)[e.bodyOffset - 1]?, e.endOffset)) =
        some [(some '{', 46)] := by decide +kernel
  rw [found] at facts
  obtain ⟨e, rfl, fact⟩ := List.map_eq_singleton_iff.mp (Option.some.inj facts)
  obtain ⟨brace, stop⟩ := Prod.mk.inj fact
  exact ⟨known, e, found, brace, stop, (ends e List.mem_cons_self).1 brace⟩

end CodeAtlas
