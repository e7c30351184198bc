import CodeAtlas.Proofs.Calls.Ownership

/-!
The name in a callee.

A callee is read twice: resolution parses it into a name and a receiver, and the audit takes its
last segment. `Callee.IsWritten.sameName_iff` says for which written paths both find the same name.
They differ in two cases: a path that goes on from the value of an expression over several segments
(`isLongChain`), and a member of an item of the current module (`isModuleMember`). The callees of a
body are written that way (`CallSite.isWritten_callee`).
-/

namespace CodeAtlas

open List Text

namespace Callee

variable {cs part written rest : List Char} {c : Char}

/-- Does a path go on from the value of an expression over more than one segment? -/
def isLongChain : List Char → Bool
  | '.' :: path => segments path != [path]
  | _ => false

def isModuleMember (written : List Char) : Bool :=
  (Text.after? "self::".toList written).any fun rest =>
    rest.contains '.' && !Text.contains rest [':', ':']

/-- None of the separators of path segments stands in a text. -/
def IsSegment (cs : List Char) : Prop :=
  ∀ separator ∈ [".", "?.", "::"], ¬ separator.toList <:+: cs

/-- Resolution and audit find the same name in a path, and it is a single segment. -/
def SameName (written : List Char) : Prop :=
  (parse written).name.toList = lastSegment written ∧ IsSegment (parse written).name.toList

/-- An optional chaining mark ends in a dot, so two of the three separators decide. -/
theorem isSegment_iff : IsSegment cs ↔ '.' ∉ cs ∧ ¬ [':', ':'] <:+: cs := by
  constructor
  · intro h
    refine ⟨fun mem => ?_, h "::" (by simp)⟩
    obtain ⟨front, back, rfl⟩ := append_of_mem mem
    exact h "." (by simp) ⟨front, back, by simp⟩
  · rintro ⟨dotless, apart⟩ separator mem inside
    have dotted : '.' ∉ separator.toList := fun dot => dotless (inside.subset dot)
    simp only [mem_cons, not_mem_nil, or_false] at mem
    rcases mem with rfl | rfl | rfl
    · exact dotted (by decide)
    · exact dotted (by decide)
    · exact apart inside

/-! ### Segments -/

/-- There is always a first segment, and the path starts with it. -/
theorem segments_cons (cs : List Char) :
    ∃ part parts, segments cs = part :: parts ∧ part <+: cs := by
  fun_induction segments cs with
  | case1 => exact ⟨[], [], rfl, prefix_rfl⟩
  | case2 cs _ | case3 cs _ | case4 cs _ => exact ⟨[], _, rfl, nil_prefix⟩
  | case5 c cs _ _ _ ih =>
    obtain ⟨part, parts, split, front⟩ := ih
    exact ⟨c :: part, parts, by rw [split]; rfl, (prefix_cons_inj c).mpr front⟩

theorem last_mem_segments (cs : List Char) : (segments cs).getLastD [] ∈ segments cs := by
  obtain ⟨part, parts, split, _⟩ := segments_cons cs
  rw [split, getLastD_cons]
  exact getLastD_mem_cons ..

/-- What a path is cut into holds no separator. -/
theorem isSegment_of_mem_segments (mem : part ∈ segments cs) : IsSegment part := by
  rw [isSegment_iff]
  fun_induction segments cs generalizing part with
  | case1 => simp_all
  | case2 cs ih | case3 cs ih | case4 cs ih => grind
  | case5 c cs noChain noDot noColons ih =>
    obtain ⟨first, parts, split, front⟩ := segments_cons cs
    rw [split] at mem ih
    rcases mem_cons.mp mem with rfl | later
    · obtain ⟨dotless, apart⟩ := ih mem_cons_self
      refine ⟨by grind, fun inside => ?_⟩
      -- Two colons at the front of the segment would be a separator.
      rcases infix_cons_iff.mp inside with here | behind
      · obtain ⟨rfl, colon⟩ := cons_prefix_cons.mp here
        obtain ⟨rest, rfl⟩ := colon.trans front
        exact noColons rest rfl rfl
      · exact apart behind
    · exact ih (mem_cons_of_mem _ later)

/-- A path without separators is its own only segment. -/
theorem segments_of_isSegment (h : IsSegment cs) : segments cs = [cs] := by
  obtain ⟨dotless, apart⟩ := isSegment_iff.mp h
  clear h
  fun_induction segments cs with
  | case1 => rfl
  | case2 cs _ | case3 cs _ => simp at dotless
  | case4 cs _ => exact absurd ⟨[], cs, rfl⟩ apart
  | case5 c cs _ _ _ ih =>
    rw [ih (fun mem => dotless (mem_cons_of_mem _ mem)) fun inside => apart (infix_cons inside)]
    rfl

theorem mem_of_mem_segments (mem : part ∈ segments cs) (inside : c ∈ part) : c ∈ cs := by
  fun_induction segments cs generalizing part with
  | case1 => simp_all
  | case2 cs ih | case3 cs ih | case4 cs ih => grind
  | case5 d cs _ _ _ ih =>
    obtain ⟨first, parts, split, _⟩ := segments_cons cs
    rw [split] at mem ih
    rcases mem_cons.mp mem with rfl | later
    · rcases mem_cons.mp inside with rfl | behind
      · exact mem_cons_self
      · exact mem_cons_of_mem _ (ih mem_cons_self behind)
    · exact mem_cons_of_mem _ (ih (mem_cons_of_mem _ later) inside)

/-! ### Reading a path -/

/-- Whatever the receiver is, the name is the last segment. -/
theorem ofSegments_name (parts : List String) : (ofSegments parts).name = parts.getLastD "" := by
  obtain ⟨reversed, rfl⟩ : ∃ reversed, parts = reversed.reverse := ⟨parts.reverse, by simp⟩
  unfold ofSegments
  rw [reverse_reverse]
  match reversed with
  | [] => rfl
  | [name] => rfl
  | name :: qualifier :: more =>
    dsimp only
    split
    · simp
    · split <;> simp

/-- A path as calls are written with it: without blanks and type arguments, and with one dot at most
in front. -/
structure IsWritten (written : List Char) : Prop where
  blankless : ∀ c ∈ written, isBlank c = false
  typeless : '<' ∉ written
  single : ¬ ['.', '.'] <+: written

namespace IsWritten

variable {written : List Char} (h : IsWritten written) {rest : List Char}
include h

/-- A written path has no blanks and type arguments that could be dropped. -/
theorem stripped : dropTypeArguments false (written.filter (!isBlank ·)) = written := by
  have whole : written.filter (!isBlank ·) = written :=
    filter_eq_self.mpr fun c mem => by simp [h.blankless c mem]
  have plain (cs : List Char) (typeless : '<' ∉ cs) : dropTypeArguments false cs = cs := by
    induction cs with
    | nil => rfl
    | cons c cs ih =>
      have later := ih fun mem => typeless (mem_cons_of_mem _ mem)
      rw [dropTypeArguments.eq_def]
      split <;> simp_all
  rw [whole, plain written h.typeless]

/-- The audit takes the last segment of the path as it is. -/
theorem lastSegment_eq : lastSegment written = (segments written).getLastD [] := by
  have trimmed (cs : List Char) (inside : ∀ c ∈ cs, c ∈ written) : trim cs = cs := by
    have visible (ds : List Char) (inside : ∀ c ∈ ds, c ∈ written) : ds.dropWhile isBlank = ds := by
      cases ds with
      | nil => rfl
      | cons c ds => exact dropWhile_cons_of_neg (by simp [h.blankless c (inside c mem_cons_self)])
    rw [trim, trimStart, visible cs inside, trimEnd, dropEndWhile,
      visible cs.reverse fun c mem => inside c (mem_reverse.mp mem), reverse_reverse]
  rw [lastSegment, trimmed written fun _ => id]
  exact trimmed _ fun c => mem_of_mem_segments (last_mem_segments written)

/-- Where resolution reads a path by its segments, both take the last one. -/
theorem sameName_of_segments
    (read : parse written = ofSegments ((segments written).map String.ofList)) :
    SameName written := by
  have name : (parse written).name.toList = (segments written).getLastD [] := by
    obtain ⟨part, parts, split, _⟩ := segments_cons written
    rw [read, ofSegments_name, getLastD_eq_getLast?, getLastD_eq_getLast?, getLast?_map,
      split, getLast?_cons]
    simp
  exact ⟨name.trans h.lastSegment_eq.symm,
    name ▸ isSegment_of_mem_segments (last_mem_segments written)⟩

/-- Where the name is all that follows a separator, it is the same name unless it holds another
one. -/
theorem sameName_iff_of_rest {front : List Char} (name : (parse written).name.toList = rest)
    (split : segments written = front :: segments rest) : SameName written ↔ IsSegment rest := by
  have last : lastSegment written = (segments rest).getLastD [] := by
    obtain ⟨part, parts, cut, _⟩ := segments_cons rest
    rw [h.lastSegment_eq, split, cut]
    rfl
  rw [SameName, name, last]
  refine ⟨And.right, fun single => ⟨?_, single⟩⟩
  rw [segments_of_isSegment single]
  rfl

/-- In an item of the current module the name is all of the rest, members included. -/
theorem sameName_of_module (own : after? "self::".toList written = some rest)
    (direct : Text.contains rest [':', ':'] = false) (name : (parse written).name.toList = rest) :
    SameName written ↔ '.' ∉ rest := by
  have split : segments written = "self".toList :: segments rest := by
    rw [(after?_eq_some_iff).mp own]
    simp [segments, consFirst]
  have apart : ¬ [':', ':'] <:+: rest := by
    rintro ⟨front, back, cut⟩
    have nowhere : anyPlace (fun _ cs => startsWith cs [':', ':']) rest = false := by
      cases place : breakAt (fun _ cs => startsWith cs [':', ':']) none rest with
      | none => rw [anyPlace, place]; rfl
      | some cut => simp [Text.contains, Text.cutAt?, place] at direct
    have absent := anyPlace_eq_false nowhere front ([':', ':'] ++ back)
      (by rw [← cut, append_assoc])
    rw [startsWith_iff.mpr (prefix_append ..)] at absent
    cases absent
  rw [h.sameName_iff_of_rest name split, isSegment_iff]
  exact and_iff_left apart

end IsWritten

theorem isSegment_iff_segments : IsSegment cs ↔ segments cs = [cs] :=
  ⟨segments_of_isSegment, fun single => isSegment_of_mem_segments (single ▸ mem_singleton_self cs)⟩

/-- How resolution reads a path that starts no chain: by its segments, unless it names an item of
the current module directly. -/
theorem IsWritten.parse_eq (h : IsWritten written) (unchained : ¬∃ path, written = '.' :: path) :
    parse written = match after? "self::".toList written with
      | some rest =>
        if Text.contains rest [':', ':'] then ofSegments ((segments written).map String.ofList)
        else ⟨String.ofList rest, .bare⟩
      | none => ofSegments ((segments written).map String.ofList) := by
  unfold parse
  rw [h.stripped]
  dsimp only
  split
  · exact absurd ⟨_, rfl⟩ unchained
  · rfl

/-- **When both readings of a callee agree**: outside of long chains and members of items of the
current module. -/
theorem IsWritten.sameName_iff (h : IsWritten written) :
    SameName written ↔ isLongChain written = false ∧ isModuleMember written = false := by
  by_cases chained : ∃ path, written = '.' :: path
  · obtain ⟨path, rfl⟩ := chained
    have name : (parse ('.' :: path)).name.toList = path := by
      have first : path.dropWhile (· == '.') = path := by
        cases path with
        | nil => rfl
        | cons c path => exact dropWhile_cons_of_neg fun dot => h.single (by simp_all)
      rw [parse, h.stripped]
      simpa [dropWhile_cons] using first
    have own : isModuleMember ('.' :: path) = false := rfl
    have split : segments ('.' :: path) = [] :: segments path := by rw [segments]
    rw [h.sameName_iff_of_rest name split, own, isSegment_iff_segments]
    simp [isLongChain]
  · have plain : isLongChain written = false := by
      unfold isLongChain
      split
      · exact absurd ⟨_, rfl⟩ chained
      · rfl
    have read := h.parse_eq chained
    rw [plain]
    cases own : after? "self::".toList written with
    | none =>
      have mem : isModuleMember written = false := by rw [isModuleMember, own]; rfl
      rw [own] at read
      simp [h.sameName_of_segments read, mem]
    | some rest =>
      have mem : isModuleMember written =
          (rest.contains '.' && !Text.contains rest [':', ':']) := by
        rw [isModuleMember, own]; rfl
      rw [own] at read
      cases direct : Text.contains rest [':', ':'] with
      | true => simp [h.sameName_of_segments (by simpa [direct] using read), mem, direct]
      | false =>
        rw [h.sameName_of_module own direct (by simp [read, direct])]
        simp [mem, direct]

/-! ### Paths in source text -/

/-- Behind some characters that are no opening angle brackets, `rest` is left of a text. -/
def Walks (cs rest : List Char) : Prop :=
  ∃ lead, cs = lead ++ rest ∧ '<' ∉ lead

theorem Walks.trans {mid : List Char} (first : Walks cs mid) (second : Walks mid rest) :
    Walks cs rest := by
  obtain ⟨lead, rfl, typeless⟩ := first
  obtain ⟨more, rfl, typeless'⟩ := second
  exact ⟨lead ++ more, (append_assoc ..).symm, by simp [typeless, typeless']⟩

theorem walks_dropWhile {p : Char → Bool} (typeless : p '<' = false) (cs : List Char) :
    Walks cs (cs.dropWhile p) :=
  ⟨cs.takeWhile p, by simp, fun mem => by simpa [typeless] using mem_takeWhile_imp mem⟩

/-- A segment is a start and word characters, none of which opens type arguments. -/
theorem afterSegment?_walks (h : afterSegment? CallSite.isSegmentStart cs = some rest) :
    ∃ c behind, cs = c :: behind ∧ CallSite.isSegmentStart c = true ∧ Walks behind rest := by
  cases cs with
  | nil => cases h
  | cons c cs =>
    rw [afterSegment?] at h
    split at h
    · cases h
      exact ⟨c, cs, rfl, ‹_›, walks_dropWhile (by decide) cs⟩
    · cases h

theorem walks_cons (start : CallSite.isSegmentStart c = true) (h : Walks cs rest) :
    Walks (c :: cs) rest := by
  have typeless : '<' ∉ [c] := by
    rw [mem_singleton]
    rintro rfl
    exact absurd start (by decide)
  exact .trans ⟨[c], rfl, typeless⟩ h

theorem afterSeparator?_walks (h : afterSeparator? cs = some rest) : Walks cs rest := by
  unfold afterSeparator? at h
  split at h
  · cases h; exact ⟨['?', '.'], rfl, by decide⟩
  · cases h; exact ⟨['.'], rfl, by decide⟩
  · cases h; exact ⟨[':', ':'], rfl, by decide⟩
  · cases h

/-- A whole path is read over characters that open no type arguments. -/
theorem afterSegments_walks (fuel : Nat) (cs : List Char) :
    Walks cs (afterSegments CallSite.isSegmentStart fuel cs) := by
  induction fuel generalizing cs with
  | zero => exact ⟨[], rfl, not_mem_nil⟩
  | succ fuel ih =>
    rw [afterSegments]
    split
    · rename_i rest next
      obtain ⟨behind, separator, segment⟩ := Option.bind_eq_some_iff.mp next
      obtain ⟨c, word, named, start, walk⟩ := afterSegment?_walks segment
      have front : Walks cs behind :=
        (walks_dropWhile (by decide) cs).trans (afterSeparator?_walks separator)
      have gap : Walks behind (c :: word) := named ▸ walks_dropWhile (by decide) behind
      exact front.trans (gap.trans ((walks_cons start walk).trans (ih rest)))
    · exact ⟨[], rfl, not_mem_nil⟩

end Callee

namespace CallSite

variable {o : Opening}

/-- The path of a call starts a segment and holds no type arguments. -/
theorem read_path {family : Family} {before cs : List Char} {length : Nat}
    (h : read family before cs = some (o, length)) :
    ∃ c path, o.path = c :: path ∧ isSegmentStart c = true ∧ '<' ∉ o.path := by
  simp only [read, Option.bind_eq_bind, Option.bind_eq_some_iff] at h
  obtain ⟨after, path, _, _, opening⟩ := h
  obtain ⟨rest, segment, read⟩ := Option.map_eq_some_iff.mp path
  obtain ⟨c, behind, rfl, start, walk⟩ := Callee.afterSegment?_walks segment
  have whole : Callee.Walks behind after := walk.trans (read ▸ Callee.afterSegments_walks _ rest)
  obtain ⟨lead, rfl, typeless⟩ := whole
  have taken : o.path = c :: lead := by
    cases opening
    simp [Nat.succ_sub]
  refine ⟨c, lead, taken, start, ?_⟩
  rw [taken, mem_cons, not_or]
  exact ⟨by rintro rfl; exact absurd start (by decide), typeless⟩

/-- A callee is written without blanks and type arguments, and with one dot at most in front. -/
theorem isWritten_callee {c : Char} {path : List Char} (named : o.path = c :: path)
    (start : isSegmentStart c = true) (typeless : '<' ∉ o.path) :
    Callee.IsWritten (callee o).toList := by
  have dotless : '.' ≠ c := by rintro rfl; exact absurd start (by decide)
  have visible : isBlank c = false := by
    cases blank : isBlank c with
    | false => rfl
    | true =>
      rcases Bool.or_eq_true_iff.mp start with letter | hash
      · exact absurd (isDollarWordChar_of_isDollarNameStart letter)
          (by simp [isDollarWordChar_of_isBlank blank])
      · exact absurd blank (by rw [beq_iff_eq.mp hash]; decide)
  have shown : o.path.filter (!isBlank ·) = c :: path.filter (!isBlank ·) := by
    rw [named, filter_cons_of_pos (by simp [visible])]
  have led (lead : List Char) (solid : ∀ d ∈ lead, isBlank d = false ∧ d ≠ '<')
      (single : ¬ ['.', '.'] <+: lead ++ o.path.filter (!isBlank ·)) :
      Callee.IsWritten (lead ++ o.path.filter (!isBlank ·)) := by
    refine ⟨fun d mem => ?_, fun mem => ?_, single⟩
    · rcases mem_append.mp mem with inside | inside
      · exact (solid d inside).1
      · simpa using (mem_filter.mp inside).2
    · rcases mem_append.mp mem with inside | inside
      · exact (solid _ inside).2 rfl
      · exact typeless (mem_filter.mp inside).1
  unfold callee
  dsimp only
  split
  · rw [String.toList_ofList]
    split
    · exact led "super().".toList (by simp [isBlank]) (by simp)
    · exact led ['.'] (by simp [isBlank]) (by simp [shown, dotless])
  · rw [String.toList_ofList]
    exact led [] (by simp) (by simp [shown, dotless])

/-- Resolution and audit find the same name in the callee of a call exactly if it does not go on
over several segments from the value of an expression, and is no member of an item of the current
module. -/
theorem sameName_iff_of_mem_ofEntry {family : Family} {entry : Entry} {masked : List Char}
    {lines : LineMap} {siblings : List Entry} {site : CallSite}
    (h : site ∈ ofEntry family entry masked lines siblings) :
    Callee.SameName site.written.toList ↔
      Callee.isLongChain site.written.toList = false ∧
        Callee.isModuleMember site.written.toList = false := by
  obtain ⟨_, member, rfl⟩ := List.mem_map.mp h
  obtain ⟨m, scanned, rfl⟩ := List.mem_map.mp member
  obtain ⟨_, read⟩ := Mark.read_at_of_mem_scan (List.mem_filter.mp scanned).1
  obtain ⟨c, path, named, start, typeless⟩ := read_path read
  exact (isWritten_callee named start typeless).sameName_iff

/-- A function that calls a member of a member of a value, and a member of an item of its module. -/
def chained : Entry :=
  { id := "a.rs::f", name := "f", bareName := "f", kind := .function, file := "a.rs",
    startLine := 1, endLine := 1, language := .rust, container := none, declOffset := 0,
    bodyOffset := 6, endOffset := 42, tags := [] }

def chainedCalls : List CallSite :=
  let text := "fn f(){ g().a.b(); self::c.d(); e::h(); }".toList
  ofEntry .rust chained text (LineMap.ofText text) [chained]

/-- The call by a path of two segments is read alike. -/
theorem sameName_iff_of_mem_chainedCalls :
    (⟨"e::h", 1⟩ : CallSite) ∈ chainedCalls ∧ Callee.SameName "e::h".toList := by
  have member : (⟨"e::h", 1⟩ : CallSite) ∈ chainedCalls := by decide +kernel
  exact ⟨member, (sameName_iff_of_mem_ofEntry member).mpr (by decide +kernel)⟩

/-- The two readings differ on the other calls behind the first one. -/
theorem names_differ :
    chainedCalls.map (·.written) = ["g", ".a.b", "self::c.d", "e::h"] ∧
      ¬ Callee.SameName ".a.b".toList ∧ ¬ Callee.SameName "self::c.d".toList := by
  refine ⟨by decide +kernel, fun same => ?_, fun same => ?_⟩
  · exact absurd same.1 (by decide +kernel)
  · exact absurd same.1 (by decide +kernel)

end CallSite

end CodeAtlas
