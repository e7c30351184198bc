import CodeAtlas.Proofs.Index.Nesting

/-!
What a scan without a warning says of the brackets of its text.

A scan keeps one depth for round and square brackets. It notes the depth when a block opens and goes
back to it when the block closes, so what a block leaves open is forgotten: `Nests` is the grammar
of the texts that pass, with a condition `Ends` on the depths at the two ends of a block that the
scan does not have. `Levels` is the part of a scan that it decides by. A run of it over brackets is
a text of the grammar (`foldlM_take_iff`), and a scan is such a run over the brackets that it marks
(`levels?_foldl`).
-/

namespace CodeAtlas

open List

/-- The brackets that lead from one depth to another. The depths at the ends of a block satisfy
`Ends`, and behind the block the depth is what it was before. -/
inductive Nests (Ends : Nat → Nat → Prop) : Nat → List Char → Nat → Prop where
  | nil (p : Nat) : Nests Ends p [] p
  | opener {p q : Nat} {c : Char} {cs : List Char} : c = '(' ∨ c = '[' → Nests Ends (p + 1) cs q →
      Nests Ends p (c :: cs) q
  | closer {p q : Nat} {c : Char} {cs : List Char} : c = ')' ∨ c = ']' → Nests Ends p cs q →
      Nests Ends (p + 1) (c :: cs) q
  | block {p q r : Nat} {inner rest : List Char} : Nests Ends p inner r → Ends p r →
      Nests Ends p rest q →
      Nests Ends p ('{' :: (inner ++ '}' :: rest)) q

/-- The braces of a text: none closes before it opens, and all close. -/
def BracesNest (cs : List Char) : Prop :=
  (cs.filter isBrace).count '{' = (cs.filter isBrace).count '}' ∧
    ∀ front, front <+: cs.filter isBrace → front.count '}' ≤ front.count '{'

/-! ### Depths -/

/-- The depths outside the open blocks, and the depth here. -/
@[ext]
structure Levels where
  outer : List Nat := []
  depth : Nat := 0

namespace Levels

variable {l' : Levels}

def openBracket (l : Levels) (c : Char) : Levels :=
  if c = '{' then ⟨l.depth :: l.outer, l.depth⟩ else { l with depth := l.depth + 1 }

def closeBracket (l : Levels) (c : Char) : Option Levels :=
  if c = '}' then l.outer.head?.map fun depth => ⟨l.outer.tail, depth⟩
  else if l.depth = 0 then none else some { l with depth := l.depth - 1 }

/-- The levels behind a bracket, unless it closes what is not open. -/
def take (l : Levels) (c : Char) : Option Levels :=
  if isOpener c then some (l.openBracket c) else if isCloser c then l.closeBracket c else none

variable {l : Levels} {outer : List Nat} {p q : Nat} {c : Char} {cs : List Char}

theorem take_round (round : c = '(' ∨ c = '[') : take ⟨outer, p⟩ c = some ⟨outer, p + 1⟩ := by
  rcases round with rfl | rfl <;> rfl

theorem take_closer (round : c = ')' ∨ c = ']') : take ⟨outer, p + 1⟩ c = some ⟨outer, p⟩ := by
  rcases round with rfl | rfl <;> rfl

theorem take_brace : take ⟨outer, p⟩ '{' = some ⟨p :: outer, p⟩ :=
  rfl

/-- The end of a block goes back to that depth. -/
theorem take_closed : take ⟨q :: outer, p⟩ '}' = some ⟨outer, q⟩ :=
  rfl

/-- What one bracket can do. -/
theorem take_cases (h : l.take c = some l') : ((c = '(' ∨ c = '[') ∧ l' = ⟨l.outer, l.depth + 1⟩) ∨
    ((c = ')' ∨ c = ']') ∧ l = ⟨l.outer, l'.depth + 1⟩ ∧ l'.outer = l.outer) ∨
    (c = '{' ∧ l' = ⟨l.depth :: l.outer, l.depth⟩) ∨
      (c = '}' ∧ l.outer = l'.depth :: l'.outer) := by
  obtain ⟨outer, depth⟩ := l
  obtain ⟨outer', depth'⟩ := l'
  simp only [take, isOpener, isCloser, Bool.or_eq_true, beq_iff_eq, or_assoc] at h
  split at h
  · rename_i opener
    rcases opener with rfl | rfl | rfl <;> cases h <;> simp
  split at h
  · rename_i closer
    rcases closer with rfl | rfl | rfl
    · grind [closeBracket]
    · grind [closeBracket]
    · cases outer with
      | nil => cases h
      | cons depth outer =>
        cases h
        simp
  · cases h

/-- The brackets of a text of the grammar lead to its second depth, whatever is open around it. -/
theorem foldlM_take_of_nests {Ends : Nat → Nat → Prop} (h : Nests Ends p cs q) (outer : List Nat) :
    cs.foldlM take ⟨outer, p⟩ = some ⟨outer, q⟩ := by
  induction h generalizing outer with
  | nil => rfl
  | opener round _ ih =>
    rw [foldlM_cons, take_round round, Option.bind_eq_bind, Option.bind_some, ih]
  | closer round _ ih =>
    rw [foldlM_cons, take_closer round, Option.bind_eq_bind, Option.bind_some, ih]
  | block _ _ _ inner rest =>
    rw [foldlM_cons, take_brace, Option.bind_eq_bind, Option.bind_some, foldlM_append, inner,
      Option.bind_eq_bind, Option.bind_some, foldlM_cons, take_closed, Option.bind_eq_bind,
      Option.bind_some, rest]

/-- A text closes the blocks that are open around it, one after the other, and then nests. -/
def Unwinds : List Nat → Nat → List Char → Nat → Prop
  | [], p, cs, q => Nests (fun _ _ => True) p cs q
  | depth :: outer, p, cs, q =>
    ∃ inner r rest, cs = inner ++ '}' :: rest ∧ Nests (fun _ _ => True) p inner r ∧
      Unwinds outer depth rest q

/-- What nests before a text that unwinds can be put in front of its first part. -/
theorem Unwinds.extend (lead : List Char) {p' : Nat}
    (front : ∀ {cs q}, Nests (fun _ _ => True) p' cs q → Nests (fun _ _ => True) p (lead ++ cs) q)
    (h : Unwinds outer p' cs q) : Unwinds outer p (lead ++ cs) q := by
  cases outer with
  | nil => exact front h
  | cons depth outer =>
    obtain ⟨inner, r, rest, rfl, nests, unwinds⟩ := h
    exact ⟨lead ++ inner, r, rest, (append_assoc _ _ _).symm, front nests, unwinds⟩

/-- A run that ends with nothing open has closed all blocks around it and then nests. By induction
on the brackets. -/
theorem unwinds_of_foldlM (h : cs.foldlM take l = some ⟨[], q⟩) : Unwinds l.outer l.depth cs q := by
  induction cs generalizing l with
  | nil =>
    cases h
    exact .nil q
  | cons c cs ih =>
    obtain ⟨l', first, rest⟩ := Option.bind_eq_some_iff.mp h
    have later := ih rest
    rcases take_cases first with ⟨round, rfl⟩ | ⟨round, same, outer⟩ | ⟨rfl, rfl⟩ | ⟨rfl, outer⟩
    · exact later.extend [c] (.opener round)
    · rw [same]
      rw [outer] at later
      exact later.extend [c] (.closer round)
    · obtain ⟨inner, r, back, rfl, nests, unwinds⟩ := later
      have extended := unwinds.extend ('{' :: (inner ++ ['}'])) fun back => by
        simpa using Nests.block nests trivial back
      simpa using extended
    · rw [outer]
      exact ⟨[], l.depth, cs, rfl, .nil _, later⟩

/-- **The runs from nothing to nothing are the texts of the grammar.** -/
theorem foldlM_take_iff : cs.foldlM take {} = some {} ↔ Nests (fun _ _ => True) 0 cs 0 :=
  ⟨unwinds_of_foldlM, fun h => foldlM_take_of_nests h []⟩

/-- Blocks are open as often as braces opened more than closed. -/
theorem length_outer (h : cs.foldlM take l = some l') :
    l'.outer.length + cs.count '}' = l.outer.length + cs.count '{' := by
  induction cs generalizing l with
  | nil =>
    cases h
    rfl
  | cons c cs ih =>
    obtain ⟨mid, first, rest⟩ := Option.bind_eq_some_iff.mp h
    have later := ih rest
    rcases take_cases first with ⟨rfl | rfl, rfl⟩ | ⟨rfl | rfl, -, outer⟩ | ⟨rfl,
      rfl⟩ | ⟨rfl, outer⟩
    · simpa using later
    · simpa using later
    · simpa [outer] using later
    · simpa [outer] using later
    · rw [length_cons] at later
      simp only [count_cons_self, count_cons_of_ne (by decide : '{' ≠ '}')]
      omega
    · rw [outer, length_cons]
      simp only [count_cons_self, count_cons_of_ne (by decide : '}' ≠ '{')]
      omega

/-- Then the braces nest, whatever the other brackets do. -/
theorem bracesNest_of_foldlM (h : cs.foldlM take {} = some {}) : BracesNest cs := by
  have count {brace : Char} (is : isBrace brace = true) (xs : List Char) :
      (xs.filter isBrace).count brace = xs.count brace := count_filter is
  refine ⟨?_, fun front initial => ?_⟩
  · rw [count rfl, count rfl]
    have total := length_outer h
    simp only [length_nil, Nat.zero_add] at total
    exact total.symm
  · obtain ⟨back, split⟩ := initial
    obtain ⟨early, late, rfl, rfl, -⟩ := filter_eq_append_iff.mp split.symm
    rw [foldlM_append] at h
    obtain ⟨mid, first, -⟩ := Option.bind_eq_some_iff.mp h
    have total := length_outer first
    rw [count rfl, count rfl]
    simp only [length_nil] at total
    omega

end Levels

/-! ### A scan as a run over its brackets -/

namespace Mark

def brackets {κ : Type} (role : κ → Role) (ms : List (Mark κ)) : List Char :=
  ms.filterMap fun m => (role m.kind).bracket?

theorem brackets_cons {κ : Type} (role : κ → Role) (m : Mark κ) (ms : List (Mark κ)) :
    brackets role (m :: ms) = (role m.kind).bracket?.toList ++ brackets role ms := by
  rw [brackets, filterMap_cons]
  cases (role m.kind).bracket? <;> rfl

end Mark

namespace BlockState

variable {s : BlockState} {lines : LineMap} {start length : Nat} {c : Char}

/-- The levels of a scan, while it has nothing to report. -/
def levels? (s : BlockState) : Option Levels :=
  if s.warnings = [] then some ⟨s.stack.map (·.paren), s.paren⟩ else none

/-- A step takes a bracket if it does so while there is nothing to report, and takes no report
back. -/
theorem levels?_eq_bind {t : BlockState}
    (silent : s.warnings = [] → t.levels? = Levels.take ⟨s.stack.map (·.paren), s.paren⟩ c)
    (reported : s.warnings ≠ [] → t.warnings ≠ []) : t.levels? = s.levels?.bind (·.take c) := by
  by_cases none : s.warnings = []
  · rw [silent none, levels?, if_pos none, Option.bind_some]
  · rw [levels?, levels?, if_neg none, if_neg (reported none), Option.bind_none]

theorem levels?_openBracket {bind : BlockState → Pending → (brace : Nat) → Scope}
    (opener : isOpener c = true) :
    (s.openBracket bind c start).levels? = s.levels?.bind (·.take c) := by
  refine levels?_eq_bind (fun silent => ?_) (fun reported => ?_)
  · rw [Levels.take, if_pos opener]
    unfold openBracket Levels.openBracket
    by_cases brace : c = '{'
    · simp only [brace, bne_self_eq_false, Bool.false_eq_true, if_false, if_true]
      split
      · split
        · rename_i here
          obtain ⟨same, -⟩ := Bool.and_eq_true_iff.mp here
          simp [levels?, silent, beq_iff_eq.mp same]
        · simp [levels?, silent]
      · simp [levels?, silent]
    · simp [levels?, brace, silent]
  · unfold openBracket
    split
    · exact reported
    split
    · split <;> exact reported
    · exact reported

/-- Closing a bracket in a scan: it reports what was not open. -/
theorem levels?_closeBracket (closer : isCloser c = true) :
    (s.closeBracket lines c start).levels? = s.levels?.bind (·.take c) := by
  have shut : ¬ isOpener c = true := by
    revert closer
    simp only [isCloser, isOpener, Bool.or_eq_true, beq_iff_eq]
    rintro ((rfl | rfl) | rfl) <;> decide
  refine levels?_eq_bind (fun silent => ?_) (fun reported => ?_)
  · rw [Levels.take, if_neg shut, if_pos closer]
    unfold closeBracket Levels.closeBracket
    by_cases brace : c = '}'
    · simp only [brace, bne_self_eq_false, Bool.false_eq_true, if_false, if_true]
      split
      · rename_i empty
        simp [levels?, warn, empty]
      · rename_i frame stack there
        split <;> simp [levels?, close, there, silent]
    · by_cases zero : s.paren = 0
      · simp [levels?, warn, brace, zero]
      · simp [levels?, brace, zero, silent]
  · unfold closeBracket
    split
    · split
      · simp [warn]
      · exact reported
    dsimp only
    split
    · simp [warn]
    · split <;> exact reported

/-- Closing what is open at the end takes no report back. -/
theorem warnings_of_closeOpen : (closeOpen lines length s).warnings = [] → s.warnings = [] := by
  have grows : s.warnings <+: (closeOpen lines length s).warnings := by
    unfold closeOpen
    induction s.stack.filterMap (·.scope.declaration?) generalizing s with
    | nil => exact prefix_rfl
    | cons d ds ih =>
      rw [foldl_cons]
      refine List.IsPrefix.trans ?_ ih
      exact prefix_append _ _
  intro silent
  exact prefix_nil.mp (silent ▸ grows)

theorem levels?_eq_some {l : Levels} :
    s.levels? = some l ↔ s.warnings = [] ∧ s.stack.map (·.paren) = l.outer ∧ s.paren = l.depth := by
  unfold levels?
  split <;> simp_all [Levels.ext_iff]

/-- The end of a text is silent when nothing was reported and nothing is open. -/
theorem warnings_finish : (s.finish lines length).warnings = [] ↔ s.levels? = some {} := by
  rw [levels?_eq_some]
  constructor
  · intro silent
    unfold finish at silent
    have before := warnings_of_closeOpen silent
    by_cases deep : 0 < s.paren
    · by_cases empty : s.stack.isEmpty <;> simp [deep, empty, warn] at before
    · by_cases empty : s.stack.isEmpty
      · simp only [deep, empty, if_true, if_false] at before
        exact ⟨before, by simpa using empty, Nat.eq_zero_of_not_pos deep⟩
      · simp [deep, empty, warn] at before
  · rintro ⟨silent, empty, level⟩
    simp [finish, closeOpen, level, map_eq_nil_iff.mp empty, silent]

/-- A scan without a report takes the brackets of its marks one after the other. -/
theorem levels?_foldl {κ : Type} {role : κ → Mark.Role} {step : BlockState → Mark κ → BlockState}
    {ms : List (Mark κ)} (each : ∀ m ∈ ms, ∀ s,
      (step s m).levels? = (role m.kind).bracket?.elim s.levels? fun c => s.levels?.bind (·.take c))
    (s : BlockState) :
    (ms.foldl step s).levels? = s.levels?.bind ((Mark.brackets role ms).foldlM Levels.take) := by
  induction ms generalizing s with
  | nil => exact (Option.bind_fun_some _).symm
  | cons m ms ih =>
    rw [foldl_cons, ih (fun m' later => each m' (mem_cons_of_mem _ later)), each m mem_cons_self,
      Mark.brackets_cons]
    cases (role m.kind).bracket? with
    | none => rfl
    | some c => exact Option.bind_assoc _ _ _

end BlockState

/-! ### The brackets that a scan marks -/

namespace Mark

variable {κ : Type} {kind : Char → Bool} {read : List Char → List Char → Option (κ × Nat)}
  {role : κ → Role} {cs text : List Char} {length pos : Nat} {c : Char} {ms : List (Mark κ)}

/-- A mark that is read is a bracket of one character, or it covers none of the kind. -/
theorem Sees.bracket_or {mark : κ} (h : Sees kind role cs (some (mark, length))) :
    (∃ c, (role mark).bracket? = some c ∧ isBracket c = true ∧ length = 1 ∧ cs.head? = some c) ∨
      (role mark).bracket? = none ∧ Passes kind cs (cs.drop length) := by
  dsimp only [Sees] at h
  cases is : role mark with
  | opener c =>
    rw [is] at h
    exact .inl ⟨c, rfl, by rw [isBracket, h.1, Bool.true_or], h.2⟩
  | closer c =>
    rw [is] at h
    exact .inl ⟨c, rfl, by rw [isBracket, h.1, Bool.or_true], h.2⟩
  | other =>
    rw [is] at h
    exact .inr ⟨rfl, h.2.2⟩

/-- The characters of a kind among the marked brackets are those of the text. -/
theorem Tiles.filter_brackets (sees : ∀ before cs, Sees kind role cs (read before cs))
    (tiles : Tiles kind read text pos ms) :
    (brackets role ms).filter kind = (text.drop pos).filter kind := by
  induction ms generalizing pos with
  | nil => exact tiles.filter_eq.symm
  | cons m ms ih =>
    obtain ⟨later, positive, stop, gap, found, tiles⟩ := tiles
    have here := sees m.before (text.drop m.start)
    rw [found] at here
    have behind : (text.drop m.start).drop (m.stop - m.start) = text.drop m.stop := by
      rw [drop_drop, Nat.add_sub_cancel' positive.le]
    rw [brackets_cons, filter_append, ih tiles, gap.filter_eq, ← behind]
    rcases here.bracket_or with ⟨c, is, -, one, head⟩ | ⟨is, passes⟩
    · obtain ⟨rest, split⟩ := head?_eq_some_iff.mp head
      rw [is, one, split, ← filter_append]
      rfl
    · rw [is, passes.filter_eq]
      rfl

/-- The scan of a whole text marks all characters of the kind that are brackets on their own. -/
theorem filter_brackets (sees : ∀ before cs, Sees kind role cs (read before cs))
    (text : List Char) :
    (brackets role (scan read text)).filter kind = text.filter kind :=
  (scan_tiles sees (Sees.unmarked sees) text).filter_brackets sees

/-- What may not stand in a gap is part of a mark. -/
theorem Tiles.exists_around (tiles : Tiles kind read text pos ms) {i : Nat}
    (there : text[i]? = some c) (is : kind c = true) (behind : pos ≤ i) :
    ∃ m ∈ ms, m.start ≤ i ∧ i < m.stop := by
  have short : i < text.length := (List.getElem?_eq_some_iff.mp there).1
  induction ms generalizing pos with
  | nil =>
    have passes : Passes kind (text.drop pos) (text.drop text.length) := drop_length ▸ tiles
    exact absurd short (Nat.not_lt.mpr (passes.le_of_getElem? (Nat.le_refl _) there is behind))
  | cons m ms ih =>
    obtain ⟨later, positive, stop, gap, -, tiles⟩ := tiles
    have start := gap.le_of_getElem? (positive.le.trans stop) there is behind
    by_cases inside : i < m.stop
    · exact ⟨m, mem_cons_self, start, inside⟩
    · obtain ⟨m', mem, around⟩ := ih tiles (Nat.not_lt.mp inside)
      exact ⟨m', mem_cons_of_mem _ mem, around⟩

/-- A bracket of a text is a mark of its own, or it is part of a mark that is no bracket. -/
theorem scan_covers (sees : ∀ before cs, Sees kind role cs (read before cs))
    (unmarked : ∀ {before cs}, read before cs = none → ∀ c ∈ cs.head?, isBracket c = false)
    {i : Nat} (there : text[i]? = some c) (bracket : isBracket c = true) :
    ∃ m ∈ scan read text, (m.start ≤ i ∧ i < m.stop) ∧
      ((role m.kind).bracket? = some c ∨ (role m.kind).bracket? = none) := by
  obtain ⟨m, mem, around⟩ :=
    (scan_tiles sees unmarked text).exists_around there bracket (Nat.zero_le i)
  refine ⟨m, mem, around, ?_⟩
  obtain ⟨-, -, found⟩ := (scan_tiles sees unmarked text).of_mem mem
  have here := sees m.before (text.drop m.start)
  rw [found] at here
  rcases here.bracket_or with ⟨d, is, -, one, head⟩ | ⟨is, -⟩
  · have place : m.start = i := by omega
    rw [place, head?_drop, there] at head
    exact .inl (head ▸ is)
  · exact .inr is

end Mark

namespace BlockState

variable {κ : Type}

/-- What a mark does to the levels, through its bracket alone. -/
theorem Takes.levels? {family : Family} {text : List Char}
    {bind : BlockState → Pending → Nat → Scope} {lines : LineMap} {s s' : BlockState}
    {start stop : Nat} {bracket : Option Char}
    (takes : Takes family text bind lines s start bracket stop s') :
    s'.levels? = bracket.elim s.levels? fun c => s.levels?.bind (·.take c) := by
  cases takes with
  | opener opener => exact levels?_openBracket opener
  | closer closer => exact levels?_closeBracket closer
  | other _ _ _ notes => cases notes <;> rfl

section

variable {family : Family} {bind : BlockState → Pending → Nat → Scope} {lines : LineMap}
  {role : κ → Mark.Role} {read : List Char → List Char → Option (κ × Nat)}
  {step : BlockState → Mark κ → BlockState} (h : Scans family bind lines role read step)
include h

/-- A scan has nothing to report exactly when its brackets run from nothing to nothing. -/
theorem Scans.silent_iff (masked : List Char) (length : Nat) :
    (((Mark.scan read masked).foldl step {}).finish lines length).warnings = [] ↔
      (Mark.brackets role (Mark.scan read masked)).foldlM Levels.take {} = some {} := by
  rw [warnings_finish, levels?_foldl fun m mem s =>
    (h.takes ((h.tiles masked).of_mem mem) s).levels?]
  rfl

/-- Without a report the braces of the text nest. -/
theorem Scans.bracesNest {masked : List Char} {length : Nat}
    (silent : (((Mark.scan read masked).foldl step {}).finish lines length).warnings = []) :
    BracesNest masked := by
  have nest := Levels.bracesNest_of_foldlM ((h.silent_iff masked length).mp silent)
  unfold BracesNest at nest ⊢
  rwa [Mark.filter_brackets h.sees] at nest

end

end BlockState

namespace Rust

/-- In Rust source every bracket of the text is marked. -/
theorem brackets_scan (masked : List Char) :
    Mark.brackets MarkKind.role (Mark.scan readMark masked) = masked.filter isBracket := by
  have sees : ∀ before cs, Mark.Sees isBracket MarkKind.role cs (readMark before cs) :=
    readMark_sees
  rw [← Mark.filter_brackets sees, filter_eq_self.mpr]
  intro c mem
  obtain ⟨m, marked, is⟩ := mem_filterMap.mp mem
  obtain ⟨-, -, found⟩ := (Mark.scan_tiles sees (Mark.Sees.unmarked sees) masked).of_mem marked
  have here := sees m.before (masked.drop m.start)
  rw [found] at here
  rcases here.bracket_or with ⟨d, same, bracket, -⟩ | ⟨none, -⟩
  · rw [is] at same
    cases same
    exact bracket
  · rw [is] at none
    cases none

end Rust

namespace Curly

/-- In TypeScript and JavaScript source a place without a mark is no bracket, but a head may cover
round and square ones. -/
theorem no_bracket_of_readMark {before cs : List Char} (none : readMark before cs = none) :
    ∀ c ∈ cs.head?, isBracket c = false := by
  unfold readMark at none
  repeat' split at none
  all_goals simp_all [isBracket]

end Curly

/-- **What a scan without a warning says of the brackets of its text.** Its braces nest. Its round
and square brackets lead from no depth to no depth when each block is left at the depth that it was
entered at, whatever it leaves open. In one family all brackets of the text count, in the other
those outside the heads that a scan reads. -/
theorem silent_iff_nests (file : SourceFile) :
    (file.language.family = .ok .rust →
      ∃ found, scanFile file = .ok found ∧
        let masked := mask .rust file.text
        (found.warnings = [] ↔ Nests (fun _ _ => True) 0 (masked.filter isBracket) 0) ∧
        (found.warnings = [] → BracesNest masked)) ∧
    (file.language.family = .ok .curly →
      ∃ found, scanFile file = .ok found ∧
        let masked := mask .curly file.text
        let marks := Mark.scan Curly.readMark masked
        (found.warnings = [] ↔ Nests (fun _ _ => True) 0
          (Mark.brackets Curly.MarkKind.role marks) 0) ∧
        (found.warnings = [] → BracesNest masked) ∧
        ∀ (i : Nat) (c : Char), masked[i]? = some c → isBracket c = true → ∃ m ∈ marks,
        (m.start ≤ i ∧ i < m.stop) ∧
          (m.kind.role.bracket? = some c ∨ m.kind.role.bracket? = none)) := by
  constructor
  · intro rust
    refine ⟨Rust.declarations (mask .rust file.text), by rw [scanFile, rust]; rfl, ?_, ?_⟩
    · rw [← Rust.brackets_scan, ← Levels.foldlM_take_iff]
      exact (Rust.scans _).silent_iff _ _
    · exact (Rust.scans _).bracesNest
  · intro curly
    refine ⟨Curly.declarations (mask .curly file.text), by rw [scanFile, curly]; rfl, ?_, ?_, ?_⟩
    · rw [← Levels.foldlM_take_iff]
      exact (Curly.scans _).silent_iff _ _
    · exact (Curly.scans _).bracesNest
    · intro i c there bracket
      exact Mark.scan_covers Curly.readMark_sees Curly.no_bracket_of_readMark there bracket

/-- The bracket is part of the head of a binding. -/
def openInHead : SourceFile :=
  .ofText "a.ts" .typescript "const x: ( = 1"

/-- A bracket that is part of a head is not seen. -/
theorem silent_iff_nests_openInHead :
    openInHead.language.family = .ok .curly ∧ ∃ found, scanFile openInHead = .ok found ∧
      found.warnings = [] ∧
      Nests (fun _ _ => True) 0
        (Mark.brackets Curly.MarkKind.role (Mark.scan Curly.readMark (mask .curly openInHead.text)))
        0 := by
  have known : openInHead.language.family = .ok .curly := rfl
  obtain ⟨found, scanned, silent, -⟩ := (silent_iff_nests openInHead).2 known
  have none : (scanFile openInHead).toOption.map (·.warnings) = some [] := by decide +kernel
  rw [scanned] at none
  have quiet : found.warnings = [] := Option.some.inj none
  exact ⟨known, found, scanned, quiet, silent.mp quiet⟩

/-- A text whose blocks close what they open has no more opening brackets than closing ones. -/
theorem Nests.openers_le {p q : Nat} {cs : List Char} (h : Nests (fun p r => r ≤ p) p cs q) :
    p + cs.countP (fun c => c == '(' || c == '[') ≤ q + cs.countP fun c =>
      c == ')' || c == ']' := by
  induction h with
  | nil => simp
  | opener round _ ih | closer round _ ih =>
    rcases round with rfl | rfl <;> simp at ih ⊢ <;> omega
  | block _ ends _ inner rest =>
    simp at inner rest ⊢
    omega

def openInBlock : SourceFile :=
  .ofText "a.rs" .rust "fn f() \x7b g( \x7d"

/-- What a block leaves open is not reported. -/
theorem open_in_block_silent :
    (∃ found, scanFile openInBlock = .ok found ∧ found.warnings = []) ∧
      ¬ Nests (fun p r => r ≤ p) 0 ((mask .rust openInBlock.text).filter isBracket) 0 := by
  constructor
  · refine ⟨Rust.declarations (mask .rust openInBlock.text), rfl, ?_⟩
    decide +kernel
  · intro closed
    have less := closed.openers_le
    revert less
    decide +kernel

end CodeAtlas
