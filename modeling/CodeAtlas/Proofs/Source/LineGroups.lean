import CodeAtlas.Proofs.Source.LineExtent
import CodeAtlas.Proofs.Source.Shift

/-!
What logical lines are made of.

Joining lines puts them into groups (`Grouped`, `joinLines_groups`): a group starts at a line that
is not blank, and only blank lines stand between groups. So no visible character is lost, and a line
has the number of the first line of its group (`LogicalLine.logical_lines_lossless`).
-/

namespace CodeAtlas

open List Text

/-! ### Line numbers -/

namespace LineMap

/-- A character that is no line feed moves all line starts, and no line. -/
theorem lineOf_other {c : Char} (other : c ≠ '\n') (cs : List Char) (offset : Nat) :
    (ofText (c :: cs)).lineOf (offset + 1 : Nat) = (ofText cs).lineOf offset := by
  have starts : lineStartsFrom 0 (c :: cs) = (lineStartsFrom 0 cs).map (· + 1) := by
    rw [lineStartsFrom, if_neg (by simpa using other), lineStartsFrom_add]
  unfold lineOf ofText
  rw [starts, takeWhile_cons_of_pos (by simp; omega), takeWhile_cons_of_pos (by simp),
    takeWhile_map, length_cons, length_cons, length_map]
  congr 3
  funext start
  simp

/-- A line starts behind the line feed before it. -/
theorem lt_of_mem_lineStartsFrom {pos start : Nat} {cs : List Char}
    (member : start ∈ lineStartsFrom pos cs) : pos < start := by
  fun_induction lineStartsFrom pos cs with
  | case1 => cases member
  | case2 pos c cs _ ih =>
    rcases mem_cons.mp member with rfl | later
    · omega
    · have := ih later
      omega
  | case3 pos c cs _ ih =>
    have := ih member
    omega

theorem lineOf_zero (cs : List Char) : (ofText cs).lineOf (0 : Nat) = 1 := by
  have none : (lineStartsFrom 0 cs).takeWhile
      (fun start : Nat => decide ((start : Int) ≤ (0 : Nat))) = [] := by
    cases starts : lineStartsFrom 0 cs with
    | nil => rfl
    | cons start rest =>
      have := lt_of_mem_lineStartsFrom (starts ▸ mem_cons_self : start ∈ lineStartsFrom 0 cs)
      exact takeWhile_cons_of_neg (by simp; omega)
  rw [lineOf, ofText, takeWhile_cons_of_pos (by simp), none]
  rfl

/-- **The line of an offset is one more than the number of line feeds before it.** -/
theorem lineOf_eq_count (cs : List Char) (offset : Nat) :
    (ofText cs).lineOf offset = 1 + (cs.take offset).count '\n' := by
  induction cs generalizing offset with
  | nil => simp [lineOf, ofText, lineStartsFrom]
  | cons c cs ih =>
    cases offset with
    | zero => simpa using lineOf_zero (c :: cs)
    | succ offset =>
      by_cases feed : c = '\n'
      · rw [feed, lineOf_newline, ih, take_succ_cons, count_cons_self, Nat.add_assoc]
      · rw [lineOf_other feed, ih, take_succ_cons, count_cons_of_ne feed]

end LineMap

/-! ### Visible characters -/

namespace Text

/-- The characters of a text that are not blank. -/
def visible (cs : List Char) : List Char :=
  cs.filter (!isBlank ·)

theorem visible_append (a b : List Char) : visible (a ++ b) = visible a ++ visible b :=
  filter_append a b

theorem visible_blank {cs : List Char} (blank : isAllBlank cs = true) : visible cs = [] := by
  simpa [visible, isAllBlank] using blank

/-- Blank separators show nothing. -/
theorem visible_intercalate {separator : List Char} (blank : isAllBlank separator = true)
    (parts : List (List Char)) :
    visible (separator.intercalate parts) = parts.flatMap visible := by
  induction parts with
  | nil => rfl
  | cons part parts ih =>
    cases parts with
    | nil => simp
    | cons next parts =>
      rw [intercalate_cons_cons, visible_append, visible_append, ih, visible_blank blank]
      simp

/-- Blanks around a text show nothing. -/
theorem visible_trim (cs : List Char) : visible (trim cs) = visible cs := by
  have dropped (cs : List Char) : visible (cs.dropWhile isBlank) = visible cs := by
    induction cs with
    | nil => rfl
    | cons c cs ih => by_cases blank : isBlank c = true <;> simp_all [visible]
  have reversed (cs : List Char) : visible cs.reverse = (visible cs).reverse := by simp [visible]
  rw [trim, trimEnd, dropEndWhile, reversed, dropped, reversed, reverse_reverse, trimStart, dropped]

/-- Nothing is left of a text without its blanks exactly if all of it is blank. -/
theorem isEmpty_trim (cs : List Char) : (trim cs).isEmpty = isAllBlank cs := by
  rw [Bool.eq_iff_iff, List.isEmpty_iff]
  constructor
  · intro none
    have hidden := visible_trim cs
    rw [none] at hidden
    simpa [visible, isAllBlank] using hidden.symm
  · intro blank
    have none : trimStart cs = [] := dropWhile_eq_nil_iff.mpr (by simpa [isAllBlank] using blank)
    simp [trim, trimEnd, dropEndWhile, none]

/-- No part of a text that is cut at line feeds has one. -/
theorem not_mem_splitBy (cs : List Char) : ∀ part ∈ splitBy (· == '\n') cs, '\n' ∉ part := by
  induction cs with
  | nil => simp [splitBy]
  | cons c cs ih =>
    unfold splitBy
    split
    · simpa using ih
    · rename_i other
      have other : '\n' ≠ c := fun same => other (by simp [← same])
      cases parts : splitBy (· == '\n') cs with
      | nil => simp [consFirst, other]
      | cons part parts =>
        rw [parts] at ih
        simpa [consFirst, other] using ih

end Text

/-! ### Physical lines -/

namespace PhysicalLine

/-- A physical line stands where its start says, and its number counts the line feeds before it. -/
theorem ofParts_placed {stop start number : Nat} {parts : List (List Char)}
    (single : ∀ part ∈ parts, '\n' ∉ part) {l : PhysicalLine}
    (member : l ∈ ofParts stop start number parts) : ∃ pre post,
      ['\n'].intercalate parts = pre ++ l.chars ++ post ∧ l.start = start + pre.length ∧
        l.number = number + pre.count '\n' := by
  fun_induction ofParts stop start number parts with
  | case1 => cases member
  | case2 start number part =>
    obtain rfl := mem_singleton.mp member
    exact ⟨[], [], by simp, rfl, rfl⟩
  | case3 => cases member
  | case4 start number part parts some ih =>
    obtain ⟨here, later⟩ := forall_mem_cons.mp single
    have text : ['\n'].intercalate (part :: parts) = part ++ '\n' :: ['\n'].intercalate parts := by
      cases parts with
      | nil => simp at some
      | cons next parts => simp [intercalate_cons_cons]
    rcases mem_cons.mp member with rfl | rest
    · exact ⟨[], _, text, rfl, rfl⟩
    · obtain ⟨pre, post, whole, place, count⟩ := ih later rest
      refine ⟨part ++ '\n' :: pre, post, by simp [text, whole], ?_, ?_⟩
      · simp only [place, length_append, length_cons]
        omega
      · simp only [count, count_append, count_cons_self, count_eq_zero_of_not_mem here]
        omega

/-- Only a last part without characters is left out. -/
theorem visible_ofParts {stop start number : Nat} {parts : List (List Char)}
    (room : start + spaceOf parts = stop + 1) :
    (ofParts stop start number parts).flatMap (visible ·.chars) = parts.flatMap visible := by
  fun_induction ofParts stop start number parts with
  | case1 => rfl
  | case2 start number part => simp
  | case3 start number part full =>
    simp only [spaceOf, map_cons, map_nil, sum_cons, sum_nil] at room
    obtain rfl : part = [] := length_eq_zero_iff.mp (by omega)
    rfl
  | case4 start number part parts some ih =>
    simp only [spaceOf, map_cons, sum_cons] at room ih
    simp [ih (by omega)]

theorem indent_lt_of_shown {l : PhysicalLine} (shown : isAllBlank l.chars = false) :
    l.indent < l.chars.length :=
  indent_lt (by rw [ne_eq, ← List.isEmpty_iff, isEmpty_trim, shown]; simp)

/-- The text of a line that is not blank starts before its end. -/
theorem InOrder.indent_lt_stop {stop start : Nat} {ls : List PhysicalLine} {l : PhysicalLine}
    (order : InOrder stop start ls) (member : l ∈ ls) (shown : isAllBlank l.chars = false) :
    l.start + l.indent < l.stop := by
  induction ls generalizing start with
  | nil => cases member
  | cons first ls ih =>
    obtain ⟨_, room, _, order⟩ := order
    rcases mem_cons.mp member with rfl | later
    · have := indent_lt_of_shown shown
      omega
    · exact ih order later

end PhysicalLine

/-! ### Groups -/

namespace LogicalLine

open PhysicalLine

/-- A logical line that goes on with more lines. -/
def Open.over (o : Open) (more : List PhysicalLine) : Open :=
  more.foldl (fun o l => { o with stop := l.stop, parts := trim l.chars :: o.parts }) o

def Open.ofFirst (l : PhysicalLine) : Open :=
  ⟨l.indent, l.start + l.indent, l.stop, l.number, [trim l.chars]⟩

/-- Lines in groups, each with the first line that is not blank, and blank lines between the
groups. -/
inductive Grouped : List PhysicalLine → List (PhysicalLine × List PhysicalLine) → Prop
  | nil : Grouped [] []
  | blank {l ls groups} : isAllBlank l.chars = true → Grouped ls groups → Grouped (l :: ls) groups
  | group {l more rest groups} : isAllBlank l.chars = false → Grouped rest groups →
      Grouped (l :: (more ++ rest)) ((l, more) :: groups)

def ofGroup (g : PhysicalLine × List PhysicalLine) : LogicalLine :=
  ((Open.ofFirst g.1).over g.2).finish

/-- A line that is taken in goes on with the logical line, or ends it. -/
theorem joinLines_cons {current : Option Open} {l : PhysicalLine} {o : Open}
    (taken : Open.extend? current l = some o) (nesting : Nesting) (ls : List PhysicalLine) :
    (joinLines current nesting (l :: ls)).1 =
      if (nesting.after l.chars).continues l.chars
        then (joinLines (some o) (nesting.after l.chars) ls).1
      else o.finish :: (joinLines none (nesting.after l.chars) ls).1 := by
  rw [joinLines, taken]
  simp only
  split <;> rfl

/-- **Joining lines puts them into groups**, whether or not a logical line is open. By induction on
the lines. -/
theorem joinLines_groups (ls : List PhysicalLine) :
    (∀ nesting, ∃ groups, Grouped ls groups ∧ (joinLines none nesting ls).1 = groups.map ofGroup) ∧
      ∀ nesting o, ∃ more rest groups, ls = more ++ rest ∧ Grouped rest groups ∧
        (joinLines (some o) nesting ls).1 = (o.over more).finish :: groups.map ofGroup := by
  induction ls with
  | nil => exact ⟨fun _ => ⟨[], .nil, rfl⟩, fun _ o => ⟨[], [], [], rfl, .nil, rfl⟩⟩
  | cons l ls ih =>
    obtain ⟨closed, opened⟩ := ih
    -- A line that has been taken in goes on, or ends the logical line.
    have step (nesting : Nesting) (o : Open) :
        ∃ more rest groups, ls = more ++ rest ∧ Grouped rest groups ∧
        (if (nesting.after l.chars).continues l.chars
          then (joinLines (some o) (nesting.after l.chars) ls).1
          else o.finish :: (joinLines none (nesting.after l.chars) ls).1) =
            (o.over more).finish :: groups.map ofGroup := by
      split
      · exact opened _ o
      · obtain ⟨groups, grouped, lines⟩ := closed (nesting.after l.chars)
        exact ⟨[], ls, groups, rfl, grouped, by rw [lines]; rfl⟩
    constructor
    · intro nesting
      cases blank : isAllBlank l.chars with
      | true =>
        obtain ⟨groups, grouped, lines⟩ := closed nesting
        refine ⟨groups, .blank blank grouped, ?_⟩
        rw [joinLines, Open.extend?]
        simpa [isEmpty_trim, blank] using lines
      | false =>
        obtain ⟨more, rest, groups, rfl, grouped, lines⟩ := step nesting (Open.ofFirst l)
        refine ⟨(l, more) :: groups, .group blank grouped, ?_⟩
        have taken : Open.extend? none l = some (Open.ofFirst l) := by
          simp [Open.extend?, isEmpty_trim, blank, Open.ofFirst]
        rw [joinLines_cons taken, lines]
        rfl
    · intro nesting o
      obtain ⟨more, rest, groups, rfl, grouped, lines⟩ :=
        step nesting { o with stop := l.stop, parts := trim l.chars :: o.parts }
      refine ⟨l :: more, rest, groups, rfl, grouped, ?_⟩
      rw [joinLines_cons rfl, lines]
      rfl

/-! ### Lines of a group -/

variable {ls more rest : List PhysicalLine} {groups : List (PhysicalLine × List PhysicalLine)}
  {l : PhysicalLine} {stop start : Nat} {o : Open}

/-- What a logical line that goes on keeps, and what is added to it. -/
theorem over_eq (o : Open) (more : List PhysicalLine) :
    (o.over more).start = o.start ∧ (o.over more).line = o.line ∧
    (o.over more).parts = (more.map (trim ·.chars)).reverse ++ o.parts := by
  induction more generalizing o with
  | nil => exact ⟨rfl, rfl, rfl⟩
  | cons l more ih =>
    obtain ⟨start, line, parts⟩ := ih { o with stop := l.stop, parts := trim l.chars :: o.parts }
    exact ⟨start, line, by rw [Open.over, foldl_cons, ← Open.over, parts]; simp⟩

/-- A logical line shows what its physical lines show. -/
theorem visible_ofGroup (g : PhysicalLine × List PhysicalLine) :
    visible (ofGroup g).text = (g.1 :: g.2).flatMap (visible ·.chars) := by
  have parts : ((Open.ofFirst g.1).over g.2).parts.reverse = (g.1 :: g.2).map (trim ·.chars) := by
    rw [(over_eq _ _).2.2]
    simp [Open.ofFirst]
  have kept (parts : List (List Char)) : (parts.filter (!·.isEmpty)).flatMap visible =
      parts.flatMap visible := by
    induction parts with
    | nil => rfl
    | cons part parts ih => cases part <;> simp_all [visible]
  have text : (ofGroup g).text =
      [' '].intercalate (((g.1 :: g.2).map (trim ·.chars)).filter (!·.isEmpty)) := by
    rw [← parts]
    rfl
  rw [text, visible_intercalate (by decide), kept, flatMap_map]
  simp only [visible_trim]

/-- Nothing that is visible is lost between groups. -/
theorem Grouped.visible_eq (grouped : Grouped ls groups) :
    (groups.map ofGroup).flatMap (visible ·.text) = ls.flatMap (visible ·.chars) := by
  induction grouped with
  | nil => rfl
  | blank blank _ ih => simp [ih, visible_blank blank]
  | group _ _ ih => simp [ih, visible_ofGroup]

/-- A logical line that goes on covers the lines that it takes in. -/
theorem over_covers (order : PhysicalLine.InOrder stop start (more ++ rest)) (le : o.stop ≤ start) :
    o.stop ≤ (o.over more).stop ∧ (∀ l ∈ more, start ≤ l.start ∧ l.stop ≤ (o.over more).stop) ∧
      PhysicalLine.InOrder stop (o.over more).stop rest := by
  induction more generalizing start o with
  | nil => exact ⟨Nat.le_refl _, by simp, order.mono le⟩
  | cons l more ih =>
    obtain ⟨after, room, _, order⟩ := order
    obtain ⟨ends, inside, later⟩ :=
      ih (o := { o with stop := l.stop, parts := trim l.chars :: o.parts }) order (Nat.le_refl _)
    refine ⟨Nat.le_trans (by simp only; omega) ends, ?_, later⟩
    intro l' member
    rcases mem_cons.mp member with rfl | member
    · exact ⟨after, ends⟩
    · exact ⟨by have := (inside l' member).1; omega, (inside l' member).2⟩

/-- A line that is not blank lies in a group, from the start of its text. -/
theorem Grouped.covers (grouped : Grouped ls groups) (order : PhysicalLine.InOrder stop start ls)
    (member : l ∈ ls) (shown : isAllBlank l.chars = false) :
    ∃ L ∈ groups.map ofGroup, L.start ≤ l.start + l.indent ∧ l.stop ≤ L.stop := by
  induction grouped generalizing start with
  | nil => cases member
  | blank blank _ ih =>
    rcases mem_cons.mp member with rfl | later
    · simp [blank] at shown
    · exact ih order.2.2.2 later
  | @group first more rest groups some _ ih =>
    obtain ⟨_, room, _, order⟩ := order
    obtain ⟨ends, inside, order⟩ := over_covers (o := Open.ofFirst first) order (Nat.le_refl _)
    have begins : (ofGroup (first, more)).start = first.start + first.indent := (over_eq _ _).1
    rcases mem_cons.mp member with rfl | member
    · exact ⟨_, mem_cons_self, Nat.le_of_eq begins, ends⟩
    · rcases mem_append.mp member with here | later
      · have := indent_lt_of_shown some
        obtain ⟨after, within⟩ := inside l here
        exact ⟨_, mem_cons_self, by omega, within⟩
      · obtain ⟨L, known, extent⟩ := ih order later
        exact ⟨L, mem_cons_of_mem _ known, extent⟩

/-- The first line of a group is one of the lines. -/
theorem Grouped.first_mem (grouped : Grouped ls groups) {g : PhysicalLine × List PhysicalLine}
    (member : g ∈ groups) : g.1 ∈ ls := by
  induction grouped with
  | nil => cases member
  | blank _ _ ih => exact mem_cons_of_mem _ (ih member)
  | group _ _ ih =>
    rcases mem_cons.mp member with rfl | later
    · exact mem_cons_self
    · exact mem_cons_of_mem _ (mem_append_right _ (ih later))

variable {lines : List LogicalLine} {L L' : LogicalLine}

theorem InOrder.start_le (order : InOrder stop start lines) (member : L ∈ lines) :
    start ≤ L.start := by
  induction lines generalizing start with
  | nil => cases member
  | cons line lines ih =>
    obtain ⟨after, some, _, order⟩ := order
    rcases mem_cons.mp member with rfl | later
    · exact after
    · have := ih order later
      omega

/-- Lines in order do not overlap. -/
theorem InOrder.apart (order : InOrder stop start lines) (member : L ∈ lines)
    (member' : L' ∈ lines) :
    L = L' ∨ L.stop ≤ L'.start ∨ L'.stop ≤ L.start := by
  induction lines generalizing start with
  | nil => cases member
  | cons line lines ih =>
    obtain ⟨_, _, _, order⟩ := order
    rcases mem_cons.mp member with rfl | later <;> rcases mem_cons.mp member' with rfl | later'
    · exact .inl rfl
    · exact .inr (.inl (order.start_le later'))
    · exact .inr (.inr (order.start_le later))
    · exact ih order later later'

end LogicalLine

/-! ### The lines of a stretch -/

variable {text : List Char} {start stop : Nat}

/-- The physical lines of a stretch show all that is visible in it. -/
theorem PhysicalLine.visible_within (le : start ≤ stop) (inside : stop ≤ text.length) :
    (within text start stop).flatMap (visible ·.chars) = visible ((text.take stop).drop start) := by
  have length : ((text.take stop).drop start).length = stop - start := by
    rw [length_drop, length_take]
    omega
  have parts : ['\n'].intercalate (Text.splitBy (· == '\n') ((text.take stop).drop start)) =
      (text.take stop).drop start := by
    rw [splitBy_eq_splitOnP, ← splitOn_eq_splitOnP, intercalate_splitOn]
  have room : start + spaceOf (Text.splitBy (· == '\n') ((text.take stop).drop start)) =
      stop + 1 := by
    rw [spaceOf_splitBy, length]
    omega
  have feed : isAllBlank ['\n'] = true := by decide
  rw [within, visible_ofParts room, ← visible_intercalate feed, parts]

/-- The number of a physical line is the line of the start of its text. -/
theorem PhysicalLine.number_within (le : start ≤ stop) (inside : stop ≤ text.length)
    {l : PhysicalLine} (member : l ∈ within text start stop) :
    l.number = (LineMap.ofText text).lineOf (l.start + l.indent : Nat) := by
  obtain ⟨pre, post, whole, place, number⟩ := ofParts_placed (Text.not_mem_splitBy _) member
  rw [splitBy_eq_splitOnP, ← splitOn_eq_splitOnP, intercalate_splitOn] at whole
  have front : text.take (l.start + l.indent) =
      text.take start ++ pre ++ l.chars.take l.indent := by
    have short : l.indent ≤ l.chars.length := List.IsPrefix.length_le <| takeWhile_prefix _
    have before : text.take start = (text.take stop).take start := by
      rw [take_take, Nat.min_eq_left le]
    have split : text = text.take start ++ pre ++ l.chars.take l.indent ++
        (l.chars.drop l.indent ++ post ++ text.drop stop) := by
      calc text = text.take start ++ (text.take stop).drop start ++ text.drop stop := by
            rw [before, take_append_drop, take_append_drop]
        _ = text.take start ++ (pre ++ (l.chars.take l.indent ++ l.chars.drop l.indent) ++ post) ++
              text.drop stop := by
            rw [whole, take_append_drop]
        _ = _ := by simp only [append_assoc]
    have length : (text.take start ++ pre ++ l.chars.take l.indent).length =
        l.start + l.indent := by
      simp only [length_append, length_take, place]
      omega
    conv_lhs => rw [split]
    exact take_left' length
  have blank : (l.chars.take l.indent).count '\n' = 0 := by
    apply count_eq_zero_of_not_mem
    have padding := takeWhile_prefix (fun c => c == ' ' || c == '\t') (l := l.chars)
    rw [indent, ← prefix_iff_eq_take.mp padding]
    intro member
    simpa using mem_takeWhile_imp member
  rw [LineMap.lineOf_eq_count, front, count_append, count_append, blank, number]
  omega

/-- **Logical lines lose nothing.** They stand in order in their stretch. Each physical line that is
not blank lies in exactly one of them, with all that stands behind its indentation. They show the
visible characters of the stretch in their order, and their numbers are those of the line map, which
counts line feeds. -/
theorem LogicalLine.logical_lines_lossless (text : List Char) {start stop : Nat} (le : start ≤ stop)
    (inside : stop ≤ text.length) :
    let lines := (within text start stop).1
    InOrder stop start lines ∧
      (∀ l ∈ PhysicalLine.within text start stop, isAllBlank l.chars = false →
        ∃! L, L ∈ lines ∧ L.start ≤ l.start + l.indent ∧ l.stop ≤ L.stop) ∧
      visible (lines.flatMap (·.text)) = visible ((text.take stop).drop start) ∧
      (∀ L ∈ lines, L.line = (LineMap.ofText text).lineOf L.start) ∧
      ∀ offset : Nat, (LineMap.ofText text).lineOf offset = 1 + (text.take offset).count '\n' := by
  obtain ⟨groups, grouped, lines⟩ := (joinLines_groups (PhysicalLine.within text start stop)).1 {}
  have lines : (within text start stop).1 = groups.map ofGroup := lines
  have order := within_inOrder text start stop
  have order' := PhysicalLine.within_inOrder text start stop
  intro ls
  refine ⟨order, ?_, ?_, ?_, LineMap.lineOf_eq_count text⟩
  · intro l member shown
    obtain ⟨L, known, begins, ends⟩ := grouped.covers order' member shown
    rw [← lines] at known
    refine ⟨L, ⟨known, begins, ends⟩, ?_⟩
    rintro L' ⟨known', begins', ends'⟩
    have some : l.start + l.indent < l.stop := order'.indent_lt_stop member shown
    have := order.apart known known'
    rcases this with same | before | after
    · exact same.symm
    · omega
    · omega
  · have each : visible (ls.flatMap (·.text)) = ls.flatMap (visible ·.text) := filter_flatMap ..
    rw [each, show ls = _ from lines, grouped.visible_eq, PhysicalLine.visible_within le inside]
  · intro L member
    rw [show ls = _ from lines] at member
    obtain ⟨g, known, rfl⟩ := mem_map.mp member
    have begins : (ofGroup g).start = g.1.start + g.1.indent := (over_eq _ _).1
    have number : (ofGroup g).line = g.1.number := (over_eq _ _).2.1
    rw [number, begins, PhysicalLine.number_within le inside (grouped.first_mem known)]

/-- A call over three lines, one of them blank, below a blank line. -/
theorem LogicalLine.logical_lines_lossless_call :
    let text := "\n f(1,\n\n  2)\ng".toList
    0 ≤ 14 ∧ 14 ≤ text.length ∧
      (within text 0 14).1 = [⟨1, 2, 12, 2, "f(1, 2)".toList⟩, ⟨0, 13, 14, 5, "g".toList⟩] ∧
      visible ((within text 0 14).1.flatMap (·.text)) = visible ((text.take 14).drop 0) :=
  ⟨by decide, by decide, by decide, (logical_lines_lossless _ (by decide) (by decide)).2.2.1⟩

end CodeAtlas
