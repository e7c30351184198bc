import CodeAtlas.Proofs.Json.NumberText
import CodeAtlas.Proofs.Json.StringText

/-!
The text of a value is read back as that value.

Objects are written with their fields in the order of their names, so what comes back is the value
with all fields in that order (`sorted`). Not every value can be stored: `Storable` leaves out the
numbers that have no text of their own and objects that have a name twice.

* `list_parts` reads what stands between brackets, given that each part is read back (`ReadsPart`).
  It is an induction over the list of parts, for items and for fields.
* `readsAs_render` puts them together by induction over the value; the fuel it needs is bounded by
  the length of the text.
* `parse_render` is the result, for both layouts.
-/

namespace CodeAtlas.Json

open List

variable {α : Type} {c : Char} {blanks rest text cs : List Char} {fuel : Nat}
  {members : List (String × Json)} {items : List Json} {v : Json} {read : Json → Json}

/-! ### Values that can be stored -/

inductive Storable : Json → Prop
  | null : Storable null
  | bool (b : Bool) : Storable (bool b)
  | int {n : Int} : IsShort n → Storable (int n)
  | float {x : Binary64} : x.IsFinite → Storable (float x)
  | str (s : String) : Storable (str s)
  | arr {items : List Json} : (∀ v ∈ items, Storable v) → Storable (arr items)
  | obj {members : List (String × Json)} : (members.map Prod.fst).Nodup →
      (∀ m ∈ members, Storable m.2) → Storable (obj members)

mutual

/-- The value with the fields of all objects in the order of their names. -/
def sorted : Json → Json
  | null => null
  | bool b => bool b
  | int n => int n
  | float x => float x
  | str s => str s
  | arr items => arr (sortedItems items)
  | obj members => obj (sortFields (sortedFields members))

def sortedItems : List Json → List Json
  | [] => []
  | v :: vs => sorted v :: sortedItems vs

def sortedFields : List (String × Json) → List (String × Json)
  | [] => []
  | (name, v) :: rest => (name, sorted v) :: sortedFields rest

end

theorem sortedItems_eq_map (items : List Json) : sortedItems items = items.map sorted := by
  induction items with
  | nil => rfl
  | cons v vs ih => rw [sortedItems, ih, map_cons]

theorem sortedFields_eq_map (members : List (String × Json)) :
    sortedFields members = members.map fun m => (m.1, m.2.sorted) := by
  induction members with
  | nil => rfl
  | cons m rest ih => rw [sortedFields, ih, map_cons]

theorem renderItems_eq_map (layout : Layout) (depth : Nat) (items : List Json) :
    renderItems layout depth items = items.map (render layout depth) := by
  induction items with
  | nil => rfl
  | cons v vs ih => rw [renderItems, ih, map_cons]

theorem renderFields_eq_map (layout : Layout) (depth : Nat) (members : List (String × Json)) :
    renderFields layout depth members = members.map fun m => (m.1, render layout depth m.2) := by
  induction members with
  | nil => rfl
  | cons m rest ih => rw [renderFields, ih, map_cons]

/-- Sorting by name does not see the values. -/
theorem sortFields_map {β : Type} (f : α → β) (members : List (String × α)) :
    sortFields (members.map fun m => (m.1, f m.2)) = (sortFields members).map fun m =>
      (m.1, f m.2) := by
  rw [sortFields, sortFields, map_mergeSort]
  intro a _ b _
  rfl

/-- An object with its fields in order, at every depth. -/
theorem sorted_obj (members : List (String × Json)) :
    (obj members).sorted = obj ((sortFields members).map fun m => (m.1, m.2.sorted)) := by
  rw [sorted, sortedFields_eq_map, sortFields_map]

/-! ### Blanks -/

/-- A character that is no blank is where reading goes on. -/
theorem skipSpace_of_not_space (h : isSpace c = false) (rest : List Char) :
    skipSpace (c :: rest) = c :: rest := by
  rw [skipSpace, dropWhile_cons_of_neg (by simp [h])]

theorem skipSpace_append (hblanks : ∀ c ∈ blanks, isSpace c = true)
    (h : isSpace c = false) (rest : List Char) : skipSpace (blanks ++ c :: rest) = c :: rest := by
  rw [skipSpace, dropWhile_append_of_pos hblanks]
  exact skipSpace_of_not_space h rest

/-- What starts a line of a layout are blanks. -/
theorem isSpace_lineStart (layout : Layout) (depth : Nat) :
    ∀ c ∈ (layout.lineStart depth).toList, isSpace c = true := by
  intro c hc
  cases layout with
  | inline => simp [Layout.lineStart] at hc
  | indented =>
    simp only [Layout.lineStart, String.toList_append, String.toList_ofList, mem_append] at hc
    rcases hc with hc | hc
    · rw [mem_singleton.mp hc]
      rfl
    · rw [eq_of_mem_replicate hc]
      rfl

/-- What stands between two items: a comma and blanks. -/
theorem toList_separator (layout : Layout) (depth : Nat) :
    ∃ blanks, (layout.separator depth).toList = ',' :: blanks ∧ ∀ c ∈ blanks, isSpace c = true := by
  cases layout with
  | inline => exact ⟨[' '], by simp [Layout.separator], by simp [isSpace]⟩
  | indented =>
    refine ⟨(Layout.lineStart .indented depth).toList, ?_, isSpace_lineStart .indented depth⟩
    rw [Layout.separator, String.toList_append]
    rfl

/-! ### The steps of the reader -/

section Steps

variable {fuel : Nat} {cs rest rest' rest'' : List Char} {v : Json} {vs : List Json} {name : String}
  {ms : List (String × Json)}

theorem itemList_last (hv : value fuel cs = .ok (v, rest))
    (closes : skipSpace rest = ']' :: rest') :
    itemList (fuel + 1) cs = .ok ([v], rest') := by
  simp only [itemList, hv, bind, Except.bind, closes]
  rfl

theorem itemList_more (hv : value fuel cs = .ok (v, rest)) (goesOn : skipSpace rest = ',' :: rest')
    (later : itemList fuel (skipSpace rest') = .ok (vs, rest'')) :
    itemList (fuel + 1) cs = .ok (v :: vs, rest'') := by
  simp only [itemList, hv, bind, Except.bind, goesOn, later]
  rfl

section

variable (hname : string fuel cs = .ok (name, ':' :: rest))
  (hv : value fuel (skipSpace rest) = .ok (v, rest'))
include hname hv

theorem fieldList_last (closes : skipSpace rest' = '}' :: rest'') :
    fieldList (fuel + 1) ('"' :: cs) = .ok ([(name, v)], rest'') := by
  have colon : skipSpace (':' :: rest) = ':' :: rest := skipSpace_of_not_space rfl rest
  simp only [fieldList, hname, bind, Except.bind, colon, hv, closes]
  rfl

theorem fieldList_more (goesOn : skipSpace rest' = ',' :: rest'')
    {rest₃ : List Char} (later : fieldList fuel (skipSpace rest'') = .ok (ms, rest₃)) :
    fieldList (fuel + 1) ('"' :: cs) = .ok ((name, v) :: ms, rest₃) := by
  have colon : skipSpace (':' :: rest) = ':' :: rest := skipSpace_of_not_space rfl rest
  simp only [fieldList, hname, bind, Except.bind, colon, hv, goesOn, later]
  rfl

end

theorem value_str (hs : string fuel cs = .ok (name, rest)) :
    value (fuel + 1) ('"' :: cs) = .ok (.str name, rest) := by
  simp only [value, hs, bind, Except.bind]
  rfl

end Steps

/-! ### What stands between brackets -/

theorem stops_cons (noDigit : c.isDigit = false) (noPoint : c ≠ '.') (small : c ≠ 'e')
    (large : c ≠ 'E') (rest : List Char) : Stops (c :: rest) := by
  intro d first
  obtain rfl := Option.some.inj first
  exact ⟨noDigit, noPoint, small, large⟩

/-- A number may end before blanks if it may end behind them. -/
theorem stops_append (hblanks : ∀ c ∈ blanks, isSpace c = true)
    (stops : Stops rest) : Stops (blanks ++ rest) := by
  cases blanks with
  | nil => exact stops
  | cons c blanks =>
    have blank := hblanks c mem_cons_self
    simp only [isSpace, Bool.or_eq_true, beq_iff_eq] at blank
    rcases blank with ((rfl | rfl) | rfl) | rfl <;>
      exact stops_cons rfl (by decide) (by decide) (by decide) _

/-- A text that is read back as a value when it stands anywhere that a value may end. -/
def ReadsAs (text : List Char) (v : Json) : Prop :=
  ∀ fuel rest, Stops rest → 2 * text.length ≤ fuel → value fuel (text ++ rest) = .ok (v, rest)

/-- The text of an item does not start with a blank, does not close the array, and has no byte order
mark. -/
def StartsItem (text : List Char) : Prop :=
  ∃ c tail, text = c :: tail ∧ isSpace c = false ∧ c ∉ [']', '\ufeff']

theorem startsItem_intercalate (separator : List Char) (starts : StartsItem text)
    (texts : List (List Char)) (rest : List Char) :
    StartsItem (separator.intercalate (text :: texts) ++ rest) := by
  obtain ⟨c, tail, rfl, shown, opens⟩ := starts
  rw [intercalate_cons_cons_left, cons_append]
  exact ⟨c, _, rfl, shown, opens⟩

theorem skipSpace_startsItem (hblanks : ∀ c ∈ blanks, isSpace c = true)
    (starts : StartsItem text) : skipSpace (blanks ++ text) = text := by
  obtain ⟨c, tail, rfl, shown, -⟩ := starts
  exact skipSpace_append hblanks shown tail

def fieldText (name : String) (text : List Char) : List Char :=
  '"' :: (name.toList.flatMap escapeChar ++ '"' :: ':' :: ' ' :: text)

theorem startsItem_fieldText (name : String) (text : List Char) :
    StartsItem (fieldText name text) :=
  ⟨'"', _, rfl, rfl, by decide⟩

theorem string_fieldText (name : String) (text rest : List Char)
    (enough : (fieldText name text).length < fuel) :
    ∃ cs, fieldText name text ++ rest = '"' :: cs ∧ string fuel cs =
      .ok (name, ':' :: ' ' :: (text ++ rest)) := by
  have long := length_le_escaped name.toList
  simp only [fieldText, length_cons, length_append] at enough
  refine ⟨name.toList.flatMap escapeChar ++ '"' :: ':' :: ' ' :: (text ++ rest), ?_, ?_⟩
  · simp [fieldText]
  · exact string_escaped name (by omega) _

/-- A closing bracket: no blank, and a number may end in front of it. -/
def IsCloser (closer : Char) : Prop :=
  isSpace closer = false ∧ ∀ rest, Stops (closer :: rest)

theorem isCloser_square : IsCloser ']' :=
  ⟨rfl, stops_cons (c := ']') rfl (by decide) (by decide) (by decide)⟩

theorem isCloser_curly : IsCloser '}' :=
  ⟨rfl, stops_cons (c := '}') rfl (by decide) (by decide) (by decide)⟩

/-- A text that a list reader takes as one part, both where the list closes behind it and where it
goes on. -/
def ReadsPart {β : Type} (list : Nat → List Char → Except JsonFault (List β × List Char))
    (closer : Char) (text : List Char) (part : β) : Prop :=
  ∀ fuel rest rest', Stops rest → 2 * text.length ≤ fuel →
    (skipSpace rest = closer :: rest' → list (fuel + 1) (text ++ rest) = .ok ([part], rest')) ∧
    ∀ parts rest'', skipSpace rest = ',' :: rest' → list fuel (skipSpace rest') =
      .ok (parts, rest'') →
      list (fuel + 1) (text ++ rest) = .ok (part :: parts, rest'')

theorem readsPart_item (reads : ReadsAs text v) : ReadsPart itemList ']' text v := by
  intro fuel rest rest' stops enough
  have first := reads fuel rest stops enough
  exact ⟨itemList_last first, fun parts rest'' => itemList_more first⟩

/-- A name with a value is a part of an object. -/
theorem readsPart_field (name : String) (starts : StartsItem text) (reads : ReadsAs text v) :
    ReadsPart fieldList '}' (fieldText name text) (name, v) := by
  intro fuel rest rest' stops enough
  have short : 2 * text.length + 8 ≤ 2 * (fieldText name text).length := by
    simp only [fieldText, length_cons, length_append]
    omega
  have blank : skipSpace (' ' :: (text ++ rest)) = text ++ rest := by
    obtain ⟨c, more, rfl, shown, -⟩ := starts
    exact skipSpace_append (show ∀ c ∈ [' '], isSpace c = true by simp [isSpace]) shown _
  have first := reads fuel rest stops (by omega)
  rw [← blank] at first
  obtain ⟨cs, same, named⟩ :=
    string_fieldText name text rest (show (fieldText name text).length < fuel by omega)
  rw [same]
  exact ⟨fieldList_last named first, fun parts rest'' goesOn later =>
    fieldList_more named first goesOn later⟩

section Brackets

variable {separator between closing : List Char} (hseparator : separator = ',' :: between)
  (hbetween : ∀ c ∈ between, isSpace c = true) (hclosing : ∀ c ∈ closing, isSpace c = true)
  {fuel : Nat}

include hseparator hbetween hclosing

/-- **What stands between brackets is read back**, one part after the other. -/
theorem list_parts {β : Type} {list : Nat → List Char → Except JsonFault (List β × List Char)}
    {closer : Char} (closes : IsCloser closer) (text : α → List Char) (part : α → β) (xs : List α)
    (nonempty : xs ≠ []) (starts : ∀ x ∈ xs, StartsItem (text x))
    (reads : ∀ x ∈ xs, ReadsPart list closer (text x) (part x)) (rest : List Char)
    (enough : 2 * (separator.intercalate (xs.map text)).length + 1 ≤ fuel) :
    list fuel (separator.intercalate (xs.map text) ++ (closing ++ closer :: rest)) =
      .ok (xs.map part, rest) := by
  induction xs generalizing fuel with
  | nil => exact absurd rfl nonempty
  | cons x xs ih =>
    obtain ⟨fuel, rfl⟩ := Nat.exists_eq_add_one.mpr (Nat.zero_lt_of_lt enough)
    have first := reads x mem_cons_self
    cases xs with
    | nil =>
      rw [map_singleton, intercalate_singleton] at enough ⊢
      have stops := stops_append hclosing (closes.2 rest)
      exact (first fuel _ rest stops (by omega)).1 (skipSpace_append hclosing closes.1 rest)
    | cons y ys =>
      let later := separator.intercalate ((y :: ys).map text)
      let tail := between ++ (later ++ (closing ++ closer :: rest))
      have longer : separator.intercalate ((x :: y :: ys).map text) =
          text x ++ separator ++ later :=
        intercalate_cons_cons
      rw [longer] at enough ⊢
      rw [hseparator, length_append, length_append, length_cons] at enough
      have goesOn : skipSpace tail = later ++ (closing ++ closer :: rest) :=
        skipSpace_startsItem hbetween (startsItem_intercalate separator (starts y (by simp)) _ _)
      have others : list fuel (later ++ (closing ++ closer :: rest)) =
          .ok ((y :: ys).map part, rest) :=
        ih (cons_ne_nil y ys) (fun z hz => starts z (mem_cons_of_mem x hz))
          (fun z hz => reads z (mem_cons_of_mem x hz))
            (by change 2 * later.length + 1 ≤ fuel; omega)
      rw [← goesOn] at others
      have all :=
        (first fuel (',' :: tail) tail (stops_cons rfl (by decide) (by decide) (by decide) _)
        (by omega)).2 _ _ (skipSpace_of_not_space rfl _) others
      rw [hseparator]
      simpa [tail] using all

end Brackets

/-! ### Objects -/

theorem setField_of_not_mem {name : String} (value : Json)
    (new : name ∉ members.map Prod.fst) :
    setField name value members = members ++ [(name, value)] := by
  induction members with
  | nil => rfl
  | cons m rest ih =>
    rw [map_cons, mem_cons, not_or] at new
    rw [setField, if_neg (by simpa using Ne.symm new.1), ih new.2]
    rfl

/-- Fields with different names are collected as they are. -/
theorem collectFields_of_nodup (distinct : (members.map Prod.fst).Nodup) :
    collectFields members = members := by
  have collect : ∀ acc : List (String × Json), ((acc ++ members).map Prod.fst).Nodup →
      members.foldl (fun acc m => setField m.1 m.2 acc) acc = acc ++ members := by
    clear distinct
    induction members with
    | nil => simp
    | cons m rest ih =>
      intro acc distinct
      obtain ⟨name, v⟩ := m
      have new : name ∉ acc.map Prod.fst := by
        intro old
        rw [map_append, map_cons, nodup_append] at distinct
        exact distinct.2.2 name old name mem_cons_self rfl
      rw [foldl_cons]
      dsimp only
      rw [setField_of_not_mem v new, ih _ (by simpa using distinct), append_assoc]
      rfl
  exact collect [] distinct

theorem sortFields_perm (members : List (String × α)) : (sortFields members).Perm members :=
  mergeSort_perm _ _

theorem nodup_sortFields {members : List (String × α)}
    (distinct : (members.map Prod.fst).Nodup) : ((sortFields members).map Prod.fst).Nodup :=
  ((sortFields_perm members).map Prod.fst).nodup_iff.mpr distinct

/-! ### Values -/

theorem toList_quote (s : String) :
    (quote s).toList = '"' :: (s.toList.flatMap escapeChar ++ ['"']) := by
  rw [quote, String.toList_ofList]
  rfl

/-- The text of parts between brackets: the parts are joined by separators, with a line start at
each end. -/
theorem toList_bracketed (layout : Layout) (depth : Nat) (opening closing : String)
    {parts : List String} (nonempty : parts ≠ []) :
    (bracketed layout depth opening closing parts).toList =
      opening.toList ++ ((layout.lineStart (depth + 1)).toList ++
        ((layout.separator (depth + 1)).toList.intercalate (parts.map String.toList) ++
          ((layout.lineStart depth).toList ++ closing.toList))) := by
  rw [bracketed, if_neg (by simpa using nonempty)]
  simp

theorem value_noItems (fuel : Nat) (rest : List Char) :
    value (fuel + 1) ('[' :: ']' :: rest) = .ok (.arr [], rest) := by
  rw [value, skipSpace_of_not_space rfl]
  rfl

theorem value_noFields (fuel : Nat) (rest : List Char) :
    value (fuel + 1) ('{' :: '}' :: rest) = .ok (.obj [], rest) := by
  rw [value, skipSpace_of_not_space rfl]
  rfl

theorem value_items (begins : skipSpace cs = text) (starts : StartsItem text)
    (read : itemList fuel text = .ok (items, rest)) :
    value (fuel + 1) ('[' :: cs) = .ok (.arr items, rest) := by
  obtain ⟨c, tail, rfl, -, opens⟩ := starts
  rw [value, begins]
  split
  · rename_i same
    exact absurd mem_cons_self ((cons.inj same).1 ▸ opens)
  · rw [read]
    rfl

theorem value_fields (begins : skipSpace cs = '"' :: text)
    (read : fieldList fuel ('"' :: text) = .ok (members, rest))
    (distinct : (members.map Prod.fst).Nodup) :
    value (fuel + 1) ('{' :: cs) = .ok (.obj members, rest) := by
  rw [value, begins]
  show (fieldList fuel ('"' :: text) >>= fun p => pure (obj (collectFields p.1), p.2)) = _
  rw [read]
  exact congrArg (fun members => Except.ok (obj members, rest)) (collectFields_of_nodup distinct)

theorem value_scalar (notString : c ≠ '"') (notObject : c ≠ '{') (notArray : c ≠ '[')
    (fuel : Nat) (cs : List Char) : value (fuel + 1) (c :: cs) = scalar (c :: cs) := by
  rw [value]
  · exact fun _ same => notString (cons.inj same).1
  · exact fun _ same => notObject (cons.inj same).1
  · exact fun _ same => notArray (cons.inj same).1

theorem StartsNumber.value (starts : StartsNumber cs) (fuel : Nat) :
    value (fuel + 1) cs = scalar cs := by
  obtain ⟨negative, c, tail, rfl, digit⟩ := starts
  cases negative with
  | true => exact value_scalar (by decide) (by decide) (by decide) fuel _
  | false =>
    refine value_scalar ?_ ?_ ?_ fuel tail <;>
      · rintro rfl
        cases digit

theorem StartsNumber.startsItem (starts : StartsNumber cs) : StartsItem cs := by
  obtain ⟨negative, c, tail, rfl, digit⟩ := starts
  cases negative with
  | true => exact ⟨'-', _, rfl, rfl, by decide⟩
  | false =>
    have differs : ∀ d, d.isDigit = false → c ≠ d := by
      rintro d noDigit rfl
      rw [digit] at noDigit
      cases noDigit
    refine ⟨c, tail, rfl, ?_, by simp [differs ']' rfl, differs '\ufeff' rfl]⟩
    simp [isSpace, differs ' ' rfl, differs '\t' rfl, differs '\n' rfl, differs '\r' rfl]

/-- A word that is read as a scalar is read back. -/
theorem readsAs_word {tail : List Char} (notString : c ≠ '"') (notObject : c ≠ '{')
    (notArray : c ≠ '[') (read : ∀ rest, scalar (c :: tail ++ rest) = .ok (v, rest)) :
    ReadsAs (c :: tail) v := by
  intro fuel rest _ enough
  rw [length_cons] at enough
  obtain ⟨fuel, rfl⟩ := Nat.exists_eq_add_one.mpr (show 0 < fuel by omega)
  exact (value_scalar notString notObject notArray fuel _).trans (read rest)

theorem readsAs_number (starts : ∀ rest, StartsNumber (text ++ rest))
    (read : ∀ rest, Stops rest → scalar (text ++ rest) = .ok (v, rest)) : ReadsAs text v := by
  intro fuel rest stops enough
  have nonempty : 0 < text.length := by
    obtain ⟨c, tail, same, -⟩ := (starts []).startsItem
    rw [append_nil] at same
    rw [same]
    exact Nat.zero_lt_succ _
  obtain ⟨fuel, rfl⟩ := Nat.exists_eq_add_one.mpr (show 0 < fuel by omega)
  exact ((starts rest).value fuel).trans (read rest stops)

theorem readsAs_quote (s : String) : ReadsAs (quote s).toList (.str s) := by
  intro fuel rest _ enough
  have long := length_le_escaped s.toList
  rw [toList_quote] at enough ⊢
  rw [length_cons, length_append, length_singleton] at enough
  obtain ⟨fuel, rfl⟩ := Nat.exists_eq_add_one.mpr (show 0 < fuel by omega)
  have read := string_escaped s (show s.toList.length < fuel by omega) rest
  simpa using value_str read

/-- An array is read back if its items are. -/
theorem readsAs_items (layout : Layout) (depth : Nat) {text : Json → String}
    (starts : ∀ v ∈ items, StartsItem (text v).toList)
    (reads : ∀ v ∈ items, ReadsAs (text v).toList (read v)) :
    StartsItem (bracketed layout depth "[" "]" (items.map text)).toList ∧
      ReadsAs (bracketed layout depth "[" "]" (items.map text)).toList (.arr (items.map read)) := by
  by_cases nonempty : items = []
  · subst nonempty
    have brackets : (bracketed layout depth "[" "]" ([].map text)).toList = ['[', ']'] := by
      simp [bracketed]
    rw [brackets]
    refine ⟨⟨'[', [']'], rfl, rfl, by decide⟩, fun fuel rest _ enough => ?_⟩
    obtain ⟨fuel, rfl⟩ := Nat.exists_eq_add_one.mpr (Nat.zero_lt_of_lt enough)
    exact value_noItems fuel rest
  · let separator := (layout.separator (depth + 1)).toList
    let inside := separator.intercalate (items.map fun v => (text v).toList)
    let opening := (layout.lineStart (depth + 1)).toList
    let closing := (layout.lineStart depth).toList
    have brackets : (bracketed layout depth "[" "]" (items.map text)).toList =
        '[' :: (opening ++ (inside ++ (closing ++ [']']))) := by
      rw [toList_bracketed layout depth "[" "]" (by simpa using nonempty), map_map]
      rfl
    rw [brackets]
    refine ⟨⟨'[', _, rfl, rfl, by decide⟩, fun fuel rest _ enough => ?_⟩
    obtain ⟨between, hseparator, hbetween⟩ := toList_separator layout (depth + 1)
    have first : StartsItem (inside ++ (closing ++ ']' :: rest)) := by
      obtain ⟨v, vs, rfl⟩ := exists_cons_of_ne_nil nonempty
      exact startsItem_intercalate separator (starts v mem_cons_self) _ _
    simp only [length_cons, length_append] at enough
    obtain ⟨fuel, rfl⟩ := Nat.exists_eq_add_one.mpr (show 0 < fuel by omega)
    have read' := list_parts hseparator hbetween (isSpace_lineStart layout depth) isCloser_square
      (fun v => (text v).toList) read items nonempty starts
      (fun v mem => readsPart_item (reads v mem)) rest (show 2 * inside.length + 1 ≤ fuel by omega)
    simpa using value_items (skipSpace_startsItem (isSpace_lineStart layout (depth + 1)) first)
      first read'

/-- An object is read back if its values are, and its names are different. -/
theorem readsAs_fields (layout : Layout) (depth : Nat) {text : Json → String}
    (distinct : (members.map Prod.fst).Nodup) (starts : ∀ m ∈ members, StartsItem (text m.2).toList)
    (reads : ∀ m ∈ members, ReadsAs (text m.2).toList (read m.2)) :
    StartsItem (objectText layout depth (members.map fun m => (m.1, text m.2))).toList ∧
      ReadsAs (objectText layout depth (members.map fun m => (m.1, text m.2))).toList
        (.obj (members.map fun m => (m.1, read m.2))) := by
  by_cases nonempty : members = []
  · subst nonempty
    have brackets :
        (objectText layout depth ([].map fun m : String × Json => (m.1, text m.2))).toList =
        ['{', '}'] := by simp [objectText, bracketed]
    rw [brackets]
    refine ⟨⟨'{', ['}'], rfl, rfl, by decide⟩, fun fuel rest _ enough => ?_⟩
    obtain ⟨fuel, rfl⟩ := Nat.exists_eq_add_one.mpr (Nat.zero_lt_of_lt enough)
    exact value_noFields fuel rest
  · let separator := (layout.separator (depth + 1)).toList
    let inside := separator.intercalate (members.map fun m => fieldText m.1 (text m.2).toList)
    let opening := (layout.lineStart (depth + 1)).toList
    let closing := (layout.lineStart depth).toList
    have brackets : (objectText layout depth (members.map fun m => (m.1, text m.2))).toList =
        '{' :: (opening ++ (inside ++ (closing ++ ['}']))) := by
      rw [objectText, toList_bracketed layout depth _ _ (by simpa using nonempty)]
      simp [inside, separator, opening, closing, fieldText, toList_quote, Function.comp_def]
    rw [brackets]
    refine ⟨⟨'{', _, rfl, rfl, by decide⟩, fun fuel rest _ enough => ?_⟩
    obtain ⟨between, hseparator, hbetween⟩ := toList_separator layout (depth + 1)
    obtain ⟨tail, first⟩ : ∃ tail, inside ++ (closing ++ '}' :: rest) = '"' :: tail := by
      obtain ⟨m, ms, rfl⟩ := exists_cons_of_ne_nil nonempty
      exact ⟨_, congrArg (· ++ (closing ++ '}' :: rest)) intercalate_cons_cons_left⟩
    simp only [length_cons, length_append] at enough
    obtain ⟨fuel, rfl⟩ := Nat.exists_eq_add_one.mpr (show 0 < fuel by omega)
    have read' := list_parts hseparator hbetween (isSpace_lineStart layout depth) isCloser_curly
      (fun m : String × Json => fieldText m.1 (text m.2).toList) (fun m => (m.1, read m.2))
        members nonempty
      (fun m _ => startsItem_fieldText m.1 (text m.2).toList)
      (fun m mem => readsPart_field m.1 (starts m mem) (reads m mem)) rest
      (show 2 * inside.length + 1 ≤ fuel by omega)
    have begins : skipSpace (opening ++ '"' :: tail) = '"' :: tail :=
      skipSpace_append (isSpace_lineStart layout (depth + 1)) rfl tail
    have all := value_fields begins (first ▸ read') (by simpa [Function.comp_def] using distinct)
    rw [← first] at all
    simpa using all

/-- **Every value that can be stored is read back** with its fields in order, in either layout and
at any depth. -/
theorem readsAs_render (h : Storable v) (layout : Layout) (depth : Nat) :
    StartsItem (render layout depth v).toList ∧
      ReadsAs (render layout depth v).toList v.sorted := by
  induction h generalizing depth with
  | null =>
    have text : (render layout depth null).toList = ['n', 'u', 'l', 'l'] := by rw [render]; rfl
    rw [text, sorted]
    exact ⟨⟨'n', _, rfl, rfl, by decide⟩,
      readsAs_word (by decide) (by decide) (by decide) fun _ => rfl⟩
  | bool b =>
    cases b with
    | true =>
      have text : (render layout depth (bool true)).toList = ['t', 'r', 'u', 'e'] := by
        rw [render]; rfl
      rw [text, sorted]
      exact ⟨⟨'t', _, rfl, rfl, by decide⟩,
        readsAs_word (by decide) (by decide) (by decide) fun _ => rfl⟩
    | false =>
      have text : (render layout depth (bool false)).toList = ['f', 'a', 'l', 's', 'e'] := by
        rw [render]; rfl
      rw [text, sorted]
      exact ⟨⟨'f', _, rfl, rfl, by decide⟩,
        readsAs_word (by decide) (by decide) (by decide) fun _ => rfl⟩
  | @int n short =>
    have starts := startsNumber_int n
    have first := (starts []).startsItem
    rw [append_nil] at first
    rw [render, sorted]
    exact ⟨first, readsAs_number starts fun _ stops => scalar_int short stops⟩
  | @float x finite =>
    have starts := startsNumber_float finite
    have first := (starts []).startsItem
    rw [append_nil] at first
    rw [render, sorted]
    exact ⟨first, readsAs_number starts fun _ stops => scalar_float finite stops⟩
  | str s =>
    rw [render, sorted]
    exact ⟨⟨'"', s.toList.flatMap escapeChar ++ ['"'], toList_quote s, rfl, by decide⟩,
      readsAs_quote s⟩
  | @arr items storable ih =>
    have parts : renderItems layout (depth + 1) items = items.map (render layout (depth + 1)) :=
      renderItems_eq_map layout (depth + 1) items
    rw [render, sorted, sortedItems_eq_map, parts]
    exact readsAs_items layout depth (fun v hv => (ih v hv (depth + 1)).1) fun v hv =>
      (ih v hv (depth + 1)).2
  | @obj members distinct storable ih =>
    rw [render, renderFields_eq_map, sortFields_map, sorted_obj]
    have inside : ∀ m ∈ sortFields members, m ∈ members := fun m hm =>
      (sortFields_perm members).mem_iff.mp hm
    exact readsAs_fields layout depth (nodup_sortFields distinct)
      (fun m hm => (ih m (inside m hm) (depth + 1)).1) fun m hm =>
        (ih m (inside m hm) (depth + 1)).2

/-! ### Whole texts -/

/-- Something may follow a value only if it is blank. -/
theorem parse_readsAs (starts : StartsItem text) (reads : ReadsAs text v) (stops : Stops rest) :
    parse (text ++ rest) = if (skipSpace rest).isEmpty then .ok v else .error .extraData := by
  have read := reads (2 * (text ++ rest).length + 2) rest stops (by rw [length_append]; omega)
  obtain ⟨c, tail, rfl, shown, first⟩ := starts
  rw [cons_append] at read ⊢
  rw [parse]
  · rw [skipSpace_of_not_space shown, read]
    rfl
  · intro _ same
    exact first ((cons.inj same).1 ▸ mem_cons_of_mem _ mem_cons_self)

/-- **The text of a value is read back** with the fields in order. -/
theorem parse_render (h : Storable v) (layout : Layout) :
    parse (render layout 0 v).toList = .ok v.sorted := by
  obtain ⟨starts, reads⟩ := readsAs_render h layout 0
  have ended : Stops [] := fun _ first => absurd first (by simp)
  have whole := parse_readsAs starts reads ended
  rwa [append_nil] at whole

end CodeAtlas.Json
