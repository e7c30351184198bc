import CodeAtlas.Proofs.Report.Reload

/-!
Drawings can be read back.

A drawing is read as a list of nodes and edges whose texts stand between quotes (`readDrawing`).
What is read back is what was drawn (`statements?_lines`): the selected nodes in their order, and
the edges between them, each once (`Snapshot.draw_reads_back`).
-/

namespace CodeAtlas

open List

namespace Drawing

/-! ### Reading -/

/-- A text up to the quote that ends it, and the rest. A backslash stands for the character behind
it. -/
def quotedBody : List Char → Option (List Char × List Char)
  | [] => none
  | '"' :: cs => some ([], cs)
  | '\\' :: c :: cs => (quotedBody cs).map fun (body, rest) => (c :: body, rest)
  | c :: cs => (quotedBody cs).map fun (body, rest) => (c :: body, rest)

def quoted? (cs : List Char) : Option (String × List Char) := do
  let (body, rest) ← quotedBody (← Text.after? ['"'] cs)
  return (String.ofList body, rest)

inductive Statement where
  | node (id label : String)
  | edge (source target kind : String)

def label? (cs : List Char) : Option (String × List Char) := do
  let (label, rest) ← quoted? (← Text.after? " [label=".toList cs)
  return (label, ← Text.after? "];\n".toList rest)

def statement? (cs : List Char) : Option (Statement × List Char) := do
  let (name, rest) ← quoted? (← Text.after? "  ".toList cs)
  match Text.after? " -> ".toList rest with
  | some rest =>
      let (target, rest) ← quoted? rest
      let (kind, rest) ← label? rest
      return (.edge name target kind, rest)
  | none =>
      let (label, rest) ← label? rest
      return (.node name label, rest)

/-- The statements up to the closing brace, at most `fuel` of them. -/
def statements? : (fuel : Nat) → List Char → Option (List Statement)
  | 0, _ => none
  | fuel + 1, cs =>
      if cs = ['}', '\n'] then some []
      else do
        let (s, rest) ← statement? cs
        return s :: (← statements? fuel rest)

def readDrawing (name : String) (cs : List Char) : Option (List Statement) := do
  let rest ← Text.after? ("digraph " ++ name ++ " \x7b\n  rankdir=LR;\n").toList cs
  statements? rest.length rest

/-! ### Writing -/

namespace Statement

def line : Statement → String
  | node id label => "  " ++ quote id ++ " [label=" ++ quote label ++ "];"
  | edge source target kind => edgeLine source target kind

end Statement

/-- What is escaped is read back, up to the quote that ends it. -/
theorem quotedBody_escaped (s rest : List Char) :
    quotedBody (s.flatMap escapeChar ++ '"' :: rest) = some (s, rest) := by
  induction s with
  | nil => rfl
  | cons c s ih =>
    by_cases escaped : c = '\\' ∨ c = '"'
    · rcases escaped with rfl | rfl <;> simp [escapeChar, quotedBody, ih]
    · rw [not_or] at escaped
      simp [escapeChar, escaped.1, escaped.2, quotedBody, ih]

/-- A text between quotes is read back. -/
theorem quoted?_quote (s : String) (rest : List Char) :
    quoted? ((quote s).toList ++ rest) = some (s, rest) := by
  have body := quotedBody_escaped s.toList rest
  simp [quoted?, quote, Text.after?, body]

theorem after?_append (lead rest : List Char) : Text.after? lead (lead ++ rest) = some rest :=
  Text.after?_eq_some_iff.mpr rfl

theorem label?_quote (s : String) (rest : List Char) :
    label? (" [label=".toList ++ ((quote s).toList ++ ("];\n".toList ++ rest))) =
      some (s, rest) := by
  simp only [label?, after?_append, quoted?_quote, Option.bind_eq_bind, Option.bind_some,
    Option.pure_def]

/-- The line of a statement is read back as that statement. -/
theorem statement?_line (s : Statement) (rest : List Char) :
    statement? (s.line.toList ++ '\n' :: rest) = some (s, rest) := by
  have closing : "];".toList ++ '\n' :: rest = "];\n".toList ++ rest := rfl
  cases s with
  | node id label =>
    have noArrow (cs : List Char) : Text.after? " -> ".toList (" [label=".toList ++ cs) = none := by
      simp [Text.after?]
    simp only [statement?, Statement.line, String.toList_append, append_assoc, closing,
      after?_append, quoted?_quote, label?_quote, noArrow, Option.bind_eq_bind, Option.bind_some,
      Option.pure_def]
  | edge source target kind =>
    simp only [statement?, Statement.line, edgeLine, String.toList_append, append_assoc,
      closing, after?_append, quoted?_quote, label?_quote, Option.bind_eq_bind, Option.bind_some,
      Option.pure_def]

/-- **The lines of statements are read back**, up to the closing brace. -/
theorem statements?_lines (ss : List Statement) {fuel : Nat} (enough : ss.length < fuel) :
    statements? fuel (Text.unlines (ss.map (·.line.toList)) ++ ['}', '\n']) = some ss := by
  induction ss generalizing fuel with
  | nil =>
    obtain ⟨fuel, rfl⟩ : ∃ more, fuel = more + 1 := ⟨fuel - 1, by omega⟩
    rfl
  | cons s ss ih =>
    obtain ⟨fuel, rfl⟩ : ∃ more, fuel = more + 1 := ⟨fuel - 1, by omega⟩
    have text : Text.unlines ((s :: ss).map (·.line.toList)) ++ ['}', '\n'] =
        s.line.toList ++ '\n' :: (Text.unlines (ss.map (·.line.toList)) ++ ['}', '\n']) := by
      simp [Text.unlines]
    have more : s.line.toList ++ '\n' :: (Text.unlines (ss.map (·.line.toList)) ++ ['}', '\n']) ≠
        ['}', '\n'] := by
      cases s <;> simp [Statement.line, edgeLine]
    rw [text, statements?, if_neg more, statement?_line]
    simp [ih (by simpa using enough)]

/-! ### Nodes and edges -/

/-- An edge whose ends are texts, or missing. -/
structure Arrow where
  source : Option String
  target : Option String
  kind : String
  resolved : Bool

def Arrow.view (a : Arrow) : EdgeView :=
  ⟨.opt .str a.source, .opt .str a.target, .str a.kind, a.resolved⟩

/-- The source, target and kind of an edge between two of the nodes. -/
def Arrow.between? (ids : List String) (a : Arrow) : Option (String × String × String) := do
  let source ← a.source.filter ids.contains
  let target ← a.target.filter ids.contains
  return (source, target, a.kind)

@[simp] theorem text?_opt (name : Option String) : (Json.opt .str name).text? = name := by
  cases name <;> rfl

@[simp] theorem isKey_opt (name : Option String) : (Json.opt .str name).isKey = true := by
  cases name <;> rfl

/-- A name that may be missing is that of a node only if it is there. -/
theorem sameKey_opt {name : Option String} {id : String} :
    (Json.opt .str name).sameKey (.str id) = true ↔ name = some id := by
  cases name <;> simp [Json.opt, Json.sameKey, Json.ratio?]

/-- The edges that are drawn are those between the nodes, each at its first place. -/
theorem edgesBetween_eq (ids : List String) (seen : List (String × String × String))
    (arrows : List Arrow) :
    edgesBetween ids seen (arrows.map Arrow.view) =
      .ok (eraseDupsBy.loop (· == ·) (arrows.filterMap (Arrow.between? ids)) seen) := by
  induction arrows generalizing seen with
  | nil => rfl
  | cons a arrows ih =>
    rw [map_cons, edgesBetween, filterMap_cons]
    simp only [Arrow.view, text?_opt, isKey_opt, Arrow.between?]
    cases a.source.filter ids.contains with
    | none => exact ih seen
    | some source =>
      cases a.target.filter ids.contains with
      | none => exact ih seen
      | some target =>
        have member : (seen.any fun e => (source, target, a.kind) == e) =
            seen.contains (source, target, a.kind) :=
          contains_eq_any_beq.symm
        by_cases known : (source, target, a.kind) ∈ seen <;>
          simp [Json.isKey, Json.text?, eraseDupsBy.loop, member, known, ih]

/-- A text contains another if that stands in it. -/
theorem contains_iff_infix {cs part : List Char} : Text.contains cs part = true ↔ part <:+: cs := by
  constructor
  · intro found
    obtain ⟨⟨pre, post⟩, cut⟩ := Option.isSome_iff_exists.mp found
    exact ⟨pre, post, (Text.cutAt?_eq_some cut).symm⟩
  · rintro ⟨pre, post, rfl⟩
    by_contra none
    have nowhere : Text.anyPlace (fun _ rest => Text.startsWith rest part)
        (pre ++ part ++ post) = false := by
      unfold Text.contains Text.cutAt? at none
      unfold Text.anyPlace
      cases found : Text.breakAt (fun _ rest => Text.startsWith rest part) Option.none
        (pre ++ part ++ post) with
      | none => rfl
      | some cut => exact absurd (by rw [found]; rfl) none
    have here := Text.anyPlace_eq_false nowhere pre (part ++ post) (by simp)
    simp [Text.startsWith_iff.mpr (prefix_append part post)] at here

/-- Is a node drawn? With a focus it is when its name holds the focus, or when a resolved edge joins
it with a node whose name does. -/
def Selected (ids : List String) (arrows : List Arrow) (focus id : String) : Prop :=
  focus = "" ∨ focus.toList <:+: id.toList ∨
    ∃ a ∈ arrows, a.resolved = true ∧ ∃ other ∈ ids, focus.toList <:+: other.toList ∧
      (a.source = some id ∧ a.target = some other ∨ a.source = some other ∧ a.target = some id)

/-- The nodes that a focus selects, as `Selected` says. -/
theorem mem_selected {ids : List String} {arrows : List Arrow} {focus id : String} :
    id ∈ selected ids ((arrows.filter (·.resolved)).map fun a => (a.view.source, a.view.target))
        focus ↔
      id ∈ ids ∧ Selected ids arrows focus id := by
  unfold selected Selected
  by_cases empty : focus = ""
  · simp [empty]
  · simp only [empty, beq_iff_eq, if_false, false_or, mem_filter, Bool.or_eq_true, contains_iff_mem,
      any_map, any_eq_true, Function.comp_apply, Bool.and_eq_true, Arrow.view, text?_opt,
      sameKey_opt, Option.any_eq_true, contains_iff_infix]
    refine and_congr_right fun inside => ⟨?_, ?_⟩
    · rintro (⟨-, here⟩ | ⟨a, ⟨member, resolved⟩, ends, found⟩)
      · exact .inl here
      · rcases ends with source | target <;>
          rcases found with ⟨other, found, known⟩ | ⟨other, found, known⟩
        · cases source.symm.trans found
          exact .inl known.2
        · exact .inr ⟨a, member, resolved, other, known.1, known.2, .inl ⟨source, found⟩⟩
        · exact .inr ⟨a, member, resolved, other, known.1, known.2, .inr ⟨found, target⟩⟩
        · cases target.symm.trans found
          exact .inl known.2
    · rintro (here | ⟨a, member, resolved, other, known, holds, ends⟩)
      · exact .inl ⟨inside, here⟩
      · refine .inr ⟨a, ⟨member, resolved⟩, ?_⟩
        rcases ends with ⟨source, target⟩ | ⟨source, target⟩
        · exact ⟨.inl source, .inr ⟨other, target, known, holds⟩⟩
        · exact ⟨.inr target, .inl ⟨other, source, known, holds⟩⟩

/-- Texts are read off their values. -/
theorem texts_str (fault : DrawingFault) (names : List String) :
    texts fault (names.map .str) = .ok names := by
  have read : (names.map Json.str).mapM Json.text? = some names := by
    induction names with
    | nil => rfl
    | cons name names ih =>
      rw [map_cons, mapM_cons, ih]
      rfl
  have keys : (names.map Json.str).all Json.isKey = true := by simp [Json.isKey]
  simp only [texts, keys, read]
  rfl

end Drawing

namespace Snapshot

open Drawing

variable {s : Snapshot} {nodes : List (String × String)} {arrows : List Arrow}

/-- What is drawn: the nodes that are kept, and the edges between them. -/
def statements (nodes : List (String × String)) (arrows : List Arrow) (drawn : List String) :
    List Statement :=
  (nodes.filter (drawn.contains ·.1)).map (fun n => .node n.1 (n.2 ++ "\\n" ++ n.1)) ++
    (arrows.filterMap (Arrow.between? drawn)).eraseDups.map fun e => .edge e.1 e.2.1 e.2.2

/-- All edges run between nodes that are listed. -/
def Closed (ss : List Statement) : Prop :=
  ∀ source target kind, .edge source target kind ∈ ss →
    (∃ label, .node source label ∈ ss) ∧ ∃ label, .node target label ∈ ss

def frame (name : String) (ss : List Statement) : String :=
  "\n".intercalate (["digraph " ++ name ++ " \x7b", "  rankdir=LR;"] ++ ss.map (·.line) ++
    ["\x7d"]) ++ "\n"

/-- A drawing is read back as its statements. -/
theorem readDrawing_frame (name : String) (ss : List Statement) :
    readDrawing name (frame name ss).toList = some ss := by
  have text : (frame name ss).toList = ("digraph " ++ name ++ " \x7b\n  rankdir=LR;\n").toList ++
      (Text.unlines (ss.map (·.line.toList)) ++ ['}', '\n']) := by
    rw [frame, String.toList_append, String.toList_intercalate]
    refine (intercalate_eq_unlines (by simp)).trans ?_
    simp [Text.unlines, Function.comp_def, flatMap_map]
  rw [readDrawing, text, after?_append]
  refine statements?_lines ss ?_
  have lines : ss.length ≤ (Text.unlines (ss.map (·.line.toList))).length := by
    clear text
    induction ss with
    | nil => rfl
    | cons s ss ih =>
      simp only [Text.unlines, map_cons, flatMap_cons, length_append, length_cons] at ih ⊢
      omega
  simp only [length_append, length_cons]
  omega

/-- A drawing of nodes and edges named by texts has the statements of what is selected. -/
theorem draw_eq (named : s.nodes = nodes.map fun n => (.str n.1, .str n.2))
    (linked : s.edges = arrows.map Arrow.view) (focus : String) (resolvedOnly : Bool) :
    let ends := (arrows.filter (·.resolved)).map fun a => (a.view.source, a.view.target)
    s.draw focus resolvedOnly = .ok (frame (drawingName s.kind)
      (statements nodes (if resolvedOnly then arrows.filter (·.resolved) else arrows)
        (Drawing.selected (nodes.map Prod.fst) ends focus))) := by
  intro ends
  have ids : s.nodeIds = (nodes.map Prod.fst).map .str := by simp [nodeIds, named]
  have resolved : s.resolvedEdges = (arrows.filter (·.resolved)).map Arrow.view := by
    rw [resolvedEdges, linked, filter_map]
    rfl
  have resolvedEnds : s.resolvedEdges.map (fun e => (e.source, e.target)) = ends := by
    rw [resolved, map_map]
    rfl
  have chosen : (if resolvedOnly then s.resolvedEdges else s.edges) =
      (if resolvedOnly then arrows.filter (·.resolved) else arrows).map Arrow.view := by
    cases resolvedOnly
    · exact linked
    · exact resolved
  have keys : (ends.any fun e => !e.1.isKey || !e.2.isKey) = false := by simp [ends, Arrow.view]
  have pairs : s.nodes.zip (nodes.map Prod.fst) = nodes.map fun n =>
      ((.str n.1, .str n.2), n.1) := by
    rw [named, zip_map']
  simp only [draw, ids, texts_str, resolvedEnds, chosen, bind, Except.bind, keys, Bool.and_false,
    pairs, edgesBetween_eq]
  rw [if_neg Bool.false_ne_true]
  simp only [frame, statements, map_append, map_map, filter_map, eraseDups, eraseDupsBy,
    pure, Except.pure]
  rfl

/-- An edge that is drawn has both ends among the nodes. -/
theorem mem_of_between? {drawn : List String} {a : Arrow} {e : String × String × String}
    (found : a.between? drawn = some e) : e.1 ∈ drawn ∧ e.2.1 ∈ drawn := by
  simp only [Arrow.between?, Option.bind_eq_bind, Option.bind_eq_some_iff,
    Option.filter_eq_some_iff, Option.pure_def, Option.some.injEq, contains_iff_mem] at found
  obtain ⟨source, ⟨-, first⟩, target, ⟨-, second⟩, rfl⟩ := found
  exact ⟨first, second⟩

/-- What is drawn is closed, if only nodes are selected. -/
theorem closed_statements {drawn : List String} (known : ∀ id ∈ drawn, id ∈ nodes.map Prod.fst)
    (arrows : List Arrow) : Closed (statements nodes arrows drawn) := by
  have listed : ∀ id ∈ drawn, ∃ label, .node id label ∈ statements nodes arrows drawn := by
    intro id inside
    obtain ⟨n, member, rfl⟩ := mem_map.mp (known id inside)
    refine ⟨_, mem_append_left _ (mem_map_of_mem (mem_filter.mpr ⟨member, ?_⟩))⟩
    exact contains_iff_mem.mpr inside
  intro source target kind drawnEdge
  rcases mem_append.mp drawnEdge with node | edge
  · obtain ⟨n, -, same⟩ := mem_map.mp node
    cases same
  · obtain ⟨e, member, same⟩ := mem_map.mp edge
    cases same
    obtain ⟨a, -, found⟩ := mem_filterMap.mp (mem_eraseDups.mp member)
    obtain ⟨first, second⟩ := mem_of_between? found
    exact ⟨listed _ first, listed _ second⟩

/-- **A drawing shows what is selected.** It is read back as the selected nodes in their order and
the edges between them, each once at its first place, and these edges run between listed nodes. -/
theorem draw_reads_back (named : s.nodes = nodes.map fun n => (.str n.1, .str n.2))
    (linked : s.edges = arrows.map Arrow.view) (focus : String) (resolvedOnly : Bool) :
    ∃ text drawn ss, s.draw focus resolvedOnly = .ok text ∧
      readDrawing (drawingName s.kind) text.toList = some ss ∧
      ss = statements nodes (if resolvedOnly then arrows.filter (·.resolved) else arrows) drawn ∧
      Closed ss ∧
      ∀ id, id ∈ drawn ↔ id ∈ nodes.map Prod.fst ∧
        Selected (nodes.map Prod.fst) arrows focus id := by
  refine ⟨_, _, _, draw_eq named linked focus resolvedOnly, readDrawing_frame _ _, rfl, ?_,
    fun id => mem_selected⟩
  exact closed_statements (fun id inside => (mem_selected.mp inside).1) _

/-- A report with a node whose name holds a quote and ends in a backslash, an edge that is there
twice and one that leads nowhere. -/
def quotedNames : Snapshot where
  records := .blueprint
    [⟨.str "a\"b\\", .str "python", 1, 1⟩, ⟨.str "c", .str "rust", 1, 1⟩,
      ⟨.str "d", .str "rust", 1, 1⟩]
    [⟨.str "c", .str "a\"b\\", .str "x", .str "use", .int 1, true⟩,
      ⟨.str "c", .str "a\"b\\", .str "y", .str "use", .int 2, true⟩,
      ⟨.str "d", .null, .str "z", .str "use", .int 1, false⟩]
  stats := []
  errors := []
  warnings := []

/-- That report, with a quote as the focus and with all edges. -/
theorem draw_reads_back_quotes :
    let nodes := [("a\"b\\", "python"), ("c", "rust"), ("d", "rust")]
    let arrows : List Arrow := [⟨some "c", some "a\"b\\", "use", true⟩,
      ⟨some "c", some "a\"b\\", "use", true⟩, ⟨some "d", none, "use", false⟩]
    ∃ text drawn ss, quotedNames.draw "\"" false = .ok text ∧
      readDrawing "Blueprint" text.toList = some ss ∧ ss = statements nodes arrows drawn ∧
      Closed ss ∧
      ∀ id, id ∈ drawn ↔ id ∈ nodes.map Prod.fst ∧
        Selected (nodes.map Prod.fst) arrows "\"" id := by
  intro nodes arrows
  exact @draw_reads_back quotedNames nodes arrows rfl rfl "\"" false

end Snapshot

end CodeAtlas
