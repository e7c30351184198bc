import CodeAtlas.Diff.Stored
import CodeAtlas.Diff.Template
import CodeAtlas.Proofs.Diff.Patch

/-!
The template of a mapping loads as the blank mapping.

A template is a text: a line of comment, one line of comment for each proposed move, and what the
format writes for the blank mapping (`Diff.template_eq`). A lawful format reads back what it writes
and skips lines of comment, so the template is read as the blank mapping, provided that the names in
the moves hold no line break (`Diff.reads_template`). Of the difference of two snapshots,
`Snapshot.template_loads` concludes that the template lists exactly the removed nodes, and that it
does not pass where all of them have to be explained.

The names in comments are not escaped. `Snapshot.template_unloadable` shows a line break in a name
that turns the rest of a comment into part of the document.
-/

namespace CodeAtlas

open List

variable {α : Type}

/-! ### Lawful formats -/

def string? : Value → Option String
  | .plain (.str s) => some s
  | _ => none

def itemString? : Yaml.Item → Option String
  | .atom value => string? value
  | .collection _ => none

/-- The texts and their values under the one key of a document, if the key is `mappings`. -/
def Yaml.Document.mappings? (d : Yaml.Document) : Option Mapping := do
  match ← d.pairs? d.root with
  | [(key, inner)] =>
      if string? key = some "mappings" then
        (← d.pairs? inner).mapM fun pair => return (← string? pair.1, ← itemString? pair.2)
      else none
  | _ => none

def breaksLine (c : Char) : Bool :=
  ['\n', '\r', '\u0085', '\u2028', '\u2029'].contains c

def Unbroken (cs : List Char) : Prop :=
  ∀ c ∈ cs, breaksLine c = false

namespace MappingFormat

variable {F : MappingFormat} {text : List Char} {m : Mapping}

/-- A text is read as a document that holds a mapping of texts to texts, and nothing else. -/
def Reads (F : MappingFormat) (text : List Char) (m : Mapping) : Prop :=
  ((F.read text).toOption.bind Yaml.Document.mappings?) = some m

instance : Decidable (F.Reads text m) :=
  inferInstanceAs (Decidable (_ = _))

/-- What a format can write and read. A format may bound the length of a key, for instance, or
refuse some characters wherever they stand. -/
structure Limits where
  writes : Mapping → Prop
  reads : List Char → Prop

/-- Within its limits a format reads back the mappings of texts to texts that it writes, also from a
file, and skips a line of comment in front of a text. -/
structure Lawful (F : MappingFormat) (limits : Limits) : Prop where
  inverse : ∀ m : Mapping, (m.map (·.1)).Nodup → limits.writes m →
    F.Reads (Text.unifyNewlines (F.write m).toList) m
  comment : ∀ (line text : List Char) (m : Mapping), Unbroken line →
    limits.reads ('#' :: (line ++ '\n' :: text)) → F.Reads text m →
      F.Reads ('#' :: (line ++ '\n' :: text)) m
  behind : ∀ line text : List Char, Unbroken line → limits.reads ('#' :: (line ++ '\n' :: text)) →
    limits.reads text

end MappingFormat

/-! ### Reading mappings -/

namespace Mapping

variable {F : MappingFormat} {text : List Char} {m : Mapping}

/-- An entry with a new name goes to the end. -/
theorem setEntry_new {m : Mapping} {name : String} (new : name ∉ m.map (·.1)) (text : String) :
    m.setEntry name text = m ++ [(name, text)] := by
  induction m with
  | nil => rfl
  | cons entry m ih =>
    obtain ⟨n, t⟩ := entry
    rw [map_cons, mem_cons, not_or] at new
    simp [setEntry, Ne.symm new.1, ih new.2]

theorem string?_eq_some {v : Value} {s : String} : string? v = some s ↔ v = .str s := by
  unfold string?
  split
  · simp [Value.str]
  · rename_i other
    exact ⟨nofun, fun same => absurd same (other s)⟩

theorem itemString?_eq_some {item : Yaml.Item} {s : String} :
    itemString? item = some s ↔ item = .atom (.str s) := by
  cases item with
  | atom value => simp [itemString?, string?_eq_some]
  | collection id => simp [itemString?]

def textPairs (m : Mapping) : List (Value × Yaml.Item) :=
  m.map fun entry => (.str entry.1, .atom (.str entry.2))

/-- Where all pairs are read as texts, they are the pairs of the mapping that is read. -/
theorem mapM_eq_textPairs {pairs : List (Value × Yaml.Item)}
    (read : pairs.mapM (fun pair => do return (← string? pair.1, ← itemString? pair.2)) = some m) :
    pairs = textPairs m := by
  induction pairs generalizing m with
  | nil =>
    obtain rfl : [] = m := by simpa using read
    rfl
  | cons pair pairs ih =>
    obtain ⟨key, item⟩ := pair
    simp only [mapM_cons, Option.pure_def, Option.bind_eq_bind, Option.bind_eq_some_iff,
      Option.some.injEq] at read
    obtain ⟨entry, ⟨k, isKey, v, isItem, rfl⟩, rest, read, rfl⟩ := read
    rw [ih read, string?_eq_some.mp isKey, itemString?_eq_some.mp isItem]
    rfl

/-- The shape of a document that holds a mapping of texts. -/
theorem mappings?_eq_some {d : Yaml.Document} (read : d.mappings? = some m) :
    ∃ inner, d.pairs? d.root = some [(.str "mappings", inner)] ∧
      d.pairs? inner = some (textPairs m) := by
  simp only [Yaml.Document.mappings?, Option.bind_eq_bind, Option.bind_eq_some_iff] at read
  obtain ⟨pairs, outer, read⟩ := read
  split at read
  · rename_i key inner
    split at read
    · rename_i named
      obtain ⟨entries, found, read⟩ := Option.bind_eq_some_iff.mp read
      rw [string?_eq_some.mp named] at outer
      exact ⟨inner, outer, mapM_eq_textPairs read ▸ found⟩
    · cases read
  · cases read

/-- The entries of a mapping whose names are all different are set one after the other. -/
theorem ofPairs?_textPairs (d : Yaml.Document) (distinct : (m.map (·.1)).Nodup) :
    ofPairs? d (textPairs m) = some m := by
  have step : ∀ known : Mapping, ((known ++ m).map (·.1)).Nodup →
      (textPairs m).foldlM (fun m p => do
        return setEntry (← p.1.text?) (← explanation? d p.2) m) known = some (known ++ m) := by
    clear distinct
    induction m with
    | nil => simp [textPairs]
    | cons entry m ih =>
      intro known distinct
      obtain ⟨name, text⟩ := entry
      have new : name ∉ known.map (·.1) := by
        rw [map_append, map_cons] at distinct
        intro mem
        exact (nodup_append.mp distinct).2.2 name mem name mem_cons_self rfl
      have later := ih (known ++ [(name, text)]) (by simpa using distinct)
      have named : (Value.str name).text? = some name := rfl
      have value : explanation? d (.atom (.str text)) = some text := rfl
      rw [textPairs, map_cons, foldlM_cons]
      simp only [named, value, Option.pure_def, Option.bind_eq_bind, Option.bind_some,
        setEntry_new new]
      rw [append_assoc] at later
      exact later
  exact step [] (by simpa using distinct)

theorem eq_collection {d : Yaml.Document} {item : Yaml.Item} {pairs : List (Value × Yaml.Item)}
    (there : d.pairs? item = some pairs) : ∃ id, item = .collection id := by
  cases item with
  | atom value => cases there
  | collection id => exact ⟨id, rfl⟩

/-- A text that is read as a mapping of different names is parsed as that mapping. -/
theorem parse_of_reads (reads : F.Reads text m) (distinct : (m.map (·.1)).Nodup) :
    parse F text = .ok m := by
  unfold MappingFormat.Reads at reads
  cases read : F.read text with
  | error fault =>
    rw [read] at reads
    cases reads
  | ok d =>
    rw [read] at reads
    obtain ⟨inner, outer, entries⟩ := mappings?_eq_some reads
    have pairs : pairsOf d = .ok (textPairs m) := by
      have found : itemAt? "mappings" [(.str "mappings", inner)] = some inner := by
        simp [itemAt?, Value.sameKey, Value.str, Json.sameKey, Json.ratio?]
      obtain ⟨root, isRoot⟩ := eq_collection outer
      obtain ⟨id, rfl⟩ := eq_collection entries
      rw [isRoot] at outer
      simp [pairsOf, isRoot, outer, found, entries]
    simp only [parse, read, Except.mapError, pairs, bind, Except.bind,
      ofPairs?_textPairs d distinct]
    rfl

/-- The blank mapping has the given names, in order. -/
theorem keys_blank (ids : List String) : (blank ids).map (·.1) = ids := by
  simp [blank, Function.comp_def]

theorem explains_blank (keys : List String) (id : String) : (blank keys).explains id = false := by
  unfold explains
  cases found : (blank keys).lookup id with
  | none => rfl
  | some text =>
    obtain ⟨before, after, shape, -⟩ := lookup_eq_some_iff.mp found
    have mem : (id, text) ∈ blank keys := by simp [shape]
    obtain ⟨key, -, equal⟩ := mem_map.mp mem
    have empty : text = "" := (congrArg Prod.snd equal).symm
    simp [empty, Text.isAllBlank]

end Mapping

/-! ### The text of a template -/

namespace Diff

/-- Joined lines with a line feed at the end are the lines, each with its own line feed. -/
theorem toList_intercalate_newline (head : String) (rest : List String) :
    ("\n".intercalate (head :: rest) ++ "\n").toList = (head :: rest).flatMap fun line =>
      line.toList ++ ['\n'] := by
  induction rest generalizing head with
  | nil => simp
  | cons next rest ih =>
    have later := ih next
    simp only [String.toList_append, String.toList_intercalate] at later ⊢
    rw [map_cons, map_cons, intercalate_cons_cons, ← map_cons, append_assoc, later]
    simp

/-- What a comment holds behind its sign. -/
def moveRemark (m : Move String) : List Char :=
  (" suggested: " ++ m.source ++ " -> " ++ m.target ++ " (" ++ m.reason ++ ", score "
    ++ toString m.score ++ ")").toList

/-- What the first comment of a template holds behind its sign. -/
def headRemark : List Char :=
  " Explain every removed node before running with --require-mapping.".toList

/-- Lines of comment in front of a text. -/
def commented (remarks : List (List Char)) (text : List Char) : List Char :=
  remarks.foldr (fun remark rest => '#' :: (remark ++ '\n' :: rest)) text

/-- **The text of a template**: lines of comment above what the format writes for the blank
mapping. -/
theorem template_eq (F : MappingFormat) (d : Diff String) : (d.template F).toList =
      commented (headRemark :: d.moves.map moveRemark)
        (F.write (Mapping.blank (sortedDistinct d.removedNodes))).toList := by
  have first : "# Explain every removed node before running with --require-mapping.".toList =
      '#' :: headRemark := by decide +kernel
  have line : ∀ m : Move String, (moveComment m).toList = '#' :: moveRemark m := by
    intro m
    have sign : "# suggested: ".toList = '#' :: " suggested: ".toList := by decide +kernel
    unfold moveComment moveRemark
    generalize "# suggested: " = marked, " suggested: " = plain at sign
    simp only [String.toList_append, sign, cons_append]
  have lines : ∀ (moves : List (Move String)) (text : List Char),
      (moves.map moveComment).flatMap (fun line => line.toList ++ ['\n']) ++ text =
        commented (moves.map moveRemark) text := by
    intro moves text
    induction moves with
    | nil => rfl
    | cons m moves ih =>
      rw [map_cons, flatMap_cons, append_assoc, append_assoc, ih, line]
      rfl
  rw [template, String.toList_append, toList_intercalate_newline, flatMap_cons, first,
    append_assoc, append_assoc, lines]
  rfl

theorem unbroken_of_all {cs : List Char}
    (all : cs.all (fun c => !breaksLine c) = true) : Unbroken cs := by
  simpa [Unbroken] using all

theorem unbroken_append {cs ds : List Char} (first : Unbroken cs) (second : Unbroken ds) :
    Unbroken (cs ++ ds) :=
  forall_mem_append.mpr ⟨first, second⟩

/-- The score in a comment is a number, and digits break no line. -/
theorem unbroken_of_digits {cs : List Char}
    (digits : ∀ c ∈ cs, c.isDigit = true) : Unbroken cs := by
  intro c mem
  have digit := digits c mem
  by_contra broken
  rw [Bool.not_eq_false, breaksLine, contains_iff_mem] at broken
  fin_cases broken <;> revert digit <;> decide

def Move.Unbroken (m : Move String) : Prop :=
  CodeAtlas.Unbroken m.source.toList ∧ CodeAtlas.Unbroken m.target.toList

/-- A comment stays on its line if the two names in it do. -/
theorem unbroken_moveRemark {m : Move String} (unbroken : Move.Unbroken m) :
    Unbroken (moveRemark m) := by
  have reason : Unbroken m.reason.toList := by
    unfold Move.reason
    split <;> exact unbroken_of_all (by decide)
  have score : Unbroken (toString m.score).toList := by
    refine unbroken_of_digits fun c mem => ?_
    rw [Nat.toString_eq_repr, Nat.toList_repr] at mem
    exact Nat.isDigit_of_mem_toDigits (by decide) (by decide) mem
  have plain {s : String} (all : s.toList.all (fun c => !breaksLine c) = true) :
      Unbroken s.toList :=
    unbroken_of_all all
  simp only [moveRemark, String.toList_append]
  refine unbroken_append
    (unbroken_append (unbroken_append (unbroken_append (unbroken_append (unbroken_append
    (unbroken_append (unbroken_append ?_ unbroken.1) ?_) unbroken.2) ?_) reason) ?_) score) ?_
  all_goals exact plain (by decide)

/-! ### Reading a template -/

/-- A stretch without line breaks stays as it is when line ends are unified. -/
theorem unifyNewlines_append {cs : List Char} (unbroken : Unbroken cs) (text : List Char) :
    Text.unifyNewlines (cs ++ text) = cs ++ Text.unifyNewlines text := by
  induction cs with
  | nil => rfl
  | cons c cs ih =>
    obtain ⟨here, later⟩ := forall_mem_cons.mp unbroken
    have plain : c ≠ '\r' := by
      rintro rfl
      exact absurd here (by decide)
    rw [cons_append, Text.unifyNewlines, ih later]
    · rfl
    · exact fun _ same => absurd same plain
    · exact plain

/-- Writing comments and reading the file back changes line ends below the comments only. -/
theorem unifyNewlines_commented {remarks : List (List Char)}
    (unbroken : ∀ remark ∈ remarks, Unbroken remark) (text : List Char) :
    Text.unifyNewlines (commented remarks text) = commented remarks (Text.unifyNewlines text) := by
  induction remarks with
  | nil => rfl
  | cons remark remarks ih =>
    obtain ⟨here, later⟩ := forall_mem_cons.mp unbroken
    have sign : Unbroken ('#' :: remark) := forall_mem_cons.mpr ⟨by decide, here⟩
    have split (rest : List Char) : '#' :: (remark ++ '\n' :: rest) =
        ('#' :: remark) ++ '\n' :: rest := rfl
    have newline (rest : List Char) : Text.unifyNewlines ('\n' :: rest) =
        '\n' :: Text.unifyNewlines rest := rfl
    rw [commented, foldr_cons, ← commented, split, unifyNewlines_append sign, newline, ih later]
    rfl

/-- Lines of comment above a text do not change what it is read as. By induction on the lines, with
one use of the law for each. -/
theorem reads_commented {F : MappingFormat} {limits : MappingFormat.Limits}
    (lawful : F.Lawful limits) {remarks : List (List Char)}
    (unbroken : ∀ remark ∈ remarks, Unbroken remark) {text : List Char} {m : Mapping}
    (inside : limits.reads (commented remarks text)) (reads : F.Reads text m) :
    F.Reads (commented remarks text) m := by
  induction remarks with
  | nil => exact reads
  | cons remark remarks ih =>
    obtain ⟨here, later⟩ := forall_mem_cons.mp unbroken
    exact lawful.comment remark _ m here inside (ih later (lawful.behind remark _ here inside))

/-- The mapping that the template of a difference is read as, from a file that holds it. -/
def reload (F : MappingFormat) (d : Diff Json) : Except MappingFault Mapping :=
  Mapping.parse F (Text.unifyNewlines ((d.map Json.display).template F).toList)

/-- The template of a difference stays within the limits of a format, and the names in its moves on
their lines. -/
structure FitsTemplate (F : MappingFormat) (limits : MappingFormat.Limits) (d : Diff String) :
    Prop where
  moves : ∀ m ∈ d.moves, Move.Unbroken m
  writes : limits.writes (Mapping.blank (sortedDistinct d.removedNodes))
  reads : limits.reads (Text.unifyNewlines (d.template F).toList)

/-- **A template is read as the blank mapping** of the removed nodes. -/
theorem reads_template {F : MappingFormat} {limits : MappingFormat.Limits}
    (lawful : F.Lawful limits) {d : Diff String} (fits : FitsTemplate F limits d) :
    F.Reads (Text.unifyNewlines (d.template F).toList)
      (Mapping.blank (sortedDistinct d.removedNodes)) := by
  have distinct : ((Mapping.blank (sortedDistinct d.removedNodes)).map (·.1)).Nodup := by
    rw [Mapping.keys_blank]
    exact (sortWith_perm _ _).nodup_iff.mpr (nodup_eraseDups _)
  have unbroken : ∀ remark ∈ headRemark :: d.moves.map moveRemark, Unbroken remark := by
    refine forall_mem_cons.mpr ⟨unbroken_of_all (by decide +kernel), fun remark among => ?_⟩
    obtain ⟨m, inMoves, rfl⟩ := mem_map.mp among
    exact unbroken_moveRemark (fits.moves m inMoves)
  have inside := fits.reads
  rw [template_eq, unifyNewlines_commented unbroken] at inside ⊢
  exact reads_commented lawful unbroken inside (lawful.inverse _ distinct fits.writes)

end Diff

/-! ### Differences of snapshots -/

theorem mem_of_mem_eraseDups [BEq α] {xs : List α} {x : α} (mem : x ∈ xs.eraseDups) : x ∈ xs := by
  match xs with
  | [] => exact mem
  | y :: ys =>
    rw [eraseDups_cons] at mem
    rcases mem_cons.mp mem with rfl | later
    · exact mem_cons_self
    · exact mem_cons_of_mem _ (mem_of_mem_filter (mem_of_mem_eraseDups later))
termination_by xs.length
decreasing_by exact Nat.lt_succ_of_le (length_filter_le _ _)

theorem mem_of_mem_sortedMinus [BEq α] [Ord α] {xs ys : List α} {x : α}
    (mem : x ∈ sortedMinus xs ys) : x ∈ xs := by
  rw [sortedMinus, mem_sortWith] at mem
  exact mem_of_mem_eraseDups (mem_of_mem_filter mem)

namespace MixedNames

/-- Also where names are of mixed types, only nodes of the graph before are removed. -/
theorem removed_mem_nodes {before after : GraphView Json} {d : Diff Json}
    (found : diff? before after = some d) :
    ∀ id ∈ d.removedNodes, id ∈ before.nodes := by
  intro id removed
  unfold diff? at found
  split at found
  · dsimp only at found
    split at found
    · obtain rfl := Option.some.inj found
      exact mem_of_mem_sortedMinus removed
    · simp at found
  · simp at found

end MixedNames

namespace Snapshot

/-- The removed nodes of a difference are nodes of the snapshot before. -/
theorem removed_mem_nodeIds {before after : Snapshot} {d : Diff Json}
    (made : before.diff after = .ok d)
    (texts : ∀ id ∈ before.nodeIds, id.IsText) : ∀ id ∈ d.removedNodes, id ∈ before.nodeIds := by
  intro id removed
  unfold diff at made
  split at made
  · simp at made
  split at made
  · next a b showsBefore showsAfter =>
    obtain rfl : (a.diff (Naming.ofKind a.kind) b).map .str = d := Except.ok.inj made
    obtain ⟨names, read, same⟩ := mapM_of_images Json.text? .str (fun _ => rfl) texts
    have nodes : a.nodes = names := by
      simp only [textView?, read, Option.bind_eq_bind, Option.bind_some, Option.bind_eq_some_iff]
        at showsBefore
      obtain ⟨edges, -, shape⟩ := showsBefore
      rw [← Option.some.inj shape]
    obtain ⟨name, inNames, rfl⟩ := mem_map.mp removed
    rw [same, ← nodes]
    exact mem_map_of_mem (mem_of_mem_sortedMinus inNames)
  · split at made
    · next found =>
      obtain rfl := Except.ok.inj made
      exact MixedNames.removed_mem_nodes found id removed
    · simp at made

/-- **The template of the difference of two snapshots is the blank mapping of exactly the removed
nodes.** Where there is one, all of them are missing from it. Nothing is asked of the format but its
laws. -/
theorem template_loads (F : MappingFormat) (limits : MappingFormat.Limits)
    (lawful : F.Lawful limits) (before after : Snapshot) {d : Diff Json}
    (made : before.diff after = .ok d) (texts : ∀ id ∈ before.nodeIds, id.IsText)
    (fits : Diff.FitsTemplate F limits (d.map Json.display)) :
    ∃ ids : List String, ids.Nodup ∧ (∀ id, id ∈ ids ↔ .str id ∈ d.removedNodes) ∧
      d.reload F = .ok (Mapping.blank ids) ∧
      (d.removedNodes ≠ [] →
        d.enforce Json.display (Mapping.blank ids) = .error ⟨d.removedNodes.map Json.display⟩) := by
  have removed : ∀ id ∈ d.removedNodes, id.IsText :=
    fun id member => texts id (removed_mem_nodeIds made texts id member)
  let ids := sortedDistinct (d.removedNodes.map Json.display)
  have distinct : ids.Nodup := (sortWith_perm _ _).nodup_iff.mpr (nodup_eraseDups _)
  refine ⟨ids, distinct, ?_, ?_, ?_⟩
  · intro id
    rw [mem_sortedDistinct, List.mem_map]
    constructor
    · rintro ⟨name, member, rfl⟩
      obtain ⟨text, rfl⟩ := removed name member
      exact member
    · intro member
      exact ⟨_, member, rfl⟩
  · have named : ((Mapping.blank ids).map (·.1)).Nodup := by rwa [Mapping.keys_blank]
    exact Mapping.parse_of_reads (Diff.reads_template lawful fits) named
  · intro some_
    have missing : d.unexplained Json.display (Mapping.blank ids) = d.removedNodes := by
      simp [Diff.unexplained, Mapping.explains_blank]
    obtain ⟨first, others, shape⟩ := List.exists_cons_of_ne_nil some_
    simp only [Diff.enforce, missing, shape]

def ofFile (path : String) : Snapshot where
  records := .blueprint [⟨.str path, .str "python", 0, 0⟩] []
  stats := []
  errors := []
  warnings := []

def fileMove (source target : String) : Diff Json where
  kind := .blueprint
  addedNodes := [.str target]
  removedNodes := [.str source]
  addedEdges := []
  removedEdges := []
  moves := [⟨.str source, .str target, 0, true⟩]

/-- A file that moves to another directory is a suggested move by its base name. -/
theorem diff_ofFile {source target : String} (other : source ≠ target)
    (base : Path.baseName source = Path.baseName target) :
    (ofFile source).diff (ofFile target) = .ok (fileMove source target) := by
  have view (path : String) : (ofFile path).textView? = some ⟨.blueprint, [path], []⟩ := rfl
  have minus {a b : String} (different : a ≠ b) : sortedMinus [a] [b] = [a] := by
    simp [sortedMinus, sortWith, eraseDups_cons, different]
  have noEdges : sortedMinus ([] : List (EdgeKey String)) [] = [] := by
    simp [sortedMinus, sortWith]
  have noScore : GraphView.bestFrom
      (GraphView.score (Naming.ofKind .blueprint) ⟨.blueprint, [source], []⟩
      ⟨.blueprint, [target], []⟩ source) none [target] = none := by
    simp [GraphView.bestFrom, GraphView.score, GraphView.neighbours, sharedCount]
  have move : GraphView.move? (Naming.ofKind .blueprint) ⟨.blueprint, [source], []⟩
      ⟨.blueprint, [target], []⟩
      [target] source = some ⟨source, target, 0, true⟩ := by
    unfold GraphView.move?
    rw [noScore]
    simp [Naming.ofKind, GraphKind.baseName, base, sole?]
  have kinds : ((ofFile source).kind != (ofFile target).kind) = false := rfl
  unfold diff
  rw [kinds, view, view]
  simp [GraphView.diff, minus other, minus other.symm, noEdges, move, fileMove, Diff.map]

def moveTemplate (source target : String) : List Char :=
  Text.unifyNewlines (((fileMove source target).map Json.display).template .yaml).toList

/-- One mapping and one template, with all the texts that it ends in. -/
def moveLimits (source target : String) : MappingFormat.Limits where
  writes m := m = Mapping.blank [source]
  reads text := text <:+ moveTemplate source target

/-- A line without line breaks ends at the first line feed. -/
theorem after_line {line text : List Char} (unbroken : Unbroken line) :
    ((line ++ '\n' :: text).dropWhile (· != '\n')).tail = text := by
  have all : ∀ c ∈ line, (c != '\n') = true := by
    intro c mem
    rw [bne_iff_ne]
    rintro rfl
    exact absurd (unbroken _ mem) (by decide)
  rw [dropWhile_append_of_pos all]
  rfl

/-- On the template of one move the format of the program is lawful. -/
theorem yaml_lawful : MappingFormat.yaml.Lawful (moveLimits "x/a.py" "y/a.py") := by
  have skipped : (moveTemplate "x/a.py" "y/a.py").tails.all (fun text => text.head? != some '#' ||
      decide (∀ m ∈ (MappingFormat.yaml.read (text.tail.dropWhile (· != '\n')).tail).toOption.bind
        Yaml.Document.mappings?, MappingFormat.yaml.Reads text m)) = true := by
    decide +kernel
  refine ⟨?_, ?_, ?_⟩
  · rintro m - rfl
    decide +kernel
  · intro line text m unbroken inside reads
    have found := all_eq_true.mp skipped _ ((mem_tails _ _).mpr inside)
    simp only [head?_cons, tail_cons, after_line unbroken, bne_self_eq_false, Bool.false_or,
      decide_eq_true_eq] at found
    exact found m reads
  · intro line text _ inside
    have rest : text <:+ line ++ '\n' :: text :=
      (suffix_cons '\n' text).trans (suffix_append line _)
    exact (rest.trans (suffix_cons '#' _)).trans inside

/-- The template of a move of one file loads, and it does not pass as it is. -/
theorem template_loads_fileMove :
    (ofFile "x/a.py").diff (ofFile "y/a.py") = .ok (fileMove "x/a.py" "y/a.py") ∧
      ∃ ids : List String, (∀ id, id ∈ ids ↔ id = "x/a.py") ∧
        (fileMove "x/a.py" "y/a.py").reload .yaml = .ok (Mapping.blank ids) ∧
        (fileMove "x/a.py" "y/a.py").enforce Json.display (Mapping.blank ids) =
          .error ⟨["x/a.py"]⟩ := by
  have made : (ofFile "x/a.py").diff (ofFile "y/a.py") = .ok (fileMove "x/a.py" "y/a.py") :=
    diff_ofFile (by decide) (by decide +kernel)
  have texts : ∀ id ∈ (ofFile "x/a.py").nodeIds, id.IsText := by
    simp [ofFile, nodeIds, nodes, Json.IsText]
  have fits : Diff.FitsTemplate .yaml (moveLimits "x/a.py" "y/a.py")
      ((fileMove "x/a.py" "y/a.py").map Json.display) := by
    refine ⟨?_, ?_, suffix_refl _⟩
    · simp only [Diff.map, fileMove, List.map_cons, List.map_nil, List.mem_singleton,
        forall_eq, Json.display]
      exact ⟨Diff.unbroken_of_all (by decide), Diff.unbroken_of_all (by decide)⟩
    · simp [moveLimits, Diff.map, fileMove, Json.display, sortedDistinct, sortWith, eraseDups_cons]
  obtain ⟨ids, -, members, read, missing⟩ :=
    template_loads .yaml _ yaml_lawful (ofFile "x/a.py") (ofFile "y/a.py") made texts fits
  refine ⟨made, ids, ?_, read, missing (by simp [fileMove])⟩
  intro id
  rw [members]
  simp [fileMove]

/-- A line break in a name ends the comment early. What follows it in the name is part of the
document, in any format, and no document in YAML. -/
theorem template_unloadable :
    (ofFile "x/a\nb.py").diff (ofFile "y/a\nb.py") = .ok (fileMove "x/a\nb.py" "y/a\nb.py") ∧
      (∀ F : MappingFormat, ∃ document,
        ((fileMove "x/a\nb.py" "y/a\nb.py").map Json.display).template F =
        "# Explain every removed node before running with --require-mapping.\n# suggested: x/a\n" ++
          "b.py -> y/a\nb.py (move, score 0)\n" ++ document) ∧
      ∀ m, (fileMove "x/a\nb.py" "y/a\nb.py").reload .yaml ≠ .ok m := by
  refine ⟨diff_ofFile (by decide) (by decide +kernel), fun F => ?_, ?_⟩
  · have comments : "\n".intercalate
        ("# Explain every removed node before running with --require-mapping." ::
        (((fileMove "x/a\nb.py" "y/a\nb.py").map Json.display).moves.map Diff.moveComment)) ++
          "\n" =
        "# Explain every removed node before running with --require-mapping.\n# suggested: x/a\n" ++
          "b.py -> y/a\nb.py (move, score 0)\n" := by
      decide +kernel
    rw [Diff.template, comments]
    exact ⟨_, rfl⟩
  · have fails : ((fileMove "x/a\nb.py" "y/a\nb.py").reload .yaml).toOption.isNone = true := by
      decide +kernel
    intro m read
    rw [read] at fails
    simp [Except.toOption] at fails

end Snapshot

end CodeAtlas
