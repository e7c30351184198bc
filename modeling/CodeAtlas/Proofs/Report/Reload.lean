import CodeAtlas.Proofs.Json.Fields
import CodeAtlas.Proofs.Json.OneLine
import CodeAtlas.Report.Export
import CodeAtlas.Report.Reader

/-!
Reports that are stored and loaded again.

Both formats are read by one reader that has to tell them apart. It gets the same document either
way: an object that holds the kind, the statistics and the records (`ofDocument_of_holds`). For a
document on its own this is what the text of a value reads back as. For one record a line it comes
from two facts: no line is cut (`Stored.lines_text`), and the lines of a group add its records at
the end (`Group.readLines`).

* `reload` says that a report with its declared types comes back from both formats.
* A report with an integer that has too many digits is not written at all (`write_eq_longInteger`).
-/

namespace CodeAtlas

open Json List Text

variable {v : Json} {r : FileRecord} {item : List (String × Json)}

/-! ### Declared types -/

/-- A value that is neither a fraction nor has parts. -/
inductive Json.IsAtom : Json → Prop
  | null : IsAtom null
  | bool (b : Bool) : IsAtom (bool b)
  | int (n : Int) : IsAtom (int n)
  | str (s : String) : IsAtom (str s)

/-- A value without parts and fractions is finite. -/
theorem Json.IsAtom.isFinite (h : v.IsAtom) : v.IsFinite := by
  cases h with
  | null => exact .null
  | bool b => exact .bool b
  | int n => exact .int n
  | str s => exact .str s

theorem Json.IsAtom.sorted_eq (h : v.IsAtom) : v.sorted = v := by
  cases h <;> rfl

def Json.IsText (v : Json) : Prop :=
  ∃ s, v = str s

def Json.IsOptionalText (v : Json) : Prop :=
  v = null ∨ v.IsText

def Json.IsOptionalLine (v : Json) : Prop :=
  v = null ∨ ∃ n, v = int n

theorem Json.IsText.isAtom (h : v.IsText) : v.IsAtom := by
  obtain ⟨s, rfl⟩ := h
  exact .str s

theorem Json.IsOptionalText.isAtom (h : v.IsOptionalText) : v.IsAtom := by
  rcases h with rfl | h
  · exact .null
  · exact h.isAtom

theorem Json.IsOptionalLine.isAtom (h : v.IsOptionalLine) : v.IsAtom := by
  rcases h with rfl | ⟨n, rfl⟩
  · exact .null
  · exact .int n

structure FileRecord.IsTyped (r : FileRecord) : Prop where
  path : r.path.IsText
  language : r.language.IsText

structure ReferenceRecord.IsTyped (r : ReferenceRecord) : Prop where
  source : r.source.IsText
  target : r.target.IsOptionalText
  written : r.written.IsText
  kind : r.kind.IsText
  line : r.line.IsOptionalLine

structure FunctionRecord.IsTyped (r : FunctionRecord) : Prop where
  id : r.id.IsText
  name : r.name.IsText
  kind : r.kind.IsText
  file : r.file.IsText
  language : r.language.IsText

structure CallRecord.IsTyped (r : CallRecord) : Prop where
  source : r.source.IsText
  target : r.target.IsOptionalText
  written : r.written.IsText

structure ErrorRecord.IsTyped (r : ErrorRecord) : Prop where
  path : r.path.IsText
  message : r.message.IsText

structure WarningRecord.IsTyped (r : WarningRecord) : Prop where
  path : r.path.IsText
  message : r.message.IsText
  line : r.line.IsOptionalLine

def GraphRecords.IsTyped : GraphRecords → Prop
  | .blueprint nodes edges => (∀ n ∈ nodes, n.IsTyped) ∧ ∀ e ∈ edges, e.IsTyped
  | .callgraph nodes edges => (∀ n ∈ nodes, n.IsTyped) ∧ ∀ e ∈ edges, e.IsTyped

/-- A snapshot has its declared types; its statistics are an object with finite values. -/
structure Snapshot.IsTyped (s : Snapshot) : Prop where
  records : s.records.IsTyped
  stats : ∃ fields, s.stats = .ofFields fields ∧ (obj fields).IsFinite
  errors : ∀ e ∈ s.errors, e.IsTyped
  warnings : ∀ w ∈ s.warnings, w.IsTyped

/-- Two snapshots that differ in the order of fields inside the statistics only. -/
structure Snapshot.Same (s t : Snapshot) : Prop where
  records : s.records = t.records
  stats : ∃ fields others, s.stats = .ofFields fields ∧ t.stats = .ofFields others ∧
    Json.Same (obj fields) (obj others)
  errors : s.errors = t.errors
  warnings : s.warnings = t.warnings

/-! ### Records -/

/-- The fields of a record: named differently, none of them `type`, and without parts. -/
structure IsRecord (fields : List (String × Json)) : Prop where
  distinct : (fields.map Prod.fst).Nodup
  untagged : "type" ∉ fields.map Prod.fst
  atoms : ∀ f ∈ fields, f.2.IsAtom

/-- A record with its declared types has the fields of a record. -/
theorem FileRecord.IsTyped.isRecord (h : r.IsTyped) : IsRecord r.fields := by
  refine ⟨by simp [fields], by simp [fields], ?_⟩
  simp only [fields, forall_mem_cons]
  exact ⟨h.path.isAtom, h.language.isAtom, .int _, .int _, by simp⟩

theorem ReferenceRecord.IsTyped.isRecord {r : ReferenceRecord} (h : r.IsTyped) :
    IsRecord r.fields := by
  refine ⟨by simp [fields], by simp [fields], ?_⟩
  simp only [fields, forall_mem_cons]
  exact ⟨h.source.isAtom, h.target.isAtom, h.written.isAtom, h.kind.isAtom, h.line.isAtom,
    .bool _, by simp⟩

theorem FunctionRecord.IsTyped.isRecord {r : FunctionRecord} (h : r.IsTyped) :
    IsRecord r.fields := by
  refine ⟨by simp [fields], by simp [fields], ?_⟩
  simp only [fields, forall_mem_cons]
  exact ⟨h.id.isAtom, h.name.isAtom, h.kind.isAtom, h.file.isAtom, .int _,
    h.language.isAtom, by simp⟩

theorem CallRecord.IsTyped.isRecord {r : CallRecord} (h : r.IsTyped) : IsRecord r.fields := by
  refine ⟨by simp [fields], by simp [fields], ?_⟩
  simp only [fields, forall_mem_cons]
  exact ⟨h.source.isAtom, h.target.isAtom, h.written.isAtom, .int _, .bool _, by simp⟩

theorem ErrorRecord.IsTyped.isRecord {r : ErrorRecord} (h : r.IsTyped) : IsRecord r.fields := by
  refine ⟨by simp [fields], by simp [fields], ?_⟩
  simp only [fields, forall_mem_cons]
  exact ⟨h.path.isAtom, h.message.isAtom, by simp⟩

theorem WarningRecord.IsTyped.isRecord {r : WarningRecord} (h : r.IsTyped) : IsRecord r.fields := by
  refine ⟨by simp [fields], by simp [fields], ?_⟩
  simp only [fields, forall_mem_cons]
  exact ⟨h.path.isAtom, h.line.isAtom, h.message.isAtom, by simp⟩

/-- Each field that an object holds is read as it is, required or with a default. -/
theorem Json.Holds.reads {v : Json} {fields : List (String × Json)} (holds : v.Holds fields) :
    ∀ f ∈ fields, v.required f.1 = .ok f.2 ∧ ∀ default, v.fieldOr f.1 default = f.2 := by
  intro f inside
  refine ⟨?_, fun default => by rw [fieldOr, holds.field? inside]; rfl⟩
  obtain ⟨members, rfl, found⟩ := holds
  rw [required, found f inside]

/-! A record is read off any object that holds its fields. -/

theorem FileRecord.ofJson_of_holds (holds : v.Holds r.fields) : ofJson v = .ok r := by
  have reads := holds.reads
  simp only [fields, forall_mem_cons] at reads
  simp only [ofJson, integerField, reads]
  rfl

theorem ReferenceRecord.ofJson_of_holds {r : ReferenceRecord} (holds : v.Holds r.fields) :
    ofJson v = .ok r := by
  have reads := holds.reads
  simp only [fields, forall_mem_cons] at reads
  simp only [ofJson, flagField, reads]
  rfl

theorem FunctionRecord.ofJson_of_holds {r : FunctionRecord} (holds : v.Holds r.fields) :
    ofJson v = .ok r := by
  have reads := holds.reads
  simp only [fields, forall_mem_cons] at reads
  simp only [ofJson, integerField, reads]
  rfl

theorem CallRecord.ofJson_of_holds {r : CallRecord} (holds : v.Holds r.fields) :
    ofJson v = .ok r := by
  have reads := holds.reads
  simp only [fields, forall_mem_cons] at reads
  simp only [ofJson, integerField, flagField, reads]
  rfl

theorem ErrorRecord.ofJson_of_holds {r : ErrorRecord} (holds : v.Holds r.fields) :
    ofJson v = .ok r := by
  have reads := holds.reads
  simp only [fields, forall_mem_cons] at reads
  simp only [ofJson, reads]
  rfl

theorem WarningRecord.ofJson_of_holds {r : WarningRecord} (holds : v.Holds r.fields) :
    ofJson v = .ok r := by
  have reads := holds.reads
  simp only [fields, forall_mem_cons] at reads
  simp only [ofJson, reads]
  rfl

/-- Values that hold the fields of records are read as these records. -/
theorem mapM_of_forall₂ {α : Type} {read : Json → ReportResult α}
    {fields : α → List (String × Json)} (reads : ∀ v r, v.Holds (fields r) → read v = .ok r)
    {values : List Json} {records : List α}
    (hold : List.Forall₂ Json.Holds values (records.map fields)) :
    values.mapM read = .ok records := by
  rw [forall₂_map_right_iff] at hold
  induction hold with
  | nil => rfl
  | cons first _ ih =>
    rw [mapM_cons, reads _ _ first, ih]
    rfl

namespace Snapshot

variable {s : Snapshot} {nodes edges errors warnings : List Json}

/-! ### Documents -/

structure Parts (s : Snapshot) (nodes edges errors warnings : List Json) : Prop where
  nodes : List.Forall₂ Json.Holds nodes s.nodeFields
  edges : List.Forall₂ Json.Holds edges s.edgeFields
  errors : List.Forall₂ Json.Holds errors (s.errors.map (·.fields))
  warnings : List.Forall₂ Json.Holds warnings (s.warnings.map (·.fields))

/-- The nodes and edges of a document are read back, for either kind of graph. -/
theorem Parts.readRecords
    (parts : Parts s nodes edges errors warnings) :
    readRecords s.kind nodes edges = .ok s.records := by
  have ns := parts.nodes
  have es := parts.edges
  rcases records : s.records with ⟨files, references⟩ | ⟨functions, calls⟩ <;>
    simp only [nodeFields, edgeFields, records] at ns es
  · rw [kind, records, Snapshot.readRecords,
      mapM_of_forall₂ (fun _ _ => FileRecord.ofJson_of_holds) ns,
      mapM_of_forall₂ (fun _ _ => ReferenceRecord.ofJson_of_holds) es]
    rfl
  · rw [kind, records, Snapshot.readRecords,
      mapM_of_forall₂ (fun _ _ => FunctionRecord.ofJson_of_holds) ns,
      mapM_of_forall₂ (fun _ _ => CallRecord.ofJson_of_holds) es]
    rfl

/-- **A document is read off any object that holds its parts.** -/
theorem ofDocument_of_holds {v : Json} {stats : List (String × Json)}
    (parts : Parts s nodes edges errors warnings)
    (holds : v.Holds [("kind", .str s.kind.text), ("nodes", .arr nodes), ("edges", .arr edges),
      ("stats", .obj stats), ("errors", .arr errors), ("warnings", .arr warnings)]) :
    ofDocument v = .ok { s with stats := .ofFields stats } := by
  have reads := holds.reads
  simp only [forall_mem_cons] at reads
  obtain ⟨⟨-, hkind⟩, ⟨-, hnodes⟩, ⟨-, hedges⟩, ⟨-, hstats⟩, ⟨-, herrors⟩, ⟨-, hwarnings⟩, -⟩ :=
    reads
  have errorsRead : readParts ErrorRecord.ofJson (.arr errors) = .ok s.errors :=
    mapM_of_forall₂ (fun _ _ => ErrorRecord.ofJson_of_holds) parts.errors
  have warningsRead : readParts WarningRecord.ofJson (.arr warnings) = .ok s.warnings :=
    mapM_of_forall₂ (fun _ _ => WarningRecord.ofJson_of_holds) parts.warnings
  obtain ⟨members, rfl, -⟩ := holds
  simp only [ofDocument, hkind, hnodes, hedges, hstats, herrors, hwarnings, Json.text?,
    Option.bind_some, bind, GraphKind.ofText?_eq_some.mpr rfl, parts.readRecords, errorsRead,
    warningsRead, readStats]
  rfl

/-! ### Texts -/

end Snapshot

theorem Statistics.text_ofFields (layout : Layout) (depth : Nat) (fields : List (String × Json)) :
    (ofFields fields).text layout depth = .ok (render layout depth (.obj fields)) := by
  have compares : ((ofFields fields).all fun a => (ofFields fields).all fun b =>
      a.1.sameKey b.1 || a.1.isComparable b.1) = true := by
    simp [ofFields, isComparable, text?]
  have byName : ((ofFields fields).mergeSort fun a b => (a.1.compareKey b.1).isLE) =
      (sortFields fields).map fun m => (.str m.1, m.2) := by
    rw [ofFields, sortFields, map_mergeSort]
    intro a _ b _
    rfl
  rw [text, sorted, compares, byName, render, renderFields_eq_map, sortFields_map]
  simp only [Bool.true_or, if_true, bind, Except.bind, pure, Except.pure, map_map]
  rfl

namespace Snapshot

variable {s : Snapshot} {stats : List (String × Json)}

/-- A record with statistics is written as one object. -/
theorem withStats_ofFields (layout : Layout) (fields stats : List (String × Json)) :
    withStats layout fields (.ofFields stats) =
      .ok (render layout 0 (.obj (("stats", .obj stats) :: fields))) := by
  have whole : render layout 0 (.obj (("stats", .obj stats) :: fields)) = objectText layout 0
      (sortFields (("stats", render layout 1 (.obj stats)) :: renderFields layout 1 fields)) := by
    rw [render, renderFields]
  rw [withStats, Statistics.text_ofFields, whole]
  rfl

def members (s : Snapshot) (stats : List (String × Json)) : List (String × Json) :=
  [("stats", .obj stats), ("kind", .str s.kind.text), ("nodes", .arr (s.nodeFields.map .obj)),
    ("edges", .arr (s.edgeFields.map .obj)), ("errors", .arr ((s.errors.map (·.fields)).map .obj)),
    ("warnings", .arr ((s.warnings.map (·.fields)).map .obj))]

def headMembers (s : Snapshot) (stats : List (String × Json)) : List (String × Json) :=
  [("stats", .obj stats), ("type", .str "stats"), ("kind", .str s.kind.text)]

def recordLine (type : String) (item : List (String × Json)) : List Char :=
  (Json.obj (("type", .str type) :: item)).compact.toList

/-- The records of a snapshot behind the first one, with their types. -/
def tagged (s : Snapshot) : List (List Char) :=
  s.nodeFields.map (recordLine "node") ++ s.edgeFields.map (recordLine "edge")
    ++ (s.errors.map (·.fields)).map (recordLine "error")
    ++ (s.warnings.map (·.fields)).map (recordLine "warning")

/-- Lines joined by line feeds, with one more at the end. -/
theorem intercalate_eq_unlines {parts : List (List Char)} (nonempty : parts ≠ []) :
    ['\n'].intercalate parts ++ ['\n'] = unlines parts := by
  induction parts with
  | nil => exact absurd rfl nonempty
  | cons part parts ih =>
    cases parts with
    | nil => simp [unlines]
    | cons next parts =>
      have rest := ih (by simp)
      rw [intercalate_cons_cons, append_assoc, rest]
      simp [unlines]

theorem text_json (named : s.stats = .ofFields stats) :
    s.text .json = .ok (Json.obj (s.members stats)).pretty := by
  rw [text, named, withStats_ofFields, members, map_map, map_map]
  rfl

/-- The text of a report with one record a line. -/
theorem text_jsonl (named : s.stats = .ofFields stats) :
    ∃ text, s.text .jsonl = .ok text ∧ text.toList =
      unlines ((Json.obj (s.headMembers stats)).compact.toList :: s.tagged) := by
  refine ⟨_, by rw [text, named, withStats_ofFields]; rfl, ?_⟩
  rw [← intercalate_eq_unlines (by simp), OutputFormat.recordLines, String.toList_append]
  simp [tagged, headMembers, compact]
  rfl

/-! ### What is written has a text -/

end Snapshot

theorem IsRecord.isFinite (record : IsRecord item) : (Json.obj item).IsFinite :=
  .obj record.distinct fun f hf => (record.atoms f hf).isFinite

/-- The type of a record is a field of its own. -/
theorem IsRecord.distinct_tag (record : IsRecord item) (type : String) :
    ((("type", Json.str type) :: item).map Prod.fst).Nodup :=
  nodup_cons.mpr ⟨record.untagged, record.distinct⟩

theorem IsRecord.tag (record : IsRecord item) (short : (Json.obj item).isWritable = true)
    (type : String) :
    Storable (.obj (("type", .str type) :: item)) := by
  refine IsFinite.storable (.obj (record.distinct_tag type) ?_)
    (by simpa [isWritable, fieldsWritable] using short)
  exact forall_mem_cons.mpr ⟨.str type, fun f hf => (record.atoms f hf).isFinite⟩

/-- The fields of a record have no fields inside to put in order. -/
theorem IsRecord.map_sorted (record : IsRecord item) :
    item.map (fun m => (m.1, m.2.sorted)) = item := by
  have unchanged : item.map (fun m => (m.1, m.2.sorted)) = item.map id :=
    map_congr_left fun f hf => by rw [(record.atoms f hf).sorted_eq]; rfl
  rwa [map_id] at unchanged

/-- A record whose fields are in order holds its fields. -/
theorem IsRecord.holds_sorted (record : IsRecord item) : (Json.obj item).sorted.Holds item := by
  have held := Json.holds_sorted record.distinct
  rwa [record.map_sorted] at held

/-- Statistics with different names are kept as they are. -/
theorem Statistics.fields_ofFields {stats : List (String × Json)}
    (distinct : (stats.map Prod.fst).Nodup) : (ofFields stats).fields = stats := by
  have collected : (ofFields stats).fields = collectFields stats := by
    rw [fields, ofFields, foldl_map, collectFields]
    rfl
  rw [collected, collectFields_of_nodup distinct]

namespace Snapshot

variable {s : Snapshot} {stats item : List (String × Json)}
  {items : List (List (String × Json))} {type : String}
  {push : LineRecords → List Json → LineRecords}

/-- The nodes and edges of a typed report are records. -/
theorem IsTyped.isRecord (typed : s.IsTyped) :
    (∀ item ∈ s.nodeFields, IsRecord item) ∧ ∀ item ∈ s.edgeFields, IsRecord item := by
  have records := typed.records
  rcases same : s.records with _ | _ <;> rw [same] at records <;>
    simp only [nodeFields, edgeFields, same, forall_mem_map] <;>
    exact ⟨fun n mem => (records.1 n mem).isRecord, fun e mem => (records.2 e mem).isRecord⟩

def AreRecords (items : List (List (String × Json))) : Prop :=
  ∀ item ∈ items, IsRecord item ∧ (Json.obj item).isWritable = true

/-- What a snapshot with its declared types and without long integers consists of. -/
structure Stored (s : Snapshot) (stats : List (String × Json)) : Prop where
  named : s.stats = .ofFields stats
  isFinite : (Json.obj stats).IsFinite
  stats : (Json.obj stats).isWritable = true
  nodes : AreRecords s.nodeFields
  edges : AreRecords s.edgeFields
  errors : AreRecords (s.errors.map (·.fields))
  warnings : AreRecords (s.warnings.map (·.fields))

/-- A typed report without long integers consists of what can be stored. -/
theorem IsTyped.stored (typed : s.IsTyped) (short : s.toJson.isWritable = true) :
    ∃ stats, s.Stored stats := by
  obtain ⟨stats, named, finite⟩ := typed.stats
  have distinct : (stats.map Prod.fst).Nodup := by
    cases finite
    assumption
  simp only [toJson, named, Statistics.fields_ofFields distinct, isWritable, fieldsWritable,
    areWritable_iff, Bool.and_eq_true, forall_mem_map] at short
  obtain ⟨-, nodes, edges, stats', errors, warnings, -⟩ := short
  refine ⟨stats, named, finite, ?_, ?_, ?_, ?_, ?_⟩
  · simpa [isWritable] using stats'
  · exact fun item hitem =>
      ⟨typed.isRecord.1 item hitem, by simpa [isWritable] using nodes item hitem⟩
  · exact fun item hitem =>
      ⟨typed.isRecord.2 item hitem, by simpa [isWritable] using edges item hitem⟩
  · exact forall_mem_map.mpr fun e he =>
      ⟨(typed.errors e he).isRecord, by simpa [isWritable] using errors e he⟩
  · exact forall_mem_map.mpr fun w hw =>
      ⟨(typed.warnings w hw).isRecord, by simpa [isWritable] using warnings w hw⟩

/-! ### One document -/

theorem Stored.storable_stats (stored : s.Stored stats) : Storable (.obj stats) :=
  stored.isFinite.storable stored.stats

theorem storable_records (records : AreRecords items) :
    Storable (.arr (items.map .obj)) :=
  .arr (forall_mem_map.mpr fun item hitem =>
    (records item hitem).1.isFinite.storable (records item hitem).2)

theorem sorted_records (items : List (List (String × Json))) :
    (Json.arr (items.map .obj)).sorted = .arr (items.map fun item => (Json.obj item).sorted) := by
  rw [sorted, sortedItems_eq_map, map_map]
  rfl

/-- Each of them comes back with its fields. -/
theorem holds_records (records : AreRecords items) :
    List.Forall₂ Json.Holds (items.map fun item => (Json.obj item).sorted) items := by
  have related := forall₂_map_of_forall fun item hitem => (records item hitem).1.holds_sorted
  rwa [map_id'] at related

def sortedStats (stats : List (String × Json)) : List (String × Json) :=
  (sortFields stats).map fun m => (m.1, m.2.sorted)

/-- **A report comes back from one document.** -/
theorem Stored.parse_json (stored : s.Stored stats) :
    parse (Json.obj (s.members stats)).pretty.toList =
      .ok { s with stats := .ofFields (sortedStats stats) } := by
  have distinct : ((s.members stats).map Prod.fst).Nodup := by simp [members]
  have storable : Storable (.obj (s.members stats)) := by
    refine .obj distinct ?_
    simp only [members, forall_mem_cons]
    exact ⟨stored.storable_stats, .str _, storable_records stored.nodes,
      storable_records stored.edges, storable_records stored.errors,
      storable_records stored.warnings, by simp⟩
  have notHead : isStatsRecord (Json.obj (s.members stats)).sorted = false := by
    rw [isStatsRecord, field?_sorted_of_not_mem (by simp [members])]
  have parts : Parts s _ _ _ _ := ⟨holds_records stored.nodes, holds_records stored.edges,
    holds_records stored.errors, holds_records stored.warnings⟩
  have held := Json.holds_sorted distinct
  rw [parse, pretty, parse_render storable]
  simp only [notHead]
  refine ofDocument_of_holds parts (held.mono ?_)
  simp only [members, map_cons, map_nil, sorted_records, sorted_obj]
  simp [sortedStats, sorted]

/-! ### One record a line -/

theorem toList_obj (layout : Layout) (depth : Nat) (members : List (String × Json)) :
    ∃ tail, (render layout depth (.obj members)).toList = '{' :: tail := by
  rw [render, objectText, bracketed]
  split <;> exact ⟨_, by simp only [String.toList_append, append_assoc]; rfl⟩

/-- A line with an object is read and added. -/
theorem readLines_cons {members : List (String × Json)} (storable : Storable (.obj members))
    (r : LineRecords) (number : Nat) (lines : List (List Char × Nat)) :
    readLines r (((Json.obj members).compact.toList, number) :: lines) =
      r.add number (Json.obj members).sorted >>= fun r => readLines r lines := by
  have read := parse_render storable .inline
  obtain ⟨tail, text⟩ := toList_obj .inline 0 members
  have shown : isAllBlank (Json.obj members).compact.toList = false := by
    rw [compact, text, isAllBlank, all_cons]
    rfl
  rw [readLines, shown, compact, read]
  rfl

structure Group (type : String) (push : LineRecords → List Json → LineRecords) : Prop where
  none : ∀ r, push r [] = r
  append : ∀ r vs ws, push (push r vs) ws = push r (vs ++ ws)
  add : ∀ r number members, members.lookup "type" = some (.str type) →
    LineRecords.add r number (.obj members) = .ok (push r [.obj (members.filter (·.1 != "type"))])

/-- The four groups of records. Each is kept in a list of its own. -/
theorem groups : Group "node" (fun r vs => { r with nodes := r.nodes ++ vs }) ∧
    Group "edge" (fun r vs => { r with edges := r.edges ++ vs }) ∧
    Group "error" (fun r vs => { r with errors := r.errors ++ vs }) ∧
    Group "warning" fun r vs => { r with warnings := r.warnings ++ vs } := by
  refine ⟨?_, ?_, ?_, ?_⟩ <;>
    exact ⟨by simp, by simp, fun r number members type => by rw [LineRecords.add, type]; rfl⟩

def untagged (type : String) (item : List (String × Json)) : Json :=
  .obj ((sortedStats (("type", .str type) :: item)).filter (·.1 != "type"))

/-- A record without its type holds its fields. -/
theorem holds_untagged (record : IsRecord item) (type : String) :
    (untagged type item).Holds item := by
  have held := Json.holds_sorted (record.distinct_tag type)
  rw [map_cons, record.map_sorted, sorted_obj] at held
  exact holds_filter (held.mono fun f hf => mem_cons_of_mem _ hf) record.untagged

/-- A line of a group adds its record at the end. -/
theorem Group.add_sorted (group : Group type push) (record : IsRecord item) (r : LineRecords)
    (number : Nat) :
    r.add number (Json.obj (("type", .str type) :: item)).sorted =
      .ok (push r [untagged type item]) := by
  have tag := (Json.holds_sorted (record.distinct_tag type)).field? mem_cons_self
  rw [sorted_obj] at tag ⊢
  exact group.add r number _ tag

/-- **The lines of a group add its records at the end.** -/
theorem Group.readLines (group : Group type push) (records : AreRecords items)
    (lines : List (List Char)) (r : LineRecords) (number : Nat) :
    readLines r ((items.map (recordLine type) ++ lines).zipIdx number) =
      readLines (push r (items.map (untagged type))) (lines.zipIdx (number + items.length)) := by
  induction items generalizing r number with
  | nil => simp [group.none]
  | cons item items ih =>
    obtain ⟨⟨record, short⟩, others⟩ := forall_mem_cons.mp records
    have rest := ih others (push r [untagged type item]) (number + 1)
    rw [group.append] at rest
    rw [map_cons, cons_append, zipIdx_cons, recordLine,
      readLines_cons (record.tag short type), group.add_sorted record, length_cons,
      Nat.add_comm items.length, ← Nat.add_assoc]
    exact rest

/-- All records of a group hold their fields. -/
theorem holds_untagged_all (records : AreRecords items) (type : String) :
    List.Forall₂ Json.Holds (items.map (untagged type)) items := by
  have related := forall₂_map_of_forall fun item hitem => holds_untagged (records item hitem).1 type
  rwa [map_id'] at related

/-- The first line gives the kind and the statistics. -/
theorem add_head (s : Snapshot) (stats : List (String × Json)) (r : LineRecords) (number : Nat) :
    r.add number (Json.obj (s.headMembers stats)).sorted =
      .ok { r with head := some (.str s.kind.text, .obj (sortedStats stats)) } := by
  have distinct : ((s.headMembers stats).map Prod.fst).Nodup := by simp [headMembers]
  have held := Json.holds_sorted distinct
  have type_ : (Json.obj (s.headMembers stats)).sorted.field? "type" = some (.str "stats") :=
    held.field? (by simp [headMembers, sorted])
  have others : (Json.obj (s.headMembers stats)).sorted.Holds
      [("kind", .str s.kind.text), ("stats", (Json.obj stats).sorted)] :=
    held.mono (by simp [headMembers, sorted])
  rw [sorted_obj] at others type_ ⊢
  rw [field?] at type_
  have rest : (Json.obj (filter (·.1 != "type") _)).Holds _ := holds_filter others (by simp)
  have reads := rest.reads
  simp only [forall_mem_cons] at reads
  obtain ⟨⟨-, kind⟩, ⟨-, stats_⟩, -⟩ := reads
  rw [LineRecords.add, type_]
  simp only [kind, stats_, sorted_obj]
  rfl

theorem Stored.storable_head (stored : s.Stored stats) : Storable (.obj (s.headMembers stats)) := by
  refine .obj (by simp [headMembers]) ?_
  simp only [headMembers, forall_mem_cons]
  exact ⟨stored.storable_stats, .str _, .str _, by simp⟩

/-- The text of a value without indentation is one line. -/
theorem oneLine_compact {v : Json} (storable : Storable v) : Text.OneLine v.compact.toList :=
  fun c hc => (printable_render storable 0 c hc).not_isLineBreak

/-- **No line is cut**, whatever the texts in it hold. -/
theorem Stored.lines_text (stored : s.Stored stats) :
    lines (unlines ((Json.obj (s.headMembers stats)).compact.toList :: s.tagged)) =
      (Json.obj (s.headMembers stats)).compact.toList :: s.tagged := by
  have tag {type : String} {items : List (List (String × Json))} (records : AreRecords items) :
      ∀ line ∈ items.map (recordLine type), Text.OneLine line :=
    forall_mem_map.mpr fun item hitem =>
      oneLine_compact ((records item hitem).1.tag (records item hitem).2 type)
  refine lines_unlines (forall_mem_cons.mpr ⟨oneLine_compact stored.storable_head, ?_⟩)
  simp only [tagged, forall_mem_append]
  exact ⟨⟨⟨tag stored.nodes, tag stored.edges⟩, tag stored.errors⟩, tag stored.warnings⟩

def lineRecords (s : Snapshot) (stats : List (String × Json)) : LineRecords where
  nodes := s.nodeFields.map (untagged "node")
  edges := s.edgeFields.map (untagged "edge")
  errors := (s.errors.map (·.fields)).map (untagged "error")
  warnings := (s.warnings.map (·.fields)).map (untagged "warning")
  head := some (.str s.kind.text, .obj (sortedStats stats))

/-- The lines of a report are put together to a document. -/
theorem Stored.documentOfLines (stored : s.Stored stats) :
    documentOfLines (unlines ((Json.obj (s.headMembers stats)).compact.toList :: s.tagged)) =
      .ok (s.lineRecords stats).document := by
  have lines : s.tagged = s.nodeFields.map (recordLine "node") ++
      (s.edgeFields.map (recordLine "edge")
      ++ ((s.errors.map (·.fields)).map (recordLine "error")
        ++ ((s.warnings.map (·.fields)).map (recordLine "warning") ++ []))) := by
    simp [tagged]
  rw [Snapshot.documentOfLines, stored.lines_text, zipIdx_cons, readLines_cons stored.storable_head,
    add_head, lines]
  show (readLines _ _ >>= fun r => pure r.document) = _
  obtain ⟨nodes, edges, errors, warnings⟩ := groups
  rw [nodes.readLines stored.nodes, edges.readLines stored.edges, errors.readLines stored.errors,
    warnings.readLines stored.warnings]
  rfl

/-- That document holds all parts of the report. -/
theorem holds_document (s : Snapshot) (stats : List (String × Json)) :
    (s.lineRecords stats).document.Holds [("kind", .str s.kind.text),
      ("nodes", .arr (s.nodeFields.map (untagged "node"))),
      ("edges", .arr (s.edgeFields.map (untagged "edge"))), ("stats", .obj (sortedStats stats)),
      ("errors", .arr ((s.errors.map (·.fields)).map (untagged "error"))),
      ("warnings", .arr ((s.warnings.map (·.fields)).map (untagged "warning")))] := by
  refine ⟨_, rfl, ?_⟩
  simp only [forall_mem_cons]
  exact ⟨rfl, rfl, rfl, rfl, rfl, rfl, by simp⟩

/-- **A report comes back from one record a line.** -/
theorem Stored.parse_jsonl (stored : s.Stored stats) :
    parse (unlines ((Json.obj (s.headMembers stats)).compact.toList :: s.tagged)) =
      .ok { s with stats := .ofFields (sortedStats stats) } := by
  have parts : Parts s _ _ _ _ := ⟨holds_untagged_all stored.nodes "node",
    holds_untagged_all stored.edges "edge", holds_untagged_all stored.errors "error",
    holds_untagged_all stored.warnings "warning"⟩
  have document := ofDocument_of_holds parts (holds_document s stats)
  have lines := stored.documentOfLines
  -- A first line on its own is a document that says it is not one; with more lines it is none.
  obtain ⟨starts, reads⟩ := readsAs_render stored.storable_head .inline 0
  have isHead : isStatsRecord (Json.obj (s.headMembers stats)).sorted = true := by
    have held : (Json.obj (s.headMembers stats)).sorted.field? "type" = some (.str "stats") :=
      (Json.holds_sorted (by simp [headMembers])).field? (by simp [headMembers, sorted])
    rw [isStatsRecord, held]
    rfl
  have whole :=
    parse_readsAs starts reads (stops_cons (c := '\n') (by decide) (by decide) (by decide)
    (by decide) (unlines s.tagged))
  have text : unlines ((Json.obj (s.headMembers stats)).compact.toList :: s.tagged) =
      (render .inline 0 (.obj (s.headMembers stats))).toList ++ '\n' :: unlines s.tagged := by
    simp [unlines, compact]
  rw [← text] at whole
  by_cases alone : (skipSpace ('\n' :: unlines s.tagged)).isEmpty = true
  · rw [if_pos alone] at whole
    rw [parse, whole]
    simp only [isHead, if_true, lines]
    exact document
  · rw [if_neg alone] at whole
    rw [parse, whole]
    simp only [lines]
    exact document

/-! ### Stored and loaded again -/

/-- A report without long integers is written as its text. -/
theorem write_of_text {format : OutputFormat} {text : String}
    (short : s.toJson.isWritable = true) (written : s.text format = .ok text) :
    s.write format = .ok text := by
  rw [write, written]
  simp only [bind, Except.bind, short, if_true]
  rfl

/-- What comes back differs in the order of the statistics only. -/
theorem Stored.same (stored : s.Stored stats) :
    s.Same { s with stats := .ofFields (sortedStats stats) } where
  records := rfl
  stats := ⟨stats, sortedStats stats, stored.named, rfl,
    sorted_obj stats ▸ same_sorted stored.isFinite⟩
  errors := rfl
  warnings := rfl

/-- **Every report survives export and reload, in both formats**, if none of its integers has too
many digits to be written. -/
theorem reload {s : Snapshot} (typed : s.IsTyped) (short : s.toJson.isWritable = true)
    (format : OutputFormat) :
    ∃ text loaded, s.write format = .ok text ∧ parse text.toList = .ok loaded ∧ s.Same loaded := by
  obtain ⟨stats, stored⟩ := typed.stored short
  cases format with
  | json =>
      exact ⟨_, _, write_of_text short (text_json stored.named), stored.parse_json, stored.same⟩
  | jsonl =>
      obtain ⟨text, written, lines⟩ := text_jsonl stored.named
      exact ⟨text, _, write_of_text short written, lines ▸ stored.parse_jsonl, stored.same⟩

/-- A report with line breaks of several kinds in its texts and with fields that are not in
order. -/
def withBreaks : Snapshot where
  records := .blueprint [⟨.str "a\nb.py", .str "python", 12, 1⟩]
    [⟨.str "a\nb.py", .null, .str "x\u2028y", .str "import", .null, false⟩]
  stats := .ofFields [("n", .int 10), ("edges", .obj [("b", .bool true), ("a", .str "\x85")])]
  errors := [⟨.str "c.py", .str "\r\n"⟩]
  warnings := [⟨.str "d.rs", .str "\x1c", .int 3⟩]

theorem withBreaks_isTyped : withBreaks.IsTyped where
  records := by
    refine ⟨forall_mem_singleton.mpr ⟨⟨_, rfl⟩, ⟨_, rfl⟩⟩, forall_mem_singleton.mpr ?_⟩
    exact ⟨⟨_, rfl⟩, .inl rfl, ⟨_, rfl⟩, ⟨_, rfl⟩, .inl rfl⟩
  stats := by
    refine ⟨_, rfl, .obj (by decide) ?_⟩
    simp only [forall_mem_cons]
    refine ⟨.int 10, .obj (by decide) ?_, by simp⟩
    simp only [forall_mem_cons]
    exact ⟨.bool true, .str _, by simp⟩
  errors := forall_mem_singleton.mpr ⟨⟨_, rfl⟩, ⟨_, rfl⟩⟩
  warnings := forall_mem_singleton.mpr ⟨⟨_, rfl⟩, ⟨_, rfl⟩, .inr ⟨3, rfl⟩⟩

/-- The line breaks come back from one record a line. -/
theorem reload_withBreaks : withBreaks.IsTyped ∧ withBreaks.toJson.isWritable = true ∧
    ∃ text loaded, withBreaks.write .jsonl = .ok text ∧ parse text.toList = .ok loaded ∧
      withBreaks.Same loaded :=
  have short : withBreaks.toJson.isWritable = true := by decide
  ⟨withBreaks_isTyped, short, reload withBreaks_isTyped short .jsonl⟩

/-- A report with a long integer is not written. -/
theorem write_eq_longInteger (named : s.stats = .ofFields stats)
    (long : s.toJson.isWritable = false) (format : OutputFormat) :
    s.write format = .error .longInteger := by
  obtain ⟨text, written⟩ : ∃ text, s.text format = .ok text := by
    cases format with
    | json => exact ⟨_, text_json named⟩
    | jsonl =>
      obtain ⟨text, written, -⟩ := text_jsonl named
      exact ⟨text, written⟩
  rw [write, written]
  simp only [bind, Except.bind, long]
  rfl

def withLongInteger : Snapshot where
  records := .blueprint [⟨.str "a.py", .str "python", 10 ^ Numeral.maxDigits, 0⟩] []
  stats := .ofFields []
  errors := []
  warnings := []

/-- Not every report can be stored. -/
theorem longInteger_not_written : withLongInteger.IsTyped ∧
    ∀ format, withLongInteger.write format = .error .longInteger := by
  constructor
  · refine ⟨⟨List.forall_mem_singleton.mpr ⟨⟨_, rfl⟩, ⟨_, rfl⟩⟩, ?_⟩,
      ⟨[], rfl, .obj ?_ ?_⟩, ?_, ?_⟩ <;>
      simp [withLongInteger]
  · have digits : ¬ (Nat.toDigits 10 (10 ^ Numeral.maxDigits)).length ≤ Numeral.maxDigits := by
      rw [Nat.length_toDigits_le_iff (by decide) (by decide)]
      exact lt_irrefl _
    refine write_eq_longInteger (show withLongInteger.stats = .ofFields [] from rfl) ?_
    simp [withLongInteger, toJson, nodeFields, FileRecord.fields, isWritable,
      fieldsWritable, areWritable, Int.natAbs_pow, digits]

end Snapshot

end CodeAtlas
