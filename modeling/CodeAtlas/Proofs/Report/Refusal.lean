import Mathlib
import CodeAtlas.Command.Run

/-!
Texts that are refused as reports, and texts at which the reader breaks off.

Most faults say that a text is no report, and a caller answers them (`diffFailed_badReport`). Four
do not: the reader meets a whole number with too many digits, a line that is no record, a record
whose type cannot be looked up, or an infinite number where an integer is needed. A run stops at its
first fault, so where the reader breaks off depends on what stands before: everything there has to
be well formed (`FirstFails`).

`answers_iff` says exactly at which texts the reader breaks off. `plainLines` is such a text
(`plainLines_unanswered`).
-/

namespace CodeAtlas

open List

def ReportFault.isRefusal : ReportFault → Bool
  | recordNotKeyed | recordNotObject | infiniteNumber | longInteger => false
  | _ => true

/-- A command answers the faults that are refusals, and breaks off at the others. -/
theorem Command.diffFailed_badReport (d : Disk) (path : String) (fault : ReportFault) :
    let found := StoredDiffFault.badSnapshot path (.badReport fault)
    diffFailed d found =
      if fault.isRefusal then .refused d 1 ("Invalid input: " ++ found.fullMessage)
      else .crashed d (.stored found) := by
  dsimp only [diffFailed]
  generalize "Invalid input: " ++ _ = message
  cases fault <;> simp [ReportFault.isRefusal]

/-! ### First faults -/

def FirstFails {α : Type} (good bad : α → Prop) (xs : List α) : Prop :=
  ∃ before x after, xs = before ++ x :: after ∧ (∀ y ∈ before, good y) ∧ bad x

section FirstFails

variable {α : Type} {good bad : α → Prop}

@[simp]
theorem not_firstFails_nil : ¬ FirstFails good bad [] := by
  rintro ⟨before, x, after, split, -⟩
  simp at split

/-- The first one is bad, or it is good and one behind it fails first. -/
@[simp]
theorem firstFails_cons {x : α} {xs : List α} :
    FirstFails good bad (x :: xs) ↔ bad x ∨ good x ∧ FirstFails good bad xs := by
  constructor
  · rintro ⟨before, y, after, split, passed, failed⟩
    cases before with
    | nil =>
      obtain ⟨rfl, rfl⟩ := cons.inj split
      exact .inl failed
    | cons z before =>
      obtain ⟨rfl, rfl⟩ := cons.inj split
      refine .inr ⟨passed x mem_cons_self, before, y, after, rfl, ?_, failed⟩
      intro w mem
      exact passed w (mem_cons_of_mem x mem)
  · rintro (failed | ⟨first, before, y, after, rfl, passed, failed⟩)
    · exact ⟨[], x, xs, rfl, by simp, failed⟩
    · exact ⟨x :: before, y, after, rfl, forall_mem_cons.mpr ⟨first, passed⟩, failed⟩

end FirstFails

/-! ### Breaking off -/

namespace ReportResult

variable {α β : Type} {x : ReportResult α} {f : α → ReportResult β} {xs : List α}

def Succeeds (r : ReportResult α) : Prop :=
  ∃ a, r = .ok a

/-- Does reading end in a fault that is no refusal? -/
def Breaks (r : ReportResult α) : Prop :=
  ∃ fault, r = .error fault ∧ fault.isRefusal = false

@[simp]
theorem succeeds_ok (a : α) : Succeeds (.ok a) :=
  ⟨a, rfl⟩

@[simp]
theorem not_succeeds_error (fault : ReportFault) : ¬ Succeeds (.error fault : ReportResult α) := by
  rintro ⟨a, equal⟩
  cases equal

@[simp]
theorem not_breaks_ok (a : α) : ¬ Breaks (.ok a : ReportResult α) := by
  rintro ⟨fault, equal, -⟩
  cases equal

@[simp]
theorem not_breaks_pure (a : α) : ¬ Breaks (pure a : ReportResult α) :=
  not_breaks_ok a

@[simp]
theorem breaks_error {fault : ReportFault} :
    Breaks (.error fault : ReportResult α) ↔ fault.isRefusal = false := by
  constructor
  · rintro ⟨other, equal, broken⟩
    cases equal
    exact broken
  · intro broken
    exact ⟨fault, rfl, broken⟩

theorem succeeds_bind : Succeeds (x >>= f) ↔ ∃ a, x = .ok a ∧ Succeeds (f a) := by
  cases x with
  | error fault | ok a => simp [bind, Except.bind]

/-- Two steps break off at the first, or at the second behind a success. -/
theorem breaks_bind : Breaks (x >>= f) ↔ Breaks x ∨ ∃ a, x = .ok a ∧ Breaks (f a) := by
  cases x with
  | error fault | ok a => simp [bind, Except.bind]

/-- A second step that never breaks off does not matter. -/
theorem breaks_bind_left (calm : ∀ a, ¬ Breaks (f a)) : Breaks (x >>= f) ↔ Breaks x := by
  simp [breaks_bind, calm]

/-- Whatever does not break off is a result or a refusal. -/
theorem answer_iff {r : ReportResult α} :
    ((∃ a, r = .ok a) ∨ ∃ fault, r = .error fault ∧ fault.isRefusal = true) ↔ ¬ Breaks r := by
  cases r with
  | error fault | ok a => simp

/-- A list is read if each of its elements is. -/
theorem succeeds_mapM : Succeeds (xs.mapM f) ↔ ∀ x ∈ xs, Succeeds (f x) := by
  induction xs with
  | nil => simp [pure, Except.pure]
  | cons x xs ih =>
    rw [mapM_cons, succeeds_bind, forall_mem_cons, ← ih]
    constructor
    · rintro ⟨y, first, rest⟩
      obtain ⟨ys, others, -⟩ := succeeds_bind.mp rest
      exact ⟨⟨y, first⟩, ys, others⟩
    · rintro ⟨⟨y, first⟩, ys, others⟩
      exact ⟨y, first, succeeds_bind.mpr ⟨ys, others, succeeds_ok _⟩⟩

/-- A list breaks off at its first element that is not read, if that breaks off. -/
theorem breaks_mapM : Breaks (xs.mapM f) ↔
    FirstFails (fun x => Succeeds (f x)) (fun x => Breaks (f x)) xs := by
  induction xs with
  | nil => simp [pure, Except.pure]
  | cons x xs ih =>
    rw [mapM_cons, breaks_bind, firstFails_cons, ← ih]
    refine or_congr_right ?_
    constructor
    · rintro ⟨y, first, rest⟩
      exact ⟨⟨y, first⟩, (breaks_bind_left fun ys => not_breaks_ok _).mp rest⟩
    · rintro ⟨⟨y, first⟩, rest⟩
      exact ⟨y, first, (breaks_bind_left fun ys => not_breaks_ok _).mpr rest⟩

end ReportResult

open ReportResult

/-! ### Records -/

/-- What a record needs: a field that names it, and fields that hold integers. -/
structure RecordShape where
  name : String
  counts : List String

namespace RecordShape

def Fits (shape : RecordShape) (v : Json) : Prop :=
  Succeeds (v.required shape.name) ∧ ∀ count ∈ shape.counts, Succeeds (v.integerField count)

/-- A value has a name, and the first of its counts that is no integer is infinite. -/
def Overflows (shape : RecordShape) (v : Json) : Prop :=
  Succeeds (v.required shape.name) ∧
    FirstFails (fun count => Succeeds (v.integerField count))
      (fun count => ∃ isNegative, v.fieldOr count (.int 0) = .float (.infinite isNegative))
        shape.counts

end RecordShape

def GraphKind.nodeShape : GraphKind → RecordShape
  | .blueprint => ⟨"path", ["size_bytes", "lines"]⟩
  | .callgraph => ⟨"id", ["line"]⟩

def GraphKind.edgeShape : GraphKind → RecordShape
  | .blueprint => ⟨"from", []⟩
  | .callgraph => ⟨"from", ["line"]⟩

namespace Json

variable {v : Json}

/-- Looking up a field that must be there is refused where it is not. -/
theorem not_breaks_required (name : String) (v : Json) : ¬ Breaks (v.required name) := by
  cases v with
  | obj members =>
    rw [required]
    cases members.lookup name <;> simp [ReportFault.isRefusal]
  | _ => simp [required, ReportFault.isRefusal]

/-- Only an infinite number breaks off where an integer is needed. -/
theorem breaks_toInteger :
    Breaks v.toInteger ↔ ∃ isNegative, v = .float (.infinite isNegative) := by
  cases v with
  | float x =>
    cases x with
    | infinite isNegative => simp [toInteger, ReportFault.isRefusal]
    | _ =>
      simp only [toInteger]
      split <;> simp [ReportFault.isRefusal]
  | str s =>
    simp only [toInteger]
    split <;> simp [ReportFault.isRefusal]
  | _ => simp [toInteger, ReportFault.isRefusal]

theorem breaks_integerField {name : String} : Breaks (v.integerField name) ↔
    ∃ isNegative, v.fieldOr name (.int 0) = .float (.infinite isNegative) :=
  breaks_toInteger

end Json

def RecordShape.read {α : Type} (shape : RecordShape) (make : Json → List Int → α) (v : Json) :
    ReportResult α := do
  let name ← v.required shape.name
  let counts ← shape.counts.mapM fun count => v.integerField count
  return make name counts

section Read

variable {α : Type} {shape : RecordShape} {make : Json → List Int → α} {v : Json}

theorem RecordShape.succeeds_read : Succeeds (shape.read make v) ↔ shape.Fits v := by
  simp only [read, succeeds_bind, Fits]
  constructor
  · rintro ⟨name, named, counts, counted, -⟩
    exact ⟨⟨name, named⟩, succeeds_mapM.mp ⟨counts, counted⟩⟩
  · rintro ⟨⟨name, named⟩, counted⟩
    obtain ⟨counts, counted⟩ := succeeds_mapM.mpr counted
    exact ⟨name, named, counts, counted, succeeds_ok _⟩

/-- Reading it breaks off at an infinite count. -/
theorem RecordShape.breaks_read : Breaks (shape.read make v) ↔ shape.Overflows v := by
  simp only [read, breaks_bind, Json.not_breaks_required, false_or, Overflows, breaks_mapM,
    Json.breaks_integerField]
  constructor
  · rintro ⟨name, named, broken | ⟨counts, counted, broken⟩⟩
    · exact ⟨⟨name, named⟩, broken⟩
    · exact absurd broken (not_breaks_ok _)
  · rintro ⟨⟨name, named⟩, broken⟩
    exact ⟨name, named, .inl broken⟩

end Read

structure ReadsShape {α : Type} (read : Json → ReportResult α) (shape : RecordShape) : Prop where
  eq_read : ∀ v, ∃ make, read v = shape.read make v

/-- The four readers of records read their shapes. -/
theorem FileRecord.readsShape : ReadsShape FileRecord.ofJson GraphKind.blueprint.nodeShape where
  eq_read v := by
    refine ⟨fun name counts =>
      ⟨name, v.fieldOr "language" (.str ""), counts.getD 0 0, counts.getD 1 0⟩, ?_⟩
    simp [FileRecord.ofJson, RecordShape.read, GraphKind.nodeShape]

theorem ReferenceRecord.readsShape :
    ReadsShape ReferenceRecord.ofJson GraphKind.blueprint.edgeShape where
  eq_read v := by
    refine ⟨fun name _ => ⟨name, v.fieldOr "to" .null, v.fieldOr "to_raw" (.str ""),
      v.fieldOr "kind" (.str LinkKind.imports.text), v.fieldOr "line" .null,
      v.flagField "resolved"⟩, ?_⟩
    simp [ReferenceRecord.ofJson, RecordShape.read, GraphKind.edgeShape]

theorem FunctionRecord.readsShape :
    ReadsShape FunctionRecord.ofJson GraphKind.callgraph.nodeShape where
  eq_read v := by
    refine ⟨fun name counts => ⟨name, v.fieldOr "name" (.str ""),
      v.fieldOr "kind" (.str EntryKind.function.text), v.fieldOr "file" (.str ""), counts.getD 0 0,
      v.fieldOr "language" (.str "")⟩, ?_⟩
    simp [FunctionRecord.ofJson, RecordShape.read, GraphKind.nodeShape]

theorem CallRecord.readsShape : ReadsShape CallRecord.ofJson GraphKind.callgraph.edgeShape where
  eq_read v := by
    refine ⟨fun name counts => ⟨name, v.fieldOr "to" .null, v.fieldOr "callee_raw" (.str ""),
      counts.getD 0 0, v.flagField "resolved"⟩, ?_⟩
    simp [CallRecord.ofJson, RecordShape.read, GraphKind.edgeShape]

section Lists

variable {α : Type} {read : Json → ReportResult α} {shape : RecordShape} {vs : List Json}

section

variable (h : ReadsShape read shape)
include h

theorem ReadsShape.succeeds (v : Json) : Succeeds (read v) ↔ shape.Fits v := by
  obtain ⟨make, equal⟩ := h.eq_read v
  rw [equal, RecordShape.succeeds_read]

theorem ReadsShape.breaks (v : Json) : Breaks (read v) ↔ shape.Overflows v := by
  obtain ⟨make, equal⟩ := h.eq_read v
  rw [equal, RecordShape.breaks_read]

theorem ReadsShape.succeeds_mapM : Succeeds (vs.mapM read) ↔ ∀ v ∈ vs, shape.Fits v := by
  simp only [ReportResult.succeeds_mapM, h.succeeds]

/-- Reading them breaks off if the first that does not fit has an infinite count. -/
theorem ReadsShape.breaks_mapM :
    Breaks (vs.mapM read) ↔ FirstFails shape.Fits shape.Overflows vs := by
  simp only [ReportResult.breaks_mapM, h.succeeds, h.breaks]

end

end Lists

/-! ### Documents -/

/-- The first record that is not well formed, of the nodes and then of the edges, has an infinite
count. -/
def GraphKind.Overflows (kind : GraphKind) (nodes edges : List Json) : Prop :=
  FirstFails kind.nodeShape.Fits kind.nodeShape.Overflows nodes ∨
    (∀ v ∈ nodes, kind.nodeShape.Fits v) ∧
      FirstFails kind.edgeShape.Fits kind.edgeShape.Overflows edges

/-- A document of a known kind, with lists of nodes and edges among which an infinite count comes
first. -/
def Json.Overflows (v : Json) : Prop :=
  ∃ (kind : GraphKind) (nodes edges : List Json), v.field? "kind" = some (.str kind.text) ∧
    v.fieldOr "nodes" (.arr []) = .arr nodes ∧ v.fieldOr "edges" (.arr []) = .arr edges ∧
    kind.Overflows nodes edges

/-- Two lists of records, one after the other. -/
theorem breaks_lists {α β γ : Type} {readNode : Json → ReportResult α}
    {readEdge : Json → ReportResult β} {nodeShape edgeShape : RecordShape}
    (node : ReadsShape readNode nodeShape) (edge : ReadsShape readEdge edgeShape)
    {make : List α → List β → γ} {nodes edges : List Json} :
    Breaks (do
      let ns ← nodes.mapM readNode
      let es ← edges.mapM readEdge
      return make ns es) ↔
    FirstFails nodeShape.Fits nodeShape.Overflows nodes ∨
      (∀ v ∈ nodes, nodeShape.Fits v) ∧ FirstFails edgeShape.Fits edgeShape.Overflows edges := by
  rw [breaks_bind, node.breaks_mapM, ← node.succeeds_mapM, ← edge.breaks_mapM]
  refine or_congr_right ?_
  constructor
  · rintro ⟨ns, read, broken⟩
    exact ⟨⟨ns, read⟩, (breaks_bind_left fun es => not_breaks_ok _).mp broken⟩
  · rintro ⟨⟨ns, read⟩, broken⟩
    exact ⟨ns, read, (breaks_bind_left fun es => not_breaks_ok _).mpr broken⟩

namespace Snapshot

variable {kind : GraphKind} {text : List Char} {v : Json} {members : List (String × Json)}

theorem breaks_readRecords {nodes edges : List Json} :
    Breaks (readRecords kind nodes edges) ↔ kind.Overflows nodes edges := by
  cases kind with
  | blueprint => exact breaks_lists FileRecord.readsShape ReferenceRecord.readsShape
  | callgraph => exact breaks_lists FunctionRecord.readsShape CallRecord.readsShape

theorem not_breaks_readStats (v : Json) : ¬ Breaks (readStats v) := by
  unfold readStats
  split
  · simp
  · split <;> simp [ReportFault.isRefusal]

theorem not_breaks_readParts {α : Type} {read : Json → ReportResult α}
    (calm : ∀ v, ¬ Breaks (read v)) (v : Json) : ¬ Breaks (readParts read v) := by
  unfold readParts
  split
  · rw [breaks_mapM]
    rintro ⟨before, x, after, -, -, broken⟩
    exact calm x broken
  · simp [ReportFault.isRefusal]

theorem not_breaks_error (v : Json) : ¬ Breaks (ErrorRecord.ofJson v) := by
  rw [ErrorRecord.ofJson, breaks_bind_left fun path => not_breaks_pure _]
  exact Json.not_breaks_required "path" v

theorem not_breaks_warning (v : Json) : ¬ Breaks (WarningRecord.ofJson v) := by
  rw [WarningRecord.ofJson, breaks_bind_left fun path => not_breaks_pure _]
  exact Json.not_breaks_required "path" v

/-- The kind of a report is a text that names one. -/
theorem kind_eq_some : ((v.fieldOr "kind" .null).text? >>= GraphKind.ofText?) = some kind ↔
      v.field? "kind" = some (.str kind.text) := by
  rw [Json.fieldOr]
  match found : v.field? "kind" with
  | none => simp [Json.text?]
  | some (.str text) => simp [Json.text?, GraphKind.ofText?_eq_some]
  | some .null | some (.bool _) | some (.int _) | some (.float _) | some (.arr _) | some (.obj _) =>
    simp [Json.text?]

/-- What is read behind the records does not break off. -/
theorem breaks_rest {records : ReportResult GraphRecords} {stats errors warnings : Json} :
    Breaks (do
      let records ← records
      let stats ← readStats stats
      let errors ← readParts ErrorRecord.ofJson errors
      let warnings ← readParts WarningRecord.ofJson warnings
      return (⟨records, stats, errors, warnings⟩ : Snapshot)) ↔ Breaks records := by
  refine breaks_bind_left fun records => ?_
  rw [breaks_bind_left fun stats => ?_]
  · exact not_breaks_readStats stats
  · rw [breaks_bind_left fun errors => ?_]
    · exact not_breaks_readParts not_breaks_error errors
    · rw [breaks_bind_left fun warnings => not_breaks_pure _]
      exact not_breaks_readParts not_breaks_warning warnings

/-- **A document breaks off at an infinite count only.** -/
theorem breaks_ofDocument : Breaks (ofDocument v) ↔ v.Overflows := by
  cases v with
  | obj members =>
    simp only [ofDocument, Json.Overflows, ← kind_eq_some]
    constructor
    · intro broken
      match named : ((Json.obj members).fieldOr "kind" .null).text? >>= GraphKind.ofText? with
      | none => simp [named, ReportFault.isRefusal] at broken
      | some kind =>
        simp only [named] at broken
        split at broken
        · next nodes listed =>
          split at broken
          · next edges listed' =>
            exact ⟨kind, nodes, edges, rfl, listed, listed',
              breaks_readRecords.mp (breaks_rest.mp broken)⟩
          · simp [ReportFault.isRefusal] at broken
        · simp [ReportFault.isRefusal] at broken
    · rintro ⟨kind, nodes, edges, named, listed, listed', overflow⟩
      simp only [named, listed, listed']
      exact breaks_rest.mpr (breaks_readRecords.mpr overflow)
  | _ => simp [ofDocument, Json.Overflows, Json.field?, ReportFault.isRefusal]

/-! ### One record a line -/

def recordTypes : List String := ["stats", "node", "edge", "error", "warning"]

def IsRecordLine (line : List Char) : Prop :=
  ∃ members, ∃ type ∈ recordTypes,
    Json.parse line = .ok (.obj members) ∧ members.lookup "type" = some (.str type)

inductive IsStrayLine (line : List Char) : Prop
  | long (read : Json.parse line = .error .longInteger)
  | value (v : Json) (read : Json.parse line = .ok v) (plain : ∀ members, v ≠ .obj members)
  | type (members : List (String × Json)) (type : Json)
      (read : Json.parse line = .ok (.obj members))
      (typed : members.lookup "type" = some type) (collection : type.isKey = false)

def contentLines (text : List Char) : List (List Char) :=
  (Text.lines text).filter fun line => !Text.isAllBlank line

/-- A record is added if its type is known. -/
theorem succeeds_add (r : LineRecords) (number : Nat) : Succeeds (r.add number (.obj members)) ↔
      ∃ type ∈ recordTypes, members.lookup "type" = some (.str type) := by
  constructor
  · intro added
    simp only [LineRecords.add] at added
    have typed {type : String} (read : (members.lookup "type").getD .null = .str type) :
        members.lookup "type" = some (.str type) := by
      cases found : members.lookup "type" <;> simp_all
    split at added
    case h_6 => split at added <;> simp at added
    all_goals
      next read => exact ⟨_, by decide, typed read⟩
  · rintro ⟨type, known, typed⟩
    simp only [recordTypes, mem_cons, not_mem_nil, or_false] at known
    rcases known with rfl | rfl | rfl | rfl | rfl <;> simp [LineRecords.add, typed]

/-- Adding it breaks off where the type cannot be looked up. -/
theorem breaks_add (r : LineRecords) (number : Nat) : Breaks (r.add number (.obj members)) ↔
      ∃ type, members.lookup "type" = some type ∧ type.isKey = false := by
  constructor
  · intro broken
    simp only [LineRecords.add] at broken
    split at broken
    case h_6 =>
      split at broken
      · simp [ReportFault.isRefusal] at broken
      · next unkeyed =>
        match found : members.lookup "type" with
        | none => simp [found, Json.isKey] at unkeyed
        | some type => exact ⟨type, rfl, by simpa [found] using unkeyed⟩
    all_goals simp at broken
  · rintro ⟨type, typed, unkeyed⟩
    cases type with
    | arr items | obj fields => simp [LineRecords.add, typed, Json.isKey, ReportFault.isRefusal]
    | _ => simp [Json.isKey] at unkeyed

section Line

variable {line : List Char} {members : List (String × Json)} {fault : JsonFault}

theorem isRecordLine_obj (read : Json.parse line = .ok (.obj members)) :
    IsRecordLine line ↔ ∃ type ∈ recordTypes, members.lookup "type" = some (.str type) := by
  constructor
  · rintro ⟨others, type, known, read', typed⟩
    obtain rfl : others = members := by simpa [read'] using read
    exact ⟨type, known, typed⟩
  · rintro ⟨type, known, typed⟩
    exact ⟨members, type, known, read, typed⟩

/-- An object on a line is stray only for its type. -/
theorem isStrayLine_obj (read : Json.parse line = .ok (.obj members)) :
    IsStrayLine line ↔ ∃ type, members.lookup "type" = some type ∧ type.isKey = false := by
  constructor
  · intro stray
    cases stray with
    | long read' => simp [read] at read'
    | value v read' plain =>
      obtain rfl : v = .obj members := by simpa [read'] using read
      exact absurd rfl (plain members)
    | type others type read' typed collection =>
      obtain rfl : others = members := by simpa [read'] using read
      exact ⟨type, typed, collection⟩
  · rintro ⟨type, typed, collection⟩
    exact .type members type read typed collection

theorem not_isRecordLine_error (read : Json.parse line = .error fault) : ¬ IsRecordLine line := by
  rintro ⟨members, type, -, read', -⟩
  simp [read] at read'

/-- A line that cannot be read is refused, unless for a long number. -/
theorem not_isStrayLine_error (read : Json.parse line = .error fault)
    (short : fault ≠ .longInteger) : ¬ IsStrayLine line := by
  intro stray
  cases stray with
  | long read' => exact short (by simpa [read] using read')
  | value v read' plain | type members type read' typed collection => simp [read] at read'

end Line

/-- Reading lines breaks off at a stray line before any that is refused. By induction on the lines;
blank ones are skipped. -/
theorem breaks_readLines {r : LineRecords} {lines : List (List Char × Nat)} :
    Breaks (readLines r lines) ↔ FirstFails IsRecordLine IsStrayLine
      ((lines.map (·.1)).filter fun line => !Text.isAllBlank line) := by
  induction lines generalizing r with
  | nil => simp [readLines]
  | cons entry lines ih =>
    obtain ⟨line, number⟩ := entry
    rw [readLines]
    by_cases blank : Text.isAllBlank line = true
    · simp only [blank, if_true, ih, map_cons, filter_cons, Bool.not_true,
        Bool.false_eq_true, if_false]
    · simp only [blank, map_cons, filter_cons, Bool.not_false, if_true, firstFails_cons]
      match read : Json.parse line with
      | .error fault =>
        by_cases long : fault = .longInteger
        · subst long
          simp [ReportFault.isRefusal, IsStrayLine.long read]
        · simp [ReportFault.isRefusal, not_isRecordLine_error read, not_isStrayLine_error read long]
      | .ok (.obj members) =>
        rw [isRecordLine_obj read, isStrayLine_obj read, ← breaks_add r number,
          ← succeeds_add r number]
        simp only [Bool.false_eq_true, if_false, breaks_bind, ih, exists_and_right]
        rfl
      | .ok .null | .ok (.bool _) | .ok (.int _) | .ok (.float _) | .ok (.str _) | .ok (.arr _) =>
        have stray : IsStrayLine line := .value _ read (by simp)
        simp [stray, LineRecords.add, bind, Except.bind, ReportFault.isRefusal]

theorem breaks_documentOfLines :
    Breaks (documentOfLines text) ↔ FirstFails IsRecordLine IsStrayLine (contentLines text) := by
  rw [documentOfLines, breaks_bind_left fun records => not_breaks_pure _,
    breaks_readLines, contentLines, zipIdx_map_fst]

/-! ### Whole texts -/

inductive IsReadByLine (text : List Char) : Prop
  | stats (v : Json) (read : Json.parse text = .ok v) (alone : isStatsRecord v = true)
  | lines (fault : JsonFault) (read : Json.parse text = .error fault) (short : fault ≠ .longInteger)

inductive IsDocument (text : List Char) (v : Json) : Prop
  | whole (read : Json.parse text = .ok v) (other : isStatsRecord v = false)
  | lines (byLine : IsReadByLine text) (read : documentOfLines text = .ok v)

inductive Derails (text : List Char) : Prop
  | long (read : Json.parse text = .error .longInteger)
  | line (byLine : IsReadByLine text)
      (stray : FirstFails IsRecordLine IsStrayLine (contentLines text))
  | count (v : Json) (holds : IsDocument text v) (overflow : v.Overflows)

/-- Where a text is read by line, only its lines matter. -/
theorem breaks_of_isReadByLine (byLine : IsReadByLine text) :
    Breaks (parse text) ↔ Breaks (documentOfLines text >>= ofDocument) := by
  cases byLine with
  | stats v read alone => simp [parse, read, alone]
  | lines fault read short =>
    cases fault with
    | longInteger => exact absurd rfl short
    | _ => simp [parse, read]

/-- **Exactly the texts that derail the reader break off.** -/
theorem breaks_parse : Breaks (parse text) ↔ Derails text := by
  constructor
  · intro broken
    by_cases byLine : IsReadByLine text
    · rw [breaks_of_isReadByLine byLine, breaks_bind, breaks_documentOfLines] at broken
      rcases broken with stray | ⟨v, read, broken⟩
      · exact .line byLine stray
      · exact .count v (.lines byLine read) (breaks_ofDocument.mp broken)
    · match read : Json.parse text with
      | .error fault =>
        by_cases long : fault = .longInteger
        · exact .long (long ▸ read)
        · exact absurd (.lines fault read long) byLine
      | .ok v =>
        cases alone : isStatsRecord v with
        | true => exact absurd (.stats v read alone) byLine
        | false =>
          refine .count v (.whole read alone) (breaks_ofDocument.mp ?_)
          simpa [parse, read, alone, bind, Except.bind] using broken
  · intro derails
    cases derails with
    | long read => simp [parse, read, ReportFault.isRefusal]
    | line byLine stray =>
      rw [breaks_of_isReadByLine byLine, breaks_bind, breaks_documentOfLines]
      exact .inl stray
    | count v holds overflow =>
      have broken := breaks_ofDocument.mpr overflow
      cases holds with
      | whole read other => simpa [parse, read, other, bind, Except.bind] using broken
      | lines byLine read =>
        rw [breaks_of_isReadByLine byLine, breaks_bind]
        exact .inr ⟨v, read, broken⟩

/-- **Every text is a report or is refused, except those at which the reader breaks off**: texts
with a whole number of too many digits, with a stray line before any other that is no record, or
with an infinite count before any other record that is malformed. -/
theorem answers_iff (text : List Char) :
    ((∃ s, parse text = .ok s) ∨ ∃ fault, parse text = .error fault ∧ fault.isRefusal = true) ↔
      ¬ Derails text := by
  rw [answer_iff, breaks_parse]

def plainLines : List Char := "1\n2".toList

/-- There are texts that are neither read nor refused. -/
theorem plainLines_unanswered :
    ¬ ((∃ s, parse plainLines = .ok s) ∨
      ∃ fault, parse plainLines = .error fault ∧ fault.isRefusal = true) := by
  have broken : parse plainLines = .error .recordNotObject := rfl
  rw [answer_iff, broken]
  simp [ReportFault.isRefusal]

end Snapshot

end CodeAtlas
