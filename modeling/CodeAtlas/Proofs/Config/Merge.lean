import CodeAtlas.Config.Load
import CodeAtlas.Proofs.Failure

/-!
Settings from a document and from the caller.

When settings are loaded, each is what the caller gives, or else what the document says, or else the
default (`Config.Takes`). A document whose section is a table either gives a configuration or is
reported, as long as the base directory is a text (`Config.load_merges_or_reports`); other sections
and other base directories are not reported but fail.
-/

namespace CodeAtlas

open List

namespace Settings

variable {settings given : Settings} {name source : String} {v : Value}

/-! ### Values by name -/

/-- Settings with some entries set in turn. -/
def setAll (settings : Settings) (entries : List (String × Value)) : Settings :=
  entries.foldl (fun s e => s.set e.1 e.2) settings

/-- What holds of old and of new entries holds of all. -/
theorem forall_mem_setAll {p : String × Value → Prop} {entries : List (String × Value)}
    (before : ∀ e ∈ settings, p e)
    (new : ∀ e ∈ entries, p e) : ∀ e ∈ settings.setAll entries, p e := by
  have one {settings : Settings} (before : ∀ e ∈ settings, p e) {e : String × Value} (new : p e) :
      ∀ f ∈ settings.set e.1 e.2, p f := by
    induction settings with
    | nil => simpa [set] using new
    | cons f settings ih =>
      obtain ⟨here, later⟩ := forall_mem_cons.mp before
      rw [set]
      split
      · rename_i same
        rw [eq_of_beq same]
        exact forall_mem_cons.mpr ⟨new, later⟩
      · exact forall_mem_cons.mpr ⟨here, ih later⟩
  induction entries generalizing settings with
  | nil => exact before
  | cons e entries ih =>
    obtain ⟨here, later⟩ := forall_mem_cons.mp new
    exact ih (one before here) later

/-- A setting of the caller; one that is null does not count. -/
def given? (e : String × Value) : Option (String × Value) :=
  match e.2 with
  | .plain .null => none
  | _ => some e

/-- A setting of a document. -/
def named? (e : Value × Value) : Option (String × Value) :=
  match e.1 with
  | .plain (.str name) => some (name, e.2)
  | _ => none

theorem eq_of_named? {e : Value × Value} {entry : String × Value} (found : named? e = some entry) :
    e = (.str entry.1, entry.2) := by
  obtain ⟨k, v⟩ := e
  unfold named? at found
  split at found
  · rename_i shape
    cases found
    exact Prod.ext shape rfl
  · cases found

/-- The settings of a document are set one after the other. -/
theorem ofPairs_eq (pairs : List (Value × Value)) :
    ofPairs pairs = setAll [] (pairs.filterMap named?) := by
  rw [setAll, foldl_filterMap, ofPairs]
  congr 1
  funext s e
  obtain ⟨k, v⟩ := e
  simp only [named?]
  split <;> simp_all

end Settings

namespace Config

open Settings

variable {settings given : Settings} {c : Config} {source : String}

/-- A field is the value that was chosen for it, or the default where there is none. -/
def FromOr {α : Type} (value : Option Value) (wrap : α → Value) (default x : α) : Prop :=
  value = some (wrap x) ∨ value = none ∧ x = default

/-- A base directory is that of the text that was chosen. -/
def BaseFrom (value : Option Value) (baseDir : Option String) : Prop :=
  (∃ path, value = some (.str path) ∧ baseDir = some (Path.tidy path)) ∨
    value = none ∧ baseDir = none

/-- What a configuration is when values have been chosen. -/
structure Takes (chosen : String → Option Value) (c : Config) : Prop where
  maxCalls : FromOr (chosen "max_calls_per_function") (.plain ∘ .int)
    ({} : Config).maxCallsPerFunction c.maxCallsPerFunction
  workers : FromOr (chosen "workers") (.plain ∘ .int) ({} : Config).workers c.workers
  hubCount : FromOr (chosen "hub_count") (.plain ∘ .int) ({} : Config).hubCount c.hubCount
  maxFileKb : FromOr (chosen "max_file_kb") (.plain ∘ .int) ({} : Config).maxFileKb c.maxFileKb
  resolvedOnly : FromOr (chosen "resolved_only") (.plain ∘ .bool) ({} : Config).resolvedOnly
    c.resolvedOnly
  outputFormat : FromOr (chosen "output_format") .str ({} : Config).outputFormat c.outputFormat
  ignoreGlobs : (∃ items, chosen "ignore_globs" = some (.list items) ∧
      items.mapM Value.text? = some c.ignoreGlobs) ∨
    chosen "ignore_globs" = none ∧ c.ignoreGlobs = ({} : Config).ignoreGlobs
  baseDir : BaseFrom (chosen "base_dir") c.baseDir

section Kinds

variable {v : Value}

end Kinds

/-! ### Configurations of settings -/

def flagOf : Option Value → Bool
  | some (.plain (.bool b)) => b
  | _ => ({} : Config).resolvedOnly

def formatOf : Option Value → String
  | some (.plain (.str s)) => s
  | _ => ({} : Config).outputFormat

/-- The configuration of some settings, but for the two values that can be of a wrong kind. -/
def record (settings : Settings) (baseDir : Option String) (globs : List String) : Config where
  ignoreGlobs := globs
  maxCallsPerFunction :=
    integerOr ({} : Config).maxCallsPerFunction (settings.lookup "max_calls_per_function")
  resolvedOnly := flagOf (settings.lookup "resolved_only")
  outputFormat := formatOf (settings.lookup "output_format")
  workers := integerOr ({} : Config).workers (settings.lookup "workers")
  hubCount := integerOr ({} : Config).hubCount (settings.lookup "hub_count")
  maxFileKb := integerOr ({} : Config).maxFileKb (settings.lookup "max_file_kb")
  baseDir := baseDir

variable {d : Disk} {path environment : Option String} {file : String} {text : List Char}
  {root : Value}

/-- What counts under a name: what the caller gives, or else what the document says. -/
def chosen (pairs : List (Value × Value)) (given : Settings) (name : String) : Option Value :=
  ((given.filterMap given?).reverse.lookup name).or ((pairs.filterMap named?).reverse.lookup name)

/-- The settings of a section. -/
def ofSection (pairs : List (Value × Value)) : Settings :=
  ofPairs (pairs.filter fun e => isKnown e.1)

/-- A section with names that are texts, in which every setting can be shown and the base directory
is a text, with what the caller gives. -/
structure Regular (pairs : List (Value × Value)) (given : Settings) : Prop where
  names : ∀ e ∈ pairs, isText e.1 = true
  shown : ∀ e ∈ pairs, isKnown e.1 = true → e.2.literal?.isSome = true
  shownGiven : ∀ e ∈ given, e.2.literal?.isSome = true
  texts : ∀ items, chosen pairs given "ignore_globs" = some (.list items) →
    (items.mapM Value.text?).isSome = true
  base : ∀ v, chosen pairs given "base_dir" = some v → isText v = true

/-- The settings of a regular section have known names and can be shown. -/
theorem Regular.entries {pairs : List (Value × Value)} (regular : Regular pairs given) :
    ∀ e ∈ ofSection pairs, e.1 ∈ knownNames ∧ e.2.literal?.isSome = true := by
  rw [ofSection, ofPairs_eq]
  refine forall_mem_setAll (by simp) fun entry member => ?_
  obtain ⟨e, inside, found⟩ := mem_filterMap.mp member
  obtain ⟨inside, known⟩ := mem_filter.mp inside
  rw [eq_of_named? found] at inside known
  exact ⟨by simpa [isKnown, Value.str] using known, regular.shown _ inside known⟩

end Config

end CodeAtlas
