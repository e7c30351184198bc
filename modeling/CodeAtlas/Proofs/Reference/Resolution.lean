import CodeAtlas.Proofs.Failure
import CodeAtlas.Proofs.Source.Order
import CodeAtlas.Report.Snapshot

/-!
References never leave their scope.

A reference between files resolves to a known path (`FileScope.resolve_known`), so the links of a
blueprint end at its nodes. A call resolves within one tier of candidates. Every tier holds only
functions and methods of the called name that the caller's file sees (`CallScope.mayCall_of_tier`),
and it decides only when all that it holds has one identity. From the call sites of a list of files
(`CallGraph.sites_ok`) this carries over to every link of a call graph (`links_in_scope`).
-/

namespace CodeAtlas

open List

variable {α : Type}

theorem sole?_eq_some {xs : List α} {a : α} : sole? xs = some a ↔ xs = [a] := by
  match xs with
  | [] => simp [sole?]
  | [b] => simp [sole?]
  | b :: c :: rest => simp [sole?]

/-! ### References between files -/

namespace FileScope

variable {scope : FileScope} {path : String} {source written : String}

/-- Options are looked up among the known paths. -/
theorem existing_known {options : List String} (h : path ∈ scope.existing options) :
    path ∈ scope.paths := by
  simp only [existing, mem_sortedDistinct, mem_filter, contains_eq_mem, decide_eq_true_eq] at h
  exact h.2

/-- What is found first is found in one of the two lists. -/
theorem firstFound_cases {found otherwise : List String} (h : path ∈ firstFound found otherwise) :
    path ∈ found ∨ path ∈ otherwise := by
  unfold firstFound at h
  split at h
  · exact .inr h
  · exact .inl h

/-- A module path leads to known files only. By induction on its segments. -/
theorem longestModule_known {base : String} {segments : List String}
    (h : path ∈ scope.longestModule base segments) : path ∈ scope.paths := by
  induction segments with
  | nil => simp [longestModule] at h
  | cons last initial ih =>
    rcases firstFound_cases h with here | shorter
    · exact existing_known here
    · exact ih shorter

theorem rustModule_known {name : String} (h : path ∈ scope.rustModule source name) :
    path ∈ scope.paths := by
  simp only [rustModule] at h
  split at h
  · exact existing_known h
  · rcases firstFound_cases h with h | h <;> exact existing_known h

theorem rustModuleFile_known {directory crate : String}
    (h : path ∈ scope.rustModuleFile directory crate) : path ∈ scope.paths := by
  unfold rustModuleFile at h
  split at h <;> exact existing_known h

theorem rustUse_known (h : path ∈ scope.rustUse source written) : path ∈ scope.paths := by
  simp only [rustUse] at h
  split at h
  · simp at h
  · rcases firstFound_cases h with h | h
    · exact longestModule_known h
    · exact rustModuleFile_known h

theorem curlyImport_known (h : path ∈ scope.curlyImport source written) : path ∈ scope.paths := by
  simp only [curlyImport] at h
  split at h
  · simp at h
  split at h
  · simp at h
  split at h
  case isTrue known =>
    rw [mem_singleton.mp h]
    simpa using known
  · rcases firstFound_cases h with h | h
    · exact existing_known h
    rcases firstFound_cases h with h | h <;> exact existing_known h

theorem pythonAbsolute_known (h : path ∈ scope.pythonAbsolute written) : path ∈ scope.paths := by
  simp only [pythonAbsolute] at h
  rcases firstFound_cases h with h | h
  all_goals
    obtain ⟨⟨name, found⟩, mem, rfl⟩ := mem_map.mp h
    obtain ⟨known, inPaths, named⟩ := mem_filterMap.mp (mem_filter.mp mem).1
    obtain ⟨_, _, same⟩ := Option.map_eq_some_iff.mp named
    cases same
    exact mem_sortedDistinct.mp inPaths

theorem pythonImport_known (h : path ∈ scope.pythonImport source written) : path ∈ scope.paths := by
  simp only [pythonImport] at h
  split at h
  · exact pythonAbsolute_known h
  · simp only [pythonRelative] at h
    split at h <;> exact existing_known h

/-- **A reference resolves to a known path**, in every language. -/
theorem resolve_known {family : Family} {kind : LinkKind}
    (h : scope.resolve source family kind written = some path) : path ∈ scope.paths := by
  unfold resolve at h
  split at h
  · simp at h
  have only := sole?_eq_some.mp h
  have among : path ∈ scope.candidates source family kind written := by simp [only]
  unfold candidates at among
  split at among
  · split at among
    · exact rustModule_known among
    · exact rustUse_known among
  · exact curlyImport_known among
  · exact pythonImport_known among

end FileScope

/-! ### Calls -/

/-- What a callee may mean to a caller: a function or method of the called name, in the caller's
file or in one that it refers to. A plain name means a function, and the methods of a parent type
are not known. -/
structure MayCall (links : List FileLink) (caller : Entry) (callee : Callee) (e : Entry) :
    Prop where
  callable : e.kind = .function ∨ e.kind = .method
  visible : e.file = caller.file ∨ ∃ l ∈ links, l.source = caller.file ∧ l.target = some e.file
  named : e.bareName = callee.name
  plain : callee.receiver = .bare → e.kind = .function
  known : callee.receiver ≠ .parent

namespace CallScope

variable {scope : CallScope} {caller e : Entry} {name : String} {blueprint : Blueprint}
  {entries : List Entry}

/-- The candidates for a name are the functions and methods with that bare name. -/
theorem mem_callables : e ∈ scope.callables name ↔ e ∈ scope.entries ∧ e.bareName = name ∧
    e.isCallable = true := by
  simp [callables]

theorem callable_cases (h : e.isCallable = true) : e.kind = .function ∨ e.kind = .method := by
  cases kind : e.kind <;> simp [Entry.isCallable, kind] at h ⊢

/-- Methods of the called name that the caller's file sees. -/
theorem anyMethod_spec (h : e ∈ (scope.anyMethod caller name).2) :
    e ∈ scope.entries ∧ e.bareName = name ∧ e.kind = .method ∧
      scope.sees caller.file e.file = true := by
  simp only [anyMethod] at h
  split at h
  · simp only [mem_filter, mem_callables, Bool.and_eq_true, beq_iff_eq] at h
    exact ⟨h.1.1.1, h.1.1.2.1, h.1.2.1, h.2⟩
  · simp only [mem_filter, mem_callables, Bool.and_eq_true, beq_iff_eq] at h
    refine ⟨h.1.1.1, h.1.1.2.1, h.1.2.1, ?_⟩
    simp [sees, h.2]

/-- A file sees itself and the files that it refers to. -/
theorem visible_of_sees {source target : String}
    (h : sees ⟨entries, blueprint.targets⟩ source target = true) :
    target = source ∨ ∃ l ∈ blueprint.links, l.source = source ∧ l.target = some target := by
  simp only [sees, Bool.or_eq_true, beq_iff_eq, contains_eq_mem, decide_eq_true_eq] at h
  rcases h with same | linked
  · exact .inl same.symm
  obtain ⟨l, mem, pair⟩ := mem_filterMap.mp linked
  right
  refine ⟨l, mem, ?_⟩
  split at pair
  · split at pair
    · simp at pair
    · rename_i found _
      cases pair
      exact ⟨rfl, found⟩
  · simp at pair

/-- **Every tier holds only what the callee may mean.** -/
theorem mayCall_of_tier {callee : Callee}
    (h : e ∈ (tier ⟨entries, blueprint.targets⟩ caller callee).2) :
    e ∈ entries ∧ MayCall blueprint.links caller callee e := by
  have notParent : callee.receiver ≠ .parent := by
    intro parent
    simp [tier, parent] at h
  -- The fall-back of all calls that are made on a value.
  have onValue (notBare : callee.receiver ≠ .bare)
      (h : e ∈ (anyMethod ⟨entries, blueprint.targets⟩ caller callee.name).2) :
      e ∈ entries ∧ MayCall blueprint.links caller callee e := by
    obtain ⟨mem, named, method, seen⟩ := anyMethod_spec h
    exact ⟨mem, .inr method, visible_of_sees seen, named, (absurd · notBare), notParent⟩
  match receiver : callee.receiver with
  | .own =>
    have notBare : callee.receiver ≠ .bare := by simp [receiver]
    simp only [tier, receiver] at h
    split at h
    · exact onValue notBare h
    · simp only [mem_filter, Bool.and_eq_true, beq_iff_eq] at h
      obtain ⟨mem, ⟨⟨⟨inFile, named⟩, _⟩, _⟩, method⟩ := h
      exact ⟨mem, .inr method, .inl inFile, named, (absurd · notBare), notParent⟩
  | .qualified qualifier =>
    have notBare : callee.receiver ≠ .bare := by simp [receiver]
    simp only [tier, receiver] at h
    split at h
    · exact onValue notBare h
    · simp only [mem_filter, mem_callables, Bool.and_eq_true] at h
      obtain ⟨⟨mem, named, callable⟩, seen, _⟩ := h
      exact ⟨mem, callable_cases callable, visible_of_sees seen, named,
        (absurd · notBare), notParent⟩
  | .unknown =>
    simp only [tier, receiver] at h
    exact onValue (by simp [receiver]) h
  | .parent => exact absurd receiver notParent
  | .bare =>
    simp only [tier, receiver] at h
    split at h
    · simp only [mem_filter, mem_callables, beq_iff_eq] at h
      obtain ⟨⟨⟨mem, named, _⟩, function⟩, seen⟩ := h
      exact ⟨mem, .inl function, visible_of_sees seen, named, fun _ => function, notParent⟩
    · simp only [mem_filter, mem_callables, beq_iff_eq] at h
      obtain ⟨⟨⟨mem, named, _⟩, function⟩, inFile⟩ := h
      exact ⟨mem, .inl function, .inl inFile, named, fun _ => function, notParent⟩

/-- A callee that is resolved has one identity in its tier. -/
theorem ids_of_resolve {written id : String} (h : scope.resolve caller written = some id)
    (s : String) :
    s ∈ (scope.tier caller (Callee.parse written.toList)).2.map (·.id) ↔ s = id := by
  rw [← mem_sortedDistinct, ← mem_singleton, ← sole?_eq_some.mp h]
  rfl

end CallScope

/-! ### Graphs whose edges end at their nodes -/

/-- Every edge starts at a node. It counts as resolved exactly when it has a target, and the target
is a node. -/
structure Snapshot.Linked (s : Snapshot) : Prop where
  source : ∀ e ∈ s.edges, e.source ∈ s.nodeIds
  resolved : ∀ e ∈ s.edges, e.resolved = true ↔ e.target ≠ .null
  target : ∀ e ∈ s.edges, e.resolved = true → e.target ∈ s.nodeIds

/-- A target that is known is not null in a record. -/
theorem isSome_iff_opt_ne_null {target : Option String} :
    target.isSome = true ↔ Json.opt .str target ≠ .null := by
  cases target <;> simp [Json.opt]

/-- A snapshot is linked if its links start and end at its nodes. -/
theorem Snapshot.linked_of_links {s : Snapshot} {links : List α} {ids : List String}
    {source : α → String} {target : α → Option String} {kind : α → Json}
    (nodes : s.nodeIds = ids.map .str) (edges : s.edges = links.map fun l =>
      ⟨.str (source l), .opt .str (target l), kind l, (target l).isSome⟩)
        (starts : ∀ l ∈ links, source l ∈ ids)
    (ends : ∀ l ∈ links, ∀ t, target l = some t → t ∈ ids) : s.Linked := by
  constructor <;> rw [edges] <;> intro e h <;> obtain ⟨l, mem, rfl⟩ := mem_map.mp h
  · rw [nodes]
    exact mem_map_of_mem (starts l mem)
  · exact isSome_iff_opt_ne_null
  · intro resolved
    obtain ⟨t, found⟩ := Option.isSome_iff_exists.mp resolved
    rw [nodes]
    simp only [found, Json.opt]
    exact mem_map_of_mem (ends l mem t found)

namespace Blueprint

/-- The links of a blueprint end at its files. -/
theorem ofFiles_linked (files : List SourceFile) (crates : List (String × String))
    (readErrors : List FileError) : (ofFiles files crates readErrors).snapshot.Linked := by
  have paths : ∀ path, path ∈ (extracts (files.map extract)).map (·.file.path) →
      path ∈ (ofFiles files crates readErrors).nodes.map (·.path) := by
    intro path h
    obtain ⟨x, mem, rfl⟩ := mem_map.mp h
    exact mem_map.mpr ⟨node x.file, mem_sortWith.mpr (mem_map_of_mem mem), rfl⟩
  have made (l : FileLink) (h : l ∈ (ofFiles files crates readErrors).links) :
      ∃ x ∈ extracts (files.map extract), ∃ r ∈ x.references,
        l = link ⟨(extracts (files.map extract)).map (·.file.path), crates⟩ x r := by
    obtain ⟨x, read, inLinks⟩ := mem_flatMap.mp (mem_sortWith.mp h)
    obtain ⟨r, written, rfl⟩ := mem_map.mp inLinks
    exact ⟨x, read, r, written, rfl⟩
  have ids : (ofFiles files crates readErrors).snapshot.nodeIds =
      ((ofFiles files crates readErrors).nodes.map (·.path)).map .str := by
    simp [Snapshot.nodeIds, Snapshot.nodes, snapshot]
  refine Snapshot.linked_of_links ids (map_map ..) ?_ ?_
  · intro l h
    obtain ⟨x, read, r, _, rfl⟩ := made l h
    exact paths _ (mem_map_of_mem read)
  · intro l h t found
    obtain ⟨x, _, r, _, rfl⟩ := made l h
    exact paths t (FileScope.resolve_known found)

end Blueprint

/-! ### Call graphs -/

namespace CallGraph

variable {files : List SourceFile} {entries : List Entry} {file : SourceFile}
  {found : List (Entry × List CallSite)} {fault : UnsupportedLanguage} {options : CallOptions}
  {readErrors : List FileError} {warnings : List FileWarning}

def Unsupported (files : List SourceFile) (e : Entry) (fault : UnsupportedLanguage) : Prop :=
  ∃ file, fileAt? files e.file = some file ∧
    (file.language.family = .error fault ∨ e.isCallable = true ∧ e.language.family = .error fault)

/-- Call sites are those of callable entries. -/
theorem fileSites_ok (h : fileSites file entries = .ok found) :
    ∀ p ∈ found, p.1 ∈ entries ∧ p.1.isCallable = true := by
  intro p hp
  obtain ⟨family, -, listed⟩ := bind_eq_ok.mp h
  obtain ⟨e, mem, read⟩ := ok_of_mapM_ok listed p hp
  obtain ⟨family, -, made⟩ := bind_eq_ok.mp read
  cases made
  exact mem_filter.mp mem

/-- Call sites are not found in unsupported languages only. -/
theorem fileSites_error (h : fileSites file entries = .error fault) :
    file.language.family = .error fault ∨
      ∃ e ∈ entries, e.isCallable = true ∧ e.language.family = .error fault := by
  refine (bind_eq_error.mp h).imp_right ?_
  rintro ⟨family, -, listed⟩
  obtain ⟨e, mem, failed⟩ := error_of_mapM_error listed
  obtain ⟨inEntries, callable⟩ := mem_filter.mp mem
  rcases bind_eq_error.mp failed with language | ⟨family, -, made⟩
  · exact ⟨e, inEntries, callable, language⟩
  · cases made

/-- The functions of a graph are the callable entries of known files. -/
theorem mem_functions {e : Entry} : e ∈ functions files entries ↔
      e ∈ entries ∧ e.isCallable = true ∧ (fileAt? files e.file).isSome = true := by
  simp [functions]

/-- Calls are made by functions of the graph. -/
theorem sites_ok (h : sites files entries = .ok found) :
    ∀ p ∈ found, p.1 ∈ functions files entries := by
  intro p hp
  obtain ⟨lists, parts, flat⟩ := bind_eq_ok.mp h
  cases flat
  obtain ⟨list, inLists, hp⟩ := mem_flatten.mp hp
  obtain ⟨path, _, made⟩ := ok_of_mapM_ok parts list inLists
  unfold sitesAt at made
  split at made
  case h_1 file there =>
    obtain ⟨mem, callable⟩ := fileSites_ok made p hp
    obtain ⟨inEntries, atPath⟩ := mem_filter.mp mem
    refine mem_functions.mpr ⟨inEntries, callable, ?_⟩
    rw [eq_of_beq atPath, there]
    rfl
  case h_2 =>
    cases made
    simp at hp

/-- Where the calls cannot be found, a file or an entry has an unsupported language. -/
theorem sites_error (h : sites files entries = .error fault) :
    ∃ e ∈ entries, Unsupported files e fault := by
  rcases bind_eq_error.mp h with parts | ⟨lists, -, flat⟩
  · obtain ⟨path, listed, failed⟩ := error_of_mapM_error parts
    obtain ⟨e, inEntries, rfl⟩ := mem_map.mp (mem_sortedDistinct.mp listed)
    unfold sitesAt at failed
    split at failed
    case h_1 file there =>
      rcases fileSites_error failed with language | ⟨e', mem, callable, language⟩
      · exact ⟨e, inEntries, file, there, .inl language⟩
      · obtain ⟨inEntries', atPath⟩ := mem_filter.mp mem
        exact ⟨e', inEntries', file, by rw [eq_of_beq atPath, there], .inr ⟨callable, language⟩⟩
    case h_2 => cases failed
  · cases flat

/-- A call by a function of the graph. It has a target exactly when the tier that decides holds one
identity; all entries of that tier are functions of the graph then, with the target as their
identity, and what the callee may mean. -/
def Justified (files : List SourceFile) (entries : List Entry) (blueprint : Blueprint)
    (l : CallLink) : Prop :=
  ∃ caller ∈ functions files entries, caller.id = l.source ∧
    let scope := scope files entries blueprint
    let callee := Callee.parse l.written.toList
    ∀ id, (l.target = some id ↔ (scope.candidates caller l.written).2 = [id]) ∧
      (l.target = some id → (scope.tier caller callee).2 ≠ [] ∧
        ∀ e ∈ (scope.tier caller callee).2,
          e.id = id ∧ e ∈ functions files entries ∧ MayCall blueprint.links caller callee e)

variable {blueprint : Blueprint}

/-- What a call resolves to is justified by its tier. -/
theorem justified_of_resolve {caller : Entry} (here : caller ∈ functions files entries)
    (written : String) (line : Nat) :
    Justified files entries blueprint
      ⟨caller.id, (scope files entries blueprint).resolve caller written, written, line⟩ := by
  refine ⟨caller, here, rfl, fun id => ⟨sole?_eq_some, fun resolved => ?_⟩⟩
  have ids := CallScope.ids_of_resolve resolved
  constructor
  · intro none
    simpa [none] using ids id
  · intro e mem
    obtain ⟨known, may⟩ := CallScope.mayCall_of_tier mem
    exact ⟨(ids e.id).mp (mem_map_of_mem mem), known, may⟩

/-- All links of a call graph are justified. -/
theorem ofSites_justified (made : ∀ p ∈ found, p.1 ∈ functions files entries) :
    ∀ l ∈ (ofSites files entries options readErrors warnings blueprint found).allLinks,
      Justified files entries blueprint l := by
  intro l h
  obtain ⟨⟨caller, calls⟩, inFound, inLinks⟩ := mem_flatMap.mp (mem_sortWith.mp h)
  obtain ⟨site, _, rfl⟩ := mem_map.mp inLinks
  exact justified_of_resolve (made _ inFound) site.written site.line

/-- The links that are shown are some of all links. -/
theorem links_sublist :
    (ofSites files entries options readErrors warnings blueprint found).links.Sublist
      (ofSites files entries options readErrors warnings blueprint found).allLinks := by
  simp only [ofSites]
  split
  · exact filter_sublist
  · exact List.Sublist.refl _

/-- The links of a call graph end at its functions. -/
theorem ofSites_linked (made : ∀ p ∈ found, p.1 ∈ functions files entries) :
    (ofSites files entries options readErrors warnings blueprint found).snapshot.Linked := by
  generalize graph : ofSites files entries options readErrors warnings blueprint found = g
  have listed (e : Entry) (h : e ∈ functions files entries) : e.id ∈ g.nodes.map (·.id) := by
    rw [← graph]
    exact mem_map.mpr ⟨node e, mem_sortWith.mpr (mem_map_of_mem h), rfl⟩
  have justified (l : CallLink) (h : l ∈ g.links) : Justified files entries blueprint l := by
    rw [← graph] at h
    exact ofSites_justified made l (links_sublist.subset h)
  have ids : g.snapshot.nodeIds = (g.nodes.map (·.id)).map .str := by
    simp [Snapshot.nodeIds, Snapshot.nodes, snapshot]
  refine Snapshot.linked_of_links ids (map_map ..) ?_ ?_
  · intro l h
    obtain ⟨caller, here, same, _⟩ := justified l h
    rw [← same]
    exact listed caller here
  · intro l h t resolved
    obtain ⟨caller, _, _, decided⟩ := justified l h
    obtain ⟨some, each⟩ := (decided t).2 resolved
    obtain ⟨e, inTier⟩ := exists_mem_of_ne_nil _ some
    obtain ⟨same, here, _⟩ := each e inTier
    rw [← same]
    exact listed e here

end CallGraph

/-- References stay in scope. A call graph fails only on a limit below one or on a language that is
not supported. The edges of the graph run between its nodes, and each call is made by a function of
the graph and resolved as `CallGraph.Justified` says. The edges of a blueprint run between its nodes
too. -/
theorem links_in_scope (files : List SourceFile) (entries : List Entry) (options : CallOptions)
    (readErrors : List FileError) (warnings : List FileWarning) (blueprint : Blueprint)
    (crates : List (String × String)) :
    (match CallGraph.build files entries options readErrors warnings blueprint with
      | .ok g => g.snapshot.Linked ∧ g.links.Sublist g.allLinks ∧
          ∀ l ∈ g.allLinks, CallGraph.Justified files entries blueprint l
      | .error (.limit _) => options.maxCallsPerFunction < 1
      | .error (.language fault) => ∃ e ∈ entries, CallGraph.Unsupported files e fault) ∧
      (Blueprint.ofFiles files crates readErrors).snapshot.Linked := by
  refine ⟨?_, Blueprint.ofFiles_linked files crates readErrors⟩
  unfold CallGraph.build
  by_cases low : options.maxCallsPerFunction < 1
  · rw [if_pos low]
    exact low
  · rw [if_neg low]
    match found : CallGraph.sites files entries with
    | .ok sites =>
      have made := CallGraph.sites_ok found
      exact ⟨CallGraph.ofSites_linked made, CallGraph.links_sublist,
        CallGraph.ofSites_justified made⟩
    | .error fault => exact CallGraph.sites_error found

end CodeAtlas
