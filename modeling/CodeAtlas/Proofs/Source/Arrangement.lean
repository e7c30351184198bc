import CodeAtlas.Calls.Build
import CodeAtlas.Index.Build
import CodeAtlas.Proofs.Source.Order

/-!
Results do not depend on the order of the files, nor on the order in which workers finish them.

* `Pool.mapFiles_eq_map`: results are taken in the order of the files, whatever was finished first.
* `Index.ofFiles_eq_of_perm`, `Blueprint.ofFiles_eq_of_perm`, `CallGraph.build_eq_of_perm`: any
  arrangement of files with distinct paths gives one index, one blueprint and one call graph.
  Entries, warnings and links that tie come from one file, errors that tie are equal, and look-ups
  by path ask only which paths there are.
* `Index.ofFiles_eq_merge`, `Index.ofFiles_unsupported`: an index is the merge of the indexes of the
  single files, to which a file without a supported language adds one error.
-/

namespace CodeAtlas

open List

/-! ### Workers -/

namespace Pool

variable {α : Type} {task : SourceFile → α} {files : List SourceFile}
  {results : List (Nat × α)} {i : Nat} {file : SourceFile}

/-- A task that is finished keeps its own result only. -/
theorem lookup_keep_of_ne {j : Nat} (other : i ≠ j) :
    (keep task files results j).lookup i = results.lookup i := by
  unfold keep
  split
  · rw [lookup_cons, beq_false_of_ne other]
  · rfl

theorem lookup_keep_self (there : files[i]? = some file) :
    (keep task files results i).lookup i = some (task file) := by
  simp [keep, there]

/-- After all tasks are finished, in whatever order, each file has its result. -/
theorem lookup_finished {finished : List Nat} (there : files[i]? = some file)
    (done : i ∈ finished ∨ results.lookup i = some (task file)) :
    (finished.foldl (keep task files) results).lookup i = some (task file) := by
  induction finished generalizing results with
  | nil => simpa using done
  | cons j finished ih =>
    refine ih ?_
    by_cases same : i = j
    · subst same
      exact .inr (lookup_keep_self there)
    · rw [lookup_keep_of_ne same]
      exact done.imp_left fun mem => (mem_cons.mp mem).resolve_left same

/-- Taking all positions in order gives the list. -/
theorem filterMap_range_getElem? (xs : List α) :
    (range xs.length).filterMap (fun i => xs[i]?) = xs := by
  induction xs using reverseRecOn with
  | nil => rfl
  | append_singleton xs a ih =>
    have inside : ∀ i ∈ range xs.length, (xs ++ [a])[i]? = xs[i]? := fun i h =>
      getElem?_append_left (mem_range.mp h)
    rw [length_append, length_singleton, range_succ, filterMap_append, filterMap_congr inside, ih]
    simp

/-- Whatever the order in which tasks are finished, their results come in the order of the files. -/
theorem mapFiles_eq_map {pool : Pool} (all : pool.finished.Perm (range files.length))
    (task : SourceFile → α) : pool.mapFiles task files = files.map task := by
  unfold mapFiles
  split
  · rfl
  · have kept (i : Nat) (h : i ∈ range files.length) :
        (pool.finished.foldl (keep task files) []).lookup i = (files.map task)[i]? := by
      have bound := mem_range.mp h
      rw [lookup_finished (getElem?_eq_getElem bound) (.inl (all.mem_iff.mpr h))]
      simp [bound]
    have whole := filterMap_range_getElem? (files.map task)
    rw [length_map] at whole
    unfold gather
    rw [filterMap_congr kept, whole]

end Pool

/-! ### The orders of records -/

theorem FileError.path_eq_of_tie (a b : FileError) (tie : compareKey a b = .eq) :
    a.path = b.path := by
  have paths : compare a.path b.path = .eq := (Ordering.then_eq_eq.mp tie).1
  exact Std.LawfulEqCmp.eq_of_compare paths

instance : Std.TransCmp FileError.compareKey :=
  inferInstanceAs (Std.TransCmp
    (compareLex (compareOn FileError.path) (compareOn FileError.message)))

instance : Std.LawfulEqCmp FileError.compareKey where
  eq_of_compare {a b} tie := by
    have messages : compare a.message b.message = .eq := (Ordering.then_eq_eq.mp tie).2
    obtain ⟨path, message⟩ := a
    obtain ⟨path', message'⟩ := b
    obtain rfl : path = path' := FileError.path_eq_of_tie _ _ tie
    obtain rfl : message = message' := Std.LawfulEqCmp.eq_of_compare messages
    rfl

instance : Std.TransCmp FileWarning.compareKey :=
  inferInstanceAs (Std.TransCmp
    (compareLex (compareLex (compareOn FileWarning.path) (compareOn fun w => w.line.getD 0))
      (compareOn FileWarning.message)))

instance : Std.TransCmp Entry.compareKey :=
  inferInstanceAs (Std.TransCmp
    (compareLex (compareLex (compareOn Entry.file) (compareOn Entry.startLine))
      (compareOn Entry.name)))

instance : Std.TransCmp FileLink.compareKey :=
  inferInstanceAs (Std.TransCmp
    (compareLex (compareLex (compareLex (compareOn FileLink.source)
      (compareOn fun l => l.kind.text)) (compareOn FileLink.written)) (compareOn FileLink.line)))

theorem FileWarning.path_eq_of_tie (a b : FileWarning) (tie : compareKey a b = .eq) :
    a.path = b.path := by
  have paths : compare a.path b.path = .eq :=
    (Ordering.then_eq_eq.mp (Ordering.then_eq_eq.mp tie).1).1
  exact Std.LawfulEqCmp.eq_of_compare paths

theorem Entry.file_eq_of_tie (a b : Entry) (tie : compareKey a b = .eq) : a.file = b.file := by
  have files : compare a.file b.file = .eq :=
    (Ordering.then_eq_eq.mp (Ordering.then_eq_eq.mp tie).1).1
  exact Std.LawfulEqCmp.eq_of_compare files

theorem FileLink.source_eq_of_tie (a b : FileLink) (tie : compareKey a b = .eq) :
    a.source = b.source := by
  have sources : compare a.source b.source = .eq :=
    (Ordering.then_eq_eq.mp (Ordering.then_eq_eq.mp (Ordering.then_eq_eq.mp tie).1).1).1
  exact Std.LawfulEqCmp.eq_of_compare sources

/-! ### The index -/

namespace Index

variable {files files' : List SourceFile}

theorem entries_file (f : SourceFile) : ∀ e ∈ (ofFile f).entries, e.file = f.path := by
  unfold ofFile
  split
  · intro e h
    obtain ⟨d, _, rfl⟩ := mem_map.mp (mem_sortWith.mp h)
    rfl
  · simp

theorem warnings_path (f : SourceFile) : ∀ w ∈ (ofFile f).warnings, w.path = f.path := by
  unfold ofFile
  split
  · intro w h
    obtain ⟨w', _, rfl⟩ := mem_map.mp h
    rfl
  · simp

theorem errors_path (f : SourceFile) : ∀ e ∈ (ofFile f).errors, e.path = f.path := by
  unfold ofFile
  split <;> simp

/-- **Any arrangement of the files gives one index.** -/
theorem ofFiles_eq_of_perm (perm : files.Perm files') (distinct : (files.map (·.path)).Nodup) :
    ofFiles files = ofFiles files' := by
  simp only [ofFiles, merge, flatMap_map]
  rw [sortWith_flatMap_eq_of_perm entries_file Entry.file_eq_of_tie perm distinct,
    sortWith_flatMap_eq_of_perm errors_path FileError.path_eq_of_tie perm distinct,
    sortWith_flatMap_eq_of_perm warnings_path FileWarning.path_eq_of_tie perm distinct]

/-- An index is the merge of the indexes of the single files. -/
theorem ofFiles_eq_merge (files : List SourceFile) :
    ofFiles files = merge (files.map fun f => ofFiles [f]) := by
  simp only [ofFiles, merge, flatMap_map, map_cons, map_nil, flatMap_cons,
    flatMap_nil, append_nil, sortWith_flatMap_sortWith]

/-- A file without a supported language adds one error and nothing else. -/
theorem ofFiles_unsupported {f : SourceFile} {fault : UnsupportedLanguage}
    (unsupported : f.language.family = .error fault) (before after : List SourceFile) :
    ofFiles (before ++ f :: after) = { ofFiles (before ++ after) with
        errors := sortWith FileError.compareKey
          (⟨f.path, "scan failed: " ++ fault.message⟩ :: (ofFiles (before ++ after)).errors) } := by
  have alone : ofFile f = { errors := [⟨f.path, "scan failed: " ++ fault.message⟩] } := by
    simp [ofFile, scanFile, unsupported, bind, Except.bind]
  simp only [ofFiles, merge, flatMap_map, flatMap_append, flatMap_cons, alone,
    nil_append, Index.mk.injEq, true_and, and_true]
  refine sortWith_eq_of_perm ?_
  refine perm_middle.trans (List.Perm.cons _ ?_)
  exact (sortWith_perm _ _).symm

end Index

/-! ### The blueprint -/

namespace FileScope

variable {paths paths' : List String} {crates : List (String × String)}

section Congr

variable (same : SameElements paths paths')
include same

/-- Look-ups ask only which paths there are. -/
theorem existing_congr (options : List String) :
    existing ⟨paths, crates⟩ options = existing ⟨paths', crates⟩ options := by
  unfold existing
  rw [filter_congr fun p _ => same.contains_eq p]

theorem longestModule_congr (base : String) (segments : List String) :
    longestModule ⟨paths, crates⟩ base segments = longestModule ⟨paths', crates⟩ base segments := by
  induction segments with
  | nil => rfl
  | cons last initial ih => rw [longestModule, longestModule, existing_congr same, ih]

theorem rustUse_congr (source written : String) :
    rustUse ⟨paths, crates⟩ source written = rustUse ⟨paths', crates⟩ source written := by
  have base (segments : List String) :
      rustBase? ⟨paths, crates⟩ source segments = rustBase? ⟨paths', crates⟩ source segments := rfl
  simp only [rustUse, base, longestModule_congr same, rustModuleFile, existing_congr same]

theorem pythonImport_congr (source written : String) :
    pythonImport ⟨paths, crates⟩ source written = pythonImport ⟨paths', crates⟩ source written := by
  simp only [pythonImport, pythonAbsolute, pythonRelative, existing_congr same,
    sortedDistinct_congr same]

/-- **What a reference resolves to depends on which paths there are.** -/
theorem resolve_congr (source : String) (family : Family) (kind : LinkKind) (written : String) :
    resolve ⟨paths, crates⟩ source family kind written =
      resolve ⟨paths', crates⟩ source family kind written := by
  have candidates : candidates ⟨paths, crates⟩ source family kind written =
      candidates ⟨paths', crates⟩ source family kind written := by
    cases family with
    | rust =>
      simp only [FileScope.candidates, rustModule, existing_congr same, rustUse_congr same]
    | curly =>
      simp only [FileScope.candidates, curlyImport, existing_congr same, same.contains_eq]
    | python => exact pythonImport_congr same source written
  simp only [resolve, candidates]

end Congr

end FileScope

namespace Blueprint

variable {files files' : List SourceFile} {x : Extract} {f : SourceFile}

theorem extracts_map (files : List SourceFile) :
    extracts (files.map extract) = files.flatMap fun f => extracts [extract f] := by
  induction files with
  | nil => rfl
  | cons f files ih =>
    rw [map_cons, flatMap_cons, ← ih]
    exact filterMap_append (l := [extract f])

theorem mem_extracts {parts : List (Except FileError Extract)} :
    x ∈ extracts parts ↔ .ok x ∈ parts := by
  constructor
  · intro h
    obtain ⟨part, mem, kept⟩ := mem_filterMap.mp h
    match part with
    | .ok y =>
      cases kept
      exact mem
    | .error e => cases kept
  · intro h
    exact mem_filterMap.mpr ⟨.ok x, h, rfl⟩

/-- What is read from a file carries the file. -/
theorem file_of_extract (h : extract f = .ok x) : x.file = f := by
  unfold extract at h
  split at h
  · cases h
    rfl
  · cases h
  · cases h

theorem file_of_mem_extracts (h : x ∈ extracts [extract f]) : x.file = f :=
  file_of_extract (mem_singleton.mp (mem_extracts.mp h)).symm

instance : Std.TransCmp fun a b : FileNode => compare a.path b.path :=
  inferInstanceAs (Std.TransCmp (compareOn FileNode.path))

/-- **Any arrangement of the files gives one blueprint.** -/
theorem ofFiles_eq_of_perm (perm : files.Perm files') (distinct : (files.map (·.path)).Nodup)
    (crates : List (String × String)) (readErrors : List FileError) :
    ofFiles files crates readErrors = ofFiles files' crates readErrors := by
  have parts : (files.map extract).Perm (files'.map extract) := perm.map extract
  -- The known paths are the same in both arrangements, so every reference has the same target.
  have known : SameElements ((extracts (files.map extract)).map (·.file.path))
      ((extracts (files'.map extract)).map (·.file.path)) :=
    fun _ => ((parts.filterMap _).map _).mem_iff
  have target : link ⟨(extracts (files.map extract)).map (·.file.path), crates⟩ =
      link ⟨(extracts (files'.map extract)).map (·.file.path), crates⟩ := by
    funext x r
    simp only [link, FileScope.resolve_congr known]
  have nodes : sortWith (fun a b => compare a.path b.path)
      ((extracts (files.map extract)).map fun x => node x.file) =
      sortWith (fun a b => compare a.path b.path)
        ((extracts (files'.map extract)).map fun x => node x.file) := by
    have own (f : SourceFile) : ∀ n ∈ (extracts [extract f]).map fun x =>
        node x.file, n.path = f.path := by
      intro n h
      obtain ⟨x, mem, rfl⟩ := mem_map.mp h
      rw [file_of_mem_extracts mem]
      rfl
    have apart (a b : FileNode) (tie : compare a.path b.path = .eq) : a.path = b.path :=
      Std.LawfulEqCmp.eq_of_compare tie
    rw [extracts_map, extracts_map, map_flatMap, map_flatMap]
    exact sortWith_flatMap_eq_of_perm own apart perm distinct
  have links (scope : FileScope) : sortWith FileLink.compareKey
      ((extracts (files.map extract)).flatMap fun x => x.references.map (link scope x)) =
      sortWith FileLink.compareKey
        ((extracts (files'.map extract)).flatMap fun x => x.references.map (link scope x)) := by
    rw [extracts_map, extracts_map, flatMap_assoc, flatMap_assoc]
    refine sortWith_flatMap_eq_of_perm ?_ FileLink.source_eq_of_tie perm distinct
    intro f l h
    obtain ⟨x, mem, inLinks⟩ := mem_flatMap.mp h
    obtain ⟨r, _, rfl⟩ := mem_map.mp inLinks
    rw [← file_of_mem_extracts mem]
    rfl
  have errors : sortWith FileError.compareKey (readErrors ++ complaints (files.map extract)) =
      sortWith FileError.compareKey (readErrors ++ complaints (files'.map extract)) :=
    sortWith_eq_of_perm ((parts.filterMap _).append_left readErrors)
  simp only [ofFiles, merge, nodes, errors, target, links]

end Blueprint

/-! ### The call graph -/

namespace CallGraph

variable {files files' : List SourceFile}

/-- The file at a path is the last one with it. -/
theorem fileAt?_eq_head? (files : List SourceFile) (path : String) :
    fileAt? files path = (files.reverse.filter (·.path == path)).head? :=
  (head?_filter ..).symm

/-- With different paths that is the only one. -/
theorem fileAt?_eq_of_perm (perm : files.Perm files') (distinct : (files.map (·.path)).Nodup)
    (path : String) : fileAt? files path = fileAt? files' path := by
  have reversed : files.reverse.Perm files'.reverse :=
    files.reverse_perm.trans (perm.trans files'.reverse_perm.symm)
  have distinct' : (files.reverse.map (·.path)).Nodup :=
    ((files.reverse_perm.map _).nodup_iff).mpr distinct
  rw [fileAt?_eq_head?, fileAt?_eq_head?, filter_path_eq_of_perm reversed distinct' path]

/-- **Any arrangement of the files gives one call graph.** -/
theorem build_eq_of_perm (perm : files.Perm files') (distinct : (files.map (·.path)).Nodup) :
    build files = build files' := by
  have look : fileAt? files = fileAt? files' := funext (fileAt?_eq_of_perm perm distinct)
  have found : sites files = sites files' := by
    have each : sitesAt files = sitesAt files' := by
      funext entries path
      simp only [sitesAt, look]
    funext entries
    simp only [sites, each]
  funext entries options readErrors warnings blueprint
  simp only [build, ofSites, found, functions, scope, look, perm.length_eq]

end CallGraph

/-- Results depend on which files there are, and neither on their order nor on the order in which
the tasks on them are finished. An index is the merge of the indexes of its files, and a file
without a supported language adds one error to it and nothing else. -/
theorem results_order_free (files : List SourceFile) :
    ((files.map (·.path)).Nodup → ∀ files' : List SourceFile, files'.Perm files →
      ∀ indexing extraction : Pool, indexing.finished.Perm (List.range files'.length) →
        extraction.finished.Perm (List.range files'.length) →
        ∀ (crates : List (String × String)) (readErrors buildErrors : List FileError)
          (options : CallOptions),
          let index := Index.ofPool indexing files'
          let blueprint := Blueprint.ofPool extraction files' crates readErrors
          index = Index.ofFiles files ∧ blueprint = Blueprint.ofFiles files crates readErrors ∧
            CallGraph.build files' index.entries options buildErrors index.warnings blueprint =
              CallGraph.build files (Index.ofFiles files).entries options buildErrors
                (Index.ofFiles files).warnings (Blueprint.ofFiles files crates readErrors)) ∧
    Index.ofFiles files = Index.merge (files.map fun f => Index.ofFiles [f]) ∧
    ∀ before f after fault, files = before ++ f :: after → f.language.family = .error fault →
      Index.ofFiles files =
        { Index.ofFiles (before ++ after) with
          errors := sortWith FileError.compareKey
            (⟨f.path, "scan failed: " ++ fault.message⟩ ::
              (Index.ofFiles (before ++ after)).errors) } := by
  refine ⟨?_, Index.ofFiles_eq_merge files, ?_⟩
  · intro distinct files' perm indexing extraction indexed extracted crates readErrors buildErrors
      options index blueprint
    have sameIndex : index = Index.ofFiles files := by
      rw [Index.ofFiles_eq_of_perm perm.symm distinct]
      exact congrArg Index.merge (Pool.mapFiles_eq_map indexed _)
    have sameBlueprint : blueprint = Blueprint.ofFiles files crates readErrors := by
      rw [Blueprint.ofFiles_eq_of_perm perm.symm distinct]
      exact congrArg (Blueprint.merge · crates readErrors) (Pool.mapFiles_eq_map extracted _)
    refine ⟨sameIndex, sameBlueprint, ?_⟩
    rw [sameIndex, sameBlueprint, CallGraph.build_eq_of_perm perm.symm distinct]
  · rintro before f after fault rfl unsupported
    exact Index.ofFiles_unsupported unsupported before after

/-- Two files that two workers finish in opposite orders, and the files the other way round. -/
theorem results_order_free_swapped :
    let first := SourceFile.ofText "a.rs" .rust "mod b;\nfn f() { b::g(); }\n"
    let second := SourceFile.ofText "b.rs" .rust "pub fn g() {}\n"
    let index := Index.ofPool ⟨2, [1, 0]⟩ [second, first]
    let blueprint := Blueprint.ofPool ⟨2, [0, 1]⟩ [second, first] [] []
    ([first, second].map (·.path)).Nodup ∧
      index = Index.ofFiles [first, second] ∧ blueprint = Blueprint.ofFiles [first, second] [] [] ∧
      CallGraph.build [second, first] index.entries {} [] index.warnings blueprint =
        CallGraph.build [first, second] (Index.ofFiles [first, second]).entries {} []
          (Index.ofFiles [first, second]).warnings (Blueprint.ofFiles [first, second] [] []) := by
  intro first second index blueprint
  have distinct : ([first, second].map (·.path)).Nodup := by decide
  have swapped : [second, first].Perm [first, second] := List.Perm.swap ..
  exact ⟨distinct, (results_order_free [first, second]).1 distinct [second, first] swapped
    ⟨2, [1, 0]⟩ ⟨2, [0, 1]⟩ (by decide) (by decide) [] [] [] {}⟩

end CodeAtlas
