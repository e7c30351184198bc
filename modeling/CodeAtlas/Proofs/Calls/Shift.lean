import CodeAtlas.Proofs.Diff.Patch
import CodeAtlas.Proofs.Reference.Resolution
import CodeAtlas.Proofs.Reference.Shift

/-!
Blank lines above files are no structural change.

The body of an entry that has moved is the same text, so its calls are the same and have moved with
it (`CallSite.ofEntry_shift`). What a call resolves to is decided by names, kinds, containers and
files (`CallScope.resolve_shift`). So the call graphs before and after have the same identities of
nodes and the same ends of calls, and their difference is empty (`blank_lines_change_no_structure`).
-/

namespace CodeAtlas

open List

/-! ### Call sites -/

namespace CallSite

def shift (k : Nat) (c : CallSite) : CallSite :=
  { c with line := c.line + k }

/-- The declarations inside a body move with it. -/
theorem nestedSpans_shift (k : Nat) (e : Entry) (siblings : List Entry) :
    nestedSpans (e.shift k) (siblings.map (Entry.shift k)) =
      (nestedSpans e siblings).map fun (start, stop) => (start + k, stop + k) := by
  unfold nestedSpans
  rw [filter_map, map_map, map_map]
  have same :
      (fun other : Entry => other.id != (e.shift k).id && (e.shift k).bodyOffset ≤ other.declOffset
        && other.endOffset ≤ (e.shift k).endOffset) ∘ Entry.shift k =
      fun other => other.id != e.id && e.bodyOffset ≤ other.declOffset && other.endOffset ≤
        e.endOffset := by
    funext other
    simp [Entry.shift]
  rw [same]
  rfl

/-- What is blanked out depends on offsets relative to the text only. -/
theorem blankOut_shift (k : Nat) (spans : List (Nat × Nat)) (pos : Nat) (cs : List Char) :
    blankOut (spans.map fun (start, stop) => (start + k, stop + k)) (pos + k) cs =
      blankOut spans pos cs := by
  induction cs generalizing pos with
  | nil => rfl
  | cons c cs ih =>
    have inside : (spans.map fun (start, stop) => (start + k, stop + k)).any
          (fun (start, stop) => start ≤ pos + k && pos + k < stop) =
        spans.any fun (start, stop) => start ≤ pos && pos < stop := by
      rw [any_map]
      congr 1
      funext span
      simp
    rw [blankOut, blankOut, inside, Nat.add_right_comm, ih]

/-- The text in which the calls of an entry are looked for does not change. -/
theorem ownBody_shift (k : Nat) (e : Entry) (masked : List Char) (siblings : List Entry) :
    ownBody (e.shift k) (newlines k ++ masked) (siblings.map (Entry.shift k)) =
      ownBody e masked siblings := by
  have text : ((newlines k ++ masked).take (e.shift k).endOffset).drop (e.shift k).bodyOffset =
      (masked.take e.endOffset).drop e.bodyOffset :=
        slice_newlines k e.bodyOffset e.endOffset masked
  rw [ownBody, nestedSpans_shift, text]
  exact blankOut_shift k _ _ _

/-- The calls of an entry that has moved are its calls, each as many lines further down. -/
theorem ofEntry_shift (family : Family) (k : Nat) (e : Entry) (text masked : List Char)
    (siblings : List Entry) :
    ofEntry family (e.shift k) (newlines k ++ masked) (LineMap.ofText (newlines k ++ text))
        (siblings.map (Entry.shift k)) =
      (ofEntry family e masked (LineMap.ofText text) siblings).map (shift k) := by
  unfold ofEntry located
  rw [ownBody_shift, map_map, map_map, map_map]
  refine map_congr_left fun m _ => ?_
  have place : (e.shift k).bodyOffset + m.start = e.bodyOffset + m.start + k :=
    Nat.add_right_comm ..
  simp only [Function.comp_apply, place, LineMap.lineOf_newlines, shift]

end CallSite

namespace CallGraph

def shiftSites (shiftOf : String → Nat) (found : Entry × List CallSite) : Entry × List CallSite :=
  (found.1.shift (shiftOf found.1.file), found.2.map (CallSite.shift (shiftOf found.1.file)))

variable (shiftOf : String → Nat)

/-- The calls in one file move by the lines put above it. -/
theorem fileSites_prepend {file : SourceFile} {entries : List Entry} {k : Nat}
    (here : ∀ e ∈ entries, shiftOf e.file = k) :
    fileSites (file.prepend k) (entries.map fun e => e.shift (shiftOf e.file)) =
      (fileSites file entries).map (map (shiftSites shiftOf)) := by
  have moved : (entries.map fun e => e.shift (shiftOf e.file)) = entries.map (Entry.shift k) :=
    map_congr_left fun e mem => by rw [here e mem]
  have language : (file.prepend k).language = file.language := rfl
  unfold fileSites
  rw [moved, language]
  cases file.language.family with
  | error fault => rfl
  | ok family =>
    have text : (file.prepend k).text = newlines k ++ file.text := rfl
    simp only [bind, Except.bind, text, mask_newlines, filter_map]
    refine mapM_map_map fun e mem => ?_
    have at' := here e (mem_filter.mp mem).1
    have language : (e.shift k).language = e.language := rfl
    rw [language]
    cases e.language.family with
    | error fault => rfl
    | ok family =>
      simp only [CallSite.ofEntry_shift, shiftSites, at', pure, Except.pure, Except.map]

theorem fileAt?_prepend (files : List SourceFile) (path : String) :
    fileAt? (files.map fun file => file.prepend (shiftOf file.path)) path =
      (fileAt? files path).map (SourceFile.prepend (shiftOf path)) := by
  unfold fileAt?
  rw [← map_reverse, find?_map]
  change (files.reverse.find? (·.path == path)).map _ = _
  cases found : files.reverse.find? (·.path == path) with
  | none => rfl
  | some file =>
    have at' : file.path = path := by simpa using find?_some found
    rw [Option.map_some, Option.map_some, at']

section

variable (files : List SourceFile) (entries : List Entry)
include files entries

/-- The calls at one path move by the number for that path. -/
theorem sitesAt_prepend (path : String) :
    sitesAt (files.map fun file => file.prepend (shiftOf file.path))
        (entries.map fun e => e.shift (shiftOf e.file)) path =
      (sitesAt files entries path).map (map (shiftSites shiftOf)) := by
  have here : (entries.map fun e => e.shift (shiftOf e.file)).filter (·.file == path) =
      (entries.filter (·.file == path)).map fun e => e.shift (shiftOf e.file) := filter_map
  unfold sitesAt
  rw [fileAt?_prepend, here]
  cases fileAt? files path with
  | none => rfl
  | some file =>
    refine fileSites_prepend shiftOf fun e mem => ?_
    rw [eq_of_beq (mem_filter.mp mem).2]

/-- All calls of a list of files move, each by the number for its file. -/
theorem sites_prepend :
    sites (files.map fun file => file.prepend (shiftOf file.path))
      (entries.map fun e => e.shift (shiftOf e.file)) =
      (sites files entries).map (map (shiftSites shiftOf)) := by
  have paths : (entries.map fun e => e.shift (shiftOf e.file)).map (·.file) =
      entries.map (·.file) := by
    rw [map_map]
    rfl
  have parts :=
    mapM_map_map (h := id) fun path (_ : path ∈ sortedDistinct (entries.map (·.file))) =>
    sitesAt_prepend shiftOf files entries path
  rw [map_id] at parts
  simp only [sites, paths, parts]
  cases (sortedDistinct (entries.map (·.file))).mapM (sitesAt files entries) with
  | error fault => rfl
  | ok lists => simp [bind, Except.bind, pure, Except.pure, Except.map, map_flatten]

/-- The functions are the same ones, moved. -/
theorem functions_prepend :
    functions (files.map fun file => file.prepend (shiftOf file.path))
      (entries.map fun e => e.shift (shiftOf e.file)) =
      (functions files entries).map fun e => e.shift (shiftOf e.file) := by
  unfold functions
  rw [filter_map]
  congr 1
  refine filter_congr fun e _ => ?_
  simp only [Function.comp_apply, fileAt?_prepend, Option.isSome_map]
  rfl

end

end CallGraph

/-! ### Resolution -/

namespace CallScope

def shift (shiftOf : String → Nat) (scope : CallScope) : CallScope :=
  { scope with entries := scope.entries.map fun e => e.shift (shiftOf e.file) }

variable (shiftOf : String → Nat) (scope : CallScope)

theorem entries_shift : (scope.shift shiftOf).entries = scope.entries.map fun e =>
    e.shift (shiftOf e.file) :=
  rfl

theorem sees_shift (source target : String) :
    (scope.shift shiftOf).sees source target = scope.sees source target :=
  rfl

/-- A test that does not see where an entry stands keeps the same entries. -/
theorem filter_shift {p : Entry → Bool} (blind : ∀ e k, p (e.shift k) = p e)
    (entries : List Entry) :
    (entries.map fun e => e.shift (shiftOf e.file)).filter p =
      (entries.filter p).map fun e => e.shift (shiftOf e.file) := by
  rw [filter_map]
  congr 1
  exact filter_congr fun e _ => blind e _

/-- Candidates are found by name and kind, so the same ones are found. -/
theorem callables_shift (name : String) :
    (scope.shift shiftOf).callables name = (scope.callables name).map fun e =>
      e.shift (shiftOf e.file) :=
  filter_shift shiftOf (fun _ _ => rfl) scope.entries

/-- The methods of a name are the same, and so is whether they decide. -/
theorem anyMethod_shift (caller : Entry) (k : Nat) (name : String) :
    (scope.shift shiftOf).anyMethod (caller.shift k) name = ((scope.anyMethod caller name).1,
        (scope.anyMethod caller name).2.map fun e => e.shift (shiftOf e.file)) := by
  simp only [anyMethod, callables_shift, sees_shift, Entry.id_shift, Entry.file_shift]
  repeat rw [filter_shift shiftOf fun _ _ => rfl]
  rw [isEmpty_map]
  split <;> rfl

/-- One tier of candidates: which one it is and what it holds does not depend on where entries
stand. -/
theorem tier_shift (caller : Entry) (k : Nat) (callee : Callee) :
    (scope.shift shiftOf).tier (caller.shift k) callee =
      ((scope.tier caller callee).1, (scope.tier caller callee).2.map fun e =>
        e.shift (shiftOf e.file)) := by
  have onValue := anyMethod_shift shiftOf scope caller k callee.name
  unfold tier
  cases callee.receiver with
  | own =>
    rw [entries_shift, filter_shift shiftOf fun _ _ => rfl]
    simp only [Entry.file_shift, Entry.container_shift, isEmpty_map]
    split
    · exact onValue
    · rfl
  | qualified qualifier =>
    simp only [callables_shift, sees_shift, Entry.file_shift]
    rw [filter_shift shiftOf fun _ _ => rfl, isEmpty_map]
    split
    · exact onValue
    · rfl
  | unknown => exact onValue
  | parent => rfl
  | bare =>
    simp only [callables_shift, sees_shift, Entry.file_shift]
    repeat rw [filter_shift shiftOf fun _ _ => rfl]
    rw [isEmpty_map]
    split <;> rfl

/-- A call means the same: identities have no offsets in them. -/
theorem resolve_shift (caller : Entry) (k : Nat) (written : String) :
    (scope.shift shiftOf).resolve (caller.shift k) written = scope.resolve caller written := by
  unfold resolve candidates
  rw [tier_shift]
  dsimp only
  rw [map_map]
  rfl

end CallScope

/-! ### Call graphs -/

def CallLink.ends (l : CallLink) : String × Option String :=
  (l.source, l.target)

namespace Snapshot

/-- Snapshots with the same nodes and edges have an empty difference, which can be computed where
ids are texts. -/
theorem Agree.diff_isEmpty {s t : Snapshot} (h : s.Agree t) (hs : s.TextNamed) (ht : t.TextNamed) :
    ∃ d, s.diff t = .ok d ∧ d.isEmpty = true := by
  obtain ⟨v, hv⟩ := hs.showsTexts
  obtain ⟨w, hw⟩ := ht.showsTexts
  have views := h.views hv hw
  refine ⟨_, diff_eq h.kind hv hw, ?_⟩
  rw [Diff.isEmpty_map]
  exact GraphView.isEmpty_diff.mpr ⟨views.nodes, views.edges⟩

end Snapshot

namespace CallGraph

/-- The ids in the snapshot of a call graph are texts. -/
theorem snapshot_textNamed (g : CallGraph) : g.snapshot.TextNamed := by
  constructor
  · intro id mem
    simp only [snapshot, Snapshot.nodeIds, Snapshot.nodes, map_map, mem_map] at mem
    obtain ⟨n, _, rfl⟩ := mem
    exact ⟨n.id, rfl⟩
  · intro e mem
    simp only [snapshot, Snapshot.resolvedEdges, Snapshot.edges, map_map, mem_filter, mem_map]
      at mem
    obtain ⟨⟨l, _, rfl⟩, _⟩ := mem
    refine ⟨⟨l.source, rfl⟩, ?_, ⟨_, rfl⟩⟩
    cases target : l.target with
    | none => exact .inl (by simp [target, Json.opt])
    | some id => exact .inr ⟨id, by simp [target, Json.opt]⟩

/-- Call graphs with the same ids of nodes and the same ends of links have snapshots that agree. -/
theorem snapshot_agree {g h : CallGraph} (nodes : (g.nodes.map (·.id)).Perm (h.nodes.map (·.id)))
    (links : (g.links.map CallLink.ends).Perm (h.links.map CallLink.ends)) :
    g.snapshot.Agree h.snapshot := by
  have ids (g : CallGraph) : g.snapshot.nodeIds = (g.nodes.map (·.id)).map .str := by
    simp only [snapshot, Snapshot.nodeIds, Snapshot.nodes, map_map]
    rfl
  have keys (g : CallGraph) :
      g.snapshot.edgeKeys = ((g.links.map CallLink.ends).filter (·.2.isSome)).map fun ends =>
      ⟨.str ends.1, if (Json.opt .str ends.2).isTruthy then .opt .str ends.2 else .str "",
        .str LinkKind.call.text⟩ := by
    simp only [snapshot, Snapshot.edgeKeys, Snapshot.resolvedEdges, Snapshot.edges,
      map_map, filter_map]
    rfl
  constructor
  · rfl
  · intro id
    rw [ids, ids]
    exact (nodes.map _).mem_iff
  · intro key
    rw [keys, keys]
    exact ((links.filter _).map _).mem_iff

/-- The links of a function have the same ends after the shift: only their lines differ. -/
theorem ends_linksOf_shift (shiftOf : String → Nat) (scope : CallScope) (limit : Int)
    (found : Entry × List CallSite) :
    (linksOf (scope.shift shiftOf) limit (shiftSites shiftOf found).1
      (shiftSites shiftOf found).2).map CallLink.ends =
      (linksOf scope limit found.1 found.2).map CallLink.ends := by
  unfold linksOf shiftSites
  rw [← map_take, map_map, map_map, map_map]
  refine map_congr_left fun site _ => ?_
  simp only [Function.comp_apply, CallLink.ends, CallScope.resolve_shift]
  rfl

variable {files : List SourceFile} {entries : List Entry} {options : CallOptions}
  {errors : List FileError} {warnings : List FileWarning} {blueprint : Blueprint}
  {found : List (Entry × List CallSite)}

/-- The nodes of a call graph are the functions, in another order. -/
theorem ofSites_nodes_perm :
    ((ofSites files entries options errors warnings blueprint found).nodes.map (·.id)).Perm
      ((functions files entries).map (·.id)) := by
  have sorted := (sortWith_perm (fun a b : CallNode => compare a.id b.id)
    ((functions files entries).map node)).map (·.id)
  rwa [map_map] at sorted

/-- The links of a call graph are those of its sites, in another order and without the ones that
options leave out. -/
theorem ofSites_links_perm :
    ((ofSites files entries options errors warnings blueprint found).links.map CallLink.ends).Perm
      (((found.flatMap fun p =>
        (linksOf (scope files entries blueprint) options.maxCallsPerFunction p.1 p.2).map
        CallLink.ends)).filter fun ends => !options.resolvedOnly || ends.2.isSome) := by
  have sorted := sortWith_perm CallLink.compareKey
    (found.flatMap fun p => linksOf (scope files entries blueprint)
      options.maxCallsPerFunction p.1 p.2)
  have kept : (ofSites files entries options errors warnings blueprint found).links =
      (ofSites files entries options errors warnings blueprint found).allLinks.filter
        fun l => !options.resolvedOnly || l.target.isSome := by
    unfold ofSites
    cases options.resolvedOnly <;> simp
  rw [kept, ← map_flatMap, filter_map]
  exact (sorted.filter _).map _

/-- The call graphs of moved functions agree, since their nodes have the same ids and their links
the same ends. -/
theorem agree_prepend (shiftOf : String → Nat) {moved : List SourceFile} {entries' : List Entry}
    {errors' : List FileError} {warnings' : List FileWarning} {blueprint' : Blueprint}
    (functions' : functions moved entries' = (functions files entries).map fun e =>
      e.shift (shiftOf e.file))
    (targets' : blueprint'.targets = blueprint.targets) :
    (ofSites files entries options errors warnings blueprint found).snapshot.Agree
      (ofSites moved entries' options errors' warnings' blueprint'
        (found.map (shiftSites shiftOf))).snapshot := by
  have scope' : scope moved entries' blueprint' =
      (scope files entries blueprint).shift shiftOf := by
    rw [scope, functions', targets']
    rfl
  apply snapshot_agree
  · refine ofSites_nodes_perm.trans ?_
    have ids : (functions moved entries').map (·.id) = (functions files entries).map (·.id) := by
      rw [functions', map_map]
      rfl
    rw [← ids]
    exact ofSites_nodes_perm.symm
  · refine ofSites_links_perm.trans ?_
    refine (List.Perm.of_eq ?_).trans ofSites_links_perm.symm
    rw [scope', flatMap_map]
    simp only [ends_linksOf_shift]

end CallGraph

/-- The language of an entry is that of one of the files. -/
theorem Index.exists_language {files : List SourceFile} {e : Entry}
    (h : e ∈ (ofFiles files).entries) :
    ∃ file ∈ files, e.language = file.language := by
  obtain ⟨part, inParts, inPart⟩ := mem_flatMap.mp (mem_sortWith.mp h)
  obtain ⟨file, mem, rfl⟩ := mem_map.mp inParts
  refine ⟨file, mem, ?_⟩
  unfold ofFile at inPart
  split at inPart
  · obtain ⟨d, _, rfl⟩ := mem_map.mp (mem_sortWith.mp inPart)
    rfl
  · cases inPart

namespace CallGraph

/-- In Rust and Python files the calls are always found. -/
theorem exists_sites {files : List SourceFile} (supported : ∀ file ∈ files, file.IsRustOrPython) :
    ∃ found, sites files (Index.ofFiles files).entries = .ok found := by
  cases result : sites files (Index.ofFiles files).entries with
  | ok found => exact ⟨found, rfl⟩
  | error fault =>
    obtain ⟨e, mem, file, there, reason⟩ := sites_error result
    rcases reason with language | ⟨_, language⟩
    · have inFiles : file ∈ files := mem_reverse.mp (mem_of_find?_eq_some there)
      obtain ⟨family, known⟩ := (supported file inFiles).family
      simp [known] at language
    · obtain ⟨file, inFiles, same⟩ := Index.exists_language mem
      obtain ⟨family, known⟩ := (supported file inFiles).family
      simp [same, known] at language

/-- Blank lines above files are no structural change. Take Rust and Python files none of which
declares a qualified name twice, and put above each as many empty lines as `shiftOf` says for its
path. Then every entry is the one before with its lines and offsets moved by that number; every
function has the call sites that it had, moved by that number; what is written at a call means to
its caller what it meant before; and with the same options both call graphs are built and their
difference is empty, whatever errors and warnings they carry. A number for each path is a number for
each file where paths are distinct. -/
theorem blank_lines_change_no_structure (files : List SourceFile) (shiftOf : String → Nat)
    (supported : ∀ file ∈ files, file.IsRustOrPython) (once : ∀ file ∈ files, file.DeclaresOnce)
    (crates : List (String × String)) (readErrors : List FileError) :
    let moved := files.map fun file => file.prepend (shiftOf file.path)
    let entries := (Index.ofFiles files).entries
    let entries' := (Index.ofFiles moved).entries
    let blueprint := Blueprint.ofFiles files crates readErrors
    let blueprint' := Blueprint.ofFiles moved crates readErrors
    entries' = entries.map (fun e => e.shift (shiftOf e.file)) ∧
    (∃ found, sites files entries = .ok found ∧ sites moved entries' =
      .ok (found.map (shiftSites shiftOf))) ∧
    (∀ caller written, (scope moved entries' blueprint').resolve
      (caller.shift (shiftOf caller.file)) written =
      (scope files entries blueprint).resolve caller written) ∧
    ∀ (options : CallOptions) (errors errors' : List FileError)
      (warnings warnings' : List FileWarning),
      1 ≤ options.maxCallsPerFunction → ∃ before after d,
        build files entries options errors warnings blueprint = .ok before ∧
        build moved entries' options errors' warnings' blueprint' = .ok after ∧
        before.snapshot.diff after.snapshot = .ok d ∧ d.isEmpty = true := by
  intro moved entries entries' blueprint blueprint'
  have entriesMove : entries' = entries.map (fun e => e.shift (shiftOf e.file)) :=
    Index.entries_prepend shiftOf supported once
  have targetsStay : blueprint'.targets = blueprint.targets :=
    Blueprint.targets_prepend shiftOf supported crates readErrors
  have functionsMove : functions moved entries' = (functions files entries).map fun e =>
      e.shift (shiftOf e.file) := by
    rw [entriesMove]
    exact functions_prepend shiftOf files entries
  obtain ⟨found, before⟩ : ∃ found, sites files entries = .ok found := exists_sites supported
  have after : sites moved entries' = .ok (found.map (shiftSites shiftOf)) := by
    rw [entriesMove, sites_prepend shiftOf files entries, before]
    rfl
  refine ⟨entriesMove, ⟨found, before, after⟩, ?_, ?_⟩
  · intro caller written
    rw [scope, functionsMove, targetsStay]
    exact CallScope.resolve_shift shiftOf (scope files entries blueprint) caller _ written
  · intro options errors errors' warnings warnings' limit
    have enough : ¬ options.maxCallsPerFunction < 1 := Int.not_lt.mpr limit
    have agree : (ofSites files entries options errors warnings blueprint found).snapshot.Agree
        (ofSites moved entries' options errors' warnings' blueprint'
          (found.map (shiftSites shiftOf))).snapshot :=
      agree_prepend shiftOf functionsMove targetsStay
    obtain ⟨d, made, empty⟩ := agree.diff_isEmpty (snapshot_textNamed _) (snapshot_textNamed _)
    refine ⟨_, _, d, ?_, ?_, made, empty⟩
    · simp only [build, if_neg enough, before]
    · simp only [build, if_neg enough, after]

def twoCallers : List SourceFile :=
  [.ofText "a.rs" .rust "fn f() \x7b\n    g();\n\x7d\nfn g() \x7b\x7d\n",
    .ofText "b.py" .python "def h():\n    k()\ndef k(): pass\n"]

/-- Two files, each with as many empty lines above it as its path has characters. -/
theorem blank_lines_change_no_structure_twoCallers :
    (∀ file ∈ twoCallers, file.IsRustOrPython) ∧ (∀ file ∈ twoCallers, file.DeclaresOnce) ∧
    ∃ before after d,
      build twoCallers (Index.ofFiles twoCallers).entries {} [] []
        (Blueprint.ofFiles twoCallers [] []) = .ok before ∧
      build (twoCallers.map fun file => file.prepend file.path.length)
        (Index.ofFiles (twoCallers.map fun file => file.prepend file.path.length)).entries {} [] []
        (Blueprint.ofFiles (twoCallers.map fun file => file.prepend file.path.length) [] []) =
          .ok after ∧
      before.snapshot.diff after.snapshot = .ok d ∧ d.isEmpty = true := by
  have supported : ∀ file ∈ twoCallers, file.IsRustOrPython := by
    simp [twoCallers, SourceFile.ofText, SourceFile.IsRustOrPython]
  have once : ∀ file ∈ twoCallers, file.DeclaresOnce := by
    decide +kernel
  obtain ⟨_, _, _, graphs⟩ :=
    blank_lines_change_no_structure twoCallers String.length supported once [] []
  exact ⟨supported, once, graphs {} [] [] [] [] (by decide)⟩

end CallGraph

end CodeAtlas
