import CodeAtlas.Proofs.Index.Names
import CodeAtlas.Proofs.Reference.Resolution

/-!
What the identity of a declaration says.

An identity is a path, a qualified name, and a line where another declaration of the file has the
same name. Paths without a double colon and plain names can be read back from it (`identify_inj`).
So two declarations have one identity exactly when they are in one file, have one qualified name and
start on one line (`identities_tell_places`). The line alone does not tell two declarations of one
name apart that stand on it (`same_line_same_identity`).
-/

namespace CodeAtlas

open List

variable {entries : List Entry} {blueprint : Blueprint}

/-! ### Reading an identity back -/

/-- A path without a double colon can be read back from the text before the first one. -/
theorem path_inj {p q m n : List Char} (hp : ¬ [':', ':'] <:+: p) (hq : ¬ [':', ':'] <:+: q)
    (hm : NoColon m) (hn : NoColon n)
    (same : p ++ ':' :: ':' :: m = q ++ ':' :: ':' :: n) : p = q ∧ m = n := by
  -- One path would go on with `more` where the other one ends.
  have longer {p q m n : List Char} (hq : ¬ [':', ':'] <:+: q) (hm : NoColon m)
      (more : List Char) (path : q = p ++ more)
      (rest : ':' :: ':' :: m = more ++ ':' :: ':' :: n) : p = q ∧ m = n := by
    match more with
    | [] => exact ⟨by simpa using path.symm, by simpa using rest⟩
    | [c] =>
      obtain ⟨_, tail⟩ := cons.inj rest
      obtain ⟨c', head, ne⟩ := hm
      rw [(cons.inj tail).2] at head
      exact absurd (Option.some.inj head).symm ne
    | c :: d :: more =>
      obtain ⟨rfl, tail⟩ := cons.inj rest
      obtain ⟨rfl, _⟩ := cons.inj tail
      exact absurd ⟨p, more, by simp [path]⟩ hq
  rcases append_eq_append_iff.mp same with ⟨more, path, rest⟩ | ⟨more, path, rest⟩
  · exact longer hq hm more path rest
  · obtain ⟨paths, names⟩ := longer hp hn more path rest
    exact ⟨paths.symm, names.symm⟩

namespace Entry

variable {s t : Bool} {j k : Nat} {d e : Declaration} {ds : List Declaration}

def lineMark (shared : Bool) (line : Nat) : List Char :=
  if shared then '@' :: (toString line).toList else []

/-- The text of an identity: path, double colon, qualified name, and the line where it is shared. -/
theorem toList_identify (file : SourceFile) (shared : Bool) (line : Nat) (d : Declaration) :
    (identify file shared line d).toList =
      file.path.toList ++ ':' :: ':' :: (d.qualifiedName.toList ++ lineMark shared line) := by
  cases shared <;> simp [identify, lineMark]

/-- A name without at signs can be read back from the text before the first one. -/
theorem name_inj {m n : List Char} (hm : '@' ∉ m) (hn : '@' ∉ n)
    (same : m ++ lineMark s j = n ++ lineMark t k) : m = n ∧ lineMark s j = lineMark t k := by
  have front (m : List Char) (free : '@' ∉ m) (s : Bool) (j : Nat) :
      (m ++ lineMark s j).takeWhile (· != '@') = m := by
    have inside : ∀ c ∈ m, (c != '@') = true := by
      intro c h
      rw [bne_iff_ne]
      rintro rfl
      exact free h
    rw [takeWhile_append_of_pos inside]
    cases s <;> simp [lineMark]
  have names : m = n := by rw [← front m hm s j, same, front n hn t k]
  exact ⟨names, append_cancel_left (names ▸ same)⟩

/-- Different numbers are written differently. -/
theorem toString_inj (same : (toString j).toList = (toString k).toList) : j = k := by
  have value (n : Nat) : Nat.ofDigitChars 10 (toString n).toList 0 = n := by
    simp
  rw [← value j, same, value k]

/-- The line can be read back where it is written. -/
theorem lineMark_inj (same : lineMark s j = lineMark t k) : s = t ∧ (s = true → j = k) := by
  cases s <;> cases t <;> simp only [lineMark] at same
  · simp
  · simp at same
  · simp at same
  · exact ⟨rfl, fun _ => toString_inj (cons.inj same).2⟩

/-- The parts of an identity can be read back from it: the path, the qualified name, and the line
where it is given. -/
theorem identify_inj {f g : SourceFile} (hf : ¬ [':', ':'] <:+: f.path.toList)
    (hg : ¬ [':', ':'] <:+: g.path.toList) (hd : d.Named) (he : e.Named)
    (same : identify f s j d = identify g t k e) :
    f.path = g.path ∧ d.qualifiedName = e.qualifiedName ∧ s = t ∧ (s = true → j = k) := by
  have texts := congrArg String.toList same
  rw [toList_identify, toList_identify] at texts
  obtain ⟨paths, rest⟩ := path_inj hf hg (hd.plain.start.append _) (he.plain.start.append _) texts
  obtain ⟨names, marks⟩ := name_inj hd.plain.free he.plain.free rest
  exact ⟨String.toList_injective paths, String.toList_injective names, lineMark_inj marks⟩

/-- Two entries stand at one place: in one file, under one qualified name, from one line on. -/
def SamePlace (a b : Entry) : Prop :=
  a.file = b.file ∧ a.name = b.name ∧ a.startLine = b.startLine

theorem SamePlace.symm {a b : Entry} (h : SamePlace a b) : SamePlace b a :=
  ⟨h.1.symm, h.2.1.symm, h.2.2.symm⟩

/-- Two declarations of one name make the name a shared one. -/
theorem shared_of_sublist (both : [d, e].Sublist ds) (same : d.qualifiedName = e.qualifiedName) :
    1 < ds.countP (·.qualifiedName == d.qualifiedName) := by
  have counted : [d, e].countP (·.qualifiedName == d.qualifiedName) = 2 := by
    simp [same]
  have most : [d, e].countP (·.qualifiedName == d.qualifiedName) ≤
      ds.countP (·.qualifiedName == d.qualifiedName) := both.countP_le
  omega

/-- Declarations of one name on one line have one identity. -/
theorem id_ofDeclaration_congr {f : SourceFile} {lines : LineMap}
    (names : d.qualifiedName = e.qualifiedName)
    (starts : lines.lineOf d.declOffset = lines.lineOf e.declOffset) :
    (ofDeclaration f lines ds d).id = (ofDeclaration f lines ds e).id := by
  simp only [ofDeclaration, identify, names, starts]

end Entry

namespace Index

/-- Two entries have one identity exactly when they stand at one place. -/
def Tells (a b : Entry) : Prop :=
  a.id = b.id ↔ a.SamePlace b

theorem Tells.refl (a : Entry) : Tells a a :=
  ⟨fun _ => ⟨rfl, rfl, rfl⟩, fun _ => rfl⟩

theorem Tells.symm {a b : Entry} (h : Tells a b) : Tells b a :=
  ⟨fun same => (h.mp same.symm).symm, fun place => (h.mpr place.symm).symm⟩

instance : Std.Symm Tells := ⟨fun _ _ => Tells.symm⟩

/-- The entries of a file are made from its declarations, all of them with plain names. -/
theorem entries_of_file (f : SourceFile) : ∃ ds : List Declaration, (∀ d ∈ ds, d.Named) ∧
      (ofFile f).entries.Perm (ds.map (Entry.ofDeclaration f (LineMap.ofText f.text) ds)) := by
  unfold ofFile
  split
  · rename_i found scanned
    exact ⟨found.declarations, qualifiedName_named scanned, sortWith_perm _ _⟩
  · exact ⟨[], by simp, by simp⟩

theorem tells_in_file {f : SourceFile} (path : ¬ [':', ':'] <:+: f.path.toList) :
    (ofFile f).entries.Pairwise Tells := by
  obtain ⟨ds, named, perm⟩ := entries_of_file f
  rw [perm.pairwise_iff Tells.symm, pairwise_map]
  refine pairwise_iff_forall_sublist.mpr ?_
  intro d e both
  have hd : d.Named := named d (both.subset (by simp))
  have he : e.Named := named e (both.subset (by simp))
  constructor
  · intro same
    obtain ⟨_, names, _, lines⟩ := Entry.identify_inj path path hd he same
    exact ⟨rfl, names, lines (by simpa using Entry.shared_of_sublist both names)⟩
  · rintro ⟨_, names, lines⟩
    exact Entry.id_ofDeclaration_congr names lines

/-- Entries of files with different paths have different identities and places. -/
theorem tells_across_files {f g : SourceFile} (apart : f.path ≠ g.path)
    (hf : ¬ [':', ':'] <:+: f.path.toList) (hg : ¬ [':', ':'] <:+: g.path.toList) :
    ∀ a ∈ (ofFile f).entries, ∀ b ∈ (ofFile g).entries, Tells a b := by
  intro a ha b hb
  obtain ⟨ds, named, perm⟩ := entries_of_file f
  obtain ⟨es, named', perm'⟩ := entries_of_file g
  obtain ⟨d, inDs, rfl⟩ := mem_map.mp (perm.mem_iff.mp ha)
  obtain ⟨e, inEs, rfl⟩ := mem_map.mp (perm'.mem_iff.mp hb)
  constructor
  · intro same
    exact absurd (Entry.identify_inj hf hg (named d inDs) (named' e inEs) same).1 apart
  · intro place
    exact absurd place.1 apart

theorem tells_of_distinct {files : List SourceFile} (distinct : (files.map (·.path)).Nodup)
    (separate : ∀ f ∈ files, ¬ [':', ':'] <:+: f.path.toList) :
    (ofFiles files).entries.Pairwise Tells := by
  simp only [ofFiles, merge, flatMap_map]
  rw [(sortWith_perm _ _).pairwise_iff Tells.symm, pairwise_flatMap]
  refine ⟨fun f hf => tells_in_file (separate f hf), ?_⟩
  refine List.Pairwise.imp_of_mem ?_ (pairwise_map.mp distinct)
  intro f g hf hg apart
  exact tells_across_files apart (separate f hf) (separate g hg)

end Index

/-- The nodes of a call graph are told apart as the entries are. -/
theorem CallGraph.nodes_tell {known : List SourceFile} {options : CallOptions}
    {readErrors : List FileError} {warnings : List FileWarning} {g : CallGraph}
    (tells : entries.Pairwise Index.Tells)
    (built : build known entries options readErrors warnings blueprint = .ok g) :
    g.nodes.Pairwise fun a b =>
      a.id = b.id ↔ a.file = b.file ∧ a.name = b.name ∧ a.line = b.line := by
  have listed : g.nodes.Perm ((functions known entries).map node) := by
    unfold build at built
    split at built
    · cases built
    split at built
    · cases built
      exact sortWith_perm _ _
    · cases built
  refine (listed.pairwise_iff ?_).mpr (pairwise_map.mpr (tells.sublist filter_sublist))
  intro a b h
  constructor
  · intro same
    obtain ⟨files, names, lines⟩ := h.mp same.symm
    exact ⟨files.symm, names.symm, lines.symm⟩
  · rintro ⟨files, names, lines⟩
    exact (h.mpr ⟨files.symm, names.symm, lines.symm⟩).symm

/-- What a call resolves to is one place: all candidates of the tier stand there. -/
theorem CallScope.samePlace_of_resolve {caller : Entry} {written id : String}
    (tells : entries.Pairwise Index.Tells)
    (resolved : resolve ⟨entries, blueprint.targets⟩ caller written = some id) {a b : Entry}
    (ha : a ∈ (tier ⟨entries, blueprint.targets⟩ caller (Callee.parse written.toList)).2)
    (hb : b ∈ (tier ⟨entries, blueprint.targets⟩ caller (Callee.parse written.toList)).2) :
    a.SamePlace b := by
  have target (e : Entry) (he :
      e ∈ (tier ⟨entries, blueprint.targets⟩ caller (Callee.parse written.toList)).2) :
      e.id = id :=
    (ids_of_resolve resolved e.id).mp (mem_map_of_mem he)
  have tell : Index.Tells a b :=
    tells.forall_of_forall (fun e _ => Index.Tells.refl e) (mayCall_of_tier ha).1
      (mayCall_of_tier hb).1
  exact tell.mp ((target a ha).trans (target b hb).symm)

/-- An identity says where a declaration stands and no more. In the index of files with distinct
paths that hold no double colon, two declarations have one identity exactly when they stand in one
file under one qualified name and start on one line; the same holds of the nodes of a call graph
over the index. A call that resolves has no candidates at different places. -/
theorem identities_tell_places (files : List SourceFile) (distinct : (files.map (·.path)).Nodup)
    (separate : ∀ f ∈ files, ¬ [':', ':'] <:+: f.path.toList) :
    (Index.ofFiles files).entries.Pairwise Index.Tells ∧
    (∀ (known : List SourceFile) (options : CallOptions) (readErrors : List FileError)
      (warnings : List FileWarning) (blueprint : Blueprint) (g : CallGraph),
      CallGraph.build known (Index.ofFiles files).entries options readErrors warnings blueprint =
        .ok g →
      g.nodes.Pairwise fun a b =>
        a.id = b.id ↔ a.file = b.file ∧ a.name = b.name ∧ a.line = b.line) ∧
    (∀ (known : List SourceFile) (blueprint : Blueprint) (caller : Entry) (written id : String),
      let scope := CallGraph.scope known (Index.ofFiles files).entries blueprint
      scope.resolve caller written = some id →
      ∀ a ∈ (scope.tier caller (Callee.parse written.toList)).2,
        ∀ b ∈ (scope.tier caller (Callee.parse written.toList)).2, a.SamePlace b) := by
  have tells := Index.tells_of_distinct distinct separate
  refine ⟨tells, ?_, ?_⟩
  · intro known options readErrors warnings blueprint g built
    exact CallGraph.nodes_tell tells built
  · intro known blueprint caller written id scope resolved a ha b hb
    exact CallScope.samePlace_of_resolve (tells.sublist List.filter_sublist) resolved ha hb

def oneLine : SourceFile :=
  SourceFile.ofText "a.rs" .rust "fn f() {} fn f() {}"

def oneLineAt (start : Nat) : Declaration :=
  ⟨"f", "f", .function, none, start, start + 8, start + 9, []⟩

/-- The two declarations on one line have one identity. -/
theorem same_line_same_identity :
    (Index.ofFiles [oneLine]).entries.map (fun e => (e.id, e.declOffset)) =
      [("a.rs::f@1", 0), ("a.rs::f@1", 10)] := by
  let ds := [oneLineAt 0, oneLineAt 10]
  let entries := ds.map (Entry.ofDeclaration oneLine (LineMap.ofText oneLine.text) ds)
  have scanned : (scanFile oneLine).toOption.map (·.declarations) = some ds := by decide +kernel
  have sorted : sortWith Entry.compareKey entries = entries :=
    List.mergeSort_of_pairwise (by decide +kernel)
  have alone : (Index.ofFile oneLine).entries = entries := by
    match found : scanFile oneLine with
    | .error _ => simp [found, Except.toOption] at scanned
    | .ok scan =>
      have declared : scan.declarations = ds := by simpa [found, Except.toOption] using scanned
      simp only [Index.ofFile, found, Entry.ofDeclarations, declared]
      exact sorted
  have whole : (Index.ofFiles [oneLine]).entries = entries := by
    simp only [Index.ofFiles, Index.merge, List.map_cons, List.map_nil, List.flatMap_cons,
      List.flatMap_nil, List.append_nil, alone, sorted]
  rw [whole]
  decide +kernel

/-- In an index with that file, identities still tell places. -/
theorem identities_tell_places_oneLine :
    let other := SourceFile.ofText "b.rs" .rust "fn f() {}\nfn f() {}\n"
    ([oneLine, other].map (·.path)).Nodup ∧
      (∀ f ∈ [oneLine, other], ¬ [':', ':'] <:+: f.path.toList) ∧
      (Index.ofFiles [oneLine, other]).entries.Pairwise Index.Tells := by
  intro other
  have distinct : ([oneLine, other].map (·.path)).Nodup := by decide
  have separate : ∀ f ∈ [oneLine, other], ¬ [':', ':'] <:+: f.path.toList := by decide
  exact ⟨distinct, separate, (identities_tell_places [oneLine, other] distinct separate).1⟩

end CodeAtlas
