import CodeAtlas.Proofs.Reference.Resolution
import CodeAtlas.Proofs.Source.PathParts
import CodeAtlas.Proofs.Text.Reading

/-!
Relative references between files.

A written path is followed component by component. The path from a directory to a file leads to that
file however it is spelled (`Respelled`, `import_finds_file`). A path that passes above the root
never comes back: the normal form keeps its first climb (`getLast?_of_climbs`), so that an import by
path does not resolve. An import by dots does not keep the climb and goes on from the root
(`climbing_reference`).
-/

namespace CodeAtlas

open List CodeAtlas.Path

namespace Path

variable {part : String} {parts source target path written done : List String}

/-- A component that leads into a directory. -/
def IsName (part : String) : Prop :=
  part ≠ "" ∧ part ≠ "." ∧ part ≠ ".." ∧ '/' ∉ part.toList

instance (part : String) : Decidable (IsName part) :=
  inferInstanceAs (Decidable (_ ∧ _))

def IsNormal (path : String) : Prop :=
  ∀ part ∈ components path, IsName part

instance (path : String) : Decidable (IsNormal path) :=
  inferInstanceAs (Decidable (∀ part ∈ components path, IsName part))

/-! ### Following components -/

theorem pushComponent_stay (stays : part = "" ∨ part = ".") (rooted : Bool) (done : List String) :
    pushComponent rooted done part = done := by
  rcases stays with rfl | rfl <;> rfl

theorem pushComponent_name (name : IsName part) (rooted : Bool) (done : List String) :
    pushComponent rooted done part = part :: done := by
  obtain ⟨some, stays, climbs, -⟩ := name
  simp [pushComponent, some, stays, climbs]

/-- Names lead into directories one after the other. -/
theorem foldl_names (names : ∀ part ∈ parts, IsName part) (rooted : Bool) (done : List String) :
    parts.foldl (pushComponent rooted) done = parts.reverse ++ done := by
  induction parts generalizing done with
  | nil => rfl
  | cons part parts ih =>
    obtain ⟨name, names⟩ := forall_mem_cons.mp names
    simp [pushComponent_name name, ih names]

theorem pushComponent_climb (name : IsName part) (rooted : Bool) (done : List String) :
    pushComponent rooted (part :: done) ".." = done := by
  simp [pushComponent, name.2.2.1]

theorem foldl_climbs (names : ∀ part ∈ parts, IsName part) (rooted : Bool) (done : List String) :
    (replicate parts.length "..").foldl (pushComponent rooted) (parts.reverse ++ done) = done := by
  induction parts using reverseRecOn with
  | nil => rfl
  | append_singleton parts part ih =>
    rw [length_append, length_singleton, replicate_succ, reverse_append, foldl_cons]
    rw [reverse_singleton, singleton_append, cons_append,
      pushComponent_climb (names part (by simp))]
    exact ih fun other mem => names other (by simp [mem])

/-! ### The path from a directory to a file -/

/-- The components that lead from a directory to a file: up to the last directory that they share,
and down. -/
def route : (source target : List String) → List String
  | a :: source, b :: target =>
      if a = b then route source target else List.replicate (source.length + 1) ".." ++ b :: target
  | source, target => List.replicate source.length ".." ++ target

/-- **The way from a directory to a file leads to the file.** By induction on the components that
both share. -/
theorem foldl_route (names : ∀ part ∈ source, IsName part)
    (names' : ∀ part ∈ target, IsName part) (rooted : Bool) (done : List String) :
    (route source target).foldl (pushComponent rooted) (source.reverse ++ done) =
      target.reverse ++ done := by
  fun_induction route source target generalizing done with
  | case1 source a target ih =>
    have later := ih (forall_mem_cons.mp names).2 (forall_mem_cons.mp names').2 (a :: done)
    simpa using later
  | case2 a source b target _ =>
    have back := foldl_climbs names rooted done
    rw [foldl_append]
    rw [length_cons] at back
    rw [back, foldl_names names']
  | case3 source target _ => rw [foldl_append, foldl_climbs names, foldl_names names']

/-- The spellings of a path: steps that stay, doubled slashes, and ways into a directory and back
may stand anywhere. -/
inductive Respelled (path : List String) : List String → Prop
  | plain : Respelled path path
  | stay {front back : List String} : Respelled path (front ++ back) →
      Respelled path (front ++ "." :: back)
  | slash {front back : List String} : Respelled path (front ++ back) →
      Respelled path (front ++ "" :: back)
  | detour {front back : List String} {part : String} :
      Respelled path (front ++ back) → IsName part → Respelled path (front ++ part :: ".." :: back)

/-- All spellings of a path lead to the same place. -/
theorem Respelled.foldl_eq (h : Respelled path written) (rooted : Bool) (done : List String) :
    written.foldl (pushComponent rooted) done = path.foldl (pushComponent rooted) done := by
  induction h with
  | plain => rfl
  | stay _ ih => rw [← ih, foldl_append, foldl_append, foldl_cons, pushComponent_stay (.inr rfl)]
  | slash _ ih => rw [← ih, foldl_append, foldl_append, foldl_cons, pushComponent_stay (.inl rfl)]
  | detour _ name ih =>
    rw [← ih, foldl_append, foldl_append, foldl_cons, foldl_cons, pushComponent_name name,
      pushComponent_climb name]

/-- A spelling adds no slashes inside of components. -/
theorem Respelled.slash_not_mem (h : Respelled path written)
    (plain : ∀ part ∈ path, '/' ∉ part.toList) : ∀ part ∈ written, '/' ∉ part.toList := by
  induction h with
  | plain => exact plain
  | stay _ ih | slash _ ih => simp_all [or_imp, forall_and]
  | detour _ name ih =>
    obtain ⟨-, -, -, noSlash⟩ := name
    simp_all [or_imp, forall_and]

theorem slash_not_mem_route (plain : ∀ part ∈ target, '/' ∉ part.toList) :
    ∀ part ∈ route source target, '/' ∉ part.toList := by
  have climbs (n : Nat) : ∀ part ∈ replicate n "..", '/' ∉ part.toList := fun part mem => by
    rw [eq_of_mem_replicate mem]
    decide
  fun_induction route source target with
  | case1 source a target ih => exact ih (forall_mem_cons.mp plain).2
  | case2 a source b target _ | case3 source target _ =>
    exact forall_mem_append.mpr ⟨climbs _, plain⟩

/-- The directory of a path in normal form has its components without the last. -/
theorem foldl_directory_of_isNormal {path : String} (normal : IsNormal path) :
    (components (directory path)).foldl (pushComponent false) [] =
      (components path).dropLast.reverse := by
  obtain ⟨front, name, shape⟩ : ∃ front name, components path = front ++ [name] :=
    ⟨_, _, (dropLast_append_getLast (components_ne_nil path)).symm⟩
  have whole : path = "/".intercalate (front ++ [name]) := by rw [← shape, intercalate_components]
  rw [IsNormal, shape] at normal
  obtain ⟨names, last⟩ := forall_mem_append.mp normal
  have plain : '/' ∉ name.toList := (last name (by simp)).2.2.2
  rw [shape, dropLast_concat]
  by_cases alone : front = []
  · subst alone
    rw [whole, nil_append, String.intercalate_singleton, directory_name plain]
    rfl
  · have parts := components_intercalate alone fun part mem => (names part mem).2.2.2
    have ends : ∃ c, ("/".intercalate front).toList.getLast? = some c ∧ c ≠ '/' := by
      cases shape : ("/".intercalate front).toList.getLast? with
      | none =>
        rw [getLast?_eq_none_iff, String.toList_eq_nil_iff] at shape
        rw [shape] at parts
        exact absurd rfl (names "" (by rw [← parts]; decide)).1
      | some c =>
        refine ⟨c, rfl, ?_⟩
        rintro rfl
        obtain ⟨before, shape⟩ := getLast?_eq_some_iff.mp shape
        have slashed : "/".intercalate front = String.ofList before ++ "/" ++ "" := by
          rw [← String.toList_inj, shape]
          simp
        rw [slashed, components_slash] at parts
        exact absurd rfl (names "" (by rw [← parts]; exact mem_append_right _ (by decide))).1
    rw [whole, String.intercalate_append_of_ne_nil alone (by simp), String.intercalate_singleton,
      directory_slash ends plain, parts, foldl_names names, append_nil]

/-! ### Climbing above the root -/

/-- Does a path, followed component by component from `depth` directories below the root, pass above
the root? -/
def climbs : (depth : Nat) → List String → Bool
  | _, [] => false
  | depth, part :: parts =>
      if part == "" || part == "." then climbs depth parts
      else if part == ".." then
        match depth with
        | 0 => true
        | depth + 1 => climbs depth parts
      else climbs (depth + 1) parts

/-- A climb above the root stays, whatever follows. -/
theorem getLast?_foldl (above : done.getLast? = some "..") :
    (parts.foldl (pushComponent false) done).getLast? = some ".." := by
  induction parts generalizing done with
  | nil => exact above
  | cons part parts ih =>
    refine ih ?_
    unfold pushComponent
    split
    · exact above
    · split
      · cases done <;> simp_all
      · cases done with
        | nil => rfl
        | cons last rest =>
          dsimp only
          split
          · simp_all
          · cases rest <;> simp_all

/-- A path that passes above the root has a climb in its normal form. By induction on its
components. -/
theorem getLast?_of_climbs (inside : ".." ∉ done) (above : climbs done.length parts = true) :
    (parts.foldl (pushComponent false) done).getLast? = some ".." := by
  induction parts generalizing done with
  | nil => simp [climbs] at above
  | cons part parts ih =>
    unfold climbs at above
    rw [foldl_cons]
    split at above
    · rename_i stays
      rw [pushComponent_stay (by simpa using stays)]
      exact ih inside above
    · rename_i moves
      have moving : (part == "" || part == ".") = false := by simpa using moves
      split at above
      · rename_i up
        obtain rfl := beq_iff_eq.mp up
        cases done with
        | nil => exact getLast?_foldl rfl
        | cons last rest =>
          obtain ⟨other, inside⟩ := not_or.mp (mem_cons.not.mp inside)
          have pop : pushComponent false (last :: rest) ".." = rest := by
            simp [pushComponent, Ne.symm other]
          rw [pop]
          exact ih inside above
      · rename_i down
        have push : pushComponent false done part = part :: done := by
          simp only [pushComponent, moving, Bool.false_eq_true, if_false, bne, down,
            Bool.not_false, if_true]
        rw [push]
        refine ih ?_ above
        rw [mem_cons, not_or]
        exact ⟨fun same => down (by simp [← same]), inside⟩

theorem IsNormal.isRelative {path : String} (normal : IsNormal path) : IsRelative path := by
  intro slash
  obtain ⟨rest, shape⟩ := head?_eq_some_iff.mp slash
  have rooted : path = "" ++ "/" ++ String.ofList rest := by
    rw [← String.toList_inj, shape]
    simp
  rw [rooted, IsNormal, components_slash] at normal
  exact absurd rfl (normal "" (by simp [components, Text.splitBy])).1

end Path

namespace FileScope

variable {scope : FileScope} {source : String} {rest : List Char}

/-! ### Imports by path -/

/-- An import by a path above the root finds nothing. -/
theorem curlyImport_of_climbs {written : String} (relative : Path.IsRelative source)
    (dotted : written.toList.head? = some '.')
    (above : climbs 0 (components (directory source) ++ components written) = true) :
    scope.curlyImport source written = [] := by
  have below : Path.IsRelative written := by simp [Path.IsRelative, dotted]
  have last := getLast?_of_climbs not_mem_nil above
  rw [foldl_append, ← foldl_join _ _ _ below] at last
  obtain ⟨rest, parts⟩ := getLast?_eq_some_iff.mp last
  have normal : normalComponents false (components (join (directory source) written)) =
      ".." :: rest.reverse := by
    rw [normalComponents, parts, reverse_append, reverse_singleton, singleton_append]
  obtain ⟨more, text⟩ : ∃ more,
      ("/".intercalate (".." :: rest.reverse)).toList = '.' :: '.' :: more := by
    cases rest.reverse with
    | nil => exact ⟨[], by simp⟩
    | cons part parts => exact ⟨('/' :: ("/".intercalate (part :: parts)).toList), by
        simp [String.intercalate_cons_cons]⟩
  have target := normalize_of_isRelative (isRelative_join (isRelative_directory relative) below)
    normal (by
      intro none
      simp [none] at text)
  have outside : Text.startsWith (normalize (join (directory source) written)).toList
      ['.', '.'] = true := by
    rw [target, text, Text.startsWith_iff]
    exact ⟨more, rfl⟩
  simp [curlyImport, dotted, outside]

/-! ### Imports by dots -/

/-- The files that may hold a module, seen from a directory. -/
def pythonFiles (base : String) (rest : List Char) : List String :=
  if rest.isEmpty then [Path.join base "__init__.py"]
  else
    let stem := ((Text.splitBy (· == '.') rest).map String.ofList).foldl Path.join base
    [stem ++ ".py", stem ++ ".pyi", Path.join stem "__init__.py"]

/-- An import by more dots than directories is one from the root. -/
theorem pythonImport_of_climbs (relative : Path.IsRelative source) {dots : Nat}
    (above : (components source).length < dots) (plain : rest.head? ≠ some '.') :
    scope.pythonImport source (String.ofList (replicate dots '.' ++ rest)) =
      scope.existing (pythonFiles "" rest) := by
  have stops : rest.takeWhile (· == '.') = [] := by
    cases rest with
    | nil => rfl
    | cons c cs =>
      have other : c ≠ '.' := by simpa using plain
      simp [other]
  have lead : ((replicate dots '.' ++ rest).takeWhile (· == '.')).length = dots := by
    rw [takeWhile_append_of_pos (by simp), stops]
    simp
  have base : (range (dots - 1)).foldl (fun base _ => directory base) (directory source) = "" := by
    have steps : range dots = 0 :: (range (dots - 1)).map (· + 1) := by
      rw [← range_succ_eq_map, Nat.sub_add_cancel (by omega)]
    have top := foldl_directory (range dots) relative (by simp; omega)
    rwa [steps, foldl_cons, foldl_map] at top
  have some : dots ≠ 0 := by omega
  simp only [pythonImport, String.toList_ofList, lead, beq_eq_false_iff_ne.mpr some, pythonRelative,
    base, pythonFiles, drop_left', length_replicate, Bool.false_eq_true, if_false]
  split <;> rfl

theorem pythonFiles_ne_empty {base option : String} (mem : option ∈ pythonFiles base rest) :
    option ≠ "" := by
  unfold pythonFiles at mem
  split at mem
  · rw [mem_singleton.mp mem]
    exact join_ne_empty base (by decide)
  · simp only [mem_cons, not_mem_nil, or_false] at mem
    rcases mem with rfl | rfl | rfl
    · exact append_ne_empty _ (by decide)
    · exact append_ne_empty _ (by decide)
    · exact join_ne_empty _ (by decide)

/-- Candidates are distinct, so that there is a sole one if and only if exactly one option is
known. -/
theorem sole?_existing_eq_none {options : List String} (some : ∀ option ∈ options, option ≠ "") :
    sole? (scope.existing options) = none ↔ ¬∃! path, path ∈ scope.paths ∧
      path ∈ options.map normalize := by
  have members (path : String) : path ∈ scope.existing options ↔
      path ∈ scope.paths ∧ path ∈ options.map normalize := by
    have kept : options.filter (· != "") = options := filter_eq_self.mpr (by simpa using some)
    rw [existing, kept]
    simp [and_comm]
  have distinct : (scope.existing options).Nodup :=
    (sortWith_perm _ _).nodup_iff.mpr (nodup_eraseDups _)
  simp only [← members]
  generalize scope.existing options = found at distinct
  cases found with
  | nil => simp [sole?, ExistsUnique]
  | cons first others =>
    cases others with
    | nil => simp [sole?, ExistsUnique]
    | cons second others =>
      have apart : first ≠ second := fun same => by simp [same] at distinct
      have several : ¬∃! path, path ∈ first :: second :: others := by
        rintro ⟨path, -, unique⟩
        exact apart ((unique first (by simp)).trans (unique second (by simp)).symm)
      exact iff_of_true rfl several

/-- **References that climb above the root.** A path that passes above the root, followed component
by component from the directory of its file, never resolves. An import with more dots than its file
has directories and one does resolve, namely if exactly one of the files that its module may be in
at the root is known. -/
theorem climbing_reference (scope : FileScope) {source : String}
    (relative : Path.IsRelative source) :
    (∀ kind (written : String), written.toList.head? = some '.' →
      Path.climbs 0 (Path.components (Path.directory source) ++ Path.components written) = true →
        scope.resolve source .curly kind written = none) ∧
    ∀ kind dots (rest : List Char), kind ≠ .call → (Path.components source).length < dots →
      rest.head? ≠ some '.' →
      (scope.resolve source .python kind (String.ofList (List.replicate dots '.' ++ rest)) = none ↔
        ¬∃! path, path ∈ scope.paths ∧ path ∈ (pythonFiles "" rest).map Path.normalize) := by
  constructor
  · intro kind written dotted above
    simp [resolve, candidates, curlyImport_of_climbs relative dotted above, sole?]
  · intro kind dots rest file above plain
    rw [← sole?_existing_eq_none fun option => pythonFiles_ne_empty]
    rw [resolve, if_neg (by simpa using file), candidates,
      pythonImport_of_climbs relative above plain]

/-- Paths and dots that climb above the root from a directory below it; two files fit the module at
the root. -/
theorem climbing_reference_twoFiles :
    let scope : FileScope := ⟨["pkg/a.ts", "b.ts", "x.py", "x/__init__.py", "y.py"], []⟩
    Path.IsRelative "pkg/a.ts" ∧
      scope.resolve "pkg/a.ts" .curly .imports "./../../pkg/../b.ts" = none ∧
      scope.resolve "pkg/a.ts" .python .imports "...x" = none := by
  intro scope
  have relative : Path.IsRelative "pkg/a.ts" := by decide
  have climbs := climbing_reference scope relative
  refine ⟨relative, climbs.1 _ _ (by decide) (by decide), ?_⟩
  refine (climbs.2 .imports 3 ['x'] (by decide) (by decide) (by decide)).mpr ?_
  rintro ⟨path, -, unique⟩
  have first := unique "x.py" (by decide)
  have second := unique "x/__init__.py" (by decide)
  exact absurd (first.trans second.symm) (by decide)

/-- A file at the root that imports from above it gets a file at the root. -/
theorem import_above_root_resolves :
    FileScope.resolve ⟨["a.py", "x.py"], []⟩ "a.py" .python .imports "..x" = some "x.py" := by
  decide +kernel

/-- **An import with its extension finds its file.** The way from the source to the file may have
steps that stay, doubled slashes and detours, and any other files may be there. -/
theorem import_finds_file {target : String} {kind : LinkKind} {written : List String}
    (file : kind ≠ .call) (here : Path.IsNormal source) (there : Path.IsNormal target)
    (known : target ∈ scope.paths) (inside : ¬['.', '.'] <+: target.toList)
    (spelled : Path.Respelled
      (Path.route (Path.components source).dropLast (Path.components target)) written)
    (dotted : written.head? = some "." ∨ written.head? = some "..") :
    scope.resolve source .curly kind ("/".intercalate written) = some target := by
  have names : ∀ part ∈ (Path.components source).dropLast, Path.IsName part :=
    fun part member => here part (List.dropLast_subset _ member)
  have parts : Path.components ("/".intercalate written) = written :=
    Path.components_intercalate (by rintro rfl; simp at dotted)
      (spelled.slash_not_mem (Path.slash_not_mem_route fun part member =>
        (there part member).2.2.2))
  have first : ("/".intercalate written).toList.head? = some '.' := by
    cases written with
    | nil => simp at dotted
    | cons part written =>
      cases written <;> rcases dotted with dot | dots <;> simp_all [String.intercalate_cons_cons]
  generalize "/".intercalate written = text at parts first
  have below : Path.IsRelative text := by simp [Path.IsRelative, first]
  have normal : Path.normalComponents false
      (Path.components (Path.join (Path.directory source) text)) =
      Path.components target := by
    have followed := Path.foldl_route names there false []
    rw [List.append_nil, List.append_nil] at followed
    rw [Path.normalComponents, Path.foldl_join _ _ _ below, parts,
      Path.foldl_directory_of_isNormal here, spelled.foldl_eq, followed, List.reverse_reverse]
  have found := Path.normalize_of_isRelative
    (Path.isRelative_join (Path.isRelative_directory here.isRelative) below) normal (by
      rw [Path.intercalate_components]
      rintro rfl
      exact absurd rfl (there "" (by decide)).1)
  rw [Path.intercalate_components] at found
  have notAbove : Text.startsWith target.toList ['.', '.'] = false := by
    rwa [← Bool.not_eq_true, Text.startsWith_iff]
  simp [resolve, file, candidates, curlyImport, first, found, notAbove, known, sole?]

/-- A path over another directory and back, with steps that stay and doubled slashes, past a file
with a longer name. -/
theorem import_finds_file_detour :
    let scope : FileScope := ⟨["a/b/c.ts", "a/d.js", "a/d.js.ts", "a/d.ts"], []⟩
    Path.IsNormal "a/b/c.ts" ∧ Path.IsNormal "a/d.js" ∧ "a/d.js" ∈ scope.paths ∧
      scope.resolve "a/b/c.ts" .curly .imports "./..//x/../d.js" = some "a/d.js" := by
  intro scope
  have route : Path.route (Path.components "a/b/c.ts").dropLast (Path.components "a/d.js") = [] ++
      ["..", "d.js"] := by
    decide
  refine ⟨by decide, by decide, by decide, ?_⟩
  have spelled : Path.Respelled
      (Path.route (Path.components "a/b/c.ts").dropLast (Path.components "a/d.js"))
      [".", "..", "", "x", "..", "d.js"] := by
    rw [route]
    exact @Path.Respelled.stay _ [] _
      (@Path.Respelled.slash _ [".."] _ (@Path.Respelled.detour _ [".."] _ _ .plain
      (by decide)))
  exact import_finds_file (by decide) (by decide) (by decide) (by decide) (by decide)
    spelled (.inl rfl)

end FileScope

end CodeAtlas
