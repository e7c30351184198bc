import CodeAtlas.Proofs.Reference.RelativePath

/-!
Module paths from the current module and from the crate.

A path is tried longest first, so that a path below a directory is a path below the crate as soon as
the components of the directory come before it (`longestModule_append`). The two agree where the
file of the directory's own module is known (`self_path_eq_crate_path`).
-/

namespace CodeAtlas

open List CodeAtlas.Path

/-! ### Segments -/

/-- A text that is one segment of a path: no double colon stands in it or arises at its end. -/
def IsSegment (segment : String) : Prop :=
  segment ≠ "" ∧ ¬[':', ':'] <:+: segment.toList ++ [':']

instance (segment : String) : Decidable (IsSegment segment) :=
  inferInstanceAs (Decidable (_ ∧ _))

namespace Text

variable {part rest : List Char}

section

variable (plain : ¬[':', ':'] <:+: part ++ [':'])
include plain

/-- A segment ends at the double colon behind it. -/
theorem cutAt?_segment : cutAt? [':', ':'] (part ++ ':' :: ':' :: rest) = some (part, rest) := by
  induction part with
  | nil => simp [cutAt?_cons, startsWith, after?]
  | cons c cs ih =>
    have here : startsWith (c :: (cs ++ ':' :: ':' :: rest)) [':', ':'] = false := by
      rw [← Bool.not_eq_true, startsWith_iff]
      rintro ⟨more, same⟩
      cases cs with
      | nil =>
        obtain ⟨rfl, -⟩ : ':' = c ∧ more = ':' :: rest := by simpa using same
        exact plain ⟨[], [], rfl⟩
      | cons d cs =>
        obtain ⟨rfl, rfl, -⟩ : ':' = c ∧ ':' = d ∧ more = cs ++ ':' :: ':' :: rest := by
          simpa using same
        exact plain ⟨[], cs ++ [':'], rfl⟩
    have later := ih fun inside => plain (inside.trans (suffix_cons c _).isInfix)
    rw [cons_append, cutAt?_cons, here, later]
    rfl

theorem cutAt?_last : cutAt? [':', ':'] part = none := by
  cases cut : cutAt? [':', ':'] part with
  | none => rfl
  | some parts =>
    refine absurd ⟨parts.1, parts.2 ++ [':'], ?_⟩ plain
    conv_rhs => rw [cutAt?_eq_some cut]
    simp

end

/-- Segments that are joined by double colons are cut apart again. -/
theorem splitOnFuel_intercalate {parts : List (List Char)} (some : parts ≠ [])
    (plain : ∀ part ∈ parts, ¬[':', ':'] <:+: part ++ [':']) {fuel : Nat}
    (enough : parts.length ≤ fuel + 1) :
    splitOnFuel [':', ':'] fuel ([':', ':'].intercalate parts) = parts := by
  induction parts generalizing fuel with
  | nil => exact absurd rfl some
  | cons part parts ih =>
    obtain ⟨here, later⟩ := forall_mem_cons.mp plain
    cases parts with
    | nil =>
      rw [intercalate_singleton]
      cases fuel with
      | zero => rfl
      | succ fuel => rw [splitOnFuel, cutAt?_last here]
    | cons next parts =>
      cases fuel with
      | zero => simp at enough
      | succ fuel =>
        rw [intercalate_cons_cons, splitOnFuel, append_assoc, cons_append, singleton_append,
          cutAt?_segment here]
        dsimp only
        rw [ih (by simp) later (by simpa using enough)]

theorem length_le_intercalate (parts : List (List Char)) :
    parts.length ≤ ([':', ':'].intercalate parts).length + 1 := by
  induction parts with
  | nil => simp
  | cons part parts ih =>
    cases parts with
    | nil => simp
    | cons next parts =>
      rw [intercalate_cons_cons]
      simp only [length_append, length_cons] at ih ⊢
      omega

end Text

namespace FileScope

variable {scope : FileScope} {source : String}

/-- What a path of segments is looked up as: below its base, longest first, and else as the file of
the base. -/
theorem rustUse_intercalate {segments rest : List String} {base crate : String}
    (any : segments ≠ []) (plain : ∀ segment ∈ segments, IsSegment segment)
    (based : rustBase? scope source segments = some (base, crate, rest)) :
    scope.rustUse source ("::".intercalate segments) =
      firstFound (longestModule scope base rest.reverse) (rustModuleFile scope base crate) := by
  have split : Text.splitOn [':', ':'] ("::".intercalate segments).toList =
      segments.map String.toList := by
    rw [String.toList_intercalate, Text.splitOn]
    exact Text.splitOnFuel_intercalate (by simpa using any)
      (by simpa using fun s mem => (plain s mem).2)
      (Text.length_le_intercalate _)
  have read : ((Text.splitOn [':', ':'] ("::".intercalate segments).toList).map
      String.ofList).filter (· != "") =
      segments := by
    rw [split, map_map]
    simpa [Function.comp_def, filter_eq_self] using fun s mem => (plain s mem).1
  rw [rustUse, read, based]

/-- Three lists of candidates may be tried in two rounds, in either way. -/
theorem firstFound_assoc (first second third : List String) :
    firstFound first (firstFound second third) = firstFound (firstFound first second) third := by
  cases first <;> rfl

/-- A path below a directory is a longer path below what the directory is in. -/
theorem longestModule_append (base : String) (later front : List String) :
    longestModule scope base (later ++ front) =
      firstFound
        (longestModule scope (front.foldr (fun segment path => join path segment) base) later)
        (longestModule scope base front) := by
  induction later with
  | nil => rfl
  | cons last later ih =>
    rw [cons_append, longestModule, longestModule, ih, ← cons_append, foldr_append,
      firstFound_assoc]

/-- Where one of some options is known no others are tried. -/
theorem firstFound_existing {options otherwise : List String} {option : String}
    (mem : option ∈ options) (some : option ≠ "") (known : normalize option ∈ scope.paths) :
    firstFound (scope.existing options) otherwise = scope.existing options := by
  have found : normalize option ∈ scope.existing options := by
    rw [existing, mem_sortedDistinct, mem_filter]
    exact ⟨mem_map_of_mem (mem_filter.mpr ⟨mem, by simpa using some⟩), by simpa using known⟩
  cases shape : scope.existing options with
  | nil => simp [shape] at found
  | cons first others => rfl

end FileScope

namespace Path

theorem length_join {a b : String} (some : b ≠ "") (relative : IsRelative b) :
    a.length < (join a b).length := by
  have long : 0 < b.length := Nat.pos_of_ne_zero fun none => some (by simpa using none)
  rcases join_cases a relative with ⟨rfl, h⟩ | ⟨-, h⟩ | ⟨-, h⟩ <;> rw [h] <;> simp <;> omega

theorem length_foldl_join {parts : List String} (any : parts ≠ [])
    (some : ∀ part ∈ parts, part ≠ "") (relative : ∀ part ∈ parts, IsRelative part)
    (base : String) : base.length < (parts.foldl join base).length := by
  induction parts generalizing base with
  | nil => exact absurd rfl any
  | cons part parts ih =>
    obtain ⟨here, later⟩ := forall_mem_cons.mp some
    obtain ⟨here', later'⟩ := forall_mem_cons.mp relative
    have step := length_join (a := base) here here'
    rw [foldl_cons]
    by_cases last : parts = []
    · simpa [last] using step
    · exact step.trans (ih last later later' _)

/-- An extension may be put behind before or after joining. -/
theorem join_append {b : String} (some : b ≠ "") (a c : String) :
    join a (b ++ c) = join a b ++ c := by
  have head : (b ++ c).toList.head? = b.toList.head? := by
    cases shape : b.toList with
    | nil => exact absurd (String.toList_eq_nil_iff.mp shape) some
    | cons x xs => simp [shape]
  unfold join
  rw [head]
  split
  · rfl
  · split <;> simp [String.append_assoc]

end Path

/-- The child modules of a file are below its stem, or beside it where it stands for its
directory. -/
theorem Rust.moduleDirectory_eq (source : String) : moduleDirectory source =
    if isDirectoryModule (stem source) then directory source
    else join (directory source) (stem source) := by
  have join_empty (b : String) : join "" b = b := by
    unfold join
    split <;> simp
  simp only [moduleDirectory]
  split
  · rfl
  · split
    · simp_all
    · rfl

namespace FileScope

theorem moduleFiles_eq {name : String} (some : name ≠ "") (directory : String) :
    moduleFiles directory name =
    [join directory name ++ ".rs", join (join directory name) "mod.rs"] := by
  rw [moduleFiles, join_append some]

/-- **A path from the current module is a path from the crate.** Take a file that holds the module
of a directory some components below the source of its crate. What a path from the current module
leads to is what the path from the crate over those components leads to. A module that is declared
in the file and has a file below that directory has the candidates of its path from the current
module. -/
theorem self_path_eq_crate_path (scope : FileScope)
    (normal : ∀ path ∈ scope.paths, Path.normalize path = path) {source : String}
    (known : source ∈ scope.paths) {parts : List String} (any : parts ≠ [])
    (plain : ∀ part ∈ parts, IsSegment part ∧ '/' ∉ part.toList)
    (below : Rust.moduleDirectory source = parts.foldl Path.join (Rust.crateSource source))
    (own : source = Rust.moduleDirectory source ++ ".rs" ∨
      source = Path.join (Rust.moduleDirectory source) "mod.rs") :
    (∀ rest, (∀ segment ∈ rest, IsSegment segment) →
      scope.candidates source .rust .use ("::".intercalate ("self" :: rest)) =
        scope.candidates source .rust .use ("::".intercalate ("crate" :: (parts ++ rest)))) ∧
    ∀ name, IsSegment name →
      Path.join (Rust.moduleDirectory source) (name ++ ".rs") ∈ scope.paths ∨
        Path.join (Path.join (Rust.moduleDirectory source) name) "mod.rs" ∈ scope.paths →
      scope.candidates source .rust .module name =
        scope.candidates source .rust .use ("::".intercalate ["self", name]) := by
  have relative (part : String) (member : part ∈ parts) : Path.IsRelative part :=
    fun slash => (plain part member).2 (List.mem_of_mem_head? slash)
  have inside : Rust.moduleDirectory source ≠ Rust.crateSource source := fun same => by
    have longer := Path.length_foldl_join any (fun part member => (plain part member).1.1) relative
      (Rust.crateSource source)
    rw [← below, same] at longer
    exact Nat.lt_irrefl _ longer
  have notEmpty : source ≠ "" := by
    rcases own with h | h <;> rw [h]
    · exact Path.append_ne_empty _ (by decide)
    · exact Path.join_ne_empty _ (by decide)
  have fromSelf (rest : List String) (segments : ∀ segment ∈ rest, IsSegment segment) :
      scope.rustUse source ("::".intercalate ("self" :: rest)) =
        firstFound (longestModule scope (Rust.moduleDirectory source) rest.reverse) (scope.existing
          [Rust.moduleDirectory source ++ ".rs",
            Path.join (Rust.moduleDirectory source) "mod.rs"]) := by
    rw [rustUse_intercalate (by simp) (List.forall_mem_cons.mpr ⟨by decide, segments⟩) rfl,
      rustModuleFile, if_neg (by simpa using inside)]
  constructor
  · intro rest segments
    have fromCrate := @rustUse_intercalate scope source ("crate" :: (parts ++ rest)) _ _ _ (by simp)
      (List.forall_mem_cons.mpr ⟨by decide, List.forall_mem_append.mpr
        ⟨fun part member => (plain part member).1, segments⟩⟩) rfl
    -- The path over the components stops at the directory's own module at the latest.
    have stops (otherwise : List String) :
        firstFound (longestModule scope (Rust.crateSource source) parts.reverse)
        otherwise =
        scope.existing [Rust.moduleDirectory source ++ ".rs",
          Path.join (Rust.moduleDirectory source) "mod.rs"] := by
      obtain ⟨last, initial, shape⟩ := List.exists_cons_of_ne_nil (List.reverse_ne_nil_iff.mpr any)
      have stem : (last :: initial).foldr (fun segment path => Path.join path segment)
          (Rust.crateSource source) =
          Rust.moduleDirectory source := by rw [← shape, List.foldr_reverse, below]
      rw [shape, longestModule, stem, ← firstFound_assoc]
      exact firstFound_existing (by simpa using own) notEmpty (by rwa [normal source known])
    have use (written : String) : scope.candidates source .rust .use written =
        scope.rustUse source written := rfl
    rw [use, use, fromSelf rest segments, fromCrate, List.reverse_append, longestModule_append,
      ← firstFound_assoc, stops, List.foldr_reverse, ← below]
  · intro name segment found
    have reach (otherwise : List String) :
        firstFound (scope.existing (moduleFiles (Rust.moduleDirectory source) name)) otherwise =
          scope.existing (moduleFiles (Rust.moduleDirectory source) name) := by
      rcases found with file | file
      · exact firstFound_existing (List.mem_cons_self ..)
          (Path.join_ne_empty _ (Path.append_ne_empty _ (by decide)))
          (by rwa [normal _ file])
      · exact firstFound_existing (List.mem_cons_of_mem _ (List.mem_cons_self ..))
          (Path.join_ne_empty _ (by decide))
          (by rwa [normal _ file])
    have use : scope.candidates source .rust .use ("::".intercalate ["self", name]) =
        scope.existing (moduleFiles (Rust.moduleDirectory source) name) := by
      refine (fromSelf [name] (by simpa using segment)).trans ?_
      simp only [List.reverse_singleton, longestModule, List.foldr_cons, List.foldr_nil,
        ← moduleFiles_eq segment.1, reach]
    have directory := Rust.moduleDirectory_eq source
    rw [use, candidates, if_pos (beq_self_eq_true _), rustModule]
    split at directory
    · rename_i stands
      rw [if_pos stands, ← directory]
    · rename_i stands
      rw [if_neg stands, ← directory, reach]

/-- A module two levels below the source of its crate, with a module below it and a path that goes
on behind that. -/
theorem self_path_eq_crate_path_nested :
    let scope : FileScope := ⟨["src/a/b.rs", "src/a/b/c.rs", "src/a/c.rs", "src/lib.rs"], []⟩
    Rust.moduleDirectory "src/a/b.rs" = "src/a/b" ∧ Rust.crateSource "src/a/b.rs" = "src" ∧
      scope.candidates "src/a/b.rs" .rust .use "self::c::d" =
        scope.candidates "src/a/b.rs" .rust .use "crate::a::b::c::d" ∧
      scope.candidates "src/a/b.rs" .rust .module "c" =
        scope.candidates "src/a/b.rs" .rust .use "self::c" := by
  intro scope
  have agree := @self_path_eq_crate_path scope (by decide) "src/a/b.rs" (by decide) ["a", "b"]
    (by decide) (by decide)
    (by decide) (.inl (by decide))
  refine ⟨by decide, by decide, ?_, ?_⟩
  · exact agree.1 ["c", "d"] (by decide)
  · exact agree.2 "c" (by decide) (.inl (by decide))

/-- A name with a double colon in it is no segment: the path over it is another path. Nor is a file
found whose path is not in normal form. -/
theorem crate_path_elsewhere :
    (∃ scope : FileScope, "src/a::b.rs" ∈ scope.paths ∧
      Rust.moduleDirectory "src/a::b.rs" = Path.join (Rust.crateSource "src/a::b.rs") "a::b" ∧
      "src/a::b.rs" = Rust.moduleDirectory "src/a::b.rs" ++ ".rs" ∧
      scope.candidates "src/a::b.rs" .rust .use "self::x" ≠
        scope.candidates "src/a::b.rs" .rust .use "crate::a::b::x") ∧
    ∃ scope : FileScope, "./src/a.rs" ∈ scope.paths ∧
      Rust.moduleDirectory "./src/a.rs" = Path.join (Rust.crateSource "./src/a.rs") "a" ∧
      "./src/a.rs" = Rust.moduleDirectory "./src/a.rs" ++ ".rs" ∧
      scope.candidates "./src/a.rs" .rust .use "self::x" ≠
        scope.candidates "./src/a.rs" .rust .use "crate::a::x" :=
  ⟨⟨⟨["src/a::b.rs", "src/lib.rs"], []⟩, by decide +kernel⟩,
    ⟨["./src/a.rs", "src/lib.rs"], []⟩, by decide +kernel⟩

end FileScope

end CodeAtlas
