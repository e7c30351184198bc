import CodeAtlas.Proofs.Text.Reading
import CodeAtlas.Source.Path

/-!
Paths by their components.

A path is its components with slashes between them (`intercalate_components`), a join takes the
components of one path behind those of the other (`foldl_join`), and a relative path is normalised
without a root. The directory of a path is the path without its last component (`directory_slash`),
and climbing as often as there are components ends at the empty path (`foldl_directory`).
-/

namespace CodeAtlas

open List

namespace Path

variable {path b name : String} {parts : List String}

theorem components_eq_splitOn (path : String) :
    components path = (path.toList.splitOn '/').map String.ofList := by
  rw [components, Text.splitBy_eq_splitOnP, splitOn_eq_splitOnP]

/-- The components of two paths with a slash between them. -/
@[simp]
theorem components_slash (a b : String) :
    components (a ++ "/" ++ b) = components a ++ components b := by
  simp [components_eq_splitOn, append_assoc, splitOn_append_cons_self]

/-- A path is its components with slashes between them. -/
theorem intercalate_components (path : String) : "/".intercalate (components path) = path := by
  rw [← String.toList_inj, String.toList_intercalate, components_eq_splitOn, map_map]
  simp [Function.comp_def, intercalate_splitOn]

/-- Components without slashes are cut apart again. -/
theorem components_intercalate (some : parts ≠ [])
    (inside : ∀ part ∈ parts, '/' ∉ part.toList) : components ("/".intercalate parts) = parts := by
  rw [components_eq_splitOn, String.toList_intercalate]
  have split : ("/".toList.intercalate (parts.map String.toList)).splitOn '/' =
      parts.map String.toList :=
    splitOn_intercalate '/' (by simpa using inside) (by simpa using some)
  rw [split]
  simp [Function.comp_def]

def IsRelative (path : String) : Prop :=
  path.toList.head? ≠ some '/'

instance (path : String) : Decidable (IsRelative path) :=
  inferInstanceAs (Decidable (_ ≠ _))

/-- A relative path is normalised without a root. -/
theorem normalize_of_isRelative (relative : IsRelative path)
    (normal : normalComponents false (components path) = parts)
    (some : "/".intercalate parts ≠ "") :
    normalize path = "/".intercalate parts := by
  have root : rootSlashes path = "" := by
    have none : path.toList.takeWhile (· == '/') = [] := by
      cases shape : path.toList with
      | nil => rfl
      | cons c cs =>
        have notSlash : c ≠ '/' := by simpa [IsRelative, shape] using relative
        simp [notSlash]
    rw [rootSlashes, none]
  simp [normalize, root, normal, some]

/-! ### Joins -/

/-- How a relative path is joined: alone, behind a slash, or with a slash between. -/
theorem join_cases (a : String) (relative : IsRelative b) :
    a = "" ∧ join a b = b ∨ (∃ front, a = front ++ "/") ∧ join a b = a ++ b ∨ a ≠ "" ∧
      join a b = a ++ "/" ++ b := by
  have notRooted : (b.toList.head? == some '/') = false := by simpa [IsRelative] using relative
  rw [join, notRooted]
  by_cases empty : a = ""
  · simp [empty]
  · by_cases slash : a.toList.getLast? = some '/'
    · obtain ⟨front, shape⟩ := getLast?_eq_some_iff.mp slash
      refine .inr (.inl ⟨⟨String.ofList front, ?_⟩, by simp [slash]⟩)
      rw [← String.toList_inj, shape]
      simp
    · simp [empty, slash]

/-- **Following a join is following one path and then the other.** -/
theorem foldl_join (rooted : Bool) (done : List String) (a : String) (relative : IsRelative b) :
    (components (join a b)).foldl (pushComponent rooted) done =
      (components b).foldl (pushComponent rooted)
        ((components a).foldl (pushComponent rooted) done) := by
  have nothing (done : List String) : (components "").foldl (pushComponent rooted) done = done :=
    rfl
  obtain ⟨rfl, joined⟩ | ⟨⟨front, rfl⟩, joined⟩ | ⟨some, joined⟩ := join_cases a relative
  · rw [joined, nothing]
  · have empty : front ++ "/" = front ++ "/" ++ "" := by simp
    rw [joined, components_slash, foldl_append]
    rw [empty, components_slash, foldl_append, nothing]
  · rw [joined, components_slash, foldl_append]

/-- The join of relative paths is relative. -/
theorem isRelative_join {a : String} (first : IsRelative a) (second : IsRelative b) :
    IsRelative (join a b) := by
  obtain ⟨-, joined⟩ | ⟨⟨front, rfl⟩, joined⟩ | ⟨some, joined⟩ := join_cases a second
  · rwa [joined]
  · rw [joined]
    simpa [IsRelative] using first
  · rw [joined]
    unfold IsRelative at *
    cases shape : a.toList with
    | nil | cons c cs => simp_all

theorem append_ne_empty (a : String) (some : b ≠ "") : a ++ b ≠ "" :=
  fun none => some (String.append_eq_empty_iff.mp none).2

theorem join_ne_empty (a : String) (some : b ≠ "") : join a b ≠ "" := by
  unfold join
  split
  · exact some
  · split <;> exact append_ne_empty _ some

/-! ### Directories -/

/-- The directory is what stands before the last slash, without slashes at its end. -/
theorem directory_eq (path : String) : directory path =
    let head := path.toList.rdropWhile (· != '/')
    String.ofList (if head.all (· == '/') then head else head.rdropWhile (· == '/')) := by
  have cut (cs : List Char) : cs.take (cs.length - (cs.reverse.takeWhile (· != '/')).length) =
      cs.rdropWhile (· != '/') := by
    have long := congrArg length (rdropWhile_append_rtakeWhile (p := (· != '/')) (l := cs))
    rw [length_append, rtakeWhile, length_reverse] at long
    have front : cs.length - (cs.reverse.takeWhile (· != '/')).length =
        (cs.rdropWhile (· != '/')).length := by omega
    have start : cs.rdropWhile (· != '/') <+: cs := rdropWhile_prefix _ _
    rw [front]
    exact (prefix_iff_eq_take.mp start).symm
  simp only [directory, splitLast, length_reverse, ← String.length_toList, cut,
    String.toList_ofList]
  split <;> rfl

theorem directory_name (plain : '/' ∉ name.toList) : directory name = "" := by
  have all : name.toList.rdropWhile (· != '/') = [] := by
    simp only [rdropWhile_eq_nil_iff, bne_iff_ne]
    rintro c mem rfl
    exact plain mem
  simp [directory_eq, all]

/-- A name below a directory is in that directory. -/
theorem directory_slash {dir : String} (ends : ∃ c, dir.toList.getLast? = some c ∧ c ≠ '/')
    (plain : '/' ∉ name.toList) : directory (dir ++ "/" ++ name) = dir := by
  obtain ⟨c, last, noSlash⟩ := ends
  obtain ⟨front, shape⟩ := getLast?_eq_some_iff.mp last
  have head : (dir ++ "/" ++ name).toList.rdropWhile (· != '/') = dir.toList ++ ['/'] := by
    have dropped : (dir ++ "/" ++ name).toList.reverse.dropWhile (· != '/') =
        '/' :: dir.toList.reverse := by
      simp only [String.toList_append, reverse_append]
      rw [dropWhile_append_of_pos (by
        intro c mem
        simp only [bne_iff_ne]
        rintro rfl
        exact plain (mem_reverse.mp mem))]
      rfl
    rw [rdropWhile, dropped]
    simp
  rw [directory_eq, head]
  simp [shape, noSlash, rdropWhile, ← String.toList_inj]

/-- The directory of a relative path is a beginning of it. -/
theorem directory_slash_prefix (relative : IsRelative path) :
    directory path = "" ∨ (directory path).toList ++ ['/'] <+: path.toList := by
  have front : path.toList.rdropWhile (· != '/') <+: path.toList := rdropWhile_prefix _ _
  rw [directory_eq]
  dsimp only
  split
  · rename_i slashes
    left
    cases shape : path.toList.rdropWhile (· != '/') with
    | nil => rfl
    | cons c cs =>
      obtain ⟨rest, whole⟩ := shape ▸ front
      have root : c = '/' := by simpa using all_eq_true.mp slashes c (by simp [shape])
      exact absurd (by rw [← whole, root]; rfl) relative
  · rename_i other
    right
    have some : path.toList.rdropWhile (· != '/') ≠ [] := fun none => other (by simp [none])
    have last : (path.toList.rdropWhile (· != '/')).getLast some = '/' := by
      simpa using rdropWhile_last_not (· != '/') path.toList some
    obtain ⟨before, shape⟩ : ∃ before, path.toList.rdropWhile (· != '/') = before ++ ['/'] :=
      ⟨_, (last ▸ dropLast_append_getLast some).symm⟩
    -- The slashes that are dropped are one run, so that the first of them stands behind the
    -- directory.
    have slashes : before.rtakeWhile (· == '/') ++ ['/'] = '/' :: before.rtakeWhile (· == '/') := by
      rw [eq_replicate_of_mem (a := '/') (l := before.rtakeWhile (· == '/')) (by
        intro c mem
        simpa using mem_rtakeWhile_imp mem)]
      rw [← replicate_succ', replicate_succ]
    rw [String.toList_ofList]
    refine List.IsPrefix.trans ?_ front
    rw [shape, rdropWhile_concat_pos _ _ _ (by simp)]
    conv_rhs => rw [← rdropWhile_append_rtakeWhile (p := (· == '/')) (l := before),
      append_assoc, slashes]
    exact ⟨before.rtakeWhile (· == '/'), by simp⟩

theorem isRelative_directory (relative : IsRelative path) : IsRelative (directory path) := by
  rcases directory_slash_prefix relative with top | ⟨rest, whole⟩
  · rw [top]
    decide
  · unfold IsRelative at relative ⊢
    rw [← whole] at relative
    cases shape : (directory path).toList with
    | nil => simp
    | cons c cs => simpa [shape] using relative

theorem components_ne_nil (path : String) : components path ≠ [] := by
  rw [components_eq_splitOn]
  simp

/-- Climbing as often as there are components ends at the empty path. -/
theorem foldl_directory {α : Type} (steps : List α) (relative : IsRelative path)
    (enough : (components path).length ≤ steps.length) :
    steps.foldl (fun base _ => directory base) path = "" := by
  induction steps generalizing path with
  | nil => exact absurd (length_eq_zero_iff.mp (Nat.le_zero.mp enough)) (components_ne_nil path)
  | cons step steps ih =>
    rw [foldl_cons]
    rcases directory_slash_prefix relative with top | ⟨rest, whole⟩
    · rw [top]
      clear ih enough
      induction steps with
      | nil => rfl
      | cons step steps ih => exact ih
    · have path_eq : path = directory path ++ "/" ++ String.ofList rest := by
        rw [← String.toList_inj, ← whole]
        simp
      have shorter := congrArg (fun path => (components path).length) path_eq
      simp only [components_slash, length_append] at shorter
      have more := length_pos_iff.mpr (components_ne_nil (String.ofList rest))
      rw [length_cons] at enough
      exact ih (isRelative_directory relative) (by omega)

end Path

end CodeAtlas
