import Mathlib
import CodeAtlas.Reference.FileScope
import CodeAtlas.Index.Entry

/-!
Lists in the order of a comparison.

A sort keeps the order of the elements that tie, so the sorted list is determined by the elements
that tie with each one, in their order (`sortWith_eq_of_ties`). Two consequences are used for lists
that come from files: where a tie is an equality any rearrangement sorts to one list
(`sortWith_eq_of_perm`), and where elements of different files never tie any rearrangement of the
files does (`sortWith_flatMap_eq_of_perm`).
-/

namespace CodeAtlas

open List

variable {α β : Type} {cmp : α → α → Ordering} {xs : List α} {a b : α}

/-! ### Sorting keeps the elements -/

theorem sortWith_perm (cmp : α → α → Ordering) (xs : List α) : (sortWith cmp xs).Perm xs :=
  mergeSort_perm xs _

@[simp] theorem mem_sortWith : a ∈ sortWith cmp xs ↔ a ∈ xs :=
  (sortWith_perm cmp xs).mem_iff

/-- Distinct texts in order are the same texts. -/
@[simp] theorem mem_sortedDistinct {xs : List String} {s : String} :
    s ∈ sortedDistinct xs ↔ s ∈ xs := by
  simp [sortedDistinct]

/-! ### The order of a sorted list -/

def Before (cmp : α → α → Ordering) (a b : α) : Prop :=
  (cmp a b).isLE = true

/-- Where a tie is an equality, different elements are in strict order. -/
theorem lt_of_before [Std.LawfulEqCmp cmp] (before : Before cmp a b) (apart : a ≠ b) :
    cmp a b = .lt := by
  unfold Before at before
  cases order : cmp a b with
  | lt => rfl
  | eq => exact absurd (Std.LawfulEqCmp.eq_of_compare order) apart
  | gt => simp [order] at before

def ties (cmp : α → α → Ordering) (a : α) (xs : List α) : List α :=
  xs.filter fun b => cmp a b == .eq

theorem mem_ties : b ∈ ties cmp a xs ↔ b ∈ xs ∧ cmp a b = .eq := by
  simp [ties]

theorem ties_cons_of_eq (tie : cmp a b = .eq) : ties cmp a (b :: xs) = b :: ties cmp a xs := by
  simp [ties, tie]

theorem ties_cons_of_ne (apart : cmp a b ≠ .eq) : ties cmp a (b :: xs) = ties cmp a xs := by
  simp [ties, apart]

section Transitive

variable [Std.TransCmp cmp] {xs ys : List α}

theorem before_trans (a b c : α) (ab : (cmp a b).isLE = true) (bc : (cmp b c).isLE = true) :
    (cmp a c).isLE = true :=
  Std.TransCmp.isLE_trans ab bc

theorem before_total (a b : α) : ((cmp a b).isLE || (cmp b a).isLE) = true := by
  have swapped : cmp a b = (cmp b a).swap := Std.OrientedCmp.eq_swap
  rw [swapped]
  cases cmp b a <;> rfl

theorem tie_of_before {a b : α} (ab : Before cmp a b) (ba : Before cmp b a) : cmp a b = .eq := by
  have swapped : cmp a b = (cmp b a).swap := Std.OrientedCmp.eq_swap
  unfold Before at ab ba
  rw [swapped] at ab ⊢
  cases order : cmp b a <;> simp_all

theorem sortWith_pairwise (xs : List α) : (sortWith cmp xs).Pairwise (Before cmp) :=
  pairwise_mergeSort before_trans before_total xs

/-- **Sorting keeps the order of elements that tie.** -/
theorem ties_sortWith (a : α) (xs : List α) : ties cmp a (sortWith cmp xs) = ties cmp a xs := by
  have sorted : (ties cmp a xs).Pairwise fun b c => (cmp b c).isLE = true := by
    refine pairwise_of_forall_mem_list fun b hb c hc => ?_
    have ab : cmp a b = .eq := (mem_ties.mp hb).2
    have ac : cmp a c = .eq := (mem_ties.mp hc).2
    have tie : cmp a c = cmp b c := Std.TransCmp.congr_left ab
    rw [← tie, ac]
    rfl
  have kept : (ties cmp a xs).Sublist (sortWith cmp xs) :=
    sublist_mergeSort before_trans before_total sorted filter_sublist
  have within : (ties cmp a xs).Sublist (ties cmp a (sortWith cmp xs)) := by
    have filtered := kept.filter fun b => cmp a b == .eq
    rwa [ties, filter_filter, funext fun b => Bool.and_self (cmp a b == .eq)] at filtered
  refine (within.eq_of_length ?_).symm
  exact ((sortWith_perm cmp xs).filter _).length_eq.symm

/-- Sorted lists are equal if they agree on ties. -/
theorem eq_of_ties (sortedXs : xs.Pairwise (Before cmp))
    (sortedYs : ys.Pairwise (Before cmp))
    (same : ∀ a, ties cmp a xs = ties cmp a ys) : xs = ys := by
  have self (a : α) : cmp a a = .eq := Std.ReflCmp.compare_self
  induction xs generalizing ys with
  | nil =>
    cases ys with
    | nil => rfl
    | cons y ys =>
      have wrong := same y
      rw [ties_cons_of_eq (self y)] at wrong
      simp [ties] at wrong
  | cons x xs ih =>
    cases ys with
    | nil =>
      have wrong := same x
      rw [ties_cons_of_eq (self x)] at wrong
      simp [ties] at wrong
    | cons y ys =>
      -- The first elements stand in the other list too, so each comes before the other.
      have xIn : x ∈ y :: ys := by
        refine (mem_ties.mp (?_ : x ∈ ties cmp x (y :: ys))).1
        rw [← same x, ties_cons_of_eq (self x)]
        exact mem_cons_self
      have yIn : y ∈ x :: xs := by
        refine (mem_ties.mp (?_ : y ∈ ties cmp y (x :: xs))).1
        rw [same y, ties_cons_of_eq (self y)]
        exact mem_cons_self
      have tie : cmp x y = .eq := by
        rcases mem_cons.mp xIn with rfl | xLater
        · exact self x
        rcases mem_cons.mp yIn with rfl | yLater
        · exact self y
        exact tie_of_before ((pairwise_cons.mp sortedXs).1 y yLater)
          ((pairwise_cons.mp sortedYs).1 x xLater)
      have heads := same x
      rw [ties_cons_of_eq (self x), ties_cons_of_eq tie] at heads
      obtain rfl : x = y := (cons.inj heads).1
      refine congrArg (x :: ·) (ih sortedXs.of_cons sortedYs.of_cons fun a => ?_)
      have classes := same a
      by_cases ax : cmp a x = .eq
      · rw [ties_cons_of_eq ax, ties_cons_of_eq ax] at classes
        exact (cons.inj classes).2
      · rwa [ties_cons_of_ne ax, ties_cons_of_ne ax] at classes

theorem sortWith_eq_of_ties (same : ∀ a, ties cmp a xs = ties cmp a ys) : sortWith cmp xs =
    sortWith cmp ys := by
  refine eq_of_ties (sortWith_pairwise xs) (sortWith_pairwise ys) fun a => ?_
  rw [ties_sortWith, ties_sortWith, same a]

/-- Parts that are sorted already are sorted alike. -/
theorem sortWith_flatMap_sortWith (xs : List β) (part : β → List α) :
    sortWith cmp (xs.flatMap fun x => sortWith cmp (part x)) = sortWith cmp (xs.flatMap part) := by
  refine sortWith_eq_of_ties fun a => ?_
  have each : (fun x => ties cmp a (sortWith cmp (part x))) = fun x => ties cmp a (part x) :=
    funext fun x => ties_sortWith a (part x)
  unfold ties at each ⊢
  rw [filter_flatMap, filter_flatMap, each]

/-- Where a tie is an equality any rearrangement is sorted alike. -/
theorem sortWith_eq_of_perm [Std.LawfulEqCmp cmp] (perm : xs.Perm ys) :
    sortWith cmp xs = sortWith cmp ys := by
  refine List.Perm.eq_of_pairwise ?_ (sortWith_pairwise xs) (sortWith_pairwise ys) ?_
  · intro a b _ _ ab ba
    exact Std.LawfulEqCmp.eq_of_compare (tie_of_before ab ba)
  · exact (sortWith_perm cmp xs).trans (perm.trans (sortWith_perm cmp ys).symm)

end Transitive

/-! ### Lists that come from files -/

section Files

variable {files files' : List SourceFile} {part : SourceFile → List α} {path : α → String}

/-- With different paths a file is known by its path. -/
theorem eq_of_path_eq (distinct : (files.map (·.path)).Nodup) {f g : SourceFile} (hf : f ∈ files)
    (hg : g ∈ files) (same : f.path = g.path) : f = g :=
  inj_on_of_nodup_map distinct hf hg same

theorem filter_path_eq_of_perm (perm : files.Perm files') (distinct : (files.map (·.path)).Nodup)
    (path : String) : files.filter (·.path == path) = files'.filter (·.path == path) := by
  refine @List.Perm.eq_of_pairwise _ (fun _ _ => True) _ _ ?_ ?_ ?_ (perm.filter _)
  · intro f g hf hg _ _
    obtain ⟨inFiles, atPath⟩ := mem_filter.mp hf
    obtain ⟨inFiles', atPath'⟩ := mem_filter.mp hg
    exact eq_of_path_eq distinct inFiles (perm.mem_iff.mpr inFiles')
      ((eq_of_beq atPath).trans (eq_of_beq atPath').symm)
  · exact pairwise_of_forall fun _ _ => trivial
  · exact pairwise_of_forall fun _ _ => trivial

/-- Where every element carries the path of its file, only the file at a path can add elements that
tie with an element of that path. -/
theorem ties_flatMap (own : ∀ f, ∀ a ∈ part f, path a = f.path)
    (apart : ∀ a b, cmp a b = .eq → path a = path b) (a : α) (files : List SourceFile) :
    ties cmp a (files.flatMap part) = (files.filter (·.path == path a)).flatMap fun f =>
      ties cmp a (part f) := by
  induction files with
  | nil => rfl
  | cons f files ih =>
    have split : ties cmp a ((f :: files).flatMap part) =
        ties cmp a (part f) ++ ties cmp a (files.flatMap part) := by
      rw [flatMap_cons]
      exact filter_append ..
    rw [split, ih]
    by_cases here : f.path = path a
    · rw [filter_cons_of_pos (by simpa using here), flatMap_cons]
    · have none : ties cmp a (part f) = [] := by
        refine eq_nil_iff_forall_not_mem.mpr fun b hb => here ?_
        obtain ⟨inPart, tie⟩ := mem_ties.mp hb
        exact (own f b inPart).symm.trans (apart a b tie).symm
      rw [filter_cons_of_neg (by simpa using here), none, nil_append]

/-- Where every element carries the path of its file and only elements of one path tie, any
arrangement of files with distinct paths gives one sorted list. -/
theorem sortWith_flatMap_eq_of_perm [Std.TransCmp cmp] (own : ∀ f, ∀ a ∈ part f, path a = f.path)
    (apart : ∀ a b, cmp a b = .eq → path a = path b) (perm : files.Perm files')
    (distinct : (files.map (·.path)).Nodup) :
    sortWith cmp (files.flatMap part) = sortWith cmp (files'.flatMap part) := by
  refine sortWith_eq_of_ties fun a => ?_
  rw [ties_flatMap own apart, ties_flatMap own apart, filter_path_eq_of_perm perm distinct (path a)]

end Files

/-! ### Lists as sets -/

/-- Without repetitions each element is there once. -/
theorem nodup_eraseDups [BEq α] [LawfulBEq α] (xs : List α) : xs.eraseDups.Nodup := by
  match xs with
  | [] => simp
  | x :: xs =>
    rw [eraseDups_cons, nodup_cons]
    refine ⟨?_, nodup_eraseDups _⟩
    simp
termination_by xs.length
decreasing_by
  have shorter := length_filter_le (fun y => !y == x) xs
  simp only [length_cons]
  omega

/-- Different elements with different images under `f` are counted by their images. -/
theorem countP_eq_ncard {p : α → Bool} {f : α → β} {s : Set β} (distinct : xs.Nodup)
    (inj : ∀ x ∈ xs, ∀ y ∈ xs, p x → p y → f x = f y → x = y)
    (same : ∀ b, b ∈ s ↔ ∃ x ∈ xs, p x ∧ f x = b) :
    xs.countP p = s.ncard := by
  classical
  have images : ((xs.filter p).map f).Nodup := by
    refine (distinct.filter p).map_on fun x hx y hy => ?_
    rw [mem_filter] at hx hy
    exact inj x hx.1 y hy.1 hx.2 hy.2
  rw [countP_eq_length_filter, ← length_map f, ← toFinset_card_of_nodup images,
    ← Set.ncard_coe_finset]
  congr 1
  ext b
  simp [same, and_assoc]

def SameElements (xs ys : List α) : Prop :=
  ∀ x, x ∈ xs ↔ x ∈ ys

namespace SameElements

variable {xs ys : List α}

theorem filterMap (h : SameElements xs ys) (f : α → Option β) :
    SameElements (xs.filterMap f) (ys.filterMap f) := by
  intro y
  simp only [mem_filterMap, h _]

/-- Injective images are the same exactly where the elements are. -/
theorem map_iff {f : α → β} (inj : Function.Injective f) :
    SameElements (xs.map f) (ys.map f) ↔ SameElements xs ys := by
  constructor
  · intro h x
    have there := h (f x)
    rwa [mem_map_of_injective inj, mem_map_of_injective inj] at there
  · intro h y
    simp only [mem_map, h _]

theorem contains_eq [BEq α] [LawfulBEq α] (h : SameElements xs ys) (x : α) :
    xs.contains x = ys.contains x := by
  rw [contains_eq_mem, contains_eq_mem, decide_eq_decide]
  exact h x

/-- Lists of the same elements are rearrangements once repetitions are dropped. -/
theorem eraseDups_perm [BEq α] [LawfulBEq α] (h : SameElements xs ys) :
    xs.eraseDups.Perm ys.eraseDups := by
  refine (perm_ext_iff_of_nodup (nodup_eraseDups xs) (nodup_eraseDups ys)).mpr fun x => ?_
  simp only [mem_eraseDups, h x]

end SameElements

/-- The distinct texts in order are determined by which texts there are. -/
theorem sortedDistinct_congr {xs ys : List String} (same : SameElements xs ys) :
    sortedDistinct xs = sortedDistinct ys :=
  sortWith_eq_of_perm same.eraseDups_perm

end CodeAtlas
