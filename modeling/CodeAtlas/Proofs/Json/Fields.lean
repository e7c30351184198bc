import CodeAtlas.Proofs.Json.RoundTrip

/-!
Objects as mappings from names to values.

The order of the fields of an object is of no account: `Same` compares two values up to it, at every
depth, and `Holds` says which fields an object has. A value that is written and read back is the
same value (`same_sorted`) and holds the same fields (`holds_sorted`).
-/

namespace CodeAtlas.Json

open List

variable {members fields : List (String × Json)} {v : Json} {name : String}

/-! ### Finite values -/

/-- A value whose fractions are finite and whose objects have every name once. -/
inductive IsFinite : Json → Prop
  | null : IsFinite null
  | bool (b : Bool) : IsFinite (bool b)
  | int (n : Int) : IsFinite (int n)
  | float {x : Binary64} : x.IsFinite → IsFinite (float x)
  | str (s : String) : IsFinite (str s)
  | arr {items : List Json} : (∀ v ∈ items, IsFinite v) → IsFinite (arr items)
  | obj {members : List (String × Json)} : (members.map Prod.fst).Nodup →
      (∀ m ∈ members, IsFinite m.2) → IsFinite (obj members)

theorem areWritable_iff {items : List Json} :
    areWritable items = true ↔ ∀ v ∈ items, v.isWritable = true := by
  induction items with
  | nil => simp [areWritable]
  | cons v vs ih => simp [areWritable, ih]

theorem fieldsWritable_iff :
    fieldsWritable members = true ↔ ∀ m ∈ members, m.2.isWritable = true := by
  induction members with
  | nil => simp [fieldsWritable]
  | cons m rest ih => simp [fieldsWritable, ih]

/-- A finite value has a text unless one of its integers is too long. -/
theorem IsFinite.storable (finite : IsFinite v) (short : v.isWritable = true) : Storable v := by
  induction finite with
  | null => exact .null
  | bool b => exact .bool b
  | int n => exact .int (by simpa [isWritable, IsShort] using short)
  | float finite => exact .float finite
  | str s => exact .str s
  | arr _ ih =>
    rw [isWritable, areWritable_iff] at short
    exact .arr fun v hv => ih v hv (short v hv)
  | obj distinct _ ih =>
    rw [isWritable, fieldsWritable_iff] at short
    exact .obj distinct fun m hm => ih m hm (short m hm)

/-! ### Values up to the order of fields -/

/-- Two values that differ in the order of the fields of objects only. -/
inductive Same : Json → Json → Prop
  | refl (v : Json) : Same v v
  | arr {xs ys : List Json} : List.Forall₂ Same xs ys → Same (arr xs) (arr ys)
  | obj {xs ys zs : List (String × Json)} : xs.Perm ys → ys.map Prod.fst = zs.map Prod.fst →
      List.Forall₂ Same (ys.map Prod.snd) (zs.map Prod.snd) → Same (obj xs) (obj zs)

/-- Two images of a list are related if the images of each element are. -/
theorem forall₂_map_of_forall {α β γ : Type} {R : β → γ → Prop} {f : α → β}
    {g : α → γ} {xs : List α}
    (related : ∀ x ∈ xs, R (f x) (g x)) : List.Forall₂ R (xs.map f) (xs.map g) := by
  rw [forall₂_map_left_iff, forall₂_map_right_iff, forall₂_same]
  exact related

/-- **Putting the fields in order changes nothing.** -/
theorem same_sorted (finite : IsFinite v) : Same v v.sorted := by
  induction finite with
  | null | bool b | int n | float finite | str s => exact .refl _
  | @arr items _ ih =>
    rw [sorted, sortedItems_eq_map]
    have related := forall₂_map_of_forall ih
    rw [map_id'] at related
    exact .arr related
  | @obj members _ _ ih =>
    rw [sorted_obj]
    refine .obj (sortFields_perm members).symm (by simp) ?_
    rw [map_map]
    exact forall₂_map_of_forall fun m hm => ih m ((sortFields_perm members).mem_iff.mp hm)

/-! ### The fields of an object -/

/-- Where names are different, a field is found by its name. -/
theorem lookup_of_mem (distinct : (members.map Prod.fst).Nodup)
    (inside : (name, v) ∈ members) : members.lookup name = some v := by
  induction members with
  | nil => cases inside
  | cons m rest ih =>
    obtain ⟨other, w⟩ := m
    rw [map_cons, nodup_cons] at distinct
    rcases mem_cons.mp inside with same | later
    · cases same
      simp
    · have differs : name ≠ other := by
        rintro rfl
        exact distinct.1 (mem_map.mpr ⟨(name, v), later, rfl⟩)
      rw [lookup_cons, beq_eq_false_iff_ne.mpr differs]
      exact ih distinct.2 later

/-- An object that has some fields, among others and in any order. -/
def Holds (v : Json) (fields : List (String × Json)) : Prop :=
  ∃ members, v = obj members ∧ ∀ f ∈ fields, members.lookup f.1 = some f.2

/-- A field that an object holds is found in it. -/
theorem Holds.field? (h : Holds v fields) {w : Json} (inside : (name, w) ∈ fields) :
    v.field? name = some w := by
  obtain ⟨members, rfl, found⟩ := h
  exact found _ inside

/-- An object that holds some fields holds fewer of them. -/
theorem Holds.mono {others : List (String × Json)} (h : Holds v fields)
    (sub : ∀ f ∈ others, f ∈ fields) : Holds v others := by
  obtain ⟨members, rfl, found⟩ := h
  exact ⟨members, rfl, fun f hf => found f (sub f hf)⟩

/-- A field that is missing is missing also when the others are in order. -/
theorem field?_sorted_of_not_mem (absent : name ∉ members.map Prod.fst) :
    (obj members).sorted.field? name = none := by
  rw [sorted_obj, field?, lookup_eq_none_iff]
  intro f hf
  obtain ⟨m, hm, rfl⟩ := mem_map.mp hf
  have differs : name ≠ m.1 := by
    rintro rfl
    exact absent (mem_map_of_mem ((sortFields_perm members).mem_iff.mp hm))
  simpa using differs

/-- An object with its fields in order holds the fields, each with its own fields in order. -/
theorem holds_sorted (distinct : (members.map Prod.fst).Nodup) :
    Holds (obj members).sorted (members.map fun m => (m.1, m.2.sorted)) := by
  rw [sorted_obj]
  refine ⟨_, rfl, ?_⟩
  intro f hf
  obtain ⟨m, hm, rfl⟩ := mem_map.mp hf
  have names : ((sortFields members).map fun m => (m.1, m.2.sorted)).map Prod.fst =
      (sortFields members).map Prod.fst := by simp
  refine lookup_of_mem (names ▸ nodup_sortFields distinct) ?_
  exact mem_map.mpr ⟨m, (sortFields_perm members).mem_iff.mpr hm, rfl⟩

theorem holds_filter (holds : Holds (obj members) fields) (other : name ∉ fields.map Prod.fst) :
    Holds (obj (members.filter (·.1 != name))) fields := by
  obtain ⟨_, same, found⟩ := holds
  cases same
  refine ⟨_, rfl, ?_⟩
  intro f hf
  have differs : f.1 ≠ name := by
    rintro rfl
    exact other (mem_map_of_mem hf)
  obtain ⟨before, after, split, new⟩ := lookup_eq_some_iff.mp (found f hf)
  refine lookup_eq_some_iff.mpr ⟨before.filter (·.1 != name), after.filter (·.1 != name), ?_, ?_⟩
  · rw [split, filter_append, filter_cons_of_pos (by simpa using differs)]
  · exact fun p hp => new p (mem_filter.mp hp).1

end CodeAtlas.Json
