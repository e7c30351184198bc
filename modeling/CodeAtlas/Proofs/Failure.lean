import Mathlib.Data.List.Basic

/-!
Steps that may fail.

Steps one after the other succeed where each of them does, and fail where the first one fails
(`bind_eq_ok`, `bind_eq_error`). So does a step over a list (`ok_of_mapM_ok`, `error_of_mapM_error`,
`forM_cases`).
-/

namespace CodeAtlas

open List

variable {α β ε : Type} {r : Except ε α} {f : α → Except ε β} {xs : List α}

/-- Two steps succeed where both of them do. -/
theorem bind_eq_ok {b : β} : r >>= f = .ok b ↔ ∃ a, r = .ok a ∧ f a = .ok b := by
  cases r <;> simp [bind, Except.bind]

theorem bind_eq_error {e : ε} :
    r >>= f = .error e ↔ r = .error e ∨ ∃ a, r = .ok a ∧ f a = .error e := by
  cases r <;> simp [bind, Except.bind]

/-- What comes of a list that succeeds comes of its elements. -/
theorem ok_of_mapM_ok {ys : List β} (h : xs.mapM f = .ok ys) : ∀ y ∈ ys, ∃ x ∈ xs, f x = .ok y := by
  induction xs generalizing ys with
  | nil =>
    cases h
    simp
  | cons x xs ih =>
    rw [mapM_cons] at h
    obtain ⟨z, first, rest⟩ := bind_eq_ok.mp h
    obtain ⟨zs, others, made⟩ := bind_eq_ok.mp rest
    cases made
    intro y mem
    rcases mem_cons.mp mem with rfl | later
    · exact ⟨x, mem_cons_self, first⟩
    · obtain ⟨x', inXs, made⟩ := ih others y later
      exact ⟨x', mem_cons_of_mem _ inXs, made⟩

/-- A list fails where one of its elements does. -/
theorem error_of_mapM_error {e : ε} (h : xs.mapM f = .error e) : ∃ x ∈ xs, f x = .error e := by
  induction xs with
  | nil => cases h
  | cons x xs ih =>
    rw [mapM_cons] at h
    rcases bind_eq_error.mp h with first | ⟨z, -, rest⟩
    · exact ⟨x, mem_cons_self, first⟩
    · rcases bind_eq_error.mp rest with others | ⟨zs, -, made⟩
      · obtain ⟨x', inXs, failed⟩ := ih others
        exact ⟨x', mem_cons_of_mem _ inXs, failed⟩
      · cases made

/-- A step that commutes with two maps does so over a whole list. -/
theorem mapM_map_map {α' β' : Type} {f' : α' → Except ε β'} {h : α → α'} {g : β → β'}
    (each : ∀ x ∈ xs, f' (h x) = (f x).map g) : (xs.map h).mapM f' = (xs.mapM f).map (map g) := by
  induction xs with
  | nil => rfl
  | cons x xs ih =>
    rw [map_cons, mapM_cons, mapM_cons, each x mem_cons_self,
      ih fun x mem => each x (mem_cons_of_mem _ mem)]
    cases f x with
    | error _ => rfl
    | ok _ => cases xs.mapM f <;> rfl

end CodeAtlas
