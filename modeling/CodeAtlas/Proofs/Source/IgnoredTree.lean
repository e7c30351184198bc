import CodeAtlas.Proofs.Source.PathParts
import CodeAtlas.Text.Glob

/-!
Ignoring a directory.

A pattern with `/*` behind it has the pieces of the pattern and two more (`piecesFuel_tree`), and a
match goes on with a match (`matchesPieces_append`). So what is ignored stays ignored with all that
stands below it (`isIgnored_below`).
-/

namespace CodeAtlas

open List

namespace Glob

variable {cs : List Char} {ps qs : List GlobPiece}

/-- What stands behind a pattern for all that is below its matches. -/
def tree : List Char := ['/', '*']

/-- A test that stops at slashes does not see what is put behind. -/
theorem takeWhile_tree {p : Char → Bool} (stops : p '/' = false) (cs : List Char) :
    (cs ++ tree).takeWhile p = cs.takeWhile p := by
  induction cs with
  | nil => simp [tree, stops]
  | cons c cs ih => simp [takeWhile_cons, ih]

theorem drop_tree (p : Char → Bool) (cs : List Char) :
    (cs ++ tree).drop ((cs.takeWhile p).take 1).length =
      cs.drop ((cs.takeWhile p).take 1).length ++ tree :=
  drop_append_of_le_length ((length_take_le' _ _).trans (takeWhile_sublist p).length_le)

/-- What follows a pattern closes no class that the pattern leaves open. -/
theorem classText?_tree (cs : List Char) :
    classText? (cs ++ tree) = (classText? cs).map (Prod.map id (· ++ tree)) := by
  simp only [classText?, takeWhile_tree (p := (· == '!')) rfl, drop_tree,
    takeWhile_tree (p := (· == ']')) rfl]
  generalize (cs.takeWhile (· == '!')).take 1 = mark
  generalize cs.drop mark.length = rest
  generalize (rest.takeWhile (· == ']')).take 1 = first
  generalize rest.drop first.length = rest
  generalize mark ++ first = front
  induction rest generalizing front with
  | nil => simp [tree]
  | cons c rest ih =>
    by_cases closes : c = ']'
    · simp [closes]
    · simpa [closes] using ih (front ++ [c])

theorem length_of_classText? {body rest : List Char} (closed : classText? cs = some (body, rest)) :
    rest.length ≤ cs.length := by
  unfold classText? at closed
  dsimp only at closed
  split at closed
  · rename_i after whole
    cases closed
    have := congrArg length whole
    simp only [length_drop, length_cons] at this
    omega
  · cases closed

/-- A pattern with `/*` behind it has its own pieces and two more. -/
theorem piecesFuel_tree {fuel : Nat} (enough : cs.length ≤ fuel) :
    piecesFuel (fuel + 2) (cs ++ tree) = piecesFuel fuel cs ++ [.literal '/', .anyText] := by
  fun_induction piecesFuel fuel cs with
  | case1 cs =>
    obtain rfl : cs = [] := by simpa using enough
    rfl
  | case2 fuel => rfl
  | case3 fuel cs ih | case4 fuel cs ih =>
    rw [cons_append, piecesFuel, ih (by simpa using enough), cons_append]
  | case5 fuel cs body rest closed ih =>
    have fits := length_of_classText? closed
    rw [length_cons] at enough
    rw [cons_append, piecesFuel, classText?_tree, closed]
    simp [ih (by omega)]
  | case6 fuel cs closed ih =>
    rw [cons_append, piecesFuel, classText?_tree, closed]
    simp [ih (by simpa using enough)]
  | case7 fuel c cs star mark bracket ih =>
    rw [cons_append, piecesFuel, ih (by simpa using enough), cons_append]
    · exact star
    · exact mark
    · exact bracket

theorem matchesText_tree (pattern text : List Char) :
    matchesText (pattern ++ ['/', '*']) text =
      matchesPieces (pieces pattern ++ [.literal '/', .anyText]) text := by
  rw [matchesText, pieces, length_append]
  exact congrArg (matchesPieces · text) (piecesFuel_tree (Nat.le_refl _))

/-- Texts that match one after the other match together. -/
theorem matchesPieces_append {as bs : List Char} (first : matchesPieces ps as = true)
    (second : matchesPieces qs bs = true) : matchesPieces (ps ++ qs) (as ++ bs) = true := by
  fun_induction matchesPieces ps as with
  | case1 cs =>
    obtain rfl : cs = [] := by simpa using first
    exact second
  | case2 ps ih => cases bs <;> simp_all [matchesPieces]
  | case3 ps c cs ih1 ih2 =>
    simp only [cons_append, matchesPieces, Bool.or_eq_true] at first ih1 ih2 ⊢
    exact first.imp ih1 ih2
  | case4 => simp at first
  | case5 p ps c cs text ih =>
    simp only [Bool.and_eq_true] at first
    rw [cons_append, cons_append, matchesPieces]
    · simp [first.1, ih first.2]
    · exact text

theorem matchesPieces_star (cs : List Char) : matchesPieces [.anyText] cs = true := by
  induction cs with
  | nil => simp [matchesPieces]
  | cons c cs ih => simp [matchesPieces, ih]

/-- Two stars match what one does. -/
theorem matchesPieces_stars (ps : List GlobPiece) (cs : List Char) :
    matchesPieces (ps ++ [.anyText, .anyText]) cs = matchesPieces (ps ++ [.anyText]) cs := by
  fun_induction matchesPieces ps cs with
  | case1 cs => cases cs <;> simp [matchesPieces, matchesPieces_star]
  | case2 | case3 | case4 | case5 => simp_all [matchesPieces]

end Glob

/-- What stands below an ignored path is ignored. -/
theorem isIgnored_below {globs : List String} {path : String}
    (ignored : isIgnored globs path = true) (rest : String) :
    isIgnored globs (path ++ "/" ++ rest) = true := by
  have text : (path ++ "/" ++ rest).toList = path.toList ++ '/' :: rest.toList := by simp
  have parts : Text.splitBy (· == '/') (path.toList ++ '/' :: rest.toList) =
      Text.splitBy (· == '/') path.toList ++ Text.splitBy (· == '/') rest.toList := by
    simp only [Text.splitBy_eq_splitOnP]
    exact splitOnP_append_cons _ _ rfl
  simp only [isIgnored, any_eq_true, Bool.or_eq_true, text, parts, Glob.matchesText_tree]
    at ignored ⊢
  obtain ⟨glob, known, (whole | below) | ⟨part, mem, found⟩⟩ := ignored
  · refine ⟨glob, known, .inl (.inr (Glob.matchesPieces_append whole ?_))⟩
    simp [Glob.matchesPieces, GlobPiece.accepts, Glob.matchesPieces_star]
  · refine ⟨glob, known, .inl (.inr ?_)⟩
    have longer := Glob.matchesPieces_append below (Glob.matchesPieces_star ('/' :: rest.toList))
    rw [append_assoc, cons_append, append_cons, singleton_append, Glob.matchesPieces_stars]
      at longer
    rwa [append_cons]
  · exact ⟨glob, known, .inr ⟨part, mem_append_left _ mem, found⟩⟩

/-- A pattern with a class that is not closed ignores what stands below its matches too. -/
theorem isIgnored_below_unclosed :
    isIgnored ["a[/"] "a[" = true ∧ isIgnored ["a[/"] ("a[" ++ "/" ++ "b/c") = true := by
  have here : isIgnored ["a[/"] "a[" = true := by
    simp [isIgnored, Text.dropEndWhile, Glob.matchesText, Glob.pieces, Glob.piecesFuel,
      Glob.classText?, Glob.matchesPieces, GlobPiece.accepts]
  exact ⟨here, isIgnored_below here "b/c"⟩

end CodeAtlas
