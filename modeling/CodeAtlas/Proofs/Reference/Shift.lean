import CodeAtlas.Proofs.Index.Shift

/-!
Blank lines above files move the references that the files write down, and leave their targets as
they are.

Links are listed by file before they are listed by line, and references of one file move together,
so the order of the links stays as well (`Blueprint.links_prepend`). Which file sees which is the
same then (`Blueprint.targets_prepend`).
-/

namespace CodeAtlas

open List

namespace Reference

def shift (k : Nat) (r : Reference) : Reference :=
  { r with line := r.line + k }

/-! ### Rust -/

/-- A module declaration is read alike behind line feeds. -/
theorem unmoved_rustModule? : Mark.Unmoved rustModule? where
  passes before cs := by
    have word : Text.atWord? "mod" before.head? ('\n' :: cs) = none := by
      unfold Text.atWord?
      split <;> rfl
    rw [rustModule?, word]
    rfl
  blind before k cs := by
    simp only [rustModule?, Text.atWord?,
      any_head?_append_newlines (show isWordChar '\n' = false by decide)]

theorem unmoved_rustUse? : Mark.Unmoved rustUse? where
  passes before cs := by
    unfold rustUse?
    split <;> rfl
  blind before k cs := by
    have same : (before ++ newlines k).head?.any (fun c => isWordChar c || c == ':') =
        before.head?.any (fun c => isWordChar c || c == ':') :=
          any_head?_append_newlines (by decide) before k
    simp only [rustUse?, same]

/-- The references of Rust source move by the lines above. -/
theorem ofRust_newlines (k : Nat) (text masked : List Char) :
    ofRust (LineMap.ofText (newlines k ++ text)) (newlines k ++ masked) =
      (ofRust (LineMap.ofText text) masked).map (shift k) := by
  unfold ofRust
  rw [Mark.scan_newlines unmoved_rustModule?, Mark.scan_newlines unmoved_rustUse?]
  simp only [map_append, map_map, flatMap_map, map_flatMap]
  congr 1
  · refine map_congr_left fun m _ => ?_
    simp only [Function.comp_apply, Mark.shift, LineMap.lineOf_newlines, shift]
  · refine flatMap_congr fun m _ => map_congr_left fun path _ => ?_
    simp only [Function.comp_apply, Mark.shift, LineMap.lineOf_newlines, shift]

/-! ### Python -/

theorem ofPythonLine_shift (k : Nat) (l : LogicalLine) :
    ofPythonLine (l.shift k) = (ofPythonLine l).map (shift k) := by
  have text : (l.shift k).text = l.text := rfl
  unfold ofPythonLine
  rw [text]
  dsimp only
  generalize l.text.map (fun c => if c == '\\' then ' ' else c) = line
  cases fromLine? line with
  | none =>
    rw [map_map]
    rfl
  | some found =>
    obtain ⟨name, clause⟩ := found
    dsimp only
    split
    · rw [map_map]
      rfl
    · rfl

/-- The references of Python source move by the lines above. -/
theorem ofPython_newlines (k : Nat) (masked : List Char) :
    ofPython (newlines k ++ masked) = (ofPython masked).map (shift k) := by
  unfold ofPython
  rw [LogicalLine.ofText_newlines, flatMap_map, map_flatMap]
  exact flatMap_congr fun l _ => ofPythonLine_shift k l

/-! ### Files -/

/-- The references of a file move by the lines above it. -/
theorem ofFile_prepend {file : SourceFile} (supported : file.IsRustOrPython) (k : Nat) :
    ∃ found, ofFile file = .ok found ∧ ofFile (file.prepend k) = .ok (found.map (shift k)) := by
  obtain ⟨path, language, sizeBytes, lineCount, text⟩ := file
  rcases supported with rfl | rfl
  · refine ⟨_, rfl, ?_⟩
    rw [← ofRust_newlines, ← mask_newlines]
    rfl
  · refine ⟨_, rfl, ?_⟩
    rw [← ofPython_newlines, ← mask_newlines]
    rfl

end Reference

namespace FileLink

def shift (k : Nat) (l : FileLink) : FileLink :=
  { l with line := l.line + k }

/-- Links keep their order: those of one file move together, and files are compared first. -/
theorem compareKey_shift (shiftOf : String → Nat) (a b : FileLink) :
    compareKey (a.shift (shiftOf a.source)) (b.shift (shiftOf b.source)) = compareKey a b := by
  simp only [compareKey, shift, Ordering.then_assoc]
  refine compare_then_congr fun same => ?_
  rw [same, compare_add_right]

end FileLink

namespace Blueprint

/-- What was read from a file that has moved. -/
def Extract.prepend (k : Nat) (x : Extract) : Extract :=
  ⟨x.file.prepend k, x.family, x.references.map (Reference.shift k)⟩

/-- What is read from a file moves with it. -/
theorem extract_prepend {file : SourceFile} (supported : file.IsRustOrPython) (k : Nat) :
    ∃ x, extract file = .ok x ∧ x.file = file ∧ extract (file.prepend k) = .ok (x.prepend k) := by
  obtain ⟨references, written, moved⟩ := Reference.ofFile_prepend supported k
  obtain ⟨family, known⟩ := supported.family
  have known' : (file.prepend k).language.family = .ok family := known
  refine ⟨⟨file, family, references⟩, ?_, rfl, ?_⟩
  · simp only [extract, known, written]
  · simp only [extract, known', moved]
    rfl

variable {files : List SourceFile} (shiftOf : String → Nat)

section

variable (supported : ∀ file ∈ files, file.IsRustOrPython)
include supported

/-- What is read from files moves, each by the lines above it. -/
theorem extracts_prepend :
    extracts ((files.map fun file => file.prepend (shiftOf file.path)).map extract) =
      (extracts (files.map extract)).map fun x => x.prepend (shiftOf x.file.path) := by
  induction files with
  | nil => rfl
  | cons file files ih =>
    obtain ⟨x, read, rfl, moved⟩ :=
      extract_prepend (supported file mem_cons_self) (shiftOf file.path)
    have later := ih fun file mem => supported file (mem_cons_of_mem _ mem)
    simp only [extracts] at later ⊢
    simp only [map_cons, read, moved, filterMap_cons, later]

/-- **Links move with their files and keep their targets.** -/
theorem links_prepend (crates : List (String × String))
    (readErrors : List FileError) :
    (ofFiles (files.map fun file => file.prepend (shiftOf file.path)) crates readErrors).links =
      (ofFiles files crates readErrors).links.map fun l => l.shift (shiftOf l.source) := by
  have paths : ((extracts (files.map extract)).map fun x => x.prepend (shiftOf x.file.path)).map
      (·.file.path) =
      (extracts (files.map extract)).map (·.file.path) := by
    rw [map_map]
    rfl
  simp only [ofFiles, merge, extracts_prepend shiftOf supported, paths]
  rw [← sortWith_map (FileLink.compareKey_shift shiftOf), map_flatMap, flatMap_map]
  congr 1
  refine flatMap_congr fun x _ => ?_
  rw [Extract.prepend, map_map, map_map]
  rfl

/-- Which file sees which does not depend on blank lines above them. -/
theorem targets_prepend (crates : List (String × String))
    (readErrors : List FileError) :
    (ofFiles (files.map fun file => file.prepend (shiftOf file.path)) crates readErrors).targets =
      (ofFiles files crates readErrors).targets := by
  rw [targets, links_prepend shiftOf supported, filterMap_map]
  rfl

end

end Blueprint

end CodeAtlas
