import CodeAtlas.Proofs.Index.Identity

/-!
The bare name in an identity.

Behind the first double colon of an identity stands its qualified name, or a rest of the path before
that name (`cutAt?_path`). Without the line (`dropLineMark_lineMark`), its last segment is the bare
name, unless a colon at the end of the path has none to pair with (`baseName_of_mem`,
`unpaired_colon_in_name`).
-/

namespace CodeAtlas

open List Text

variable {path cs : List Char} {c : Char}

/-- Behind the first double colon of an identity stands the rest of it, perhaps behind a rest of the
path. By induction on the path: two colons that stand together are cut off together. -/
theorem cutAt?_path (even : colonsAtEnd path % 2 = 0) (cs : List Char) :
    ∃ front x, cutAt? [':', ':'] (path ++ ':' :: ':' :: cs) = some (front, x ++ cs) ∧
      (x = [] ∨ ∃ path', x = path' ++ [':', ':'] ∧ colonsAtEnd path' % 2 = 0) := by
  induction path with
  | nil => exact ⟨[], [], by simp [cutAt?_cons, startsWith, after?], .inl rfl⟩
  | cons c path ih =>
    by_cases colons : c = ':' ∧ path.head? = some ':'
    · obtain ⟨rfl, first⟩ := colons
      obtain ⟨path, rfl⟩ := head?_eq_some_iff.mp first
      exact ⟨[], path ++ [':', ':'], by simp [cutAt?_cons, startsWith, after?],
        .inr ⟨path, rfl, even_of_colons even⟩⟩
    · obtain ⟨inside, even⟩ := even_of_colon (not_and.mp colons) even
      obtain ⟨front, x, cut, rest⟩ := ih even
      refine ⟨c :: front, x, ?_, rest⟩
      have stays : startsWith (c :: (path ++ ':' :: ':' :: cs)) [':', ':'] = false := by
        cases path <;> simp_all [startsWith, after?] <;> grind
      rw [cons_append, cutAt?_cons, stays, cut]
      rfl

/-- The digits of line numbers are decimal digits. -/
theorem isDecimalDigit_of_isDigit (digit : c.isDigit = true) : isDecimalDigit c = true := by
  simp only [Char.isDigit, ge_iff_le, Bool.and_eq_true, decide_eq_true_eq, UInt32.le_iff_toNat_le]
    at digit
  have low : 48 ≤ c.toNat := digit.1
  have high : c.toNat ≤ 57 := digit.2
  have inside : (48 ≤ c.toNat && c.toNat < 48 + 10) = true := by simp; omega
  simp [isDecimalDigit, digitValue?, digitZeros, inside]

/-- A line mark is an at sign with digits behind it, and perhaps a line feed. -/
theorem exists_lineMark (marked : dropLineMark cs ≠ cs) :
    ∃ front back, cs = front ++ '@' :: back ∧ ∀ c ∈ back, isDecimalDigit c = true ∨ c = '\n' := by
  unfold dropLineMark at marked
  split at marked
  rename_i backwards tail shape
  dsimp only at marked
  split at marked
  · rename_i rest found
    have feed : cs.reverse = tail.reverse ++ backwards ∧ ∀ c ∈ tail, c = '\n' := by
      split at shape <;> cases shape <;> simp [*]
    have digits : ∀ c ∈ backwards.takeWhile isDecimalDigit, isDecimalDigit c = true :=
      fun _ => mem_takeWhile_imp
    have start := takeWhile_prefix isDecimalDigit (l := backwards)
    have whole := prefix_iff_eq_append.mp start
    rw [found] at whole
    generalize backwards.takeWhile isDecimalDigit = run at digits whole
    refine ⟨rest.reverse, run.reverse ++ tail, ?_,
      forall_mem_append.mpr ⟨?_, fun c mem => .inr (feed.2 c mem)⟩⟩
    · rw [← reverse_inj, feed.1, ← whole]
      simp
    · exact fun c mem => .inl (digits c (mem_reverse.mp mem))
  · exact absurd rfl marked

namespace Entry

variable {x q : List Char}

/-- The line mark of an identity is dropped. -/
theorem dropLineMark_lineMark (cs : List Char) (line : Nat) :
    dropLineMark (cs ++ lineMark true line) = cs := by
  have digits : ∀ c ∈ (Nat.toDigits 10 line).reverse, isDecimalDigit c = true := fun c mem =>
    isDecimalDigit_of_isDigit
      (Nat.isDigit_of_mem_toDigits (by decide) (by decide) (mem_reverse.mp mem))
  have whole : (cs ++ lineMark true line).reverse =
      (Nat.toDigits 10 line).reverse ++ '@' :: cs.reverse := by
    simp [lineMark]
  have stop : isDecimalDigit '@' = false := by decide
  unfold dropLineMark
  rw [whole]
  split
  rename_i backwards tail shape
  split at shape
  · rename_i feed
    rcases append_eq_cons_iff.mp feed with ⟨none, -⟩ | ⟨_, first, -⟩
    · simp at none
    · exact absurd (digits '\n' (by simp [first])) (by decide)
  · cases shape
    simp [takeWhile_append_of_pos digits, stop]

/-- A text without at signs, behind nothing or a colon, has no line mark. -/
theorem dropLineMark_plain (free : '@' ∉ q) (ends : ∀ c ∈ x.getLast?, c = ':') :
    dropLineMark (x ++ q) = x ++ q := by
  by_contra marked
  obtain ⟨front, back, whole, inside⟩ := exists_lineMark marked
  rcases append_eq_append_iff.mp whole with ⟨more, -, rfl⟩ | ⟨more, rfl, rest⟩
  · simp at free
  · cases more with
    | nil => exact free (by rw [nil_append] at rest; simp [← rest])
    | cons c more =>
      obtain ⟨rfl, rfl⟩ := cons.inj rest
      have atEnd : ('@' :: more).getLast (cons_ne_nil _ _) ∈ (front ++ '@' :: more).getLast? := by
        rw [getLast?_append_of_ne_nil _ (cons_ne_nil _ _)]
        exact getLast?_eq_some_getLast (cons_ne_nil _ _)
      have last := ends _ atEnd
      rcases mem_cons.mp (last ▸ getLast_mem (cons_ne_nil '@' more)) with same | mem
      · cases same
      · exact absurd (inside ':' (mem_append_left _ mem)) (by decide)

/-- **An identity is read back**, with or without a line in it. -/
theorem baseName_identify {d : Declaration} (named : d.Named) {f : SourceFile}
    (paired : colonsAtEnd f.path.toList % 2 = 0) (shared : Bool) (line : Nat) :
    GraphKind.callgraph.baseName (identify f shared line d) = d.bareName := by
  obtain ⟨front, x, cut, rest⟩ :=
    cutAt?_path paired (d.qualifiedName.toList ++ lineMark shared line)
  have ends : ∀ c ∈ x.getLast?, c = ':' := by
    rcases rest with rfl | ⟨path, rfl, -⟩ <;> simp
  have last : lastSegment (x ++ d.qualifiedName.toList) = lastSegment d.qualifiedName.toList := by
    rcases rest with rfl | ⟨path, rfl, even⟩
    · rfl
    · rw [append_assoc]
      exact lastSegment_append _ _ (.inr ⟨rfl, even⟩)
  rw [GraphKind.baseName, toList_identify]
  have unmarked : dropLineMark (x ++ (d.qualifiedName.toList ++ lineMark shared line)) =
      x ++ d.qualifiedName.toList := by
    cases shared with
    | true => rw [← append_assoc, dropLineMark_lineMark]
    | false =>
      rw [lineMark, if_neg Bool.false_ne_true, append_nil, dropLineMark_plain named.plain.free ends]
  simp only [cut, unmarked]
  rw [← lastSegment, last, named.bare, String.ofList_toList]

end Entry

/-- The diff engine reads the bare name of a declaration back from its identity, if the path does
not end in an odd number of colons. -/
theorem baseName_of_mem (f : SourceFile) (paired : colonsAtEnd f.path.toList % 2 = 0) :
    ∀ e ∈ (Index.ofFile f).entries, GraphKind.callgraph.baseName e.id = e.bareName := by
  intro e mem
  obtain ⟨ds, named, perm⟩ := Index.entries_of_file f
  obtain ⟨d, inDs, rfl⟩ := mem_map.mp (perm.mem_iff.mp mem)
  exact Entry.baseName_identify (named d inDs) paired _ _

/-- A file with one function. -/
def oneFunction (path : String) : SourceFile :=
  SourceFile.ofText path .rust "fn f() \x7b\x7d"

/-- What is indexed of that file. -/
theorem entries_oneFunction (path : String) :
    (Index.ofFile (oneFunction path)).entries.map (fun e => (e.id, e.bareName)) =
      [(path ++ "::" ++ "f", "f")] := by
  have declared : (Rust.declarations (mask .rust "fn f() \x7b\x7d".toList)).declarations =
      [⟨"f", "f", .function, none, 0, 8, 9, []⟩] := by decide +kernel
  have entries : (Index.ofFile (oneFunction path)).entries = Entry.ofDeclarations (oneFunction path)
      (Rust.declarations (mask .rust "fn f() \x7b\x7d".toList)).declarations := rfl
  rw [entries, declared]
  simp [Entry.ofDeclarations, sortWith, Entry.ofDeclaration, Entry.identify, oneFunction,
    SourceFile.ofText]

/-- A path that ends in two colons. -/
theorem baseName_of_mem_colons : colonsAtEnd "a::".toList % 2 = 0 ∧
    ∃ e ∈ (Index.ofFile (oneFunction "a::")).entries, e.id = "a::::f" ∧
      GraphKind.callgraph.baseName e.id = e.bareName := by
  have paired : colonsAtEnd "a::".toList % 2 = 0 := by decide
  have found : ("a::::f", "f") ∈ (Index.ofFile (oneFunction "a::")).entries.map fun e =>
      (e.id, e.bareName) := by
    rw [entries_oneFunction]
    decide
  obtain ⟨e, mem, same⟩ := mem_map.mp found
  exact ⟨paired, e, mem, (Prod.mk.inj same).1, baseName_of_mem (oneFunction "a::") paired e mem⟩

/-- The last colon of the path is read as part of the name. -/
theorem unpaired_colon_in_name :
    ∃ e ∈ (Index.ofFile (oneFunction "a:")).entries, e.bareName = "f" ∧
      GraphKind.callgraph.baseName e.id = ":f" := by
  have found : ("a:::f", "f") ∈ (Index.ofFile (oneFunction "a:")).entries.map fun e =>
      (e.id, e.bareName) := by
    rw [entries_oneFunction]
    decide
  obtain ⟨e, mem, same⟩ := mem_map.mp found
  obtain ⟨id, bare⟩ := Prod.mk.inj same
  exact ⟨e, mem, bare, by rw [id]; decide +kernel⟩

end CodeAtlas
