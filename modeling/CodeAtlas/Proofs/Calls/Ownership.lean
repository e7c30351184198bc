import CodeAtlas.Proofs.Index.Identity

/-!
Which function a call belongs to.

A call is found at the first character of its callee, and that is no blank. The declarations inside
a body are blanked out before calls are looked for, so a call of a function lies in its body and in
none of them (`CallSite.located_own`). Declarations of Rust and Python files do not cross, and one
that lies in another has another identity. So a place of the text is a call of one function at most
(`calls_belong_to_one_function`).
-/

namespace CodeAtlas

open List

variable {file : SourceFile} {lines : LineMap} {ds : List Declaration} {a b : Declaration}
  {family : Family}

/-! ### Stretches of text -/

namespace Span

variable {a b : Span}

def Covers (s : Span) (offset : Nat) : Prop :=
  s.start ≤ offset ∧ offset < s.stop

def Within (a b : Span) : Prop :=
  b.start ≤ a.start ∧ a.stop ≤ b.stop

/-- The stretches have no offset in common. -/
def Disjoint (a b : Span) : Prop :=
  ∀ offset, ¬ (a.Covers offset ∧ b.Covers offset)

/-- One stretch ends before the other starts. -/
theorem disjoint_of_le (h : a.stop ≤ b.start) : a.Disjoint b := by
  rintro offset ⟨⟨_, before⟩, ⟨after, _⟩⟩
  omega

theorem Disjoint.symm (h : a.Disjoint b) : b.Disjoint a :=
  fun offset both => h offset both.symm

end Span

namespace Entry

def bodySpan (e : Entry) : Span :=
  ⟨e.bodyOffset, e.endOffset⟩

/-- The stretch of the whole declaration. -/
def extent (e : Entry) : Span :=
  ⟨e.declOffset, e.endOffset⟩

end Entry

/-! ### Calls in a body -/

namespace Mark

variable {κ : Type} {read : List Char → List Char → Option (κ × Nat)}
  {text : List Char} {m : Mark κ}

/-- A mark of a scan was read where it starts. By induction on the text that is left. -/
theorem read_at_of_mem_scanFrom {skip pos : Nat} {before cs : List Char} (here : text.drop pos = cs)
    (h : m ∈ scanFrom read skip pos before cs) :
    ∃ length, read m.before (text.drop m.start) = some (m.kind, length) := by
  induction cs generalizing skip pos before with
  | nil => simp [scanFrom] at h
  | cons c cs ih =>
    have next : text.drop (pos + 1) = cs := by rw [← drop_drop, here, drop_one, tail_cons]
    cases skip with
    | succ skip => exact ih next h
    | zero =>
      simp only [scanFrom] at h
      split at h
      · rename_i kind length found
        rcases mem_cons.mp h with rfl | later
        · exact ⟨length, here ▸ found⟩
        · exact ih next later
      · exact ih next h

theorem read_at_of_mem_scan (h : m ∈ scan read text) :
    ∃ length, read m.before (text.drop m.start) = some (m.kind, length) :=
  read_at_of_mem_scanFrom rfl h

end Mark

namespace CallSite

variable {spans : List (Nat × Nat)} {pos start stop : Nat} {family : Family}

/-- Blanking out keeps every place where it is. -/
theorem length_blankOut (spans : List (Nat × Nat)) (pos : Nat) (cs : List Char) :
    (blankOut spans pos cs).length = cs.length := by
  induction cs generalizing pos with
  | nil => rfl
  | cons c cs ih => simp [blankOut, ih]

theorem covered_of_mem (span : (start, stop) ∈ spans)
    (covers : start ≤ pos ∧ pos < stop) :
    (spans.any fun (start, stop) => start ≤ pos && pos < stop) = true := by
  rw [any_eq_true]
  exact ⟨(start, stop), span, by simpa using covers⟩

/-- In a stretch that is blanked out stand only spaces and line feeds. -/
theorem blankOut_inside {i : Nat} {cs : List Char} {c : Char}
    (span : (start, stop) ∈ spans) (covers : start ≤ pos + i ∧ pos + i < stop)
    (here : (blankOut spans pos cs)[i]? = some c) : c = ' ' ∨ c = '\n' := by
  induction cs generalizing pos i with
  | nil => simp [blankOut] at here
  | cons d cs ih =>
    cases i with
    | succ i =>
      have covers' : start ≤ pos + 1 + i ∧ pos + 1 + i < stop := by omega
      exact ih covers' (by simpa [blankOut] using here)
    | zero =>
      rw [Nat.add_zero] at covers
      have inside := covered_of_mem span covers
      simp only [blankOut, inside, getElem?_cons_zero, Option.some.injEq, Bool.true_and] at here
      split at here
      · exact .inl here.symm
      · rename_i feed
        right
        rw [← here]
        simpa using feed

/-- A call starts with a character that can start a segment, and that is no blank. -/
theorem read_start {before cs : List Char} {o : Opening × Nat}
    (h : read family before cs = some o) : ∃ c rest, cs = c :: rest ∧ isSegmentStart c = true := by
  simp only [read, Option.bind_eq_bind, Option.bind_eq_some_iff] at h
  obtain ⟨after, path, _⟩ := h
  obtain ⟨rest, segment, _⟩ := Option.map_eq_some_iff.mp path
  cases cs with
  | nil => simp [Callee.afterSegment?] at segment
  | cons c cs =>
    simp only [Callee.afterSegment?] at segment
    split at segment
    · exact ⟨c, cs, rfl, ‹_›⟩
    · cases segment

/-- A call lies in the body of its function and in no declaration inside it: those have been blanked
out, and a call starts at no blank. -/
theorem located_own {e : Entry} {masked : List Char} {siblings : List Entry}
    {call : Nat × String} (h : call ∈ located family e masked siblings) :
    e.bodySpan.Covers call.1 ∧ ∀ other ∈ siblings, other.id ≠ e.id →
      other.extent.Within e.bodySpan →
        ¬ other.extent.Covers call.1 := by
  obtain ⟨m, mem, rfl⟩ := mem_map.mp h
  obtain ⟨_, found⟩ := Mark.read_at_of_mem_scan (mem_filter.mp mem).1
  obtain ⟨c, rest, here, start⟩ := read_start found
  have body : (ownBody e masked siblings).length ≤ e.endOffset - e.bodyOffset := by
    rw [ownBody, length_blankOut, length_drop, length_take]
    omega
  have at_ : (ownBody e masked siblings)[m.start]? = some c := by
    have := congrArg head? here
    rwa [head?_drop] at this
  have inside := (List.getElem?_eq_some_iff.mp at_).1
  refine ⟨⟨Nat.le_add_right _ _, ?_⟩, ?_⟩
  · show e.bodyOffset + m.start < e.endOffset
    omega
  · intro other sibling ne within covers
    have span : (other.declOffset, other.endOffset) ∈ nestedSpans e siblings := by
      refine mem_map.mpr ⟨other, mem_filter.mpr ⟨sibling, ?_⟩, rfl⟩
      simpa [ne, Span.Within, Entry.extent, Entry.bodySpan] using within
    rcases blankOut_inside span covers at_ with rfl | rfl <;> revert start <;> decide

end CallSite

/-! ### Entries of a file -/

/-- In one file an identity names one qualified name, as a name holds none of the marks that
identities are made with. -/
theorem Entry.name_eq_of_id_eq (ha : a.Named) (hb : b.Named)
    (same : (ofDeclaration file lines ds a).id = (ofDeclaration file lines ds b).id) :
    a.qualifiedName = b.qualifiedName := by
  have texts := congrArg String.toList same
  simp only [ofDeclaration, toList_identify] at texts
  have names := (cons.inj (cons.inj (append_cancel_left texts)).2).2
  exact String.toList_injective (name_inj ha.plain.free hb.plain.free names).1

/-- How two entries of a file lie: their bodies have nothing in common, or one of them lies in the
body of the other one, and then they have different identities. -/
structure Entry.Separate (a b : Entry) : Prop where
  starts : a.bodyOffset ≠ b.bodyOffset
  lie : a.bodySpan.Disjoint b.bodySpan ∨ a.extent.Within b.bodySpan ∨ b.extent.Within a.bodySpan
  ids : a.extent.Within b.bodySpan ∨ b.extent.Within a.bodySpan → a.id ≠ b.id

theorem Entry.Separate.symm {a b : Entry} (h : a.Separate b) : b.Separate a := by
  refine ⟨h.starts.symm, ?_, fun lies => (h.ids lies.symm).symm⟩
  rcases h.lie with apart | inside | around
  · exact .inl apart.symm
  · exact .inr (.inr inside)
  · exact .inr (.inl around)

instance : Std.Symm Entry.Separate := ⟨fun _ _ => Entry.Separate.symm⟩

/-- Declarations that do not cross make entries that lie apart or inside each other, and an inner
one has a longer name. -/
theorem Entry.separate_of_uncrossed (uncrossed : a.Uncrossed b) (pa : a.Proper) (pb : b.Proper)
    (ha : a.Named) (hb : b.Named) :
    (ofDeclaration file lines ds a).Separate (ofDeclaration file lines ds b) := by
  obtain ⟨declA, bodyA⟩ := pa
  obtain ⟨declB, bodyB⟩ := pb
  -- In each case the offsets leave one way for the two to lie.
  have nests (x y : Declaration) :
      (ofDeclaration file lines ds x).extent.Within (ofDeclaration file lines ds y).bodySpan ↔
        y.bodyOffset ≤ x.declOffset ∧ x.endOffset ≤ y.endOffset :=
    Iff.rfl
  have different (ne : a.qualifiedName ≠ b.qualifiedName) :
      (ofDeclaration file lines ds a).id ≠ (ofDeclaration file lines ds b).id :=
    fun same => ne (name_eq_of_id_eq ha hb same)
  cases uncrossed with
  | before h =>
    refine ⟨?_, .inl (Span.disjoint_of_le (Nat.le_of_lt h)), ?_⟩
    · show a.bodyOffset ≠ b.bodyOffset
      omega
    · rw [nests, nests]
      omega
  | after h =>
    refine ⟨?_, .inl (Span.disjoint_of_le (Nat.le_of_lt h)).symm, ?_⟩
    · show a.bodyOffset ≠ b.bodyOffset
      omega
    · rw [nests, nests]
      omega
  | inside h =>
    obtain ⟨starts, ends, longer⟩ := h
    refine ⟨?_, .inr (.inl ⟨starts, ends⟩), fun _ => different fun same => ?_⟩
    · show a.bodyOffset ≠ b.bodyOffset
      omega
    · rw [same] at longer
      omega
  | around h =>
    obtain ⟨starts, ends, longer⟩ := h
    refine ⟨?_, .inr (.inr ⟨starts, ends⟩), fun _ => different fun same => ?_⟩
    · show a.bodyOffset ≠ b.bodyOffset
      omega
    · rw [same] at longer
      omega

/-- The entries of a Rust or Python file lie separately, two by two. -/
theorem fileEntries_separate {entries : List Entry}
    (known : file.language.family = .ok family) (nests : family = .rust ∨ family = .python)
    (found : fileEntries file = .ok entries) :
    entries.Pairwise Entry.Separate ∧ ∀ e ∈ entries, e.bodySpan.Within e.extent := by
  cases scanned : scanFile file with
  | error fault => simp [fileEntries, scanned, bind, Except.bind] at found
  | ok scan =>
    have listed : entries.Perm (scan.declarations.map
        (Entry.ofDeclaration file (LineMap.ofText file.text) scan.declarations)) := by
      simp only [fileEntries, scanned, bind, Except.bind, pure, Except.pure, Except.ok.injEq]
        at found
      rw [← found]
      exact sortWith_perm _ _
    obtain ⟨uncrossed, bounds⟩ := declarations_uncrossed known nests scanned
    have named := qualifiedName_named scanned
    constructor
    · rw [listed.pairwise_iff Entry.Separate.symm, pairwise_map]
      refine uncrossed.imp_of_mem ?_
      intro a b ha hb h
      exact Entry.separate_of_uncrossed h (bounds a ha).1 (bounds b hb).1 (named a ha) (named b hb)
    · intro e mem
      obtain ⟨d, declared, rfl⟩ := mem_map.mp (listed.mem_iff.mp mem)
      exact ⟨Nat.le_of_lt (bounds d declared).1.declOffset_lt, Nat.le_refl _⟩

/-- Two entries that lie separately have no call in common. -/
theorem CallSite.located_ne {a b : Entry} {masked : List Char} {siblings : List Entry}
    (apart : a.Separate b) (ha : a ∈ siblings) (hb : b ∈ siblings)
    (bodyA : a.bodySpan.Within a.extent) (bodyB : b.bodySpan.Within b.extent)
    {call call' : Nat × String} (h : call ∈ located family a masked siblings)
    (h' : call' ∈ located family b masked siblings) : call.1 ≠ call'.1 := by
  obtain ⟨own, others⟩ := located_own h
  obtain ⟨own', others'⟩ := located_own h'
  intro same
  rcases apart.lie with disjoint | inside | around
  · exact disjoint call.1 ⟨own, same ▸ own'⟩
  · refine others' a ha (apart.ids (.inl inside)) inside ?_
    rw [← same]
    exact ⟨Nat.le_trans bodyA.1 own.1, Nat.lt_of_lt_of_le own.2 bodyA.2⟩
  · refine others b hb (apart.ids (.inr around)).symm around ?_
    rw [same]
    exact ⟨Nat.le_trans bodyB.1 own'.1, Nat.lt_of_lt_of_le own'.2 bodyB.2⟩

/-- Every call of a Rust or Python file belongs to one function, whatever the text of the file is.
The bodies of the declarations lie in one another or have nothing in common. A call of a declaration
lies in its body and in none of the declarations that lie there. No place is a call of two
declarations. -/
theorem calls_belong_to_one_function (file : SourceFile) (family : Family)
    (known : file.language.family = .ok family) (nests : family = .rust ∨ family = .python) :
    ∃ entries, fileEntries file = .ok entries ∧
      (entries.Pairwise fun a b => a ≠ b ∧
        (a.bodySpan.Disjoint b.bodySpan ∨ a.bodySpan.Within b.bodySpan ∨
          b.bodySpan.Within a.bodySpan)) ∧
      (∀ e ∈ entries, ∀ call ∈ CallSite.located family e (mask family file.text) entries,
        e.bodySpan.Covers call.1 ∧
          ∀ other ∈ entries, other ≠ e → other.extent.Within e.bodySpan →
            ¬ other.extent.Covers call.1) ∧
      (entries.Pairwise fun a b =>
        ∀ call ∈ CallSite.located family a (mask family file.text) entries,
          ∀ call' ∈ CallSite.located family b (mask family file.text) entries,
            call.1 ≠ call'.1) := by
  obtain ⟨entries, found⟩ : ∃ entries, fileEntries file = .ok entries := by
    simp [fileEntries, scanFile, known, bind, Except.bind, pure, Except.pure]
  obtain ⟨separate, bodies⟩ := fileEntries_separate known nests found
  refine ⟨entries, found, ?_, ?_, ?_⟩
  · refine separate.imp_of_mem ?_
    intro a b ha hb h
    refine ⟨fun same => h.starts (same ▸ rfl), ?_⟩
    have trans {x y z : Span} (xy : x.Within y) (yz : y.Within z) : x.Within z :=
      ⟨Nat.le_trans yz.1 xy.1, Nat.le_trans xy.2 yz.2⟩
    rcases h.lie with disjoint | inside | around
    · exact .inl disjoint
    · exact .inr (.inl (trans (bodies a ha) inside))
    · exact .inr (.inr (trans (bodies b hb) around))
  · intro e member call located
    obtain ⟨own, others⟩ := CallSite.located_own located
    refine ⟨own, ?_⟩
    intro other sibling ne within
    exact others other sibling ((separate.forall sibling member ne).ids (.inl within)) within
  · refine separate.imp_of_mem ?_
    intro a b ha hb h call located call' located'
    exact CallSite.located_ne h ha hb (bodies a ha) (bodies b hb) located located'

/-- A function in another one of its name, and a head that finds its body only after the block
around it has ended. -/
def nestedCalls : SourceFile :=
  SourceFile.ofText "a.rs" .rust
    "fn f() \x7b g(); fn f() \x7b g(); \x7d fn h( \x7d \x7b g() "

/-- No place of that file is a call of two functions. -/
theorem calls_belong_to_one_function_nested :
    nestedCalls.language.family = .ok .rust ∧
      ∃ entries, fileEntries nestedCalls = .ok entries ∧
        entries.Pairwise fun a b =>
          ∀ call ∈ CallSite.located .rust a (mask .rust nestedCalls.text) entries,
            ∀ call' ∈ CallSite.located .rust b (mask .rust nestedCalls.text) entries,
              call.1 ≠ call'.1 := by
  have known : nestedCalls.language.family = .ok .rust := rfl
  obtain ⟨entries, found, _, _, apart⟩ :=
    calls_belong_to_one_function nestedCalls .rust known (.inl rfl)
  exact ⟨known, entries, found, apart⟩

end CodeAtlas
