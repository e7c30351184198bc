import CodeAtlas.Audit.Scope

/-!
Abstract types and how often each is implemented.

In Python a class is abstract by its bases, in TypeScript an interface or an abstract class is, and
in Rust a trait is. Implementations are counted by name.
-/

namespace CodeAtlas

structure AbstractType where
  name : String
  path : String
  offset : Nat
  implementations : Nat
  deriving Repr, DecidableEq

namespace AbstractType

structure NamedAt where
  name : List Char
  distance : Nat

def outsideAngles : (depth : Nat) → List Char → List Char
  | _, [] => []
  | depth, '<' :: cs => outsideAngles (depth + 1) cs
  | depth + 1, '>' :: cs => outsideAngles depth cs
  | 0, c :: cs => c :: outsideAngles 0 cs
  | depth + 1, _ :: cs => outsideAngles (depth + 1) cs

/-! ### Python -/

def bases? (cs : List Char) : Option (List Char × List Char) :=
  match Text.trimStart cs with
  | '(' :: rest =>
      let inner := rest.takeWhile (· != ')')
      (Text.after? [')'] (rest.drop inner.length)).map fun after => (inner, after)
  | rest => some ([], rest)

/-- The header of a class at the start of a line: its name and its bases. -/
def pythonClass? (before cs : List Char) : Option ((NamedAt × List Char) × Nat) := do
  if before.head?.any (· != '\n') then none
  else
    let rest ← Text.after? "class".toList (cs.dropWhile fun c => c == ' ' || c == '\t')
    let rest ← Text.blanks1? rest
    let name := rest.takeWhile isWordChar
    if name.isEmpty then none
    else
      let (bases, after) ← bases? (rest.drop name.length)
      let after ← Text.after? [':'] (Text.trimStart after)
      return ((⟨name, cs.length - rest.length⟩, bases), cs.length - after.length)

def baseList (bases : List Char) : List (List Char) :=
  ((Text.splitTopLevel ',' bases).map Text.trim).filter (!·.isEmpty)

def isAbstractBase (base : List Char) : Bool :=
  let value := (Text.splitBy (· == '=') base).getLastD []
  ["ABC", "ABCMeta", "Protocol"].contains (String.ofList (Callee.lastSegment value))

def baseName (base : List Char) : List Char :=
  Callee.lastSegment (outsideAngles 0 (base.takeWhile (· != '[')))

/-! ### TypeScript -/

def curlyAbstract? (before cs : List Char) : Option (NamedAt × Nat) := do
  let plain := Text.atWord? "interface" before.head? cs
  let classed := Text.atWord? "abstract" before.head? cs >>= Text.blanks1? >>=
    Text.after? "class".toList
  let rest ← plain.or classed >>= Text.blanks1?
  let (name, after) ← Text.dollarName? rest
  return (⟨name, cs.length - rest.length⟩, cs.length - after.length)

/-- What a class header lists after the word `implements` or `extends`, up to the brace, and the
rest. -/
def heritageList? (cs : List Char) : Option (List Char × List Char) := do
  let rest ← (Text.after? "implements".toList cs).or (Text.after? "extends".toList cs)
  let list := rest.takeWhile (· != '{')
  let after ← Text.after? ['{'] (rest.drop list.length)
  if list.head?.any isBlank && 1 < list.length then some (list, after) else none

def heritageFrom? : (before : Option Char) → List Char → Option (List Char × List Char)
  | _, [] => none
  | before, c :: cs =>
      let found := if before.any isWordChar then none else heritageList? (c :: cs)
      if found.isSome then found
      else if c == '{' || c == ';' then none
      else heritageFrom? (some c) cs

/-- The list that starts inside the name of a class, when its last part after a dollar sign is the
word `implements` or `extends`; `lead` is what stands before that part. -/
def heritageInName? (lead : List Char) : (name rest : List Char) → Option (List Char × List Char)
  | [], _ => none
  | c :: name, rest =>
      (heritageInName? (c :: lead) name rest).or
        (if lead.head?.any (!isWordChar ·) then heritageList? (c :: name ++ rest) else none)

def heritage? (before cs : List Char) : Option (List Char × Nat) := do
  let rest ← Text.atWord? "class" before.head? cs >>= Text.blanks1?
  let (name, rest) ← Text.dollarName? rest
  let (list, after) ← (heritageFrom? name.getLast? rest).or (heritageInName? [] name rest)
  return (list, cs.length - after.length)

def isHeritageWord (word : List Char) : Bool :=
  word == "implements".toList || word == "extends".toList

/-- Cut a text at the words that introduce lists of types; `part` and `word` are what was read since
the last cut and since the last boundary, the last character first. -/
def cutAtHeritage (part word : List Char) : List Char → List (List Char)
  | [] => if isHeritageWord word.reverse then [part.reverse, []] else [(word ++ part).reverse]
  | c :: cs =>
      if isWordChar c then cutAtHeritage part (c :: word) cs
      else if isHeritageWord word.reverse then part.reverse :: cutAtHeritage [c] [] cs
      else cutAtHeritage (c :: (word ++ part)) [] cs

def heritageNames (list : List Char) : List (List Char) :=
  let parts := (Text.splitBy (· == ',') (outsideAngles 0 list)).flatMap (cutAtHeritage [] [])
  (parts.filter (!Text.isAllBlank ·)).map Callee.lastSegment

/-! ### Rust -/

def rustTrait? (before cs : List Char) : Option (NamedAt × Nat) := do
  let rest ← Text.atWord? "trait" before.head? cs >>= Text.blanks1?
  let (name, after) ← Text.name? rest
  return (⟨name, cs.length - rest.length⟩, cs.length - after.length)

def closings : List Char → List (List Char)
  | [] => []
  | c :: cs =>
      if c == '{' then []
      else if c == '>' then cs :: closings cs
      else closings cs

/-- The rests after type parameters, the shortest reading first, and without any. -/
def afterAngles (cs : List Char) : List (List Char) :=
  match Text.trimStart cs with
  | '<' :: rest => closings rest ++ [cs]
  | _ => [cs]

/-- The rest after the word `for`, which blanks precede. -/
def afterFor? (cs : List Char) : Option (List Char) := do
  let rest ← Text.blanks1? cs >>= Text.after? "for".toList
  if rest.head?.any isWordChar then none else some rest

def rustImpl? (before cs : List Char) : Option (List Char × Nat) := do
  let rest ← Text.atWord? "impl" before.head? cs
  (afterAngles rest).findSome? fun rest =>
    let rest := Text.trimStart rest
    let path := rest.takeWhile fun c => isWordChar c || c == ':'
    if path.isEmpty then none
    else
      (afterAngles (rest.drop path.length)).findSome? fun rest =>
        (afterFor? rest).map fun after => (path, cs.length - after.length)

/-! ### All files -/

def declared (f : AuditFile) : List (String × Nat) :=
  let named (m : Mark NamedAt) : String × Nat :=
    (String.ofList m.kind.name, m.start + m.kind.distance)
  match f.family with
  | .python =>
      (Mark.scan pythonClass? f.masked).filterMap fun m =>
        if (baseList m.kind.2).any isAbstractBase then
          some (String.ofList m.kind.1.name, m.start + m.kind.1.distance)
        else none
  | .curly => (Mark.scan curlyAbstract? f.masked).map named
  | .rust => (Mark.scan rustTrait? f.masked).map named

def implemented (f : AuditFile) : List String :=
  let names : List (List Char) := match f.family with
    | .python =>
        (Mark.scan pythonClass? f.masked).flatMap fun m =>
          ((baseList m.kind.2).filter (!·.contains '=')).map baseName
    | .curly => (Mark.scan heritage? f.masked).flatMap fun m => heritageNames m.kind
    | .rust => (Mark.scan rustImpl? f.masked).map fun m => Callee.lastSegment m.kind
  names.map String.ofList

def addFirst (found : List (String × String × Nat)) (path : String) (d : String × Nat) :
    List (String × String × Nat) :=
  if found.any (·.1 == d.1) then found else found ++ [(d.1, path, d.2)]

/-- The abstract types of a family in the order of their names; of several declarations of one name
the first counts. -/
def ofFamily (files : List AuditFile) (family : Family) : List AbstractType :=
  let files := files.filter (·.family == family)
  let found := files.foldl
    (fun found f => (declared f).foldl (fun found d => addFirst found f.file.path d) found) []
  let names := files.flatMap implemented
  sortWith (fun a b => compare a.name b.name)
    (found.map fun (name, path, offset) => ⟨name, path, offset, names.count name⟩)

end AbstractType

end CodeAtlas
