import CodeAtlas.Index.Mark
import CodeAtlas.Reference.FileScope
import CodeAtlas.Reference.UseTree
import CodeAtlas.Source.LogicalLine
import CodeAtlas.Source.Mask

/-!
The references to other files that a file writes down: module declarations, uses and imports.
-/

namespace CodeAtlas

structure Reference where
  written : String
  kind : LinkKind
  line : Nat
  deriving Repr, DecidableEq

namespace Reference

/-! ### Rust -/

def rustModule? (before cs : List Char) : Option (List Char × Nat) := do
  let rest ← Text.atWord? "mod" before.head? cs >>= Text.blanks1?
  let (name, rest) ← Text.name? rest
  let rest ← Text.after? [';'] (Text.trimStart rest)
  return (name, cs.length - rest.length)

/-- Are the braces of a use tree one group: the first one opens and the last one closes? -/
def isOneGroup (tree : List Char) : Bool :=
  let braces := tree.filter fun c => c == '{' || c == '}'
  match braces with
  | [] => true
  | first :: _ => first == '{' && braces.getLast? == some '}'

def rustUse? (before cs : List Char) : Option (List Char × Nat) := do
  if before.head?.any (fun c => isWordChar c || c == ':') then none
  else
    let rest ← Text.after? "use".toList cs >>= Text.blanks1?
    let tree := rest.takeWhile (· != ';')
    let rest ← Text.after? [';'] (rest.drop tree.length)
    if isOneGroup tree then some (tree, cs.length - rest.length) else none

def ofRust (lines : LineMap) (masked : List Char) : List Reference :=
  let modules := (Mark.scan rustModule? masked).map fun m =>
    ⟨String.ofList m.kind, .module, lines.lineOf m.start⟩
  let uses := (Mark.scan rustUse? masked).flatMap fun m =>
    (UseTree.paths m.kind).map fun path => ⟨path, .use, lines.lineOf m.start⟩
  modules ++ uses

/-! ### TypeScript and JavaScript -/

/-- The length of a text up to and with the quote that follows `rest`, blanks aside. -/
def upToQuote? (cs rest : List Char) : Option (Unit × Nat) :=
  match Text.trimStart rest with
  | c :: rest => if c == '\'' || c == '"' then some ((), cs.length - rest.length) else none
  | [] => none

def isImportClause (c : Char) : Bool :=
  !(c == '\'' || c == '"' || c == ';' || c == '`')

def importFrom? (before cs : List Char) : Option (Unit × Nat) := do
  let rest ← Text.atWord? "import" before.head? cs
  let blank ← rest.head?
  if !isBlank blank then none
  else
    let clause := rest.takeWhile isImportClause
    let found ← upToQuote? cs (rest.drop clause.length)
    let lead ← Text.after? "morf".toList (Text.trimEnd clause).reverse
    if lead.isEmpty || lead.head?.any isWordChar then none else some found

def importBare? (before cs : List Char) : Option (Unit × Nat) := do
  let rest ← Text.atWord? "import" before.head? cs
  upToQuote? cs rest

def fromQuote? (cs rest : List Char) : Option (Unit × Nat) := do
  let rest ← Text.after? "from".toList (Text.trimStart rest)
  upToQuote? cs rest

def nameThenFrom? (cs : List Char) : (fuel : Nat) → List Char → Option (Unit × Nat)
  | 0, _ => none
  | fuel + 1, rest =>
      match fromQuote? cs (rest.drop (fuel + 1)) with
      | some found => some found
      | none => nameThenFrom? cs fuel rest

def renamedFrom? (cs rest : List Char) : Option (Unit × Nat) := do
  let rest ← Text.blanks1? rest
  let rest ← Text.after? "as".toList rest >>= Text.blanks1?
  nameThenFrom? cs (rest.takeWhile isDollarWordChar).length rest

def exportFrom? (before cs : List Char) : Option (Unit × Nat) := do
  let rest ← Text.atWord? "export" before.head? cs >>= Text.blanks1?
  let rest := (Text.after? "type".toList rest >>= Text.blanks1?).getD rest
  match rest with
  | '*' :: rest => (renamedFrom? cs rest).or (fromQuote? cs rest)
  | '{' :: rest => do
      let rest ← Text.after? ['}'] (rest.dropWhile (· != '}'))
      fromQuote? cs rest
  | _ => none

def callQuote? (word : String) (before cs : List Char) : Option (Unit × Nat) := do
  let rest ← Text.atWord? word before.head? cs
  let rest ← Text.after? ['('] (Text.trimStart rest)
  upToQuote? cs rest

/-- The import at a match that ends with an opening quote: the text between the quotes, if they are
on one line and it is not blank. -/
def quoted? (lines : LineMap) (text masked : List Char) (m : Mark Unit) :
    Option (Nat × Reference) := do
  let pos := m.stop - 1
  let quote ← (masked.drop pos).head?
  let body := (masked.drop m.stop).takeWhile fun c => c != quote && c != '\n'
  let close ← (masked.drop (m.stop + body.length)).head?
  let path := Text.trim ((text.drop m.stop).take body.length)
  if close != quote || path.isEmpty then none
  else some (pos, ⟨String.ofList path, .imports, lines.lineOf m.start⟩)

def addQuoted (found : List (Nat × Reference)) (r : Nat × Reference) : List (Nat × Reference) :=
  if found.any (·.1 == r.1) then found else found ++ [r]

def ofCurly (lines : LineMap) (text masked : List Char) : List Reference :=
  let readers := [importFrom?, importBare?, exportFrom?, callQuote? "require", callQuote? "import"]
  let found := readers.flatMap fun read =>
    (Mark.scan read masked).filterMap (quoted? lines text masked)
  (sortWith (fun a b => compare a.1 b.1) (found.foldl addQuoted [])).map (·.2)

/-! ### Python -/

def importedNames (clause : List Char) : List (List Char) :=
  let isParen (c : Char) : Bool := c == '(' || c == ')'
  let inner := Text.dropEndWhile isParen ((Text.trim clause).dropWhile isParen)
  let names := (Text.splitBy (· == ',') (Text.trim inner)).map fun part =>
    Text.trim (Text.dropAlias (Text.trim part))
  names.filter fun name => !name.isEmpty && name != ['*']

/-- The clause after a word `import`: blanks and at least one more character, which may be the last
of the blanks. -/
def importClause? (cs : List Char) : Option (List Char) := do
  let rest ← Text.after? "import".toList cs
  match rest with
  | c :: d :: more =>
      if !isBlank c then none
      else
        let clause := Text.trimStart (d :: more)
        some (if clause.isEmpty then [' '] else clause)
  | _ => none

def fromLine? (cs : List Char) : Option (List Char × List Char) := do
  let rest ← Text.after? "from".toList cs >>= Text.blanks1?
  let first ← rest.head?
  if first == '.' || isNameStart first then
    let name := rest.takeWhile fun c => isWordChar c || c == '.'
    let rest ← Text.blanks1? (rest.drop name.length)
    let clause ← importClause? rest
    return (name, clause)
  else none

def ofPythonLine (line : LogicalLine) : List Reference :=
  let text := line.text.map fun c => if c == '\\' then ' ' else c
  let one (name : List Char) : Reference := ⟨String.ofList name, .imports, line.line⟩
  match fromLine? text with
  | some (name, clause) =>
      if name.all (· == '.') then (importedNames clause).map fun n => one (name ++ n)
      else [one name]
  | none => ((importClause? text).getD []) |> importedNames |>.map one

def ofPython (masked : List Char) : List Reference :=
  (LogicalLine.ofText masked).1.flatMap ofPythonLine

/-! ### All families -/

def ofFile (file : SourceFile) : Except UnsupportedLanguage (List Reference) := do
  let family ← file.language.family
  let masked := mask family file.text
  let lines := LineMap.ofText file.text
  return match family with
    | .rust => ofRust lines masked
    | .curly => ofCurly lines file.text masked
    | .python => ofPython masked

end Reference

end CodeAtlas
