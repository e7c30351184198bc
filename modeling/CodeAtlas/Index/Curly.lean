import CodeAtlas.Index.Block
import CodeAtlas.Source.Expression

/-!
Declarations of TypeScript and JavaScript source: functions, class members, arrow functions bound
to a name, inline modules, and which of them are exported.
-/

namespace CodeAtlas.Curly

/-! ### Values bound to a name -/

/-- What a name is bound to. Offsets are counted from the start of the value. -/
inductive BoundValue where
  | function (offset : Nat)
  | arrowBlock (brace : Nat)
  | arrowExpression (start stop : Nat)
  | other
  deriving Repr, DecidableEq

/-- How the value starts: with parameters in brackets, with a single parameter and an arrow (the
rest after the arrow), or with the word `function`. -/
inductive ValueHead where
  | params (rest : List Char)
  | arrow (rest : List Char)
  | function (rest : List Char)

/-- The head of a function value at the start of a text, the word `async` aside. -/
def plainHead? (cs : List Char) : Option ValueHead :=
  match cs with
  | '(' :: _ => some (.params cs)
  | _ =>
      let single := do
        let (_, rest) ← Text.dollarName? cs
        Text.after? ['=', '>'] (Text.trimStart rest)
      match single with
      | some rest => some (.arrow rest)
      | none => (Text.wholeWord? "function" none cs).map fun _ => .function cs

def valueHead? (cs : List Char) : Option ValueHead :=
  match (Text.after? "async".toList cs >>= Text.blanks1?) >>= plainHead? with
  | some head => some head
  | none => plainHead? cs

/-- The rest after the arrow of a return type annotation: the first arrow before a brace or
semicolon. -/
def afterAnnotatedArrow? : List Char → Option (List Char)
  | [] => none
  | '=' :: '>' :: cs => some cs
  | c :: cs => if c == ';' || c == '{' || c == '}' then none else afterAnnotatedArrow? cs

def afterArrow? (cs : List Char) : Option (List Char) :=
  match Text.trimStart cs with
  | ':' :: rest => afterAnnotatedArrow? rest
  | rest => Text.after? ['=', '>'] rest

def arrowValue (size : Nat) (rest : List Char) : BoundValue :=
  let body := Text.trimStart rest
  let start := size - body.length
  if body.head? == some '{' then .arrowBlock start
  else .arrowExpression start (start + Text.expressionLength 0 none body)

def boundValue (cs : List Char) : BoundValue :=
  match valueHead? cs with
  | none => .other
  | some (.function rest) => .function (cs.length - rest.length)
  | some (.arrow rest) => arrowValue cs.length rest
  | some (.params rest) =>
      match Text.enclosed? rest >>= fun (_, after) => afterArrow? after with
      | some rest => arrowValue cs.length rest
      | none => .other

/-! ### Marks -/

inductive MarkKind where
  | function (name : Option String)
  | classHead (name : String)
  | interfaceHead (name : String)
  | module (name : String)
  | binding (name : String) (value : BoundValue)
  | member (name : String) (nameOffset : Nat) (tags : List Tag)
  | field (name : String) (nameOffset : Nat) (tags : List Tag) (value : BoundValue)
  | opener (c : Char)
  | closer (c : Char)
  | semicolon
  deriving Repr

def readFunction? (before cs : List Char) : Option (MarkKind × Nat) := do
  let rest ← Text.wholeWord? "function" before.head? cs
  let rest := Text.trimStart rest
  let rest := match rest with
    | '*' :: rest => Text.trimStart rest
    | _ => rest
  match Text.dollarName? rest with
  | some (name, rest) => return (.function (some (String.ofList name)), cs.length - rest.length)
  | none => return (.function none, cs.length - rest.length)

def named? (word : String) (before cs : List Char) : Option (String × Nat) := do
  let rest ← Mark.wordAndBlanks? word before cs
  let (name, rest) ← Text.dollarName? rest
  return (String.ofList name, cs.length - rest.length)

/-- The head of an inline module: a dotted name right before a brace. -/
def readModule? (before cs : List Char) : Option (MarkKind × Nat) := do
  let rest ← (Mark.wordAndBlanks? "namespace" before cs).or (Mark.wordAndBlanks? "module" before cs)
  match rest with
  | c :: tail =>
      if isDollarNameStart c then
        let isPart := fun d => isDollarWordChar d || d == '.'
        let name := c :: tail.takeWhile isPart
        let rest := tail.dropWhile isPart
        if (Text.trimStart rest).head? == some '{' then
          some (.module (String.ofList name), cs.length - rest.length)
        else none
      else none
  | [] => none

/-- The rest after an optional type annotation and an equals sign that is not part of `==` or `=>`,
and the blanks behind it. `stops` says where an annotation may not go. -/
def afterEquals? (stops : Char → Bool) (cs : List Char) : Option (List Char) :=
  let rest := Text.trimStart cs
  let rest := match rest with
    | ':' :: rest => rest.dropWhile fun c => c != '=' && !stops c
    | _ => rest
  match rest with
  | '=' :: rest =>
      if rest.head? == some '=' || rest.head? == some '>' then none else some (Text.trimStart rest)
  | _ => none

/-- A `const`, `let` or `var` with a value. -/
def readBinding? (before cs : List Char) : Option (MarkKind × Nat) := do
  let rest ← ((Mark.wordAndBlanks? "const" before cs).or (Mark.wordAndBlanks? "let" before cs)).or
    (Mark.wordAndBlanks? "var" before cs)
  let (name, rest) ← Text.dollarName? rest
  let rest ← afterEquals? (fun c => c == ';' || c == '{' || c == '}') rest
  return (.binding (String.ofList name) (boundValue rest), cs.length - rest.length)

/-- The words that may stand before the name of a member. -/
def modifiers : List String :=
  ["public", "private", "protected", "static", "async", "readonly", "override", "abstract",
    "declare", "get", "set", "accessor"]

def afterModifier? (cs : List Char) : Option (List Char) :=
  modifiers.findSome? fun word => Text.after? word.toList cs >>= Text.blanks1?

/-- Read `p` after as many modifiers as possible; where that fails, the last modifier may be what
`p` reads. -/
def afterModifiers {α : Type} (p : List Char → Option α) : (fuel : Nat) → List Char → Option α
  | 0, cs => p cs
  | fuel + 1, cs =>
      match afterModifier? cs with
      | some rest => (afterModifiers p fuel rest).or (p cs)
      | none => p cs

/-- The name of a member, which may be private. Gives the text from the name on and the rest. -/
def memberName? (cs : List Char) : Option (List Char × List Char × List Char) :=
  match cs with
  | '#' :: tail => (Text.dollarName? tail).map fun (name, rest) => ('#' :: name, cs, rest)
  | _ => (Text.dollarName? cs).map fun (name, rest) => (name, cs, rest)

/-- The rest after a list of type parameters `<…>` that holds no brackets, braces or semicolons,
when one stands there. -/
def afterTypeParameters (cs : List Char) : Option (List Char) :=
  match cs with
  | '<' :: rest =>
      let isStop := fun c => c == '>' || c == '(' || c == ')' || c == '{' || c == '}' || c == ';'
      match rest.dropWhile (!isStop ·) with
      | '>' :: rest => some rest
      | _ => none
  | _ => some cs

/-- The head of a method after its modifiers: its name, the text from the name on, and the rest,
which starts with a parameter list. -/
def methodHead? (cs : List Char) : Option (List Char × List Char × List Char) := do
  let cs := match cs with
    | '*' :: rest => rest
    | _ => cs
  let (name, from_, rest) ← memberName? (Text.trimStart cs)
  let rest := Text.trimStart rest
  let rest := match rest with
    | '?' :: rest => Text.trimStart rest
    | _ => rest
  let rest ← afterTypeParameters rest
  let rest := Text.trimStart rest
  if rest.head? == some '(' then some (name, from_, rest) else none

/-- The head of a field after its modifiers: its name, the text from the name on, and the value. -/
def fieldHead? (cs : List Char) : Option (List Char × List Char × List Char) := do
  let (name, from_, rest) ← memberName? cs
  let isStop := fun c => c == ';' || c == '{' || c == '}' || c == '(' || c == ')'
  let rest ← afterEquals? isStop rest
  return (name, from_, rest)

def isLineStart (before : List Char) : Bool :=
  before.head?.all (· == '\n')

def memberTags (text : List Char) : List Tag :=
  (if Text.hasWord "async" text then [.async] else [])
    ++ (if Text.hasWord "abstract" text then [.abstract] else [])

def readMember? (before cs : List Char) : Option (MarkKind × Nat) :=
  if !isLineStart before then none
  else
    let body := cs.dropWhile fun c => c == ' ' || c == '\t'
    match afterModifiers methodHead? body.length body with
    | some (name, from_, rest) =>
        let length := cs.length - rest.length
        some (.member (String.ofList name) (cs.length - from_.length)
          (memberTags (cs.take length)), length)
    | none =>
    match afterModifiers fieldHead? body.length body with
    | some (name, from_, rest) =>
        let length := cs.length - rest.length
        some (.field (String.ofList name) (cs.length - from_.length)
          (memberTags (cs.take length)) (boundValue rest), length)
    | none => none

def readMark (before cs : List Char) : Option (MarkKind × Nat) :=
  match readFunction? before cs with
  | some r => some r
  | none =>
  match named? "class" before cs with
  | some (name, n) => some (.classHead name, n)
  | none =>
  match named? "interface" before cs with
  | some (name, n) => some (.interfaceHead name, n)
  | none =>
  match (readModule? before cs).or (readBinding? before cs) with
  | some r => some r
  | none =>
  match readMember? before cs with
  | some r => some r
  | none =>
  match cs with
  | c :: _ =>
      if isOpener c then some (.opener c, 1)
      else if isCloser c then some (.closer c, 1)
      else if c == ';' then some (.semicolon, 1)
      else none
  | [] => none

/-! ### Declarations -/

/-- Words that look like the name of a member but are not. -/
def keywords : List String :=
  ["if", "for", "while", "switch", "catch", "return", "function", "super", "new", "typeof",
    "await", "yield", "do", "else", "try", "with", "delete", "void", "import", "throw", "case",
    "in", "of", "instanceof"]

def tagsOf (scopes : List Scope) (lead : List Char) : List Tag :=
  let around := BlockState.inherited .exported scopes
  around
    ++ (if Text.hasWord "export" lead && !around.contains .exported then [.exported] else [])
    ++ (if Text.hasWord "abstract" lead then [.abstract] else [])
    ++ (if Text.hasWord "async" lead then [.async] else [])

/-- The type body that a declaration made now is directly inside of. -/
def owner? (s : BlockState) : Option (Option String × List Tag) :=
  if s.stack.head?.any (·.paren == s.paren) then s.enclosingType? else none

def entryKind (s : BlockState) : EntryKind × Option String × List Tag :=
  match owner? s with
  | some (name, tags) => (.method, name, tags)
  | none => (.function, none, [])

def lastDotted (name : String) : String :=
  String.ofList ((Text.splitBy (· == '.') name.toList).getLastD [])

def bind (s : BlockState) (p : Pending) (brace : Nat) : Scope :=
  let declare (name bare : String) (kind : EntryKind) (container : Option String)
      (tags : List Tag) : Declaration :=
    ⟨BlockState.qualify "." s.scopes name, bare, kind, container, p.declOffset, brace + 1, 0, tags⟩
  match p.head with
  | .type name => .type (some name) p.tags
  | .implementation _ _ => .block
  | .module name => .module name (declare name (lastDotted name) .module none p.tags)
  | .entry name =>
      let (kind, container, ownerTags) := entryKind s
      let tags := p.tags
        ++ (if ownerTags.contains .exported && !p.tags.contains .exported then [.exported] else [])
        ++ (if name == "constructor" && kind == .method then [.constructor] else [])
      .entry (declare name name kind container tags)

def bindValue (s : BlockState) (name : String) (declAt valueAt : Nat) (tags : List Tag) :
    BoundValue → BlockState
  | .other => s
  | .function offset => { s with bound := (valueAt + offset, name, declAt, tags) :: s.bound }
  | .arrowBlock brace =>
      { s with pending := some ⟨.entry name, declAt, s.paren, tags, some (valueAt + brace)⟩ }
  | .arrowExpression start stop =>
      let (kind, container, ownerTags) := entryKind s
      s.close
        ⟨BlockState.qualify "." s.scopes name, name, kind, container, declAt, valueAt + start, 0,
          tags ++ ownerTags.filter (!tags.contains ·)⟩
        (valueAt + stop)

def inClassBody (s : BlockState) : Bool :=
  (owner? s).any (·.2.contains .classBody)

def step (lines : LineMap) (s : BlockState) (m : Mark MarkKind) : BlockState :=
  let wait (head : Head) (declAt : Nat) (tags : List Tag) : BlockState :=
    { s with pending := some ⟨head, declAt, s.paren, tags, none⟩ }
  match m.kind with
  | .function name =>
      match s.bound.lookup m.start with
      | some (name, declAt, tags) =>
          { wait (.entry name) declAt tags with bound := s.bound.filter (·.1 != m.start) }
      | none =>
          match name with
          | some name => wait (.entry name) m.start (tagsOf s.scopes m.lead)
          | none => s
  | .classHead name => wait (.type name) m.start (.classBody :: tagsOf s.scopes m.lead)
  | .interfaceHead name => wait (.type name) m.start (.interfaceBody :: tagsOf s.scopes m.lead)
  | .module name => wait (.module name) m.start (tagsOf s.scopes m.lead)
  | .binding name value => bindValue s name m.start m.stop (tagsOf s.scopes m.lead) value
  | .member name nameOffset tags =>
      if inClassBody s && !keywords.contains name then
        wait (.entry name) (m.start + nameOffset) tags
      else s
  | .field name nameOffset tags value =>
      if inClassBody s && !keywords.contains name then
        bindValue s name (m.start + nameOffset) m.stop tags value
      else s
  | .opener c => s.openBracket bind c m.start
  | .closer c => s.closeBracket lines c m.start
  | .semicolon => s.semicolon

/-! ### Exports -/

/-- All results of `read` in a text, from the left and without overlap. `read` gets the character
before a place and the text from there, and gives a result and its length. -/
def findAllFrom {α : Type} (read : Option Char → List Char → Option (α × Nat)) :
    (skip : Nat) → (before : Option Char) → List Char → List α
  | _, _, [] => []
  | skip + 1, _, c :: cs => findAllFrom read skip (some c) cs
  | 0, before, c :: cs =>
      match read before (c :: cs) with
      | some (a, length) => a :: findAllFrom read (length - 1) (some c) cs
      | none => findAllFrom read 0 (some c) cs

def braceList? (size : Nat) (cs : List Char) : Option (List Char × Nat) := do
  let rest ← Text.after? ['{'] (Text.trimStart cs)
  let body := rest.takeWhile (· != '}')
  let rest ← Text.after? ['}'] (rest.drop body.length)
  return (body, size - rest.length)

def exportList? (before : Option Char) (cs : List Char) : Option (List Char × Nat) := do
  let rest ← Text.atWord? "export" before cs
  braceList? cs.length rest

def exportObject? (before : Option Char) (cs : List Char) : Option (List Char × Nat) := do
  let rest ← Text.atWord? "module.exports" before cs
  let rest ← Text.after? ['='] (Text.trimStart rest)
  braceList? cs.length rest

def exportOne? (before : Option Char) (cs : List Char) : Option (List Char × Nat) := do
  let rest ← (Text.atWord? "module.exports." before cs).or (Text.atWord? "exports." before cs)
  let (name, rest) ← Text.dollarName? rest
  let rest ← Text.after? ['='] (Text.trimStart rest)
  return (name, cs.length - rest.length)

def exportDefault? (before : Option Char) (cs : List Char) : Option (List Char × Nat) := do
  let rest ← Text.atWord? "module.exports" before cs
  let rest ← Text.after? ['='] (Text.trimStart rest)
  let (name, rest) ← Text.dollarName? (Text.trimStart rest)
  return (name, cs.length - rest.length)

def endsItemName (_ : Option Char) (cs : List Char) : Bool :=
  (Text.trimStart cs).head? == some ':' ||
    ((do
      let rest ← Text.blanks1? cs
      let rest ← Text.after? "as".toList rest
      Text.blanks1? rest) : Option (List Char)).isSome

def itemName (item : List Char) : List Char :=
  match Text.breakAt endsItemName none item with
  | some (name, _) => Text.trim name
  | none => Text.trim item

def exportedNames (masked : List Char) : List String :=
  let lists := findAllFrom exportList? 0 none masked ++ findAllFrom exportObject? 0 none masked
  let items := (lists.flatMap (Text.splitBy (· == ','))).map Text.trim
  let listed := (items.filter (!·.isEmpty)).map itemName
  (listed ++ findAllFrom exportOne? 0 none masked ++ findAllFrom exportDefault? 0 none masked).map
    String.ofList

def markExported (names : List String) (d : Declaration) : Declaration :=
  if d.container.isNone && names.contains d.bareName && !d.tags.contains .exported then
    { d with tags := d.tags ++ [.exported] }
  else d

def declarations (masked : List Char) : FileScan :=
  let lines := LineMap.ofText masked
  let s := ((Mark.scan readMark masked).foldl (step lines) {}).finish lines masked.length
  ⟨s.closed.map (markExported (exportedNames masked)), s.warnings⟩

end CodeAtlas.Curly
