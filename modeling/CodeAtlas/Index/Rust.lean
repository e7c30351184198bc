import CodeAtlas.Index.Block

/-!
Declarations of Rust source: functions, methods of `impl` and `trait` blocks, inline modules.
-/

namespace CodeAtlas.Rust

/-- The text after a leading list of generic parameters `<…>`. The tip of an arrow closes nothing.
A list that is never closed takes the whole text. -/
def afterGenericsFrom : (depth : Nat) → (prev : Option Char) → List Char → List Char
  | _, _, [] => []
  | depth, prev, c :: cs =>
      if c == '<' then afterGenericsFrom (depth + 1) (some c) cs
      else if c == '>' && prev != some '-' then
        if depth ≤ 1 then cs else afterGenericsFrom (depth - 1) (some c) cs
      else afterGenericsFrom depth (some c) cs

def afterGenerics (cs : List Char) : List Char :=
  let cs := Text.trimStart cs
  if cs.head? == some '<' then afterGenericsFrom 0 none cs else cs

/-- The text before the first whole word `where`. -/
def beforeWhere (cs : List Char) : List Char :=
  match Text.breakAt (fun before rest => (Text.wholeWord? "where" before rest).isSome) none cs with
  | some (pre, _) => pre
  | none => cs

/-- The type after `for` at a place. A list of generic parameters right after a single blank is a
lifetime binder, and the word does not count then. -/
def forType? (before : Option Char) (cs : List Char) : Option (List Char) := do
  if before.any isWordChar then none
  else
    let rest ← Text.after? "for".toList cs
    let blanks := rest.takeWhile isBlank
    let type := rest.drop blanks.length
    match blanks, type with
    | [], _ => none
    | [_], [] => none
    | [_], '<' :: _ => none
    | _, _ => some type

/-- The type of an implementation of a trait: what follows the first `for` that counts. -/
def implementedFor? (cs : List Char) : Option (List Char) := do
  let (pre, post) ← Text.breakAt (fun before rest => (forType? before rest).isSome) none cs
  forType? pre.getLast? post

/-- The rest after one of the words that may stand before a type name, and its blanks. -/
def typeModifier? (cs : List Char) : Option (List Char) :=
  match Text.after? "mut".toList cs >>= Text.blanks1? with
  | some rest => some rest
  | none =>
  match Text.after? "dyn".toList cs >>= Text.blanks1? with
  | some rest => some rest
  | none =>
  match cs with
  | '\'' :: rest =>
      let lifetime := rest.takeWhile isWordChar
      if lifetime.isEmpty then none else Text.blanks1? (rest.drop lifetime.length)
  | _ => none

def dropTypeModifiers : (fuel : Nat) → List Char → List Char
  | 0, cs => cs
  | fuel + 1, cs =>
      match typeModifier? cs with
      | some rest => dropTypeModifiers fuel rest
      | none => cs

def lastPathName? : (fuel : Nat) → List Char → Option (List Char)
  | 0, _ => none
  | fuel + 1, cs => do
      let (name, rest) ← Text.name? cs
      match Text.after? [':', ':'] (Text.trimStart rest) with
      | some rest => some ((lastPathName? fuel (Text.trimStart rest)).getD name)
      | none => some name

/-- The type that an `impl` header is for, and whether it implements a trait. The header is the
text between the word `impl` and the body. -/
def implTarget (header : List Char) : Option String × Bool :=
  let head := beforeWhere (afterGenerics header)
  let type? := implementedFor? head
  let type := Text.trim ((Text.trim (type?.getD head)).dropWhile (· == '&'))
  let type := dropTypeModifiers type.length type
  ((lastPathName? (type.length + 1) type).map String.ofList, type?.isSome)

inductive MarkKind where
  | function (name : String)
  | implementation (isItem : Bool) (rest : List Char)
  | trait (name : String)
  | module (name : String)
  | opener (c : Char)
  | closer (c : Char)
  | semicolon
  deriving Repr

/-- Does an item start at a place? The characters before it are given last first: there are none,
or the item follows a brace, a semicolon, an attribute, or the word `unsafe` or `default`. -/
def isItemStart (before : List Char) : Bool :=
  match before.dropWhile isBlank with
  | [] => true
  | c :: cs =>
      if c == '{' || c == '}' || c == ';' || c == ']' then true
      else
        let word := String.ofList ((c :: cs).takeWhile isWordChar).reverse
        word == "unsafe" || word == "default"

def named? (word : String) (before cs : List Char) : Option (String × Nat) := do
  let rest ← Mark.wordAndBlanks? word before cs
  let (name, rest) ← Text.name? rest
  return (String.ofList name, cs.length - rest.length)

def readMark (before cs : List Char) : Option (MarkKind × Nat) :=
  match named? "fn" before cs with
  | some (name, n) => some (.function name, n)
  | none =>
  match Text.wholeWord? "impl" before.head? cs with
  | some rest => some (.implementation (isItemStart before) rest, 4)
  | none =>
  match named? "trait" before cs with
  | some (name, n) => some (.trait name, n)
  | none =>
  match named? "mod" before cs with
  | some (name, n) => some (.module name, n)
  | none =>
  match cs with
  | c :: _ =>
      if isOpener c then some (.opener c, 1)
      else if isCloser c then some (.closer c, 1)
      else if c == ';' then some (.semicolon, 1)
      else none
  | [] => none

/-- Does a path whose last name is `test` stand at the start of a text? -/
def isTestPath : (fuel : Nat) → List Char → Bool
  | 0, _ => false
  | fuel + 1, cs =>
      (Text.wholeWord? "test" none cs).isSome ||
        (let word := cs.takeWhile isWordChar
         !word.isEmpty &&
          (match Text.after? [':', ':'] (Text.trimStart (cs.drop word.length)) with
           | some rest => isTestPath fuel (Text.trimStart rest)
           | none => false))

/-- The contents of an attribute `#[…]` that starts at a place. -/
def attribute? (cs : List Char) : Option (List Char) := do
  let rest ← Text.after? ['#'] cs
  let rest ← Text.after? ['['] (Text.trimStart rest)
  return Text.trimStart rest

def hasTestAttribute (cs : List Char) : Bool :=
  Text.anyPlace (fun _ rest =>
    match attribute? rest with
    | some inside => isTestPath inside.length inside
    | none => false) cs

def isCfgTest (cs : List Char) : Bool :=
  ((do
    let rest ← attribute? cs
    let rest ← Text.after? "cfg".toList rest
    let rest ← Text.after? ['('] (Text.trimStart rest)
    let rest ← Text.after? "test".toList (Text.trimStart rest)
    let rest ← Text.after? [')'] (Text.trimStart rest)
    Text.after? [']'] (Text.trimStart rest)) : Option (List Char)).isSome

def tagsOf (scopes : List Scope) (lead : List Char) : List Tag :=
  let around := BlockState.inherited .test scopes
  around
    ++ (if hasTestAttribute lead && !around.contains .test then [.test] else [])
    ++ (if Text.hasWord "pub" lead then [.pub] else [])
    ++ (if Text.hasWord "async" lead then [.async] else [])

def bind (s : BlockState) (p : Pending) (brace : Nat) : Scope :=
  let scopes := s.scopes
  let declare (name : String) (kind : EntryKind) (container : Option String) (tags : List Tag) :
      Declaration :=
    ⟨BlockState.qualify "::" scopes name, name, kind, container, p.declOffset, brace + 1, 0, tags⟩
  match p.head with
  | .implementation start text =>
      let (target, ofTrait) := implTarget (text.take (brace - start))
      .type target ((if ofTrait then [.traitImpl] else []) ++ BlockState.inherited .test scopes)
  | .type name => .type (some name) p.tags
  | .module name => .module name (declare name .module none p.tags)
  | .entry name =>
      match s.enclosingType? with
      | some (owner, ownerTags) =>
          let tags := p.tags ++ ownerTags.filter fun t => t == .traitImpl || t == .trait
          .entry (declare name .method owner tags)
      | none => .entry (declare name .function none p.tags)

/-- Take one mark. A function inside the brackets of a pending head is part of that head. -/
def step (lines : LineMap) (s : BlockState) (m : Mark MarkKind) : BlockState :=
  let wait (head : Head) (tags : List Tag) : BlockState :=
    { s with pending := some ⟨head, m.start, s.paren, tags, none⟩ }
  match m.kind with
  | .function name =>
      if s.pending.all (s.paren ≤ ·.paren) then wait (.entry name) (tagsOf s.scopes m.lead) else s
  | .implementation isItem rest => if isItem then wait (.implementation m.stop rest) [] else s
  | .trait name => wait (.type name) (.trait :: tagsOf s.scopes m.lead)
  | .module name =>
      let cfgTest := Text.anyPlace (fun _ rest => isCfgTest rest) m.lead
      wait (.module name) (tagsOf s.scopes m.lead ++ if cfgTest then [.test] else [])
  | .opener c => s.openBracket bind c m.start
  | .closer c => s.closeBracket lines c m.start
  | .semicolon => s.semicolon

def declarations (masked : List Char) : FileScan :=
  let lines := LineMap.ofText masked
  let s := ((Mark.scan readMark masked).foldl (step lines) {}).finish lines masked.length
  ⟨s.closed, s.warnings⟩

end CodeAtlas.Rust
