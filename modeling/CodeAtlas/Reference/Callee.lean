import CodeAtlas.Text.Word

/-!
Callees: what is written before the opening bracket of a call.
-/

namespace CodeAtlas

inductive Receiver where
  | bare
  | own
  | parent
  | qualified (qualifier : String)
  | unknown
  deriving Repr, DecidableEq

namespace Receiver

def text : Receiver → String
  | bare => "bare"
  | own => "self"
  | parent => "super"
  | qualified _ => "qualified"
  | unknown => "unknown"

def qualifier? : Receiver → Option String
  | qualified q => some q
  | _ => none

end Receiver

structure Callee where
  name : String
  receiver : Receiver
  deriving Repr, DecidableEq

namespace Callee

/-- The segments of a path between dots, optional-chaining dots and double colons. -/
def segments : List Char → List (List Char)
  | [] => [[]]
  | '?' :: '.' :: cs => [] :: segments cs
  | '.' :: cs => [] :: segments cs
  | ':' :: ':' :: cs => [] :: segments cs
  | c :: cs => Text.consFirst c (segments cs)

def lastSegment (path : List Char) : List Char :=
  Text.trim ((segments (Text.trim path)).getLastD [])

/-! ### Paths of names in source text -/

/-- The rest after one segment of a path, whose first character is of class `isStart`. -/
def afterSegment? (isStart : Char → Bool) (cs : List Char) : Option (List Char) :=
  match cs with
  | c :: rest => if isStart c then some (rest.dropWhile isDollarWordChar) else none
  | [] => none

def afterSeparator? : List Char → Option (List Char)
  | '?' :: '.' :: cs => some cs
  | '.' :: cs => some cs
  | ':' :: ':' :: cs => some cs
  | _ => none

/-- The rest after as many further segments as there are, blanks around the separators allowed;
`fuel` bounds their number. -/
def afterSegments (isStart : Char → Bool) : (fuel : Nat) → List Char → List Char
  | 0, cs => cs
  | fuel + 1, cs =>
      let next := afterSeparator? (Text.trimStart cs) >>= fun rest =>
        afterSegment? isStart (Text.trimStart rest)
      match next with
      | some rest => afterSegments isStart fuel rest
      | none => cs

def afterPath? (isStart : Char → Bool) (cs : List Char) : Option (List Char) :=
  (afterSegment? isStart cs).map (afterSegments isStart cs.length)

/-! ### Reading a callee -/

/-- The text without type arguments: each runs from a double colon and an opening angle bracket to
the next closing one. `inside` says that such a stretch is being passed. -/
def dropTypeArguments : (inside : Bool) → List Char → List Char
  | _, [] => []
  | true, c :: cs => dropTypeArguments (c != '>') cs
  | false, ':' :: ':' :: '<' :: cs =>
      if cs.contains '>' then dropTypeArguments true cs
      else ':' :: ':' :: '<' :: dropTypeArguments false cs
  | false, c :: cs => c :: dropTypeArguments false cs

def ofSegments (parts : List String) : Callee :=
  match parts.reverse with
  | [] => ⟨"", .bare⟩
  | [name] => ⟨name, .bare⟩
  | name :: qualifier :: _ =>
      let first := parts.headD ""
      if first == "super" || first == "super()" then ⟨name, .parent⟩
      else if parts.length == 2 && ["self", "this", "Self"].contains first then ⟨name, .own⟩
      else ⟨name, .qualified qualifier⟩

/-- Read a callee, blanks and type arguments aside. A path from `self` into the current module is a
plain name. -/
def parse (written : List Char) : Callee :=
  let text := dropTypeArguments false (written.filter (!isBlank ·))
  match text with
  | '.' :: _ => ⟨String.ofList (text.dropWhile (· == '.')), .unknown⟩
  | _ =>
      match Text.after? "self::".toList text with
      | some rest =>
          if Text.contains rest [':', ':'] then ofSegments ((segments text).map String.ofList)
          else ⟨String.ofList rest, .bare⟩
      | none => ofSegments ((segments text).map String.ofList)

end Callee

end CodeAtlas
