import CodeAtlas.Text.Word

/-!
Marked-up messages.

A tag in square brackets opens a style, and a tag with a slash closes one: the last one that is
open, or the last of the name that follows the slash. A backslash before a bracket makes the tag
plain text. A message can be shown if each of its closing tags closes something. Names of styles are
compared by what they stand for.
-/

namespace CodeAtlas.Markup

/-! ### Names of styles -/

def attributes : List String :=
  ["bold", "dim", "italic", "underline", "blink", "blink2", "reverse", "conceal", "strike",
    "underline2", "frame", "encircle", "overline"]

def shortNames : List (String × String) :=
  [("b", "bold"), ("d", "dim"), ("i", "italic"), ("u", "underline"), ("r", "reverse"),
    ("c", "conceal"), ("s", "strike"), ("uu", "underline2"), ("o", "overline")]

def attribute? (word : String) : Option String :=
  if attributes.contains word then some word else shortNames.lookup word

def colours : List String :=
  let plain := ["black", "red", "green", "yellow", "blue", "magenta", "cyan", "white"]
  "default" :: plain ++ plain.map ("bright_" ++ ·)

def isByte (cs : List Char) : Bool :=
  !cs.isEmpty && cs.length ≤ 3 && cs.all Char.isDigit
    && cs.foldl (fun n c => 10 * n + (c.toNat - '0'.toNat)) 0 ≤ 255

def inBrackets? (word : String) (cs : List Char) : Option (List Char) := do
  let rest ← Text.after? (word ++ "(").toList cs
  if rest.getLast? == some ')' then some rest.dropLast else none

/-- Does a word in small letters name a colour: by its name, its number or its parts? -/
def isColour (word : String) : Bool :=
  let cs := word.toList
  let isHex (c : Char) : Bool := c.isDigit || ('a' ≤ c && c ≤ 'f')
  colours.contains word
    || (cs.length == 7 && cs.head? == some '#' && (cs.drop 1).all isHex)
    || (inBrackets? "color" cs).any isByte
    || ((inBrackets? "rgb" cs).map (Text.splitBy (· == ','))).any fun parts =>
        parts.length == 3 && parts.all isByte

/-- A style: which attributes are set or taken away, its colours, and where it leads to. -/
structure Style where
  attributes : List (String × Bool) := []
  colour : Option String := none
  background : Option String := none
  link : Option String := none

namespace Style

def ofWords? (s : Style) : List String → Option Style
  | [] => some s
  | word :: rest =>
      let small := word.map Char.toLower
      match small, rest with
      | "on", colour :: rest =>
          let colour := colour.map Char.toLower
          if isColour colour then ofWords? { s with background := some colour } rest else none
      | "on", [] => none
      | "not", name :: rest => do
          ofWords? { s with attributes := (← attribute? name, false) :: s.attributes } rest
      | "not", [] => none
      | "link", target :: rest => ofWords? { s with link := some target } rest
      | "link", [] => none
      | small, rest =>
          match attribute? small with
          | some name => ofWords? { s with attributes := (name, true) :: s.attributes } rest
          | none => if isColour small then ofWords? { s with colour := some small } rest else none

def name (s : Style) : String :=
  let attributes := Markup.attributes.filterMap fun a =>
    (s.attributes.lookup a).map fun isSet => if isSet then a else "not " ++ a
  let parts := attributes ++ s.colour.toList ++ (s.background.map ("on " ++ ·)).toList
    ++ (s.link.map ("link " ++ ·)).toList
  if parts.isEmpty then "none" else " ".intercalate parts

end Style

def styleName (text : List Char) : String :=
  let words := (Text.fields text).map String.ofList
  let words := if words == ["none"] then [] else words
  match Style.ofWords? {} words with
  | some style => style.name
  | none => String.ofList ((Text.trim text).map Char.toLower)

/-! ### Tags -/

def startsTag (c : Char) : Bool :=
  ('a' ≤ c && c ≤ 'z') || c == '#' || c == '/' || c == '@'

def tag? (cs : List Char) : Option (List Char × List Char) :=
  let text := cs.takeWhile fun c => c != '[' && c != ']'
  match cs.drop text.length with
  | ']' :: rest => if text.head?.any startsTag then some (text, rest) else none
  | _ => none

/-- The tags of a message. The count is that of the backslashes just before; an odd one makes a tag
plain text. `fuel` bounds the length. -/
def tags : (fuel : Nat) → (backslashes : Nat) → List Char → List (List Char)
  | 0, _, _ => []
  | _ + 1, _, [] => []
  | fuel + 1, backslashes, c :: rest =>
      match c, tag? rest with
      | '[', some (text, rest) =>
          if backslashes % 2 == 0 then text :: tags fuel 0 rest else tags fuel 0 rest
      | c, _ => tags fuel (if c == '\\' then backslashes + 1 else 0) rest

/-- A style that is open: its name, and the value behind the equals sign of its tag. -/
structure OpenStyle where
  name : String
  value : Option (List Char)

/-- Can a style be closed? The value of one whose name starts with an at sign is a dotted word with
brackets behind it, or there is none. -/
def OpenStyle.isClosable (s : OpenStyle) : Bool :=
  match s.name.toList, s.value.map Text.trim with
  | '@' :: _, some value =>
      let rest := value.dropWhile fun c => isWordChar c || c == '.'
      rest.isEmpty || (rest.head? == some '(' && rest.getLast? == some ')')
  | _, _ => true

def close? (name : String) : List OpenStyle → Option (List OpenStyle)
  | [] => none
  | s :: rest =>
      if s.name == name then (if s.isClosable then some rest else none)
      else (close? name rest).map (s :: ·)

def step? (styles : List OpenStyle) (tag : List Char) : Option (List OpenStyle) :=
  let name := tag.takeWhile (· != '=')
  let value := if name.length < tag.length then some (tag.drop (name.length + 1)) else none
  match name with
  | '/' :: name =>
      if Text.isAllBlank name then
        match styles with
        | s :: rest => if s.isClosable then some rest else none
        | [] => none
      else close? (styleName name) styles
  | name => some (⟨styleName name, value⟩ :: styles)

def isShowable (message : String) : Bool :=
  let cs := message.toList
  ((tags (cs.length + 1) 0 cs).foldlM step? []).isSome

def coloured (colour text : String) : String :=
  "[" ++ colour ++ "]" ++ text ++ "[/" ++ colour ++ "]"

end CodeAtlas.Markup
