/-!
Source languages.

A language tag names one of the supported languages or something else. The supported languages
fall into three families, and everything that reads source text goes by the family.
-/

namespace CodeAtlas

inductive Family where
  | rust
  | curly
  | python
  deriving Repr, DecidableEq

inductive Language where
  | rust
  | typescript
  | javascript
  | python
  | other (tag : String)
  deriving Repr, DecidableEq

namespace Language

def tag : Language → String
  | rust => "rust"
  | typescript => "typescript"
  | javascript => "javascript"
  | python => "python"
  | other tag => tag

def ofTag (tag : String) : Language :=
  if tag == "rust" then rust
  else if tag == "typescript" then typescript
  else if tag == "javascript" then javascript
  else if tag == "python" then python
  else other tag

def family? : Language → Option Family
  | rust => some .rust
  | typescript => some .curly
  | javascript => some .curly
  | python => some .python
  | other _ => none

/-- The language that a file name extension stands for, dot included and in lower case. -/
def ofExtension? (extension : String) : Option Language :=
  if extension == ".rs" then some rust
  else if [".ts", ".tsx", ".mts", ".cts"].contains extension then some typescript
  else if [".js", ".jsx", ".mjs", ".cjs"].contains extension then some javascript
  else if [".py", ".pyi"].contains extension then some python
  else none

end Language

structure UnsupportedLanguage where
  tag : String
  deriving Repr, DecidableEq

namespace UnsupportedLanguage

def message (e : UnsupportedLanguage) : String :=
  "Unsupported language tag: " ++ e.tag

end UnsupportedLanguage

def Language.family (l : Language) : Except UnsupportedLanguage Family :=
  match l.family? with
  | some f => .ok f
  | none => .error ⟨l.tag⟩

end CodeAtlas
