import CodeAtlas.Text.Blank

/-!
One-line previews of source text.
-/

namespace CodeAtlas.Text

/-- Runs of blanks become one space each, and the ends are trimmed. -/
def squeeze (cs : List Char) : List Char :=
  join [' '] (fields cs)

/-- The first `count` elements; a negative count drops that many from the end instead. -/
def takeSigned {α : Type} (count : Int) (xs : List α) : List α :=
  if 0 ≤ count then xs.take count.toNat else xs.take (xs.length - (-count).toNat)

/-- A one-line preview: a text longer than `limit` is cut to `limit - 3` characters, its trailing
blanks go, and three dots follow. A limit below three cuts from the end of the text. -/
def preview (limit : Int) (cs : List Char) : List Char :=
  let flat := squeeze cs
  if limit < flat.length then trimEnd (takeSigned (limit - 3) flat) ++ ['.', '.', '.'] else flat

def label (cs : List Char) : String :=
  String.ofList (preview 60 cs)

end CodeAtlas.Text
