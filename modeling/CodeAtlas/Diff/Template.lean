import CodeAtlas.Diff.Document
import CodeAtlas.Diff.Format

/-!
The template of a mapping: one blank entry per removed node, for a person to fill in.
-/

namespace CodeAtlas.Diff

def moveComment (m : Move String) : String :=
  "# suggested: " ++ m.source ++ " -> " ++ m.target ++ " (" ++ m.reason ++ ", score "
    ++ toString m.score ++ ")"

/-- The mapping template of a difference; proposed moves are comments only. -/
def template (format : MappingFormat) (d : Diff String) : String :=
  let head := "# Explain every removed node before running with --require-mapping."
  "\n".intercalate (head :: d.moves.map moveComment) ++ "\n"
    ++ format.write (Mapping.blank (sortedDistinct d.removedNodes))

end CodeAtlas.Diff
