import CodeAtlas.Diff.Mapping
import CodeAtlas.Yaml.Document
import CodeAtlas.Yaml.Writer

/-!
The format of mapping files.

A format writes a mapping as a document that holds it under the key `mappings`, and reads a text as
a document. Templates and mapping files go through a format and know nothing else of it.
-/

namespace CodeAtlas

structure MappingFormat where
  write : Mapping → String
  read : List Char → Except Yaml.Fault Yaml.Document

/-- YAML. Only blank mappings are ever written, so it writes the keys and no values. -/
def MappingFormat.yaml : MappingFormat where
  write m := Yaml.blankMapping "mappings" (m.map (·.1))
  read := Yaml.Document.ofText

end CodeAtlas
