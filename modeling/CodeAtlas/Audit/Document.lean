import CodeAtlas.Audit.Build
import CodeAtlas.Report.Snapshot

/-!
Audits as JSON documents.
-/

namespace CodeAtlas

def Finding.fields (f : Finding) : List (String × Json) :=
  [("category", .str f.category.text), ("severity", .str f.severity.text),
    ("confidence", .str f.confidence.text), ("message", .str f.message), ("file", .str f.file),
    ("line", .nat f.line), ("symbol", .str f.symbol), ("language", .str f.language.tag),
    ("evidence", .strs f.evidence), ("chain", .strs f.chain), ("suggestion", .str f.suggestion)]

namespace Audit

def summary (a : Audit) : List (String × Json) :=
  [("files_scanned", .nat a.filesScanned), ("findings", .nat a.findings.length),
    ("by_category", .obj (FindingCategory.all.map fun c =>
      (c.text, .nat (a.findings.countP (·.category == c))))),
    ("by_language", tally (a.findings.map (·.language.tag)))]

def toJson (a : Audit) : Json :=
  .obj [("summary", .obj a.summary), ("findings", .arr (a.findings.map fun f => .obj f.fields))]

end Audit

end CodeAtlas
