import CodeAtlas.Report.Export

/-!
Indexes as JSON documents.
-/

namespace CodeAtlas

def Entry.fields (e : Entry) : List (String × Json) :=
  [("id", .str e.id), ("name", .str e.name), ("bare_name", .str e.bareName),
    ("kind", .str e.kind.text), ("file", .str e.file), ("start_line", .nat e.startLine),
    ("end_line", .nat e.endLine), ("language", .str e.language.tag),
    ("container", .opt .str e.container)]

/-- An index with the number of files that it was made from and all that went wrong. -/
structure IndexReport where
  entries : List Entry
  errors : List FileError
  warnings : List FileWarning
  filesScanned : Nat

namespace IndexReport

def stats (r : IndexReport) : List (String × Json) :=
  [("files_scanned", .nat r.filesScanned),
    ("files_errored", .nat (r.errors.map (·.path)).eraseDups.length),
    ("entries", .nat r.entries.length), ("by_kind", tally (r.entries.map (·.kind.text)))]

def toJson (r : IndexReport) : Json :=
  .obj [("entries", .arr (r.entries.map fun e => .obj e.fields)),
    ("errors", .arr (r.errors.map (·.toJson))), ("warnings", .arr (r.warnings.map (·.toJson))),
    ("stats", .obj r.stats)]

def write (r : IndexReport) : OutputFormat → String
  | .json => r.toJson.pretty
  | .jsonl =>
      OutputFormat.recordLines
        (Json.obj [("type", .str "stats"), ("kind", .str "index"), ("stats", .obj r.stats)]).compact
        [("entry", r.entries.map (·.fields)), ("error", r.errors.map (·.toRecord.fields)),
          ("warning", r.warnings.map (·.toRecord.fields))]

end IndexReport

end CodeAtlas
