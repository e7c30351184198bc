import CodeAtlas.Diff.Mapping
import CodeAtlas.Report.Snapshot

/-!
The difference of two graphs of one kind.

Of a graph only the identities of its nodes and the ends and kinds of its resolved edges count. The
names are of any type with an equality and an order; for graphs that were built they are texts.
-/

namespace CodeAtlas

structure EdgeKey (ν : Type) where
  source : ν
  target : ν
  kind : ν
  deriving Repr, DecidableEq

namespace EdgeKey

variable {ν : Type}

instance [BEq ν] : BEq (EdgeKey ν) where
  beq a b := a.source == b.source && a.target == b.target && a.kind == b.kind

instance [Ord ν] : Ord (EdgeKey ν) where
  compare a b :=
    ((compare a.source b.source).then (compare a.target b.target)).then (compare a.kind b.kind)

def map {μ : Type} (f : ν → μ) (e : EdgeKey ν) : EdgeKey μ :=
  ⟨f e.source, f e.target, f e.kind⟩

end EdgeKey

structure GraphView (ν : Type) where
  kind : GraphKind
  nodes : List ν
  edges : List (EdgeKey ν)
  deriving Repr

structure Move (ν : Type) where
  source : ν
  target : ν
  score : Nat
  sameName : Bool
  deriving Repr, DecidableEq

namespace Move

def reason {ν : Type} (m : Move ν) : String :=
  if m.sameName then "move" else "rename"

end Move

structure Diff (ν : Type) where
  kind : GraphKind
  addedNodes : List ν
  removedNodes : List ν
  addedEdges : List (EdgeKey ν)
  removedEdges : List (EdgeKey ν)
  moves : List (Move ν)
  /-- Removed nodes that a mapping was asked about and did not explain. -/
  unmapped : List ν := []
  deriving Repr, DecidableEq

/-! ### Base names -/

/-- The text without a line mark at its end: an at sign and digits, with one line feed allowed
behind them. -/
def dropLineMark (cs : List Char) : List Char :=
  let (backwards, tail) := match cs.reverse with
    | '\n' :: rest => (rest, ['\n'])
    | rest => (rest, [])
  let digits := backwards.takeWhile isDecimalDigit
  match backwards.drop digits.length with
  | '@' :: rest => if digits.isEmpty then cs else rest.reverse ++ tail
  | _ => cs

def nameSegments : List Char → List (List Char)
  | [] => [[]]
  | '.' :: cs => [] :: nameSegments cs
  | ':' :: ':' :: cs => [] :: nameSegments cs
  | c :: cs => Text.consFirst c (nameSegments cs)

/-- The short name of a node: of a file its name, of a function its bare name. -/
def GraphKind.baseName (kind : GraphKind) (id : String) : String :=
  match kind with
  | .blueprint => Path.baseName id
  | .callgraph =>
      let qualified := match Text.cutAt? [':', ':'] id.toList with
        | some (_, rest) => rest
        | none => id.toList
      String.ofList ((nameSegments (dropLineMark qualified)).getLastD [])

end CodeAtlas
