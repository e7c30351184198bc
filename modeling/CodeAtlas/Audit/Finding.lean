import CodeAtlas.Source.File

/-!
Findings of an audit.
-/

namespace CodeAtlas

inductive FindingCategory where
  | passThrough
  | lonelyAbstraction
  | orphan
  | placeholder
  deriving Repr, DecidableEq

namespace FindingCategory

def text : FindingCategory → String
  | passThrough => "pass-through"
  | lonelyAbstraction => "lonely-abstraction"
  | orphan => "orphan"
  | placeholder => "placeholder"

def all : List FindingCategory :=
  [passThrough, lonelyAbstraction, orphan, placeholder]

end FindingCategory

inductive Severity where
  | info
  | warning
  deriving Repr, DecidableEq

namespace Severity

def text : Severity → String
  | info => "info"
  | warning => "warning"

end Severity

inductive Confidence where
  | high
  | medium
  | low
  deriving Repr, DecidableEq

namespace Confidence

def text : Confidence → String
  | high => "high"
  | medium => "medium"
  | low => "low"

end Confidence

structure Finding where
  category : FindingCategory
  severity : Severity
  confidence : Confidence
  message : String
  file : String
  line : Nat
  symbol : String
  language : Language
  evidence : List String
  chain : List String
  suggestion : String
  deriving Repr, DecidableEq

namespace Finding

def compareKey (a b : Finding) : Ordering :=
  (((compare a.file b.file).then (compare a.line b.line)).then
    (compare a.category.text b.category.text)).then (compare a.symbol b.symbol)

end Finding

end CodeAtlas
