import CodeAtlas.Source.File
import CodeAtlas.Text.Preview

/-!
Degrees in a graph of calls: how many different functions call a function, and how many it calls.
-/

namespace CodeAtlas

/-- A call as the degrees see it. Only a resolved one that has a target counts. -/
structure Call where
  source : String
  target : Option String
  resolved : Bool
  deriving Repr, DecidableEq

namespace Call

def pair? (c : Call) : Option (String × String) :=
  match c.target with
  | some target => if c.resolved && target != "" then some (c.source, target) else none
  | none => none

def comparePair (a b : String × String) : Ordering :=
  (compare a.1 b.1).then (compare a.2 b.2)

/-- The pairs of caller and callee that the degrees count, each once and in order. -/
def pairs (calls : List Call) : List (String × String) :=
  sortWith comparePair (calls.filterMap pair?).eraseDups

end Call

structure Degree where
  incoming : Nat := 0
  outgoing : Nat := 0
  total : Nat := 0
  deriving Repr, DecidableEq

namespace Degree

def addOutgoing (d : Degree) : Degree :=
  { d with outgoing := d.outgoing + 1, total := d.total + 1 }

def addIncoming (d : Degree) : Degree :=
  { d with incoming := d.incoming + 1, total := d.total + 1 }

end Degree

abbrev DegreeTable := List (String × Degree)

namespace DegreeTable

def start (ids : List String) : DegreeTable :=
  ids.eraseDups.map (·, {})

def has (table : DegreeTable) (id : String) : Bool :=
  table.any (·.1 == id)

def update (table : DegreeTable) (id : String) (f : Degree → Degree) : DegreeTable :=
  table.map fun row => if row.1 == id then (row.1, f row.2) else row

/-- One pair counts for its caller and for its callee, where the table has them. -/
def countPair (table : DegreeTable) (pair : String × String) : DegreeTable :=
  let table := if table.has pair.1 then table.update pair.1 Degree.addOutgoing else table
  if table.has pair.2 then table.update pair.2 Degree.addIncoming else table

/-- The degrees of the nodes `ids`. Repeated calls count once. -/
def ofCalls (ids : List String) (calls : List Call) : DegreeTable :=
  (Call.pairs calls).foldl countPair (start ids)

def sorted (table : DegreeTable) : DegreeTable :=
  sortWith (fun a b => compare a.1 b.1) table

end DegreeTable

structure DegreeClasses where
  hubs : List (String × Nat)
  orphans : List String
  sources : List String
  sinks : List String
  deriving Repr, DecidableEq

namespace DegreeClasses

def compareRank (a b : String × Degree) : Ordering :=
  (compare b.2.total a.2.total).then (compare a.1 b.1)

/-- The rows that have a degree, the highest first and equal ones by id. -/
def ranking (table : DegreeTable) : DegreeTable :=
  sortWith compareRank (table.sorted.filter fun n => 0 < n.2.total)

/-- The classes of a table. At most `hubCount` hubs are named; a negative count leaves out that many
of the lowest instead. -/
def ofTable (table : DegreeTable) (hubCount : Int) : DegreeClasses :=
  let nodes := table.sorted
  { hubs := (Text.takeSigned hubCount (ranking table)).map fun n => (n.1, n.2.total)
    orphans := (nodes.filter fun n => n.2.incoming == 0).map (·.1)
    sources := (nodes.filter fun n => n.2.incoming == 0 && 0 < n.2.outgoing).map (·.1)
    sinks := (nodes.filter fun n => n.2.outgoing == 0).map (·.1) }

end DegreeClasses

end CodeAtlas
