import CodeAtlas.Diff.Basic

/-!
Computing the difference of two graphs, and where the removed nodes may have gone.
-/

namespace CodeAtlas

section Sets

variable {α : Type} [BEq α] [Ord α]

/-- The distinct elements of the first list that are not in the second, in order. -/
def sortedMinus (xs ys : List α) : List α :=
  sortWith compare (xs.eraseDups.filter (!ys.contains ·))

def sharedCount (xs ys : List α) : Nat :=
  xs.eraseDups.countP ys.contains

end Sets

structure Naming (ν : Type) where
  absent : ν
  base : ν → String

namespace Naming

/-- Names that are texts: the empty one stands for no node. -/
def ofKind (kind : GraphKind) : Naming String :=
  ⟨"", kind.baseName⟩

end Naming

namespace GraphView

variable {ν : Type} [BEq ν] [Ord ν]

/-- The other nodes that an edge joins with a node, in either direction. -/
def neighbours (naming : Naming ν) (g : GraphView ν) (x : ν) : List ν :=
  g.edges.filterMap fun e =>
    if e.target == naming.absent || e.target == e.source then none
    else if e.source == x then some e.target
    else if e.target == x then some e.source
    else none

/-- How many neighbours a node of one graph shares with a node of another. -/
def score (naming : Naming ν) (before after : GraphView ν) (old new : ν) : Nat :=
  sharedCount (before.neighbours naming old) (after.neighbours naming new)

/-- The first of some nodes with the highest score above `least`, with its score. -/
def bestFrom (scoreOf : ν → Nat) : (best : Option (ν × Nat)) → List ν → Option (ν × Nat)
  | best, [] => best
  | best, x :: xs =>
      let least := (best.map (·.2)).getD 0
      bestFrom scoreOf (if least < scoreOf x then some (x, scoreOf x) else best) xs

/-- Where a removed node may have gone: to the added node that shares the most neighbours with it,
or else to the only added node with its base name. -/
def move? (naming : Naming ν) (before after : GraphView ν) (added : List ν) (old : ν) :
    Option (Move ν) :=
  let isSame (new : ν) : Bool := naming.base new == naming.base old
  match bestFrom (before.score naming after old) none added with
  | some (new, score) => some ⟨old, new, score, isSame new⟩
  | none => (sole? (added.filter isSame)).map fun new => ⟨old, new, 0, true⟩

def diff (naming : Naming ν) (before after : GraphView ν) : Diff ν :=
  let removed := sortedMinus before.nodes after.nodes
  let added := sortedMinus after.nodes before.nodes
  { kind := before.kind
    addedNodes := added
    removedNodes := removed
    addedEdges := sortedMinus after.edges before.edges
    removedEdges := sortedMinus before.edges after.edges
    moves := removed.filterMap (before.move? naming after added) }

end GraphView

namespace Diff

variable {ν : Type}

def isEmpty (d : Diff ν) : Bool :=
  d.addedNodes.isEmpty && d.removedNodes.isEmpty && d.addedEdges.isEmpty && d.removedEdges.isEmpty

def map {μ : Type} (f : ν → μ) (d : Diff ν) : Diff μ :=
  { kind := d.kind
    addedNodes := d.addedNodes.map f
    removedNodes := d.removedNodes.map f
    addedEdges := d.addedEdges.map (·.map f)
    removedEdges := d.removedEdges.map (·.map f)
    moves := d.moves.map fun m => ⟨f m.source, f m.target, m.score, m.sameName⟩
    unmapped := d.unmapped.map f }

def unexplained (text : ν → String) (m : Mapping) (d : Diff ν) : List ν :=
  d.removedNodes.filter fun id => !m.explains (text id)

def withMapping (text : ν → String) (m : Mapping) (d : Diff ν) : Diff ν :=
  { d with unmapped := d.unexplained text m }

def enforce (text : ν → String) (m : Mapping) (d : Diff ν) : Except MissingMapping (Diff ν) :=
  match d.unexplained text m with
  | [] => .ok (d.withMapping text m)
  | missing => .error ⟨missing.map text⟩

end Diff

/-! ### Differences of snapshots -/

inductive DiffFault where
  | otherKind (before after : GraphKind)
  | badNames
  deriving Repr, DecidableEq

namespace DiffFault

def message : DiffFault → String
  | otherKind before after =>
      "Cannot diff a " ++ before.text ++ " report against a " ++ after.text ++ " report"
  | badNames => "names cannot be compared"

end DiffFault

namespace Snapshot

/-- The resolved edges by their ends and kinds; a target that counts as false is the empty text. -/
def edgeKeys (s : Snapshot) : List (EdgeKey Json) :=
  s.resolvedEdges.map fun e =>
    ⟨e.source, if e.target.isTruthy then e.target else .str "", e.kind⟩

def view (s : Snapshot) : GraphView Json :=
  ⟨s.kind, s.nodeIds, s.edgeKeys⟩

def textEdge? (e : EdgeKey Json) : Option (EdgeKey String) := do
  return ⟨← e.source.text?, ← e.target.text?, ← e.kind.text?⟩

def textView? (s : Snapshot) : Option (GraphView String) := do
  return ⟨s.kind, ← s.nodeIds.mapM Json.text?, ← s.edgeKeys.mapM textEdge?⟩

end Snapshot

/-! #### Names that are not texts -/

namespace MixedNames

scoped instance : BEq Json := ⟨Json.sameKey⟩

scoped instance : Ord Json := ⟨Json.compareKey⟩

def naming (kind : GraphKind) : Naming Json :=
  ⟨.str "", fun name => (name.text?.map kind.baseName).getD ""⟩

/-- Does every one of some different names come before or after every other? -/
def areSortable (names : List Json) : Bool :=
  names.all fun a => names.all fun b => a == b || a.isComparable b

/-- Does one of two different edges come before the other: do the first names in which they differ
compare? -/
def areComparable (a b : EdgeKey Json) : Bool :=
  if !(a.source == b.source) then a.source.isComparable b.source
  else if !(a.target == b.target) then a.target.isComparable b.target
  else a.kind == b.kind || a.kind.isComparable b.kind

def isKeyed (e : EdgeKey Json) : Bool :=
  e.source.isKey && e.target.isKey && e.kind.isKey

def areNamed (before after : GraphView Json) (d : Diff Json) : Bool :=
  d.removedNodes.all fun old =>
    let scoreOf := before.score (naming before.kind) after old
    old.text?.isSome
      && (match GraphView.bestFrom scoreOf none d.addedNodes with
          | some (new, _) => new.text?.isSome
          | none => d.addedNodes.all (·.text?.isSome))

/-- The difference of two graphs with names of any type, where they can be looked up, sorted and cut
as far as that is needed. -/
def diff? (before after : GraphView Json) : Option (Diff Json) :=
  if (before.nodes ++ after.nodes).all Json.isKey && (before.edges ++ after.edges).all isKeyed then
    let d := before.diff (naming before.kind) after
    if areSortable d.removedNodes && areSortable d.addedNodes
        && [d.addedEdges, d.removedEdges].all (fun es => es.all fun a => es.all (areComparable a))
        && areNamed before after d then some d
    else none
  else none

end MixedNames

namespace Snapshot

def diff (before after : Snapshot) : Except DiffFault (Diff Json) :=
  if before.kind != after.kind then .error (.otherKind before.kind after.kind)
  else
    match before.textView?, after.textView? with
    | some a, some b => .ok ((a.diff (Naming.ofKind a.kind) b).map .str)
    | _, _ =>
        match MixedNames.diff? before.view after.view with
        | some d => .ok d
        | none => .error .badNames

end Snapshot

end CodeAtlas
