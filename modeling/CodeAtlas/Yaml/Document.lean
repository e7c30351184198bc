import CodeAtlas.Yaml.Atom
import CodeAtlas.Yaml.Node

/-!
The values of YAML documents.

A document may refer to a collection several times, and a collection may hold itself, so values are
numbered like the nodes that they come from. Collections are filled in the order in which they are
first met, each after those met before it; this order decides which of several faults is found.

Mappings under the merge key count as if their pairs stood before all other pairs.
-/

namespace CodeAtlas.Yaml

/-- A value of a document, or a reference to one of its collections. -/
inductive Item where
  | atom (value : Value)
  | collection (id : NodeId)
  deriving Repr

inductive Collection where
  | list (items : List Item)
  | pairs (items : List (Item × Item))
  | mapping (pairs : List (Value × Item))
  | set (members : List Value)
  deriving Repr

/-- A document: its value, and its collections by the numbers of their nodes. -/
structure Document where
  root : Item
  collections : Array (Option Collection)

structure Build where
  nodes : Array Node
  collections : Array (Option Collection)
  met : Array NodeId := #[]

abbrev Building := StateT Build (Except Fault)

namespace Building

def nodeAt (id : NodeId) : Building Node := do
  match (← get).nodes[id]? with
  | some n => return n
  | none => throw .endless

def modifyNode (id : NodeId) (f : Node → Node) : Building Unit :=
  modify fun b => { b with nodes := b.nodes.modify id f }

def otherForm (wanted : String) (n : Node) : Fault :=
  .malformedAt ("expected a " ++ wanted ++ " node, but found " ++ n.content.form) n.place

def otherFormIn (context : String) (start : Nat) (wanted : String) (n : Node) : Fault :=
  .malformedIn context start ("expected a " ++ wanted ++ ", but found " ++ n.content.form) n.place

def pairsOr (wrong : Node → Fault) (id : NodeId) : Building (List (NodeId × NodeId)) := do
  let n ← nodeAt id
  match n.content with
  | .mapping pairs => return pairs
  | _ => throw (wrong n)

def pairsOf (id : NodeId) : Building (List (NodeId × NodeId)) :=
  pairsOr (otherForm "mapping") id

def setPairs (id : NodeId) (pairs : List (NodeId × NodeId)) : Building Unit :=
  modifyNode id fun n => { n with content := .mapping pairs }

/-! ### Merging -/

def inMapping : String := "while constructing a mapping"

/-- The pairs that the node under a merge key stands for: those of one mapping, or those of several,
of which the first counts most. What is merged into these is merged first, by `flatten`. The mapping
with the key starts at an offset. -/
def mergedPairs (flatten : NodeId → Building Unit) (start : Nat) (id : NodeId) :
    Building (List (NodeId × NodeId)) := do
  let n ← nodeAt id
  match n.content with
  | .mapping _ =>
      flatten id
      pairsOf id
  | .sequence items =>
      let parts ← items.mapM fun item => do
        let _ ← pairsOr (otherFormIn inMapping start "mapping for merging") item
        flatten item
        pairsOf item
      return parts.reverse.flatten
  | .scalar _ => throw (otherFormIn inMapping start "mapping or list of mappings for merging" n)

/-- Take the merge keys out of a mapping and collect the pairs under them, from the pair with some
number on. A key for a default value becomes a text. -/
def takeMerges (flatten : NodeId → Building Unit) (id : NodeId) :
    (count : Nat) → (index : Nat) → Building (List (NodeId × NodeId))
  | 0, _ => return []
  | count + 1, index => do
      let pairs ← pairsOf id
      match pairs[index]? with
      | none => return []
      | some (key, value) =>
          match (← nodeAt key).tag with
          | .merge =>
              setPairs id (pairs.eraseIdx index)
              let here ← mergedPairs flatten (← nodeAt id).place value
              return here ++ (← takeMerges flatten id count index)
          | .default =>
              modifyNode key fun n => { n with tag := .text }
              takeMerges flatten id count (index + 1)
          | _ => takeMerges flatten id count (index + 1)

/-- Put the pairs under the merge keys of a mapping before its own; `fuel` bounds the depth. -/
def flatten : (fuel : Nat) → NodeId → Building Unit
  | 0, _ => throw .endless
  | fuel + 1, id => do
      let merged ← takeMerges (flatten fuel) id (← pairsOf id).length 0
      if !merged.isEmpty then setPairs id (merged ++ (← pairsOf id))

def pairCount : Building Nat := do
  return (← get).nodes.foldl (fun n node => match node.content with
    | .mapping pairs => n + pairs.length
    | _ => n) 0

/-! ### Values -/

def scalarText : (fuel : Nat) → NodeId → Building String
  | 0, _ => throw .endless
  | fuel + 1, id => do
      let n ← nodeAt id
      match n.content with
      | .scalar text => return text
      | .sequence _ => throw (otherForm "scalar" n)
      | .mapping pairs =>
          let nodes := (← get).nodes
          match pairs.find? fun (key, _) => nodes[key]?.any (·.tag == .default) with
          | some (_, value) => scalarText fuel value
          | none => throw (otherForm "scalar" n)

def meet (id : NodeId) (blank : Collection) : Building Item := do
  let b ← get
  if !((b.collections[id]?.bind fun c => c).isSome) then
    set { b with collections := b.collections.setIfInBounds id (some blank), met := b.met.push id }
  return .collection id

def noKind (name : String) (n : Node) : Fault :=
  .malformedAt ("could not determine a constructor for the tag " ++ Text.quoted name) n.place

def itemOf (id : NodeId) : Building Item := do
  let n ← nodeAt id
  match n.tag with
  | .sequence => meet id (.list [])
  | .pairs => meet id (.pairs [])
  | .mapping => meet id (.mapping [])
  | .set => meet id (.set [])
  | .merge => throw (noKind (tagLead ++ "merge") n)
  | .default => throw (noKind (tagLead ++ "value") n)
  | .unknown name => throw (noKind name n)
  | tag =>
      let text ← scalarText ((← get).nodes.size + 1) id
      match tag, n.content with
      | .timestamp, .mapping _ => throw .timeOfMapping
      | tag, _ => return .atom (← Atom.value tag n.place text)

/-- A key of a mapping. What is not a number is no number's equal, so such keys are told apart by
the node that they come from; the one that has a name is the same everywhere. -/
structure Key where
  value : Value
  source : Option NodeId := none

def Key.isSame (a b : Key) : Bool :=
  match a.value, b.value with
  | .plain (.float .nan), .plain (.float .nan) => a.source == b.source
  | x, y => x.sameKey y

def keyOf (start : Nat) (id : NodeId) : Building Key := do
  match ← itemOf id with
  | .collection _ => throw (.malformedIn inMapping start "found unhashable key" (← nodeAt id).place)
  | .atom (.plain (.float .nan)) =>
      let text ← scalarText ((← get).nodes.size + 1) id
      let source := if Atom.namesNaN text.toList then none else some id
      return ⟨.plain (.float .nan), source⟩
  | .atom v => return ⟨v, none⟩

/-- Set a key: an equal key keeps its place and its spelling, a new one goes to the end. -/
def setItem (key : Key) (item : Item) : List (Key × Item) → List (Key × Item)
  | [] => [(key, item)]
  | (k, v) :: rest => if k.isSame key then (k, item) :: rest else (k, v) :: setItem key item rest

/-- The pairs of a mapping, of which the last for a key counts. -/
def entries (id : NodeId) : Building (List (Value × Item)) := do
  let _ ← pairsOf id
  flatten ((← pairCount) + 1) id
  let start := (← nodeAt id).place
  let found ← (← pairsOf id).foldlM (fun pairs (key, value) => do
    let k ← keyOf start key
    let v ← itemOf value
    return setItem k v pairs) []
  return found.map fun (k, v) => (k.value, v)

def inPairs : String := "while constructing pairs"

def onePair (start : Nat) (id : NodeId) : Building (Item × Item) := do
  match ← pairsOr (otherFormIn inPairs start "mapping of length 1") id with
  | [(key, value)] =>
      let k ← itemOf key
      let v ← itemOf value
      return (k, v)
  | pairs =>
      throw (.malformedIn inPairs start
        ("expected a single mapping item, but found " ++ toString pairs.length ++ " items")
        (← nodeAt id).place)

def fill (id : NodeId) : Building Unit := do
  let n ← nodeAt id
  let c ← match n.tag, n.content with
    | .sequence, .sequence items => do pure (Collection.list (← items.mapM itemOf))
    | .pairs, .sequence items => do pure (Collection.pairs (← items.mapM (onePair n.place)))
    | .mapping, _ => do pure (Collection.mapping (← entries id))
    | .set, _ => do pure (Collection.set ((← entries id).map (·.1)))
    | .pairs, _ => throw (otherFormIn inPairs n.place "sequence" n)
    | _, _ => throw (otherForm "sequence" n)
  modify fun b => { b with collections := b.collections.setIfInBounds id (some c) }

/-- Fill the collections that were met, from the one with some number on; `fuel` bounds how many
there are. -/
def fillAll : (fuel : Nat) → (index : Nat) → Building Unit
  | 0, _ => return
  | fuel + 1, index => do
      match (← get).met[index]? with
      | none => return
      | some id =>
          fill id
          fillAll fuel (index + 1)

end Building

namespace Document

def ofGraph (g : Graph) : Except Fault Document := do
  let count := g.nodes.size
  let make : Building Item := do
    let root ← Building.itemOf g.root
    Building.fillAll (count + 1) 0
    return root
  let (root, b) ← make.run { nodes := g.nodes, collections := Array.replicate count none }
  return ⟨root, b.collections⟩

def ofText (text : List Char) : Except Fault Document := do
  match ← Graph.ofText text with
  | some g => ofGraph g
  | none => return ⟨.atom (.plain .null), #[]⟩

def collection? (d : Document) (id : NodeId) : Option Collection :=
  d.collections[id]?.bind fun c => c

def pairs? (d : Document) : Item → Option (List (Value × Item))
  | .collection id =>
      match d.collection? id with
      | some (.mapping pairs) => some pairs
      | _ => none
  | .atom _ => none

/-! ### Text of values -/

def isNatural : Value → Bool
  | .plain (.int n) => 0 ≤ n
  | _ => false

def compareIntegers (a b : Value) : Ordering :=
  match a, b with
  | .plain (.int m), .plain (.int n) => compare m n
  | _, _ => .eq

/-- The members of a set in the order of its text: natural numbers by size, others as they were
written. -/
def orderedMembers (members : List Value) : List Value :=
  if members.all isNatural then members.mergeSort fun a b => (compareIntegers a b).isLE else members

/-- An item inside a collection, unless it holds a number with too many digits. A collection inside
of itself is not written out again; `open_` holds those that are being written, and `fuel` bounds
their number. -/
def literal? (d : Document) : (fuel : Nat) → (open_ : List NodeId) → Item → Option String
  | 0, _, _ => none
  | _ + 1, _, .atom v => v.literal?
  | fuel + 1, open_, .collection id =>
      let inside := d.literal? fuel (id :: open_)
      let isOpen := open_.contains id
      match d.collection? id with
      | none => none
      | some (.list items) =>
          if isOpen then some "[...]"
          else do return "[" ++ ", ".intercalate (← items.mapM inside) ++ "]"
      | some (.pairs items) =>
          if isOpen then some "[...]"
          else do
            let texts ← items.mapM fun (k, v) => do
              return "(" ++ (← inside k) ++ ", " ++ (← inside v) ++ ")"
            return "[" ++ ", ".intercalate texts ++ "]"
      | some (.mapping pairs) =>
          if isOpen then some "\x7b...\x7d"
          else do
            let texts ← pairs.mapM fun (k, v) => do return (← k.literal?) ++ ": " ++ (← inside v)
            return "\x7b" ++ ", ".intercalate texts ++ "\x7d"
      | some (.set members) =>
          if members.isEmpty then some "set()"
          else do
            let texts ← (orderedMembers members).mapM Value.literal?
            return "\x7b" ++ ", ".intercalate texts ++ "\x7d"

def text? (d : Document) : Item → Option String
  | .atom v => v.text?
  | item => d.literal? (d.collections.size + 2) [] item

end Document

end CodeAtlas.Yaml
