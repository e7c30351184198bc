import CodeAtlas.Yaml.Token

/-!
The nodes of a YAML document.

A text holds at most one document. Its nodes are numbered, and collections refer to their nodes by
number, so that an alias is one more reference to a node, also from inside of it.
-/

namespace CodeAtlas.Yaml

abbrev NodeId := Nat

inductive Content where
  | scalar (text : String)
  | sequence (items : List NodeId)
  | mapping (pairs : List (NodeId × NodeId))
  deriving Repr, DecidableEq

def Content.form : Content → String
  | scalar _ => "scalar"
  | sequence _ => "sequence"
  | mapping _ => "mapping"

/-- A node: what kind of value it stands for, what is written for it, and at which offset. -/
structure Node where
  tag : Tag
  content : Content
  place : Nat
  deriving Repr, DecidableEq

structure Graph where
  nodes : Array Node
  root : NodeId

structure Outline where
  tokens : List PlacedToken
  fault : Fault
  anchors : List (String × NodeId) := []
  handles : List (String × String) := []
  nodes : Array Node := #[]

abbrev Outlining := StateT Outline (Except Fault)

namespace Outlining

def next : Outlining PlacedToken := do
  let o ← get
  match o.tokens with
  | t :: _ => return t
  | [] => throw o.fault

def peek : Outlining Token := return (← next).token

def here : Outlining Nat := return (← next).start

def isNext (ts : List Token) : Outlining Bool := return ts.contains (← peek)

def advance : Outlining Unit := modify fun o => { o with tokens := o.tokens.drop 1 }

def passed? (t : Token) : Outlining (Option Nat) := do
  let found ← next
  if found.token == t then
    advance
    return some found.stop
  else return none

def skipped (t : Token) : Outlining Bool := return (← passed? t).isSome

def expect (t : Token) (wrong : PlacedToken → Fault) : Outlining Unit := do
  let found ← next
  if found.token == t then advance else throw (wrong found)

def notMet (context : String) (start : Nat) (wanted : String) (found : PlacedToken) : Fault :=
  .malformedIn context start (wanted ++ Text.quoted found.token.label) found.start

/-! ### Anchors and tags -/

structure Properties where
  anchor : Option String := none
  tag : Option String := none
  start : Option Nat := none

def anchor? : Outlining (Option String) := do
  match ← peek with
  | .anchor name =>
      advance
      return some name
  | _ => return none

def tag? (start : Nat) : Outlining (Option (Outlining String)) := do
  let found ← next
  match found.token with
  | .tag none suffix =>
      advance
      return some (pure suffix)
  | .tag (some handle) suffix =>
      advance
      return some do
        match (← get).handles.lookup handle with
        | some lead => return lead ++ suffix
        | none =>
            throw (.malformedIn "while parsing a node" start
              ("found undefined tag handle " ++ Text.quoted handle) found.start)
  | _ => return none

/-- The anchor and the tag before a node, in either order. What a tag stands for is looked up
last. -/
def properties : Outlining Properties := do
  let start ← here
  match ← anchor? with
  | some name =>
      match ← tag? start with
      | some tag => return ⟨some name, some (← tag), some start⟩
      | none => return ⟨some name, none, some start⟩
  | none =>
      match ← tag? start with
      | some tag =>
          let anchor ← anchor?
          return ⟨anchor, some (← tag), some start⟩
      | none => return {}

/-! ### Nodes -/

def add (anchor : Option String) (n : Node) : Outlining NodeId := do
  let o ← get
  let id := o.nodes.size
  set { o with
    nodes := o.nodes.push n
    anchors := (anchor.map fun name => (name, id)).toList ++ o.anchors }
  return id

def setContent (id : NodeId) (content : Content) : Outlining Unit :=
  modify fun o => { o with nodes := o.nodes.modify id fun n => { n with content := content } }

def empty (place : Nat) : Outlining NodeId := add none ⟨.null, .scalar "", place⟩

/-- The kind of a node with a tag. Without one, and with a single exclamation mark, it is the kind
that other nodes of its form have. -/
def kindOr (other : Tag) (written : Option String) : Tag :=
  match written with
  | none => other
  | some name => if name == "!" then other else .ofName name

/-- The kind of a scalar: what a plain one stands for is read off its text, and a single exclamation
mark makes a scalar count as plain. -/
def scalarKind (written : Option String) (text : String) (isPlain : Bool) : Tag :=
  kindOr (if isPlain || written == some "!" then .ofPlain text else .text) written

def checkAnchor (anchor : Option String) (place : Nat) : Outlining Unit := do
  let o ← get
  if let some name := anchor then
    if let some known := o.anchors.lookup name then
      let first := (o.nodes[known]?.map (·.place)).getD 0
      throw (.malformedIn ("found duplicate anchor " ++ Text.quoted name ++ "; first occurrence")
        first "second occurrence" place)

mutual

/-- A node. Block collections stand in block context only, and a sequence need not be indented where
it belongs to a key. `fuel` bounds the number of steps. -/
def node (inBlock mayBeFlush : Bool) : (fuel : Nat) → Outlining NodeId
  | 0 => throw .endless
  | fuel + 1 => do
      if let .alias_ name ← peek then
        let place ← here
        advance
        let some known := (← get).anchors.lookup name
          | throw (.malformedAt ("found undefined alias " ++ Text.quoted name) place)
        return known
      let { anchor, tag := written, start } ← properties
      let opening ← next
      let place := start.getD opening.start
      let collection (kind : Tag) (blank : Content) (read : Outlining Content) :
          Outlining NodeId := do
        checkAnchor anchor place
        let id ← add anchor ⟨kindOr kind written, blank, place⟩
        setContent id (← read)
        return id
      let sequence (read : Outlining (List NodeId)) : Outlining NodeId :=
        collection .sequence (.sequence []) do return .sequence (← read)
      let mapping (read : Outlining (List (NodeId × NodeId))) : Outlining NodeId :=
        collection .mapping (.mapping []) do return .mapping (← read)
      let scalar (text : String) (isPlain : Bool) : Outlining NodeId := do
        checkAnchor anchor place
        add anchor ⟨scalarKind written text isPlain, .scalar text, place⟩
      let unwritten : Outlining NodeId :=
        if anchor.isNone && written.isNone then
          let context := if inBlock then "while parsing a block node"
            else "while parsing a flow node"
          throw (notMet context place "expected the node content, but found " opening)
        else scalar "" true
      match opening.token with
      | .scalar text isPlain =>
          advance
          scalar text isPlain
      | .flowSequence =>
          advance
          sequence (flowItems opening.start true fuel)
      | .flowMapping =>
          advance
          mapping (flowPairs opening.start true fuel)
      | .blockEntry => if mayBeFlush then sequence (flushItems fuel) else unwritten
      | .blockSequence =>
          if !inBlock then unwritten
          else
            advance
            sequence (blockItems opening.start fuel)
      | .blockMapping =>
          if !inBlock then unwritten
          else
            advance
            mapping (blockPairs opening.start fuel)
      | _ => unwritten
  termination_by structural fuel => fuel

def nodeUnless (ends : List Token) (place : Nat) (inBlock mayBeFlush : Bool) :
    (fuel : Nat) → Outlining NodeId
  | 0 => throw .endless
  | fuel + 1 => do
      if ← isNext ends then empty place else node inBlock mayBeFlush fuel
  termination_by structural fuel => fuel

def valueUnless (ends : List Token) (inBlock mayBeFlush : Bool) : (fuel : Nat) → Outlining NodeId
  | 0 => throw .endless
  | fuel + 1 => do
      match ← passed? .value with
      | some stop => nodeUnless ends stop inBlock mayBeFlush fuel
      | none => empty (← here)
  termination_by structural fuel => fuel

def blockItems (start : Nat) : (fuel : Nat) → Outlining (List NodeId)
  | 0 => throw .endless
  | fuel + 1 => do
      if let some stop ← passed? .blockEntry then
        let item ← nodeUnless [.blockEntry, .blockEnd] stop true false fuel
        return item :: (← blockItems start fuel)
      else
        expect .blockEnd
          (notMet "while parsing a block collection" start "expected <block end>, but found ")
        return []
  termination_by structural fuel => fuel

def flushItems : (fuel : Nat) → Outlining (List NodeId)
  | 0 => throw .endless
  | fuel + 1 => do
      if let some stop ← passed? .blockEntry then
        let item ← nodeUnless [.blockEntry, .key, .value, .blockEnd] stop true false fuel
        return item :: (← flushItems fuel)
      else return []
  termination_by structural fuel => fuel

def blockPairs (start : Nat) : (fuel : Nat) → Outlining (List (NodeId × NodeId))
  | 0 => throw .endless
  | fuel + 1 => do
      if let some stop ← passed? .key then
        let key ← nodeUnless [.key, .value, .blockEnd] stop true true fuel
        let value ← valueUnless [.key, .value, .blockEnd] true true fuel
        return (key, value) :: (← blockPairs start fuel)
      else
        expect .blockEnd
          (notMet "while parsing a block mapping" start "expected <block end>, but found ")
        return []
  termination_by structural fuel => fuel

/-- The items of a flow sequence that starts at an offset. A pair may stand for a mapping with one
key. -/
def flowItems (start : Nat) (isFirst : Bool) : (fuel : Nat) → Outlining (List NodeId)
  | 0 => throw .endless
  | fuel + 1 => do
      if ← skipped .flowSequenceEnd then return []
      if !isFirst then
        expect .flowEntry (notMet "while parsing a flow sequence" start
          "expected ',' or ']', but got ")
      let place ← here
      if let some stop ← passed? .key then
        let id ← add none ⟨.mapping, .mapping [], place⟩
        let key ← nodeUnless [.value, .flowEntry, .flowSequenceEnd] stop false false fuel
        let value ← valueUnless [.flowEntry, .flowSequenceEnd] false false fuel
        setContent id (.mapping [(key, value)])
        return id :: (← flowItems start false fuel)
      else if ← skipped .flowSequenceEnd then return []
      else
        let item ← node false false fuel
        return item :: (← flowItems start false fuel)
  termination_by structural fuel => fuel

def flowPairs (start : Nat) (isFirst : Bool) : (fuel : Nat) → Outlining (List (NodeId × NodeId))
  | 0 => throw .endless
  | fuel + 1 => do
      if ← skipped .flowMappingEnd then return []
      if !isFirst then
        expect .flowEntry
          (notMet "while parsing a flow mapping" start "expected ',' or '\x7d', but got ")
      if let some stop ← passed? .key then
        let key ← nodeUnless [.value, .flowEntry, .flowMappingEnd] stop false false fuel
        let value ← valueUnless [.flowEntry, .flowMappingEnd] false false fuel
        return (key, value) :: (← flowPairs start false fuel)
      else if ← skipped .flowMappingEnd then return []
      else
        let key ← node false false fuel
        let value ← empty (← here)
        return (key, value) :: (← flowPairs start false fuel)
  termination_by structural fuel => fuel

end

/-! ### Documents -/

/-- Take in the directives before a document; `fuel` bounds their number. -/
def directives (hasVersion : Bool) : (fuel : Nat) → Outlining Unit
  | 0 => throw .endless
  | fuel + 1 => do
      let found ← next
      match found.token with
      | .directive d =>
          advance
          match d with
          | .version major =>
              if hasVersion then throw (.malformedAt "found duplicate YAML directive" found.start)
              if major != 1 then
                throw (.malformedAt "found incompatible YAML document (version 1.* is required)"
                  found.start)
              directives true fuel
          | .tag handle lead =>
              if ((← get).handles.lookup handle).isSome then
                throw (.malformedAt ("duplicate tag handle " ++ Text.quoted handle) found.start)
              modify fun o => { o with handles := (handle, lead) :: o.handles }
              directives hasVersion fuel
          | .other => directives hasVersion fuel
      | _ => return

/-- The short forms of tags that every document has unless it says otherwise. -/
def defaultHandles : List (String × String) :=
  [("!", "!"), ("!!", tagLead)]

def documentEnds : (fuel : Nat) → Outlining Unit
  | 0 => throw .endless
  | fuel + 1 => do
      if ← skipped .documentEnd then documentEnds fuel

def isBoundary (withEnd : Bool) : Outlining Bool := do
  match ← peek with
  | .directive _ => return true
  | .documentEnd => return withEnd
  | t => return t == .documentStart || t == .streamEnd

def documentStart (fuel : Nat) : Outlining Unit := do
  modify fun o => { o with handles := [] }
  directives false fuel
  modify fun o => { o with handles := o.handles ++ defaultHandles }
  expect .documentStart fun found =>
    .malformedAt ("expected '<document start>', but found " ++ Text.quoted found.token.label)
      found.start

def document (fuel : Nat) : Outlining (Option NodeId) := do
  if ← isNext [.streamEnd] then return none
  let root ←
    if ← isBoundary false then do
      documentStart fuel
      if ← isBoundary true then empty (← here) else node true false fuel
    else do
      modify fun o => { o with handles := defaultHandles }
      node true false fuel
  documentEnds fuel
  if !(← isNext [.streamEnd]) then
    let place ← here
    documentStart fuel
    let first := ((← get).nodes[root]?.map (·.place)).getD 0
    throw (.malformedIn "expected a single document in the stream" first
      "but found another document"
      place)
  return some root

end Outlining

def Graph.ofText (text : List Char) : Except Fault (Option Graph) := do
  let (tokens, fault) := PlacedToken.ofText text
  let start : Outline := { tokens := tokens, fault := fault }
  let (root, o) ← (Outlining.document (4 * tokens.length + 8)).run start
  return root.map fun id => ⟨o.nodes, id⟩

end CodeAtlas.Yaml
