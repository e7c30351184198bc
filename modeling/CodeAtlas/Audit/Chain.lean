import CodeAtlas.Reference.FileScope

/-!
Chains of wrappers: functions that do nothing but pass their parameters on.
-/

namespace CodeAtlas

structure Wrapper where
  id : String
  path : String
  target : Option String
  deriving Repr, DecidableEq

namespace Wrapper

def maxChain : Nat := 20

def find? (wrappers : List Wrapper) (id : String) : Option Wrapper :=
  wrappers.reverse.find? (·.id == id)

/-- Follow a chain from the wrapper `current`, its last element so far, for at most `hops` hops. A
chain ends where the target is not known, where it is no wrapper, or where it was met before. -/
def follow (wrappers : List Wrapper) :
    (hops : Nat) → (chain : List String) → (current : String) → List String
  | 0, chain, _ => chain
  | hops + 1, chain, current =>
      match find? wrappers current with
      | none => chain
      | some w =>
          match w.target with
          | none => chain ++ [w.path]
          | some target =>
              if chain.contains target then chain ++ [target]
              else follow wrappers hops (chain ++ [target]) target

def chainFrom (wrappers : List Wrapper) (head : String) : List String :=
  follow wrappers maxChain [head] head

def addChain (wrappers : List Wrapper) (chains : List (List String)) (head : String) :
    List (List String) :=
  if chains.any (·.dropLast.contains head) then chains
  else chains ++ [chainFrom wrappers head]

def ids (wrappers : List Wrapper) : List String :=
  sortedDistinct (wrappers.map (·.id))

/-- The wrappers that no wrapper forwards into. -/
def roots (wrappers : List Wrapper) : List String :=
  let targeted := (ids wrappers).filterMap fun id => (find? wrappers id).bind (·.target)
  (ids wrappers).filter (!targeted.contains ·)

/-- The chains of a list of wrappers: first from those that no wrapper forwards into, then from what
is left, each in the order of the identities. -/
def chains (wrappers : List Wrapper) : List (List String) :=
  (roots wrappers ++ ids wrappers).foldl (addChain wrappers) []

end Wrapper

end CodeAtlas
