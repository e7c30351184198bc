/-!
Sets of code points given by their edges.

An edge list `[a₁, b₁, a₂, b₂, …]` in increasing order stands for the half-open ranges
`[a₁, b₁)`, `[a₂, b₂)`, …. A code point is inside exactly when an odd number of edges is at most
the code point.
-/

namespace CodeAtlas

def insideEdges (edges : List Nat) (n : Nat) : Bool :=
  (edges.takeWhile (· ≤ n)).length % 2 == 1

end CodeAtlas
