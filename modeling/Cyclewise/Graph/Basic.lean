/-!
# Directed graphs

A `DiGraph` has the nodes `0, …, n - 1` and for each node a list of successors, without
repetition, in the order in which the edges were added.  An edge may name a target that is not a
node; the analyses of the graph are meant for graphs without such edges (`Closed`).
-/

namespace Cyclewise

/-- A graph by its successor lists. -/
structure DiGraph where
  successors : Array (List Nat)
deriving Inhabited

namespace DiGraph

/-- `n` nodes without edges. -/
def empty (n : Nat) : DiGraph := ⟨Array.replicate n []⟩

/-- The number of nodes. -/
def size (g : DiGraph) : Nat := g.successors.size

/-- The successors of a node; there are none of anything else. -/
def succ (g : DiGraph) (u : Nat) : List Nat := g.successors.getD u []

/-- Add an edge that is not there yet. -/
def addEdge (g : DiGraph) (u v : Nat) : DiGraph :=
  ⟨g.successors.modify u fun vs => if v ∈ vs then vs else vs ++ [v]⟩

/-- Add an edge, provided that it starts at a node. -/
def addEdge? (g : DiGraph) (u v : Nat) : Option DiGraph :=
  if u < g.size then some (g.addEdge u v) else none

/-- The graph with `n` nodes and the edges of a list, provided that they start at nodes. -/
def ofEdges? (n : Nat) (edges : List (Nat × Nat)) : Option DiGraph :=
  edges.foldlM (fun g (u, v) => g.addEdge? u v) (empty n)

/-- Every edge ends at a node. -/
def Closed (g : DiGraph) : Prop := ∀ vs ∈ g.successors, ∀ v ∈ vs, v < g.size

instance (g : DiGraph) : Decidable g.Closed := inferInstanceAs (Decidable (∀ _ ∈ _, _))

/-- The outcome of an analysis, provided that every edge ends at a node. -/
def analyze? {α : Type} (g : DiGraph) (analysis : DiGraph → α) : Option α :=
  if g.Closed then some (analysis g) else none

end DiGraph

end Cyclewise
