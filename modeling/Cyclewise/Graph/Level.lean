import Cyclewise.Graph.Basic

/-!
# Levels

The level of a node of an acyclic graph is the number of edges on the longest path that ends at it.
`levels` peels the graph: a node is taken once all its predecessors have been taken, which the
counter of its pending incoming edges tells, and taking it pushes its successors to a level above
its own.  A graph with a cycle has no levels; then some node is never taken.
-/

namespace Cyclewise

namespace DiGraph

/-- How far the peeling has come. -/
structure Peeling where
  /-- For each node, its incoming edges from nodes not taken yet. -/
  pending : Array Nat
  /-- For each node, the least level that the nodes taken so far allow. -/
  level : Array Nat
  /-- Nodes that can be taken, in the order in which they became so. -/
  ready : List Nat
  /-- The number of nodes taken. -/
  taken : Nat

/-- The number of edges into each node. -/
def indegrees (g : DiGraph) : Array Nat :=
  g.successors.foldl (fun counts vs => vs.foldl (fun counts v => counts.modify v (· + 1)) counts)
    (Array.replicate g.size 0)

namespace Peeling

/-- Nothing taken; the nodes without incoming edges are ready. -/
def start (g : DiGraph) : Peeling :=
  let pending := g.indegrees
  { pending := pending
    level := Array.replicate g.size 0
    ready := (List.range g.size).filter fun v => pending.getD v 0 == 0
    taken := 0 }

/-- The edge from a node of level `base` to `v` is pending no longer. -/
def release (base : Nat) (p : Peeling) (v : Nat) : Peeling :=
  let pending := p.pending.modify v (· - 1)
  { p with
    pending := pending
    level := p.level.modify v (max · (base + 1))
    ready := if pending.getD v 0 = 0 then p.ready ++ [v] else p.ready }

/-- Take the first ready node. -/
def step (g : DiGraph) (p : Peeling) : Peeling :=
  match p.ready with
  | [] => p
  | u :: rest =>
    (g.succ u).foldl (release (p.level.getD u 0)) { p with ready := rest, taken := p.taken + 1 }

/-- Take `n` nodes, or as many as become ready. -/
def run (g : DiGraph) : Nat → Peeling → Peeling
  | 0, p => p
  | n + 1, p => run g n (p.step g)

end Peeling

/-- The level of each node, unless the graph has a cycle. -/
def levels (g : DiGraph) : Option (Array Nat) :=
  let p := Peeling.run g g.size (Peeling.start g)
  if p.taken = g.size then some p.level else none

end DiGraph

end Cyclewise
