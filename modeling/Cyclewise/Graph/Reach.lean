import Cyclewise.BitSet
import Cyclewise.Graph.Basic

/-!
# Reachability

`reach` gives for every node the set of nodes at the end of a path of one or more edges.  A
depth-first search sets out from the successors of the node: it takes a node off a stack and, if the
node is new, puts its successors there.  So a node reaches itself only along a cycle.  The searches
from all nodes use one stack, one after the other, and `step` is the body of their loop.
-/

namespace Cyclewise

namespace DiGraph

/-- How far the search from a node has come. -/
structure Flood where
  /-- The nodes come upon. -/
  seen : BitSet
  /-- The nodes to look at, the next one first. -/
  stack : List Nat

/-- The number of edges. -/
def edgeCount (g : DiGraph) : Nat := ((List.range g.size).flatMap g.succ).length

namespace Flood

/-- Put the successors of a node on the stack, so that the last one is looked at first. -/
def push (g : DiGraph) (s : Flood) (u : Nat) : Flood :=
  { s with stack := (g.succ u).reverse ++ s.stack }

/-- Take a node off the stack and, if it is new, put its successors there. -/
def step (g : DiGraph) (s : Flood) : Flood :=
  match s.stack with
  | [] => s
  | v :: stack =>
    let (fresh, seen) := s.seen.insertNew v
    if fresh then push g ⟨seen, stack⟩ v else ⟨seen, stack⟩

/-- Take `n` steps, or as many as there are. -/
def run (g : DiGraph) : Nat → Flood → Flood
  | 0, s => s
  | n + 1, s => run g n (s.step g)

/-- Take steps until the stack is empty: one for each node on it, and one for each edge that puts
another node there. -/
def finish (g : DiGraph) (s : Flood) : Flood := run g (s.stack.length + g.edgeCount) s

end Flood

/-- Search from a node on the stack that the searches before have left, and add what is found to
what they found. -/
def sweep (g : DiGraph) : Array BitSet × List Nat → Nat → Array BitSet × List Nat
  | (rows, stack), u =>
    let s := (Flood.push g ⟨BitSet.withCapacity g.size, stack⟩ u).finish g
    (rows.push s.seen, s.stack)

/-- For every node the nodes reachable from it by one or more edges. -/
def reach (g : DiGraph) : Array BitSet := ((List.range g.size).foldl g.sweep (#[], [])).1

/-- Whether one or more edges lead from `u` to `v`, given the table of `reach`. -/
def reaches (rows : Array BitSet) (u v : Nat) : Bool := (rows.getD u ∅).contains v

end DiGraph

end Cyclewise
