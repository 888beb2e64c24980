import Cyclewise.Ascending
import Cyclewise.Graph.Basic

/-!
# Strongly connected components

Two nodes belong to one component when each reaches the other; every node belongs to its own.
`components` finds the components by a depth-first search (Tarjan).  The search numbers the nodes in
the order in which it enters them and keeps a stack of those whose component is not complete.  The
visit of a node records the least number of a stacked node that it came upon, its *low link*; a
visit that came upon nothing older than its own node completes a component, which is the stack down
to that node.  The visits under way are a list of their own, so that `step` is a loop body.
-/

namespace Cyclewise

namespace DiGraph

/-- A visit under way. -/
structure Visit where
  node : Nat
  /-- The low link: the least number of a stacked node that the visit came upon. -/
  low : Nat
  /-- The successors that the visit has not looked at. -/
  pending : List Nat
deriving DecidableEq

/-- How far the search has come. -/
structure Search where
  /-- For each node, when it was entered. -/
  number : Array (Option Nat)
  /-- The next number. -/
  next : Nat
  /-- The entered nodes whose component is not complete, the last one first. -/
  stack : List Nat
  /-- The visits under way, the innermost one first. -/
  visits : List Visit
  /-- The complete components. -/
  found : List (List Nat)
deriving DecidableEq

namespace Search

/-- No node is entered. -/
def start (g : DiGraph) : Search := ⟨Array.replicate g.size none, 0, [], [], []⟩

/-- The number of a node, once it is entered. -/
def number? (s : Search) (v : Nat) : Option Nat := s.number.getD v none

/-- Begin the visit of a node. -/
def enter (g : DiGraph) (s : Search) (v : Nat) : Search :=
  { s with
    number := s.number.setIfInBounds v (some s.next)
    next := s.next + 1
    stack := v :: s.stack
    visits := ⟨v, s.next, g.succ v⟩ :: s.visits }

/-- The innermost visit comes upon a stacked node of number `i`. -/
def lower (s : Search) (i : Nat) : Search :=
  { s with visits := s.visits.modifyHead fun visit => { visit with low := min visit.low i } }

/-- Split a stack below `v`. -/
def popTo (v : Nat) : List Nat → List Nat × List Nat
  | [] => ([], [])
  | w :: stack =>
    if w = v then ([w], stack)
    else
      let (popped, rest) := popTo v stack
      (w :: popped, rest)

/-- The stack down to `v` is a component. -/
def complete (s : Search) (v : Nat) : Search :=
  let (component, rest) := popTo v s.stack
  { s with stack := rest, found := s.found ++ [ascendingBy id component] }

/-- Look at the next successor of the innermost visit, or end that visit. -/
def step (g : DiGraph) (s : Search) : Search :=
  match s.visits with
  | [] => s
  | ⟨v, low, w :: pending⟩ :: visits =>
    let s := { s with visits := ⟨v, low, pending⟩ :: visits }
    match s.number? w with
    | none => s.enter g w
    | some i => if w ∈ s.stack then s.lower i else s
  | ⟨v, low, []⟩ :: visits =>
    let s := { s with visits := visits }.lower low
    if s.number? v = some low then s.complete v else s

/-- Take `n` steps, or as many as there are. -/
def run (g : DiGraph) : Nat → Search → Search
  | 0, s => s
  | n + 1, s => run g n (s.step g)

/-- The number of steps that visits of nodes take: one for each node and one for each of its
edges. -/
def cost (g : DiGraph) : List Nat → Nat
  | [] => 0
  | v :: vs => (g.succ v).length + 1 + cost g vs

/-- The number of steps of a whole search. -/
def effort (g : DiGraph) : Nat := cost g (List.range g.size)

/-- Visit a node and all that it reaches, unless it is entered already. -/
def explore (g : DiGraph) (s : Search) (root : Nat) : Search :=
  match s.number? root with
  | some _ => s
  | none => run g (effort g) (s.enter g root)

end Search

/-- The components as ascending lists, by ascending smallest node. -/
def components (g : DiGraph) : List (List Nat) :=
  ascendingBy (·.headD 0) ((List.range g.size).foldl (Search.explore g) (Search.start g)).found

end DiGraph

end Cyclewise
