import Cyclewise.Graph.Component
import Cyclewise.Schedule.Edge
import Cyclewise.Signal.Table

/-!
# Reports of cycles

A group of two or more blocks that all precede each other cannot be ordered.  Its report names the
blocks, ascending, and every constraint and every inferred edge with both ends in the group.
-/

namespace Cyclewise

/-- Why one block of a group precedes another one. -/
inductive CycleEdge where
  /-- A constraint. -/
  | explicit (before after : BlockId)
  /-- A net from writer to reader: its signals with their paths, and the statements involved. -/
  | inferred (writer reader : BlockId) (net : NetId) (signals : List (SignalId × String))
      (sites : List DepSite)
deriving DecidableEq

namespace CycleEdge

/-- The wording of an edge. -/
def message : CycleEdge → String
  | explicit before after => s!"#{before} -> #{after} (constraint)"
  | inferred writer reader _ signals sites =>
    s!"#{writer} -> #{reader} via " ++ ", ".intercalate (signals.map Prod.snd) ++
      String.join (sites.map fun site => s!" [#{site.block} @ {site.span}]")

end CycleEdge

/-- Blocks that all precede each other, with their names, and the reasons. -/
structure CycleReport where
  blocks : List (BlockId × String)
  edges : List CycleEdge
deriving DecidableEq

namespace CycleReport

/-- The wording of a report: the names, then a line for each edge. -/
def message (c : CycleReport) : String :=
  "[" ++ ", ".intercalate (c.blocks.map Prod.snd) ++ "]" ++
    String.join (c.edges.map fun e => s!"\n    {e.message}")

/-- The report on one group of blocks. -/
def ofGroup (signals : SignalTable) (x : Extraction) (constraints : List Constraint)
    (retained : List InferredEdge) (group : List BlockId) : CycleReport where
  blocks := group.map fun b => (b, x.name b)
  edges :=
    (constraints.filter fun c => c.before ∈ group ∧ c.after ∈ group).map
        (fun c => .explicit c.before c.after) ++
      (retained.filter fun e => e.writer ∈ group ∧ e.reader ∈ group).map fun e =>
        .inferred e.writer e.reader e.net (e.signals.map fun s => (s, signals.path s)) e.sites

/-- The reports on all groups of two or more blocks; node `i` of the graph is block `nodes[i]`. -/
def ofGraph (signals : SignalTable) (x : Extraction) (constraints : List Constraint)
    (retained : List InferredEdge) (nodes : List BlockId) (g : DiGraph) : List CycleReport :=
  (g.components.filter (2 ≤ ·.length)).map fun component =>
    ofGroup signals x constraints retained (component.filterMap (nodes[·]?))

end CycleReport

end Cyclewise
