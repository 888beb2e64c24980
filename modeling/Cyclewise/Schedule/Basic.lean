import Cyclewise.Ascending
import Cyclewise.Graph.Level
import Cyclewise.Graph.Reach
import Cyclewise.Schedule.Cycle
import Cyclewise.Schedule.Diagnostics

/-!
# Scheduling

`schedule` orders the analysed blocks for one cycle.

1. The constraints alone must be free of cycles.
2. An inferred edge is sequential when constraints lead from its reader to its writer: the reader
   runs first and sees the value of the last cycle.  The other inferred edges are retained.
3. Constraints and retained edges together must be free of cycles.
4. Each block goes into the batch of its level in that graph.  Batches ascend by block, and one
   after the other they are the order.
-/

namespace Cyclewise

/-- The order of the blocks in a cycle and what led to it. -/
structure Schedule where
  batches : List (List BlockId)
  /-- The inferred edges that the order follows. -/
  retained : List InferredEdge
  /-- The inferred edges that are registers. -/
  sequential : List InferredEdge
  constraints : List Constraint
  diagnostics : Diagnostics

namespace Schedule

/-- All blocks, in the order in which they run. -/
def order (s : Schedule) : List BlockId := s.batches.flatten

/-- The place of a block in the order. -/
def rank? (s : Schedule) (b : BlockId) : Option Nat := s.order.idxOf? b

/-- The number of blocks. -/
def size (s : Schedule) : Nat := s.order.length

/-- Whether no block is scheduled. -/
def isEmpty (s : Schedule) : Bool := s.order.isEmpty

end Schedule

/-- Why blocks have no order. -/
inductive ScheduleError where
  /-- A constraint or a net names a block that was not analysed. -/
  | unknownBlock (block : BlockId)
  /-- The constraints alone have cycles. -/
  | constraintCycle (cycles : List CycleReport)
  /-- Constraints and retained edges together have cycles. -/
  | combinationalCycle (cycles : List CycleReport)
deriving DecidableEq

namespace ScheduleError

/-- A heading and a line for each cycle. -/
def listing (heading : String) (cycles : List CycleReport) : String :=
  String.join (heading :: cycles.map fun c => s!"\n  {c.message}")

/-- The wording of a refusal. -/
def message : ScheduleError → String
  | unknownBlock block => s!"constraint references unknown update block #{block}"
  | constraintCycle cycles => listing "explicit constraints form a cycle" cycles
  | combinationalCycle cycles => listing "combinational loop between update blocks" cycles

end ScheduleError

namespace Schedule

/-! ## The ordering graph -/

/-- The node of a block: its place among the analysed blocks. -/
def node (nodes : List BlockId) (b : BlockId) : Except ScheduleError Nat :=
  match nodes.idxOf? b with
  | some i => .ok i
  | none => .error (.unknownBlock b)

/-- Add an edge for each pair of an earlier and a later block. -/
def addPairs (nodes : List BlockId) (g : DiGraph) (pairs : List (BlockId × BlockId)) :
    Except ScheduleError DiGraph :=
  pairs.foldlM (fun g (a, b) => do
    let u ← node nodes a
    let v ← node nodes b
    return g.addEdge u v) g

/-- Whether constraints lead from the reader of an edge to its writer. -/
def isSequential (nodes : List BlockId) (rows : Array BitSet) (e : InferredEdge) :
    Except ScheduleError Bool := do
  let r ← node nodes e.reader
  let w ← node nodes e.writer
  return DiGraph.reaches rows r w

/-- Mark each edge with whether it is sequential. -/
def markSequential (nodes : List BlockId) (rows : Array BitSet) (edges : List InferredEdge) :
    Except ScheduleError (List (InferredEdge × Bool)) :=
  edges.mapM fun e => do return (e, ← isSequential nodes rows e)

/-! ## Batches -/

/-- The nodes of each level, lowest level first. -/
def batchesOf (nodes : List BlockId) (levels : Array Nat) : List (List BlockId) :=
  let depth := levels.foldl (fun depth level => max depth (level + 1)) 0
  (List.range depth).map fun level =>
    ((nodes.zip levels.toList).filter fun (_, l) => l = level).map Prod.fst

end Schedule

open Schedule in
/-- The schedule of the analysed blocks; the signal table serves for reports only. -/
def schedule (signals : SignalTable) (x : Extraction) (nets : NetMap)
    (constraints : List Constraint) : Except ScheduleError Schedule := do
  let nodes := ascendingBy BlockId.index x.analyzed.keys
  let explicit ← addPairs nodes (.empty nodes.length) (constraints.map fun c => (c.before, c.after))
  if explicit.levels.isNone then
    throw (.constraintCycle (CycleReport.ofGraph signals x constraints [] nodes explicit))
  let marked ← markSequential nodes explicit.reach (InferredEdge.inferAll x nets)
  let retained := (marked.filter fun (_, sequential) => !sequential).map Prod.fst
  let sequential := (marked.filter fun (_, sequential) => sequential).map Prod.fst
  let full ← addPairs nodes explicit (retained.map fun e => (e.writer, e.reader))
  match full.levels with
  | none =>
    throw (.combinationalCycle (CycleReport.ofGraph signals x constraints retained nodes full))
  | some levels =>
    let batches := batchesOf nodes levels
    return {
      batches := batches
      retained := retained
      sequential := sequential
      constraints := constraints
      diagnostics := Diagnostics.build nets batches.flatten sequential }

end Cyclewise
