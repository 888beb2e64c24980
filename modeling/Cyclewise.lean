import Cyclewise.Id
import Cyclewise.Ascending
import Cyclewise.OrderedMap
import Cyclewise.BitSet
import Cyclewise.Signal.Set
import Cyclewise.Signal.Cursor
import Cyclewise.Signal.Table
import Cyclewise.Signal.Script
import Cyclewise.Block.Body
import Cyclewise.Block.Behavior
import Cyclewise.Block.Access
import Cyclewise.Block.Extraction
import Cyclewise.Block.Act
import Cyclewise.Block.Stock
import Cyclewise.Graph.Basic
import Cyclewise.Graph.Reach
import Cyclewise.Graph.Level
import Cyclewise.Graph.Component
import Cyclewise.Net.DisjointSets
import Cyclewise.Net.Map
import Cyclewise.Net.Partition
import Cyclewise.Net.Wiring
import Cyclewise.Net.Resolution
import Cyclewise.Net.Tables
import Cyclewise.Schedule.Edge
import Cyclewise.Schedule.Cycle
import Cyclewise.Schedule.Diagnostics
import Cyclewise.Schedule.Basic
import Cyclewise.Hierarchy.Basic
import Cyclewise.Hierarchy.Edit
import Cyclewise.Hierarchy.Script
import Cyclewise.Hierarchy.History
import Cyclewise.Store
import Cyclewise.Store.Slots
import Cyclewise.Text.CodeRange
import Cyclewise.Text.Graphic
import Cyclewise.Text.Extending
import Cyclewise.Text.Quoted
import Cyclewise.Config
import Cyclewise.Tick
import Cyclewise.Design
import Cyclewise.Elaboration
import Cyclewise.Simulator
import Cyclewise.History
import Cyclewise.Profile
import Cyclewise.Proofs.Arrays
import Cyclewise.Proofs.Numbers
import Cyclewise.Proofs.BitSet
import Cyclewise.Proofs.OrderedMap
import Cyclewise.Proofs.Block.Meaning
import Cyclewise.Proofs.Block.Scan
import Cyclewise.Proofs.Block.Noninterference
import Cyclewise.Proofs.Net.Partition
import Cyclewise.Proofs.Block.Extraction
import Cyclewise.Proofs.DepthFirst
import Cyclewise.Proofs.Signal.Forest
import Cyclewise.Proofs.Signal.Index
import Cyclewise.Proofs.Signal.Declaring
import Cyclewise.Proofs.Net.DisjointSets
import Cyclewise.Proofs.Net.Classes
import Cyclewise.Proofs.Net.Ranks
import Cyclewise.Proofs.Hierarchy.Built
import Cyclewise.Proofs.Elaboration
import Cyclewise.Proofs.Graph.Reach
import Cyclewise.Proofs.Graph.Level
import Cyclewise.Proofs.Net.Resolution
import Cyclewise.Proofs.Schedule.Batches
import Cyclewise.Proofs.Schedule.Basic
import Cyclewise.Proofs.Ordering
import Cyclewise.Proofs.Store
import Cyclewise.Proofs.Block.Trace
import Cyclewise.Proofs.Tick
import Cyclewise.Proofs.Simulator
import Cyclewise.Proofs.Registers
import Cyclewise.Proofs.Commute
import Cyclewise.Proofs.Block.Confined
import Cyclewise.Proofs.Confluence
import Cyclewise.Proofs.Graph.Acyclic
import Cyclewise.Proofs.Schedule.Acceptance
import Cyclewise.Proofs.Net.Overlap
import Cyclewise.Proofs.Net.Relations
import Cyclewise.Proofs.Constants
import Cyclewise.Proofs.Slots
import Cyclewise.Proofs.Staleness
import Cyclewise.Proofs.Graph.Longest
import Cyclewise.Proofs.Graph.Search
import Cyclewise.Proofs.Schedule.Shape
import Cyclewise.Proofs.Modes
import Cyclewise.Proofs.Net.Drivers
import Cyclewise.Proofs.Net.Conflicts
import Cyclewise.Proofs.Net.Outputs
import Cyclewise.Proofs.Net.Canonical
import Cyclewise.Proofs.Graph.Component
import Cyclewise.Proofs.Schedule.Cycles
import Cyclewise.Proofs.Schedule.ClosedWalks
import Cyclewise.Proofs.Hierarchy.Invariant
import Cyclewise.Proofs.Hierarchy.Traversal
import Cyclewise.Proofs.Hierarchy.Removal
import Cyclewise.Proofs.Hierarchy.Calls
import Cyclewise.Proofs.Block.Names
import Cyclewise.Proofs.Refusals
import Cyclewise.Proofs.Block.Acts
import Cyclewise.Proofs.SignalErrors
import Cyclewise.Proofs.Onward
import Cyclewise.Proofs.Cycles
import Cyclewise.Proofs.Atomicity
import Cyclewise.Proofs.Net.Edges
import Cyclewise.Proofs.Net.Reordering
import Cyclewise.Proofs.Net.Extension
import Cyclewise.Proofs.Schedule.Reordering
import Cyclewise.Proofs.Schedule.Classification
import Cyclewise.Proofs.Schedule.Flows
import Cyclewise.Proofs.Restart
import Cyclewise.Proofs.Carry
import Cyclewise.Proofs.Declarations
import Cyclewise.Proofs.Hierarchy.Scripts
import Cyclewise.Proofs.Hierarchy.Collecting
import Cyclewise.Proofs.Hierarchy.Cache
import Cyclewise.Proofs.Hierarchy.Graft
import Cyclewise.Proofs.Block.Loops
import Cyclewise.Proofs.Block.Footprint
import Cyclewise.Proofs.Block.Dependence
import Cyclewise.Proofs.Signal.Cursor
import Cyclewise.Proofs.Ring.Counting
import Cyclewise.Proofs.Net.Ranks
import Cyclewise.Proofs.Net.Numbering
import Cyclewise.Proofs.Net.ConflictTable
import Cyclewise.Proofs.Net.Tables
