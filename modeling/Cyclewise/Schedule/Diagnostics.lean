import Cyclewise.Schedule.Edge

/-!
# Diagnostics of a schedule

For a viewer of the data flow: how many members, drivers and readers each net has, every
dependency between two nets inside a block, the rank of every block, and the edges that became
registers.  A dependency is sequential when the net that it reads has one writer and that writer
runs after the block, for then the block sees the value of the last cycle.
-/

namespace Cyclewise

/-- Which value a read sees. -/
inductive EdgeKind where
  /-- The value written earlier in the same cycle. -/
  | combinational
  /-- The value of the last cycle. -/
  | sequential
deriving DecidableEq

instance : ToString EdgeKind where
  toString
    | .combinational => "combinational"
    | .sequential => "sequential"

/-- The ends of a net. -/
structure NetReport where
  net : NetId
  members : Nat
  drivers : Nat
  readers : Nat
deriving DecidableEq

/-- A dependency between two nets inside one block. -/
structure FlowEdge where
  source : NetId
  target : NetId
  block : BlockId
  spans : List Span
  kind : EdgeKind
deriving DecidableEq

/-- What a viewer shows of a schedule. -/
structure Diagnostics where
  nets : List NetReport
  edges : List FlowEdge
  ranks : List (BlockId × Nat)
  sequential : List InferredEdge
deriving DecidableEq

/-- Which value `block` sees when it reads `source`, for blocks of known ranks. -/
def classify (nets : NetMap) (rank? : BlockId → Option Nat) (source : NetId) (block : BlockId) :
    EdgeKind :=
  match nets.writers source with
  | [w] =>
    match rank? block, rank? w with
    | some r, some r' => if w ≠ block ∧ r < r' then .sequential else .combinational
    | _, _ => .combinational
  | _ => .combinational

namespace Diagnostics

/-- The ends of a net. -/
def reportNet (nets : NetMap) (n : NetId) : NetReport where
  net := n
  members := (nets.members n).length
  drivers := if (nets.driver n).isSome then 1 else 0
  readers := (nets.readers n).length

/-- A dependency between two nets, split by block in the order of the statements. -/
def flowEdges (nets : NetMap) (rank? : BlockId → Option Nat) (e : NetEdge) : List FlowEdge :=
  (e.sites.map DepSite.block).eraseDups.map fun b =>
    { source := e.source
      target := e.target
      block := b
      spans := (e.sites.filter (·.block = b)).map DepSite.span
      kind := classify nets rank? e.source b }

/-- The diagnostics of an order of blocks with its registers. -/
def build (nets : NetMap) (order : List BlockId) (sequential : List InferredEdge) :
    Diagnostics where
  nets := nets.ids.map (reportNet nets)
  edges := nets.edges.flatMap (flowEdges nets (order.idxOf? ·))
  ranks := order.zipIdx
  sequential := sequential

/-- The number of dependencies of a kind. -/
def count (d : Diagnostics) (kind : EdgeKind) : Nat := d.edges.countP (·.kind = kind)

/-- The lines of the report, section by section. -/
def lines (d : Diagnostics) : List String :=
  "nets:" ::
    (d.nets.map fun r =>
      s!"  net {r.net}: {r.members} members, {r.drivers} driver(s), {r.readers} reader(s)") ++
  "edges:" ::
    (d.edges.map fun e =>
      s!"  net {e.source} -> net {e.target} in #{e.block} [" ++
        ", ".intercalate (e.spans.map toString) ++ s!"]: {e.kind}") ++
  "ranks:" :: (d.ranks.map fun (b, r) => s!"  #{b}: {r}") ++
  "sequential:" :: (d.sequential.map fun e => s!"  #{e.writer} -> #{e.reader} via net {e.net}")

/-- The report as text, each line ended by a line feed. -/
def text (d : Diagnostics) : String := String.join (d.lines.map (· ++ "\n"))

end Diagnostics

end Cyclewise
