import Cyclewise.Ascending
import Cyclewise.Signal.Table
import Cyclewise.Net.Partition

/-!
# Who drives and who reads a net

A `Wiring` is a partition of the signals together with the blocks that access them.  It answers for
each net which blocks write it, which of its members drive it, and which nets share storage with
it.  Two signals share storage when they are equal or one is part of the other, and two nets share
storage when two of their members do.

A net has a conflict when it is written by two blocks, or has two driving members, or holds a
signal that one block writes while another block writes a whole around it.
-/

namespace Cyclewise

/-- A net with more than one driver. -/
structure DriverConflict where
  net : NetId
  /-- The blocks involved, ascending, with their names. -/
  writers : List (BlockId × String)
  /-- The signals involved, ascending, with their paths. -/
  members : List (SignalId × String)
deriving DecidableEq

namespace DriverConflict

/-- Items after a blank, separated by commas. -/
def listing (items : List String) : String :=
  if items.isEmpty then "" else " " ++ ", ".intercalate items

/-- The wording of a conflict. -/
def message (c : DriverConflict) : String :=
  s!"net {c.net}: driven by" ++ listing (c.writers.map fun (b, name) => s!"'{name}' (#{b})") ++
    "; members" ++ listing (c.members.map Prod.snd)

end DriverConflict

/-- Signals in nets, and blocks that access signals. -/
structure Wiring where
  signals : SignalTable
  partition : Partition
  blocks : List (BlockId × BlockAccess)

namespace Wiring

variable (w : Wiring)

/-! ## Drivers -/

/-- The writes to members of a net: block by block, and by ascending signal for each block. -/
def claims (n : NetId) : List (BlockId × SignalId) :=
  w.blocks.flatMap fun (b, access) =>
    (access.writes.toList.filter fun s => w.partition.net? s = some n).map fun s => (b, s)

/-- The constants in a net, ascending, with their values. -/
def constants (n : NetId) : List (SignalId × UInt64) :=
  (w.partition.membersOf n).filterMap fun s =>
    ((w.signals.get? s).bind fun d => d.kind.constValue?).map fun value => (s, value)

/-- The blocks that write a net. -/
def claimants (n : NetId) : List BlockId := ((w.claims n).map Prod.fst).eraseDups

/-- The members of a net that give it a value: written or constant. -/
def driving (n : NetId) : List SignalId :=
  ((w.claims n).map Prod.snd ++ (w.constants n).map Prod.fst).eraseDups

/-- Whether a net has two writing blocks or two driving members. -/
def contested (n : NetId) : Bool :=
  decide (1 < (w.claimants n).length) || decide (1 < (w.driving n).length)

/-- The driver of a net that is not contested. -/
def driver? (n : NetId) : Option Driver :=
  match w.claims n with
  | (b, s) :: _ => some (.block b s)
  | [] => (w.constants n).head?.map fun (s, value) => .const s value

/-- The blocks that write a signal. -/
def writersOf (s : SignalId) : List BlockId :=
  (w.blocks.filter fun (_, access) => access.writes.contains s).map Prod.fst

/-- The writes to a member of a net that meet a write of another block to a whole around it: both
blocks and both signals. -/
def overlaps (n : NetId) : List ((BlockId × SignalId) × (BlockId × SignalId)) :=
  (w.partition.membersOf n).flatMap fun s =>
    (w.writersOf s).flatMap fun b =>
      (w.signals.ancestors s).flatMap fun whole =>
        ((w.writersOf whole).filter (b ≠ ·)).map fun b' => ((b, s), (b', whole))

/-- The conflict of a net. -/
def conflict? (name : BlockId → String) (n : NetId) : Option DriverConflict :=
  let overlaps := w.overlaps n
  if w.contested n || !overlaps.isEmpty then
    let writers := (if w.contested n then w.claimants n else []) ++
      overlaps.flatMap fun (p, q) => [p.1, q.1]
    let members := (if w.contested n then w.partition.membersOf n else []) ++
      overlaps.flatMap fun (p, q) => [p.2, q.2]
    some
      { net := n
        writers := (ascendingBy BlockId.index writers).map fun b => (b, name b)
        members := (ascendingBy SignalId.index members).map fun s => (s, w.signals.path s) }
  else none

/-- All conflicts, by ascending net. -/
def conflicts (name : BlockId → String) : List DriverConflict :=
  w.partition.ids.filterMap (w.conflict? name)

/-! ## Readers -/

/-- The signals that share storage with a signal. -/
def sharing (s : SignalId) : List SignalId :=
  s :: (w.signals.ancestors s ++ w.signals.descendants s)

/-- The nets that share storage with a net, ascending. -/
def related (n : NetId) : List NetId :=
  ascendingBy NetId.index
    ((w.partition.membersOf n).flatMap fun s => (w.sharing s).filterMap w.partition.net?)

/-- `related` for every net. -/
def relatedTable : Array (List NetId) := (w.partition.ids.map w.related).toArray

/-- The nets that a block reads, ascending: whatever shares storage with a net of a read signal. -/
def readNets (table : Array (List NetId)) (access : BlockAccess) : List NetId :=
  ascendingBy NetId.index
    ((access.reads.toList.filterMap w.partition.net?).flatMap fun n => table.getD n.index [])

/-- The nets that a block writes, ascending. -/
def writeNets (access : BlockAccess) : List NetId :=
  ascendingBy NetId.index (access.writes.toList.filterMap w.partition.net?)

/-- The nets that each block reads and writes. -/
def blockNets (table : Array (List NetId)) : List (BlockId × BlockNets) :=
  w.blocks.map fun (b, access) => (b, ⟨w.readNets table access, w.writeNets access⟩)

/-- A net with its driver, its writers and its readers. -/
def net (blockNets : List (BlockId × BlockNets)) (n : NetId) : Net where
  members := w.partition.membersOf n
  driver := w.driver? n
  writers := ascendingBy BlockId.index (w.claimants n)
  readers :=
    ascendingBy BlockId.index ((blockNets.filter fun (_, nets) => n ∈ nets.reads).map Prod.fst)

end Wiring

end Cyclewise
