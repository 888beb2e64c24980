import Cyclewise.Net.Resolution

/-!
# Resolving in place

The loops of `resolve` once more, as they fill tables that all nets and blocks share.

* The signals are numbered one after the other, by the roots that are found for them.  Each look-up
  of a root shortens the way to it for the later ones.
* One pass over the accesses enters every write with its net and with its signal.
* One pass over the nets gives each its writers, and a driver or a conflict.  One pass over the
  written signals enters overlaps into the same table of conflicts, in the order in which they are
  met.  The conflicts are sorted for the report only.
* One pass over the accesses enters each block with all nets that it reads.
-/

namespace Cyclewise

/-- Add the items that are missing, one after the other, at the end. -/
def addMissing {α : Type} [DecidableEq α] (known xs : List α) : List α :=
  xs.foldl (fun known x => if x ∈ known then known else known ++ [x]) known

/-! ## Nets -/

/-- The signals numbered so far: the net of each root, the net of each signal and the signals of
each net. -/
structure Numbering where
  sets : DisjointSets
  rootNets : OrderedMap Nat NetId
  netOf : Array NetId
  members : Array (List SignalId)

namespace Numbering

/-- No signal is numbered. -/
def start (sets : DisjointSets) : Numbering := ⟨sets, ∅, #[], #[]⟩

/-- Put the next signal into the net of its root, which is a new one if the root has none. -/
def number (t : Numbering) (i : Nat) : Numbering :=
  let (root, sets) := t.sets.find i
  let net := t.rootNets.findD root ⟨t.rootNets.size⟩
  let members := if t.members.size ≤ net.index then t.members.push [] else t.members
  { sets
    rootNets := t.rootNets.insert root net
    netOf := t.netOf.push net
    members := members.modify net.index (· ++ [⟨i⟩]) }

/-- Merge connected signals, and number all. -/
def ofConnections (n : Nat) (connections : List Connection) : Numbering :=
  (List.range n).foldl number (start (Partition.merge n connections))

/-- The nets. -/
def partition (t : Numbering) : Partition := ⟨t.netOf, t.members⟩

end Numbering

/-! ## Writes -/

/-- The writes entered so far: for each net those to its members, for each signal the blocks that
write it, and for each block the nets that it writes. -/
structure WriteTables where
  claims : Array (List (BlockId × SignalId))
  signalWriters : OrderedMap SignalId (List BlockId)
  blockWrites : OrderedMap BlockId (List NetId)

namespace WriteTables

/-- Nothing is entered for `n` nets. -/
def start (n : Nat) : WriteTables := ⟨Array.replicate n [], ∅, ∅⟩

/-- Enter a write. -/
def enterWrite (p : Partition) (b : BlockId) (t : WriteTables) (s : SignalId) : WriteTables :=
  { t with
    claims :=
      match p.net? s with
      | some n => t.claims.modify n.index (· ++ [(b, s)])
      | none => t.claims
    signalWriters := t.signalWriters.modify s [] (· ++ [b]) }

/-- Enter the writes of a block. -/
def enterBlock (p : Partition) (t : WriteTables) (e : BlockId × BlockAccess) : WriteTables :=
  let writes := e.2.writes.toList
  { writes.foldl (enterWrite p e.1) t with
    blockWrites := t.blockWrites.insert e.1 (ascendingBy NetId.index (writes.filterMap p.net?)) }

/-- Enter the writes of all blocks. -/
def ofWiring (w : Wiring) : WriteTables :=
  w.blocks.foldl (enterBlock w.partition) (start w.partition.size)

end WriteTables

/-! ## Conflicts -/

/-- The blocks and the signals of a conflict, in the order in which they were entered. -/
structure Involved where
  writers : List BlockId
  members : List SignalId

namespace Involved

/-- Nothing is involved. -/
def none : Involved := ⟨[], []⟩

/-- Enter blocks and signals. -/
def add (c : Involved) (bs : List BlockId) (ss : List SignalId) : Involved :=
  ⟨addMissing c.writers bs, addMissing c.members ss⟩

end Involved

/-- The nets in conflict, in the order in which they were found. -/
abbrev ConflictTable := OrderedMap NetId Involved

namespace ConflictTable

/-- Enter blocks and signals into the conflict of a net. -/
def enter (c : ConflictTable) (n : NetId) (bs : List BlockId) (ss : List SignalId) :
    ConflictTable :=
  c.modify n Involved.none (·.add bs ss)

/-- Enter a write to a signal and a write to a whole around it, unless one block does both. -/
def meet (p : Partition) (part whole : BlockId × SignalId) (c : ConflictTable) : ConflictTable :=
  if part.1 = whole.1 then c
  else
    match p.net? part.2 with
    | some n => c.enter n [part.1, whole.1] [part.2, whole.2]
    | none => c

/-- Enter the writes to a signal and the writes to a whole around it, each with each. -/
def meetAll (p : Partition) (part whole : SignalId × List BlockId) (c : ConflictTable) :
    ConflictTable :=
  part.2.foldl (fun c b => whole.2.foldl (fun c b' => c.meet p (b, part.1) (b', whole.1)) c) c

/-- Enter the writes to a signal that meet writes to one whole around it. -/
def overlapWhole (w : Wiring) (signalWriters : OrderedMap SignalId (List BlockId))
    (part : SignalId × List BlockId) (c : ConflictTable) (whole : SignalId) : ConflictTable :=
  match signalWriters.find? whole with
  | some others => c.meetAll w.partition part (whole, others)
  | none => c

/-- Enter the writes to a signal that meet writes to the wholes around it. -/
def overlap (w : Wiring) (signalWriters : OrderedMap SignalId (List BlockId)) (c : ConflictTable)
    (part : SignalId × List BlockId) : ConflictTable :=
  (w.signals.ancestors part.1).foldl (overlapWhole w signalWriters part) c

/-- The conflict of a net, sorted and with names. -/
def describe (w : Wiring) (name : BlockId → String) (e : NetId × Involved) : DriverConflict where
  net := e.1
  writers := (ascendingBy BlockId.index e.2.writers).map fun b => (b, name b)
  members := (ascendingBy SignalId.index e.2.members).map fun s => (s, w.signals.path s)

/-- All conflicts, sorted by net. -/
def report (w : Wiring) (name : BlockId → String) (c : ConflictTable) : List DriverConflict :=
  (c.entries.map (describe w name)).mergeSort fun c c' => c.net.index ≤ c'.net.index

end ConflictTable

/-! ## Drivers -/

/-- The drivers, the writers and the conflicts found so far. -/
structure DriverTables where
  drivers : Array (Option Driver)
  writers : Array (List BlockId)
  conflicts : ConflictTable

namespace DriverTables

/-- Nothing is found for `n` nets. -/
def start (n : Nat) : DriverTables := ⟨Array.replicate n none, Array.replicate n [], ∅⟩

/-- Look at a net: its writers, and its driver if it is not contested. -/
def look (w : Wiring) (claims : Array (List (BlockId × SignalId))) (t : DriverTables)
    (n : NetId) : DriverTables :=
  let claimed := claims.getD n.index []
  let blocks := addMissing [] (claimed.map Prod.fst)
  let driving := addMissing (addMissing [] (claimed.map Prod.snd)) ((w.constants n).map Prod.fst)
  let writers := t.writers.setIfInBounds n.index (ascendingBy BlockId.index blocks)
  if 1 < blocks.length ∨ 1 < driving.length then
    { t with writers, conflicts := t.conflicts.enter n blocks (w.partition.membersOf n) }
  else
    let driver :=
      match claimed with
      | (b, s) :: _ => some (.block b s)
      | [] => (w.constants n).head?.map fun (s, value) => .const s value
    { t with writers, drivers := t.drivers.setIfInBounds n.index driver }

/-- Look at all nets. -/
def ofWiring (w : Wiring) (claims : Array (List (BlockId × SignalId))) : DriverTables :=
  w.partition.ids.foldl (look w claims) (start w.partition.size)

end DriverTables

/-! ## Reads -/

/-- The nets that share storage with the net of a signal, in the order in which they are met. -/
def Wiring.near (w : Wiring) (s : SignalId) : List NetId :=
  match w.partition.net? s with
  | some n => (w.partition.membersOf n).flatMap fun m => (w.sharing m).filterMap w.partition.net?
  | none => []

/-- The reads entered so far: for each net the blocks that read it, and for each block the nets that
it reads. -/
structure ReadTables where
  readers : Array (List BlockId)
  blockReads : OrderedMap BlockId (List NetId)

namespace ReadTables

/-- Nothing is entered for `n` nets. -/
def start (n : Nat) : ReadTables := ⟨Array.replicate n [], ∅⟩

/-- Enter the reads of a block. -/
def enterBlock (w : Wiring) (t : ReadTables) (e : BlockId × BlockAccess) : ReadTables :=
  let reads := ascendingBy NetId.index (e.2.reads.toList.flatMap w.near)
  { readers := reads.foldl (fun readers n => readers.modify n.index (· ++ [e.1])) t.readers
    blockReads := t.blockReads.insert e.1 reads }

/-- Enter the reads of all blocks. -/
def ofWiring (w : Wiring) : ReadTables := w.blocks.foldl (enterBlock w) (start w.partition.size)

end ReadTables

/-! ## All loops -/

/-- The outputs of `top` that are near to no driven net. -/
def Wiring.undrivenNear (w : Wiring) (drivers : Array (Option Driver)) (top : ComponentId) :
    List (SignalId × String) :=
  (w.signals.toList.filter fun (s, d) =>
    d.kind = .outPort && d.owner = top &&
      !(w.near s).any fun n => (drivers.getD n.index none).isSome).map fun (s, d) => (s, d.path)

/-- The nets, from the tables. -/
def Wiring.netsOf (w : Wiring) (writes : WriteTables) (nets : DriverTables) (reads : ReadTables)
    (edges : List NetEdge) : NetMap where
  netOf := w.partition.netOf
  nets := (w.partition.ids.map fun n =>
    { members := w.partition.membersOf n
      driver := nets.drivers.getD n.index none
      writers := nets.writers.getD n.index []
      readers := ascendingBy BlockId.index (reads.readers.getD n.index []) }).toArray
  blocks := OrderedMap.ofList (w.blocks.map fun (b, _) =>
    (b, ⟨reads.blockReads.findD b [], writes.blockWrites.findD b []⟩))
  edges := edges

/-- The nets of a design, loop by loop. -/
def resolveInPlace (signals : SignalTable) (connections : List Connection) (x : Extraction)
    (options : ResolveOptions) : Except NetError NetMap :=
  match (mentionedSignals connections x).find? fun s => !signals.contains s with
  | some s => .error (.unknownSignal s)
  | none =>
    let w : Wiring :=
      ⟨signals, (Numbering.ofConnections signals.size connections).partition, x.blocks⟩
    let writes := WriteTables.ofWiring w
    let nets := DriverTables.ofWiring w writes.claims
    let conflicts :=
      writes.signalWriters.entries.foldl (ConflictTable.overlap w writes.signalWriters)
        nets.conflicts
    if !conflicts.isEmpty then .error (.multipleDrivers (conflicts.report w x.name))
    else
      let reads := ReadTables.ofWiring w
      let outputs := if options.denyUndriven then w.undrivenNear nets.drivers options.top else []
      if !outputs.isEmpty then .error (.undrivenOutput outputs)
      else .ok (w.netsOf writes nets reads (w.partition.netEdges x.deps))

end Cyclewise
