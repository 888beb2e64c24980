import Cyclewise.Net.Map

/-!
# Inferred edges

Wherever one block writes a net that another block reads, an edge leads from the writer to the
reader.  An edge carries the members of the net that the two blocks touch and the statements at
its ends.
-/

namespace Cyclewise

/-- A block produces a net that another block consumes. -/
structure InferredEdge where
  writer : BlockId
  reader : BlockId
  net : NetId
  /-- The members of the net that the writer writes or the reader reads, ascending. -/
  signals : List SignalId
  /-- The statements at both ends, by block and place. -/
  sites : List DepSite
deriving DecidableEq

namespace DepSite

/-- Sites by block, then by line, then by column. -/
def le (s t : DepSite) : Bool :=
  s.block.index < t.block.index || (s.block.index == t.block.index &&
    (s.span.line < t.span.line || (s.span.line == t.span.line && s.span.column ≤ t.span.column)))

end DepSite

namespace NetMap

/-- The statements of a block that write a net from another net. -/
def writeSites (m : NetMap) (b : BlockId) (n : NetId) : List DepSite :=
  ((m.edges.filter (·.target = n)).flatMap NetEdge.sites).filter (·.block = b)

/-- The statements of a block that read a net into another net. -/
def readSites (m : NetMap) (b : BlockId) (n : NetId) : List DepSite :=
  ((m.edges.filter (·.source = n)).flatMap NetEdge.sites).filter (·.block = b)

end NetMap

namespace InferredEdge

/-- The edge between a writer and a reader of a net. -/
def infer (x : Extraction) (nets : NetMap) (n : NetId) (writer reader : BlockId) :
    InferredEdge where
  writer := writer
  reader := reader
  net := n
  signals := (nets.members n).filter fun s =>
    (x.access? writer).any (·.writes.contains s) || (x.access? reader).any (·.reads.contains s)
  sites := (nets.writeSites writer n ++ nets.readSites reader n).eraseDups.mergeSort DepSite.le

/-- All edges, by ascending net, writer and reader. -/
def inferAll (x : Extraction) (nets : NetMap) : List InferredEdge :=
  nets.ids.flatMap fun n =>
    (nets.writers n).flatMap fun w =>
      ((nets.readers n).filter (w ≠ ·)).map fun r => infer x nets n w r

end InferredEdge

end Cyclewise
