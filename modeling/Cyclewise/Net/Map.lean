import Cyclewise.Block.Extraction

/-!
# Nets

A net is a class of connected signals.  All its members hold one value, which comes from at most
one driver: a block that writes a member, or a constant member.  A block also reads a net when it
reads a whole of which the net holds a part, or a part of which the net holds the whole.
-/

namespace Cyclewise

/-- Two signals wired together. -/
structure Connection where
  a : SignalId
  b : SignalId
deriving DecidableEq

/-- Where the value of a net comes from. -/
inductive Driver where
  /-- A block writes this member. -/
  | block (block : BlockId) (signal : SignalId)
  /-- This member is a constant. -/
  | const (signal : SignalId) (value : UInt64)
deriving DecidableEq

/-- A class of connected signals with the blocks at its ends, all by ascending number. -/
structure Net where
  members : List SignalId
  driver : Option Driver
  writers : List BlockId
  readers : List BlockId
deriving DecidableEq

namespace Net

/-- What is known of a net that does not exist. -/
def none : Net := ⟨[], .none, [], []⟩

end Net

/-- The nets that a block reads and writes, by ascending number. -/
structure BlockNets where
  reads : List NetId
  writes : List NetId
deriving DecidableEq

/-- Statements that make one net depend on another one. -/
structure NetEdge where
  source : NetId
  target : NetId
  sites : List DepSite
deriving DecidableEq

/-- The nets of a design, seen from the signals, from the blocks and from each other. -/
structure NetMap where
  netOf : Array NetId
  nets : Array Net
  blocks : OrderedMap BlockId BlockNets
  edges : List NetEdge
deriving Inhabited

namespace NetMap

/-- The number of nets. -/
def size (m : NetMap) : Nat := m.nets.size

/-- All nets, ascending. -/
def ids (m : NetMap) : List NetId := (List.range m.size).map NetId.mk

/-- The net of a signal. -/
def net? (m : NetMap) (s : SignalId) : Option NetId := m.netOf[s.index]?

/-- A net by its number. -/
def get (m : NetMap) (n : NetId) : Net := m.nets.getD n.index Net.none

/-- The members of a net. -/
def members (m : NetMap) (n : NetId) : List SignalId := (m.get n).members

/-- The driver of a net. -/
def driver (m : NetMap) (n : NetId) : Option Driver := (m.get n).driver

/-- The blocks that write a net. -/
def writers (m : NetMap) (n : NetId) : List BlockId := (m.get n).writers

/-- The blocks that read a net. -/
def readers (m : NetMap) (n : NetId) : List BlockId := (m.get n).readers

/-- The nets that a block reads. -/
def readsOf (m : NetMap) (b : BlockId) : List NetId :=
  ((m.blocks.find? b).map BlockNets.reads).getD []

/-- The nets that a block writes. -/
def writesOf (m : NetMap) (b : BlockId) : List NetId :=
  ((m.blocks.find? b).map BlockNets.writes).getD []

/-- The nets without a driver. -/
def undriven (m : NetMap) : List NetId := m.ids.filter fun n => (m.driver n).isNone

end NetMap

end Cyclewise
