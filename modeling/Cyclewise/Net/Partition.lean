import Cyclewise.Net.DisjointSets
import Cyclewise.Net.Map

/-!
# Connected signals

`Partition.ofConnections n connections` splits the signals `0, …, n - 1` into the classes that the
connections generate, and numbers the classes by their smallest members.  The result depends on
which signals are connected, not on how.
-/

namespace Cyclewise

/-- The net of each signal and the signals of each net. -/
structure Partition where
  netOf : Array NetId
  members : Array (List SignalId)

namespace Partition

/-- Merge the sets of connected signals. -/
def merge (n : Nat) (connections : List Connection) : DisjointSets :=
  connections.foldl (fun d c => (d.union c.a.index c.b.index).2) (DisjointSets.singletons n)

/-- The classes of the root of each signal, numbered by first occurrence. -/
def ofRoots (roots : List Nat) : Partition :=
  let classes := roots.eraseDups
  { netOf := (roots.map fun r => NetId.mk (classes.idxOf r)).toArray
    members := (classes.map fun r =>
      (roots.zipIdx.filter fun (r', _) => r' = r).map fun (_, i) => SignalId.mk i).toArray }

/-- The classes of `n` signals that connections generate.  The signals are counted in 32 bits: there
are fewer than `2 ^ 32` of them, one less than a table can hold. -/
def ofConnections (n : Nat) (connections : List Connection) : Partition :=
  let sets := merge n connections
  ofRoots ((List.range n).map sets.root)

/-- The number of classes. -/
def size (p : Partition) : Nat := p.members.size

/-- All classes, ascending. -/
def ids (p : Partition) : List NetId := (List.range p.size).map NetId.mk

/-- The class of a signal. -/
def net? (p : Partition) (s : SignalId) : Option NetId := p.netOf[s.index]?

/-- The signals of a class, ascending. -/
def membersOf (p : Partition) (n : NetId) : List SignalId := p.members.getD n.index []

end Partition

end Cyclewise
