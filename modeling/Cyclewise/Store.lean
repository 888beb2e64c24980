import Cyclewise.Net.Map

/-!
# Stores

A `SignalStore` has one cell for each net, which all members of the net share: a write through one
signal shows at once through every signal connected to it.  The cell of a net that is driven by a
constant holds that constant and takes no writes.  An `IsolatedStore` has a cell for each of some
signals and knows nothing of nets.
-/

namespace Cyclewise

/-- The value of a net, the value to return to, and whether writes are refused. -/
structure Cell where
  value : UInt64
  initial : UInt64
  fixed : Bool
deriving DecidableEq, Inhabited

namespace Cell

/-- The cell of a net with a driver: its constant, or zero. -/
def ofDriver : Option Driver → Cell
  | some (.const _ value) => ⟨value, value, true⟩
  | some (.block _ _) | none => ⟨0, 0, false⟩

end Cell

/-- A cell for each net, and the net of each signal. -/
structure SignalStore where
  netOf : Array NetId
  cells : Array Cell
deriving DecidableEq, Inhabited

namespace SignalStore

/-- The store that covers no signal. -/
def empty : SignalStore := ⟨#[], #[]⟩

/-- The store of resolved nets, with every net at its initial value. -/
def ofNets (nets : NetMap) : SignalStore where
  netOf := nets.netOf
  cells := nets.nets.map fun n => Cell.ofDriver n.driver

/-- The number of signals covered. -/
def size (s : SignalStore) : Nat := s.netOf.size

/-- Whether no signal is covered. -/
def isEmpty (s : SignalStore) : Bool := s.netOf.isEmpty

/-- The cell that a signal shares. -/
def cell? (s : SignalStore) (a : SignalId) : Option (NetId × Cell) :=
  (s.netOf[a.index]?).bind fun n => (s.cells[n.index]?).map fun c => (n, c)

/-- The value of a signal. -/
def read? (s : SignalStore) (a : SignalId) : Option UInt64 := (s.cell? a).map fun (_, c) => c.value

/-- Set the value of a signal and with it of its net. -/
def write (s : SignalStore) (a : SignalId) (value : UInt64) : Except BlockError SignalStore :=
  match s.cell? a with
  | none => .error (.unknownSignal a)
  | some (n, c) =>
    if c.fixed then .error (.constWrite a)
    else .ok { s with cells := s.cells.modify n.index fun c => { c with value } }

instance : SignalState SignalStore := ⟨read?, write⟩

/-- Every net at its initial value. -/
def reset (s : SignalStore) : SignalStore :=
  { s with cells := s.cells.map fun c => { c with value := c.initial } }

/-- Pass a signal of a net on the way through all signals: the cell of the net, and whether it has
been filled already.  The value of the signal in the earlier store goes into it, unless it takes no
writes or was filled before. -/
def takeOver (earlier : SignalStore) (a : SignalId) : Cell × Bool → Cell × Bool
  | (c, filled) =>
    if filled || c.fixed then (c, filled)
    else
      match earlier.read? a with
      | some value => ({ c with value }, true)
      | none => (c, filled)

/-- Take over the values of an earlier store, signal by signal.  Constants stay, and so do nets of
new signals. -/
def carry (s earlier : SignalStore) : SignalStore :=
  let unfilled := s.cells.map fun c => (c, false)
  let cells := s.netOf.toList.zipIdx.foldl
    (fun cells (n, i) => cells.modify n.index (takeOver earlier ⟨i⟩)) unfilled
  { s with cells := cells.map Prod.fst }

end SignalStore

/-- Values of separate signals, and the number of successful writes. -/
structure IsolatedStore where
  values : OrderedMap SignalId UInt64
  writes : Nat

namespace IsolatedStore

/-- Some signals at zero. -/
def ofSignals (as : List SignalId) : IsolatedStore := ⟨OrderedMap.ofList (as.map (·, 0)), 0⟩

/-- Add a signal or change its value, without counting a write. -/
def set (s : IsolatedStore) (a : SignalId) (value : UInt64) : IsolatedStore :=
  { s with values := s.values.insert a value }

/-- The value of a signal. -/
def read? (s : IsolatedStore) (a : SignalId) : Option UInt64 := s.values.find? a

/-- Change the value of a known signal. -/
def write (s : IsolatedStore) (a : SignalId) (value : UInt64) : Except BlockError IsolatedStore :=
  if s.values.contains a then .ok ⟨s.values.insert a value, s.writes + 1⟩
  else .error (.unknownSignal a)

instance : SignalState IsolatedStore := ⟨read?, write⟩

end IsolatedStore

end Cyclewise
