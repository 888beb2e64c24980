import Cyclewise.Signal.Table
import Cyclewise.Store

/-!
# Stores in place

A store once more, as it is kept and changed in place: the net of each signal and, side by side, for
each net whether it takes no writes, its value, and its initial value.  A write looks for the net,
refuses an unknown signal or a net that takes no writes, and changes one value otherwise.
-/

namespace Cyclewise

/-- The nets that constants drive, with the constants. -/
def NetMap.constants (m : NetMap) : List (NetId × UInt64) :=
  m.ids.filterMap fun n =>
    match m.driver n with
    | some (.const _ value) => some (n, value)
    | some (.block _ _) | none => none

/-- The lists of a store. -/
structure Slots where
  netOf : Array (Option NetId)
  fixed : Array Bool
  values : Array UInt64
  initial : Array UInt64

namespace Slots

/-- The lists for some signals and their nets.  All nets start at zero and take writes, apart from
those that constants drive. -/
def ofNets (signals : SignalTable) (nets : NetMap) : Slots :=
  let initial := nets.constants.foldl (fun xs e => xs.modify e.1.index fun _ => e.2)
    (Array.replicate nets.size 0)
  let fixed := nets.constants.foldl (fun xs e => xs.modify e.1.index fun _ => true)
    (Array.replicate nets.size false)
  { netOf := (signals.ids.map nets.net?).toArray, fixed, values := initial, initial }

/-- The place of a signal in the lists. -/
def slot? (t : Slots) (a : SignalId) : Option Nat := (t.netOf[a.index]?).join.map NetId.index

/-- The value of a signal. -/
def read? (t : Slots) (a : SignalId) : Option UInt64 :=
  (t.slot? a).map fun n => t.values.getD n 0

/-- Checks and changes of the lists. -/
abbrev Script := EStateM BlockError Slots

/-- Set the value of a signal and with it of its net. -/
def Script.write (a : SignalId) (value : UInt64) : Script Unit := do
  let t ← get
  match t.slot? a with
  | none => throw (.unknownSignal a)
  | some n =>
    if t.fixed.getD n false then throw (.constWrite a)
    modify fun t => { t with values := t.values.setIfInBounds n value }

/-- Do a write in place. -/
def write (t : Slots) (a : SignalId) (value : UInt64) : Except BlockError Unit × Slots :=
  match (Script.write a value).run t with
  | .ok _ t => (.ok (), t)
  | .error e t => (.error e, t)

/-- Do writes in place, in order: those that succeed, and the lists after all. -/
def writeAll (t : Slots) : List (SignalId × UInt64) → List (SignalId × UInt64) × Slots
  | [] => ([], t)
  | (a, value) :: rest =>
    let (outcome, t) := t.write a value
    let (done, t) := t.writeAll rest
    match outcome with
    | .ok () => ((a, value) :: done, t)
    | .error _ => (done, t)

end Slots

end Cyclewise
