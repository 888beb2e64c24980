/-!
# Identifiers

Signals, update blocks, components and nets are named by the number they were given when they
entered the design, in order.  A number has 32 bits and is never reused within its kind, and the
text of an identifier is its decimal number.
-/

namespace Cyclewise

/-- A signal, by its position in the signal table. -/
structure SignalId where
  index : Nat
deriving DecidableEq, Inhabited

/-- An update block, by its position in registration order.  The scheduler breaks ties by it. -/
structure BlockId where
  index : Nat
deriving DecidableEq, Inhabited

/-- A component of the hierarchy; the top is number 0. -/
structure ComponentId where
  index : Nat
deriving DecidableEq, Inhabited

/-- A net: a class of connected signals, meaningful only within one resolution. -/
structure NetId where
  index : Nat
deriving DecidableEq, Inhabited

instance : ToString SignalId := ⟨fun s => toString s.index⟩

instance : ToString BlockId := ⟨fun b => toString b.index⟩

instance : ToString ComponentId := ⟨fun c => toString c.index⟩

instance : ToString NetId := ⟨fun n => toString n.index⟩

/-- The demand that `before` runs earlier than `after` in every cycle. -/
structure Constraint where
  before : BlockId
  after : BlockId
deriving DecidableEq

instance : ToString Constraint := ⟨fun c => s!"#{c.before} < #{c.after}"⟩

end Cyclewise
