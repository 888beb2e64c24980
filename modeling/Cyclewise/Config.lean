import Cyclewise.Id

/-!
# Settings of a simulation

A run is allowed a number of cycles, which must not be zero.
-/

namespace Cyclewise

/-- How the scheduled blocks are put together into a tick. -/
inductive TickMode where
  /-- A list of steps. -/
  | normal
  /-- A tree of steps, fused pair by pair. -/
  | unrolled
deriving DecidableEq, Inhabited

instance : ToString TickMode where
  toString
    | .normal => "normal"
    | .unrolled => "unrolled"

/-- Settings for elaboration and execution. -/
structure SimConfig where
  mode : TickMode := .normal
  /-- Refuse outputs of the top component that nothing drives. -/
  denyUndriven : Bool := false
  /-- The most cycles that one run advances. -/
  maxCycles : Nat := 1000000
deriving DecidableEq, Inhabited

/-- Why settings or connections are refused. -/
inductive ConfigError where
  /-- No run could advance. -/
  | zeroCycleBudget
  /-- A connection names a signal that is not declared. -/
  | unknownEndpoint (signal : SignalId)
deriving DecidableEq

namespace ConfigError

/-- The wording of a refusal. -/
def message : ConfigError → String
  | zeroCycleBudget => "max_cycles_per_run must be at least 1"
  | unknownEndpoint signal => s!"connection references unknown signal {signal}"

end ConfigError

namespace SimConfig

/-- Check the settings themselves. -/
def validate (c : SimConfig) : Except ConfigError Unit :=
  if c.maxCycles = 0 then .error .zeroCycleBudget else .ok ()

end SimConfig

end Cyclewise
