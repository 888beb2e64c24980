import Cyclewise.Elaboration
import Cyclewise.Store

/-!
# Simulation

A simulator holds a design together with its elaboration, its tick and the values of its signals.

* A tick is refused after a failed cycle (the simulator is halted), and it is refused when
  the design was edited since it was last elaborated (the schedule is stale).
* A failed cycle keeps what was written before the failure, and halts the simulator until it is
  reset or elaborated anew.
* Elaborating anew carries the values of the signals over and keeps the cycle.  If it fails, nothing
  changes but the design.
-/

namespace Cyclewise

/-- The last completed cycle. -/
structure TickMetrics where
  cycle : Nat
  blocksRun : Nat
deriving DecidableEq, Inhabited

/-- A design that can be run. -/
structure Simulator (μ : Type) where
  design : Design μ
  config : SimConfig
  elaboration : Elaboration
  tickProcedure : Tick μ
  store : SignalStore
  /-- What the behaviors keep between calls. -/
  memory : μ
  /-- The number of cycles completed since the start or the last reset, below `2 ^ 64`. -/
  cycle : Nat
  halted : Bool
  lastTick : TickMetrics

namespace Simulator

variable {μ : Type}

/-- Elaborate a design and start at cycle 0 with initial values. -/
def new (design : Design μ) (config : SimConfig) (memory : μ) :
    Except ElaborationError (Simulator μ) := do
  let (elaboration, tickProcedure) ← design.compile config
  return {
    design, config, elaboration, tickProcedure, memory
    store := SignalStore.ofNets elaboration.nets
    cycle := 0
    halted := false
    lastTick := ⟨0, 0⟩ }

/-! ## Values -/

/-- The value of a signal. -/
def peek (s : Simulator μ) (a : SignalId) : Option UInt64 := s.store.read? a

/-- The value of the signal with a path. -/
def peekPath (s : Simulator μ) (path : String) : Option UInt64 :=
  (s.design.signals.lookup? path).bind s.peek

/-- Set a signal, and with it its net, from outside. -/
def poke (s : Simulator μ) (a : SignalId) (value : UInt64) :
    Except BlockError Unit × Simulator μ :=
  match s.store.write a value with
  | .ok store => (.ok (), { s with store })
  | .error e => (.error e, s)

/-! ## Cycles -/

/-- Run one cycle. -/
def tick (s : Simulator μ) : Except StepError Unit × Simulator μ :=
  if s.halted then (.error .halted, s)
  else if s.tickProcedure.revision ≠ s.design.revision then
    (.error (.staleSchedule s.tickProcedure.revision s.design.revision), s)
  else
    match s.tickProcedure.call s.cycle (⟨s.memory, s.store⟩ : Machine μ SignalStore) with
    | (.ok (), m) =>
      (.ok (),
        { s with
          memory := m.memory
          store := m.signals
          cycle := s.cycle + 1
          lastTick := ⟨s.cycle + 1, s.tickProcedure.size⟩ })
    | (.error e, m) => (.error e, { s with memory := m.memory, store := m.signals, halted := true })

/-- Run `n` cycles, up to the first failure. -/
def ticks : Nat → Simulator μ → Except StepError Unit × Simulator μ
  | 0, s => (.ok (), s)
  | n + 1, s =>
    match s.tick with
    | (.ok (), s) => ticks n s
    | (.error e, s) => (.error e, s)

/-- Run some cycles, but no more than the settings allow, and tell how many. -/
def run (s : Simulator μ) (cycles : Nat) : Except StepError Nat × Simulator μ :=
  let n := min cycles s.config.maxCycles
  match s.ticks n with
  | (.ok (), s) => (.ok n, s)
  | (.error e, s) => (.error e, s)

/-- Go back to cycle 0 and initial values; the schedule stays. -/
def reset (s : Simulator μ) : Simulator μ :=
  { s with store := s.store.reset, cycle := 0, halted := false, lastTick := ⟨0, 0⟩ }

/-! ## Changes of the design -/

/-- Elaborate the design anew. -/
def reelaborate (s : Simulator μ) : Except ElaborationError Unit × Simulator μ :=
  match s.design.compile s.config with
  | .error e => (.error e, s)
  | .ok (elaboration, tickProcedure) =>
    (.ok (),
      { s with
        elaboration
        tickProcedure
        store := (SignalStore.ofNets elaboration.nets).carry s.store
        halted := false })

/-- Edit the design; its tick is stale until it is elaborated anew. -/
def edit (s : Simulator μ) (e : Edit μ) : Except EditError EditResult × Simulator μ :=
  match s.design.apply e with
  | .ok (result, design) => (.ok result, { s with design })
  | .error refusal => (.error refusal, s)

/-- Make edits in order and elaborate anew.  At a refused edit this ends, with the edits before it
made and nothing elaborated.  The results of the edits made come along. -/
def restructure (s : Simulator μ) (edits : List (Edit μ)) :
    (Except ElaborationError Unit × List EditResult) × Simulator μ :=
  let log := s.design.applyAll edits
  let s := { s with design := log.design }
  match log.refusal with
  | some e => ((.error (.ofEdit e), log.results), s)
  | none =>
    let (outcome, s) := s.reelaborate
    ((outcome, log.results), s)

end Simulator

end Cyclewise
