import Cyclewise.Design
import Cyclewise.Net.Resolution
import Cyclewise.Tick

/-!
# Elaboration

`Design.elaborate` takes a design through its stages: settings and connections are checked, the live
blocks are analysed, the signals are resolved into nets, and the blocks are scheduled.  The first
stage that fails decides the error.  `Design.compile` also makes the tick.
-/

namespace Cyclewise

/-- What a design becomes. -/
structure Elaboration where
  extraction : Extraction
  nets : NetMap
  schedule : Schedule
  /-- The revision of the design that was elaborated. -/
  revision : Nat

/-- The size of an elaboration. -/
structure Metrics where
  blocks : Nat
  nets : Nat
  inferredEdges : Nat
  sequentialEdges : Nat
  explicitEdges : Nat
  batches : Nat
deriving DecidableEq

namespace Elaboration

/-- Count blocks, nets, edges and batches. -/
def metrics (e : Elaboration) : Metrics where
  blocks := e.schedule.size
  nets := e.nets.size
  inferredEdges := e.schedule.retained.length + e.schedule.sequential.length
  sequentialEdges := e.schedule.sequential.length
  explicitEdges := e.schedule.constraints.length
  batches := e.schedule.batches.length

end Elaboration

/-- Why a design cannot be run, by stage; an edit on the way counts as a stage. -/
inductive ElaborationError where
  | config (e : ConfigError)
  | hierarchy (e : HierarchyError)
  | signal (e : SignalError)
  | extract (e : ExtractError)
  | net (e : NetError)
  | schedule (e : ScheduleError)
  | generate (e : GenerateError)
deriving DecidableEq

namespace ElaborationError

/-- The wording of the failure inside its stage. -/
def cause : ElaborationError → String
  | config e => e.message
  | hierarchy e => e.message
  | signal e => e.message
  | extract e => e.message
  | net e => e.message
  | schedule e => e.message
  | generate e => e.message

/-- The name of the stage. -/
def stage : ElaborationError → String
  | config _ => "invalid configuration"
  | hierarchy _ => "registry"
  | signal _ => "signal table"
  | extract _ => "dependency extraction"
  | net _ => "net resolution"
  | schedule _ => "scheduling"
  | generate _ => "tick generation"

/-- The wording of a failure: the stage and the cause. -/
def message (e : ElaborationError) : String := s!"{e.stage}: {e.cause}"

/-- A refused edit as a failure. -/
def ofEdit : EditError → ElaborationError
  | .hierarchy e => hierarchy e
  | .signal e => signal e

end ElaborationError

namespace Design

variable {μ : Type}

/-- The live blocks, by ascending number. -/
def liveBlocks (d : Design μ) : List (BlockId × UpdateBlock μ) :=
  d.hierarchy.flattened.blocks.filterMap fun b => (d.hierarchy.block? b).map fun block => (b, block)

/-- Analyse, resolve and schedule a design. -/
def elaborate (d : Design μ) (config : SimConfig) : Except ElaborationError Elaboration := do
  config.validate.mapError .config
  d.validate.mapError .config
  let extraction ← (extract d.liveBlocks).mapError .extract
  let options : ResolveOptions := ⟨config.denyUndriven, Hierarchy.top⟩
  let nets ← (resolve d.signals d.connections extraction options).mapError .net
  let schedule ←
    (schedule d.signals extraction nets d.hierarchy.flattened.constraints).mapError .schedule
  return { extraction, nets, schedule, revision := d.revision }

/-- Elaborate a design and make its tick. -/
def compile (d : Design μ) (config : SimConfig) :
    Except ElaborationError (Elaboration × Tick μ) := do
  let e ← d.elaborate config
  let tick ← (Tick.generate e.schedule d.hierarchy.block? config.mode e.revision).mapError .generate
  return (e, tick)

end Design

end Cyclewise
