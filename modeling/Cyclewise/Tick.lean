import Cyclewise.Config
import Cyclewise.Block.Behavior
import Cyclewise.Schedule.Basic

/-!
# Ticks

A `Tick` runs every scheduled block once, in order, and stops at the first block that fails; what
was written up to then stays.  It comes in two forms: a list of steps, or a balanced tree of steps
fused pair by pair.  Both run the same steps in the same order.  A tick remembers the revision of
the design that it was made for.
-/

namespace Cyclewise

/-- Why a cycle is not completed. -/
inductive StepError where
  /-- A block failed. -/
  | blockFailed (block : BlockId) (name : String) (reason : BlockError)
  /-- An earlier cycle failed. -/
  | halted
  /-- The design was edited since the tick was made. -/
  | staleSchedule (generated current : Nat)
deriving DecidableEq

namespace StepError

/-- The wording of a failure. -/
def message : StepError → String
  | blockFailed block name reason =>
    s!"update block '{name}' (#{block}) failed: {reason.message}"
  | halted => "simulation halted after a failed cycle"
  | staleSchedule generated current =>
    s!"tick generated for revision {generated} but the design is at revision {current}"

end StepError

/-- Why a schedule gives no tick. -/
inductive GenerateError where
  /-- No block is scheduled. -/
  | emptySchedule
  /-- A scheduled block is not at hand. -/
  | missingBlock (block : BlockId)
deriving DecidableEq

namespace GenerateError

/-- The wording of a refusal. -/
def message : GenerateError → String
  | emptySchedule => "no update blocks to schedule"
  | missingBlock block => s!"scheduled update block #{block} has no behavior"

end GenerateError

/-- A scheduled block with what it does. -/
structure Step (μ : Type) where
  block : BlockId
  name : String
  behavior : Behavior μ

/-- What steps work on: the memory of the behaviors and the signals. -/
structure Machine (μ σ : Type) where
  memory : μ
  signals : σ

variable {μ σ : Type} [SignalState σ]

namespace Step

/-- Run a block in a cycle. -/
def run (s : Step μ) (cycle : Nat) (m : Machine μ σ) : Except StepError Unit × Machine μ σ :=
  match (s.behavior s.block cycle m.memory).run m.signals with
  | ((.ok (), memory), signals) => (.ok (), ⟨memory, signals⟩)
  | ((.error reason, memory), signals) =>
    (.error (.blockFailed s.block s.name reason), ⟨memory, signals⟩)

/-- Run steps up to the first failure. -/
def runAll (cycle : Nat) : List (Step μ) → Machine μ σ → Except StepError Unit × Machine μ σ
  | [], m => (.ok (), m)
  | s :: rest, m =>
    match s.run cycle m with
    | (.ok (), m) => runAll cycle rest m
    | (.error e, m) => (.error e, m)

end Step

/-! ## Fused steps -/

/-- Steps fused into a tree. -/
inductive Fused (μ : Type) where
  | idle
  | leaf (step : Step μ)
  | pair (first second : Fused μ)

namespace Fused

/-- The steps of a tree, in order. -/
def steps : Fused μ → List (Step μ)
  | idle => []
  | leaf step => [step]
  | pair first second => first.steps ++ second.steps

/-- Run a tree: the second half only if the first one succeeds. -/
def run (cycle : Nat) : Fused μ → Machine μ σ → Except StepError Unit × Machine μ σ
  | idle, m => (.ok (), m)
  | leaf step, m => step.run cycle m
  | pair first second, m =>
    match first.run cycle m with
    | (.ok (), m) => second.run cycle m
    | (.error e, m) => (.error e, m)

/-- Fuse neighbours; the last of an odd number stays as it is. -/
def pairUp : List (Fused μ) → List (Fused μ)
  | first :: second :: rest => pair first second :: pairUp rest
  | rest => rest

/-- Fuse neighbours, at most `rounds` times, until one tree is left. -/
def fuse : Nat → List (Fused μ) → Fused μ
  | _, [] => idle
  | _, [tree] => tree
  | 0, trees => trees.foldr pair idle
  | rounds + 1, trees => fuse rounds (pairUp trees)

/-- The tree of a list of steps.  A round at least halves their number. -/
def ofSteps (steps : List (Step μ)) : Fused μ := fuse steps.length (steps.map leaf)

end Fused

/-! ## Ticks -/

/-- The two forms of a tick. -/
inductive Procedure (μ : Type) where
  | sequence (steps : List (Step μ))
  | fused (tree : Fused μ)

namespace Procedure

/-- Put steps together. -/
def ofSteps (mode : TickMode) (steps : List (Step μ)) : Procedure μ :=
  match mode with
  | .normal => sequence steps
  | .unrolled => fused (Fused.ofSteps steps)

/-- The form that a procedure has. -/
def mode : Procedure μ → TickMode
  | sequence _ => .normal
  | fused _ => .unrolled

/-- The steps, in the order in which they run. -/
def steps : Procedure μ → List (Step μ)
  | sequence steps => steps
  | fused tree => tree.steps

/-- Run the steps up to the first failure. -/
def run (cycle : Nat) (p : Procedure μ) (m : Machine μ σ) : Except StepError Unit × Machine μ σ :=
  match p with
  | sequence steps => Step.runAll cycle steps m
  | fused tree => tree.run cycle m

end Procedure

/-- The work of one cycle. -/
structure Tick (μ : Type) where
  revision : Nat
  procedure : Procedure μ

namespace Tick

/-- The form of the tick. -/
def mode (t : Tick μ) : TickMode := t.procedure.mode

/-- The blocks that run, in order. -/
def order (t : Tick μ) : List BlockId := t.procedure.steps.map Step.block

/-- The number of blocks that run. -/
def size (t : Tick μ) : Nat := t.order.length

/-- Whether no block runs. -/
def isEmpty (t : Tick μ) : Bool := t.order.isEmpty

/-- Run one cycle. -/
def call (t : Tick μ) (cycle : Nat) (m : Machine μ σ) : Except StepError Unit × Machine μ σ :=
  t.procedure.run cycle m

/-- The step of a scheduled block. -/
def step (block? : BlockId → Option (UpdateBlock μ)) (b : BlockId) :
    Except GenerateError (Step μ) :=
  match block? b with
  | some block => .ok ⟨b, block.name, block.behavior⟩
  | none => .error (.missingBlock b)

/-- The tick of a schedule, whose blocks are looked up once and for all. -/
def generate (s : Schedule) (block? : BlockId → Option (UpdateBlock μ)) (mode : TickMode)
    (revision : Nat) : Except GenerateError (Tick μ) := do
  if s.isEmpty then throw .emptySchedule
  let steps ← s.order.mapM (step block?)
  return ⟨revision, .ofSteps mode steps⟩

/-- A short description. -/
def describe (t : Tick μ) : String :=
  let mode := match t.mode with
    | .normal => "Normal"
    | .unrolled => "Unrolled"
  let order := ", ".intercalate (t.order.map fun b => s!"BlockId({b})")
  "TickFn \x7b " ++ s!"mode: {mode}, revision: {t.revision}, order: [{order}]" ++ " \x7d"

end Tick

end Cyclewise
