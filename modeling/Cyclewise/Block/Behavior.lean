import Cyclewise.Block.Body

/-!
# Update blocks and their behavior

What a block does in a cycle is a `Program`: a tree of signal reads and writes that ends in a
result.  A program can be run on any state that answers reads and takes writes (`SignalState`);
later reads see earlier writes, and a refused write leaves the state alone.  A `Behavior` gives the
program of a block from its identifier, the cycle, and a memory that behaviors may keep between
calls; the memory is shared by all blocks of a simulation.
-/

namespace Cyclewise

/-- Why a block fails. -/
inductive BlockError where
  /-- The behavior gave up. -/
  | executionFailed (reason : String)
  /-- The state does not know the signal. -/
  | unknownSignal (signal : SignalId)
  /-- The net of the signal is driven by a constant. -/
  | constWrite (signal : SignalId)
deriving DecidableEq

namespace BlockError

/-- The wording of a failure. -/
def message : BlockError → String
  | executionFailed reason => s!"execution failed: {reason}"
  | unknownSignal signal => s!"unknown signal {signal}"
  | constWrite signal => s!"write to constant-driven signal {signal}"

end BlockError

/-- States that hold signal values. -/
class SignalState (σ : Type) where
  /-- The value of a signal that the state knows. -/
  read? : σ → SignalId → Option UInt64
  /-- The state after a write, or why it is refused. -/
  write : σ → SignalId → UInt64 → Except BlockError σ

/-! ## Programs -/

/-- Reads and writes of signals, each continued by its outcome, up to a result. -/
inductive Program (α : Type) where
  | done (result : α)
  | read (signal : SignalId) (next : Except BlockError UInt64 → Program α)
  | write (signal : SignalId) (value : UInt64) (next : Except BlockError Unit → Program α)

namespace Program

variable {α β σ : Type}

/-- Go on with `f` where the program ends. -/
def bind : Program α → (α → Program β) → Program β
  | done result, f => f result
  | read signal next, f => read signal fun r => (next r).bind f
  | write signal value next, f => write signal value fun r => (next r).bind f

instance : Monad Program where
  pure := done
  bind := bind

/-- Run on a state: a read of an unknown signal fails, a refused write changes nothing. -/
def run [SignalState σ] : Program α → σ → α × σ
  | done result, state => (result, state)
  | read signal next, state =>
    match SignalState.read? state signal with
    | some value => (next (.ok value)).run state
    | none => (next (.error (.unknownSignal signal))).run state
  | write signal value next, state =>
    match SignalState.write state signal value with
    | .ok state' => (next (.ok ())).run state'
    | .error e => (next (.error e)).run state

end Program

/-- Programs that stop at their first failure. -/
abbrev Routine (α : Type) := ExceptT BlockError Program α

namespace Routine

/-- The value of a signal. -/
def read (s : SignalId) : Routine UInt64 := ExceptT.mk (Program.read s .done)

/-- Set a signal. -/
def write (s : SignalId) (value : UInt64) : Routine Unit :=
  ExceptT.mk (Program.write s value .done)

end Routine

/-! ## Blocks -/

/-- What a block does: its identifier, the cycle and the shared memory give a program that ends
with success or failure and the memory for later calls. -/
abbrev Behavior (μ : Type) := BlockId → Nat → μ → Program (Except BlockError Unit × μ)

namespace Behavior

variable {μ : Type}

/-- A behavior that neither looks at the memory nor changes it. -/
def ofRoutine (f : BlockId → Nat → Routine Unit) : Behavior μ :=
  fun block cycle memory => (f block cycle).run.bind fun outcome => .done (outcome, memory)

end Behavior

/-- A named unit of logic: a body to analyse and a behavior to run. -/
structure UpdateBlock (μ : Type) where
  name : String
  body : Body
  behavior : Behavior μ

end Cyclewise
