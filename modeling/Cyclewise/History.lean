import Cyclewise.Simulator

/-!
# Histories of a simulator

A `Command` is one of the things that can be done to a simulator, and `Simulator.perform` does it.
The states that a simulator can get into are those that a list of commands leads to.
-/

namespace Cyclewise

/-- One operation on a simulator. -/
inductive Command (μ : Type) where
  | poke (signal : SignalId) (value : UInt64)
  | tick
  | run (cycles : Nat)
  | reset
  | reelaborate
  | restructure (edits : List (Edit μ))
  /-- An edit of the design that is not followed by an elaboration. -/
  | edit (e : Edit μ)

/-- What an operation answers. -/
inductive Outcome where
  | poked (result : Except BlockError Unit)
  | ticked (result : Except StepError Unit)
  /-- The number of cycles run. -/
  | ran (result : Except StepError Nat)
  | wasReset
  | elaborated (result : Except ElaborationError Unit)
  /-- With the results of the edits made. -/
  | restructured (result : Except ElaborationError Unit) (edits : List EditResult)
  | edited (result : Except EditError EditResult)

namespace Simulator

variable {μ : Type}

/-- Do one operation. -/
def perform (s : Simulator μ) : Command μ → Outcome × Simulator μ
  | .poke a value => (s.poke a value).map .poked id
  | .tick => s.tick.map .ticked id
  | .run cycles => (s.run cycles).map .ran id
  | .reset => (.wasReset, s.reset)
  | .reelaborate => s.reelaborate.map .elaborated id
  | .restructure edits => (s.restructure edits).map (fun (r, results) => .restructured r results) id
  | .edit e => (s.edit e).map .edited id

/-- Do operations in order. -/
def performAll (s : Simulator μ) : List (Command μ) → List Outcome × Simulator μ
  | [] => ([], s)
  | c :: rest =>
    let (outcome, s) := s.perform c
    let (outcomes, s) := s.performAll rest
    (outcome :: outcomes, s)

end Simulator

end Cyclewise
