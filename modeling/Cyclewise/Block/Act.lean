import Cyclewise.Block.Behavior

/-!
# Behaviors as lists of acts

An act reads a few signals and writes one, or fails.  `Act.behavior` runs acts in order up to the
first failure; what earlier acts wrote stays.  Arithmetic is modulo 2^64.
-/

namespace Cyclewise

/-- The primitive steps of a behavior. -/
inductive Act where
  /-- Write a constant. -/
  | const (dst : SignalId) (value : UInt64)
  /-- Write the sum of the sources, times `scale`, plus `offset`. -/
  | sum (dst : SignalId) (sources : List SignalId) (scale offset : UInt64)
  /-- Write the exclusive or of `mask` and the sources. -/
  | xor (dst : SignalId) (sources : List SignalId) (mask : UInt64)
  /-- Write the number of the current cycle. -/
  | cycle (dst : SignalId)
  /-- Write the number of the running block. -/
  | blockId (dst : SignalId)
  /-- Fail. -/
  | fail (reason : String)
  /-- Fail where the signal reads `value`. -/
  | failIf (signal : SignalId) (value : UInt64) (reason : String)
  /-- Fail in one cycle. -/
  | failAt (due : Nat) (reason : String)

namespace Routine

/-- Give up. -/
def fail {α : Type} (reason : String) : Routine α := throw (.executionFailed reason)

/-- Read sources in order and combine their values from the left. -/
def foldReads (f : UInt64 → UInt64 → UInt64) (start : UInt64) : List SignalId → Routine UInt64
  | [] => pure start
  | s :: rest => do
    let value ← read s
    foldReads f (f start value) rest

end Routine

namespace Act

/-- What an act does for a block in a cycle. -/
def routine (block : BlockId) (now : Nat) : Act → Routine Unit
  | const dst value => Routine.write dst value
  | sum dst sources scale offset => do
    let total ← Routine.foldReads (· + ·) 0 sources
    Routine.write dst (total * scale + offset)
  | xor dst sources mask => do
    let value ← Routine.foldReads (· ^^^ ·) mask sources
    Routine.write dst value
  | cycle dst => Routine.write dst (UInt64.ofNat now)
  | blockId dst => Routine.write dst (UInt64.ofNat block.index)
  | fail reason => Routine.fail reason
  | failIf signal value reason => do
    let current ← Routine.read signal
    if current = value then Routine.fail reason
  | failAt due reason => if now = due then Routine.fail reason else pure ()

/-- Run acts in order. -/
def routines (block : BlockId) (now : Nat) : List Act → Routine Unit
  | [] => pure ()
  | a :: rest => do
    a.routine block now
    routines block now rest

/-- The behavior that runs acts in order. -/
def behavior {μ : Type} (acts : List Act) : Behavior μ :=
  Behavior.ofRoutine fun block now => routines block now acts

end Act

end Cyclewise
