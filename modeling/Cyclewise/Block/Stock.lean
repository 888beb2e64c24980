import Cyclewise.Block.Act

/-!
# Ready-made blocks

Each constructor pairs a body with a behavior that does what the body says: copy a signal, add one
to it, add two signals, set a constant.  Every read comes before the write.  `failing` counts its
calls in the shared memory and fails from some call on, so all copies of the block count together
and nothing ever sets the count back.
-/

namespace Cyclewise

/-- How often each counting block was called, by counter. -/
structure CallCounts where
  counts : List Nat
deriving Inhabited

namespace CallCounts

/-- No counter has been used. -/
def empty : CallCounts := ⟨[]⟩

/-- The calls noted by a counter. -/
def get (c : CallCounts) (counter : Nat) : Nat := c.counts.getD counter 0

/-- One more call for the counter at a place of a list, which grows as needed. -/
def bumpAt : List Nat → Nat → List Nat
  | [], 0 => [1]
  | n :: ns, 0 => (n + 1) :: ns
  | [], k + 1 => 0 :: bumpAt [] k
  | n :: ns, k + 1 => n :: bumpAt ns k

/-- Note one more call. -/
def bump (c : CallCounts) (counter : Nat) : CallCounts := ⟨bumpAt c.counts counter⟩

end CallCounts

namespace UpdateBlock

variable {μ : Type}

/-- A block of one assignment with a memoryless behavior. -/
def ofAssignment (name : String) (dst : SignalId) (value : Expr) (line : Nat)
    (routine : Routine Unit) : UpdateBlock μ where
  name := name
  body := [Stmt.set dst value (Span.ofLine line)]
  behavior := Behavior.ofRoutine fun _ _ => routine

/-- `dst` gets `src`. -/
def copy (name : String) (src dst : SignalId) : UpdateBlock μ :=
  ofAssignment name dst (.read src) 1 do
    let value ← Routine.read src
    Routine.write dst value

/-- `s` gets one more than it has. -/
def increment (name : String) (s : SignalId) : UpdateBlock μ :=
  ofAssignment name s (.binary .add (.read s) (.const 1)) 1 do
    let value ← Routine.read s
    Routine.write s (value + 1)

/-- `dst` gets the sum of `a` and `b`. -/
def add (name : String) (a b dst : SignalId) : UpdateBlock μ :=
  ofAssignment name dst (.binary .add (.read a) (.read b)) 1 do
    let x ← Routine.read a
    let y ← Routine.read b
    Routine.write dst (x + y)

/-- `dst` gets a constant. -/
def constant (name : String) (dst : SignalId) (value : UInt64) : UpdateBlock μ :=
  ofAssignment name dst (.const value) 1 (Routine.write dst value)

/-- `dst` gets the number of the call; from call number `succeed` on the block fails instead.
Failed calls count too. -/
def failing (name : String) (dst : SignalId) (succeed counter : Nat) : UpdateBlock CallCounts where
  name := name
  body := [Stmt.set dst (.const 0) (Span.ofLine 1)]
  behavior := fun _ _ memory =>
    let call := memory.get counter
    let routine : Routine Unit :=
      if succeed ≤ call then
        Routine.fail s!"deliberate failure after {succeed} successful calls"
      else Routine.write dst (UInt64.ofNat call)
    routine.run.bind fun outcome => .done (outcome, memory.bump counter)

end UpdateBlock

end Cyclewise
