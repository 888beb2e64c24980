import Cyclewise.Block.Stock
import Cyclewise.Design

/-!
# Sample designs

Designs of any size to try elaboration and simulation on.  All their signals are wires of the top
component, which is called `top`, and their blocks are registered against the flow of data.

* `chainProfile n`: `n` stages, each copying one signal to the next.
* `gridProfile lanes stages`: each lane adds the neighbouring lane at every stage.
* `ringProfile n`: `n` incrementers in a ring, ordered by constraints, so that the edge that closes
  the ring is a register.
* `counter`: a counter and a display of it.
* `copyChain n`: the chain made of stock copy blocks.
-/

namespace Cyclewise

namespace Design

variable {μ : Type}

/-- The declaration of a wire. -/
def wire (path : String) : Edit μ := .declare path .wire "Bits64" Hierarchy.top

/-- A block of the top component. -/
def topBlock (block : UpdateBlock μ) : Edit μ := .registerBlock Hierarchy.top block

/-- A block that sets `dst` to the sum of `first` and the sources in `rest`. -/
def sumBlock (name : String) (first : SignalId) (rest : List SignalId) (dst : SignalId)
    (line : Nat) : UpdateBlock μ :=
  let value := rest.foldl (fun e s => .binary .add e (.read s)) (Expr.read first)
  UpdateBlock.ofAssignment name dst value line do
    let total ← Routine.foldReads (· + ·) 0 (first :: rest)
    Routine.write dst total

/-! ## Chain -/

/-- Stage `i` of a chain. -/
def chainStage (i : Nat) : UpdateBlock μ := sumBlock s!"stage{i}" ⟨i⟩ [] ⟨i + 1⟩ i

/-- Copy stages in one chain, the last one registered first. -/
def chainProfile (n : Nat) : Design μ :=
  ofEdits "top" <|
    ((List.range (n + 1)).map fun i => wire s!"top.s{i}") ++
      (List.range n).reverse.map fun i => topBlock (chainStage i)

/-- The chain of stock copy blocks. -/
def copyChain (n : Nat) : Design μ :=
  ofEdits "top" <|
    ((List.range (n + 1)).map fun i => wire s!"top.s{i}") ++
      (List.range n).reverse.map fun i =>
        topBlock (UpdateBlock.copy s!"stage{i}" ⟨i⟩ ⟨i + 1⟩)

/-! ## Grid -/

/-- The signal of a lane at a stage. -/
def gridSignal (stages lane stage : Nat) : SignalId := ⟨lane * (stages + 1) + stage⟩

/-- The adder of a lane at a stage; a single lane has no neighbour to add. -/
def gridCell (lanes stages lane stage : Nat) : UpdateBlock μ :=
  sumBlock s!"l{lane}s{stage}" (gridSignal stages lane stage)
    (if 1 < lanes then [gridSignal stages ((lane + 1) % lanes) stage] else [])
    (gridSignal stages lane (stage + 1)) stage

/-- Adders in lanes, the last stage registered first. -/
def gridProfile (lanes stages : Nat) : Design μ :=
  ofEdits "top" <|
    ((List.range lanes).flatMap fun l =>
        (List.range (stages + 1)).map fun s => wire s!"top.l{l}.s{s}") ++
      (List.range stages).reverse.flatMap fun s =>
        (List.range lanes).map fun l => topBlock (gridCell lanes stages l s)

/-! ## Ring -/

/-- Incrementer `i` of a ring of `n`. -/
def ringCell (n i : Nat) : UpdateBlock μ :=
  let src : SignalId := ⟨(i + n - 1) % n⟩
  UpdateBlock.ofAssignment s!"inc{i}" ⟨i⟩ (.binary .add (.read src) (.const 1)) i do
    let value ← Routine.read src
    Routine.write ⟨i⟩ (value + 1)

/-- The block of incrementer `i`; the last one is registered first. -/
def ringBlock (n i : Nat) : BlockId := ⟨n - 1 - i⟩

/-- The constraints that each incrementer precedes the next one. -/
def ringConstraints (n : Nat) : List Constraint :=
  (List.range (n - 1)).map fun i => ⟨ringBlock n i, ringBlock n (i + 1)⟩

/-- What makes a ring of an empty design. -/
def ringEdits (n : Nat) : List (Edit μ) :=
  ((List.range n).map fun i => wire s!"top.r{i}") ++
    ((List.range n).reverse.map fun i => topBlock (ringCell n i)) ++
    [.addConstraints Hierarchy.top (ringConstraints n)]

/-- Incrementers in a ring, the last one registered first. -/
def ringProfile (n : Nat) : Design μ := ofEdits "top" (ringEdits n)

/-! ## Counter -/

/-- A counter under its own component, and a display that must follow it. -/
def counter : Design μ :=
  ofEdits "top"
    [wire "top.counter", wire "top.display",
      .addComponent Hierarchy.top "ctr",
      .registerBlock ⟨1⟩ (UpdateBlock.increment "incr" ⟨0⟩),
      .registerBlock ⟨1⟩ (UpdateBlock.copy "report" ⟨0⟩ ⟨1⟩),
      .addConstraint ⟨1⟩ ⟨0⟩ ⟨1⟩]

end Design

end Cyclewise
