import Cyclewise.Block.Access

/-!
# What a body computes

The analysis of a body never runs it.  A `Meaning` says what running would be: it interprets the
literals, the operators and the accesses over values of any type, and leaves calls and unbound
locals as constants.  `Meaning.run` then executes a body on a store of signals, with no local bound
at first.  Loops, which the analysis refuses, have no execution of their own.
-/

namespace Cyclewise

/-- An interpretation of expressions and accesses by values of a type. -/
structure Meaning (V : Type) where
  literal : UInt64 → V
  unary : UnaryOp → V → V
  binary : BinaryOp → V → V → V
  compare : CompareOp → V → V → V
  /-- Whether a test with this value holds. -/
  holds : V → Bool
  call : String → List Expr → V
  /-- The value of a local that was never bound. -/
  unbound : String → V
  /-- What an access reads, from the value of its index, if any, and the values of its targets. -/
  fetch : List SignalId → Option V → List V → V
  /-- Whether a write with this value of the index updates a target. -/
  selects : List SignalId → V → SignalId → Bool

/-- The values of the signals and of the bound locals. -/
structure Valuation (V : Type) where
  signals : SignalId → V
  locals : String → Option V

namespace Valuation

variable {V : Type}

/-- A store of signals without locals. -/
def ofSignals (signals : SignalId → V) : Valuation V := ⟨signals, fun _ => none⟩

/-- Set some signals to one value. -/
def set (v : Valuation V) (written : List SignalId) (value : V) : Valuation V :=
  { v with signals := fun s => if s ∈ written then value else v.signals s }

/-- Bind a local. -/
def bind (v : Valuation V) (name : String) (value : V) : Valuation V :=
  { v with locals := fun other => if other = name then some value else v.locals other }

end Valuation

namespace Meaning

variable {V : Type} (m : Meaning V)

/-- The value of an expression. -/
def eval (v : Valuation V) : Expr → V
  | .const value => m.literal value
  | .localVar name => (v.locals name).getD (m.unbound name)
  | .signal targets => m.fetch targets none (targets.map v.signals)
  | .element targets index => m.fetch targets (some (eval v index)) (targets.map v.signals)
  | .unary op operand => m.unary op (eval v operand)
  | .binary op lhs rhs => m.binary op (eval v lhs) (eval v rhs)
  | .compare op lhs rhs => m.compare op (eval v lhs) (eval v rhs)
  | .cond test thenExpr elseExpr =>
    if m.holds (eval v test) then eval v thenExpr else eval v elseExpr
  | .call function args => m.call function args

/-- The value that an in-place update starts from. -/
def current (v : Valuation V) : Access → V
  | .direct targets => m.fetch targets none (targets.map v.signals)
  | .element targets index => m.fetch targets (some (m.eval v index)) (targets.map v.signals)

/-- The targets that a write updates: all of them, or those that the index selects. -/
def updated (v : Valuation V) : Access → List SignalId
  | .direct targets => targets
  | .element targets index => targets.filter (m.selects targets (m.eval v index))

/-- Write a value through an access. -/
def put (value : V) (v : Valuation V) (target : Access) : Valuation V :=
  v.set (m.updated v target) value

mutual

/-- Execute a statement.  The targets of an assignment are written one after the other. -/
def exec (v : Valuation V) : Stmt → Valuation V
  | .assign targets value _ => targets.foldl (m.put (m.eval v value)) v
  | .update target op value _ => m.put (m.binary op (m.current v target) (m.eval v value)) v target
  | .bind name value _ => v.bind name (m.eval v value)
  | .branch test thenArm elseArm _ =>
    if m.holds (m.eval v test) then execAll v thenArm else execAll v elseArm
  | .eval _ _ | .forLoop _ _ _ _ | .whileLoop _ _ _ | .pass _ => v

/-- Execute statements in order. -/
def execAll (v : Valuation V) : List Stmt → Valuation V
  | [] => v
  | s :: rest => execAll (exec v s) rest

end

/-- The store that a body leaves. -/
def run (signals : SignalId → V) (body : Body) : SignalId → V :=
  (m.execAll (.ofSignals signals) body).signals

/-- The meaning in words of 64 bits: arithmetic modulo 2^64, truth as being nonzero, an index that
selects by place. -/
def words : Meaning UInt64 where
  literal value := value
  unary
    | .not, x => if x = 0 then 1 else 0
    | .neg, x => -x
    | .invert, x => ~~~x
  binary
    | .add, x, y => x + y
    | .sub, x, y => x - y
    | .mul, x, y => x * y
    | .div, x, y => x / y
    | .mod, x, y => x % y
    | .bitAnd, x, y => x &&& y
    | .bitOr, x, y => x ||| y
    | .bitXor, x, y => x ^^^ y
    | .shiftLeft, x, y => x <<< y
    | .shiftRight, x, y => x >>> y
    | .and, x, y => if x = 0 then x else y
    | .or, x, y => if x = 0 then y else x
  compare
    | .eq, x, y => if x = y then 1 else 0
    | .ne, x, y => if x = y then 0 else 1
    | .lt, x, y => if x < y then 1 else 0
    | .le, x, y => if x ≤ y then 1 else 0
    | .gt, x, y => if y < x then 1 else 0
    | .ge, x, y => if y ≤ x then 1 else 0
  holds x := x ≠ 0
  call _ _ := 0
  unbound _ := 0
  fetch _ index values := values.getD ((index.map UInt64.toNat).getD 0) 0
  selects targets index s := targets[index.toNat]? = some s

end Meaning

end Cyclewise
