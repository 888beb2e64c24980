import Cyclewise.Id

/-!
# Bodies of update blocks

The body of a block is the text that dependency analysis reads.  It is never executed: signals are
already resolved, local variables are plain names, calls are opaque, and an access with a dynamic
index names every signal that it could touch.
-/

namespace Cyclewise

/-- A position in the text of a block. -/
structure Span where
  line : Nat
  column : Nat
deriving DecidableEq

namespace Span

/-- The first column of a line. -/
def ofLine (line : Nat) : Span := ⟨line, 0⟩

end Span

instance : ToString Span := ⟨fun p => s!"{p.line}:{p.column}"⟩

/-- Operators with one operand. -/
inductive UnaryOp where
  | not
  | neg
  | invert
deriving DecidableEq

namespace UnaryOp

/-- The operator that a symbol stands for. -/
def ofSymbol? : String → Option UnaryOp
  | "not" => some not
  | "-" => some neg
  | "~" => some invert
  | _ => none

end UnaryOp

/-- Arithmetic, bitwise and logical operators with two operands. -/
inductive BinaryOp where
  | add
  | sub
  | mul
  | div
  | mod
  | bitAnd
  | bitOr
  | bitXor
  | shiftLeft
  | shiftRight
  | and
  | or
deriving DecidableEq

namespace BinaryOp

/-- The operator that a symbol stands for. -/
def ofSymbol? : String → Option BinaryOp
  | "+" => some add
  | "-" => some sub
  | "*" => some mul
  | "//" => some div
  | "%" => some mod
  | "&" => some bitAnd
  | "|" => some bitOr
  | "^" => some bitXor
  | "<<" => some shiftLeft
  | ">>" => some shiftRight
  | "and" => some and
  | "or" => some or
  | _ => none

end BinaryOp

/-- Comparisons. -/
inductive CompareOp where
  | eq
  | ne
  | lt
  | le
  | gt
  | ge
deriving DecidableEq

namespace CompareOp

/-- The operator that a symbol stands for. -/
def ofSymbol? : String → Option CompareOp
  | "==" => some eq
  | "!=" => some ne
  | "<" => some lt
  | "<=" => some le
  | ">" => some gt
  | ">=" => some ge
  | _ => none

end CompareOp

/-- Expressions. -/
inductive Expr where
  /-- A literal. -/
  | const (value : UInt64)
  /-- A local variable of the block. -/
  | localVar (name : String)
  /-- A read of the target signals. -/
  | signal (targets : List SignalId)
  /-- A read of the target that a dynamic index selects. -/
  | element (targets : List SignalId) (index : Expr)
  | unary (op : UnaryOp) (operand : Expr)
  | binary (op : BinaryOp) (lhs rhs : Expr)
  | compare (op : CompareOp) (lhs rhs : Expr)
  /-- `thenExpr` where `test` holds, `elseExpr` elsewhere. -/
  | cond (test thenExpr elseExpr : Expr)
  /-- A call of an opaque function; its arguments are not analysed. -/
  | call (function : String) (args : List Expr)

namespace Expr

/-- A read of one signal. -/
def read (s : SignalId) : Expr := signal [s]

end Expr

/-- A place to assign to. -/
inductive Access where
  /-- The target signals. -/
  | direct (targets : List SignalId)
  /-- The target that a dynamic index selects. -/
  | element (targets : List SignalId) (index : Expr)

namespace Access

/-- The signals that the access may touch. -/
def targets : Access → List SignalId
  | direct targets => targets
  | element targets _ => targets

/-- The dynamic index. -/
def index? : Access → Option Expr
  | direct _ => none
  | element _ index => some index

/-- An access to one signal. -/
def one (s : SignalId) : Access := direct [s]

end Access

/-- Statements. -/
inductive Stmt where
  /-- Every target gets the value. -/
  | assign (targets : List Access) (value : Expr) (span : Span)
  /-- The target is combined with the value; it is read as well as written. -/
  | update (target : Access) (op : BinaryOp) (value : Expr) (span : Span)
  /-- A local variable gets the value. -/
  | bind (name : String) (value : Expr) (span : Span)
  /-- A conditional.  An alternative test is a conditional alone in the else arm. -/
  | branch (test : Expr) (thenArm elseArm : List Stmt) (span : Span)
  /-- An expression for its own sake. -/
  | eval (value : Expr) (span : Span)
  /-- A loop over the values of an expression. -/
  | forLoop (name : String) (range : Expr) (body : List Stmt) (span : Span)
  /-- A loop as long as a test holds. -/
  | whileLoop (test : Expr) (body : List Stmt) (span : Span)
  | pass (span : Span)

namespace Stmt

/-- One signal gets the value. -/
def set (s : SignalId) (value : Expr) (span : Span) : Stmt := assign [Access.one s] value span

end Stmt

/-- The body of a block: its statements in the order of the text. -/
abbrev Body := List Stmt

end Cyclewise
